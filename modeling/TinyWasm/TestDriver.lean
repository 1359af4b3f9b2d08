import TinyWasm.ExecutablePages
import TinyWasm.FallibleLoop
import TinyWasm.OrderedMultimap

/-!
# The test driver

`test_chapter`: the entries of a test file are sorted into modules, each parsed
once, and commands, kept under the module that came last. Then the commands are
run one after another: arguments are read, the function is compiled and
executed, and what it did is compared with what the command expects. A command
that does not match stops the driver.
-/

namespace TestDriver

open HexText Wasm Emit Parser RepeatedCalls ExecutablePages

/-! ### The test file -/

/-- An argument: its two strings, the value without its quotes. -/
structure Argument where
  type : Text
  value : Text
  deriving DecidableEq, Repr

/-- What the driver reads of a command. `expected` is the first expected value without its quotes,
if there is one. -/
structure Command where
  type : Text
  field : List Byte
  args : List Argument
  expected : Option Text
  deriving DecidableEq, Repr

/-- An entry of `data["commands"]`, by the key the driver looks for. -/
inductive Entry where
  | file (filename : List Byte)
  | action (command : Command)
  | other
  deriving DecidableEq, Repr

/-- A missing value is dumped as `null`, and loses its first and last character too. -/
def Command.expect_str (command : Command) : Text := command.expected.getD "ul".toList

/-- `isspace` of the default locale. -/
def isSpace (ch : Char) : Bool := ch = ' ' || ('\t' ≤ ch && ch ≤ '\r')

/-- `stoul(s)` and `stoull(s)`, to base ten. -/
def stoulDecimal (s : Text) : Except CppError Nat :=
  let s := s.dropWhile isSpace
  let negative := s.head? = some '-'
  let s := if negative ∨ s.head? = some '+' then s.tail else s
  let digits := s.takeWhile Char.isDigit
  if digits = [] then .error (.invalidArgument "stoul")
  else
    let value := digits.foldl (fun value ch => 10 * value + (ch.toNat - '0'.toNat)) 0
    if 2 ^ 64 ≤ value then .error (.outOfRange "stoul")
    else .ok (if negative then (2 ^ 64 - value) % 2 ^ 64 else value)

/-! ### The first loop -/

/-- `m[key]` of a `std::map`: a missing key is entered with the default value. -/
def atKey {α β : Type} [BEq α] [DecidableEq α] (key : α) (value : β) (entries : List (α × β)) :
    β × List (α × β) :=
  match entries.lookup key with
  | some found => (found, entries)
  | none => (value, assign key value entries)

structure Tables where
  cur_wasm_file : List Byte := []
  command_map : List (List Byte × Command) := []
  parser_map : List (List Byte × State) := []

/-- One turn of the first loop; `files` has the bytes of each file, and none where it is missing. -/
def collectOne (files : List Byte → List Byte) (tables : Tables) :
    Entry → Except CppError Tables
  | .file filename =>
    if (tables.parser_map.lookup filename).isSome then
      .ok { tables with cur_wasm_file := filename }
    else do
      let parser ← parse (ofFile (files filename))
      return { tables with
        cur_wasm_file := filename
        parser_map := assign filename parser tables.parser_map }
  | .action command =>
    .ok { tables with
      command_map := OrderedMultimap.insert tables.cur_wasm_file command tables.command_map }
  | .other => .ok tables

def collect (files : List Byte → List Byte) (entries : List Entry) : Except CppError Tables :=
  entries.foldlM (collectOne files) {}

/-! ### The second loop -/

/-- `static_cast<...>(stoul(v_str))`; a param whose argument is no integer keeps its value. -/
def readArgument (arg : Argument) (old : wasm_type) : Except CppError wasm_type :=
  if arg.type = "i32".toList then do
    let value ← stoulDecimal arg.value
    return .i32 (BitVec.ofNat 32 value)
  else if arg.type = "i64".toList then do
    let value ← stoulDecimal arg.value
    return .i64 (BitVec.ofNat 64 value)
  else .ok old

/-- `param_data[i] = ...` for every param; without an argument its type is `null`, no integer. -/
def readArguments : List Argument → List wasm_type → Except CppError (List wasm_type)
  | _, [] => .ok []
  | [], param_data => .ok param_data
  | arg :: args, old :: param_data => do
    let value ← readArgument arg old
    let rest ← readArguments args param_data
    return value :: rest

/-- The variable `matched`. Where the code threw, `ans` is not initialised. -/
def matched (command : Command) (result_data : List wasm_type)
    (outcome : Except String (BitVec 64)) : Except CppError Bool :=
  if command.type = "assert_trap".toList then .ok (!outcome.isOk)
  else if result_data.length > 0 then
    match outcome with
    | .ok ans => do
      let expected ← stoulDecimal command.expect_str
      return ans == BitVec.ofNat 64 expected
    | .error _ => .error (.undefinedBehaviour "ans read before it is written")
  else .ok (command.expect_str == "ul".toList)

/-- One turn of the second loop. -/
def test (sys : System) (order : WasmFunction.VisitOrder) (name : List Byte) (command : Command)
    (parser_map : List (List Byte × State)) : Except CppError (List (List Byte × State)) := do
  let (curParser, parser_map) := atKey name { s := [] } parser_map
  let (function_index, names) := atKey command.field 0 curParser.funcNameIndexMapper
  let curParser ← initFunctionbyType { curParser with funcNameIndexMapper := names } function_index
  let curFunction ← entryAt curParser.wasmFunctionVec function_index
  let param_data ← readArguments command.args curFunction.param_data
  let curFunction ← funcSingleProcess { curFunction with param_data } order
  let execution ← executeWasmInstr sys curFunction
  if ← matched command curFunction.result_data execution.outcome then
    return assign name
      { curParser with
        funcIndexNameMapper := (atKey function_index [] curParser.funcIndexNameMapper).2
        wasmFunctionVec := curParser.wasmFunctionVec.set function_index execution.function }
      parser_map
  else throw (.thrown "Unmatched")

/-- The second loop; the `n`-th function it compiles has its branches visited in the `n`-th
order. -/
def testAll (sys : System) (orders : Nat → WasmFunction.VisitOrder)
    (command_map : List (List Byte × Command)) (parser_map : List (List Byte × State)) :
    Except CppError (List (List Byte × State)) :=
  command_map.zipIdx.foldlM (fun parser_map (v, n) => test sys (orders n) v.1 v.2 parser_map)
    parser_map

def test_chapter (sys : System) (files : List Byte → List Byte)
    (orders : Nat → WasmFunction.VisitOrder) (entries : List Entry) :
    Except CppError (List (List Byte × State)) := do
  let tables ← collect files entries
  testAll sys orders tables.command_map tables.parser_map

/-! ### Tables -/

section
variable {α β : Type} [BEq α] [LawfulBEq α] [DecidableEq α] {key other : α} {value found : β}
  {entries : List (α × β)}

omit [LawfulBEq α] in
theorem atKey_of_lookup (here : entries.lookup key = some found) :
    atKey key value entries = (found, entries) := by
  rw [atKey, here]

theorem lookup_assign_self : (assign key value entries).lookup key = some value := by
  induction entries with
  | nil => exact List.lookup_cons_self
  | cons entry rest ih =>
    rw [assign]
    by_cases same : entry.1 = key
    · rw [if_pos same]
      exact List.lookup_cons_self
    · rw [if_neg same, List.lookup_cons, beq_false_of_ne fun h => same h.symm]
      exact ih

theorem lookup_assign_of_ne (distinct : other ≠ key) :
    (assign key value entries).lookup other = entries.lookup other := by
  induction entries with
  | nil =>
    rw [assign, List.lookup_cons, beq_false_of_ne distinct]
  | cons entry rest ih =>
    rw [assign]
    by_cases same : entry.1 = key
    · rw [if_pos same, List.lookup_cons, List.lookup_cons, same, beq_false_of_ne distinct]
    · rw [if_neg same, List.lookup_cons, List.lookup_cons, ih]

end

/-! ### Arguments -/

theorem readArguments_length {args : List Argument} {param_data params : List wasm_type}
    (reads : readArguments args param_data = .ok params) : params.length = param_data.length := by
  induction param_data generalizing args params with
  | nil =>
    rw [readArguments] at reads
    cases reads
    rfl
  | cons old rest ih =>
    cases args with
    | nil =>
      cases reads
      rfl
    | cons arg args =>
      obtain ⟨value, -, reads⟩ := ok_of_bind reads
      obtain ⟨later, readsLater, reads⟩ := ok_of_bind reads
      cases reads
      rw [List.length_cons, List.length_cons, ih readsLater]

/-- A function prepared with a value for each of its params. -/
theorem prepared_arguments {params : List wasm_type} {type : WasmType} {f : WasmFunction}
    (same : params.length = type.param_data.length) : prepared (fun i => params[i]?) type f =
      { f with param_data := params, result_data := type.result_data } := by
  have arguments : type.param_data.mapIdx (fun i old => (params[i]?).getD old) = params := by
    apply List.ext_getElem
    · rw [List.length_mapIdx, same]
    · intro i _ inside
      rw [List.getElem_mapIdx, List.getElem?_eq_getElem inside, Option.getD_some]
  rw [prepared, setArguments]
  simp only [arguments]

/-! ### What the first loop finds -/

/-- The commands of a test file with the modules they are for, from the module `name` on. -/
def assigned (name : List Byte) : List Entry → List (List Byte × Command)
  | [] => []
  | .file filename :: rest => assigned filename rest
  | .action command :: rest => (name, command) :: assigned name rest
  | .other :: rest => assigned name rest

/-- Every entry of the table is a file as it was parsed. -/
def Parsed (files : List Byte → List Byte) (parser_map : List (List Byte × State)) : Prop :=
  ∀ name p, parser_map.lookup name = some p → parse (ofFile (files name)) = .ok p

theorem collectOne_file {files : List Byte → List Byte} {tables : Tables} {filename : List Byte}
    {p : State} (parses : parse (ofFile (files filename)) = .ok p)
    (before : Parsed files tables.parser_map) :
    ∃ after, collectOne files tables (.file filename) = .ok after ∧
      after.cur_wasm_file = filename ∧ after.command_map = tables.command_map ∧
      Parsed files after.parser_map ∧ after.parser_map.lookup filename = some p ∧
      ∀ name q, tables.parser_map.lookup name = some q → after.parser_map.lookup name = some q := by
  rw [collectOne]
  cases known : tables.parser_map.lookup filename with
  | some q =>
    cases parses.symm.trans (before filename q known)
    exact ⟨_, rfl, rfl, rfl, before, known, fun name q here => here⟩
  | none =>
    rw [Option.isSome_none, if_neg Bool.false_ne_true, parses, ok_bind]
    refine ⟨_, rfl, rfl, rfl, fun name q here => ?_, lookup_assign_self, fun name q here => ?_⟩
    · by_cases same : name = filename
      · subst same
        cases lookup_assign_self.symm.trans here
        exact parses
      · exact before name q ((lookup_assign_of_ne same).symm.trans here)
    · have distinct : name ≠ filename := by
        rintro rfl
        rw [known] at here
        cases here
      exact (lookup_assign_of_ne distinct).trans here

/-- The entry names no file that cannot be parsed. -/
def Readable (files : List Byte → List Byte) (entry : Entry) : Prop :=
  ∀ filename, entry = .file filename → ∃ p, parse (ofFile (files filename)) = .ok p

section
variable {files : List Byte → List Byte} {tables after : Tables} {entry : Entry}
  (before : Parsed files tables.parser_map)
include before

theorem collectOne_completes_iff :
    (∃ after, collectOne files tables entry = .ok after) ↔ Readable files entry := by
  cases entry with
  | file filename =>
    constructor
    · rintro ⟨after, done⟩ name same
      cases same
      rw [collectOne] at done
      cases known : tables.parser_map.lookup filename with
      | some p => exact ⟨p, before filename p known⟩
      | none =>
        rw [known, Option.isSome_none, if_neg Bool.false_ne_true] at done
        obtain ⟨p, parses, -⟩ := ok_of_bind done
        exact ⟨p, parses⟩
    · intro readable
      obtain ⟨p, parses⟩ := readable filename rfl
      obtain ⟨after, done, -⟩ := collectOne_file parses before
      exact ⟨after, done⟩
  | action | other => exact ⟨fun _ name same => (nomatch same), fun _ => ⟨_, rfl⟩⟩

/-- A turn keeps the modules and adds the one it names. -/
theorem collectOne_parsed (done : collectOne files tables entry = .ok after) :
    Parsed files after.parser_map ∧
      (∀ name q, tables.parser_map.lookup name = some q → after.parser_map.lookup name = some q) ∧
      ∀ name, entry = .file name → ∃ p, after.parser_map.lookup name = some p := by
  cases entry with
  | file filename =>
    obtain ⟨p, parses⟩ := (collectOne_completes_iff before).mp ⟨after, done⟩ filename rfl
    obtain ⟨after', done', -, -, parsed, here, kept⟩ := collectOne_file parses before
    cases done.symm.trans done'
    refine ⟨parsed, kept, fun name same => ?_⟩
    cases same
    exact ⟨p, here⟩
  | action | other =>
    cases done
    exact ⟨before, fun name q here => here, fun name same => nomatch same⟩

end

/-- The first loop gets to its end exactly when every file can be parsed. -/
theorem collect_completes_iff (files : List Byte → List Byte) (entries : List Entry) :
    (∃ tables, collect files entries = .ok tables) ↔ ∀ entry ∈ entries, Readable files entry := by
  have start : Parsed files ({} : Tables).parser_map := fun name p found => nomatch found
  exact @FallibleLoop.foldlM_completes_iff _ _ _ (collectOne files)
    (fun _ tables => Parsed files tables.parser_map) (Readable files)
    (fun entry rest t after before done => (collectOne_parsed before done).1)
    (fun entry rest t before => collectOne_completes_iff before) _ _ start

/-- Behind the first loop there is a module for every file. -/
theorem collect_parsed {files : List Byte → List Byte} {entries : List Entry} {tables : Tables}
    (done : collect files entries = .ok tables) :
    Parsed files tables.parser_map ∧
      ∀ filename, .file filename ∈ entries → ∃ p, tables.parser_map.lookup filename = some p := by
  let Left (rest : List Entry) (t : Tables) := Parsed files t.parser_map ∧
    ∀ filename, .file filename ∈ entries →
      .file filename ∈ rest ∨ ∃ p, t.parser_map.lookup filename = some p
  have start : Left entries {} := ⟨fun name p found => (nomatch found), fun name here => .inl here⟩
  have keeps : ∀ entry rest t after, Left (entry :: rest) t →
      collectOne files t entry = .ok after → Left rest after := by
    rintro entry rest t after ⟨before, listed⟩ turn
    obtain ⟨parsed, kept, added⟩ := collectOne_parsed before turn
    refine ⟨parsed, fun name here => ?_⟩
    rcases listed name here with still | ⟨p, known⟩
    · rcases List.mem_cons.mp still with now | later
      · exact Or.inr (added name now.symm)
      · exact Or.inl later
    · exact Or.inr ⟨p, kept name p known⟩
  obtain ⟨parsed, listed⟩ := FallibleLoop.foldlM_keeps keeps start done
  exact ⟨parsed, fun name here => (listed name here).resolve_left List.not_mem_nil⟩

/-- What a turn adds to the commands. -/
theorem collectOne_commands {files : List Byte → List Byte} {tables after : Tables} {entry : Entry}
    {rest : List Entry} (done : collectOne files tables entry = .ok after)
    (ordered : OrderedMultimap.Ordered tables.command_map) :
    OrderedMultimap.Ordered after.command_map ∧ ∀ name : List Byte,
      after.command_map.filter (fun v => v.1 = name) ++
          (assigned after.cur_wasm_file rest).filter (fun v => v.1 = name) =
        tables.command_map.filter (fun v => v.1 = name) ++
          (assigned tables.cur_wasm_file (entry :: rest)).filter (fun v => v.1 = name) := by
  cases entry with
  | file filename =>
    have same : after.command_map = tables.command_map ∧ after.cur_wasm_file = filename := by
      rw [collectOne] at done
      by_cases known : (tables.parser_map.lookup filename).isSome
      · rw [if_pos known] at done
        cases done
        exact ⟨rfl, rfl⟩
      · rw [if_neg known] at done
        obtain ⟨p, -, done⟩ := ok_of_bind done
        cases done
        exact ⟨rfl, rfl⟩
    rw [same.1, same.2]
    exact ⟨ordered, fun name => rfl⟩
  | action command =>
    cases done
    refine ⟨OrderedMultimap.insert_ordered command ordered, fun name => ?_⟩
    rw [OrderedMultimap.filter_insert command ordered, List.append_assoc, assigned]
    by_cases same : tables.cur_wasm_file = name
    · rw [if_pos same, List.filter_cons_of_pos (by simpa using same), List.singleton_append]
    · rw [if_neg same, List.filter_cons_of_neg (by simpa using same), List.nil_append]
  | other =>
    cases done
    exact ⟨ordered, fun name => rfl⟩

/-- The commands found so far are in order, and with those to come they are those of the file. -/
structure Collects (entries rest : List Entry) (tables : Tables) : Prop where
  ordered : OrderedMultimap.Ordered tables.command_map
  commands : ∀ name : List Byte, tables.command_map.filter (fun v => v.1 = name) ++
      (assigned tables.cur_wasm_file rest).filter (fun v => v.1 = name) =
    (assigned [] entries).filter (fun v => v.1 = name)

theorem collect_collects {files : List Byte → List Byte} {entries : List Entry} {tables : Tables}
    (done : collect files entries = .ok tables) : Collects entries [] tables := by
  have start : Collects entries entries {} := ⟨List.Pairwise.nil, fun name => rfl⟩
  refine FallibleLoop.foldlM_keeps (fun entry rest t after left turn => ?_) start done
  obtain ⟨ordered, adds⟩ := collectOne_commands turn left.ordered
  exact ⟨ordered, fun name => (adds name).trans (left.commands name)⟩

theorem Collects.all {entries : List Entry} {tables : Tables} (h : Collects entries [] tables)
    (name : List Byte) : tables.command_map.filter (fun v => v.1 = name) =
      (assigned [] entries).filter (fun v => v.1 = name) := by
  rw [← h.commands name, assigned, List.filter_nil, List.append_nil]

theorem Collects.perm {entries : List Entry} {tables : Tables} (h : Collects entries [] tables) :
    tables.command_map.Perm (assigned [] entries) := by
  rw [List.perm_iff_count]
  intro nc
  have same := congrArg (List.count nc) (h.all nc.1)
  rwa [List.count_filter (by simp), List.count_filter (by simp)] at same

/-- The commands are sorted by their modules, and those of one module stay in the order of the
file. -/
theorem collect_order {files : List Byte → List Byte} {entries : List Entry} {tables : Tables}
    (done : collect files entries = .ok tables) :
    OrderedMultimap.Ordered tables.command_map ∧ ∀ name : List Byte,
      tables.command_map.filter (fun v => v.1 = name) =
        (assigned [] entries).filter (fun v => v.1 = name) := by
  have collects := collect_collects done
  exact ⟨collects.ordered, collects.all⟩

/-- A command for the module of one constant. -/
def expectFive : Command := ⟨"assert_return".toList, [], [], some "5".toList⟩

/-- A command that expects nothing. -/
def expectNothing : Command := ⟨"assert_return".toList, [], [], none⟩

/-- Back at the first of two modules: its commands are the last, in their order. -/
theorem collect_order_twoFiles : ∃ tables,
    collect (fun _ => RepeatedCalls.constantModule) [.file [0x62], .action expectFive, .file [0x61],
      .action expectFive, .file [0x62], .action expectNothing] = .ok tables ∧
    OrderedMultimap.Ordered tables.command_map ∧
    tables.command_map.filter (fun v => v.1 = [0x62]) =
      [([0x62], expectFive), ([0x62], expectNothing)] := by
  obtain ⟨tables, done⟩ := BranchFixup.ok_of_isOk (show (collect
    (fun _ => RepeatedCalls.constantModule) [.file [0x62], .action expectFive, .file [0x61],
      .action expectFive, .file [0x62], .action expectNothing]).isOk = true by decide +kernel)
  obtain ⟨ordered, same⟩ := collect_order done
  exact ⟨tables, done, ordered, (same [0x62]).trans (by decide)⟩

end TestDriver
