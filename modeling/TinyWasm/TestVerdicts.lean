import TinyWasm.TestDriver
import TinyWasm.Acceptance
import TinyWasm.StructuredMeaning
import TinyWasm.ExportLookup
import TinyWasm.FrameBounds

/-!
# What passes the test driver

For the functions whose compilation is known to preserve their meaning, the
driver gets through a test file exactly when every command expects what
WebAssembly says. Of a function without result it does not even ask whether it
came back. A module is parsed once and its functions are compiled again for each
command, so a function with locals of its own may be called only once.
-/

namespace TestVerdicts

open HexText Opcode Wasm Emit Parser ArmInstruction ByteMemory StepRuns LocalDeclarations SourceBody
open CodeItems FrameSpec CallRun FunctionCall StackSafety WasmSemantics Validation EarlyReturn
open VariableAliasing PreservedMeaning CallFootprint StructuredMeaning BlockSemantics
open ParserExactness ExportLookup RepeatedCalls CompilerFrame FrameBounds ExecutablePages Acceptance
open TestDriver

/-! ### The processor -/

/-- `run` runs the words of the code from one state, in which the buffers and the machine stack are
apart. -/
structure Processor (sys : System) (base : BitVec 64) (entry : ArmMachine.State) : Prop where
  maps : ∀ n, ∃ page, sys.mmap n = some page
  runs : ∀ bytes trace u,
    Complete (ArmMachine.step (littleEndianWords bytes) base) ⟨base, entry⟩ trace
      ⟨entry.x 30, u⟩ → sys.run bytes = some (u.x 0, read 16 u.mem (entry.x 0) 2)
  arranged : ∀ (code : List Word) params locals, code.length ≤ 2 ^ 61 →
    frameSize params locals ≤ 4080 → Arranged code base params locals 0 1024 entry

/-! ### What a command calls -/

/-- A function of a module with the values of its arguments. -/
structure Call where
  index : Nat
  params : List wasm_type
  results : List wasm_type
  locals : List (Nat × ParserExactness.ValType)
  body : Seq

namespace Call

def groups (c : Call) : List Group := c.locals.map toGroup

def localData (c : Call) : List wasm_type := c.groups.flatMap groupLocals

/-- The entry of the code section. -/
def code (c : Call) : Body := ⟨c.locals, c.body.bytes ++ [0x0b]⟩

/-- What WebAssembly says. -/
def meaning (c : Call) : Outcome Values := wasm.eval c.body (start c.params c.localData)

end Call

/-- The functions whose compilation preserves their meaning. -/
structure Supported (c : Call) : Prop where
  accepted : Accepted c.params c.localData c.results c.body
  few : c.params.length ≤ 19
  single : c.results.length ≤ 1
  intLocals : ∀ v ∈ c.localData, isFloat v = false
  unshared : Unshared c.params c.localData
  valid : Valid c.params c.localData c.results c.body
  free : ReturnFree c.body
  once : c.body.divisions ≤ 1
  agreeing : Agreeing c.body 0

/-- The command calls this function, of a module that has all its functions itself. -/
structure Calls (m : Module) (command : Command) (c : Call) : Prop where
  alone : m.imported = 0
  exported : ∃ e ∈ m.exports, e.kind = .func ∧ e.name = command.field ∧ e.index = c.index
  typed : ∃ t type, m.functions[c.index]? = some t ∧
    (m.sections.flatMap ModuleSection.typeEntries)[t]? = some type ∧
    readArguments command.args (type.params.map ParserExactness.ValType.zero) = .ok c.params ∧
    type.results.map ParserExactness.ValType.zero = c.results
  defined : m.code[c.index]? = some c.code

/-- The command expects what the body means. Without a result only the missing value is looked
at. -/
def Expects (command : Command) (c : Call) : Prop :=
  if command.type = "assert_trap".toList then c.meaning = .trap
  else if c.results = [] then command.expect_str = "ul".toList
  else ∃ m v n, c.meaning = .done m ∧ m.stack = [v] ∧
    stoulDecimal command.expect_str = .ok n ∧ v.value.setWidth 64 = BitVec.ofNat 64 n

/-! ### One call -/

theorem code_vec_eq (c : Call) : (toFunction c.code).code_vec =
    c.groups.flatMap groupCode ++ (c.body.bytes ++ [0x0b]).map hexByte := by
  rw [Call.groups, flatMap_groupCode, ← List.map_append]
  rfl

/-- A function that was not called before is delivered to the compiler. -/
theorem delivered_eq (c : Call) :
    { toFunction c.code with param_data := c.params, result_data := c.results } =
      delivered c.params c.results c.groups c.body := by
  have code := code_vec_eq c
  have count : c.groups.length = c.locals.length := List.length_map ..
  rw [delivered, ← code, count]
  rfl

theorem declared_eq (c : Call) :
    declared (toFunction c.code).code_vec (toFunction c.code).local_var_declare_count 0 =
      c.localData := by
  have count : (toFunction c.code).local_var_declare_count = c.groups.length :=
    (List.length_map ..).symm
  rw [code_vec_eq, count]
  exact declared_groups c.groups _

/-- A body that fits in its module is short. -/
theorem size_byte_of_defined {m : Module} {c : Call} (inside : c.code ∈ m.code) :
    BranchFixup.bodySize c.groups c.body ≤ 255 := by
  obtain ⟨sec, hsec, here⟩ := List.mem_flatMap.mp inside
  cases sec with
  | code bodies =>
    have fits := ((m.fits _ hsec).2.2 c.code here).1
    have declarations : c.code.code.length = 2 * c.locals.length + (c.body.bytes.length + 1) := by
      simp [Call.code, Body.code, groupBytes, Nat.mul_comm]
    rw [BranchFixup.bodySize, Call.groups, List.length_map]
    omega
  | types | imports | functions | exports | other => cases here

/-- The outcome of an execution is the meaning of the body. -/
def Reports (results : List wasm_type) (meaning : Outcome Values)
    (outcome : Except String (BitVec 64)) : Prop :=
  match meaning with
  | .stuck => False
  | .trap => outcome = .error "Wasm trapped"
  | .done m => m.stack.map Val.type = results.map typeOf ∧
    ∃ ans, outcome = .ok ans ∧ ∀ v, m.stack = [v] → ans = v.value.setWidth 64

section
variable {sys : System} {base : BitVec 64} {entry : ArmMachine.State}
  (processor : Processor sys base entry)
include processor

/-- What a call does is what its execution reports. -/
theorem reports_of_does {g : WasmFunction} {code : List Word} {results : List wasm_type}
    {meaning : Outcome Values} (loads : loadWords (full_instructions g) = .ok code)
    (does : Does code base entry results meaning) (single : results.length ≤ 1)
    (meant : meaning ≠ .stuck)
    (typed : ∀ m, meaning = .done m → m.stack.map Val.type = results.map typeOf) :
    ∃ e, executeWasmInstr sys g = .ok e ∧ e.function = resetAfterExecution g ∧
      Reports results meaning e.outcome := by
  obtain ⟨page, mapped⟩ := processor.maps ((full_instructions g).length / 2)
  obtain ⟨bytes, read, rfl⟩ : ∃ bytes, charArray (full_instructions g) = .ok bytes ∧
      littleEndianWords bytes = code := by
    rw [loadWords] at loads
    cases read : charArray (full_instructions g) with
    | error e =>
      rw [read] at loads
      cases loads
    | ok bytes =>
      rw [read] at loads
      cases loads
      exact ⟨bytes, rfl, rfl⟩
  have executes : ∀ ans return_code, sys.run bytes = some (ans, return_code) →
      ∃ e, executeWasmInstr sys g = .ok e ∧ e.function = resetAfterExecution g ∧
        e.outcome = if return_code = 0 then .ok ans else .error "Wasm trapped" := by
    intro ans return_code returned
    have pointer : getFunctionPointer sys (full_instructions g) =
        .ok (⟨page, (full_instructions g).length / 2⟩, bytes) := by
      rw [getFunctionPointer, read, ok_bind, mapped]
      rfl
    rw [executeWasmInstr, pointer, ok_bind]
    simp only [returned]
    exact ⟨_, rfl, rfl, rfl⟩
  cases meaning with
  | stuck => exact absurd rfl meant
  | trap =>
    obtain ⟨trace, u, complete, thrown⟩ := does
    obtain ⟨e, done, reset, outcome⟩ := executes _ _ (processor.runs bytes trace u complete)
    rw [if_neg thrown] at outcome
    exact ⟨e, done, reset, outcome⟩
  | done m =>
    obtain ⟨-, trace, u, complete, -, returnCode, value⟩ := does
    obtain ⟨e, done, reset, outcome⟩ := executes _ _ (processor.runs bytes trace u complete)
    rw [read_low, returnCode, if_pos (by decide)] at outcome
    refine ⟨e, done, reset, typed m rfl, _, outcome, ?_⟩
    intro v stack
    have types := typed m rfl
    rw [stack] at types
    obtain ⟨r, none, rfl, type, rest⟩ := List.map_eq_cons_iff.mp types.symm
    obtain rfl := List.map_eq_nil_iff.mp rest
    exact value r v [] rfl stack type.symm

/-- A supported function, compiled and executed, reports what WebAssembly says. -/
theorem executes_supported {c : Call} (supported : Supported c)
    (size_byte : BranchFixup.bodySize c.groups c.body ≤ 255) {order : WasmFunction.VisitOrder}
    {g g' : WasmFunction}
    (done : funcSingleProcess (delivered c.params c.results c.groups c.body) order = .ok g)
    (same : full_instructions g' = full_instructions g) :
    ∃ e, executeWasmInstr sys g' = .ok e ∧ e.function = resetAfterExecution g' ∧
      Reports c.results c.meaning e.outcome := by
  obtain ⟨code, instrs, target, loads, callable, ints, intResults⟩ :=
    callable_of_funcSingleProcess size_byte supported.once done
  have arranged : Arranged code base c.params c.localData 0 1024 entry :=
    processor.arranged code _ _ callable.placed.loaded.short callable.small
  have shares : Shares ((c.params ++ c.localData).map typeOf) [] []
      (start c.params c.localData) (start c.params c.localData) :=
    ⟨[], [], int_types ints supported.intLocals, rfl, rfl⟩
  have agrees := eval_agrees c.body supported.valid supported.free supported.agreeing shares
  have single := supported.single
  have does : Does code base entry c.results c.meaning :=
    .of_matches agrees (call_does callable supported.few ints supported.intLocals
      supported.unshared arranged supported.valid supported.free (body_short size_byte)
      (by omega) intResults)
  rw [← same] at loads
  obtain ⟨meant, typed⟩ := typed_of_matches agrees
  exact reports_of_does processor loads does single meant fun m done =>
    (typed m done).trans (reverse_of_single single)

end

theorem matched_trap_iff {command : Command} {results : List wasm_type}
    {meaning : Outcome Values} {outcome : Except String (BitVec 64)}
    (reports : Reports results meaning outcome) (trap : command.type = "assert_trap".toList) :
    matched command results outcome = .ok true ↔ meaning = .trap := by
  unfold matched
  rw [if_pos trap]
  cases meaning with
  | stuck => exact reports.elim
  | trap =>
    obtain rfl : outcome = .error "Wasm trapped" := reports
    exact ⟨fun _ => rfl, fun _ => rfl⟩
  | done m =>
    obtain ⟨-, ans, rfl, -⟩ := reports
    constructor
    · intro same
      cases same
    · intro same
      cases same

theorem matched_value_iff {command : Command} {r : wasm_type} {meaning : Outcome Values}
    {outcome : Except String (BitVec 64)} (reports : Reports [r] meaning outcome)
    (value : command.type ≠ "assert_trap".toList) :
    matched command [r] outcome = .ok true ↔
      ∃ m v n, meaning = .done m ∧ m.stack = [v] ∧ stoulDecimal command.expect_str = .ok n ∧
        v.value.setWidth 64 = BitVec.ofNat 64 n := by
  unfold matched
  rw [if_neg value, if_pos (by simp)]
  cases meaning with
  | stuck => exact reports.elim
  | trap =>
    obtain rfl : outcome = .error "Wasm trapped" := reports
    constructor
    · intro same
      cases same
    · rintro ⟨m, v, n, done, -⟩
      cases done
  | done m =>
    obtain ⟨types, ans, rfl, value⟩ := reports
    obtain ⟨v, rest, stack, -, none⟩ := List.map_eq_cons_iff.mp types
    obtain rfl := List.map_eq_nil_iff.mp none
    constructor
    · intro same
      obtain ⟨n, reads, same⟩ := ok_of_bind same
      have equal : (ans == BitVec.ofNat 64 n) = true := Except.ok.inj same
      exact ⟨m, v, n, rfl, stack, reads, (value v stack).symm.trans (beq_iff_eq.mp equal)⟩
    · rintro ⟨m', v', n, done, stack', reads, same⟩
      cases done
      rw [stack] at stack'
      cases stack'
      simp only [reads, ok_bind, value v stack, same, beq_self_eq_true]
      rfl

/-- Where the execution reports the meaning, the driver finds what the command expects. -/
theorem matched_iff {command : Command} {c : Call} {outcome : Except String (BitVec 64)}
    (reports : Reports c.results c.meaning outcome) (single : c.results.length ≤ 1) :
    matched command c.results outcome = .ok true ↔ Expects command c := by
  unfold Expects
  by_cases trap : command.type = "assert_trap".toList
  · rw [if_pos trap]
    exact matched_trap_iff reports trap
  rw [if_neg trap]
  rcases results : c.results with _ | ⟨r, later⟩
  · unfold matched
    rw [if_pos rfl, if_neg trap, if_neg (by simp)]
    simp
  · obtain rfl : later = [] := by
      rw [results] at single
      simpa using single
    rw [results] at reports
    rw [if_neg (by simp)]
    exact matched_value_iff reports trap

/-! ### One command after another -/

theorem result_data_kept {f g : WasmFunction} {order : WasmFunction.VisitOrder}
    (done : funcSingleProcess f order = .ok g) : g.result_data = f.result_data := by
  obtain ⟨h, loaded, compiled⟩ := ok_of_bind done
  obtain ⟨ws, rfl, -⟩ := prepareParams_ok loaded
  exact (processCodeVec_leaves compiled).results

/-- The function was not called yet, or it has no locals of its own and was called and reset. -/
def Waits (c : Call) (f : WasmFunction) : Prop :=
  f = toFunction c.code ∨ c.localData = [] ∧ Later (toFunction c.code) f

/-- It is compiled to the code a first call has, and without locals it can be called again. -/
theorem compiles_waiting {c : Call} {f : WasmFunction} (waits : Waits c f)
    (size_byte : BranchFixup.bodySize c.groups c.body ≤ 255) (supported : Supported c)
    (order : WasmFunction.VisitOrder) :
    ∃ g g', funcSingleProcess (delivered c.params c.results c.groups c.body) order = .ok g ∧
      funcSingleProcess { f with param_data := c.params, result_data := c.results } order =
        .ok g' ∧
      full_instructions g' = full_instructions g ∧
      (c.localData = [] → Later (toFunction c.code) (resetAfterExecution g')) := by
  obtain ⟨g, done⟩ := compiles_of_accepted size_byte supported.accepted order
  have fresh : Fresh (toFunction c.code) := ⟨_, _, rfl⟩
  have arguments : ∀ f, prepared (fun i => c.params[i]?) ⟨c.params, c.results⟩ f =
      { f with param_data := c.params, result_data := c.results } := fun f => prepared_arguments rfl
  have first := done
  rw [← delivered_eq, ← arguments] at first
  by_cases none : c.localData = []
  · have later : Later (toFunction c.code) f := by
      rcases waits with rfl | ⟨-, later⟩
      · exact fresh.later
      · exact later
    obtain ⟨g', done', same, after⟩ :=
      later_call order fresh ((declared_eq c).trans none) later first
    rw [arguments] at done'
    refine ⟨g, g', done, done', ?_, fun _ => after⟩
    rw [full_instructions, full_instructions, same.pre, same.text]
  · rcases waits with rfl | ⟨without, -⟩
    · rw [arguments] at first
      exact ⟨g, g, done, first, rfl, fun without => absurd without none⟩
    · exact absurd without none

/-- The tables of the module, which no command changes. -/
structure Serves (m : Module) (p : Parser.State) : Prop where
  types : p.wasmTypeVec = (m.sections.flatMap ModuleSection.typeEntries).map toWasmType
  functions : p.funcTypeVec = m.functions
  names : p.funcNameIndexMapper = m.exports.map ExportLookup.entry

section
variable {sys : System} {base : BitVec 64} {entry : ArmMachine.State}
  (processor : Processor sys base entry) {m : Module} {command : Command} {c : Call}
  {p : Parser.State} {f : WasmFunction} (calls : Calls m command c) (supported : Supported c)
  (serves : Serves m p) (here : p.wasmFunctionVec[c.index]? = some f) (waits : Waits c f)
include processor calls supported serves here waits

/-- The turn of one command compiles and executes its function, and compares the outcome. -/
theorem test_runs {name : List Byte} {parser_map : List (List Byte × Parser.State)}
    (found : parser_map.lookup name = some p) (order : WasmFunction.VisitOrder) :
    ∃ q f' outcome, test sys order name command parser_map = (do
        if ← matched command c.results outcome then return assign name q parser_map
        else throw (.thrown "Unmatched")) ∧
      Reports c.results c.meaning outcome ∧ Serves m q ∧
      q.wasmFunctionVec = p.wasmFunctionVec.set c.index f' ∧
      (c.localData = [] → Later (toFunction c.code) f') := by
  obtain ⟨e, he, -, called, index⟩ := calls.exported
  obtain ⟨t, type, typeIndex, signature, reads, results⟩ := calls.typed
  have size_byte : BranchFixup.bodySize c.groups c.body ≤ 255 :=
    size_byte_of_defined (List.mem_of_getElem? calls.defined)
  obtain ⟨g, g', first, compiled, same, later⟩ := compiles_waiting waits size_byte supported order
  obtain ⟨x, executed, reset, reports⟩ :=
    executes_supported processor supported size_byte first same
  have inside : c.index < p.wasmFunctionVec.length := (List.getElem?_eq_some_iff.mp here).1
  have lookup : p.funcNameIndexMapper.lookup command.field = some c.index := by
    rw [serves.names, ← called, ← index]
    exact lookup_entry m.distinct he
  have functionType : p.funcTypeVec[c.index]? = some t := by
    rw [serves.functions, typeIndex]
  have typeHere : p.wasmTypeVec[t]? = some (toWasmType type) := by
    rw [serves.types, List.getElem?_map, signature]
    rfl
  let entered : WasmFunction := { f with
    param_data := (toWasmType type).param_data
    result_data := (toWasmType type).result_data }
  have init : initFunctionbyType p c.index =
      .ok { p with wasmFunctionVec := p.wasmFunctionVec.set c.index entered } := by
    simp only [initFunctionbyType, entryAt, here, functionType, typeHere, ok_bind]
    rfl
  have compiled' : funcSingleProcess { entered with param_data := c.params } order = .ok g' := by
    rw [← compiled, ← results]
    rfl
  have reads' : readArguments command.args entered.param_data = .ok c.params := reads
  have left : g'.result_data = c.results := by
    rw [result_data_kept compiled]
  refine ⟨{ p with
    wasmFunctionVec := (p.wasmFunctionVec.set c.index entered).set c.index x.function
    funcIndexNameMapper := (atKey c.index [] p.funcIndexNameMapper).2 }, resetAfterExecution g',
    x.outcome, ?_, reports, ⟨serves.types, serves.functions, serves.names⟩, ?_, later⟩
  · rw [test, atKey_of_lookup found]
    simp only [atKey_of_lookup lookup, init, ok_bind, entryAt, List.getElem?_set_self inside,
      reads', compiled', executed, left]
  · rw [← reset, List.set_set]

/-- One command: it goes through exactly when it expects the right thing, and then only the function
it called is changed. -/
theorem test_step {name : List Byte} {parser_map : List (List Byte × Parser.State)}
    (found : parser_map.lookup name = some p) (order : WasmFunction.VisitOrder) :
    ((∃ after, test sys order name command parser_map = .ok after) ↔ Expects command c) ∧
      ∀ after, test sys order name command parser_map = .ok after →
        ∃ q f', after = assign name q parser_map ∧ Serves m q ∧
          q.wasmFunctionVec = p.wasmFunctionVec.set c.index f' ∧
          (c.localData = [] → Later (toFunction c.code) f') := by
  obtain ⟨q, f', outcome, runs, reports, kept, changed, later⟩ :=
    test_runs processor calls supported serves here waits found order
  rw [← matched_iff reports supported.single, runs]
  constructor
  · constructor
    · rintro ⟨after, done⟩
      obtain ⟨found, is, done⟩ := ok_of_bind done
      cases found with
      | true => exact is
      | false => cases done
    · intro is
      exact ⟨assign name q parser_map, by rw [is]; rfl⟩
  · intro after done
    obtain ⟨found, is, done⟩ := ok_of_bind done
    cases found with
    | false => cases done
    | true =>
      cases done
      exact ⟨q, f', rfl, kept, changed, later⟩

end

/-- Two commands for one function with locals. -/
def Repeatable (call : List Byte × Command → Call) (a b : List Byte × Command) : Prop :=
  a.1 = b.1 → (call a).index = (call b).index → (call a).localData = [] ∧ (call b).localData = []

theorem Repeatable.symm {call : List Byte × Command → Call} {a b : List Byte × Command}
    (repeatable : Repeatable call a b) : Repeatable call b a :=
  fun same index => (repeatable same.symm index.symm).symm

/-- Every command finds its module and a function that waits for it. -/
def Ready (modules : List Byte → Module) (call : List Byte × Command → Call)
    (commands : List (List Byte × Command)) (parser_map : List (List Byte × Parser.State)) : Prop :=
  ∀ nc ∈ commands, ∃ p f, parser_map.lookup nc.1 = some p ∧ Serves (modules nc.1) p ∧
    p.wasmFunctionVec[(call nc).index]? = some f ∧ Waits (call nc) f

section
variable {modules : List Byte → Module} {call : List Byte × Command → Call}

/-- A command leaves the others ready. -/
theorem ready_after {nc : List Byte × Command} {rest : List (List Byte × Command)}
    {parser_map : List (List Byte × Parser.State)} {p q : Parser.State} {f' : WasmFunction}
    (ready : Ready modules call rest parser_map)
    (calls : ∀ other ∈ nc :: rest, Calls (modules other.1) other.2 (call other))
    (repeatable : ∀ other ∈ rest, Repeatable call nc other)
    (found : parser_map.lookup nc.1 = some p) (inside : (call nc).index < p.wasmFunctionVec.length)
    (serves : Serves (modules nc.1) q)
    (functions : q.wasmFunctionVec = p.wasmFunctionVec.set (call nc).index f')
    (later : (call nc).localData = [] → Later (toFunction (call nc).code) f') :
    Ready modules call rest (assign nc.1 q parser_map) := by
  intro other hother
  obtain ⟨p', f, found', serves', here, waits⟩ := ready other hother
  by_cases same : other.1 = nc.1
  · rw [same] at found' ⊢
    cases found.symm.trans found'
    by_cases index : (call nc).index = (call other).index
    · obtain ⟨none, none'⟩ := repeatable other hother same.symm index
      have code : (call other).code = (call nc).code := by
        have first := (calls nc (List.mem_cons_self ..)).defined
        have second := (calls other (List.mem_cons_of_mem _ hother)).defined
        rw [same, ← index, first] at second
        exact (Option.some.inj second).symm
      refine ⟨q, f', lookup_assign_self, serves, ?_, Or.inr ⟨none', ?_⟩⟩
      · rw [functions, ← index]
        exact List.getElem?_set_self inside
      · rw [code]
        exact later none
    · refine ⟨q, f, lookup_assign_self, serves, ?_, waits⟩
      rw [functions, List.getElem?_set_ne index]
      exact here
  · exact ⟨p', f, (lookup_assign_of_ne same).trans found', serves', here, waits⟩

/-- The second loop goes through exactly when every command expects the right thing. -/
theorem testAll_iff {sys : System} {base : BitVec 64} {entry : ArmMachine.State}
    (processor : Processor sys base entry) {commands : List (List Byte × Command)}
    (calls : ∀ nc ∈ commands, Calls (modules nc.1) nc.2 (call nc) ∧ Supported (call nc))
    (repeatable : commands.Pairwise (Repeatable call))
    {parser_map : List (List Byte × Parser.State)} (ready : Ready modules call commands parser_map)
    (orders : Nat → WasmFunction.VisitOrder) :
    (∃ after, testAll sys orders commands parser_map = .ok after) ↔
      ∀ nc ∈ commands, Expects nc.2 (call nc) := by
  let Left (rest : List ((List Byte × Command) × Nat)) (maps : List (List Byte × Parser.State)) :=
    Ready modules call (rest.map Prod.fst) maps ∧ (rest.map Prod.fst).Pairwise (Repeatable call) ∧
      ∀ nc ∈ rest.map Prod.fst, Calls (modules nc.1) nc.2 (call nc) ∧ Supported (call nc)
  have turn : ∀ (v : (List Byte × Command) × Nat) rest maps, Left (v :: rest) maps →
      ((∃ next, test sys (orders v.2) v.1.1 v.1.2 maps = .ok next) ↔ Expects v.1.2 (call v.1)) ∧
        ∀ next, test sys (orders v.2) v.1.1 v.1.2 maps = .ok next → Left rest next := by
    rintro ⟨nc, n⟩ rest maps ⟨ready, repeatable, calls⟩
    obtain ⟨⟨called, supported⟩, others⟩ := List.forall_mem_cons.mp calls
    obtain ⟨distinct, later⟩ := List.pairwise_cons.mp repeatable
    obtain ⟨p, f, found, serves, here, waits⟩ := ready nc (List.mem_cons_self ..)
    obtain ⟨through, changes⟩ :=
      test_step processor called supported serves here waits found (orders n)
    refine ⟨through, fun next done => ?_⟩
    obtain ⟨q, f', rfl, serves', functions, reset⟩ := changes next done
    refine ⟨ready_after (fun other hother => ready other (List.mem_cons_of_mem _ hother))
      (fun other hother => (calls other hother).1) distinct found
      (List.getElem?_eq_some_iff.mp here).1 serves' functions reset, later, others⟩
  have all : commands.zipIdx.map Prod.fst = commands := List.zipIdx_map_fst 0 commands
  have start : Left commands.zipIdx parser_map := by
    refine ⟨?_, ?_, ?_⟩
    · rw [all]
      exact ready
    · rw [all]
      exact repeatable
    · rw [all]
      exact calls
  have completes := FallibleLoop.foldlM_completes_iff
    (fun v rest maps next left done => (turn v rest maps left).2 next done)
    (fun v rest maps left => (turn v rest maps left).1) start
  refine completes.trans ?_
  rw [← List.forall_mem_map (P := fun nc => Expects nc.2 (call nc)), all]

end

/-! ### The test file -/

/-- A module is parsed to its tables, with functions that were not called yet. -/
theorem parse_serves (m : Module) : ∃ p, parse (ofFile m.bytes) = .ok p ∧ Serves m p ∧
    p.wasmFunctionVec = m.code.map toFunction := by
  obtain ⟨p, parsed, names, functions, code⟩ := parse_module m
  obtain ⟨length, parsed'⟩ := parse_sections ModuleSection.bytes
    (fun p sec => record p (asSection sec)) m.sections fun sec h => section_piece sec (m.fits sec h)
  have types : p.wasmTypeVec = (m.sections.flatMap ModuleSection.typeEntries).map toWasmType := by
    cases parsed.symm.trans parsed'
    have entries : (m.sections.map asSection).flatMap typeSection =
        m.sections.flatMap ModuleSection.typeEntries := by
      rw [List.flatMap_map]
      congr 1
      funext sec
      cases sec <;> rfl
    obtain ⟨types, -⟩ := record_sections (m.sections.map asSection) { s := [] }
    rw [List.foldl_map, entries] at types
    exact types
  exact ⟨p, parsed, ⟨types, functions, names⟩, code⟩

theorem file_of_assigned {name : List Byte} {entries : List Entry} {nc : List Byte × Command}
    (inside : nc ∈ assigned name entries) : nc.1 = name ∨ .file nc.1 ∈ entries := by
  induction entries generalizing name with
  | nil => cases inside
  | cons first rest ih =>
    cases first with
    | file filename =>
      rcases ih inside with here | later
      · exact Or.inr (by simp [here])
      · exact Or.inr (List.mem_cons_of_mem _ later)
    | action command =>
      rcases List.mem_cons.mp inside with rfl | inside
      · exact Or.inl rfl
      · exact (ih inside).imp_right (List.mem_cons_of_mem _)
    | other => exact (ih inside).imp_right (List.mem_cons_of_mem _)

/-- A test file passes exactly when each of its commands expects what WebAssembly says, or, on a
function without result, expects nothing; provided the functions it calls are supported and those
with locals are called once. -/
theorem driver_accepts_iff {sys : System} {base : BitVec 64} {entry : ArmMachine.State}
    (processor : Processor sys base entry) {modules : List Byte → Module}
    {files : List Byte → List Byte} {first : List Byte} {rest : List Entry}
    (written : ∀ name, .file name ∈ Entry.file first :: rest → files name = (modules name).bytes)
    {call : List Byte × Command → Call}
    (calls : ∀ nc ∈ assigned first rest, Calls (modules nc.1) nc.2 (call nc) ∧ Supported (call nc))
    (repeatable : (assigned first rest).Pairwise (Repeatable call))
    (orders : Nat → WasmFunction.VisitOrder) :
    (∃ after, test_chapter sys files orders (.file first :: rest) = .ok after) ↔
      ∀ nc ∈ assigned first rest, Expects nc.2 (call nc) := by
  have readable : ∀ entry ∈ Entry.file first :: rest, Readable files entry := by
    rintro entry inside name rfl
    obtain ⟨p, parsed, -⟩ := parse_serves (modules name)
    exact ⟨p, by rw [written name inside, parsed]⟩
  obtain ⟨tables, collected⟩ := (collect_completes_iff files _).mpr readable
  obtain ⟨parsed, present⟩ := collect_parsed collected
  have perm : tables.command_map.Perm (assigned first rest) := (collect_collects collected).perm
  have member : ∀ nc, nc ∈ tables.command_map ↔ nc ∈ assigned first rest := fun nc => perm.mem_iff
  have ready : Ready modules call tables.command_map tables.parser_map := by
    intro nc inside
    have listed : .file nc.1 ∈ Entry.file first :: rest := by
      rcases file_of_assigned ((member nc).mp inside) with here | later
      · rw [here]
        exact List.mem_cons_self ..
      · exact List.mem_cons_of_mem _ later
    obtain ⟨p, found⟩ := present nc.1 listed
    obtain ⟨p', parsed', serves, functions⟩ := parse_serves (modules nc.1)
    have done := parsed nc.1 p found
    rw [written nc.1 listed] at done
    cases parsed'.symm.trans done
    refine ⟨p, toFunction (call nc).code, found, serves, ?_, Or.inl rfl⟩
    rw [functions, List.getElem?_map, (calls nc ((member nc).mp inside)).1.defined]
    rfl
  have again : tables.command_map.Pairwise (Repeatable call) :=
    (perm.pairwise_iff Repeatable.symm).mpr repeatable
  rw [show test_chapter sys files orders (.file first :: rest) =
    testAll sys orders tables.command_map tables.parser_map by
      rw [test_chapter, collected, ok_bind]]
  rw [testAll_iff processor (fun nc inside => calls nc ((member nc).mp inside)) again ready orders]
  exact forall_congr' fun nc => by rw [member nc]

/-- What the caller finds when the machine has run the code. -/
def Returns (base : BitVec 64) (entry : ArmMachine.State) (bytes : List Byte)
    (r : BitVec 64 × BitVec 16) : Prop :=
  ∃ trace u, Complete (ArmMachine.step (littleEndianWords bytes) base) ⟨base, entry⟩ trace
    ⟨entry.x 30, u⟩ ∧ r = (u.x 0, read 16 u.mem (entry.x 0) 2)

theorem Returns.unique {base : BitVec 64} {entry : ArmMachine.State} {bytes : List Byte}
    {r r' : BitVec 64 × BitVec 16} (h : Returns base entry bytes r)
    (h' : Returns base entry bytes r') : r = r' := by
  obtain ⟨trace, u, complete, rfl⟩ := h
  obtain ⟨trace', u', complete', rfl⟩ := h'
  obtain ⟨-, same⟩ := complete.unique complete'
  cases same
  rfl

open Classical in
/-- The processor that runs the machine. -/
noncomputable def machine (base : BitVec 64) (entry : ArmMachine.State) : System where
  mmap _ := some 7
  run bytes := if h : ∃ r, Returns base entry bytes r then some h.choose else none

theorem machine_run {base : BitVec 64} {entry : ArmMachine.State} {bytes : List Byte}
    {r : BitVec 64 × BitVec 16} (returns : Returns base entry bytes r) :
    (machine base entry).run bytes = some r := by
  have runs : ∃ r, Returns base entry bytes r := ⟨r, returns⟩
  have chosen : runs.choose = r := runs.choose_spec.unique returns
  rw [machine]
  simp only [runs, dif_pos]
  rw [chosen]

theorem machine_processor : Processor (machine 0x100000 sampleCall) 0x100000 sampleCall where
  maps _ := ⟨7, rfl⟩
  runs _ trace u complete := machine_run ⟨trace, u, complete, rfl⟩
  arranged _ _ _ short small := sampleCall_arranged small short ⟨rfl, rfl, rfl⟩ rfl

/-- `(func (export "d") (param i32 i32) (result i32) (i32.div_s (local.get 0) (local.get 1)))`. -/
def quotientBody : Seq := .op (.localVar .get 0) (.op (.localVar .get 1) (.div .w true .nil))

def quotientModule : Module where
  sections := [.types [⟨[.i32, .i32], [.i32]⟩], .functions [0], .exports [⟨[0x64], .func, 0⟩],
    .code [⟨[], quotientBody.bytes ++ [0x0b]⟩]]
  fits := by
    intro sec h
    simp only [List.mem_cons, List.not_mem_nil, or_false] at h
    rcases h with rfl | rfl | rfl | rfl
    · exact ⟨by decide, by decide, by decide⟩
    · exact ⟨by decide, by decide, by decide⟩
    · exact ⟨by decide, by decide, by decide⟩
    · exact ⟨by decide, by decide, by decide⟩
  distinct := by decide
  matched := rfl
  typed := by decide
  defined := by decide

def quotientTrap : Command :=
  ⟨"assert_trap".toList, [0x64], [⟨"i32".toList, "1".toList⟩, ⟨"i32".toList, "0".toList⟩], none⟩

/-- Minus nine by two. -/
def quotientReturn : Command :=
  ⟨"assert_return".toList, [0x64],
    [⟨"i32".toList, "4294967287".toList⟩, ⟨"i32".toList, "2".toList⟩], some "4294967292".toList⟩

def quotientCall (nc : List Byte × Command) : Call :=
  ⟨0, if nc.2 = quotientTrap then [.i32 1, .i32 0] else [.i32 (-9), .i32 2], [.i32 0], [],
    quotientBody⟩

theorem quotient_supported (a b : BitVec 32) :
    Supported ⟨0, [.i32 a, .i32 b], [.i32 0], [], quotientBody⟩ where
  accepted := {
    intParams := by simp [isFloat]
    fewParams := by simp
    intResults := by simp [isFloat]
    fewResults := by simp
    small := show (16 : Int) ≤ 4080 by decide
    uses := ⟨Nat.zero_lt_succ _, Nat.one_lt_two, trivial⟩ }
  few := by simp
  single := by simp
  intLocals := by simp [Call.localData, Call.groups]
  unshared := unshared_of_i32 (show AllI32 _ by simp [AllI32, typeOf])
    (show AllI32 [] by simp [AllI32])
  valid := .get rfl (.get rfl (.div .nil))
  free := by simp [ReturnFree, quotientBody]
  once := show quotientBody.divisions ≤ 1 by decide
  agreeing := by simp [Agreeing, quotientBody, BodySimulation.Op.Plain]

theorem driver_accepts_quotient : ∃ after, test_chapter (machine 0x100000 sampleCall)
    (fun _ => quotientModule.bytes) (fun _ => BranchFixup.inOrder)
    [.file [0x71], .action quotientTrap, .action quotientReturn] = .ok after := by
  have commands : assigned [0x71] [.action quotientTrap, .action quotientReturn] =
    [([0x71], quotientTrap), ([0x71], quotientReturn)] := rfl
  have called : ∀ command params, readArguments command.args [.i32 0, .i32 0] = .ok params →
      command.field = [0x64] →
      Calls quotientModule command ⟨0, params, [.i32 0], [], quotientBody⟩ := by
    intro command params reads named
    exact ⟨rfl, ⟨⟨[0x64], .func, 0⟩, by decide, rfl, named.symm, rfl⟩,
      ⟨0, _, rfl, rfl, reads, rfl⟩, rfl⟩
  refine (@driver_accepts_iff _ _ _ machine_processor (fun _ => quotientModule) _ _ _
    (fun _ _ => rfl) quotientCall ?_ ?_ _).mpr ?_
  · rw [commands]
    simp only [List.forall_mem_cons]
    exact ⟨⟨called _ _ rfl rfl, quotient_supported _ _⟩,
      ⟨called _ _ rfl rfl, quotient_supported _ _⟩, by simp⟩
  · rw [commands]
    exact List.pairwise_pair.mpr fun _ _ => ⟨rfl, rfl⟩
  · rw [commands]
    simp only [List.forall_mem_cons]
    refine ⟨?_, ?_, by simp⟩
    · unfold Expects
      rw [if_pos (by decide)]
      decide
    unfold Expects
    rw [if_neg (by decide), if_neg (by decide)]
    exact ⟨⟨[⟨.w, -9⟩, ⟨.w, 2⟩], [⟨.w, -4⟩]⟩, ⟨.w, -4⟩, 4294967292, by decide, rfl, by decide,
      by decide⟩

end TestVerdicts
