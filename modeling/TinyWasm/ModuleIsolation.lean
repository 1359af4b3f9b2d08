import TinyWasm.VisitOrders

/-!
# The modules of a test file do not meet

A command looks at the module it is for and at no other, and the driver runs the
commands of a module in the order of the file. So a test file is the sum of its
parts, one for each module: it passes exactly when each part passes alone.
-/

namespace ModuleIsolation

open HexText Wasm Emit Parser RepeatedCalls ExecutablePages TestDriver DriverRuns VisitOrders

/-! ### One command -/

/-- The turn of a command, on its module alone. -/
def ownTurn (sys : System) (order : WasmFunction.VisitOrder) (p : Option State)
    (nc : List Byte × Command) : Except CppError (Option State) := do
  let q ← runCommand sys order nc.2 (p.getD { s := [] })
  return some q

theorem test_touches (sys : System) (order : WasmFunction.VisitOrder) :
    FallibleLoop.Touches (fun parser_map nc => test sys order nc.1 nc.2 parser_map) Prod.fst
      (fun parser_map name => parser_map.lookup name) (ownTurn sys order) := by
  have found : ∀ (name : List Byte) (p : State) (parser_map : List (List Byte × State)),
      (atKey name p parser_map).1 = (parser_map.lookup name).getD p := by
    intro name p parser_map
    rw [atKey]
    cases parser_map.lookup name <;> rfl
  have others : ∀ (name : List Byte) (p : State) (parser_map : List (List Byte × State)) k,
      k ≠ name → (atKey name p parser_map).2.lookup k = parser_map.lookup k := by
    intro name p parser_map k distinct
    rw [atKey]
    cases parser_map.lookup name with
    | some q => rfl
    | none => exact lookup_assign_of_ne distinct
  refine ⟨?_, ?_, ?_⟩
  · rintro parser_map ⟨name, command⟩ after done
    rw [test_eq, found] at done
    obtain ⟨q, run, done⟩ := ok_of_bind done
    cases done
    rw [ownTurn, run, ok_bind, lookup_assign_self]
    rfl
  · rintro parser_map ⟨name, command⟩ after done k distinct
    rw [test_eq] at done
    obtain ⟨q, run, done⟩ := ok_of_bind done
    cases done
    exact (lookup_assign_of_ne distinct).trans (others name _ parser_map k distinct)
  · rintro parser_map ⟨name, command⟩ r done
    obtain ⟨q, run, -⟩ := ok_of_bind done
    refine ⟨assign name q (atKey name { s := [] } parser_map).2, ?_⟩
    rw [test_eq, found, run, ok_bind]
    rfl

/-! ### The parts of a test file -/

/-- The entries about the module `name`, when the module `cur` came last. -/
def part (name : List Byte) : List Byte → List Entry → List Entry
  | _, [] => []
  | _, .file filename :: rest =>
    if filename = name then .file filename :: part name filename rest else part name filename rest
  | cur, .action command :: rest =>
    if cur = name then .action command :: part name cur rest else part name cur rest
  | cur, .other :: rest => part name cur rest

theorem file_mem_part {name filename : List Byte} {cur : List Byte} {entries : List Entry} :
    .file filename ∈ part name cur entries ↔ filename = name ∧ .file filename ∈ entries := by
  induction entries generalizing cur with
  | nil => simp [part]
  | cons entry rest ih =>
    cases entry with
    | file other =>
      rw [part]
      by_cases same : other = name
      · rw [if_pos same, List.mem_cons, List.mem_cons, ih, Entry.file.injEq]
        constructor
        · rintro (rfl | ⟨mine, later⟩)
          · exact ⟨same, Or.inl rfl⟩
          · exact ⟨mine, Or.inr later⟩
        · rintro ⟨mine, rfl | later⟩
          · exact Or.inl rfl
          · exact Or.inr ⟨mine, later⟩
      · rw [if_neg same, ih, List.mem_cons, Entry.file.injEq]
        constructor
        · rintro ⟨mine, later⟩
          exact ⟨mine, Or.inr later⟩
        · rintro ⟨mine, rfl | later⟩
          · exact absurd mine same
          · exact ⟨mine, later⟩
    | action command =>
      rw [part]
      split <;> simp [ih]
    | other => simp [part, ih]

/-- The commands of the part are those for its module, wherever they stand. -/
theorem assigned_part (name : List Byte) (entries : List Entry) {cur cur' : List Byte}
    (same : cur = name → cur' = name) :
    assigned cur' (part name cur entries) =
      (assigned cur entries).filter (fun nc => nc.1 = name) := by
  induction entries generalizing cur cur' with
  | nil => rfl
  | cons entry rest ih =>
    cases entry with
    | file filename =>
      rw [part, assigned]
      by_cases mine : filename = name
      · rw [if_pos mine]
        exact ih fun h => h
      · rw [if_neg mine]
        exact ih fun h => absurd h mine
    | action command =>
      rw [part, assigned]
      by_cases mine : cur = name
      · rw [if_pos mine, List.filter_cons_of_pos (by simpa using mine), assigned, ih same,
          same mine, mine]
      · rw [if_neg mine, List.filter_cons_of_neg (by simpa using mine), ih same]
    | other => exact ih same

/-! ### The driver -/

/-- The module of this name behind the first loop. -/
def moduleAt (files : List Byte → List Byte) (entries : List Entry) (name : List Byte) :
    Option State :=
  if .file name ∈ entries then (parse (ofFile (files name))).toOption else none

section
variable {files : List Byte → List Byte} {entries : List Entry}

/-- Only files that are named are parsed. -/
theorem collect_named {tables : Tables} (done : collect files entries = .ok tables)
    {name : List Byte} {p : State} (here : tables.parser_map.lookup name = some p) :
    .file name ∈ entries := by
  let Named (rest : List Entry) (t : Tables) := (∀ entry ∈ rest, entry ∈ entries) ∧
    ∀ name p, t.parser_map.lookup name = some p → .file name ∈ entries
  have start : Named entries {} := ⟨fun entry inside => inside, fun name p found => nomatch found⟩
  have keeps : ∀ entry rest t after, Named (entry :: rest) t →
      collectOne files t entry = .ok after → Named rest after := by
    rintro entry rest t after ⟨inside, before⟩ turn
    refine ⟨fun e later => inside e (List.mem_cons_of_mem _ later), ?_⟩
    cases entry with
    | file filename =>
      rw [collectOne] at turn
      by_cases known : (t.parser_map.lookup filename).isSome
      · rw [if_pos known] at turn
        cases turn
        exact before
      · rw [if_neg known] at turn
        obtain ⟨q, -, turn⟩ := ok_of_bind turn
        cases turn
        intro name p found
        by_cases same : name = filename
        · rw [same]
          exact inside _ (List.mem_cons_self ..)
        · exact before name p ((lookup_assign_of_ne same).symm.trans found)
    | action | other =>
      cases turn
      exact before
  exact (FallibleLoop.foldlM_keeps keeps start done).2 name p here

theorem collect_moduleAt {tables : Tables} (done : collect files entries = .ok tables)
    (name : List Byte) : tables.parser_map.lookup name = moduleAt files entries name := by
  obtain ⟨parsed, present⟩ := collect_parsed done
  rw [moduleAt]
  by_cases listed : .file name ∈ entries
  · obtain ⟨p, here⟩ := present name listed
    rw [if_pos listed, here, parsed name p here]
    rfl
  · rw [if_neg listed]
    cases found : tables.parser_map.lookup name with
    | none => rfl
    | some p => exact absurd (collect_named done found) listed

/-- The commands for a module, one after another on this module alone. -/
def runModule (sys : System) (order : WasmFunction.VisitOrder) (files : List Byte → List Byte)
    (entries : List Entry) (name : List Byte) : Except CppError (Option State) :=
  ((assigned [] entries).filter fun nc => nc.1 = name).foldlM (ownTurn sys order)
    (moduleAt files entries name)

variable {sys : System} {order : WasmFunction.VisitOrder}

theorem testAll_const (commands : List (List Byte × Command))
    (parser_map : List (List Byte × State)) :
    testAll sys (fun _ => order) commands parser_map =
      commands.foldlM (fun parser_map nc => test sys order nc.1 nc.2 parser_map) parser_map := by
  conv_rhs => rw [← List.zipIdx_map_fst 0 commands, List.foldlM_map]
  rfl

theorem runModule_collected {tables : Tables} (done : collect files entries = .ok tables)
    (name : List Byte) : runModule sys order files entries name =
      (tables.command_map.filter fun nc => nc.1 = name).foldlM (ownTurn sys order)
        (tables.parser_map.lookup name) := by
  rw [runModule, (collect_collects done).all, collect_moduleAt done]

/-- Each module is left as its own commands leave it. -/
theorem test_chapter_runs {after : List (List Byte × State)}
    (done : test_chapter sys files (fun _ => order) entries = .ok after) (name : List Byte) :
    runModule sys order files entries name = .ok (after.lookup name) := by
  obtain ⟨tables, collected, done⟩ := ok_of_bind done
  rw [testAll_const] at done
  rw [runModule_collected collected]
  exact (test_touches sys order).run done name

theorem test_chapter_completes_iff :
    (∃ after, test_chapter sys files (fun _ => order) entries = .ok after) ↔
      (∀ entry ∈ entries, Readable files entry) ∧
        ∀ name, ∃ p, runModule sys order files entries name = .ok p := by
  rw [← collect_completes_iff]
  constructor
  · rintro ⟨after, done⟩
    obtain ⟨tables, collected, -⟩ := ok_of_bind done
    exact ⟨⟨tables, collected⟩, fun name => ⟨_, test_chapter_runs done name⟩⟩
  · rintro ⟨⟨tables, collected⟩, runs⟩
    obtain ⟨after, done⟩ := (test_touches sys order).completes_iff.mpr fun name => by
      obtain ⟨p, run⟩ := runs name
      exact ⟨p, (runModule_collected collected name).symm.trans run⟩
    refine ⟨after, ?_⟩
    rw [test_chapter, collected, ok_bind, testAll_const]
    exact done

end

/-! ### The parts and the whole -/

section
variable (sys : System) (order : WasmFunction.VisitOrder) (files : List Byte → List Byte)
  (entries : List Entry) (name : List Byte)

theorem runModule_part : runModule sys order files (part name [] entries) name =
    runModule sys order files entries name := by
  have known : moduleAt files (part name [] entries) name = moduleAt files entries name := by
    simp only [moduleAt, file_mem_part, true_and]
  rw [runModule, runModule, known, assigned_part name entries fun h => h, List.filter_filter]
  simp

/-- A part does nothing to the other modules. -/
theorem runModule_part_other {other : List Byte} (distinct : other ≠ name) :
    runModule sys order files (part name [] entries) other = .ok none := by
  have unknown : moduleAt files (part name [] entries) other = none := by
    rw [moduleAt, if_neg]
    rw [file_mem_part]
    exact fun h => distinct h.1
  have idle : ((assigned [] (part name [] entries)).filter fun nc => nc.1 = other) = [] := by
    rw [assigned_part name entries fun h => h, List.filter_filter, List.filter_eq_nil_iff]
    intro nc _ both
    simp only [Bool.and_eq_true, decide_eq_true_eq] at both
    exact distinct (both.1.symm.trans both.2)
  rw [runModule, unknown, idle]
  rfl

theorem part_completes_iff :
    (∃ after, test_chapter sys files (fun _ => order) (part name [] entries) = .ok after) ↔
      (.file name ∈ entries → Readable files (.file name)) ∧
        ∃ p, runModule sys order files entries name = .ok p := by
  rw [test_chapter_completes_iff]
  constructor
  · rintro ⟨readable, runs⟩
    obtain ⟨p, run⟩ := runs name
    exact ⟨fun listed => readable _ (file_mem_part.mpr ⟨rfl, listed⟩), p,
      (runModule_part ..).symm.trans run⟩
  · rintro ⟨readable, p, run⟩
    refine ⟨?_, fun other => ?_⟩
    · rintro entry inside filename rfl
      obtain ⟨rfl, listed⟩ := file_mem_part.mp inside
      exact readable listed filename rfl
    · by_cases same : other = name
      · subst same
        exact ⟨p, (runModule_part ..).trans run⟩
      · exact ⟨none, runModule_part_other sys order files entries name same⟩

end

/-- A test file passes exactly when its part about each module passes alone, and then it leaves
each module as its part does. -/
theorem driver_by_module (sys : System) (files : List Byte → List Byte) (entries : List Entry)
    (orders : Nat → WasmFunction.VisitOrder)
    (orders' : List Byte → Nat → WasmFunction.VisitOrder) :
    ((∃ after, test_chapter sys files orders entries = .ok after) ↔
      ∀ name, ∃ alone, test_chapter sys files (orders' name) (part name [] entries) = .ok alone) ∧
    ∀ after, test_chapter sys files orders entries = .ok after → ∀ name, ∃ alone,
      test_chapter sys files (orders' name) (part name [] entries) = .ok alone ∧
        alone.lookup name = after.lookup name := by
  have anyOrder : ∀ (orders orders' : Nat → WasmFunction.VisitOrder) (entries : List Entry),
      (∃ after, test_chapter sys files orders entries = .ok after) →
        ∃ after, test_chapter sys files orders' entries = .ok after := by
    rintro orders orders' entries ⟨after, done⟩
    exact ⟨after, test_chapter_order done orders'⟩
  let always (_ : Nat) := orders 0
  have completes : (∃ after, test_chapter sys files always entries = .ok after) ↔
      ∀ name, ∃ alone, test_chapter sys files always (part name [] entries) = .ok alone := by
    rw [test_chapter_completes_iff]
    simp only [always, part_completes_iff, forall_and]
    refine and_congr ?_ Iff.rfl
    constructor
    · intro readable name listed
      exact readable _ listed
    · rintro readable entry inside filename rfl
      exact readable filename inside filename rfl
  constructor
  · constructor
    · intro done name
      exact anyOrder always _ _ (completes.mp (anyOrder orders always _ done) name)
    · intro done
      exact anyOrder always orders _ (completes.mpr fun name => anyOrder _ always _ (done name))
  · intro after done name
    have whole := test_chapter_runs (test_chapter_order done always) name
    obtain ⟨alone, passes⟩ := completes.mp ⟨after, test_chapter_order done always⟩ name
    have left := test_chapter_runs passes name
    rw [runModule_part, whole] at left
    exact ⟨alone, test_chapter_order passes (orders' name), (Except.ok.inj left).symm⟩

/-- The file of two modules, and its part about the first one. -/
theorem driver_by_module_twoModules : ∃ after alone,
    test_chapter someSystem (fun _ => localModule) (fun _ => BranchFixup.inOrder)
      twoModules = .ok after ∧
    test_chapter someSystem (fun _ => localModule) (fun _ => BranchFixup.inOrder)
      [.file [0x61], .action expectFive, .file [0x61], .action expectFive] = .ok alone ∧
    alone.lookup [0x61] = after.lookup [0x61] := by
  obtain ⟨after, done⟩ := BranchFixup.ok_of_isOk (show (test_chapter someSystem
    (fun _ => localModule) (fun _ => BranchFixup.inOrder) twoModules).isOk = true by
      decide +kernel)
  have cut : part [0x61] [] twoModules =
      [.file [0x61], .action expectFive, .file [0x61], .action expectFive] := by decide
  obtain ⟨alone, passes, same⟩ := (driver_by_module someSystem (fun _ => localModule) twoModules
    (fun _ => BranchFixup.inOrder) fun _ _ => BranchFixup.inOrder).2 after done [0x61]
  rw [cut] at passes
  exact ⟨after, alone, done, passes, same⟩

end ModuleIsolation
