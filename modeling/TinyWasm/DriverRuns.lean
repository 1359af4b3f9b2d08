import TinyWasm.ModuleRuns
import TinyWasm.TestDriver

/-!
# What the driver does to a module

Whatever the functions are and whatever the processor does: a test file that
passes has put each module through a run of calls, one for each of its commands,
in the order of the file. A field that is not exported leads to function 0.
-/

namespace DriverRuns

open HexText Wasm Emit Parser RepeatedCalls ExecutablePages ModuleRuns TestDriver

/-- The two modules differ in their tables of names only. -/
structure SameCode (p q : State) : Prop where
  functions : q.wasmFunctionVec = p.wasmFunctionVec
  types : q.wasmTypeVec = p.wasmTypeVec
  indices : q.funcTypeVec = p.funcTypeVec

theorem SameCode.refl (p : State) : SameCode p p := ⟨rfl, rfl, rfl⟩

theorem SameCode.symm {p q : State} (h : SameCode p q) : SameCode q p :=
  ⟨h.functions.symm, h.types.symm, h.indices.symm⟩

theorem SameCode.trans {p q r : State} (first : SameCode p q) (second : SameCode q r) :
    SameCode p r :=
  ⟨second.functions.trans first.functions, second.types.trans first.types,
    second.indices.trans first.indices⟩

/-- The function a command calls. -/
def calledIndex (p : State) (command : Command) : Nat :=
  (p.funcNameIndexMapper.lookup command.field).getD 0

/-- A call looks at no names. -/
theorem call_same {p p' q : State} {i : Nat} {args : Nat → Option wasm_type}
    {order : WasmFunction.VisitOrder} {g : WasmFunction} (same : SameCode p p')
    (done : call i args order p = .ok (g, q)) :
    ∃ q', call i args order p' = .ok (g, q') ∧ SameCode q' q := by
  obtain ⟨f, t, type, function, typeIndex, signature, compiled, rfl⟩ := call_ok done
  rw [← same.functions] at function
  rw [← same.indices] at typeIndex
  rw [← same.types] at signature
  refine ⟨_, (call_eq function typeIndex signature).trans (by rw [compiled]; rfl), ?_, ?_, ?_⟩
  · exact congrArg (List.set · i (resetAfterExecution g)) same.functions.symm
  · exact same.types.symm
  · exact same.indices.symm

/-- Entering a missing key with the default value does not change what is read. -/
theorem getD_atKey {α β : Type} [BEq α] [LawfulBEq α] [DecidableEq α] (key other : α) (value : β)
    (entries : List (α × β)) :
    ((atKey key value entries).2.lookup other).getD value =
      (entries.lookup other).getD value := by
  cases known : entries.lookup key with
  | some found => rw [atKey_of_lookup known]
  | none =>
    rw [atKey, known]
    by_cases same : other = key
    · subst same
      rw [lookup_assign_self, known]
      rfl
    · rw [lookup_assign_of_ne same]

/-! ### One command -/

/-- What a command does to its module. -/
def runCommand (sys : System) (order : WasmFunction.VisitOrder) (command : Command) (p : State) :
    Except CppError State := do
  let (function_index, names) := atKey command.field 0 p.funcNameIndexMapper
  let p ← initFunctionbyType { p with funcNameIndexMapper := names } function_index
  let f ← entryAt p.wasmFunctionVec function_index
  let param_data ← readArguments command.args f.param_data
  let f ← funcSingleProcess { f with param_data } order
  let execution ← executeWasmInstr sys f
  if ← matched command f.result_data execution.outcome then
    return { p with
      funcIndexNameMapper := (atKey function_index [] p.funcIndexNameMapper).2
      wasmFunctionVec := p.wasmFunctionVec.set function_index execution.function }
  else throw (.thrown "Unmatched")

theorem test_eq (sys : System) (order : WasmFunction.VisitOrder) (name : List Byte)
    (command : Command) (parser_map : List (List Byte × State)) :
    test sys order name command parser_map = (do
      let q ← runCommand sys order command (atKey name { s := [] } parser_map).1
      return assign name q (atKey name { s := [] } parser_map).2) := by
  rw [test, runCommand]
  generalize atKey name { s := [] } parser_map = found
  simp only [bind_assoc]
  refine bind_congr fun p => bind_congr fun f => bind_congr fun params => bind_congr fun g =>
    bind_congr fun execution => bind_congr fun is => ?_
  cases is <;> rfl

section
variable {sys : System} {order : WasmFunction.VisitOrder} {command : Command} {p q : State}

/-- The steps of a command that goes through. -/
theorem runCommand_ok_iff : runCommand sys order command p = .ok q ↔
    ∃ f t type params g e, p.wasmFunctionVec[calledIndex p command]? = some f ∧
      p.funcTypeVec[calledIndex p command]? = some t ∧ p.wasmTypeVec[t]? = some type ∧
      readArguments command.args type.param_data = .ok params ∧
      funcSingleProcess { f with param_data := params, result_data := type.result_data } order =
        .ok g ∧
      executeWasmInstr sys g = .ok e ∧ matched command g.result_data e.outcome = .ok true ∧
      q = { p with
        funcNameIndexMapper := (atKey command.field 0 p.funcNameIndexMapper).2
        funcIndexNameMapper := (atKey (calledIndex p command) [] p.funcIndexNameMapper).2
        wasmFunctionVec := p.wasmFunctionVec.set (calledIndex p command) e.function } := by
  have index : (atKey command.field 0 p.funcNameIndexMapper).1 = calledIndex p command := by
    rw [atKey, calledIndex]
    cases p.funcNameIndexMapper.lookup command.field <;> rfl
  rw [runCommand]
  simp only [index]
  constructor
  · intro done
    obtain ⟨p', init, done⟩ := ok_of_bind done
    obtain ⟨f, function, init⟩ := ok_of_bind init
    obtain ⟨t, typeIndex, init⟩ := ok_of_bind init
    obtain ⟨type, signature, init⟩ := ok_of_bind init
    cases init
    have function := entryAt_ok function
    obtain ⟨f', entered, done⟩ := ok_of_bind done
    have inside : calledIndex p command < p.wasmFunctionVec.length :=
      (List.getElem?_eq_some_iff.mp function).1
    rw [entryAt, List.getElem?_set_self inside] at entered
    cases entered
    obtain ⟨params, reads, done⟩ := ok_of_bind done
    obtain ⟨g, compiled, done⟩ := ok_of_bind done
    obtain ⟨e, executed, done⟩ := ok_of_bind done
    obtain ⟨is, verdict, done⟩ := ok_of_bind done
    cases is with
    | false => cases done
    | true =>
      cases done
      refine ⟨f, t, type, params, g, e, function, entryAt_ok typeIndex, entryAt_ok signature, reads,
        compiled, executed, verdict, ?_⟩
      rw [List.set_set]
  · rintro ⟨f, t, type, params, g, e, function, typeIndex, signature, reads, compiled, executed,
      verdict, rfl⟩
    have inside : calledIndex p command < p.wasmFunctionVec.length :=
      (List.getElem?_eq_some_iff.mp function).1
    simp only [initFunctionbyType, entryAt, function, typeIndex, signature, ok_bind, pure_bind,
      List.getElem?_set_self inside, reads, compiled, executed, verdict, List.set_set, if_true]
    rfl

/-- A command that goes through has called its function. -/
theorem runCommand_calls (done : runCommand sys order command p = .ok q) :
    (∀ other, calledIndex q other = calledIndex p other) ∧
      ∃ args g q', call (calledIndex p command) args order p = .ok (g, q') ∧ SameCode q' q := by
  obtain ⟨f, t, type, params, g, e, function, typeIndex, signature, reads, compiled, executed, -,
    rfl⟩ := runCommand_ok_iff.mp done
  obtain ⟨-, -, -, -, reset⟩ := executeWasmInstr_ok executed
  have called := @call_eq _ (fun i => params[i]?) order p f t type function typeIndex signature
  rw [prepared_arguments (readArguments_length reads), compiled, ok_bind] at called
  refine ⟨fun other => getD_atKey .., _, g, _, called, ?_, rfl, rfl⟩
  rw [reset]

end

/-- A command can only go through in a module that was parsed: the parser that is entered for a
missing one has no functions. -/
theorem test_ok {sys : System} {order : WasmFunction.VisitOrder} {name : List Byte}
    {command : Command} {parser_map after : List (List Byte × State)}
    (done : test sys order name command parser_map = .ok after) :
    ∃ p q, parser_map.lookup name = some p ∧ runCommand sys order command p = .ok q ∧
      after = assign name q parser_map := by
  rw [test_eq] at done
  obtain ⟨q, run, done⟩ := ok_of_bind done
  cases done
  cases found : parser_map.lookup name with
  | none =>
    rw [atKey, found] at run
    obtain ⟨f, -, -, -, -, -, function, -⟩ := runCommand_ok_iff.mp run
    cases function
  | some p =>
    rw [atKey_of_lookup found] at run ⊢
    exact ⟨p, q, rfl, run, rfl⟩

/-! ### The second loop -/

/-- What the second loop has done to the module `p` when the commands `rest` are still to come. -/
def Progress (p : State) (name : List Byte) (commands rest : List (List Byte × Command))
    (parser_map : List (List Byte × State)) : Prop :=
  ∃ q q' is, parser_map.lookup name = some q ∧ SameCode q' q ∧
    (∀ other, calledIndex q other = calledIndex p other) ∧ Runs p is q' ∧
    is ++ (rest.filter fun nc => nc.1 = name).map (fun nc => calledIndex p nc.2) =
      (commands.filter fun nc => nc.1 = name).map fun nc => calledIndex p nc.2

theorem test_progress {sys : System} {order : WasmFunction.VisitOrder} {p : State}
    {name : List Byte} {nc : List Byte × Command} {commands rest : List (List Byte × Command)}
    {parser_map after : List (List Byte × State)}
    (progress : Progress p name commands (nc :: rest) parser_map)
    (done : test sys order nc.1 nc.2 parser_map = .ok after) :
    Progress p name commands rest after := by
  obtain ⟨q, q', is, here, same, names, runs, all⟩ := progress
  obtain ⟨r, r', found, run, rfl⟩ := test_ok done
  obtain ⟨kept, args, g, s, called, sameAfter⟩ := runCommand_calls run
  by_cases mine : nc.1 = name
  · subst mine
    cases here.symm.trans found
    obtain ⟨s', called', sameRun⟩ := call_same same.symm called
    refine ⟨r', s', is ++ [calledIndex q nc.2], lookup_assign_self, sameRun.trans sameAfter,
      fun other => (kept other).trans (names other), runs_snoc runs called', ?_⟩
    rw [← all, List.filter_cons_of_pos (by simp), List.map_cons, names, List.append_assoc]
    rfl
  · refine ⟨q, q', is, ?_, same, names, runs, ?_⟩
    · exact (lookup_assign_of_ne (Ne.symm mine)).trans here
    · rw [← all, List.filter_cons_of_neg (by simpa using mine)]

/-- When a test file passes, each of its modules has been through a run of calls, one for each of
its commands, in their order. -/
theorem driver_calls {sys : System} {files : List Byte → List Byte}
    {orders : Nat → WasmFunction.VisitOrder} {entries : List Entry}
    {after : List (List Byte × State)}
    (done : test_chapter sys files orders entries = .ok after) {name : List Byte}
    (listed : .file name ∈ entries) :
    ∃ p q q', parse (ofFile (files name)) = .ok p ∧ after.lookup name = some q ∧ SameCode q' q ∧
      Runs p (((assigned [] entries).filter fun nc => nc.1 = name).map fun nc =>
        calledIndex p nc.2) q' := by
  obtain ⟨tables, collected, done⟩ := ok_of_bind done
  obtain ⟨parsed, present⟩ := collect_parsed collected
  obtain ⟨p, here⟩ := present name listed
  have start : Progress p name tables.command_map (tables.command_map.zipIdx.map Prod.fst)
      tables.parser_map := by
    refine ⟨p, p, [], here, .refl p, fun other => rfl, .nil p, ?_⟩
    rw [List.zipIdx_map_fst, List.nil_append]
  have last := @FallibleLoop.foldlM_keeps _ _ _ _
    (fun (rest : List ((List Byte × Command) × Nat)) maps =>
      Progress p name tables.command_map (rest.map Prod.fst) maps)
    (fun v rest maps next progress turn => test_progress progress turn) _ _ _ start done
  obtain ⟨q, q', is, found, same, -, runs, all⟩ := last
  rw [List.map_nil, List.filter_nil, List.map_nil, List.append_nil,
    (collect_collects collected).all] at all
  rw [all] at runs
  exact ⟨p, q, q', parsed name p here, found, same, runs⟩

/-- A file of two modules, back at the first one in the end. -/
def twoModules : List Entry := [.file [0x61], .action expectFive, .file [0x62], .action expectFive,
  .file [0x61], .action expectFive]

/-- The function of the first module is called twice. -/
theorem driver_calls_twoModules : ∃ after p q q',
    test_chapter someSystem (fun _ => localModule) (fun _ => BranchFixup.inOrder) twoModules =
      .ok after ∧
    parse (ofFile localModule) = .ok p ∧ after.lookup [0x61] = some q ∧ SameCode q' q ∧
    Runs p [0, 0] q' := by
  obtain ⟨after, done⟩ := BranchFixup.ok_of_isOk (show (test_chapter someSystem
    (fun _ => localModule) (fun _ => BranchFixup.inOrder) twoModules).isOk = true by decide +kernel)
  obtain ⟨p, q, q', parsed, found, same, runs⟩ :=
    @driver_calls _ _ _ _ _ done [0x61] (List.mem_cons_self ..)
  have names : ((parse (ofFile localModule)).toOption.map fun p => calledIndex p expectFive) =
      some 0 := by decide +kernel
  rw [parsed] at names
  have index : calledIndex p expectFive = 0 := Option.some.inj names
  have calls : ((assigned [] twoModules).filter fun nc => nc.1 = [0x61]) =
      [([0x61], expectFive), ([0x61], expectFive)] := by decide
  simp only [calls, List.map_cons, List.map_nil, index] at runs
  exact ⟨after, p, q, q', done, parsed, found, same, runs⟩

end DriverRuns
