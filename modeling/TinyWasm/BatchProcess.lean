import TinyWasm.TestVerdicts

/-!
# All functions of a module at once

`funcBatchProcess` compiles the functions of a module in order, each with the
default values as its arguments, and executes each if it is asked to. No
function sees what was done to another.
-/

namespace BatchProcess

open HexText Wasm Emit Parser SourceBody CodeItems FunctionCall Validation ParserExactness
open ExportLookup RepeatedCalls ExecutablePages Acceptance StructuredMeaning TestDriver TestVerdicts

/-! ### The loop -/

/-- `executeWasmInstr` if it is asked for. Its value is not used; what it throws is not caught. -/
def executeIf (sys : System) (execute : Bool) (f : WasmFunction) : Except CppError WasmFunction :=
  if execute then do
    let execution ← executeWasmInstr sys f
    match execution.outcome with
    | .ok _ => return execution.function
    | .error message => throw (.thrown message)
  else .ok f

def batchTurn (sys : System) (execute : Bool) (order : WasmFunction.VisitOrder)
    (p : Parser.State) (i : Nat) : Except CppError Parser.State := do
  let p ← initFunctionbyType p i
  let f ← entryAt p.wasmFunctionVec i
  let f ← funcSingleProcess f order
  let f ← executeIf sys execute f
  return { p with
    funcIndexNameMapper := (atKey i [] p.funcIndexNameMapper).2
    wasmFunctionVec := p.wasmFunctionVec.set i f }

def funcBatchProcess (sys : System) (execute : Bool) (orders : Nat → WasmFunction.VisitOrder)
    (p : Parser.State) : Except CppError Parser.State :=
  (List.range p.funcTypeVec.length).foldlM (fun p i => batchTurn sys execute (orders i) p i) p

/-! ### One function -/

/-- The function of the module that has this index, with the default values as its arguments. -/
structure Defines (m : Module) (c : Call) : Prop where
  typed : ∃ t type, m.functions[c.index]? = some t ∧
    (m.sections.flatMap ModuleSection.typeEntries)[t]? = some type ∧
    type.params.map ParserExactness.ValType.zero = c.params ∧
    type.results.map ParserExactness.ValType.zero = c.results
  defined : m.code[c.index]? = some c.code

/-- What a turn makes of its function. -/
def processed (sys : System) (execute : Bool) (order : WasmFunction.VisitOrder) (c : Call) :
    Except CppError WasmFunction := do
  let f ← funcSingleProcess (delivered c.params c.results c.groups c.body) order
  executeIf sys execute f

section
variable {m : Module} {c : Call} {p : Parser.State} (defines : Defines m c) (serves : Serves m p)
  (here : p.wasmFunctionVec[c.index]? = some (toFunction c.code))
include defines serves here

/-- A turn does to its function what would be done to it alone. -/
theorem batchTurn_eq (sys : System) (execute : Bool) (order : WasmFunction.VisitOrder) :
    batchTurn sys execute order p c.index = (do
      let f ← processed sys execute order c
      return { p with
        funcIndexNameMapper := (atKey c.index [] p.funcIndexNameMapper).2
        wasmFunctionVec := p.wasmFunctionVec.set c.index f }) := by
  obtain ⟨t, type, typeIndex, signature, params, results⟩ := defines.typed
  have inside : c.index < p.wasmFunctionVec.length := (List.getElem?_eq_some_iff.mp here).1
  have functionType : p.funcTypeVec[c.index]? = some t := by
    rw [serves.functions, typeIndex]
  have typeHere : p.wasmTypeVec[t]? = some ⟨c.params, c.results⟩ := by
    rw [serves.types, List.getElem?_map, signature, ← params, ← results]
    rfl
  have init : initFunctionbyType p c.index = .ok { p with
      wasmFunctionVec := p.wasmFunctionVec.set c.index
        (delivered c.params c.results c.groups c.body) } := by
    rw [← delivered_eq]
    simp only [initFunctionbyType, entryAt, here, functionType, typeHere, ok_bind]
    rfl
  rw [batchTurn, init, ok_bind, entryAt, List.getElem?_set_self inside]
  simp only [ok_bind, processed, bind_assoc, List.set_set]

end

/-! ### The whole module -/

/-- The functions still to come are as they were parsed, the others as they are done alone. -/
def Progress (m : Module) (call : Nat → Call) (sys : System) (execute : Bool)
    (orders : Nat → WasmFunction.VisitOrder) (rest : List Nat) (p : Parser.State) : Prop :=
  Serves m p ∧ rest.Nodup ∧ (∀ i ∈ rest, i < m.functions.length) ∧
    ∀ i < m.functions.length, ∃ f, p.wasmFunctionVec[i]? = some f ∧
      if i ∈ rest then f = toFunction (call i).code
      else processed sys execute (orders i) (call i) = .ok f

section
variable {m : Module} {call : Nat → Call} {sys : System} {execute : Bool}
  {orders : Nat → WasmFunction.VisitOrder}
  (defines : ∀ i < m.functions.length, (call i).index = i ∧ Defines m (call i))
include defines

theorem turn_progress {i : Nat} {rest : List Nat} {p : Parser.State}
    (progress : Progress m call sys execute orders (i :: rest) p) :
    ((∃ q, batchTurn sys execute (orders i) p i = .ok q) ↔
      ∃ f, processed sys execute (orders i) (call i) = .ok f) ∧
    ∀ q, batchTurn sys execute (orders i) p i = .ok q →
      Progress m call sys execute orders rest q := by
  obtain ⟨serves, distinct, inside, functions⟩ := progress
  obtain ⟨index, defined⟩ := defines i (inside i (List.mem_cons_self ..))
  obtain ⟨f, here, fresh⟩ := functions i (inside i (List.mem_cons_self ..))
  rw [if_pos (List.mem_cons_self ..)] at fresh
  subst fresh
  have turn := batchTurn_eq defined serves (by rw [index]; exact here) sys execute (orders i)
  rw [index] at turn
  rw [turn]
  constructor
  · constructor
    · rintro ⟨q, done⟩
      obtain ⟨f, alone, -⟩ := ok_of_bind done
      exact ⟨f, alone⟩
    · rintro ⟨f, alone⟩
      exact ⟨_, by rw [alone]; rfl⟩
  · intro q done
    obtain ⟨f, alone, done⟩ := ok_of_bind done
    cases done
    obtain ⟨new, distinct⟩ := List.nodup_cons.mp distinct
    refine ⟨⟨serves.types, serves.functions, serves.names⟩, distinct,
      fun k hk => inside k (List.mem_cons_of_mem _ hk), fun k hk => ?_⟩
    by_cases same : i = k
    · subst same
      refine ⟨f, List.getElem?_set_self (List.getElem?_eq_some_iff.mp here).1, ?_⟩
      rw [if_neg new]
      exact alone
    · obtain ⟨f', here', state⟩ := functions k hk
      refine ⟨f', (List.getElem?_set_ne same).trans here', ?_⟩
      simpa only [List.mem_cons, Ne.symm same, false_or] using state

theorem batch_iff {p : Parser.State} (serves : Serves m p)
    (parsed : p.wasmFunctionVec = m.code.map toFunction) :
    ((∃ q, funcBatchProcess sys execute orders p = .ok q) ↔
      ∀ i < m.functions.length, ∃ f, processed sys execute (orders i) (call i) = .ok f) ∧
    ∀ q, funcBatchProcess sys execute orders p = .ok q → ∀ i < m.functions.length, ∃ f,
      q.wasmFunctionVec[i]? = some f ∧ processed sys execute (orders i) (call i) = .ok f := by
  have count : p.funcTypeVec.length = m.functions.length := by
    rw [serves.functions]
  have start : Progress m call sys execute orders (List.range m.functions.length) p := by
    refine ⟨serves, List.nodup_range, fun i hi => List.mem_range.mp hi, fun i hi => ?_⟩
    obtain ⟨index, defined⟩ := defines i hi
    refine ⟨toFunction (call i).code, ?_, ?_⟩
    · have code := defined.defined
      rw [index] at code
      rw [parsed, List.getElem?_map, code]
      rfl
    · rw [if_pos (List.mem_range.mpr hi)]
  rw [funcBatchProcess, count]
  constructor
  · have completes := FallibleLoop.foldlM_completes_iff
      (fun i rest p q left done => (turn_progress defines left).2 q done)
      (fun i rest p left => (turn_progress defines left).1) start
    refine completes.trans ?_
    simp only [List.mem_range]
  · intro q done i hi
    have last := FallibleLoop.foldlM_keeps
      (fun i rest p q left done => (turn_progress defines left).2 q done) start done
    obtain ⟨-, -, -, functions⟩ := last
    obtain ⟨f, here, state⟩ := functions i hi
    rw [if_neg List.not_mem_nil] at state
    exact ⟨f, here, state⟩

theorem bodies_short {i : Nat} (hi : i < m.functions.length) :
    BranchFixup.bodySize (call i).groups (call i).body ≤ 255 :=
  size_byte_of_defined (List.mem_of_getElem? (defines i hi).2.defined)

/-- Without execution the functions of a module are all compiled, each to the code it has when it is
compiled alone, exactly when each is accepted. -/
theorem batch_compiles_iff {p : Parser.State} (parsed : parse (ofFile m.bytes) = .ok p) :
    ((∃ q, funcBatchProcess sys false orders p = .ok q) ↔
      ∀ i < m.functions.length,
        Accepted (call i).params (call i).localData (call i).results (call i).body) ∧
    ∀ q, funcBatchProcess sys false orders p = .ok q → ∀ i < m.functions.length, ∃ f,
      q.wasmFunctionVec[i]? = some f ∧
      funcSingleProcess (delivered (call i).params (call i).results (call i).groups (call i).body)
        (orders i) = .ok f := by
  obtain ⟨p', parsed', serves, functions⟩ := parse_serves m
  cases parsed.symm.trans parsed'
  have plain : ∀ i f, processed sys false (orders i) (call i) = .ok f ↔ funcSingleProcess
      (delivered (call i).params (call i).results (call i).groups (call i).body) (orders i) =
        .ok f := by
    intro i f
    rw [processed]
    cases funcSingleProcess
      (delivered (call i).params (call i).results (call i).groups (call i).body) (orders i) <;> rfl
  obtain ⟨completes, results⟩ := @batch_iff m call sys false orders defines p serves functions
  constructor
  · rw [completes]
    refine forall₂_congr fun i hi => ?_
    simp only [plain]
    constructor
    · rintro ⟨f, done⟩
      exact accepted_of_compiles (bodies_short defines hi) done
    · intro accepted
      exact compiles_of_accepted (bodies_short defines hi) accepted (orders i)
  · intro q done i hi
    obtain ⟨f, here, alone⟩ := results q done i hi
    exact ⟨f, here, (plain i f).mp alone⟩

/-- With execution it depends on what the functions do: none may trap on default arguments. -/
theorem batch_executes_iff {base : BitVec 64} {entry : ArmMachine.State}
    (processor : Processor sys base entry)
    (supported : ∀ i < m.functions.length, Supported (call i)) {p : Parser.State}
    (parsed : parse (ofFile m.bytes) = .ok p) :
    (∃ q, funcBatchProcess sys true orders p = .ok q) ↔
      ∀ i < m.functions.length, (call i).meaning ≠ .trap := by
  obtain ⟨p', parsed', serves, functions⟩ := parse_serves m
  cases parsed.symm.trans parsed'
  obtain ⟨completes, -⟩ := @batch_iff m call sys true orders defines p serves functions
  rw [completes]
  refine forall₂_congr fun i hi => ?_
  have size_byte := bodies_short defines hi
  obtain ⟨g, done⟩ := compiles_of_accepted size_byte (supported i hi).accepted (orders i)
  obtain ⟨e, executed, -, reports⟩ :=
    executes_supported processor (supported i hi) size_byte done rfl
  have runs : processed sys true (orders i) (call i) = (match e.outcome with
      | .ok _ => .ok e.function
      | .error message => .error (.thrown message)) := by
    rw [processed, done, ok_bind, executeIf, if_pos rfl, executed, ok_bind]
    rfl
  rw [runs]
  cases meaning : (call i).meaning with
  | stuck =>
    rw [meaning] at reports
    exact reports.elim
  | trap =>
    rw [meaning] at reports
    rw [show e.outcome = .error "Wasm trapped" from reports]
    simp
  | done values =>
    rw [meaning] at reports
    obtain ⟨-, ans, outcome, -⟩ := reports
    rw [outcome]
    simp

end

/-- The one function of the module, on two zeros. -/
def zeroQuotient (i : Nat) : Call := ⟨i, [.i32 0, .i32 0], [.i32 0], [], quotientBody⟩

theorem zeroQuotient_defines : ∀ i < quotientModule.functions.length,
    (zeroQuotient i).index = i ∧ Defines quotientModule (zeroQuotient i) := by
  intro i hi
  obtain rfl : i = 0 := Nat.lt_one_iff.mp hi
  exact ⟨rfl, ⟨0, _, rfl, rfl, rfl, rfl⟩, rfl⟩

theorem batch_compiles_quotient : ∃ p q, parse (ofFile quotientModule.bytes) = .ok p ∧
    funcBatchProcess someSystem false (fun _ => BranchFixup.inOrder) p = .ok q := by
  obtain ⟨p, parsed, -⟩ := parse_serves quotientModule
  obtain ⟨completes, -⟩ := @batch_compiles_iff _ _ someSystem (fun _ => BranchFixup.inOrder)
    zeroQuotient_defines p parsed
  obtain ⟨q, done⟩ := completes.mpr fun i _ => (quotient_supported 0 0).accepted
  exact ⟨p, q, parsed, done⟩

/-- Zero by zero traps. -/
theorem batch_executes_quotient : ∃ p, parse (ofFile quotientModule.bytes) = .ok p ∧
    ¬ ∃ q, funcBatchProcess (machine 0x100000 CallRun.sampleCall) true
      (fun _ => BranchFixup.inOrder) p = .ok q := by
  obtain ⟨p, parsed, -⟩ := parse_serves quotientModule
  refine ⟨p, parsed, fun completes => ?_⟩
  have supported : ∀ i < quotientModule.functions.length, Supported (zeroQuotient i) := by
    intro i hi
    obtain rfl : i = 0 := Nat.lt_one_iff.mp hi
    exact quotient_supported 0 0
  have untrapped := (batch_executes_iff zeroQuotient_defines machine_processor supported
    parsed).mp completes
  exact untrapped 0 (by decide) (by decide)

end BatchProcess
