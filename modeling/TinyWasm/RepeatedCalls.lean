import TinyWasm.Parser
import TinyWasm.Recompilation

/-!
# Calling a function again and again

The test driver's protocol on a parsed module: the types of the function are
looked up, its arguments are written, it is compiled and executed, and execution
resets some of its fields. The declared locals are not among them.
-/

namespace RepeatedCalls

open HexText Wasm Emit Parser Recompilation CompilerFrame

/-! ### The protocol -/

/-- `param_data[i] = value` for every param; an argument that is no integer is left out. -/
def setArguments (args : Nat → Option wasm_type) (f : WasmFunction) : WasmFunction :=
  { f with param_data := f.param_data.mapIdx fun i old => (args i).getD old }

/-- What `executeWasmInstr` does before it returns or throws. -/
def resetAfterExecution (f : WasmFunction) : WasmFunction :=
  { f with
    pre_instructions_for_param_loading := []
    wasm_instructions := []
    fake_insert_map := []
    label_map := [] }

/-- One call of function `i`: the function as it is executed, and the module after it. -/
def call (i : Nat) (args : Nat → Option wasm_type) (order : WasmFunction.VisitOrder) (p : State) :
    Except CppError (WasmFunction × State) := do
  let p ← initFunctionbyType p i
  let f ← entryAt p.wasmFunctionVec i
  let f ← funcSingleProcess (setArguments args f) order
  return (f, { p with wasmFunctionVec := p.wasmFunctionVec.set i (resetAfterExecution f) })

/-- The functions that further calls with the same arguments execute. -/
def calls (i : Nat) (args : Nat → Option wasm_type) :
    List WasmFunction.VisitOrder → State → Except CppError (List WasmFunction)
  | [], _ => .ok []
  | order :: orders, p => do
    let (f, p) ← call i args order p
    let later ← calls i args orders p
    return f :: later

/-- The two compilations are the same to their caller. -/
structure SameOutcome (g h : WasmFunction) : Prop where
  pre : h.pre_instructions_for_param_loading = g.pre_instructions_for_param_loading
  text : h.wasm_instructions = g.wasm_instructions
  size : h.stack_size = g.stack_size
  locals : h.local_data = g.local_data

/-! ### Functions the parser delivers -/

/-- A function that was parsed and not yet called. -/
def Fresh (f : WasmFunction) : Prop :=
  ∃ code declares, f = ({} : WasmFunction).set_code_vec code declares

theorem codeLoop_fresh {s : Text} {count base_offset : Nat}
    {functions functions' : List WasmFunction}
    (fresh : ∀ f ∈ functions, Fresh f)
    (done : codeLoop s count base_offset functions = .ok functions') :
    ∀ f ∈ functions', Fresh f := by
  induction count generalizing base_offset functions with
  | zero =>
    cases done
    exact fresh
  | succ count ih =>
    obtain ⟨size, -, done⟩ := ok_of_bind done
    obtain ⟨declares, -, done⟩ := ok_of_bind done
    obtain ⟨opcodes, -, done⟩ := ok_of_bind done
    refine ih (fun f hf => ?_) done
    rcases List.mem_append.mp hf with earlier | here
    · exact fresh f earlier
    · exact ⟨opcodes, declares, List.mem_singleton.mp here⟩

/-- Every function of the module is fresh. -/
def AllFresh (p : State) : Prop := ∀ f ∈ p.wasmFunctionVec, Fresh f

theorem exportLoop_fresh {count base_offset : Nat} {p q : State} (fresh : AllFresh p)
    (done : exportLoop count base_offset p = .ok q) : AllFresh q := by
  induction count generalizing base_offset p with
  | zero =>
    cases done
    exact fresh
  | succ count ih =>
    obtain ⟨size, -, done⟩ := ok_of_bind done
    obtain ⟨text, -, done⟩ := ok_of_bind done
    obtain ⟨name, -, done⟩ := ok_of_bind done
    obtain ⟨kind, -, done⟩ := ok_of_bind done
    obtain ⟨index, -, done⟩ := ok_of_bind done
    exact ih (p := { p with
      funcNameIndexMapper := assign name index p.funcNameIndexMapper
      funcIndexNameMapper := assign index name p.funcIndexNameMapper }) fresh done

theorem readContents_fresh {type : Text} {p q : State} (fresh : AllFresh p)
    (done : readContents type p = .ok q) : AllFresh q := by
  have types : ∀ {p q : State}, AllFresh p → parse_type p = .ok q → AllFresh q := by
    intro p q fresh done
    obtain ⟨count, -, done⟩ := ok_of_bind done
    obtain ⟨types, -, done⟩ := ok_of_bind done
    cases done
    exact fresh
  have functions : ∀ {p q : State}, AllFresh p → parse_function p = .ok q → AllFresh q := by
    intro p q fresh done
    obtain ⟨count, -, done⟩ := ok_of_bind done
    obtain ⟨indices, -, done⟩ := ok_of_bind done
    cases done
    exact fresh
  have exports : ∀ {p q : State}, AllFresh p → parse_export p = .ok q → AllFresh q := by
    intro p q fresh done
    obtain ⟨count, -, done⟩ := ok_of_bind done
    exact exportLoop_fresh fresh done
  have code : ∀ {p q : State}, AllFresh p → parse_code p = .ok q → AllFresh q := by
    intro p q fresh done
    obtain ⟨count, -, done⟩ := ok_of_bind done
    obtain ⟨functions, read, done⟩ := ok_of_bind done
    cases done
    exact codeLoop_fresh fresh read
  have chosen : ∀ {c : Prop} [Decidable c] {reader : State → Except CppError State}
      {next : State → Except CppError State} {p : State},
      (∀ {p q : State}, AllFresh p → reader p = .ok q → AllFresh q) → AllFresh p →
      (if c then reader p >>= next else next p) = .ok q → ∃ r, AllFresh r ∧ next r = .ok q := by
    intro c _ reader next p reads fresh done
    split at done
    · obtain ⟨r, read, done⟩ := ok_of_bind done
      exact ⟨r, reads fresh read, done⟩
    · exact ⟨p, fresh, done⟩
  rw [readContents] at done
  obtain ⟨p₁, fresh, done⟩ := chosen types fresh done
  obtain ⟨p₂, fresh, done⟩ := chosen functions fresh done
  obtain ⟨p₃, fresh, done⟩ := chosen exports fresh done
  split at done
  · exact code fresh done
  · cases done
    exact fresh

theorem parseLoop_fresh {fuel : Nat} {p q : State} (fresh : AllFresh p)
    (done : parseLoop fuel p = .ok q) : AllFresh q := by
  induction fuel generalizing p with
  | zero =>
    rw [parseLoop] at done
    split at done
    · exact nomatch done
    · cases done
      exact fresh
  | succ fuel ih =>
    rw [parseLoop] at done
    split at done
    · obtain ⟨next, turn, done⟩ := ok_of_bind done
      refine ih ?_ done
      obtain ⟨type, -, turn⟩ := ok_of_bind turn
      obtain ⟨s, -, turn⟩ := ok_of_bind turn
      obtain ⟨length, -, turn⟩ := ok_of_bind turn
      obtain ⟨s, -, turn⟩ := ok_of_bind turn
      obtain ⟨read, contents, turn⟩ := ok_of_bind turn
      obtain ⟨left, -, turn⟩ := ok_of_bind turn
      cases turn
      exact readContents_fresh (p := { p with s, length }) (q := read) fresh contents
    · cases done
      exact fresh

/-- Every function of a parsed module is fresh. -/
theorem parse_fresh {file : List Byte} {p : State} (parsed : parse (ofFile file) = .ok p) :
    AllFresh p := by
  obtain ⟨checked, check, parsed⟩ := ok_of_bind parsed
  refine parseLoop_fresh ?_ parsed
  obtain ⟨magic, -, check⟩ := ok_of_bind check
  split at check
  · exact nomatch check
  · obtain ⟨s, -, check⟩ := ok_of_bind check
    obtain ⟨s, -, check⟩ := ok_of_bind check
    cases check
    intro f hf
    exact nomatch hf

/-! ### One call after another -/

/-- The function as a call compiles it. -/
def prepared (args : Nat → Option wasm_type) (type : WasmType) (f : WasmFunction) : WasmFunction :=
  setArguments args { f with param_data := type.param_data, result_data := type.result_data }

theorem entryAt_ok {α : Type} {entries : List α} {i : Nat} {a : α}
    (h : entryAt entries i = .ok a) : entries[i]? = some a := by
  rw [entryAt] at h
  split at h
  · cases h
    assumption
  · exact nomatch h

theorem call_eq {i : Nat} {args : Nat → Option wasm_type} {order : WasmFunction.VisitOrder}
    {p : State} {f : WasmFunction} {t : Nat} {type : WasmType}
    (function : p.wasmFunctionVec[i]? = some f) (typeIndex : p.funcTypeVec[i]? = some t)
    (signature : p.wasmTypeVec[t]? = some type) :
    call i args order p = (do
      let g ← funcSingleProcess (prepared args type f) order
      return (g,
        { p with wasmFunctionVec := p.wasmFunctionVec.set i (resetAfterExecution g) })) := by
  have inside : i < p.wasmFunctionVec.length := (List.getElem?_eq_some_iff.mp function).1
  simp only [call, initFunctionbyType, entryAt, function, typeIndex, signature, ok_bind, pure_bind,
    List.getElem?_set_self inside, List.set_set]
  rfl

theorem call_ok {i : Nat} {args : Nat → Option wasm_type} {order : WasmFunction.VisitOrder}
    {p q : State} {g : WasmFunction} (done : call i args order p = .ok (g, q)) :
    ∃ f t type, p.wasmFunctionVec[i]? = some f ∧ p.funcTypeVec[i]? = some t ∧
      p.wasmTypeVec[t]? = some type ∧ funcSingleProcess (prepared args type f) order = .ok g ∧
      q = { p with wasmFunctionVec := p.wasmFunctionVec.set i (resetAfterExecution g) } := by
  obtain ⟨p', init, -⟩ := ok_of_bind done
  obtain ⟨f, function, init⟩ := ok_of_bind init
  obtain ⟨t, typeIndex, init⟩ := ok_of_bind init
  obtain ⟨type, signature, -⟩ := ok_of_bind init
  have function := entryAt_ok function
  have typeIndex := entryAt_ok typeIndex
  have signature := entryAt_ok signature
  rw [call_eq function typeIndex signature] at done
  obtain ⟨g', compiled, done⟩ := ok_of_bind done
  cases done
  exact ⟨f, t, type, function, typeIndex, signature, compiled, rfl⟩

theorem prepareParams_again {f f' g : WasmFunction} (params : f'.param_data = f.param_data)
    (pre : f'.pre_instructions_for_param_loading = f.pre_instructions_for_param_loading)
    (done : f.prepareParams = .ok g) :
    g = { f with pre_instructions_for_param_loading := g.pre_instructions_for_param_loading } ∧
      f'.prepareParams = .ok { f' with
        pre_instructions_for_param_loading := g.pre_instructions_for_param_loading } := by
  rw [WasmFunction.prepareParams] at done
  obtain ⟨buffer, hbuffer, done⟩ := ok_of_bind done
  obtain ⟨stack, hstack, done⟩ := ok_of_bind done
  obtain ⟨pointer, hpointer, done⟩ := ok_of_bind done
  obtain ⟨loads, hloads, done⟩ := ok_of_bind done
  cases done
  refine ⟨rfl, ?_⟩
  rw [WasmFunction.prepareParams, hbuffer, ok_bind, hstack, ok_bind, hpointer, ok_bind, params,
    hloads, ok_bind, pre]
  rfl

/-- `f'` is what calls have made of the fresh function `f`. -/
structure Later (f f' : WasmFunction) : Prop where
  code : f'.code_vec = f.code_vec
  declares : f'.local_var_declare_count = f.local_var_declare_count
  locals : f'.local_data = []
  pre : f'.pre_instructions_for_param_loading = []
  text : f'.wasm_instructions = []
  branches : f'.fake_insert_map = []
  labels : f'.label_map = []

theorem Fresh.later {f : WasmFunction} (fresh : Fresh f) : Later f f := by
  obtain ⟨code, declares, rfl⟩ := fresh
  exact ⟨rfl, rfl, rfl, rfl, rfl, rfl, rfl⟩

/-- A compilation leaves the locals it declares in front of those it found. -/
theorem compiled_locals {args : Nat → Option wasm_type} {type : WasmType}
    {order : WasmFunction.VisitOrder} {f g : WasmFunction}
    (done : funcSingleProcess (prepared args type f) order = .ok g) :
    g.local_data = f.local_data ++ declared f.code_vec f.local_var_declare_count 0 ∧
      g.code_vec = f.code_vec ∧ g.local_var_declare_count = f.local_var_declare_count := by
  obtain ⟨h, loaded, done⟩ := ok_of_bind done
  obtain ⟨same, -⟩ := prepareParams_again (f := prepared args type f) rfl rfl loaded
  have kept := processCodeVec_leaves done
  rw [same] at kept
  exact ⟨kept.locals, kept.code, kept.declares⟩

/-- Without declared locals, a later call executes what the first one executed. -/
theorem later_call {args : Nat → Option wasm_type} {type : WasmType}
    {order : WasmFunction.VisitOrder} (order' : WasmFunction.VisitOrder) {f f' g : WasmFunction}
    (fresh : Fresh f) (none : declared f.code_vec f.local_var_declare_count 0 = [])
    (later : Later f f') (done : funcSingleProcess (prepared args type f) order = .ok g) :
    ∃ g', funcSingleProcess (prepared args type f') order' = .ok g' ∧ SameOutcome g g' ∧
      Later f (resetAfterExecution g') := by
  obtain ⟨h, loaded, compiled⟩ := ok_of_bind done
  have pre : (prepared args type f').pre_instructions_for_param_loading =
      (prepared args type f).pre_instructions_for_param_loading :=
    later.pre.trans fresh.later.pre.symm
  have params : (prepared args type f').param_data = (prepared args type f).param_data := rfl
  obtain ⟨same, loaded'⟩ := prepareParams_again params pre loaded
  have shadow : Shadow False f'.if_label f'.control_flow_stack h
      { prepared args type f' with
        pre_instructions_for_param_loading := h.pre_instructions_for_param_loading } := by
    rw [same]
    obtain ⟨bytes, declares, rfl⟩ := fresh
    exact {
      text := later.text, branches := later.branches, labels := later.labels
      locals := later.locals, code := later.code, params := rfl, results := rfl
      counter := (Nat.zero_add _).symm
      control := rfl
      frame := nofun
      spaced := ⟨nofun, List.Pairwise.nil⟩ }
  have declares : f'.local_var_declare_count = h.local_var_declare_count := by
    rw [same]
    exact later.declares
  obtain ⟨g', compiled', text, size⟩ :=
    processCodeVec_follows shadow declares order' compiled
  have done' : funcSingleProcess (prepared args type f') order' = .ok g' := by
    rw [funcSingleProcess, loaded', ok_bind, compiled']
  obtain ⟨locals, -, -⟩ := compiled_locals done
  obtain ⟨locals', code', declares'⟩ := compiled_locals done'
  have kept := processCodeVec_leaves compiled
  have kept' := processCodeVec_leaves compiled'
  rw [fresh.later.locals, none] at locals
  rw [later.locals, later.code, later.declares, none] at locals'
  refine ⟨g', done', ⟨?_, text, size, locals'.trans locals.symm⟩, ⟨code'.trans later.code,
    declares'.trans later.declares, locals', rfl, rfl, rfl, rfl⟩⟩
  rw [kept.pre, kept'.pre]

/-- Every further call executes what the first one executed. -/
theorem later_calls {i : Nat} {args : Nat → Option wasm_type} {type : WasmType}
    {order : WasmFunction.VisitOrder} {f g : WasmFunction} (fresh : Fresh f)
    (none : declared f.code_vec f.local_var_declare_count 0 = [])
    (done : funcSingleProcess (prepared args type f) order = .ok g)
    (orders : List WasmFunction.VisitOrder) {p : State} {f' : WasmFunction} {t : Nat}
    (later : Later f f') (function : p.wasmFunctionVec[i]? = some f')
    (typeIndex : p.funcTypeVec[i]? = some t) (signature : p.wasmTypeVec[t]? = some type) :
    ∃ gs, calls i args orders p = .ok gs ∧ ∀ h ∈ gs, SameOutcome g h := by
  induction orders generalizing p f' with
  | nil => exact ⟨[], rfl, nofun⟩
  | cons order' orders ih =>
    obtain ⟨g', done', same, later'⟩ := later_call order' fresh none later done
    have inside : i < p.wasmFunctionVec.length := (List.getElem?_eq_some_iff.mp function).1
    let q : State := { p with
      wasmFunctionVec := p.wasmFunctionVec.set i (resetAfterExecution g') }
    have step : call i args order' p = .ok (g', q) := by
      rw [call_eq function typeIndex signature, done']
      rfl
    obtain ⟨gs, rest, others⟩ :=
      ih (p := q) later' (List.getElem?_set_self inside) typeIndex signature
    have further : calls i args (order' :: orders) p = .ok (g' :: gs) := by
      rw [calls, step, ok_bind]
      change (calls i args orders q >>= fun later => pure (g' :: later)) = _
      rw [rest]
      rfl
    refine ⟨g' :: gs, further, ?_⟩
    intro h hh
    rcases List.mem_cons.mp hh with rfl | hh
    · exact same
    · exact others h hh

/-- After a first call that completes, all further calls of a parsed function complete with the
same outcome exactly when the function declares no locals. -/
theorem calls_repeatable_iff {file : List Byte} {p q : State}
    (parsed : parse (ofFile file) = .ok p) {i : Nat} {f : WasmFunction}
    (function : p.wasmFunctionVec[i]? = some f) {args : Nat → Option wasm_type}
    {order : WasmFunction.VisitOrder} {g : WasmFunction}
    (first : call i args order p = .ok (g, q)) :
    (∀ orders, ∃ later, calls i args orders q = .ok later ∧ ∀ h ∈ later, SameOutcome g h) ↔
      declared f.code_vec f.local_var_declare_count 0 = [] := by
  have fresh : Fresh f := parse_fresh parsed f (List.mem_of_getElem? function)
  obtain ⟨f₁, t, type, function₁, typeIndex, signature, done, rfl⟩ := call_ok first
  cases function.symm.trans function₁
  have inside : i < p.wasmFunctionVec.length := (List.getElem?_eq_some_iff.mp function).1
  obtain ⟨locals, code, declares⟩ := compiled_locals done
  constructor
  · intro same
    obtain ⟨later, again, outcomes⟩ := same [order]
    obtain ⟨⟨h, r⟩, second, again⟩ := ok_of_bind again
    cases again
    obtain ⟨f₂, t₂, type₂, function₂, -, -, done₂, -⟩ := call_ok second
    cases (List.getElem?_set_self inside).symm.trans function₂
    have again := (compiled_locals done₂).1
    rw [(outcomes h (by simp)).locals] at again
    change g.local_data = g.local_data ++ declared g.code_vec g.local_var_declare_count 0 at again
    rw [code, declares, List.self_eq_append_right] at again
    exact again
  · intro none orders
    have cleared : Later f (resetAfterExecution g) := by
      refine ⟨code, declares, ?_, rfl, rfl, rfl, rfl⟩
      change g.local_data = []
      rw [locals, fresh.later.locals, none]
      rfl
    exact later_calls fresh none done orders cleared (List.getElem?_set_self inside) typeIndex
      signature

/-- A module of one function `() -> i32` with the given body. -/
def oneFunction (body : List Byte) : List Byte :=
  [0x00, 0x61, 0x73, 0x6d, 0x01, 0x00, 0x00, 0x00] ++
    [0x01, 0x05, 0x01, 0x60, 0x00, 0x01, 0x7f] ++ [0x03, 0x02, 0x01, 0x00] ++
    [0x0a, BitVec.ofNat 8 (body.length + 2), 0x01, BitVec.ofNat 8 body.length] ++ body

/-- `(func (result i32) (i32.const 5))`. -/
def constantModule : List Byte := oneFunction [0x00, 0x41, 0x05, 0x0b]

theorem calls_repeatable_constant : ∃ p q g, parse (ofFile constantModule) = .ok p ∧
    call 0 (fun _ => none) BranchFixup.inOrder p = .ok (g, q) ∧
    ∀ orders, ∃ later, calls 0 (fun _ => none) orders q = .ok later ∧
      ∀ h ∈ later, SameOutcome g h := by
  obtain ⟨⟨g, q⟩, done⟩ := BranchFixup.ok_of_isOk (show (parse (ofFile constantModule) >>=
    call 0 (fun _ => none) BranchFixup.inOrder).isOk = true by decide +kernel)
  obtain ⟨p, parsed, first⟩ := ok_of_bind done
  have code : (parse (ofFile constantModule)).toOption.bind (fun p =>
      p.wasmFunctionVec[0]?.map fun f => declared f.code_vec f.local_var_declare_count 0) =
      some [] := by decide +kernel
  rw [parsed] at code
  obtain ⟨f, function, none⟩ := Option.map_eq_some_iff.mp
    (show p.wasmFunctionVec[0]?.map (fun f => declared f.code_vec f.local_var_declare_count 0) =
      some [] from code)
  exact ⟨p, q, g, parsed, first, (calls_repeatable_iff parsed function first).mpr none⟩

/-- `(func (result i32) (local i32) (i32.const 5))`. -/
def localModule : List Byte := oneFunction [0x01, 0x01, 0x7f, 0x41, 0x05, 0x0b]

/-- Its second call has two locals. -/
theorem second_call_differs : ∃ p q g, parse (ofFile localModule) = .ok p ∧
    call 0 (fun _ => none) BranchFixup.inOrder p = .ok (g, q) ∧ g.local_data = [.i32 0] ∧
    (∃ h, calls 0 (fun _ => none) [BranchFixup.inOrder] q = .ok [h] ∧
      h.local_data = [.i32 0, .i32 0]) ∧
    ¬ ∀ orders, ∃ later, calls 0 (fun _ => none) orders q = .ok later ∧
      ∀ h ∈ later, SameOutcome g h := by
  have outcome : ((parse (ofFile localModule) >>=
      call 0 (fun _ => none) BranchFixup.inOrder).toOption.map fun first =>
        (first.1.local_data, (calls 0 (fun _ => none) [BranchFixup.inOrder] first.2).toOption.map
          fun later => later.map WasmFunction.local_data)) =
      some ([.i32 0], some [[.i32 0, .i32 0]]) := by decide +kernel
  cases done : parse (ofFile localModule) >>= call 0 (fun _ => none) BranchFixup.inOrder with
  | error e =>
    rw [done] at outcome
    exact nomatch outcome
  | ok first =>
    obtain ⟨g, q⟩ := first
    rw [done] at outcome
    obtain ⟨p, parsed, called⟩ := ok_of_bind done
    obtain ⟨before, after⟩ := Prod.mk.inj (Option.some.inj outcome)
    cases again : calls 0 (fun _ => none) [BranchFixup.inOrder] q with
    | error e =>
      simp only [again] at after
      exact nomatch after
    | ok later =>
      simp only [again] at after
      obtain ⟨h, rfl, grown⟩ : ∃ h, later = [h] ∧ h.local_data = [.i32 0, .i32 0] := by
        obtain ⟨h, others, rfl, grown, none⟩ := List.map_eq_cons_iff.mp (Option.some.inj after)
        exact ⟨h, by rw [List.map_eq_nil_iff.mp none], grown⟩
      refine ⟨p, q, g, parsed, called, before, ⟨h, again, grown⟩, fun same => ?_⟩
      obtain ⟨others, again', outcomes⟩ := same [BranchFixup.inOrder]
      cases again.symm.trans again'
      have locals := (outcomes h (by simp)).locals
      rw [grown, before] at locals
      exact absurd locals (by decide)

end RepeatedCalls
