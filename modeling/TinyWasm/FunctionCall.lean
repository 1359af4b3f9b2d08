import TinyWasm.FunctionRun

/-!
# A call of a function

`executeWasmInstr` makes the argument loads and the generated code executable as
one, and calls it with the buffer in `x0` and the operand stack in `x1`. After
the loads these are in `x19` and `x20`, the operand stack is empty, and the
arguments are in the registers from `x0` on.
-/

namespace FunctionCall

open BitFields HexText Opcode Wasm Emit ArmInstruction EncoderCorrectness LabelledCode
open LocalDeclarations SourceBody CodeItems EmissionSpec FrameSpec WholeFunction BranchFixup
open ByteMemory StepRuns ArmMachine BlockEffects CodeLayout BodyFrame CallStubs

/-! ### The argument loads -/

def argLoads : Nat → List wasm_type → List Instr
  | _, [] => []
  | i, .i32 v :: rest => mov32 (BitVec.ofNat 5 i) v ++ argLoads (i + 1) rest
  | i, .i64 v :: rest => mov64 (BitVec.ofNat 5 i) v ++ argLoads (i + 1) rest
  | i, .f32 _ :: rest | i, .f64 _ :: rest => argLoads (i + 1) rest

def argumentBlock (params : List wasm_type) : List Instr :=
  [mov 19 0, mov 20 1, .movWide .movz .x 21 0 0] ++ argLoads 0 params

/-- The load of one argument. -/
def loadParam (i : Nat) : wasm_type → Except CppError Text
  | .f32 _ | .f64 _ => .error (.invalidArgument "Fmov not supported yet!")
  | .i64 v => wrapperEncodeMovInt64 (BitVec.ofNat 8 i) v
  | .i32 v => wrapperEncodeMovInt32 (BitVec.ofNat 8 i) v

theorem loadParams_cons (i : Nat) (v : wasm_type) (rest : List wasm_type) :
    WasmFunction.loadParams i (v :: rest) = (do
      let instr ← loadParam i v
      let others ← WasmFunction.loadParams (i + 1) rest
      return instr ++ others) := by
  cases v <;> rfl

theorem encodeMovz_ok {rd : BitVec 8} {imm16 : BitVec 16} {regType : RegType} {shift : BitVec 8}
    {text : Text} (h : encodeMovz rd imm16 regType shift = .ok text) : rd.toNat < 32 := by
  obtain ⟨_, -, h⟩ := ok_of_bind h
  obtain ⟨_, -, h⟩ := ok_of_bind h
  obtain ⟨_, -, h⟩ := ok_of_bind h
  obtain ⟨_, -, h⟩ := ok_of_bind h
  obtain ⟨_, register, -⟩ := ok_of_bind h
  have := setField_ok register
  omega

/-- An argument that is loaded is an integer and has a register. -/
theorem loadParam_ok {i : Nat} {v : wasm_type} {text : Text} (done : loadParam i v = .ok text) :
    (∃ block, (∀ rest, argLoads i (v :: rest) = block ++ argLoads (i + 1) rest) ∧
      YieldsAll (.ok text) block) ∧ isFloat v = false ∧ (BitVec.ofNat 8 i).toNat < 32 := by
  cases v with
  | i32 v =>
    have register : (BitVec.ofNat 8 i).toNat < 32 := by
      obtain ⟨_, first, -⟩ := ok_of_bind done
      exact encodeMovz_ok first
    have h := movConst32_yields v register
    rw [show wrapperEncodeMovInt32 (BitVec.ofNat 8 i) v = .ok text from done,
      BitVec.setWidth_ofNat_of_le (by decide)] at h
    exact ⟨⟨_, fun _ => rfl, h⟩, rfl, register⟩
  | i64 v =>
    have register : (BitVec.ofNat 8 i).toNat < 32 := by
      obtain ⟨_, first, -⟩ := ok_of_bind done
      exact encodeMovz_ok first
    have h := movConst64_yields v register
    rw [show wrapperEncodeMovInt64 (BitVec.ofNat 8 i) v = .ok text from done,
      BitVec.setWidth_ofNat_of_le (by decide)] at h
    exact ⟨⟨_, fun _ => rfl, h⟩, rfl, register⟩
  | f32 _ => exact nomatch done
  | f64 _ => exact nomatch done

theorem loadParams_ok {i : Nat} {params : List wasm_type} (start : i ≤ 32)
    {text : Text} (done : WasmFunction.loadParams i params = .ok text) :
    YieldsAll (.ok text) (argLoads i params) ∧ (∀ v ∈ params, isFloat v = false) ∧
      i + params.length ≤ 32 := by
  induction params generalizing i text with
  | nil =>
    cases done
    exact ⟨⟨[], rfl, rfl⟩, by simp, start⟩
  | cons v rest ih =>
    rw [loadParams_cons] at done
    obtain ⟨first, loaded, done⟩ := ok_of_bind done
    obtain ⟨others, later, done⟩ := ok_of_bind done
    cases done
    obtain ⟨⟨block, split, here⟩, int, register⟩ := loadParam_ok loaded
    rw [BitVec.toNat_ofNat] at register
    obtain ⟨yields, ints, few⟩ := ih (by omega) later
    rw [split]
    refine ⟨here.append yields, by simpa [int] using ints, ?_⟩
    rw [List.length_cons]
    omega

theorem prepareParams_ok {f g : WasmFunction} (done : f.prepareParams = .ok g) :
    ∃ ws : List Word, g = { f with
        pre_instructions_for_param_loading :=
          f.pre_instructions_for_param_loading ++ ws.flatMap wordText } ∧
      ws.map decode = (argumentBlock f.param_data).map some ∧
      (∀ v ∈ f.param_data, isFloat v = false) ∧ f.param_data.length ≤ 32 := by
  obtain ⟨buffer, hb, done⟩ := ok_of_bind done
  obtain ⟨stack, hs, done⟩ := ok_of_bind done
  obtain ⟨pointer, hp, done⟩ := ok_of_bind done
  obtain ⟨params, loaded, done⟩ := ok_of_bind done
  obtain ⟨yields, ints, few⟩ := loadParams_ok (Nat.zero_le 32) loaded
  rw [Nat.zero_add] at few
  obtain ⟨w₁, e₁, d₁⟩ := mov_yields (isReg 19) (isReg 0)
  obtain ⟨w₂, e₂, d₂⟩ := mov_yields (isReg 20) (isReg 1)
  obtain ⟨w₃, e₃, d₃⟩ := encodeMovWide_yields .movz .xReg 0 0 (isReg 21) (by decide)
  obtain ⟨ws, e₄, d₄⟩ := yields
  have t₁ : buffer = wordText w₁ := Except.ok.inj (hb.symm.trans e₁)
  have t₂ : stack = wordText w₂ := Except.ok.inj (hs.symm.trans e₂)
  have t₃ : pointer = wordText w₃ := Except.ok.inj (hp.symm.trans e₃)
  refine ⟨w₁ :: w₂ :: w₃ :: ws, ?_, ?_, ints, few⟩
  · cases done
    rw [t₁, t₂, t₃, Except.ok.inj e₄]
    simp
  · simp only [List.map_cons, d₁, d₂, d₃, d₄, argumentBlock, List.map_append]
    rfl

/-! ### Code that is ready to be called -/

theorem argLoads_length (i : Nat) (params : List wasm_type) :
    (argLoads i params).length ≤ 4 * params.length := by
  induction params generalizing i with
  | nil => exact Nat.le_refl 0
  | cons v rest ih =>
    have later := ih (i + 1)
    cases v <;> simp [argLoads, mov32, mov64] <;> omega

/-- Where a branch to a label of the function leads, behind the argument loads: the first place the
label is recorded at. -/
def labelTarget (params locals results : List wasm_type) (body : Seq) (label : String) : Int :=
  (argumentBlock params).length + firstPosition (wholeItems params locals results body) label

/-- The code of a function stands behind the loads of its arguments, with its branches linked. -/
structure Emitted (code : List Word) (instrs : List Instr)
    (params locals results : List wasm_type) (body : Seq) : Prop where
  loads : Stands instrs 0 (argumentBlock params)
  loaded : Loaded code instrs
  linked : Linked link (labelTarget params locals results body) instrs
    (argumentBlock params).length (wholeItems params locals results body)
  uses : body.UsesBelow (frameOf params locals).length
  small : frameSize params locals ≤ 4080

/-- `funcSingleProcess` emits the code of the function, however many divisions it has. -/
theorem emitted_of_funcSingleProcess {params results : List wasm_type} {groups : List Group}
    {body : Seq} {order : WasmFunction.VisitOrder} {g : WasmFunction}
    (size_byte : bodySize groups body ≤ 255)
    (done : funcSingleProcess (delivered params results groups body) order = .ok g) :
    ∃ code instrs, loadWords (full_instructions g) = .ok code ∧
      Emitted code instrs params (groups.flatMap groupLocals) results body ∧
      (∀ v ∈ params, isFloat v = false) ∧ (∀ v ∈ results, isFloat v = false) ∧
      results.length ≤ 32 := by
  obtain ⟨f, prepared, done⟩ := ok_of_bind done
  obtain ⟨ws, rfl, known, ints, few⟩ := prepareParams_ok prepared
  change params.length ≤ 32 at few
  change ws.map decode = (argumentBlock params).map some at known
  obtain ⟨h, vs, -, generated, pre, -, -, text, decoded⟩ := processCodeVec_ok size_byte
    (show processCodeVec (delivered params results groups body ([] ++ ws.flatMap wordText)) order =
      .ok g from done)
  have count : ws.length = (argumentBlock params).length := by
    have lengths := congrArg List.length known
    simpa using lengths
  have sized : size (wholeItems params (groups.flatMap groupLocals) results body) ≤ 2 ^ 14 :=
    wholeItems_size generated.small generated.few (by
    rw [bodySize] at size_byte
    omega)
  have loads := argLoads_length 0 params
  obtain ⟨loaded, linked⟩ := linked_of_decode known decoded (by
    rw [count, argumentBlock, List.length_append]
    simp only [List.length_cons, List.length_nil]
    omega)
  rw [count] at linked
  refine ⟨_, _, ?_, ⟨fun n i hi => ?_, loaded, linked, ?_, generated.small⟩, ints, generated.ints,
    generated.few⟩
  · rw [full_instructions, pre, text, List.nil_append, ← List.flatMap_append, loadWords_flatMap]
  · rw [Nat.zero_add, List.getElem?_append_left (List.getElem?_eq_some_iff.mp hi).1]
    exact hi
  · rw [frameOf_length]
    exact generated.uses

/-- The code of a function stands behind the loads of its arguments. -/
structure Callable (code : List Word) (instrs : List Instr) (target : String → Int)
    (params locals results : List wasm_type) (body : Seq) : Prop where
  loads : Stands instrs 0 (argumentBlock params)
  placed : Placed code instrs target (argumentBlock params).length
    (wholeItems params locals results body)
  uses : body.UsesBelow (frameOf params locals).length
  small : frameSize params locals ≤ 4080

/-- With at most one division it is ready to be called. -/
theorem Emitted.callable {code : List Word} {instrs : List Instr}
    {params locals results : List wasm_type} {body : Seq}
    (emitted : Emitted code instrs params locals results body) (once : body.divisions ≤ 1) :
    Callable code instrs (labelTarget params locals results body) params locals results body :=
  ⟨emitted.loads, ⟨emitted.loaded, emitted.linked,
    labelled_of_distinct _ (labelNames_nodup params locals results once)⟩, emitted.uses,
    emitted.small⟩

/-- A function that `funcSingleProcess` completes on is ready to be called. -/
theorem callable_of_funcSingleProcess {params results : List wasm_type} {groups : List Group}
    {body : Seq} {order : WasmFunction.VisitOrder} {g : WasmFunction}
    (size_byte : bodySize groups body ≤ 255) (once : body.divisions ≤ 1)
    (done : funcSingleProcess (delivered params results groups body) order = .ok g) :
    ∃ code instrs target, loadWords (full_instructions g) = .ok code ∧
      Callable code instrs target params (groups.flatMap groupLocals) results body ∧
      (∀ v ∈ params, isFloat v = false) ∧ (∀ v ∈ results, isFloat v = false) := by
  obtain ⟨code, instrs, loads, emitted, ints, intResults, -⟩ :=
    emitted_of_funcSingleProcess size_byte done
  exact ⟨code, instrs, _, loads, emitted.callable once, ints, intResults⟩

/-! ### What the loads do -/

/-- The value an argument has in its register. -/
def argValue : wasm_type → BitVec 64
  | .i32 v | .f32 v => v.setWidth 64
  | .i64 v | .f64 v => v

/-- A load to register 31 is dropped. -/
theorem exec_argLoad_zero (v : wasm_type) (s : State) : execAll (argLoads 31 [v]) s = s := by
  cases v <;> rfl

/-- The load of the first argument, into any other register. -/
theorem exec_argLoads_cons {i : Nat} (low : i < 31) {v : wasm_type} (int : isFloat v = false)
    (rest : List wasm_type) (s : State) : execAll (argLoads i (v :: rest)) s =
      execAll (argLoads (i + 1) rest)
        { s with x := Function.update s.x (BitVec.ofNat 5 i) (argValue v) } := by
  have zeroReg : BitVec.ofNat 5 i ≠ 31 := by bv_omega
  cases v with
  | i32 v => rw [argLoads, execAll_append, exec_mov32 zeroReg v s, argValue]
  | i64 v => rw [argLoads, execAll_append, exec_mov64 zeroReg v s, argValue]
  | f32 _ => exact nomatch int
  | f64 _ => exact nomatch int

theorem exec_argLoads {i : Nat} {params : List wasm_type} (few : i + params.length ≤ 32)
    (ints : ∀ v ∈ params, isFloat v = false) (s : State) :
    (∀ k v, params[k]? = some v → i + k < 31 →
      (execAll (argLoads i params) s).x (BitVec.ofNat 5 (i + k)) = argValue v) ∧
      (∀ r, r.toNat < i ∨ i + params.length ≤ r.toNat ∨ r = 31 →
        (execAll (argLoads i params) s).x r = s.x r) ∧
      (execAll (argLoads i params) s).sp = s.sp ∧
      (execAll (argLoads i params) s).mem = s.mem := by
  induction params generalizing i s with
  | nil => exact ⟨by simp, fun _ _ => rfl, rfl, rfl⟩
  | cons v rest ih =>
    rw [List.length_cons] at few
    by_cases last : i = 31
    · obtain rfl : rest = [] := List.length_eq_zero_iff.mp (by omega)
      subst last
      rw [exec_argLoad_zero]
      refine ⟨?_, fun _ _ => rfl, rfl, rfl⟩
      intro k _ _ below
      omega
    have number : (BitVec.ofNat 5 i).toNat = i := by
      rw [BitVec.toNat_ofNat]
      omega
    obtain ⟨values, others, sp, mem⟩ := ih (i := i + 1) (by omega)
      (fun u hu => ints u (List.mem_cons_of_mem _ hu))
      { s with x := Function.update s.x (BitVec.ofNat 5 i) (argValue v) }
    rw [exec_argLoads_cons (by omega) (ints v List.mem_cons_self)]
    refine ⟨?_, ?_, sp, mem⟩
    · intro k u hk below
      cases k with
      | zero =>
        cases hk
        have same := others (BitVec.ofNat 5 i) (Or.inl (by rw [number]; omega))
        exact same.trans (Function.update_self _ _ _)
      | succ k =>
        have later := values k u hk (by omega)
        rwa [Nat.add_assoc, Nat.add_comm 1 k] at later
    · intro r hr
      rw [List.length_cons] at hr
      have apart : r ≠ BitVec.ofNat 5 i := by
        rintro rfl
        rw [number] at hr
        bv_omega
      have later : r.toNat < i + 1 ∨ i + 1 + rest.length ≤ r.toNat ∨ r = 31 :=
        hr.imp (by omega) (Or.imp_left (by omega))
      rw [others r later]
      exact Function.update_of_ne apart _ _

/-- The state in which the generated code is entered. -/
def atEntry (params : List wasm_type) (s : State) : State := execAll (argumentBlock params) s

/-- The registers with a role, set before the arguments are loaded. -/
def withRoles (s : State) : State :=
  { s with
    x := Function.update (Function.update (Function.update s.x 19 (s.x 0)) 20 (s.x 1)) 21 0 }

theorem exec_roles (s : State) :
    execAll [mov 19 0, mov 20 1, .movWide .movz .x 21 0 0] s = withRoles s := by
  rw [execAll_cons, exec_mov (by decide) (by decide), execAll_cons,
    exec_mov (by decide) (by decide), execAll_cons, exec_movz .x (by decide), execAll_nil]
  simp only [Function.update_of_ne (show (1 : Reg) ≠ 19 by decide)]
  rfl

theorem withRoles_x (s : State) :
    (withRoles s).x 19 = s.x 0 ∧ (withRoles s).x 20 = s.x 1 ∧ (withRoles s).x 21 = 0 ∧
      (withRoles s).x 29 = s.x 29 ∧ (withRoles s).x 30 = s.x 30 := by
  have others : ∀ r : Reg, r ≠ 19 → r ≠ 20 → r ≠ 21 → (withRoles s).x r = s.x r := by
    intro r h19 h20 h21
    rw [withRoles]
    simp only
    rw [Function.update_of_ne h21, Function.update_of_ne h20, Function.update_of_ne h19]
  refine ⟨?_, ?_, ?_, others 29 (by decide) (by decide) (by decide),
    others 30 (by decide) (by decide) (by decide)⟩
  · rw [withRoles]
    simp only
    rw [Function.update_of_ne (by decide), Function.update_of_ne (by decide), Function.update_self]
  · rw [withRoles]
    simp only
    rw [Function.update_of_ne (by decide), Function.update_self]
  · rw [withRoles]
    simp only
    rw [Function.update_self]

/-- Each argument has its register; a register beyond them has its role. -/
theorem atEntry_registers {params : List wasm_type} (few : params.length ≤ 32)
    (ints : ∀ v ∈ params, isFloat v = false) (s : State) :
    (∀ k v, params[k]? = some v → k < 31 →
      (atEntry params s).x (BitVec.ofNat 5 k) = argValue v) ∧
      (∀ r : Reg, params.length ≤ r.toNat ∨ r = 31 →
        (atEntry params s).x r = (withRoles s).x r) ∧
      (atEntry params s).sp = s.sp ∧ (atEntry params s).mem = s.mem := by
  obtain ⟨values, others, sp, mem⟩ := exec_argLoads (i := 0) (by omega) ints (withRoles s)
  have split : atEntry params s = execAll (argLoads 0 params) (withRoles s) := by
    rw [atEntry, argumentBlock, execAll_append, exec_roles]
  rw [split]
  refine ⟨?_, ?_, sp, mem⟩
  · intro k v hk below
    have loaded := values k v hk (by omega)
    rwa [Nat.zero_add] at loaded
  · intro r beyond
    apply others
    rw [Nat.zero_add]
    exact Or.inr beyond

theorem atEntry_eq {params : List wasm_type} (few : params.length ≤ 19)
    (ints : ∀ v ∈ params, isFloat v = false) (s : State) :
    (atEntry params s).x 19 = s.x 0 ∧ (atEntry params s).x 20 = s.x 1 ∧
      (atEntry params s).x 21 = 0 ∧
      (∀ k v, params[k]? = some v → (atEntry params s).x (BitVec.ofNat 5 k) = argValue v) ∧
      (atEntry params s).x 29 = s.x 29 ∧ (atEntry params s).x 30 = s.x 30 ∧
      (atEntry params s).sp = s.sp ∧ (atEntry params s).mem = s.mem := by
  obtain ⟨values, others, sp, mem⟩ := atEntry_registers (by omega) ints s
  obtain ⟨x19, x20, x21, x29, x30⟩ := withRoles_x s
  have beyond : ∀ r : Reg, 19 ≤ r.toNat → (atEntry params s).x r = (withRoles s).x r :=
    fun r high => others r (Or.inl (by omega))
  refine ⟨(beyond 19 (by decide)).trans x19, (beyond 20 (by decide)).trans x20,
    (beyond 21 (by decide)).trans x21, ?_, (beyond 29 (by decide)).trans x29,
    (beyond 30 (by decide)).trans x30, sp, mem⟩
  intro k v hk
  have inside := (List.getElem?_eq_some_iff.mp hk).1
  exact values k v hk (by omega)

theorem argLoads_plain (i : Nat) (params : List wasm_type) :
    ∀ j ∈ argLoads i params, plain j = true ∧ movesSp j = false := by
  induction params generalizing i with
  | nil => exact fun j hj => absurd hj List.not_mem_nil
  | cons v rest ih =>
    intro j hj
    cases v with
    | i32 v =>
      rcases List.mem_append.mp hj with hj | hj
      · simp only [mov32, List.mem_cons, List.not_mem_nil, or_false] at hj
        rcases hj with rfl | rfl <;> exact ⟨rfl, rfl⟩
      · exact ih (i + 1) j hj
    | i64 v =>
      rcases List.mem_append.mp hj with hj | hj
      · simp only [mov64, List.mem_cons, List.not_mem_nil, or_false] at hj
        rcases hj with rfl | rfl | rfl | rfl <;> exact ⟨rfl, rfl⟩
      · exact ih (i + 1) j hj
    | f32 _ => exact ih (i + 1) j hj
    | f64 _ => exact ih (i + 1) j hj

theorem argumentBlock_plain (params : List wasm_type) :
    ∀ j ∈ argumentBlock params, plain j = true ∧ movesSp j = false := by
  intro j hj
  rcases List.mem_append.mp hj with hj | hj
  · simp only [List.mem_cons, List.not_mem_nil, or_false] at hj
    rcases hj with rfl | rfl | rfl <;> exact ⟨rfl, rfl⟩
  · exact argLoads_plain 0 params j hj

end FunctionCall
