import TinyWasm.CodeText
import TinyWasm.FunctionCall
import TinyWasm.OpcodeLoop

/-!
# Frames that do not fit

The frame size and the offsets are narrowed to sixteen bits before the encoders
check them. A frame beyond the reach of the immediate is refused all the same,
and the frame of a compiled function is taken and released in full.
-/

namespace FrameBounds

open HexText Opcode Wasm Emit ArmInstruction LocalDeclarations CodeItems EmissionSpec FrameSpec
open CodeGrowth CompilerFrame OpcodeLoop CodeText FrameEffects
open FunctionCall

/-! ### What is refused is thrown -/

/-- Every failure of the call is an exception. -/
def Raises {α : Type} (call : Except CppError α) : Prop := ∀ e, call = .error e → IsThrow e

theorem raises_ok {α : Type} (a : α) : Raises (.ok a) := fun _ failed => nomatch failed

theorem raises_bind {α β : Type} {call : Except CppError α} {next : α → Except CppError β}
    (first : Raises call) (second : ∀ a, call = .ok a → Raises (next a)) :
    Raises (call >>= next) := by
  intro e failed
  cases done : call with
  | error e' =>
    rw [done] at failed
    cases failed
    exact first e done
  | ok a =>
    rw [done] at failed
    exact second a done e failed

theorem raises_setField (opcode : Arm64Opcode) (val : Int) (offset len : Nat) :
    Raises (opcode.setField val offset len) := fun _ failed => setField_throws failed

/-- A chain of field writes. -/
theorem raises_field {α : Type} {opcode : Arm64Opcode} {val : Int} {offset len : Nat}
    {next : Arm64Opcode → Except CppError α} (second : ∀ o, Raises (next o)) :
    Raises (opcode.setField val offset len >>= next) :=
  raises_bind (raises_setField _ _ _ _) fun o _ => second o

theorem raises_emit {f : WasmFunction} {call : Except CppError Text} (h : Raises call) :
    Raises (f.emit call) := by
  intro e failed
  cases done : call with
  | error e' =>
    rw [done] at failed
    cases failed
    exact h e done
  | ok text =>
    rw [done] at failed
    exact nomatch failed

theorem raises_encodeAddSubImm (regType : RegType) (isSub : Bool) (rd rn : BitVec 8)
    (imm : BitVec 16) : Raises (encodeAddSubImm regType isSub rd rn imm) := by
  refine raises_field fun _ => ?_
  refine raises_field fun _ => ?_
  refine raises_field fun _ => ?_
  refine raises_field fun _ => ?_
  refine raises_field fun _ => ?_
  refine raises_field fun _ => ?_
  refine raises_field fun _ => ?_
  refine raises_field fun _ => ?_
  exact raises_ok _

theorem raises_encodeMovRegister (regType : RegType) (rd rm : BitVec 8) :
    Raises (encodeMovRegister regType rd rm) := by
  refine raises_field fun _ => ?_
  refine raises_field fun _ => ?_
  refine raises_field fun _ => ?_
  refine raises_field fun _ => ?_
  refine raises_field fun _ => ?_
  exact raises_ok _

theorem raises_encodeMovWide (bits : Int) (rd : BitVec 8) (imm16 : BitVec 16) (regType : RegType)
    (shift : BitVec 8) : Raises (encodeMovWide bits rd imm16 regType shift true) := by
  refine raises_field fun _ => ?_
  refine raises_field fun _ => ?_
  refine raises_field fun _ => ?_
  refine raises_field fun _ => ?_
  refine raises_field fun _ => ?_
  exact raises_ok _

theorem raises_loadParams (i : Nat) (params : List wasm_type) :
    Raises (WasmFunction.loadParams i params) := by
  induction params generalizing i with
  | nil => exact raises_ok _
  | cons v params ih =>
    have others : ∀ first, Raises (do
        let others ← WasmFunction.loadParams (i + 1) params
        return first ++ others) := fun first => raises_bind (ih (i + 1)) fun _ _ => raises_ok _
    have wide : ∀ bits rd imm regType shift,
        Raises (encodeMovWide bits rd imm regType shift true) := raises_encodeMovWide
    cases v with
    | i32 v =>
      refine raises_bind ?_ fun first _ => others first
      exact raises_bind (wide _ _ _ _ _) fun _ _ => raises_bind (wide _ _ _ _ _) fun _ _ =>
        raises_ok _
    | i64 v =>
      refine raises_bind ?_ fun first _ => others first
      exact raises_bind (wide _ _ _ _ _) fun _ _ => raises_bind (wide _ _ _ _ _) fun _ _ =>
        raises_bind (wide _ _ _ _ _) fun _ _ => raises_bind (wide _ _ _ _ _) fun _ _ =>
          raises_ok _
    | f32 _ | f64 _ =>
      rintro _ ⟨⟩
      trivial

theorem raises_prepareParams (f : WasmFunction) : Raises f.prepareParams :=
  raises_bind (raises_encodeMovRegister _ _ _) fun _ _ =>
    raises_bind (raises_encodeMovRegister _ _ _) fun _ _ =>
      raises_bind (raises_encodeMovWide _ _ _ _ _) fun _ _ =>
        raises_bind (raises_loadParams 0 _) fun _ _ => raises_ok _

theorem raises_storeAll (f : WasmFunction) (category : TypeCategory) (offset : Int) (i : Nat)
    (stores : List Store) : Raises (storeAll f category offset i stores) := by
  induction stores generalizing f offset i with
  | nil => exact raises_ok _
  | cons st rest ih =>
    exact raises_bind (raises_emit fun _ failed => encodeLoadStoreImm_throws failed)
      fun g _ => ih g _ _

theorem raises_mainEntry (f : WasmFunction) : Raises f.main_entry_initialize := by
  refine raises_bind (raises_emit (raises_encodeAddSubImm _ _ _ _ _)) fun g _ => ?_
  refine raises_bind ?_ fun h _ => ?_
  · rw [WasmFunction.initParam, storeParams_eq]
    exact raises_storeAll _ _ _ _ _
  · rw [WasmFunction.initLocal, storeLocals_eq]
    exact raises_storeAll _ _ _ _ _

/-! ### The frame of a function -/

/-- A function with these declarations, and any bytes behind them. -/
def declaring (params results : List wasm_type) (groups : List Group) (rest : List Text) :
    WasmFunction :=
  parsed params results groups.length (groups.flatMap groupCode ++ rest)

/-- The call fails with an exception. -/
def Refuses {α : Type} (call : Except CppError α) : Prop := ∃ e, call = .error e ∧ IsThrow e

theorem refuses_bind {α β : Type} {call : Except CppError α} {next : α → Except CppError β}
    (first : Raises call) (second : ∀ a, call = .ok a → Refuses (next a)) :
    Refuses (call >>= next) := by
  cases done : call with
  | error e => exact ⟨e, rfl, first e done⟩
  | ok a => exact second a done

/-- The word that moves the stack pointer, with its immediate as it is encoded. -/
def MovesSp (isSub : Bool) (size : Int) (word : Option Word) : Prop :=
  ∃ imm : BitVec 12, word.bind decode = some (.addSubImm isSub false .x 31 31 imm false) ∧
    (imm.toNat : Int) = size

theorem movesSp_of_word {isSub : Bool} {size : Int} (low : 0 ≤ size) (small : size ≤ 4080)
    {word : Option Word} {w : Word} (here : word = some w)
    (known : decode w = some (moveSp isSub size)) : MovesSp isSub size word := by
  refine ⟨BitVec.ofInt 12 size, ?_, ?_⟩
  · rw [here]
    exact known
  · rw [BitVec.toNat_ofInt]
    omega

section
variable (params results : List wasm_type) (groups : List Group) (rest : List Text)

/-- What `getStackPreallocateSize` computes once the declarations are read. -/
def preallocated : Int :=
  ({ declaring params results groups rest with
    local_data := groups.flatMap groupLocals } : WasmFunction).getStackPreallocateSize.stack_size

theorem preallocated_eq :
    preallocated params results groups rest = frameSize params (groups.flatMap groupLocals) := by
  rw [preallocated, getStackPreallocateSize_eq]
  rfl

theorem declared_groups :
    declared (groups.flatMap groupCode ++ rest) groups.length 0 = groups.flatMap groupLocals := by
  have read := local_var_initialize_groups (f := declaring [] [] groups rest) rfl rfl
  have same := congrArg WasmFunction.local_data (readLocals_eq read)
  exact same.symm

/-- The frame of a function that is too large for the immediates is refused. -/
theorem refuses_of_large {f : WasmFunction} {order : WasmFunction.VisitOrder}
    (count : f.local_var_declare_count = groups.length)
    (code : f.code_vec = groups.flatMap groupCode ++ rest) (fresh : f.local_data = [])
    (large : 4095 < frameSize f.param_data (groups.flatMap groupLocals)) :
    Refuses (processCodeVec f order) := by
  have read := local_var_initialize_groups code count
  have generated : Refuses (generate f) := by
    rw [generate, read, ok_bind]
    obtain ⟨f₁, stubs, step, -, -⟩ := WholeFunction.emitStubs_emits
      { f with local_data := f.local_data ++ groups.flatMap groupLocals }
    simp only [stubs, ok_bind]
    have entered := (emits_insertLabel f₁ "entry")
    refine refuses_bind (raises_mainEntry _) fun g done => ?_
    obtain ⟨-, -, small, -, -, -⟩ := main_entry_initialize_ok done
    have params : (f₁.insertLabel "entry").param_data = f.param_data := by
      obtain ⟨h, same, labelled, -, -⟩ := entered
      cases same
      rw [labelled.rest, step.rest]
    have locals : (f₁.insertLabel "entry").local_data = groups.flatMap groupLocals := by
      obtain ⟨h, same, labelled, -, -⟩ := entered
      cases same
      rw [labelled.rest, step.rest, fresh]
      rfl
    rw [params, locals] at small
    omega
  obtain ⟨e, failed, thrown⟩ := generated
  exact ⟨e, by rw [processCodeVec, failed]; rfl, thrown⟩

/-- A compiled function takes and releases exactly its frame, which the immediate can hold, and
no larger frame is compiled. -/
theorem frame_exact_or_refused (order : WasmFunction.VisitOrder) :
    (∀ g, funcSingleProcess (declaring params results groups rest) order = .ok g →
      g.stack_size = preallocated params results groups rest ∧ g.stack_size ≤ 4095 ∧
      ∃ (ws : List Word) (k : Nat), g.wasm_instructions = ws.flatMap wordText ∧
        g.label_map.lookup "entry" = some (8 * k) ∧ MovesSp true g.stack_size ws[k]? ∧
        MovesSp false g.stack_size ws[ws.length - 2]?) ∧
      (4095 < preallocated params results groups rest →
        Refuses (funcSingleProcess (declaring params results groups rest) order)) := by
  rw [preallocated_eq]
  constructor
  · intro g done
    obtain ⟨f, prepared, done⟩ := ok_of_bind done
    obtain ⟨pre, rfl, -, -, -⟩ := prepareParams_ok prepared
    obtain ⟨ws, finished⟩ := processCodeVec_finished ⟨rfl, rfl, rfl⟩ done
    have finished : Finished params
        ([] ++ declared (groups.flatMap groupCode ++ rest) groups.length 0) g ws := finished
    rw [List.nil_append, declared_groups] at finished
    have size : g.stack_size = frameSize params (groups.flatMap groupLocals) :=
      finished.stack_size
    have small : frameSize params (groups.flatMap groupLocals) ≤ 4080 := finished.small
    have low := frameSize_nonneg params (groups.flatMap groupLocals)
    refine ⟨size, by omega, ws, LabelledCode.size stubItems, finished.text, finished.entry, ?_, ?_⟩
    · obtain ⟨w, here, known⟩ := finished.enters
      rw [size]
      exact movesSp_of_word low small here known
    · obtain ⟨us, w, r, split, known, -⟩ := finished.leaves
      have here : ws[ws.length - 2]? = some w := by
        rw [split, List.length_append]
        simp
      rw [size]
      exact movesSp_of_word low small here known
  · intro large
    refine refuses_bind (raises_prepareParams _) fun f prepared => ?_
    obtain ⟨pre, rfl, -, -, -⟩ := prepareParams_ok prepared
    exact refuses_of_large groups rest rfl rfl rfl large

end

end FrameBounds
