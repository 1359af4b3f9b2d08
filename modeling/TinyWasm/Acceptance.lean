import TinyWasm.ExecutablePages

/-!
# Which functions are compiled

`funcSingleProcess` completes on exactly the functions whose params and results
are integers that have registers, whose frame is within the reach of one
immediate, and whose body names variables that exist. What a completed run says
is known; here the other direction is added, step by step.
-/

namespace Acceptance

open HexText Opcode Wasm Emit ArmInstruction EncoderCorrectness LabelledCode LocalDeclarations
open SourceBody CodeItems EmissionSpec GenerationSpec FrameSpec WholeFunction BranchFixup
open FunctionCall ExecutablePages

/-- The functions the compiler takes. -/
structure Accepted (params locals results : List wasm_type) (body : Seq) : Prop where
  intParams : ∀ v ∈ params, isFloat v = false
  fewParams : params.length ≤ 32
  intResults : ∀ v ∈ results, isFloat v = false
  fewResults : results.length ≤ 32
  small : frameSize params locals ≤ 4080
  uses : body.UsesBelow (params.length + locals.length)

theorem ok_of_yieldsAll {call : Except CppError Text} {block : List Instr}
    (h : YieldsAll call block) : ∃ text, call = .ok text := by
  obtain ⟨ws, done, -⟩ := h
  exact ⟨_, done⟩

theorem register_small {i : Nat} (h : i < 32) : (BitVec.ofNat 8 i).toNat < 32 := by
  rw [BitVec.toNat_ofNat]
  omega

/-! ### Arguments and results -/

theorem loadParams_total {i : Nat} {params : List wasm_type}
    (ints : ∀ v ∈ params, isFloat v = false) (few : i + params.length ≤ 32) :
    ∃ text, WasmFunction.loadParams i params = .ok text := by
  induction params generalizing i with
  | nil => exact ⟨[], rfl⟩
  | cons v rest ih =>
    obtain ⟨int, later⟩ := List.forall_mem_cons.mp ints
    rw [List.length_cons] at few
    obtain ⟨others, last⟩ := ih later (show i + 1 + rest.length ≤ 32 by omega)
    have first : ∃ text, loadParam i v = .ok text := by
      cases v with
      | i32 v => exact ok_of_yieldsAll (movConst32_yields v (register_small (by omega)))
      | i64 v => exact ok_of_yieldsAll (movConst64_yields v (register_small (by omega)))
      | f32 _ | f64 _ => cases int
    obtain ⟨text, loads⟩ := first
    rw [loadParams_cons, loads, ok_bind, last]
    exact ⟨_, rfl⟩

theorem popResults_total {i : Nat} {results : List wasm_type}
    (ints : ∀ v ∈ results, isFloat v = false) (few : i + results.length ≤ 32) :
    ∃ text, WasmFunction.popResults i results = .ok text := by
  induction results generalizing i with
  | nil => exact ⟨[], rfl⟩
  | cons v rest ih =>
    obtain ⟨int, later⟩ := List.forall_mem_cons.mp ints
    rw [List.length_cons] at few
    obtain ⟨others, last⟩ := ih later (show i + 1 + rest.length ≤ 32 by omega)
    have first : ∃ text, popResult i v = .ok text := by
      cases v with
      | i32 v | i64 v => exact ok_of_yieldsAll (pop_yields _ (register_small (by omega)))
      | f32 _ | f64 _ => cases int
    obtain ⟨text, pops⟩ := first
    rw [popResults_cons, pops, ok_bind, last]
    exact ⟨_, rfl⟩

theorem prepareParams_total {f : WasmFunction} (ints : ∀ v ∈ f.param_data, isFloat v = false)
    (few : f.param_data.length ≤ 32) : ∃ g, f.prepareParams = .ok g := by
  obtain ⟨w₁, e₁, -⟩ := mov_yields (isReg 19) (isReg 0)
  obtain ⟨w₂, e₂, -⟩ := mov_yields (isReg 20) (isReg 1)
  obtain ⟨w₃, e₃, -⟩ := encodeMovWide_yields .movz .xReg 0 0 (isReg 21) (by decide)
  obtain ⟨text, loads⟩ := loadParams_total ints (show 0 + f.param_data.length ≤ 32 by omega)
  refine ⟨{ f with
    pre_instructions_for_param_loading := f.pre_instructions_for_param_loading ++ wordText w₁ ++
      wordText w₂ ++ wordText w₃ ++ text }, ?_⟩
  rw [WasmFunction.prepareParams, show encodeMovRegister .xReg REG_BUFFER 0 = _ from e₁, ok_bind,
    show encodeMovRegister .xReg REG_WASM_STACK 1 = _ from e₂, ok_bind,
    show encodeMovz REG_POINTER_WASM_STACK 0 .xReg = _ from e₃, ok_bind, loads]
  rfl

/-! ### The frame -/

theorem storeAll_total (f : WasmFunction) (category : TypeCategory) {offset : Int} (i : Nat)
    {stores : List Store} (stored : Stored offset stores) :
    ∃ g, storeAll f category offset i stores = .ok g := by
  induction stores generalizing f offset i with
  | nil => exact ⟨f, rfl⟩
  | cons st rest ih =>
    obtain ⟨register, reach, later⟩ := stored
    obtain ⟨w, yields, -⟩ := variableAccess_yields .str register reach
    obtain ⟨g, done⟩ := ih ((f.setVar category i offset (varRegType st.value)).constructFullinstr
      (wordText w)) (i + 1) later
    refine ⟨g, ?_⟩
    rw [storeAll, yields]
    exact done

/-- Offsets of a small frame are within reach, and every integer param has a register. -/
theorem stored_params {gp : Nat} {params : List wasm_type} {offset : Int}
    (ints : ∀ v ∈ params, isFloat v = false) (few : gp + params.length ≤ 32)
    (low : totalSize params ≤ offset) (high : offset < 16384) :
    Stored offset (paramStores 0 gp params) := by
  induction params generalizing gp offset with
  | nil => trivial
  | cons v rest ih =>
    obtain ⟨int, later⟩ := List.forall_mem_cons.mp ints
    have size := slotSize_bounds v
    have others := totalSize_nonneg rest
    rw [List.length_cons] at few
    rw [totalSize_cons] at low
    rw [paramStores, int, if_neg Bool.false_ne_true, if_neg Bool.false_ne_true,
      if_neg Bool.false_ne_true]
    exact ⟨register_small (show gp < 32 by omega), reachable_of_small (by omega) high,
      ih later (by omega) (show totalSize rest ≤ offset - slotSize v by omega)
        (show offset - slotSize v < 16384 by omega)⟩

theorem stored_locals {locals : List wasm_type} {offset : Int} (low : totalSize locals ≤ offset)
    (high : offset < 16384) : Stored offset (localStores locals) := by
  induction locals generalizing offset with
  | nil => trivial
  | cons v rest ih =>
    have size := slotSize_bounds v
    have others := totalSize_nonneg rest
    rw [totalSize_cons] at low
    exact ⟨register_small (show 31 < 32 by decide), reachable_of_small (by omega) high,
      ih (show totalSize rest ≤ offset - slotSize v by omega)
        (show offset - slotSize v < 16384 by omega)⟩

theorem size_reaches {params locals : List wasm_type} (small : frameSize params locals ≤ 4080) :
    (BitVec.ofInt 16 (frameSize params locals)).toNat < 4096 := by
  obtain ⟨fits, -⟩ := frameSize_bounds params locals
  have ends : localEnd params locals = totalSize params + 8 + totalSize locals := rfl
  have := totalSize_nonneg params
  have := totalSize_nonneg locals
  rw [BitVec.toNat_ofInt]
  omega

theorem main_entry_initialize_total {f : WasmFunction}
    (ints : ∀ v ∈ f.param_data, isFloat v = false) (few : f.param_data.length ≤ 32)
    (small : frameSize f.param_data f.local_data ≤ 4080) :
    ∃ g, WasmFunction.main_entry_initialize f = .ok g := by
  obtain ⟨fits, -⟩ := frameSize_bounds f.param_data f.local_data
  have ends : localEnd f.param_data f.local_data =
      totalSize f.param_data + 8 + totalSize f.local_data := rfl
  have := totalSize_nonneg f.param_data
  have := totalSize_nonneg f.local_data
  obtain ⟨w, sized, -⟩ := addSubSp_yields true (size_reaches small)
  have prepared : f.getStackPreallocateSize.prepareSp =
      .ok (f.getStackPreallocateSize.constructFullinstr (wordText w)) := by
    rw [WasmFunction.prepareSp, WasmFunction.emit,
      show f.getStackPreallocateSize.stack_size = frameSize f.param_data f.local_data by
        rw [getStackPreallocateSize_eq], sized]
    rfl
  let f₁ := f.getStackPreallocateSize.constructFullinstr (wordText w)
  have paramsThere : f₁.param_data = f.param_data := rfl
  have localsThere : f₁.local_data = f.local_data := rfl
  have paramStart : f₁.param_stack_end_location = paramEnd f.param_data := by
    change f.getStackPreallocateSize.param_stack_end_location = _
    rw [getStackPreallocateSize_eq]
  have localStart : f₁.local_stack_end_location = localEnd f.param_data f.local_data := by
    change f.getStackPreallocateSize.local_stack_end_location = _
    rw [getStackPreallocateSize_eq]
  have paramsStored : Stored (paramEnd f.param_data) (paramStores 0 0 f.param_data) :=
    stored_params ints (by omega) (Int.le_refl _) (by rw [paramEnd]; omega)
  obtain ⟨f₂, params⟩ := storeAll_total f₁ .PARAM 0 paramsStored
  have rest := (storeAll_lays params).2.rest
  have localsStored : Stored (localEnd f.param_data f.local_data) (localStores f.local_data) :=
    stored_locals (by omega) (by omega)
  obtain ⟨g, locals⟩ := storeAll_total f₂ .LOCAL 0 localsStored
  have ends₂ := (congrArg WasmFunction.local_stack_end_location rest).trans localStart
  have locals₂ := (congrArg WasmFunction.local_data rest).trans localsThere
  refine ⟨g, ?_⟩
  rw [WasmFunction.main_entry_initialize, prepared, ok_bind]
  change (f₁.initParam >>= WasmFunction.initLocal) = _
  rw [WasmFunction.initParam, storeParams_eq, paramsThere, paramStart, params, ok_bind,
    WasmFunction.initLocal, storeLocals_eq, ends₂, locals₂, locals]

/-! ### The body and the epilogue -/

/-- The loop gets through every body whose variables exist. -/
theorem jiting_wasm_code_total {f : WasmFunction} {frame : Frame} (hf : HasFrame f frame)
    {body : Seq} (uses : body.UsesBelow frame.length) {i : Nat}
    (hcode : f.code_vec.drop i = (body.bytes ++ [0x0b]).map hexByte) :
    ∃ g, jiting_wasm_code f i = .ok g ∧
      Extends f (bodyItems frame f.if_label body ++ [.label "end"]) g := by
  let opened : WasmFunction := { f with
    control_flow_stack := { label := "end", signature := f.result_data } :: f.control_flow_stack }
  have code₀ : opened.code_vec.drop i = body.bytes.map hexByte ++ [hexByte 0x0b] := by
    rw [hcode, List.map_append]
    rfl
  have room : body.turns + 1 ≤ f.code_vec.length := by
    have inside := congrArg List.length hcode
    rw [List.length_drop, List.length_map, List.length_append, List.length_singleton] at inside
    have := body.turns_le_bytes
    omega
  obtain ⟨fuel, hfuel⟩ := Nat.exists_eq_add_of_le room
  obtain ⟨g₁, all, -, control₁⟩ :=
    seq_compiles body uses (f := opened) ⟨hf.count, hf.slot⟩ code₀
  have code₁ : g₁.code_vec.drop (i + body.bytes.length) = hexByte 0x0b :: [] := all.code
  obtain ⟨g₂, turn₂, step₂, -, -⟩ := turn_end code₁ control₁
  have last := jits_turn (codeAt_of_drop code₁).2.2 turn₂ step₂
  have behind : ¬ i + body.bytes.length + 1 < g₂.code_vec.length := by
    rw [code_vec_of_extends step₂]
    exact Nat.not_lt.mpr (List.drop_eq_nil_iff.mp (codeAt_of_drop code₁).2.1)
  have step := all.jits.step.trans step₂
  refine ⟨g₂, ?_, ⟨fun items hi => step.code items ⟨hi.words, hi.jumps, hi.labels⟩, step.rest⟩⟩
  change jitLoop f.code_vec.length opened i = .ok g₂
  rw [hfuel, Nat.add_assoc, all.jits.loop, last.loop]
  cases fuel with
  | zero => rw [jitLoop, if_neg behind]
  | succ fuel => rw [jitLoop, if_neg behind]

theorem main_entry_finalize_total {f : WasmFunction} (ints : ∀ v ∈ f.result_data, isFloat v = false)
    (few : f.result_data.length ≤ 32) (sized : (BitVec.ofInt 16 f.stack_size).toNat < 4096) :
    ∃ g, main_entry_finalize f = .ok g := by
  obtain ⟨text, pops⟩ := popResults_total ints (show 0 + f.result_data.length ≤ 32 by omega)
  obtain ⟨w, restore, -⟩ := addSubSp_yields false sized
  obtain ⟨w', ret, -⟩ := encodeReturn_yields (isReg 30)
  refine ⟨(f.constructFullinstr (text ++ wordText w)).constructFullinstr (wordText w'), ?_⟩
  rw [main_entry_finalize, WasmFunction.restoreSP, pops, ok_bind, restore, ok_bind]
  change emitRet _ = _
  rw [emitRet, WasmFunction.emit, show encodeReturn = _ from ret]
  rfl

/-! ### The whole -/

theorem generate_total (pre : Text) {params results : List wasm_type} {groups : List Group}
    {body : Seq} (accepted : Accepted params (groups.flatMap groupLocals) results body) :
    ∃ g, generate (delivered params results groups body pre) = .ok g := by
  let locals := groups.flatMap groupLocals
  have declared := local_var_initialize_groups (f := delivered params results groups body pre)
    (show _ = groups.flatMap groupCode ++ _ from rfl) rfl
  let f₀ : WasmFunction :=
    { delivered params results groups body pre with local_data := locals }
  obtain ⟨f₁, stubs, stubStep, -⟩ := emitStubs_emits f₀
  have rest₀ := (stubStep.trans (extends_of_emits (emits_insertLabel f₁ "entry") rfl).1).rest
  have paramsKept : (f₁.insertLabel "entry").param_data = params := by rw [rest₀]; rfl
  have localsKept : (f₁.insertLabel "entry").local_data = locals := by rw [rest₀]
  have resultsKept : (f₁.insertLabel "entry").result_data = results := by rw [rest₀]; rfl
  have codeKept : (f₁.insertLabel "entry").code_vec = f₀.code_vec := by rw [rest₀]
  obtain ⟨f₂, frame⟩ := main_entry_initialize_total (f := f₁.insertLabel "entry")
    (by rw [paramsKept]; exact accepted.intParams) (by rw [paramsKept]; exact accepted.fewParams)
    (by rw [paramsKept, localsKept]; exact accepted.small)
  obtain ⟨entered, -, -, hasFrame, -, -⟩ := main_entry_initialize_ok frame
  have sized := entered.stack_size
  rw [paramsKept, localsKept] at sized hasFrame
  obtain ⟨f₃, wrapper, wrapStep, wrapLabel, wrapControl⟩ := wrapper_setjmp_emits f₂
  have codeHere : f₃.code_vec.drop (2 * groups.length) = (body.bytes ++ [0x0b]).map hexByte := by
    rw [code_vec_of_extends wrapStep, entered.code_vec, codeKept]
    exact List.drop_left' (groupCode_length groups)
  obtain ⟨f₄, loop, loopStep⟩ := jiting_wasm_code_total (hasFrame.extends wrapStep)
    (by rw [frameOf_length]; exact accepted.uses) codeHere
  obtain ⟨f₅, code, codeStep, -⟩ := emits_emit (f := f₄) (yieldsAll_of_yields
    (encodeMovWide_yields .movz .xReg 0 0 (isReg 11) (by decide)))
  obtain ⟨f₆, store, storeStep, -⟩ := emits_emit (f := f₅) (yieldsAll_of_yields storeCode_yields)
  obtain ⟨finalStep, -⟩ := extends_of_emits (emits_insertLabel f₆ "finalize") rfl
  have rest₂ := (wrapStep.trans (loopStep.trans (codeStep.trans (storeStep.trans finalStep)))).rest
  have resultsThere : (f₆.insertLabel "finalize").result_data = results := by
    rw [rest₂]
    exact entered.result_data.trans resultsKept
  have sizeThere : (f₆.insertLabel "finalize").stack_size = frameSize params locals := by
    rw [rest₂]
    exact sized
  obtain ⟨g, last⟩ := main_entry_finalize_total (f := f₆.insertLabel "finalize")
    (by rw [resultsThere]; exact accepted.intResults)
    (by rw [resultsThere]; exact accepted.fewResults)
    (by rw [sizeThere]; exact size_reaches accepted.small)
  refine ⟨g, ?_⟩
  rw [generate, declared, ok_bind]
  change (emitStubs f₀ >>= _) = _
  rw [stubs, ok_bind]
  change (WasmFunction.main_entry_initialize (f₁.insertLabel "entry") >>= _) = _
  rw [frame, ok_bind, wrapper, ok_bind, loop, ok_bind, show f₄.emit (encodeMovz 11 0 .xReg) = _ from
    code, ok_bind, store, ok_bind, last]

theorem compiles_of_accepted {params results : List wasm_type} {groups : List Group} {body : Seq}
    (size_byte : bodySize groups body ≤ 255)
    (accepted : Accepted params (groups.flatMap groupLocals) results body)
    (order : WasmFunction.VisitOrder) :
    ∃ g, funcSingleProcess (delivered params results groups body) order = .ok g := by
  have short : body.bytes.length ≤ 255 := by
    rw [bodySize] at size_byte
    omega
  obtain ⟨f, prepares⟩ := prepareParams_total (f := delivered params results groups body)
    accepted.intParams accepted.fewParams
  obtain ⟨ws, rfl, -, -, -⟩ := prepareParams_ok prepares
  obtain ⟨g, generates⟩ := generate_total ([] ++ ws.flatMap wordText) accepted
  have compiles : (delivered params results groups body).prepareParams >>= generate = .ok g := by
    rw [prepares]
    exact generates
  obtain ⟨h, -, done, -⟩ := compiled_length short compiles order
  exact ⟨h, done⟩

theorem accepted_of_compiles {params results : List wasm_type} {groups : List Group} {body : Seq}
    {order : WasmFunction.VisitOrder} {g : WasmFunction} (size_byte : bodySize groups body ≤ 255)
    (done : funcSingleProcess (delivered params results groups body) order = .ok g) :
    Accepted params (groups.flatMap groupLocals) results body := by
  obtain ⟨f, prepared, done⟩ := ok_of_bind done
  obtain ⟨ws, rfl, -, ints, few⟩ := prepareParams_ok prepared
  obtain ⟨h, vs, -, generated, -⟩ := processCodeVec_ok size_byte
    (show processCodeVec (delivered params results groups body ([] ++ ws.flatMap wordText)) order =
      .ok g from done)
  exact ⟨ints, few, generated.ints, generated.few, generated.small, generated.uses⟩

/-- A function is compiled exactly when its params and results are integers with registers, its
frame is small, and its body names variables that exist. -/
theorem compiles_iff {params results : List wasm_type} {groups : List Group} {body : Seq}
    (size_byte : bodySize groups body ≤ 255) (order : WasmFunction.VisitOrder) :
    (∃ g, funcSingleProcess (delivered params results groups body) order = .ok g) ↔
      Accepted params (groups.flatMap groupLocals) results body := by
  constructor
  · rintro ⟨g, done⟩
    exact accepted_of_compiles size_byte done
  · intro accepted
    exact compiles_of_accepted size_byte accepted order

theorem compiles_iff_guarded : ∃ g, funcSingleProcess
    (delivered [.i32 1] [.i32 0] [(1, 0x7f)] guardedDivision) inOrder = .ok g := by
  apply (compiles_iff (by decide) inOrder).mpr
  exact ⟨by decide, by decide, by decide, by decide, by decide,
    ⟨Nat.zero_lt_succ _, ⟨trivial, Nat.one_lt_two, trivial⟩, ⟨trivial, trivial⟩, trivial⟩⟩

end Acceptance
