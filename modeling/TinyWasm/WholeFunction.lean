import TinyWasm.GenerationSpec
import TinyWasm.FrameSpec

/-!
# The code of a whole function

The stubs in front of the entry, the call of `setjmp`, the epilogue, and the
result for `processCodeVec` up to its fix-up: whenever it completes, the text
carries `wholeItems`.
-/

namespace WholeFunction

open BitFields HexText Opcode Wasm Emit ArmInstruction EncoderCorrectness LabelledCode
open LocalDeclarations SourceBody CodeItems EmissionSpec GenerationSpec FrameSpec

theorem mov_yields {rd rm : BitVec 8} (hd : rd.toNat < 32) (hm : rm.toNat < 32) :
    Yields (encodeMovRegister .xReg rd rm) (mov (rd.setWidth 5) (rm.setWidth 5)) :=
  encodeMovRegister_yields .xReg hd hm

theorem movSp_yields {rd rn : BitVec 8} (hd : rd.toNat < 32) (hn : rn.toNat < 32) :
    Yields (encodeMovSP .xReg rd rn) (movSp (rd.setWidth 5) (rn.setWidth 5)) :=
  encodeAddSubImm_yields .xReg false false false hd hn (by decide) (by decide)

theorem savePair_yields (ldstType : LdStType) {rt rt2 : BitVec 8} {imm : BitVec 32}
    (ht : rt.toNat < 32) (ht2 : rt2.toNat < 32)
    (legal : -512 ≤ imm.toInt ∧ imm.toInt < 512 ∧ (8 : Int) ∣ imm.toInt) :
    Yields (encodeLdpStp .xReg ldstType rt rt2 0 imm)
      (.ldpStp (decide (ldstType = .ldr)) .x .signedOffset (rt.setWidth 5) (rt2.setWidth 5) 0
        imm.toInt) :=
  encodeLdpStp_yields .xReg ldstType (by decide) ht ht2 (isReg 0) legal.1 legal.2.1 legal.2.2

theorem getSetJmpInstr_yields : YieldsAll getSetJmpInstr setjmpBlock :=
  yieldsAll_concat_cons (savePair_yields .str (isReg 19) (isReg 20) (by decide)) <|
  yieldsAll_concat_cons (savePair_yields .str (isReg 21) (isReg 22) (by decide)) <|
  yieldsAll_concat_cons (savePair_yields .str (isReg 23) (isReg 24) (by decide)) <|
  yieldsAll_concat_cons (savePair_yields .str (isReg 25) (isReg 26) (by decide)) <|
  yieldsAll_concat_cons (savePair_yields .str (isReg 27) (isReg 28) (by decide)) <|
  yieldsAll_concat_cons (savePair_yields .str (isReg 29) (isReg 30) (by decide)) <|
  yieldsAll_concat_cons (movSp_yields (isReg 2) (isReg 31)) <|
  yieldsAll_concat_cons (encodeLoadStoreImm_unsigned_yields .xReg .str (isReg 2) (isReg 0)
    (show (BitVec.sshiftRight (13 <<< 3 : BitVec 16) 3).toNat < 4096 by decide)) <|
  yieldsAll_concat_cons (encodeMovWide_yields .movz .wReg 0 0 (isReg 0) (by decide)) <|
  yieldsAll_concat_cons (encodeReturn_yields (isReg 30)) yieldsAll_concat_nil

theorem longjmpSelect_yields :
    Yields (do encodeCSEL .xReg 0 1 0 (← condAt "ne")) (.csel .x 0 1 0 0b0001) :=
  select_yields .ne (isReg 0) (isReg 1) (isReg 0)

theorem getLongJmpInstr_yields : YieldsAll getLongJmpInstr longjmpBlock :=
  yieldsAll_concat_cons (savePair_yields .ldr (isReg 19) (isReg 20) (by decide)) <|
  yieldsAll_concat_cons (savePair_yields .ldr (isReg 21) (isReg 22) (by decide)) <|
  yieldsAll_concat_cons (savePair_yields .ldr (isReg 23) (isReg 24) (by decide)) <|
  yieldsAll_concat_cons (savePair_yields .ldr (isReg 25) (isReg 26) (by decide)) <|
  yieldsAll_concat_cons (savePair_yields .ldr (isReg 27) (isReg 28) (by decide)) <|
  yieldsAll_concat_cons (savePair_yields .ldr (isReg 29) (isReg 30) (by decide)) <|
  yieldsAll_concat_cons (encodeLoadStoreImm_unsigned_yields .xReg .ldr (isReg 5) (isReg 0)
    (show (BitVec.sshiftRight (13 <<< 3 : BitVec 16) 3).toNat < 4096 by decide)) <|
  yieldsAll_concat_cons (movSp_yields (isReg 31) (isReg 5)) <|
  yieldsAll_concat_cons (cmpZero_yields .x (isReg 1)) <|
  yieldsAll_concat_cons (encodeMovWide_yields .movz .xReg 0 1 (isReg 0) (by decide)) <|
  yieldsAll_concat_cons longjmpSelect_yields <|
  yieldsAll_concat_cons (encodeBranchRegister_yields false (isReg 30)) yieldsAll_concat_nil

theorem storeCode_yields :
    Yields (encodeLoadStoreImm .xReg .str 11 REG_BUFFER 0)
      (.ldrStrImm false .x .unsignedOffset 11 19 0) :=
  encodeLoadStoreImm_unsigned_yields .xReg .str (isReg 11) (isReg 19)
    (show (BitVec.sshiftRight (0 : BitVec 16) 3).toNat < 4096 by decide)

theorem emitStubs_emits (f : WasmFunction) : Emits (emitStubs f) f stubItems := by
  have items : stubItems = .jump "entry" .b :: .label "setjmp" :: (CodeItems.ins setjmpBlock ++
      .label "preparelongjmp" :: .ins (mov 14 30) :: .ins (movSp 15 31) :: .ins (mov 0 19) ::
      .jump "longjmp" .b :: .label "longjmp" :: (CodeItems.ins longjmpBlock ++
      .label "raiseException" :: .ins (mov 30 14) :: .ins (movSp 31 15) ::
      .ins (.movWide .movz .x 11 1 0) :: .ins (.ldrStrImm false .x .unsignedOffset 11 19 0) ::
      [.jump "finalize" .b])) := by
    simp [stubItems, returnCode, CodeItems.ins]
  rw [items]
  exact emits_jump "entry" .b <| emits_label "setjmp" <|
    emits_all_bind getSetJmpInstr_yields fun _ =>
    emits_label "preparelongjmp" <|
    emits_emit_bind (mov_yields (isReg 14) (isReg 30)) fun _ =>
    emits_emit_bind (movSp_yields (isReg 15) (isReg 31)) fun _ =>
    emits_emit_bind (mov_yields (isReg 0) (isReg 19)) fun _ =>
    emits_jump "longjmp" .b <| emits_label "longjmp" <|
    emits_all_bind getLongJmpInstr_yields fun _ =>
    emits_label "raiseException" <|
    emits_emit_bind (mov_yields (isReg 30) (isReg 14)) fun _ =>
    emits_emit_bind (movSp_yields (isReg 31) (isReg 15)) fun _ =>
    emits_emit_bind (encodeMovWide_yields .movz .xReg 0 1 (isReg 11) (by decide)) fun _ =>
    emits_emit_bind storeCode_yields fun _ => emits_jump "finalize" .b (emits_pure _)

theorem framePair_yields {ldstType : LdStType} {mode : EncodingMode}
    (hmode : mode ≠ .unSignedOffset) {imm : BitVec 32}
    (legal : -512 ≤ imm.toInt ∧ imm.toInt < 512 ∧ (8 : Int) ∣ imm.toInt) :
    Yields (encodeLdpStp .xReg ldstType 29 30 31 imm mode)
      (.ldpStp (decide (ldstType = .ldr)) .x (pairMode mode) 29 30 31 imm.toInt) :=
  encodeLdpStp_yields .xReg ldstType hmode (isReg 29) (isReg 30) (isReg 31) legal.1 legal.2.1
    legal.2.2

theorem wrapper_setjmp_emits (f : WasmFunction) : Emits (wrapper_setjmp f) f wrapperItems :=
  emits_emit_bind (framePair_yields (by decide) (by decide)) fun _ =>
    emits_emit_bind (mov_yields (isReg 0) (isReg 19)) fun _ =>
    emits_jump "setjmp" .bl <|
    emits_emit_bind (cmpZero_yields .x (isReg 0)) fun _ =>
    emits_jump "raiseException" .bne <|
    emits_emit (yieldsAll_of_yields (framePair_yields (by decide) (by decide)))

/-! ### The epilogue -/

theorem encodeLoadStoreReg_ok {regType : RegType} {ldstType : LdStType} {rt rn rm : BitVec 8}
    {text : Text} (h : encodeLoadStoreReg regType ldstType rt rn rm = .ok text) :
    rt.toNat < 32 := by
  obtain ⟨_, -, h⟩ := ok_of_bind h
  obtain ⟨_, -, h⟩ := ok_of_bind h
  obtain ⟨_, -, h⟩ := ok_of_bind h
  obtain ⟨_, -, h⟩ := ok_of_bind h
  obtain ⟨_, -, h⟩ := ok_of_bind h
  obtain ⟨_, -, h⟩ := ok_of_bind h
  obtain ⟨_, -, h⟩ := ok_of_bind h
  obtain ⟨_, -, h⟩ := ok_of_bind h
  obtain ⟨_, -, h⟩ := ok_of_bind h
  obtain ⟨_, written, -⟩ := ok_of_bind h
  have := setField_ok written
  omega

theorem pop_ok {regType : RegType} {i : Nat} {text : Text}
    (h : WasmFunction.pop regType false (BitVec.ofNat 8 i) = .ok text) :
    YieldsAll (.ok text) (popBlock (widthOf regType) (BitVec.ofNat 5 i)) ∧
      (BitVec.ofNat 8 i).toNat < 32 := by
  obtain ⟨_, -, inner⟩ := ok_of_bind h
  obtain ⟨_, load, -⟩ := ok_of_bind inner
  have register := encodeLoadStoreReg_ok load
  have yields := pop_yields regType register
  rw [h, BitVec.setWidth_ofNat_of_le (by decide)] at yields
  exact ⟨yields, register⟩

/-- The pop of one result. -/
def popResult (i : Nat) : wasm_type → Except CppError Text
  | .f32 _ | .f64 _ => .error (.invalidArgument "Fmov not supported yet!")
  | .i64 _ => WasmFunction.pop .xReg false (BitVec.ofNat 8 i)
  | .i32 _ => WasmFunction.pop .wReg false (BitVec.ofNat 8 i)

theorem popResults_cons (i : Nat) (v : wasm_type) (results : List wasm_type) :
    WasmFunction.popResults i (v :: results) = (do
      let instr ← popResult i v
      let others ← WasmFunction.popResults (i + 1) results
      return instr ++ others) := by
  cases v <;> rfl

/-- The results are popped when they are integers, each to its register, and no more than
there are registers. -/
theorem popResults_ok {i : Nat} (start : i ≤ 32) {results : List wasm_type} {text : Text}
    (done : WasmFunction.popResults i results = .ok text) :
    YieldsAll (.ok text) (resultsBlock i results) ∧ (∀ v ∈ results, isFloat v = false) ∧
      i + results.length ≤ 32 := by
  induction results generalizing i text with
  | nil =>
    cases done
    exact ⟨⟨[], rfl, rfl⟩, by simp, start⟩
  | cons v results ih =>
    rw [popResults_cons] at done
    obtain ⟨first, popped, done⟩ := ok_of_bind done
    obtain ⟨others, rest, done⟩ := ok_of_bind done
    cases done
    have here : YieldsAll (.ok first) (popBlock (widthOf (varRegType v)) (BitVec.ofNat 5 i)) ∧
        isFloat v = false ∧ (BitVec.ofNat 8 i).toNat < 32 := by
      cases v with
      | i32 _ => exact ⟨(pop_ok popped).1, rfl, (pop_ok popped).2⟩
      | i64 _ => exact ⟨(pop_ok popped).1, rfl, (pop_ok popped).2⟩
      | f32 _ => exact nomatch popped
      | f64 _ => exact nomatch popped
    obtain ⟨yields, int, register⟩ := here
    rw [BitVec.toNat_ofNat] at register
    obtain ⟨later, ints, few⟩ := ih (by omega) rest
    refine ⟨yields.append later, by simpa [int] using ints, ?_⟩
    rw [List.length_cons]
    omega

theorem restoreSP_ok {f g : WasmFunction} (done : f.restoreSP = .ok g) :
    Emits (.ok g) f (CodeItems.ins (resultsBlock 0 f.result_data ++
      [.addSubImm false false .x 31 31 (BitVec.ofInt 12 f.stack_size) false])) ∧
      (∀ v ∈ f.result_data, isFloat v = false) ∧ f.result_data.length ≤ 32 := by
  obtain ⟨results, popped, done'⟩ := ok_of_bind done
  obtain ⟨restore, call, -⟩ := ok_of_bind done'
  obtain ⟨yields, ints, few⟩ := popResults_ok (Nat.zero_le 32) popped
  rw [Nat.zero_add] at few
  have both := emits_two (f := f) yields
    (yieldsAll_of_yields (addSubSp_yields false (encodeAddSubImm_ok call)))
  rw [call] at done' both
  rw [← done']
  exact ⟨both, ints, few⟩

theorem main_entry_finalize_ok {f g : WasmFunction} (done : main_entry_finalize f = .ok g) :
    Emits (.ok g) f (CodeItems.ins (resultsBlock 0 f.result_data ++
      [.addSubImm false false .x 31 31 (BitVec.ofInt 12 f.stack_size) false, .ret 30])) ∧
      (∀ v ∈ f.result_data, isFloat v = false) ∧ f.result_data.length ≤ 32 := by
  obtain ⟨h, restored, ret⟩ := ok_of_bind done
  obtain ⟨first, ints, few⟩ := restoreSP_ok restored
  have both := first.bind fun g _ => show Emits (emitRet g) g _ from
    emits_emit (yieldsAll_of_yields (encodeReturn_yields (isReg 30)))
  rw [ok_bind, ret, ← ins_append, List.append_assoc] at both
  exact ⟨both, ints, few⟩

/-! ### The whole -/

/-- What is known of a function whose code was generated. -/
structure Generated (params locals results : List wasm_type) (body : Seq) (g : WasmFunction) :
    Prop where
  represents : Represents g (wholeItems params locals results body)
  control_flow_stack : g.control_flow_stack = []
  uses : body.UsesBelow (params.length + locals.length)
  stored : Stored (paramEnd params) (paramStores 0 0 params)
  small : frameSize params locals ≤ 4080
  ints : ∀ v ∈ results, isFloat v = false
  few : results.length ≤ 32

/-- Behind the loop: the return code 0, and the epilogue. -/
theorem ending_ok {f g : WasmFunction} (done : (do
      let f ← f.emit (encodeMovz 11 0x0 .xReg 0)
      let f ← f.emit (encodeLoadStoreImm .xReg .str 11 REG_BUFFER 0)
      main_entry_finalize (f.insertLabel "finalize")) = .ok g) :
    Extends f (CodeItems.ins (returnCode 0) ++ [.label "finalize"] ++
        CodeItems.ins (resultsBlock 0 f.result_data ++
          [.addSubImm false false .x 31 31 (BitVec.ofInt 12 f.stack_size) false, .ret 30])) g ∧
      g.control_flow_stack = f.control_flow_stack ∧
      (∀ v ∈ f.result_data, isFloat v = false) ∧ f.result_data.length ≤ 32 := by
  obtain ⟨f₁, code, done⟩ := ok_of_bind done
  obtain ⟨f₂, store, done⟩ := ok_of_bind done
  obtain ⟨codeStep, -, codeControl⟩ := extends_of_emits (emits_emit (yieldsAll_of_yields
    (encodeMovWide_yields .movz .xReg 0 0 (isReg 11) (by decide)))) code
  obtain ⟨storeStep, -, storeControl⟩ :=
    extends_of_emits (emits_emit (yieldsAll_of_yields storeCode_yields)) store
  obtain ⟨labelStep, -, labelControl⟩ := extends_of_emits (emits_insertLabel f₂ "finalize") rfl
  have before := codeStep.trans (storeStep.trans labelStep)
  have rest := before.rest
  obtain ⟨epilogue, ints, few⟩ := main_entry_finalize_ok done
  have results : (f₂.insertLabel "finalize").result_data = f.result_data := by rw [rest]
  have size : (f₂.insertLabel "finalize").stack_size = f.stack_size := by rw [rest]
  rw [results, size] at epilogue
  rw [results] at ints few
  obtain ⟨lastStep, -, lastControl⟩ := extends_of_emits epilogue rfl
  exact ⟨before.trans lastStep,
    by rw [lastControl, labelControl, storeControl, codeControl], ints, few⟩

theorem generate_ok {params results : List wasm_type} {groups : List Group} {body : Seq}
    {pre : Text} {g : WasmFunction}
    (done : generate (delivered params results groups body pre) = .ok g) :
    Generated params (groups.flatMap groupLocals) results body g ∧
      g.pre_instructions_for_param_loading = pre := by
  let locals := groups.flatMap groupLocals
  have declared := local_var_initialize_groups (f := delivered params results groups body pre)
    (show _ = groups.flatMap groupCode ++ _ from rfl) rfl
  rw [generate, declared, ok_bind] at done
  let f₀ : WasmFunction :=
    { delivered params results groups body pre with local_data := locals }
  obtain ⟨f₁, stubs, done⟩ := ok_of_bind done
  obtain ⟨f₂, frame, done⟩ := ok_of_bind done
  obtain ⟨f₃, wrapper, done⟩ := ok_of_bind done
  obtain ⟨f₄, loop, done⟩ := ok_of_bind done
  obtain ⟨stubStep, stubLabel, stubControl⟩ := extends_of_emits (emitStubs_emits f₀) stubs
  obtain ⟨entryStep, entryLabel, entryControl⟩ :=
    extends_of_emits (emits_insertLabel f₁ "entry") rfl
  have before := stubStep.trans entryStep
  have rest₀ := before.rest
  have start := before.code [] (represents_empty rfl rfl rfl)
  obtain ⟨entered, stored, small, hasFrame, -, -⟩ := main_entry_initialize_ok frame
  have paramsKept : (f₁.insertLabel "entry").param_data = params := by rw [rest₀]; rfl
  have localsKept : (f₁.insertLabel "entry").local_data = locals := by rw [rest₀]
  have resultsKept : (f₁.insertLabel "entry").result_data = results := by rw [rest₀]; rfl
  have codeKept : (f₁.insertLabel "entry").code_vec = f₀.code_vec := by rw [rest₀]
  have sized := entered.stack_size
  have framed := entered.code _ start
  rw [paramsKept, localsKept] at framed sized small hasFrame
  rw [paramsKept] at stored
  obtain ⟨wrapStep, wrapLabel, wrapControl⟩ := extends_of_emits (wrapper_setjmp_emits f₂) wrapper
  have codeHere : f₃.code_vec.drop (2 * groups.length) = (body.bytes ++ [0x0b]).map hexByte := by
    rw [code_vec_of_extends wrapStep, entered.code_vec, codeKept]
    exact List.drop_left' (groupCode_length groups)
  obtain ⟨uses, loopStep, control⟩ := jiting_wasm_code_emits (hasFrame.extends wrapStep) codeHere
    (by rw [wrapLabel, entered.if_label, entryLabel, stubLabel]; rfl)
    (by rw [wrapControl, entered.control_flow_stack, entryControl, stubControl]; rfl) loop
  have through := wrapStep.trans loopStep
  have rest₂ := through.rest
  have resultsThere : f₄.result_data = results := by
    rw [rest₂]
    exact entered.result_data.trans resultsKept
  have sizeThere : f₄.stack_size = frameSize params locals := by
    rw [rest₂]
    exact sized
  obtain ⟨lastStep, lastControl, ints, few⟩ := ending_ok done
  rw [resultsThere, sizeThere] at lastStep
  rw [resultsThere] at ints few
  have whole := (through.trans lastStep).code _ framed
  have count : (frameOf params locals).length = params.length + locals.length := by
    rw [frameOf, List.length_append, slots_length, slots_length]
  rw [count] at uses
  have preKept : f₂.pre_instructions_for_param_loading = pre := by
    rw [entered.pre, rest₀]
    rfl
  have rest := (through.trans lastStep).rest
  refine ⟨⟨?_, by rw [lastControl, control], uses, stored, small, ints, few⟩,
    by rw [rest]; exact preKept⟩
  have items : wholeItems params locals results body = [] ++ (stubItems ++ [.label "entry"]) ++
      frameItems params locals ++ (wrapperItems ++ (bodyItems (frameOf params locals) 0 body ++
      [.label "end"]) ++ (CodeItems.ins (returnCode 0) ++ [.label "finalize"] ++
      CodeItems.ins (epilogueBlock params locals results))) := by
    simp [wholeItems, CodeItems.ins]
  rw [items]
  exact whole

end WholeFunction
