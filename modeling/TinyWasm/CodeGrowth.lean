import TinyWasm.Emit

/-!
# What every emission does

Whatever bytes a function has, code generation only puts whole instruction words
behind its text, records branches and labels, and keeps the control stack. A
relation that these steps keep is kept by the whole loop.
-/

namespace CodeGrowth

open HexText Opcode Wasm Emit

/-- Whenever the call completes, its result has the property. -/
def Completes {α : Type} (call : Except CppError α) (P : α → Prop) : Prop :=
  ∀ a, call = .ok a → P a

section
variable {α β : Type} {P : α → Prop} {Q : β → Prop}

theorem completes_ok {a : α} (h : P a) : Completes (.ok a) P := by
  rintro _ ⟨⟩
  exact h

theorem completes_error (e : CppError) : Completes (.error e) P := fun _ done => nomatch done

theorem completes_bind {call : Except CppError α} {next : α → Except CppError β}
    (first : Completes call P) (second : ∀ a, P a → Completes (next a) Q) :
    Completes (call >>= next) Q := by
  intro b done
  obtain ⟨a, ha, done⟩ := ok_of_bind done
  exact second a (first a ha) b done

/-- Nothing need be known of the first call. -/
theorem completes_after {call : Except CppError α} {next : α → Except CppError β}
    (second : ∀ a, Completes (next a) Q) : Completes (call >>= next) Q :=
  completes_bind (P := fun _ => True) (fun _ _ => trivial) fun a _ => second a

theorem Completes.mono {P' : α → Prop} {call : Except CppError α} (h : Completes call P)
    (weaker : ∀ a, P a → P' a) : Completes call P' :=
  fun a done => weaker a (h a done)

end

/-! ### Encoders print words -/

def IsWord (text : Text) : Prop := ∃ w : BitVec 32, text = wordText w

/-- Instruction words, printed one behind the other. -/
def Words (text : Text) : Prop := ∃ ws : List (BitVec 32), text = ws.flatMap wordText

theorem words_nil : Words [] := ⟨[], rfl⟩

theorem IsWord.words {text : Text} (h : IsWord text) : Words text := by
  obtain ⟨w, rfl⟩ := h
  exact ⟨[w], (List.flatMap_singleton ..).symm⟩

theorem Words.append {first second : Text} (h : Words first) (h' : Words second) :
    Words (first ++ second) := by
  obtain ⟨ws, rfl⟩ := h
  obtain ⟨vs, rfl⟩ := h'
  exact ⟨ws ++ vs, List.flatMap_append.symm⟩

/-- The word is printed with its bytes swapped. -/
def Small (opcode : Arm64Opcode) : Prop := opcode.smallEndian = true

theorem small_setField {opcode : Arm64Opcode} (h : Small opcode) (val : Int) (offset len : Nat) :
    Completes (opcode.setField val offset len) Small := by
  rw [Arm64Opcode.setField]
  split
  · exact completes_error _
  · exact completes_ok h

/-- A chain of field writes. -/
theorem small_bind {α : Type} {Q : α → Prop} {opcode : Arm64Opcode} {val : Int}
    {offset len : Nat} {next : Arm64Opcode → Except CppError α} (h : Small opcode)
    (second : ∀ o, Small o → Completes (next o) Q) :
    Completes (opcode.setField val offset len >>= next) Q :=
  completes_bind (small_setField h val offset len) second

theorem small_new : Small {} := rfl

theorem word_instruction {opcode : Arm64Opcode} (h : Small opcode) :
    Completes (pure opcode.getInstruction) IsWord := by
  refine completes_ok ⟨opcode.inst, ?_⟩
  have swapped : opcode.smallEndian = true := h
  rw [Arm64Opcode.getInstruction, if_pos swapped]
  rfl

theorem word_encodeNop : Completes encodeNop IsWord := by
  refine small_bind small_new fun _ h => ?_
  exact word_instruction h

theorem word_encodeAddSubShift (isSub : Bool) (regType : RegType) (rd rn rm imm shift : BitVec 8)
    (isCmp : Bool) :
    Completes (encodeAddSubShift isSub regType rd rn rm imm shift isCmp) IsWord := by
  refine small_bind small_new fun _ h => ?_
  refine small_bind h fun _ h => ?_
  refine small_bind h fun _ h => ?_
  refine small_bind h fun _ h => ?_
  refine small_bind h fun _ h => ?_
  refine small_bind h fun _ h => ?_
  refine small_bind h fun _ h => ?_
  refine small_bind h fun _ h => ?_
  refine small_bind h fun _ h => ?_
  exact word_instruction h

theorem word_encodeMul (regType : RegType) (rd rn rm : BitVec 8) :
    Completes (encodeMul regType rd rn rm) IsWord := by
  refine small_bind small_new fun _ h => ?_
  refine small_bind h fun _ h => ?_
  refine small_bind h fun _ h => ?_
  refine small_bind h fun _ h => ?_
  refine small_bind h fun _ h => ?_
  exact word_instruction h

theorem word_encodeDiv (regType : RegType) (isSigned : Bool) (rd rn rm : BitVec 8) :
    Completes (encodeDiv regType isSigned rd rn rm) IsWord := by
  refine small_bind small_new fun _ h => ?_
  refine small_bind h fun _ h => ?_
  refine small_bind h fun _ h => ?_
  refine small_bind h fun _ h => ?_
  refine small_bind h fun _ h => ?_
  refine small_bind h fun _ h => ?_
  refine small_bind h fun _ h => ?_
  exact word_instruction h

theorem word_encodeAddSubImm (regType : RegType) (isSub : Bool) (rd rn : BitVec 8)
    (imm : BitVec 16) (shift : BitVec 8) (isCmp setFlag : Bool) :
    Completes (encodeAddSubImm regType isSub rd rn imm shift isCmp setFlag) IsWord := by
  refine small_bind small_new fun _ h => ?_
  refine small_bind h fun _ h => ?_
  refine small_bind h fun _ h => ?_
  refine small_bind h fun _ h => ?_
  refine small_bind h fun _ h => ?_
  refine small_bind h fun _ h => ?_
  refine small_bind h fun _ h => ?_
  refine small_bind h fun _ h => ?_
  exact word_instruction h

theorem word_encodeReturn : Completes encodeReturn IsWord := by
  refine small_bind small_new fun _ h => ?_
  refine small_bind h fun _ h => ?_
  exact word_instruction h

theorem word_encodeBranch (imm : BitVec 32) (withLink : Bool) :
    Completes (encodeBranch imm withLink) IsWord := by
  refine small_bind small_new fun _ h => ?_
  refine small_bind h fun _ h => ?_
  refine small_bind h fun _ h => ?_
  exact word_instruction h

theorem word_encodeBranchCondition (imm19 : BitVec 32) (cond : BitVec 8) :
    Completes (encodeBranchCondition imm19 cond) IsWord := by
  refine small_bind small_new fun _ h => ?_
  refine small_bind h fun _ h => ?_
  refine small_bind h fun _ h => ?_
  exact word_instruction h

theorem word_encodeBranchRegister (rn : BitVec 8) :
    Completes (encodeBranchRegister rn) IsWord := by
  refine small_bind small_new fun _ h => ?_
  refine small_bind h fun _ h => ?_
  refine small_bind h fun _ h => ?_
  exact word_instruction h

theorem word_encodeCSEL (regType : RegType) (rd rn rm cond : BitVec 8) :
    Completes (encodeCSEL regType rd rn rm cond) IsWord := by
  refine small_bind small_new fun _ h => ?_
  refine small_bind h fun _ h => ?_
  refine small_bind h fun _ h => ?_
  refine small_bind h fun _ h => ?_
  refine small_bind h fun _ h => ?_
  refine small_bind h fun _ h => ?_
  exact word_instruction h

theorem word_encodeLoadStoreReg (regType : RegType) (ldstType : LdStType) (rt rn rm : BitVec 8) :
    Completes (encodeLoadStoreReg regType ldstType rt rn rm) IsWord := by
  refine small_bind small_new fun _ h => ?_
  refine small_bind h fun _ h => ?_
  refine small_bind h fun _ h => ?_
  refine small_bind h fun _ h => ?_
  refine small_bind h fun _ h => ?_
  refine small_bind h fun _ h => ?_
  refine small_bind h fun _ h => ?_
  refine small_bind h fun _ h => ?_
  refine small_bind h fun _ h => ?_
  refine small_bind h fun _ h => ?_
  exact word_instruction h

theorem word_encodeMovRegister (regType : RegType) (rd rm : BitVec 8) :
    Completes (encodeMovRegister regType rd rm) IsWord := by
  refine small_bind small_new fun _ h => ?_
  refine small_bind h fun _ h => ?_
  refine small_bind h fun _ h => ?_
  refine small_bind h fun _ h => ?_
  refine small_bind h fun _ h => ?_
  exact word_instruction h

theorem word_encodeMovWide (bits : Int) (rd : BitVec 8) (imm16 : BitVec 16) (regType : RegType)
    (shift : BitVec 8) : Completes (encodeMovWide bits rd imm16 regType shift true) IsWord := by
  refine small_bind small_new fun _ h => ?_
  refine small_bind h fun _ h => ?_
  refine small_bind h fun _ h => ?_
  refine small_bind h fun _ h => ?_
  refine small_bind h fun _ h => ?_
  exact word_instruction h

theorem word_encodeLdpStp (regType : RegType) (ldstType : LdStType) (rt rt2 rn : BitVec 8)
    (imm : BitVec 32) (mode : EncodingMode) :
    Completes (encodeLdpStp regType ldstType rt rt2 rn imm mode) IsWord := by
  cases mode with
  | postIndex | preIndex | signedOffset =>
    refine small_bind small_new fun _ h => ?_
    refine small_bind h fun _ h => ?_
    refine small_bind h fun _ h => ?_
    refine small_bind h fun _ h => ?_
    refine small_bind h fun _ h => ?_
    refine small_bind h fun _ h => ?_
    refine small_bind h fun _ h => ?_
    exact word_instruction h
  | unSignedOffset =>
    refine small_bind small_new fun _ h => ?_
    refine small_bind h fun _ h => ?_
    exact fun _ done => nomatch done

theorem word_encodeLoadStoreImm (regType : RegType) (ldstType : LdStType) (rt rn : BitVec 8)
    (imm : BitVec 16) : Completes (encodeLoadStoreImm regType ldstType rt rn imm) IsWord := by
  refine small_bind small_new fun _ h => ?_
  refine small_bind h fun _ h => ?_
  refine small_bind h fun _ h => ?_
  refine small_bind h fun _ h => ?_
  refine small_bind h fun _ h => ?_
  refine small_bind h fun _ h => ?_
  refine small_bind h fun _ h => ?_
  refine small_bind h fun _ h => ?_
  exact word_instruction h

theorem words_wrapperEncodeMovInt32 (rd : BitVec 8) (value : BitVec 32) :
    Completes (wrapperEncodeMovInt32 rd value) Words :=
  completes_bind (word_encodeMovWide _ _ _ _ _) fun _ h₀ =>
    completes_bind (word_encodeMovWide _ _ _ _ _) fun _ h₁ =>
      completes_ok (h₀.words.append h₁.words)

theorem words_wrapperEncodeMovInt64 (rd : BitVec 8) (value : BitVec 64) :
    Completes (wrapperEncodeMovInt64 rd value) Words :=
  completes_bind (word_encodeMovWide _ _ _ _ _) fun _ h₀ =>
    completes_bind (word_encodeMovWide _ _ _ _ _) fun _ h₁ =>
      completes_bind (word_encodeMovWide _ _ _ _ _) fun _ h₂ =>
        completes_bind (word_encodeMovWide _ _ _ _ _) fun _ h₃ =>
          completes_ok (((h₀.words.append h₁.words).append h₂.words).append h₃.words)

theorem words_push (regType : RegType) (save_reg : BitVec 8) :
    Completes (WasmFunction.push regType save_reg) Words :=
  completes_bind (word_encodeLoadStoreReg _ _ _ _ _) fun _ store =>
    completes_bind (word_encodeAddSubImm _ _ _ _ _ _ _ _) fun _ up =>
      completes_ok (store.words.append up.words)

theorem words_pop (regType : RegType) (tee : Bool) (save_reg : BitVec 8) :
    Completes (WasmFunction.pop regType tee save_reg) Words := by
  refine completes_bind (word_encodeAddSubImm _ _ _ _ _ _ _ _) fun _ down => ?_
  refine completes_bind (word_encodeLoadStoreReg _ _ _ _ _) fun _ load => ?_
  cases tee with
  | false => exact completes_ok (down.words.append load.words)
  | true =>
    exact completes_bind (word_encodeAddSubImm _ _ _ _ _ _ _ _) fun _ up =>
      completes_ok ((down.words.append load.words).append up.words)

theorem words_popResults (i : Nat) (results : List wasm_type) :
    Completes (WasmFunction.popResults i results) Words := by
  induction results generalizing i with
  | nil => exact completes_ok words_nil
  | cons v results ih =>
    cases v with
    | i32 _ | i64 _ =>
      exact completes_bind (words_pop _ _ _) fun _ first =>
        completes_bind (ih (i + 1)) fun _ others => completes_ok (first.append others)
    | f32 _ | f64 _ => exact completes_error _

theorem words_select (regType : RegType) (rd rn rm : BitVec 8) (condStr : String) :
    Completes (do encodeCSEL regType rd rn rm (← condAt condStr)) IsWord :=
  completes_after fun _ => word_encodeCSEL _ _ _ _ _

theorem words_concat {calls : List (Except CppError Text)}
    (h : ∀ call ∈ calls, Completes call IsWord) : Completes (concat calls) Words := by
  induction calls with
  | nil => exact completes_ok words_nil
  | cons call rest ih =>
    refine completes_bind (h call List.mem_cons_self) fun _ first => ?_
    refine completes_bind (ih fun c hc => h c (List.mem_cons_of_mem _ hc)) fun _ others => ?_
    exact completes_ok (first.words.append others)

theorem words_getSetJmpInstr : Completes getSetJmpInstr Words := by
  apply words_concat
  simp only [List.forall_mem_cons]
  exact ⟨word_encodeLdpStp _ _ _ _ _ _ _, word_encodeLdpStp _ _ _ _ _ _ _,
    word_encodeLdpStp _ _ _ _ _ _ _, word_encodeLdpStp _ _ _ _ _ _ _,
    word_encodeLdpStp _ _ _ _ _ _ _, word_encodeLdpStp _ _ _ _ _ _ _,
    word_encodeAddSubImm _ _ _ _ _ _ _ _, word_encodeLoadStoreImm _ _ _ _ _,
    word_encodeMovWide _ _ _ _ _, word_encodeReturn, by simp⟩

theorem words_getLongJmpInstr : Completes getLongJmpInstr Words := by
  apply words_concat
  simp only [List.forall_mem_cons]
  exact ⟨word_encodeLdpStp _ _ _ _ _ _ _, word_encodeLdpStp _ _ _ _ _ _ _,
    word_encodeLdpStp _ _ _ _ _ _ _, word_encodeLdpStp _ _ _ _ _ _ _,
    word_encodeLdpStp _ _ _ _ _ _ _, word_encodeLdpStp _ _ _ _ _ _ _,
    word_encodeLoadStoreImm _ _ _ _ _, word_encodeAddSubImm _ _ _ _ _ _ _ _,
    word_encodeAddSubImm _ _ _ _ _ _ _ _, word_encodeMovWide _ _ _ _ _,
    words_select _ _ _ _ _, word_encodeBranchRegister _, by simp⟩

/-! ### The opcodes -/

/-- A relation that holds over every elementary change of the function. -/
structure Growth (R : WasmFunction → WasmFunction → Prop) : Prop where
  refl : ∀ f, R f f
  trans : ∀ {f g h}, R f g → R g h → R f h
  append : ∀ f {text}, Words text → R f (f.constructFullinstr text)
  branch : ∀ f label kind, R f (f.fakeInsertBranch label kind)
  label : ∀ f label, R f (f.insertLabel label)
  control : ∀ (f : WasmFunction) n stack, R f { f with if_label := n, control_flow_stack := stack }

namespace Growth

variable {R : WasmFunction → WasmFunction → Prop} (grows : Growth R)
include grows

theorem bind {f : WasmFunction} {call : Except CppError WasmFunction}
    {next : WasmFunction → Except CppError WasmFunction} (first : Completes call (R f))
    (second : ∀ g, Completes (next g) (R g)) : Completes (call >>= next) (R f) :=
  completes_bind first fun g step => (second g).mono fun _ later => grows.trans step later

theorem after {f g : WasmFunction} {call : Except CppError WasmFunction} (first : R f g)
    (second : Completes call (R g)) : Completes call (R f) :=
  second.mono fun _ later => grows.trans first later

theorem emit (f : WasmFunction) {call : Except CppError Text} (words : Completes call Words) :
    Completes (f.emit call) (R f) := by
  cases call with
  | error e => exact completes_error e
  | ok text => exact completes_ok (grows.append f (words text rfl))

theorem emitWord (f : WasmFunction) {call : Except CppError Text}
    (word : Completes call IsWord) : Completes (f.emit call) (R f) :=
  grows.emit f (word.mono fun _ h => h.words)

theorem emitGet (f : WasmFunction) (i : Nat) (c : TypeCategory) :
    Completes (Emit.emitGet f i c) (R f) :=
  completes_bind (word_encodeLoadStoreImm _ _ _ _ _) fun _ load =>
    completes_bind (words_push _ _) fun _ store =>
      completes_ok (grows.append f (load.words.append store))

theorem emitSet (f : WasmFunction) (i : Nat) (c : TypeCategory) (tee : Bool) :
    Completes (Emit.emitSet f i c tee) (R f) :=
  completes_bind (words_pop _ _ _) fun _ load =>
    completes_bind (word_encodeLoadStoreImm _ _ _ _ _) fun _ store =>
      completes_ok (grows.append f (load.append store.words))

theorem commonLocalOp (f : WasmFunction) (i : Nat) (opType : LocalOp) :
    Completes (Emit.commonLocalOp f i opType) (R f) := by
  refine completes_after fun code => completes_after fun index => ?_
  split
  · cases opType with
    | get => exact grows.emitGet f _ _
    | set => exact grows.emitSet f _ _ _
    | tee => exact grows.emitSet f _ _ _
  · exact completes_error _

theorem emitConst (f : WasmFunction) (elem : wasm_type) :
    Completes (Emit.emitConst f elem) (R f) := by
  cases elem with
  | i32 value =>
    exact completes_bind (words_wrapperEncodeMovInt32 _ _) fun _ load =>
      completes_bind (words_push _ _) fun _ store =>
        completes_ok (grows.append f (load.append store))
  | i64 value =>
    exact completes_bind (words_wrapperEncodeMovInt64 _ _) fun _ load =>
      completes_bind (words_push _ _) fun _ store =>
        completes_ok (grows.append f (load.append store))
  | f32 bits | f64 bits => exact completes_error _

theorem emitCompareOp (f : WasmFunction) (regtype : RegType) (condStr : String) :
    Completes (Emit.emitCompareOp f regtype condStr) (R f) := by
  have compare : Completes (do
      let f ← f.emit (encodeMovz 3 1 .xReg)
      let f ← f.emit (encodeMovz 4 0 .xReg)
      let load_second_param_instr ← WasmFunction.pop regtype false 12
      let load_first_param_instr ← WasmFunction.pop regtype false 11
      let f := f.constructFullinstr (load_second_param_instr ++ load_first_param_instr)
      let f ← f.emit (encodeCompareShift regtype 11 12)
      let f ← f.emit (do encodeCSEL .xReg 0 3 4 (← condAt condStr))
      f.emit (WasmFunction.push .xReg 0)) (R f) :=
    grows.bind (grows.emitWord f (word_encodeMovWide _ _ _ _ _)) fun g =>
    grows.bind (grows.emitWord g (word_encodeMovWide _ _ _ _ _)) fun g =>
    completes_bind (words_pop _ _ _) fun _ second =>
    completes_bind (words_pop _ _ _) fun _ first =>
    grows.after (grows.append g (second.append first)) <|
    grows.bind (grows.emitWord _ (word_encodeAddSubShift _ _ _ _ _ _ _ _)) fun g =>
    grows.bind (grows.emitWord g (words_select _ _ _ _ _)) fun g =>
    grows.emit g (words_push _ _)
  rw [Emit.emitCompareOp]
  split
  · exact completes_error _
  · exact compare

theorem emitOverflowChecks (f : WasmFunction) (regtype : RegType) :
    Completes (Emit.emitOverflowChecks f regtype) (R f) := by
  rw [Emit.emitOverflowChecks]
  split
  · exact grows.bind (grows.emit f (words_wrapperEncodeMovInt64 _ _)) fun g =>
      grows.bind (grows.emitWord g (word_encodeAddSubShift _ _ _ _ _ _ _ _)) fun g =>
      grows.after (grows.branch g _ _) <|
      grows.bind (grows.emit _ (words_wrapperEncodeMovInt64 _ _)) fun g =>
      grows.bind (grows.emitWord g (word_encodeAddSubShift _ _ _ _ _ _ _ _)) fun g =>
      completes_ok (grows.branch g _ _)
  · exact grows.bind (grows.emit f (words_wrapperEncodeMovInt32 _ _)) fun g =>
      grows.bind (grows.emitWord g (word_encodeAddSubShift _ _ _ _ _ _ _ _)) fun g =>
      grows.after (grows.branch g _ _) <|
      grows.bind (grows.emit _ (words_wrapperEncodeMovInt32 _ _)) fun g =>
      grows.bind (grows.emitWord g (word_encodeAddSubShift _ _ _ _ _ _ _ _)) fun g =>
      completes_ok (grows.branch g _ _)

theorem emitDivGuards (f : WasmFunction) (regtype : RegType) :
    Completes (Emit.emitDivGuards f regtype) (R f) :=
  grows.bind (grows.emitWord f (word_encodeAddSubImm _ _ _ _ _ _ _ _)) fun g =>
  grows.after (grows.branch g _ _) <|
  grows.bind (grows.emitOverflowChecks _ _) fun g =>
  completes_ok (grows.trans (grows.branch g _ _) (grows.label _ _))

theorem emitArithInstr (f : WasmFunction) (regtype : RegType) (opType : Char)
    (isSigned : Bool) : Completes (Emit.emitArithInstr f regtype opType isSigned) (R f) := by
  rw [Emit.emitArithInstr]
  split_ifs
  · exact grows.emitWord f (word_encodeAddSubShift _ _ _ _ _ _ _ _)
  · exact grows.emitWord f (word_encodeAddSubShift _ _ _ _ _ _ _ _)
  · exact grows.emitWord f (word_encodeMul _ _ _ _)
  · exact grows.bind (grows.emitDivGuards f regtype) fun g =>
      grows.emitWord g (word_encodeDiv _ _ _ _ _)

theorem emitArithOp (f : WasmFunction) (typeInfo opType : Char) (isSigned : Bool) :
    Completes (Emit.emitArithOp f typeInfo opType isSigned) (R f) := by
  rw [Emit.emitArithOp]
  split
  · exact completes_error _
  · exact completes_after fun regtype => completes_bind (words_pop _ _ _) fun _ second =>
      completes_bind (words_pop _ _ _) fun _ first =>
      grows.after (grows.append f (second.append first)) <|
      grows.bind (grows.emitArithInstr _ regtype opType isSigned) fun g =>
      grows.emit g (words_push _ _)

theorem emitIfOp (f : WasmFunction) (i : Nat) : Completes (Emit.emitIfOp f i) (R f) := by
  refine completes_after fun _ => completes_after fun signature => ?_
  let opened : WasmFunction := { f with
    if_label := f.if_label + 1
    control_flow_stack := { label := ifLabel f.if_label, signature } :: f.control_flow_stack }
  have open_block : R f opened := grows.control f _ _
  exact grows.after open_block <|
    grows.bind (grows.emit opened (words_pop _ _ _)) fun g =>
    grows.bind (grows.emitWord g (word_encodeAddSubImm _ _ _ _ _ _ _ _)) fun g =>
    completes_ok (grows.branch g _ _)

theorem emitElseOp (f : WasmFunction) : Completes (Emit.emitElseOp f) (R f) := by
  rw [Emit.emitElseOp]
  cases f.control_flow_stack with
  | nil => exact completes_error _
  | cons element rest =>
    let renamed : WasmFunction := { f with
      if_label := f.if_label + 1
      control_flow_stack := { element with label := elseLabel f.if_label } :: rest }
    have rename_block : R f renamed := grows.control f _ _
    exact completes_ok
      (grows.trans rename_block (grows.trans (grows.branch renamed _ _) (grows.label _ _)))

theorem emitEndOp (f : WasmFunction) : Completes (Emit.emitEndOp f) (R f) := by
  rw [Emit.emitEndOp]
  cases f.control_flow_stack with
  | nil => exact completes_error _
  | cons element rest =>
    let closed : WasmFunction := { f with control_flow_stack := rest }
    have close_block : R f closed := grows.control f f.if_label rest
    exact completes_ok (grows.trans close_block (grows.label _ _))

/-! ### The loop -/

theorem jitOne (f : WasmFunction) (i : Nat) :
    Completes (Emit.jitOne f i) fun turned => R f turned.1 := by
  have step : ∀ {call : Except CppError WasmFunction} {n : Nat}, Completes call (R f) →
      Completes (call >>= fun g => pure (g, i + n)) fun turned => R f turned.1 :=
    fun first => completes_bind first fun _ h => completes_ok h
  refine completes_after fun code => ?_
  cases opcodeOf code with
  | nop => exact step (grows.emitWord f word_encodeNop)
  | «if» => exact step (grows.emitIfOp f _)
  | «else» => exact step (grows.emitElseOp f)
  | ret => exact completes_ok (grows.refl f)
  | «end» => exact step (grows.emitEndOp f)
  | localOp opType => exact step (grows.commonLocalOp f i opType)
  | i32const | i64const =>
    exact completes_after fun _ => completes_after fun _ => step (grows.emitConst f _)
  | f32const | f64const => exact completes_after fun _ => step (grows.emitConst f _)
  | compare regtype condStr => exact step (grows.emitCompareOp f regtype condStr)
  | arith typeInfo opType isSigned =>
    exact step (grows.emitArithOp f typeInfo opType isSigned)
  | unknown => exact completes_ok (grows.refl f)

theorem jitLoop (fuel : Nat) (f : WasmFunction) (i : Nat) :
    Completes (Emit.jitLoop fuel f i) (R f) := by
  induction fuel generalizing f i with
  | zero =>
    rw [Emit.jitLoop]
    split
    · exact completes_error _
    · exact completes_ok (grows.refl f)
  | succ fuel ih =>
    rw [Emit.jitLoop]
    split
    · exact completes_bind (grows.jitOne f i) fun turned step =>
        (ih turned.1 turned.2).mono fun _ later => grows.trans step later
    · exact completes_ok (grows.refl f)

theorem jiting_wasm_code (f : WasmFunction) (i : Nat) :
    Completes (Emit.jiting_wasm_code f i) (R f) :=
  grows.after (grows.control f f.if_label _) (grows.jitLoop f.code_vec.length _ i)

/-! ### Around the loop -/

theorem emitStubs (f : WasmFunction) : Completes (Emit.emitStubs f) (R f) :=
  grows.after (grows.trans (grows.branch f _ _) (grows.label _ _)) <|
  grows.bind (grows.emit _ words_getSetJmpInstr) fun g =>
  grows.after (grows.label g _) <|
  grows.bind (grows.emitWord _ (word_encodeMovRegister _ _ _)) fun g =>
  grows.bind (grows.emitWord g (word_encodeAddSubImm _ _ _ _ _ _ _ _)) fun g =>
  grows.bind (grows.emitWord g (word_encodeMovRegister _ _ _)) fun g =>
  grows.after (grows.trans (grows.branch g _ _) (grows.label _ _)) <|
  grows.bind (grows.emit _ words_getLongJmpInstr) fun g =>
  grows.after (grows.label g _) <|
  grows.bind (grows.emitWord _ (word_encodeMovRegister _ _ _)) fun g =>
  grows.bind (grows.emitWord g (word_encodeAddSubImm _ _ _ _ _ _ _ _)) fun g =>
  grows.bind (grows.emitWord g (word_encodeMovWide _ _ _ _ _)) fun g =>
  grows.bind (grows.emitWord g (word_encodeLoadStoreImm _ _ _ _ _)) fun g =>
  completes_ok (grows.branch g _ _)

theorem wrapper_setjmp (f : WasmFunction) : Completes (Emit.wrapper_setjmp f) (R f) :=
  grows.bind (grows.emitWord f (word_encodeLdpStp _ _ _ _ _ _ _)) fun g =>
  grows.bind (grows.emitWord g (word_encodeMovRegister _ _ _)) fun g =>
  grows.after (grows.branch g _ _) <|
  grows.bind (grows.emitWord _ (word_encodeAddSubImm _ _ _ _ _ _ _ _)) fun g =>
  grows.after (grows.branch g _ _) (grows.emitWord _ (word_encodeLdpStp _ _ _ _ _ _ _))

theorem restoreSP (f : WasmFunction) : Completes f.restoreSP (R f) :=
  completes_bind (words_popResults _ _) fun _ results =>
    completes_bind (word_encodeAddSubImm _ _ _ _ _ _ _ _) fun _ restore =>
      completes_ok (grows.append f (results.append restore.words))

theorem main_entry_finalize (f : WasmFunction) :
    Completes (Emit.main_entry_finalize f) (R f) :=
  grows.bind (grows.restoreSP f) fun g => grows.emitWord g word_encodeReturn

end Growth

end CodeGrowth
