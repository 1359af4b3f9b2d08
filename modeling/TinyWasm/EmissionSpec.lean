import TinyWasm.CodeItems

/-!
# The emitted text carries the items

`Represents` ties a function under compilation to the items emitted so far: its
text, its recorded labels and its pending branches. Each emission function is
shown to append the items of its block, and to keep the rest of the state.
-/

namespace EmissionSpec

open BitFields HexText Opcode Wasm Emit ArmInstruction EncoderCorrectness LabelledCode
open SourceBody CodeItems

/-- The word `FFFFFFFF` that keeps the place of a branch. -/
def placeholder : Word := 0xFFFFFFFF

theorem placeholder_text : "FFFFFFFF".toList = wordText placeholder := by decide

theorem decode_placeholder : decode placeholder = none := by decide

/-- The words carry the items: instructions are encoded, branches are placeholders. -/
inductive Carries : List CodeItem → List Word → Prop where
  | nil : Carries [] []
  | ins {i : Instr} {w : Word} {xs : List CodeItem} {ws : List Word} (word : decode w = some i)
      (rest : Carries xs ws) : Carries (.ins i :: xs) (w :: ws)
  | jump {l : String} {k : BranchKind} {xs : List CodeItem} {ws : List Word}
      (rest : Carries xs ws) : Carries (.jump l k :: xs) (placeholder :: ws)
  | label {n : String} {xs : List CodeItem} {ws : List Word} (rest : Carries xs ws) :
      Carries (.label n :: xs) ws

theorem Carries.append {xs ys : List CodeItem} {ws vs : List Word} (h : Carries xs ws)
    (h' : Carries ys vs) : Carries (xs ++ ys) (ws ++ vs) := by
  induction h with
  | nil => exact h'
  | ins word rest ih => exact .ins word ih
  | jump rest ih => exact .jump ih
  | label rest ih => exact .label ih

theorem Carries.length {xs : List CodeItem} {ws : List Word} (h : Carries xs ws) :
    ws.length = size xs := by
  induction h with
  | nil => rfl
  | ins word rest ih => simp [ih, Nat.add_comm]
  | jump rest ih => simp [ih, Nat.add_comm]
  | label rest ih => simp [ih]

theorem carries_block {block : List Instr} {ws : List Word} (h : ws.map decode = block.map some) :
    Carries (CodeItems.ins block) ws := by
  induction block generalizing ws with
  | nil =>
    rw [List.map_nil, List.map_eq_nil_iff] at h
    subst h
    exact .nil
  | cons i block ih =>
    cases ws with
    | nil => simp at h
    | cons w ws =>
      rw [List.map_cons, List.map_cons, List.cons.injEq] at h
      exact .ins h.1 (ih h.2)

theorem flatMap_wordText_length (ws : List Word) :
    (ws.flatMap wordText).length = 8 * ws.length := by
  induction ws with
  | nil => rfl
  | cons w ws ih =>
    rw [List.flatMap_cons, List.length_append, ih, wordText_length, List.length_cons]
    omega

/-! ### Sequences of encoder calls -/

/-- The call prints these instructions one after the other. -/
def YieldsAll (call : Except CppError Text) (block : List Instr) : Prop :=
  ∃ ws : List Word, call = .ok (ws.flatMap wordText) ∧ ws.map decode = block.map some

theorem yieldsAll_of_yields {call : Except CppError Text} {i : Instr} (h : Yields call i) :
    YieldsAll call [i] := by
  obtain ⟨w, hw, hd⟩ := h
  exact ⟨[w], by rw [hw, List.flatMap_singleton], by simp [hd]⟩

theorem YieldsAll.append {first second : Except CppError Text} {is js : List Instr}
    (h : YieldsAll first is) (h' : YieldsAll second js) :
    YieldsAll (do let a ← first; let b ← second; return a ++ b) (is ++ js) := by
  obtain ⟨ws, rfl, hws⟩ := h
  obtain ⟨vs, rfl, hvs⟩ := h'
  exact ⟨ws ++ vs, by rw [List.flatMap_append]; rfl,
    by rw [List.map_append, hws, hvs, List.map_append]⟩

theorem yieldsAll_concat_nil : YieldsAll (concat []) [] := ⟨[], rfl, rfl⟩

theorem yieldsAll_concat_cons {call : Except CppError Text} {calls : List (Except CppError Text)}
    {i : Instr} {block : List Instr} (h : Yields call i) (rest : YieldsAll (concat calls) block) :
    YieldsAll (concat (call :: calls)) (i :: block) :=
  (yieldsAll_of_yields h).append rest

/-! ### Text, labels and pending branches -/

def entry (j : String × Nat × BranchKind) : FakeBranch := (j.1, 8 * j.2.1, j.2.2.text)

structure Represents (f : WasmFunction) (items : List CodeItem) : Prop where
  words : ∃ ws, Carries items ws ∧ f.wasm_instructions = ws.flatMap wordText
  jumps : f.fake_insert_map = (jumps 0 items).map entry
  labels : ∀ name, f.label_map.lookup name = ((labels 0 items).lookup name).map (8 * ·)

theorem Represents.length {f : WasmFunction} {items : List CodeItem} (h : Represents f items) :
    f.wasm_instructions.length = 8 * size items := by
  obtain ⟨ws, carries, text⟩ := h.words
  rw [text, flatMap_wordText_length, carries.length]

theorem represents_empty {f : WasmFunction} (text : f.wasm_instructions = [])
    (branches : f.fake_insert_map = []) (labels : f.label_map = []) : Represents f [] :=
  ⟨⟨[], .nil, text⟩, branches, fun name => by rw [labels]; rfl⟩

/-- From `f` to `g` the items `xs` are emitted, and only the text, the branches, the
labels and the control stack with its counter are touched. -/
structure Extends (f : WasmFunction) (xs : List CodeItem) (g : WasmFunction) : Prop where
  code : ∀ items, Represents f items → Represents g (items ++ xs)
  rest : g = { f with
    wasm_instructions := g.wasm_instructions
    fake_insert_map := g.fake_insert_map
    label_map := g.label_map
    if_label := g.if_label
    control_flow_stack := g.control_flow_stack }

theorem Extends.refl (f : WasmFunction) : Extends f [] f :=
  ⟨fun items h => by rwa [List.append_nil], rfl⟩

theorem Extends.trans {f g h : WasmFunction} {xs ys : List CodeItem} (first : Extends f xs g)
    (second : Extends g ys h) : Extends f (xs ++ ys) h := by
  refine ⟨fun items hi => ?_, ?_⟩
  · rw [← List.append_assoc]
    exact second.code _ (first.code _ hi)
  · obtain ⟨-, hg⟩ := first
    obtain ⟨-, hh⟩ := second
    rw [hg] at hh
    exact hh

/-- The call emits the items, and leaves the control stack and its counter alone. -/
def Emits (call : Except CppError WasmFunction) (f : WasmFunction) (xs : List CodeItem) : Prop :=
  ∃ g, call = .ok g ∧ Extends f xs g ∧ g.if_label = f.if_label ∧
    g.control_flow_stack = f.control_flow_stack

theorem Emits.bind {call : Except CppError WasmFunction} {f : WasmFunction}
    {xs ys : List CodeItem} {next : WasmFunction → Except CppError WasmFunction}
    (first : Emits call f xs) (second : ∀ g, Extends f xs g → Emits (next g) g ys) :
    Emits (call >>= next) f (xs ++ ys) := by
  obtain ⟨g, rfl, hg, label, control⟩ := first
  obtain ⟨h, hnext, hh, label', control'⟩ := second g hg
  exact ⟨h, hnext, hg.trans hh, by rw [label', label], by rw [control', control]⟩

theorem emits_pure (f : WasmFunction) : Emits (.ok f) f [] := ⟨f, rfl, .refl f, rfl, rfl⟩

theorem emits_text {f : WasmFunction} {ws : List Word} {block : List Instr}
    (h : ws.map decode = block.map some) :
    Emits (.ok (f.constructFullinstr (ws.flatMap wordText))) f (CodeItems.ins block) := by
  refine ⟨_, rfl, ⟨fun items hf => ?_, rfl⟩, rfl, rfl⟩
  obtain ⟨vs, carries, text⟩ := hf.words
  refine ⟨⟨vs ++ ws, carries.append (carries_block h), ?_⟩, ?_, fun name => ?_⟩
  · rw [List.flatMap_append, ← text]
    rfl
  · rw [jumps_append, CodeItems.ins, jumps_map_ins, List.append_nil]
    exact hf.jumps
  · rw [labels_append, CodeItems.ins, labels_map_ins, List.append_nil]
    exact hf.labels name

theorem emits_emit {f : WasmFunction} {call : Except CppError Text} {block : List Instr}
    (h : YieldsAll call block) : Emits (f.emit call) f (CodeItems.ins block) := by
  obtain ⟨ws, rfl, hd⟩ := h
  exact emits_text hd

theorem emits_fakeInsertBranch (f : WasmFunction) (l : String) (k : BranchKind) :
    Emits (.ok (f.fakeInsertBranch l k.text)) f [.jump l k] := by
  refine ⟨_, rfl, ⟨fun items hf => ?_, rfl⟩, rfl, rfl⟩
  obtain ⟨vs, carries, text⟩ := hf.words
  refine ⟨⟨vs ++ [placeholder], carries.append (.jump .nil), ?_⟩, ?_, fun name => ?_⟩
  · rw [List.flatMap_append, ← text, List.flatMap_singleton, ← placeholder_text]
    rfl
  · rw [jumps_append, List.map_append, ← hf.jumps]
    simp only [WasmFunction.fakeInsertBranch, WasmFunction.constructFullinstr, hf.length,
      LabelledCode.jumps, List.map_cons, List.map_nil, entry, Nat.zero_add]
  · rw [labels_append, LabelledCode.labels, LabelledCode.labels, List.append_nil]
    exact hf.labels name

theorem lookup_append {β : Type} (name : String) (xs ys : List (String × β)) :
    (xs ++ ys).lookup name = (xs.lookup name).or (ys.lookup name) := by
  induction xs with
  | nil => rfl
  | cons x xs ih =>
    rw [List.cons_append, show x = (x.1, x.2) from rfl, List.lookup_cons, List.lookup_cons, ih]
    cases name == x.1 <;> rfl

theorem emits_insertLabel (f : WasmFunction) (name : String) :
    Emits (.ok (f.insertLabel name)) f [.label name] := by
  refine ⟨_, rfl, ⟨fun items hf => ?_, ?_⟩, ?_, ?_⟩
  · obtain ⟨vs, carries, text⟩ := hf.words
    have place := hf.length
    have known := hf.labels name
    refine ⟨⟨vs ++ [], carries.append (.label .nil), ?_⟩, ?_, fun other => ?_⟩
    · rw [List.append_nil, ← text, WasmFunction.insertLabel]
      split <;> rfl
    · rw [jumps_append, LabelledCode.jumps, LabelledCode.jumps, List.append_nil, ← hf.jumps,
        WasmFunction.insertLabel]
      split <;> rfl
    · rw [labels_append, lookup_append, Option.map_or, ← hf.labels other,
        WasmFunction.insertLabel]
      simp only [LabelledCode.labels, Nat.zero_add]
      by_cases seen : (f.label_map.lookup name).isSome
      · rw [if_pos seen]
        by_cases same : other = name
        · subst same
          obtain ⟨q, hq⟩ := Option.isSome_iff_exists.mp seen
          rw [hq]
          rfl
        · rw [show List.lookup other [(name, size items)] = none by
            simp [List.lookup_cons, beq_false_of_ne same], Option.map_none, Option.or_none]
      · rw [if_neg seen]
        simp only [lookup_append, place]
        by_cases same : other = name
        · subst same
          simp
        · simp [List.lookup_cons, beq_false_of_ne same]
  · rw [WasmFunction.insertLabel]
    split <;> rfl
  · rw [WasmFunction.insertLabel]
    split <;> rfl
  · rw [WasmFunction.insertLabel]
    split <;> rfl

/-! ### Stack operations and constants -/

theorem stackPointer_yields (isSub : Bool) :
    Yields (encodeAddSubImm .xReg isSub REG_POINTER_WASM_STACK REG_POINTER_WASM_STACK 8)
      (.addSubImm isSub false .x 21 21 8 false) :=
  encodeAddSubImm_yields .xReg isSub false false (by decide) (by decide) (by decide) (by decide)

theorem stackAccess_yields (regType : RegType) (ldstType : LdStType) {reg : BitVec 8}
    (hr : reg.toNat < 32) :
    Yields (encodeLoadStoreReg regType ldstType reg REG_WASM_STACK REG_POINTER_WASM_STACK)
      (.ldrStrReg (decide (ldstType = .ldr)) (widthOf regType) (reg.setWidth 5) 20 21 .lsl
        false) :=
  encodeLoadStoreReg_yields regType ldstType .lsl hr (by decide) (by decide)

theorem push_yields (regType : RegType) {reg : BitVec 8} (hr : reg.toNat < 32) :
    YieldsAll (WasmFunction.push regType reg) (pushBlock (widthOf regType) (reg.setWidth 5)) :=
  (yieldsAll_of_yields (stackAccess_yields regType .str hr)).append
    (yieldsAll_of_yields (stackPointer_yields false))

theorem pop_yields (regType : RegType) {reg : BitVec 8} (hr : reg.toNat < 32) :
    YieldsAll (WasmFunction.pop regType false reg)
      (popBlock (widthOf regType) (reg.setWidth 5)) :=
  (yieldsAll_of_yields (stackPointer_yields true)).append
    (yieldsAll_of_yields (stackAccess_yields regType .ldr hr))

theorem tee_yields (regType : RegType) {reg : BitVec 8} (hr : reg.toNat < 32) :
    YieldsAll (WasmFunction.pop regType true reg)
      (teeBlock (widthOf regType) (reg.setWidth 5)) := by
  obtain ⟨down, hdown, ddown⟩ := stackPointer_yields true
  obtain ⟨load, hload, dload⟩ := stackAccess_yields regType .ldr hr
  obtain ⟨up, hup, dup⟩ := stackPointer_yields false
  refine ⟨[down, load, up], ?_, by simp [teeBlock, popBlock, ddown, dload, dup]⟩
  rw [WasmFunction.pop, hdown, ok_bind, hload, ok_bind, if_pos rfl, hup]
  simp [ok_bind, pure, Except.pure]

/-- The sixteen bits the wrappers cut out of a value. -/
theorem halfWord {n : Nat} (value : BitVec n) (k : Nat) (fits : k + 16 ≤ n) :
    (value.sshiftRight k &&& 0xFFFF).setWidth 16 = field k 16 value := by
  apply BitVec.eq_of_getLsbD_eq
  intro i hi
  have mask : (0xFFFF : BitVec n).getLsbD i = true := by
    rw [show (0xFFFF : BitVec n) = BitVec.ofNat n (2 ^ 16 - 1) from rfl, BitVec.getLsbD_ofNat,
      Nat.testBit_two_pow_sub_one]
    simp [hi]
    omega
  have inside : k + i < n := by omega
  simp only [BitVec.getLsbD_setWidth, BitVec.getLsbD_and, mask, field,
    BitVec.getLsbD_extractLsb', BitVec.getLsbD_sshiftRight, hi, inside]
  simp
  omega

theorem halfWord_low {n : Nat} (value : BitVec n) (fits : 16 ≤ n) :
    (value &&& 0xFFFF).setWidth 16 = field 0 16 value := by
  have h := halfWord value 0 (by omega)
  rwa [BitVec.sshiftRight_zero] at h

theorem movConst32_yields {rd : BitVec 8} (value : BitVec 32) (hd : rd.toNat < 32) :
    YieldsAll (wrapperEncodeMovInt32 rd value) (mov32 (rd.setWidth 5) value) := by
  rw [wrapperEncodeMovInt32, halfWord_low value (by decide), halfWord value 16 (by decide)]
  exact (yieldsAll_of_yields (encodeMovWide_yields .movz .wReg 0 _ hd (by decide))).append
    (yieldsAll_of_yields (encodeMovWide_yields .movk .wReg 16 _ hd (by decide)))

theorem movConst64_yields {rd : BitVec 8} (value : BitVec 64) (hd : rd.toNat < 32) :
    YieldsAll (wrapperEncodeMovInt64 rd value) (mov64 (rd.setWidth 5) value) := by
  rw [wrapperEncodeMovInt64, halfWord_low value (by decide), halfWord value 16 (by decide),
    halfWord value 32 (by decide), halfWord value 48 (by decide)]
  obtain ⟨w0, h0, d0⟩ := encodeMovWide_yields .movz .xReg 0 (field 0 16 value) hd
    (by decide)
  obtain ⟨w1, h1, d1⟩ := encodeMovWide_yields .movk .xReg 16 (field 16 16 value) hd
    (by decide)
  obtain ⟨w2, h2, d2⟩ := encodeMovWide_yields .movk .xReg 32 (field 32 16 value) hd
    (by decide)
  obtain ⟨w3, h3, d3⟩ := encodeMovWide_yields .movk .xReg 48 (field 48 16 value) hd
    (by decide)
  refine ⟨[w0, w1, w2, w3], ?_, ?_⟩
  · change (do
      let instr_0 ← encodeMovWide (movBits .movz) rd _ .xReg 0 true
      let instr_1 ← encodeMovWide (movBits .movk) rd _ .xReg 16 true
      let instr_2 ← encodeMovWide (movBits .movk) rd _ .xReg 32 true
      let instr_3 ← encodeMovWide (movBits .movk) rd _ .xReg 48 true
      return instr_0 ++ instr_1 ++ instr_2 ++ instr_3) = _
    rw [h0, ok_bind, h1, ok_bind, h2, ok_bind, h3, ok_bind]
    simp [pure, Except.pure]
  · simp only [List.map_cons, List.map_nil, d0, d1, d2, d3, mov64]
    rfl

/-- Two pieces of text printed at once. -/
theorem emits_two {f : WasmFunction} {first second : Except CppError Text}
    {is js : List Instr} (h : YieldsAll first is) (h' : YieldsAll second js) :
    Emits (do let a ← first; let b ← second; return f.constructFullinstr (a ++ b)) f
      (CodeItems.ins (is ++ js)) := by
  obtain ⟨ws, rfl, hws⟩ := h
  obtain ⟨vs, rfl, hvs⟩ := h'
  have both := emits_text (f := f) (show (ws ++ vs).map decode = (is ++ js).map some by
    rw [List.map_append, hws, hvs, List.map_append])
  rwa [List.flatMap_append] at both

/-! ### What one opcode emits -/

/-- The slot of a variable is within reach of the encoder. -/
def Reachable (regType : RegType) (offset : Int) : Prop := scaledOffset regType offset < 4096

theorem variableAccess_yields {regType : RegType} (ldstType : LdStType) {reg : BitVec 8}
    {offset : Int} (hr : reg.toNat < 32) (reach : Reachable regType offset) :
    Yields (encodeLoadStoreImm regType ldstType reg 31 (BitVec.ofInt 16 offset))
      (.ldrStrImm (decide (ldstType = .ldr)) (slotOf regType offset).width .unsignedOffset
        (reg.setWidth 5) 31 (slotOf regType offset).offset) := by
  have h := encodeLoadStoreImm_unsigned_yields regType ldstType hr (show (31 : BitVec 8).toNat < 32
    by decide) reach
  rw [slotOf, Nat.cast_mul]
  exact h

theorem emitConst_emits (f : WasmFunction) :
    (∀ v, Emits (emitConst f (.i32 v)) f (CodeItems.ins (mov32 11 v ++ pushBlock .w 11))) ∧
      ∀ v, Emits (emitConst f (.i64 v)) f (CodeItems.ins (mov64 11 v ++ pushBlock .x 11)) :=
  ⟨fun v => emits_two (movConst32_yields v (by decide)) (push_yields .wReg (by decide)),
    fun v => emits_two (movConst64_yields v (by decide)) (push_yields .xReg (by decide))⟩

/-- The register type of a width. -/
def regTypeOf : Width → RegType
  | .w => .wReg
  | .x => .xReg

theorem widthOf_regTypeOf (width : Width) : widthOf (regTypeOf width) = width := by
  cases width <;> rfl

/-- Where `commonLocalOp` looks a variable index up. -/
def varOf (f : WasmFunction) (index : Nat) : TypeCategory × Nat :=
  if index < f.param_data.length then (.PARAM, index)
  else (.LOCAL, index - f.param_data.length)

/-- The maps of the function describe the frame, and every slot is within reach. -/
structure HasFrame (f : WasmFunction) (frame : Frame) : Prop where
  count : frame.length = f.param_data.length + f.local_data.length
  slot : ∀ (index : Nat) (s : Slot), frame[index]? = some s →
    Reachable (f.regTypeGetter (varOf f index).1 (varOf f index).2)
      (f.vecToStack (varOf f index).1 (varOf f index).2) ∧
    s = slotOf (f.regTypeGetter (varOf f index).1 (varOf f index).2)
      (f.vecToStack (varOf f index).1 (varOf f index).2)

theorem HasFrame.extends {f g : WasmFunction} {frame : Frame} {xs : List CodeItem}
    (h : HasFrame f frame) (step : Extends f xs g) : HasFrame g frame := by
  rw [step.rest]
  exact ⟨h.count, h.slot⟩

theorem codeAt_of_drop {f : WasmFunction} {i : Nat} {code : Text} {rest : List Text}
    (h : f.code_vec.drop i = code :: rest) :
    f.codeAt i = .ok code ∧ f.code_vec.drop (i + 1) = rest ∧ i < f.code_vec.length := by
  have inside : i < f.code_vec.length := by
    by_contra outside
    rw [List.drop_eq_nil_of_le (Nat.le_of_not_lt outside)] at h
    exact List.cons_ne_nil _ _ h.symm
  have here : f.code_vec[i]? = some code := by
    rw [← Nat.add_zero i, ← List.getElem?_drop, h]
    rfl
  refine ⟨by rw [WasmFunction.codeAt, here], ?_, inside⟩
  rw [← List.drop_drop, h]
  rfl

/-- The register type and the offset the maps hold for a variable index. -/
def varAccess (f : WasmFunction) (index : Nat) : RegType × Int :=
  (f.regTypeGetter (varOf f index).1 (varOf f index).2,
    f.vecToStack (varOf f index).1 (varOf f index).2)

/-- What an access to a known variable emits. -/
def emitLocal (f : WasmFunction) (index : Nat) : LocalOp → Except CppError WasmFunction
  | .get => emitGet f (varOf f index).2 (varOf f index).1
  | .set => emitSet f (varOf f index).2 (varOf f index).1
  | .tee => emitSet f (varOf f index).2 (varOf f index).1 true

theorem commonLocalOp_known {f : WasmFunction} (opType : LocalOp) {index i : Nat} {code : Text}
    (hcode : f.codeAt (i + 1) = .ok code) (value : stoul code = .ok index)
    (known : index < f.param_data.length + f.local_data.length) :
    commonLocalOp f i opType = emitLocal f index opType := by
  rw [commonLocalOp, hcode, ok_bind, value, ok_bind, if_pos known]
  cases opType <;> rfl

theorem localOp_emits {f : WasmFunction} (opType : LocalOp) {index i : Nat} {code : Text}
    (hcode : f.codeAt (i + 1) = .ok code) (value : stoul code = .ok index)
    (known : index < f.param_data.length + f.local_data.length)
    (reach : Reachable (varAccess f index).1 (varAccess f index).2) :
    Emits (commonLocalOp f i opType) f (CodeItems.ins
      (localBlock (slotOf (varAccess f index).1 (varAccess f index).2) opType)) := by
  have load := variableAccess_yields .ldr (show (11 : BitVec 8).toNat < 32 by decide) reach
  have store := variableAccess_yields .str (show (11 : BitVec 8).toNat < 32 by decide) reach
  rw [commonLocalOp_known opType hcode value known]
  cases opType with
  | get => exact emits_two (yieldsAll_of_yields load) (push_yields _ (by decide))
  | set => exact emits_two (pop_yields _ (by decide)) (yieldsAll_of_yields store)
  | tee => exact emits_two (tee_yields _ (by decide)) (yieldsAll_of_yields store)

theorem commonLocalOp_emits {f : WasmFunction} {frame : Frame} (hf : HasFrame f frame)
    (opType : LocalOp) {index : Byte} {slot : Slot} (hslot : frame[index.toNat]? = some slot)
    {i : Nat} (hcode : f.codeAt (i + 1) = .ok (hexByte index)) :
    Emits (commonLocalOp f i opType) f (CodeItems.ins (localBlock slot opType)) := by
  obtain ⟨reach, rfl⟩ := hf.slot _ _ hslot
  have known : index.toNat < f.param_data.length + f.local_data.length := by
    rw [← hf.count]
    exact (List.getElem?_eq_some_iff.mp hslot).1
  exact localOp_emits opType hcode (stoul_hexByte_toNat index) known reach

/-- The condition a comparison is compiled to, as the condition table spells it. -/
def condStrOf : Comparison → String
  | .eq => "eq"
  | .ne => "ne"
  | .lt_s => "lt"
  | .lt_u => "cc"
  | .gt_s => "gt"
  | .gt_u => "hi"
  | .le_s => "le"
  | .le_u => "ls"
  | .ge_s => "ge"
  | .ge_u => "cs"

/-- The register numbers the program uses are registers. -/
theorem isReg (n : Nat) (h : n < 32 := by decide) : (BitVec.ofNat 8 n).toNat < 32 := by
  rw [BitVec.toNat_ofNat]
  omega

theorem condAt_known (c : Comparison) :
    ∃ cond : BitVec 8, condAt (condStrOf c) = .ok cond ∧ cond.toNat < 16 ∧
      cond.setWidth 4 = condOf c := by
  cases c with
  | eq => exact ⟨0, by decide, by decide, by decide⟩
  | ne => exact ⟨1, by decide, by decide, by decide⟩
  | lt_s => exact ⟨0b1011, by decide, by decide, by decide⟩
  | lt_u => exact ⟨0b0011, by decide, by decide, by decide⟩
  | gt_s => exact ⟨0b1100, by decide, by decide, by decide⟩
  | gt_u => exact ⟨0b1000, by decide, by decide, by decide⟩
  | le_s => exact ⟨0b1101, by decide, by decide, by decide⟩
  | le_u => exact ⟨0b1001, by decide, by decide, by decide⟩
  | ge_s => exact ⟨0b1010, by decide, by decide, by decide⟩
  | ge_u => exact ⟨0b0010, by decide, by decide, by decide⟩

theorem select_yields (c : Comparison) {rd rn rm : BitVec 8} (hd : rd.toNat < 32)
    (hn : rn.toNat < 32) (hm : rm.toNat < 32) :
    Yields (do encodeCSEL .xReg rd rn rm (← condAt (condStrOf c)))
      (.csel .x (rd.setWidth 5) (rn.setWidth 5) (rm.setWidth 5) (condOf c)) := by
  obtain ⟨cond, hcond, small, same⟩ := condAt_known c
  rw [hcond, ok_bind, ← same]
  exact encodeCSEL_yields .xReg hd hn hm small

theorem ins_append (is js : List Instr) :
    CodeItems.ins (is ++ js) = CodeItems.ins is ++ CodeItems.ins js := by
  simp [CodeItems.ins]

theorem cmp_yields (width : Width) {rn rm : BitVec 8} (hn : rn.toNat < 32) (hm : rm.toNat < 32) :
    Yields (encodeCompareShift (regTypeOf width) rn rm)
      (cmp width (rn.setWidth 5) (rm.setWidth 5)) := by
  have amount : (0 : BitVec 8).toNat < if regTypeOf width = .xReg then 64 else 32 := by
    split <;> decide
  have h := encodeAddSubShift_yields true (regTypeOf width) true (isReg 31) hn hm amount
    (show (0 : BitVec 8).toNat < 3 by decide)
  rw [widthOf_regTypeOf] at h
  exact h

theorem cmpZero_yields (width : Width) {rn : BitVec 8} (hn : rn.toNat < 32) :
    Yields (encodeCompareImm (regTypeOf width) rn 0) (cmpZero width (rn.setWidth 5)) := by
  have h := encodeAddSubImm_yields (regTypeOf width) true true true (isReg 31) hn
    (show (0 : BitVec 16).toNat < 4096 by decide) (show (0 : BitVec 8).toNat < 2 by decide)
  rw [widthOf_regTypeOf] at h
  exact h

/-- Two pieces of text printed at once, and what is emitted after them. -/
theorem emits_two_bind {f : WasmFunction} {first second : Except CppError Text}
    {is js : List Instr} {ys : List CodeItem} {next : WasmFunction → Except CppError WasmFunction}
    (h : YieldsAll first is) (h' : YieldsAll second js) (after : ∀ g, Emits (next g) g ys) :
    Emits (do let a ← first; let b ← second; next (f.constructFullinstr (a ++ b))) f
      (CodeItems.ins (is ++ js) ++ ys) := by
  have both := (emits_two (f := f) h h').bind fun g _ => after g
  obtain ⟨ws, rfl, hws⟩ := h
  obtain ⟨vs, rfl, hvs⟩ := h'
  exact both

theorem emits_emit_bind {f : WasmFunction} {call : Except CppError Text} {i : Instr}
    {ys : List CodeItem} {next : WasmFunction → Except CppError WasmFunction}
    (h : Yields call i) (after : ∀ g, Emits (next g) g ys) :
    Emits (f.emit call >>= next) f (.ins i :: ys) :=
  (emits_emit (yieldsAll_of_yields h)).bind fun g _ => after g

theorem emitCompareOp_emits (f : WasmFunction) (width : Width) (c : Comparison) :
    Emits (emitCompareOp f (regTypeOf width) (condStrOf c)) f
      (CodeItems.ins (opBlock [] (.compare width c))) := by
  have sized : ¬ (regTypeOf width ≠ .xReg ∧ regTypeOf width ≠ .wReg) := by
    cases width <;> simp [regTypeOf]
  have popSecond := pop_yields (regTypeOf width) (isReg 12)
  have popFirst := pop_yields (regTypeOf width) (isReg 11)
  rw [widthOf_regTypeOf] at popSecond popFirst
  rw [emitCompareOp, if_neg sized]
  exact emits_emit_bind (encodeMovWide_yields .movz .xReg 0 1 (isReg 3) (by decide)) fun _ =>
    emits_emit_bind (encodeMovWide_yields .movz .xReg 0 0 (isReg 4) (by decide)) fun _ =>
    emits_two_bind popSecond popFirst fun _ =>
    emits_emit_bind (cmp_yields width (isReg 11) (isReg 12)) fun _ =>
    emits_emit_bind (select_yields c (isReg 0) (isReg 3) (isReg 4)) fun _ =>
      emits_emit (push_yields .xReg (isReg 0))

/-- A call that starts behind a placed branch starts in front of it. -/
theorem emits_jump {f : WasmFunction} (l : String) (k : BranchKind) {ys : List CodeItem}
    {call : Except CppError WasmFunction} (after : Emits call (f.fakeInsertBranch l k.text) ys) :
    Emits call f (.jump l k :: ys) := by
  obtain ⟨g, hg, step, label, control⟩ := emits_fakeInsertBranch f l k
  cases hg
  obtain ⟨h, hcall, step', label', control'⟩ := after
  exact ⟨h, hcall, step.trans step', label'.trans label, control'.trans control⟩

theorem emits_label {f : WasmFunction} (name : String) {ys : List CodeItem}
    {call : Except CppError WasmFunction} (after : Emits call (f.insertLabel name) ys) :
    Emits call f (.label name :: ys) := by
  obtain ⟨g, hg, step, label, control⟩ := emits_insertLabel f name
  cases hg
  obtain ⟨h, hcall, step', label', control'⟩ := after
  exact ⟨h, hcall, step.trans step', label'.trans label, control'.trans control⟩

theorem emits_all_bind {f : WasmFunction} {call : Except CppError Text} {block : List Instr}
    {ys : List CodeItem} {next : WasmFunction → Except CppError WasmFunction}
    (h : YieldsAll call block) (after : ∀ g, Emits (next g) g ys) :
    Emits (f.emit call >>= next) f (CodeItems.ins block ++ ys) :=
  (emits_emit h).bind fun g _ => after g

/-- The items of the overflow checks of a division. -/
def overflowItems (width : Width) : List CodeItem :=
  CodeItems.ins (movConst width 5 (-1)) ++ .ins (cmp width 11 5) :: .jump "normal_div" .bne ::
    (CodeItems.ins (movConst width 5 (minValue width)) ++ [.ins (cmp width 12 5),
      .jump "normal_div" .bne])

theorem emitOverflowChecks_emits (f : WasmFunction) (width : Width) :
    Emits (emitOverflowChecks f (regTypeOf width)) f (overflowItems width) := by
  cases width with
  | x =>
    rw [emitOverflowChecks, if_pos (show regTypeOf .x = .xReg from rfl)]
    exact emits_all_bind (movConst64_yields _ (isReg 5)) fun _ =>
      emits_emit_bind (cmp_yields .x (isReg 11) (isReg 5)) fun _ =>
      emits_jump "normal_div" .bne <|
      emits_all_bind (movConst64_yields _ (isReg 5)) fun _ =>
      emits_emit_bind (cmp_yields .x (isReg 12) (isReg 5)) fun _ =>
      emits_jump "normal_div" .bne (emits_pure _)
  | w =>
    rw [emitOverflowChecks, if_neg (by decide)]
    exact emits_all_bind (movConst32_yields _ (isReg 5)) fun _ =>
      emits_emit_bind (cmp_yields .w (isReg 11) (isReg 5)) fun _ =>
      emits_jump "normal_div" .bne <|
      emits_all_bind (movConst32_yields _ (isReg 5)) fun _ =>
      emits_emit_bind (cmp_yields .w (isReg 12) (isReg 5)) fun _ =>
      emits_jump "normal_div" .bne (emits_pure _)

theorem emitDivGuards_emits (f : WasmFunction) (width : Width) :
    Emits (emitDivGuards f (regTypeOf width)) f (guardItems width) := by
  have items : guardItems width = .ins (cmpZero width 11) :: .jump "preparelongjmp" .beq ::
      (overflowItems width ++ [.jump "preparelongjmp" .b, .label "normal_div"]) := by
    simp [guardItems, overflowItems, CodeItems.ins]
  rw [items]
  exact emits_emit_bind (cmpZero_yields width (isReg 11)) fun _ =>
    emits_jump "preparelongjmp" .beq <|
    (emitOverflowChecks_emits _ width).bind fun _ _ =>
    emits_jump "preparelongjmp" .b (emits_label "normal_div" (emits_pure _))

/-- The letter `emitArithOp` is given for a width. -/
def typeInfoOf : Width → Char
  | .w => 'i'
  | .x => 'l'

def opTypeOf : Arith → Char
  | .add => '+'
  | .sub => '-'
  | .mul => '*'

/-- Both operands are popped, the operation's items follow, and the result is pushed. -/
theorem emitArithOp_emits (f : WasmFunction) (width : Width) {opType : Char} {isSigned : Bool}
    {xs : List CodeItem} (known : opType ∈ ['+', '-', '*', '/'])
    (operation : ∀ g, Emits (emitArithInstr g (regTypeOf width) opType isSigned) g xs) :
    Emits (emitArithOp f (typeInfoOf width) opType isSigned) f
      (CodeItems.ins (popBlock width 11 ++ popBlock width 12) ++
        (xs ++ CodeItems.ins (pushBlock width 11))) := by
  have regType : arithRegType (typeInfoOf width) = .ok (regTypeOf width) := by
    cases width <;> rfl
  have popSecond := pop_yields (regTypeOf width) (isReg 11)
  have popFirst := pop_yields (regTypeOf width) (isReg 12)
  have push := push_yields (regTypeOf width) (isReg 11)
  rw [widthOf_regTypeOf] at popSecond popFirst push
  rw [emitArithOp, if_neg (not_not_intro known), regType, ok_bind]
  exact emits_two_bind popSecond popFirst fun g =>
    (operation g).bind fun _ _ => emits_emit push

theorem emitArithInstr_emits (f : WasmFunction) (width : Width) (a : Arith) (isSigned : Bool) :
    Emits (emitArithInstr f (regTypeOf width) (opTypeOf a) isSigned) f
      [.ins (arithInstr width a)] := by
  have amount : (0 : BitVec 8).toNat < if regTypeOf width = .xReg then 64 else 32 := by
    split <;> decide
  have addSub := fun isSub => encodeAddSubShift_yields isSub (regTypeOf width) false (isReg 11)
    (isReg 12) (isReg 11) amount (show (0 : BitVec 8).toNat < 3 by decide)
  have mul := encodeMul_yields (regTypeOf width) (isReg 11) (isReg 12) (isReg 11)
  simp only [widthOf_regTypeOf] at addSub mul
  cases a with
  | add => exact emits_emit (yieldsAll_of_yields (addSub false))
  | sub => exact emits_emit (yieldsAll_of_yields (addSub true))
  | mul => exact emits_emit (yieldsAll_of_yields mul)

theorem emitArithInstr_div_emits (f : WasmFunction) (width : Width) (isSigned : Bool) :
    Emits (emitArithInstr f (regTypeOf width) '/' isSigned) f
      (guardItems width ++ [.ins (.div isSigned width 11 12 11)]) := by
  have div := encodeDiv_yields (regTypeOf width) isSigned (isReg 11) (isReg 12) (isReg 11)
  rw [widthOf_regTypeOf] at div
  exact (emitDivGuards_emits f width).bind fun _ _ => emits_emit (yieldsAll_of_yields div)

theorem div_emits (f : WasmFunction) (width : Width) (isSigned : Bool) :
    Emits (emitArithOp f (typeInfoOf width) '/' isSigned) f (divItems width isSigned) := by
  have h := emitArithOp_emits f width (by simp) (emitArithInstr_div_emits · width isSigned)
  simpa [divItems, CodeItems.ins] using h

theorem arith_emits (f : WasmFunction) (width : Width) (a : Arith) :
    Emits (emitArithOp f (typeInfoOf width) (opTypeOf a) true) f
      (CodeItems.ins (opBlock [] (.arith width a))) := by
  have h := emitArithOp_emits f width (by cases a <;> simp [opTypeOf])
    (emitArithInstr_emits · width a true)
  simpa [opBlock, CodeItems.ins] using h

end EmissionSpec
