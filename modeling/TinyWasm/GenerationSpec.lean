import TinyWasm.EmissionSpec

/-!
# The generated code is the items of the function

The loop over the opcodes is followed through the syntax tree of the body; then
the frame, the stubs and the epilogue are put around it. The frame is where
generation can fail, and a frame it accepts is small.
-/

namespace GenerationSpec

open BitFields HexText Opcode Wasm Emit ArmInstruction EncoderCorrectness LabelledCode
open LocalDeclarations SourceBody CodeItems EmissionSpec

/-- One turn of the loop emits the items and moves on by `n` bytes of code. -/
def Turns (f : WasmFunction) (i n : Nat) (xs : List CodeItem) : Prop :=
  ∃ g, jitOne f i = .ok (g, i + n) ∧ Extends f xs g ∧ g.if_label = f.if_label ∧
    g.control_flow_stack = f.control_flow_stack

theorem turns_of_emits {f : WasmFunction} {i n : Nat} {xs : List CodeItem}
    {call : Except CppError WasmFunction} (h : Emits call f xs)
    (turn : jitOne f i = call >>= fun g => pure (g, i + n)) : Turns f i n xs := by
  obtain ⟨g, rfl, rest⟩ := h
  exact ⟨g, turn, rest⟩

/-- The turn is decided by the opcode at hand. -/
theorem jitOne_at {f : WasmFunction} {i : Nat} {code : Text} {kind : OpcodeKind}
    (hcode : f.codeAt i = .ok code) (hkind : opcodeOf code = kind) :
    jitOne f i = jitOpcode f i kind := by
  rw [jitOne, hcode, ok_bind, hkind]

theorem opcodeOf_compare (c : Comparison) :
    opcodeOf (hexByte (0x46 + c.index)) = .compare .wReg (condStrOf c) ∧
      opcodeOf (hexByte (0x51 + c.index)) = .compare .xReg (condStrOf c) := by
  cases c <;> exact ⟨by decide, by decide⟩

theorem opcodeOf_arith (width : Width) (a : Arith) :
    opcodeOf (hexByte (a.code width)) = .arith (typeInfoOf width) (opTypeOf a) true := by
  cases width <;> cases a <;> decide

theorem opcodeOf_div (width : Width) (signed : Bool) :
    opcodeOf (hexByte (divCode width signed)) = .arith (typeInfoOf width) '/' signed := by
  cases width <;> cases signed <;> decide

theorem opcodeOf_localVar (opType : LocalOp) :
    opcodeOf (hexByte (LocalOp.code opType)) = .localOp opType := by
  cases opType <;> decide

theorem turns_op {f : WasmFunction} {frame : Frame} (hf : HasFrame f frame) {o : Op}
    (uses : o.UsesBelow frame.length) {i : Nat} {rest : List Text}
    (hcode : f.code_vec.drop i = o.bytes.map hexByte ++ rest) :
    Turns f i o.bytes.length (CodeItems.ins (opBlock frame o)) := by
  cases o with
  | nop =>
    obtain ⟨here, -, -⟩ := codeAt_of_drop hcode
    exact turns_of_emits (emits_emit (yieldsAll_of_yields encodeNop_yields))
      (jitOne_at here (show opcodeOf _ = .nop by decide))
  | ret =>
    obtain ⟨here, -, -⟩ := codeAt_of_drop hcode
    exact turns_of_emits (emits_pure f) (jitOne_at here (show opcodeOf _ = .ret by decide))
  | localVar opType index =>
    obtain ⟨here, next, -⟩ := codeAt_of_drop hcode
    obtain ⟨immediate, -, -⟩ := codeAt_of_drop next
    have inside : index.toNat < frame.length := uses
    have hslot : frame[index.toNat]? = some frame[index.toNat] := List.getElem?_eq_getElem inside
    have h := commonLocalOp_emits hf opType hslot immediate
    rw [opBlock, hslot]
    exact turns_of_emits h (jitOne_at here (opcodeOf_localVar opType))
  | i32const value =>
    obtain ⟨here, next, -⟩ := codeAt_of_drop hcode
    obtain ⟨immediate, -, -⟩ := codeAt_of_drop next
    refine turns_of_emits ((emitConst_emits f).1 (value.setWidth 32)) ?_
    rw [jitOne_at here (show opcodeOf _ = .i32const by decide), jitOpcode, immediate, ok_bind,
      stoul_hexByte_toNat, ok_bind, BitVec.ofNat_toNat]
    rfl
  | i64const value =>
    obtain ⟨here, next, -⟩ := codeAt_of_drop hcode
    obtain ⟨immediate, -, -⟩ := codeAt_of_drop next
    refine turns_of_emits ((emitConst_emits f).2 (value.setWidth 64)) ?_
    rw [jitOne_at here (show opcodeOf _ = .i64const by decide), jitOpcode, immediate, ok_bind,
      stoul_hexByte_toNat, ok_bind, BitVec.ofNat_toNat]
    rfl
  | compare width c =>
    cases width with
    | w =>
      obtain ⟨here, -, -⟩ := codeAt_of_drop hcode
      exact turns_of_emits (emitCompareOp_emits f .w c) (jitOne_at here (opcodeOf_compare c).1)
    | x =>
      obtain ⟨here, -, -⟩ := codeAt_of_drop hcode
      exact turns_of_emits (emitCompareOp_emits f .x c) (jitOne_at here (opcodeOf_compare c).2)
  | arith width a =>
    obtain ⟨here, -, -⟩ := codeAt_of_drop hcode
    exact turns_of_emits (arith_emits f width a) (jitOne_at here (opcodeOf_arith width a))

theorem turns_div {f : WasmFunction} {width : Width} {signed : Bool} {i : Nat} {rest : List Text}
    (hcode : f.code_vec.drop i = hexByte (divCode width signed) :: rest) :
    Turns f i 1 (divItems width signed) := by
  obtain ⟨here, -, -⟩ := codeAt_of_drop hcode
  exact turns_of_emits (div_emits f width signed) (jitOne_at here (opcodeOf_div width signed))

/-! ### Blocks -/

/-- The value `emitIfOp` keeps for a block type. -/
def signatureOf : BlockType → List wasm_type
  | .void => []
  | .i32 => [.i32 0]
  | .i64 => [.i64 0]

/-- An `if` opens a block: its label is on the control stack, and the counter moves on. -/
theorem turn_if {f : WasmFunction} {block : BlockType} {i : Nat} {rest : List Text}
    (hcode : f.code_vec.drop i = hexByte 0x04 :: hexByte block.code :: rest) :
    ∃ g, jitOne f i = .ok (g, i + 2) ∧ Extends f (ifItems (ifLabel f.if_label)) g ∧
      g.if_label = f.if_label + 1 ∧
      g.control_flow_stack =
        { label := ifLabel f.if_label, signature := signatureOf block } ::
          f.control_flow_stack := by
  obtain ⟨here, next, -⟩ := codeAt_of_drop hcode
  obtain ⟨immediate, -, -⟩ := codeAt_of_drop next
  have signature : blockSignature (hexByte block.code) = .ok (signatureOf block) := by
    cases block <;> decide
  let name := ifLabel f.if_label
  let opened : WasmFunction := { f with
    if_label := f.if_label + 1
    control_flow_stack := { label := ifLabel f.if_label, signature := signatureOf block } ::
      f.control_flow_stack }
  have test : Emits (do
      let f ← opened.emit (WasmFunction.pop .wReg true)
      let f ← f.emit (encodeCompareImm .wReg 11 0)
      return f.fakeInsertBranch name "beq") opened (ifItems name) := by
    have items : ifItems name = CodeItems.ins (teeBlock .w 11) ++
        .ins (cmpZero .w 11) :: [.jump name .beq] := by
      simp [ifItems, CodeItems.ins]
    rw [items]
    exact emits_all_bind (tee_yields .wReg (isReg 11)) fun _ =>
      emits_emit_bind (cmpZero_yields .w (isReg 11)) fun g => emits_fakeInsertBranch g name .beq
  obtain ⟨g, hg, step, label, control⟩ := test
  refine ⟨g, ?_, ⟨fun items hi => step.code items ⟨hi.words, hi.jumps, hi.labels⟩, ?_⟩,
    label, control⟩
  · rw [jitOne_at here (show opcodeOf _ = .if by decide), jitOpcode, emitIfOp, immediate, ok_bind,
      signature, ok_bind]
    exact congrArg (· >>= fun g => pure (g, i + 2)) hg
  · rw [step.rest]

/-- An `else` closes the then-arm: its branch leads to a fresh label, and the label of
the `if` is placed. -/
theorem turn_else {f : WasmFunction} {label : String} {signature : List wasm_type}
    {outer : List controlFlowElement} {i : Nat} {rest : List Text}
    (hcode : f.code_vec.drop i = hexByte 0x05 :: rest)
    (control : f.control_flow_stack = { label, signature } :: outer) :
    ∃ g, jitOne f i = .ok (g, i + 1) ∧
      Extends f [.jump (elseLabel f.if_label) .b, .label label] g ∧
      g.if_label = f.if_label + 1 ∧
      g.control_flow_stack = { label := elseLabel f.if_label, signature } :: outer := by
  obtain ⟨here, -, -⟩ := codeAt_of_drop hcode
  let renamed : WasmFunction := { f with
    if_label := f.if_label + 1
    control_flow_stack := { label := elseLabel f.if_label, signature } :: outer }
  have branch : Emits (.ok ((renamed.fakeInsertBranch (elseLabel f.if_label) "b").insertLabel
      label)) renamed [.jump (elseLabel f.if_label) .b, .label label] :=
    emits_jump (elseLabel f.if_label) .b (emits_insertLabel _ label)
  obtain ⟨g, hg, step, count, stack⟩ := branch
  refine ⟨g, ?_, ⟨fun items hi => step.code items ⟨hi.words, hi.jumps, hi.labels⟩, ?_⟩, count,
    stack⟩
  · rw [jitOne_at here (show opcodeOf _ = .else by decide), jitOpcode, emitElseOp, control]
    exact congrArg (· >>= fun g => pure (g, i + 1)) hg
  · rw [step.rest]

/-- An `end` closes the innermost block and places its label. -/
theorem turn_end {f : WasmFunction} {label : String} {signature : List wasm_type}
    {outer : List controlFlowElement} {i : Nat} {rest : List Text}
    (hcode : f.code_vec.drop i = hexByte 0x0b :: rest)
    (control : f.control_flow_stack = { label, signature } :: outer) :
    ∃ g, jitOne f i = .ok (g, i + 1) ∧ Extends f [.label label] g ∧
      g.if_label = f.if_label ∧ g.control_flow_stack = outer := by
  obtain ⟨here, -, -⟩ := codeAt_of_drop hcode
  obtain ⟨g, hg, step, count, stack⟩ :=
    emits_insertLabel { f with control_flow_stack := outer } label
  refine ⟨g, ?_, ⟨fun items hi => step.code items ⟨hi.words, hi.jumps, hi.labels⟩, ?_⟩, count,
    stack⟩
  · rw [jitOne_at here (show opcodeOf _ = .end by decide), jitOpcode, emitEndOp, control]
    exact congrArg (· >>= fun g => pure (g, i + 1)) hg
  · rw [step.rest]

theorem code_vec_of_extends {f g : WasmFunction} {xs : List CodeItem} (h : Extends f xs g) :
    g.code_vec = f.code_vec := by
  rw [h.rest]

/-- A piece of the loop takes its turns, moves past its bytes, and emits its items. -/
structure Jits (f : WasmFunction) (i turns n : Nat) (xs : List CodeItem) (g : WasmFunction) :
    Prop where
  loop : ∀ fuel, jitLoop (turns + fuel) f i = jitLoop fuel g (i + n)
  step : Extends f xs g

theorem Jits.trans {f g h : WasmFunction} {i t t' n n' : Nat} {xs ys : List CodeItem}
    (first : Jits f i t n xs g) (second : Jits g (i + n) t' n' ys h) :
    Jits f i (t + t') (n + n') (xs ++ ys) h where
  loop fuel := by rw [Nat.add_assoc, first.loop, second.loop, Nat.add_assoc]
  step := first.step.trans second.step

theorem jits_turn {f g : WasmFunction} {i n : Nat} {xs : List CodeItem}
    (inside : i < f.code_vec.length) (turn : jitOne f i = .ok (g, i + n))
    (step : Extends f xs g) : Jits f i 1 n xs g := by
  refine ⟨fun fuel => ?_, step⟩
  rw [Nat.add_comm, jitLoop, if_pos inside, turn]
  rfl

theorem drop_behind {f g : WasmFunction} {xs : List CodeItem} {i : Nat} {bytes : List Byte}
    {rest : List Text} (step : Extends f xs g)
    (hcode : f.code_vec.drop i = bytes.map hexByte ++ rest) :
    g.code_vec.drop (i + bytes.length) = rest := by
  rw [code_vec_of_extends step, ← List.drop_drop, hcode, List.drop_left' (by simp)]

theorem inside_of_drop {f : WasmFunction} {i : Nat} {bytes : List Byte} {rest : List Text}
    (hcode : f.code_vec.drop i = bytes.map hexByte ++ rest) (hpos : 0 < bytes.length) :
    i < f.code_vec.length := by
  cases bytes with
  | nil => simp at hpos
  | cons b bytes =>
    rw [List.map_cons, List.cons_append] at hcode
    exact (codeAt_of_drop hcode).2.2

/-- A piece of the loop from the bytes it takes to the code behind them, under one frame. -/
structure Piece (frame : Frame) (rest : List Text) (f : WasmFunction) (i turns : Nat)
    (bytes : List Byte) (xs : List CodeItem) (g : WasmFunction) : Prop where
  jits : Jits f i turns bytes.length xs g
  slots : HasFrame g frame
  code : g.code_vec.drop (i + bytes.length) = rest

section
variable {f g h : WasmFunction} {frame : Frame} {i t t' : Nat} {bytes bytes' : List Byte}
  {rest rest' : List Text} {xs ys : List CodeItem}

theorem Piece.trans (first : Piece frame rest f i t bytes xs g)
    (second : Piece frame rest' g (i + bytes.length) t' bytes' ys h) :
    Piece frame rest' f i (t + t') (bytes ++ bytes') (xs ++ ys) h := by
  have behind := second.code
  rw [Nat.add_assoc, ← List.length_append] at behind
  refine ⟨?_, second.slots, behind⟩
  rw [List.length_append]
  exact first.jits.trans second.jits

theorem piece_turn (hf : HasFrame f frame)
    (hcode : f.code_vec.drop i = bytes.map hexByte ++ rest) (hpos : 0 < bytes.length)
    (turn : jitOne f i = .ok (g, i + bytes.length)) (step : Extends f xs g) :
    Piece frame rest f i 1 bytes xs g :=
  ⟨jits_turn (inside_of_drop hcode hpos) turn step, hf.extends step, drop_behind step hcode⟩

theorem piece_if (hf : HasFrame f frame) {block : BlockType}
    (hcode : f.code_vec.drop i = [0x04, block.code].map hexByte ++ rest) :
    ∃ g, Piece frame rest f i 1 [0x04, block.code] (ifItems (ifLabel f.if_label)) g ∧
      g.if_label = f.if_label + 1 ∧ g.control_flow_stack =
        { label := ifLabel f.if_label, signature := signatureOf block } ::
          f.control_flow_stack := by
  obtain ⟨g, turn, step, label, control⟩ := turn_if hcode
  exact ⟨g, piece_turn hf hcode (Nat.succ_pos _) turn step, label, control⟩

theorem piece_else (hf : HasFrame f frame) {label : String} {signature : List wasm_type}
    {outer : List controlFlowElement}
    (hcode : f.code_vec.drop i = [0x05].map hexByte ++ rest)
    (control : f.control_flow_stack = { label, signature } :: outer) :
    ∃ g, Piece frame rest f i 1 [0x05] [.jump (elseLabel f.if_label) .b, .label label] g ∧
      g.if_label = f.if_label + 1 ∧
      g.control_flow_stack = { label := elseLabel f.if_label, signature } :: outer := by
  obtain ⟨g, turn, step, count, stack⟩ := turn_else hcode control
  exact ⟨g, piece_turn hf hcode (Nat.succ_pos _) turn step, count, stack⟩

theorem piece_end (hf : HasFrame f frame) {label : String} {signature : List wasm_type}
    {outer : List controlFlowElement}
    (hcode : f.code_vec.drop i = [0x0b].map hexByte ++ rest)
    (control : f.control_flow_stack = { label, signature } :: outer) :
    ∃ g, Piece frame rest f i 1 [0x0b] [.label label] g ∧ g.if_label = f.if_label ∧
      g.control_flow_stack = outer := by
  obtain ⟨g, turn, step, count, stack⟩ := turn_end hcode control
  exact ⟨g, piece_turn hf hcode (Nat.succ_pos _) turn step, count, stack⟩

end

/-- The loop compiles the sequence to its items, whatever code surrounds it and whatever blocks
are open around it. -/
def Compiles (frame : Frame) (seq : Seq) : Prop :=
  ∀ {f : WasmFunction} {i : Nat} {rest : List Text}, HasFrame f frame →
    f.code_vec.drop i = seq.bytes.map hexByte ++ rest →
      ∃ g, Piece frame rest f i seq.turns seq.bytes (bodyItems frame f.if_label seq) g ∧
        g.if_label = f.if_label + seq.labelsUsed ∧ g.control_flow_stack = f.control_flow_stack

theorem code_ifThen (block : BlockType) (thn seq : Seq) : (Seq.ifThen block thn seq).bytes =
    [0x04, block.code] ++ (thn.bytes ++ ([0x0b] ++ seq.bytes)) := by
  simp [Seq.bytes]

theorem code_ifElse (block : BlockType) (thn els seq : Seq) :
    (Seq.ifElse block thn els seq).bytes =
      [0x04, block.code] ++ (thn.bytes ++ ([0x05] ++ (els.bytes ++ ([0x0b] ++ seq.bytes)))) := by
  simp [Seq.bytes]

section
variable {frame : Frame} {thn els seq : Seq}

theorem compiles_nil (frame : Frame) : Compiles frame .nil := fun {f} _ _ hf hcode =>
  ⟨f, ⟨⟨fun fuel => by rw [Seq.turns, Nat.zero_add]; rfl, .refl f⟩, hf, hcode⟩, rfl, rfl⟩

theorem compiles_op {o : Op} (uses : o.UsesBelow frame.length) (later : Compiles frame seq) :
    Compiles frame (.op o seq) := by
  intro f i rest hf hcode
  rw [Seq.bytes, List.map_append, List.append_assoc] at hcode
  obtain ⟨g, turn, step, label, control⟩ := turns_op hf uses hcode
  have first := piece_turn hf hcode o.bytes_pos turn step
  obtain ⟨h, second, label', control'⟩ := later first.slots first.code
  have both := first.trans second
  rw [label] at both
  exact ⟨h, both, by rw [label', label]; rfl, by rw [control', control]⟩

theorem compiles_div (width : Width) (signed : Bool) (later : Compiles frame seq) :
    Compiles frame (.div width signed seq) := by
  intro f i rest hf hcode
  have hcode' : f.code_vec.drop i =
      [divCode width signed].map hexByte ++ (seq.bytes.map hexByte ++ rest) := hcode
  obtain ⟨g, turn, step, label, control⟩ := turns_div hcode'
  have first := piece_turn hf hcode' (Nat.succ_pos _) turn step
  obtain ⟨h, second, label', control'⟩ := later first.slots first.code
  have both := first.trans second
  rw [label] at both
  exact ⟨h, both, by rw [label', label]; rfl, by rw [control', control]⟩

theorem compiles_ifThen (block : BlockType) (arm : Compiles frame thn)
    (later : Compiles frame seq) : Compiles frame (.ifThen block thn seq) := by
  intro f i rest hf hcode
  rw [code_ifThen] at hcode
  simp only [List.map_append, List.append_assoc] at hcode
  obtain ⟨g₁, first, label₁, control₁⟩ := piece_if hf hcode
  obtain ⟨g₂, second, label₂, control₂⟩ := arm first.slots first.code
  obtain ⟨g₃, third, label₃, control₃⟩ :=
    piece_end second.slots second.code (control₂.trans control₁)
  obtain ⟨g₄, fourth, label₄, control₄⟩ := later third.slots third.code
  have all := first.trans (second.trans (third.trans fourth))
  have count : g₃.if_label = f.if_label + 1 + thn.labelsUsed := by
    rw [label₃, label₂, label₁]
  rw [label₁, count, ← code_ifThen] at all
  have items : bodyItems frame f.if_label (.ifThen block thn seq) =
      ifItems (ifLabel f.if_label) ++ (bodyItems frame (f.if_label + 1) thn ++
        ([.label (ifLabel f.if_label)] ++
          bodyItems frame (f.if_label + 1 + thn.labelsUsed) seq)) := by
    simp [bodyItems]
  rw [items]
  exact ⟨g₄, all, by rw [label₄, count, Seq.labelsUsed]; omega, by rw [control₄, control₃]⟩

theorem compiles_ifElse (block : BlockType) (first : Compiles frame thn)
    (second : Compiles frame els) (later : Compiles frame seq) :
    Compiles frame (.ifElse block thn els seq) := by
  intro f i rest hf hcode
  rw [code_ifElse] at hcode
  simp only [List.map_append, List.append_assoc] at hcode
  obtain ⟨g₁, test, label₁, control₁⟩ := piece_if hf hcode
  obtain ⟨g₂, arm, label₂, control₂⟩ := first test.slots test.code
  obtain ⟨g₃, middle, label₃, control₃⟩ :=
    piece_else arm.slots arm.code (control₂.trans control₁)
  obtain ⟨g₄, arm', label₄, control₄⟩ := second middle.slots middle.code
  obtain ⟨g₅, closed, label₅, control₅⟩ :=
    piece_end arm'.slots arm'.code (control₄.trans control₃)
  obtain ⟨g₆, follows, label₆, control₆⟩ := later closed.slots closed.code
  have all := test.trans (arm.trans (middle.trans (arm'.trans (closed.trans follows))))
  have count₂ : g₂.if_label = f.if_label + 1 + thn.labelsUsed := by
    rw [label₂, label₁]
  have count₃ : g₃.if_label = f.if_label + 2 + thn.labelsUsed := by
    rw [label₃, count₂]
    omega
  have count₅ : g₅.if_label = f.if_label + 2 + thn.labelsUsed + els.labelsUsed := by
    rw [label₅, label₄, count₃]
  rw [label₁, count₂, count₃, count₅, ← code_ifElse] at all
  have items : bodyItems frame f.if_label (.ifElse block thn els seq) =
      ifItems (ifLabel f.if_label) ++ (bodyItems frame (f.if_label + 1) thn ++
        ([.jump (elseLabel (f.if_label + 1 + thn.labelsUsed)) .b,
            .label (ifLabel f.if_label)] ++
          (bodyItems frame (f.if_label + 2 + thn.labelsUsed) els ++
            ([.label (elseLabel (f.if_label + 1 + thn.labelsUsed))] ++
              bodyItems frame (f.if_label + 2 + thn.labelsUsed + els.labelsUsed) seq)))) := by
    simp [bodyItems]
  rw [items]
  exact ⟨g₆, all, by rw [label₆, count₅, Seq.labelsUsed]; omega, by rw [control₆, control₅]⟩

end

/-- The induction follows the nesting of the blocks. -/
theorem seq_compiles {frame : Frame} (seq : Seq) (uses : seq.UsesBelow frame.length) :
    Compiles frame seq := by
  induction seq with
  | nil => exact compiles_nil frame
  | op o seq ih => exact compiles_op uses.1 (ih uses.2)
  | div width signed seq ih => exact compiles_div width signed (ih uses)
  | ifThen block thn seq ihThn ihSeq =>
    exact compiles_ifThen block (ihThn uses.1) (ihSeq uses.2)
  | ifElse block thn els seq ihThn ihEls ihSeq =>
    exact compiles_ifElse block (ihThn uses.1) (ihEls uses.2.1) (ihSeq uses.2.2)

/-! ### Indices out of range -/

theorem index_of_turn {f : WasmFunction} {i : Nat} {opType : LocalOp} {index : Byte}
    {rest : List Text} {r : WasmFunction × Nat}
    (hcode : f.code_vec.drop i = (Op.localVar opType index).bytes.map hexByte ++ rest)
    (turn : jitOne f i = .ok r) : index.toNat < f.param_data.length + f.local_data.length := by
  obtain ⟨here, next, -⟩ := codeAt_of_drop hcode
  obtain ⟨immediate, -, -⟩ := codeAt_of_drop next
  by_contra outside
  rw [jitOne_at here (opcodeOf_localVar opType), jitOpcode, commonLocalOp, immediate, ok_bind,
    stoul_hexByte_toNat, ok_bind, if_neg outside] at turn
  cases turn

theorem op_uses_of_turn {f : WasmFunction} {frame : Frame} (hf : HasFrame f frame) {o : Op}
    {i : Nat} {rest : List Text} {r : WasmFunction × Nat}
    (hcode : f.code_vec.drop i = o.bytes.map hexByte ++ rest) (turn : jitOne f i = .ok r) :
    o.UsesBelow frame.length := by
  cases o with
  | localVar opType index =>
    rw [hf.count]
    exact index_of_turn hcode turn
  | nop | ret | i32const | i64const | compare | arith => trivial

/-- The loop gets through a sequence only when its variables exist. -/
theorem uses_of_loop (seq : Seq) {f g : WasmFunction} {frame : Frame} (hf : HasFrame f frame)
    {i fuel : Nat} {rest : List Text} (hcode : f.code_vec.drop i = seq.bytes.map hexByte ++ rest)
    (done : jitLoop (seq.turns + fuel) f i = .ok g) : seq.UsesBelow frame.length := by
  induction seq generalizing f i rest fuel with
  | nil => trivial
  | op o seq ih =>
    rw [Seq.bytes, List.map_append, List.append_assoc] at hcode
    have inside := inside_of_drop hcode o.bytes_pos
    have uses : o.UsesBelow frame.length := by
      rw [Seq.turns, Nat.add_assoc, Nat.add_comm, jitLoop, if_pos inside] at done
      cases turn : jitOne f i with
      | ok r => exact op_uses_of_turn hf hcode turn
      | error e =>
        rw [turn] at done
        cases done
    obtain ⟨g₁, turn, step, -, -⟩ := turns_op hf uses hcode
    rw [Seq.turns, Nat.add_assoc, (jits_turn inside turn step).loop] at done
    exact ⟨uses, ih (hf.extends step) (drop_behind step hcode) done⟩
  | div width signed seq ih =>
    have hcode' : f.code_vec.drop i =
        [divCode width signed].map hexByte ++ (seq.bytes.map hexByte ++ rest) := hcode
    obtain ⟨g₁, turn, step, -, -⟩ := turns_div hcode'
    have first := piece_turn hf hcode' (Nat.succ_pos _) turn step
    rw [Seq.turns, Nat.add_assoc, first.jits.loop] at done
    exact ih first.slots first.code done
  | ifThen block thn seq ihThn ihSeq =>
    rw [code_ifThen] at hcode
    simp only [List.map_append, List.append_assoc] at hcode
    obtain ⟨g₁, first, -, control₁⟩ := piece_if hf hcode
    rw [Seq.turns, Nat.add_assoc, first.jits.loop, Nat.add_assoc] at done
    have uses := ihThn first.slots first.code done
    obtain ⟨g₂, second, -, control₂⟩ := seq_compiles thn uses first.slots first.code
    obtain ⟨g₃, third, -, -⟩ := piece_end second.slots second.code (control₂.trans control₁)
    rw [second.jits.loop, Nat.add_assoc, third.jits.loop] at done
    exact ⟨uses, ihSeq third.slots third.code done⟩
  | ifElse block thn els seq ihThn ihEls ihSeq =>
    rw [code_ifElse] at hcode
    simp only [List.map_append, List.append_assoc] at hcode
    obtain ⟨g₁, test, -, control₁⟩ := piece_if hf hcode
    rw [Seq.turns, Nat.add_assoc, test.jits.loop, Nat.add_assoc] at done
    have usesThn := ihThn test.slots test.code done
    obtain ⟨g₂, arm, -, control₂⟩ := seq_compiles thn usesThn test.slots test.code
    obtain ⟨g₃, middle, -, control₃⟩ := piece_else arm.slots arm.code (control₂.trans control₁)
    rw [arm.jits.loop, Nat.add_assoc, middle.jits.loop, Nat.add_assoc] at done
    have usesEls := ihEls middle.slots middle.code done
    obtain ⟨g₄, arm', -, control₄⟩ := seq_compiles els usesEls middle.slots middle.code
    obtain ⟨g₅, closed, -, -⟩ := piece_end arm'.slots arm'.code (control₄.trans control₃)
    rw [arm'.jits.loop, Nat.add_assoc, closed.jits.loop] at done
    exact ⟨usesThn, usesEls, ihSeq closed.slots closed.code done⟩

/-! ### The loop as a whole -/

/-- The loop over the opcodes of a body, up to and with its final `end`: the items of the
body, then the label of the end, and no block left open. -/
theorem jiting_wasm_code_emits {f g : WasmFunction} {frame : Frame} (hf : HasFrame f frame)
    {body : Seq} {i : Nat} (hcode : f.code_vec.drop i = (body.bytes ++ [0x0b]).map hexByte)
    (fresh : f.if_label = 0) (closed : f.control_flow_stack = [])
    (done : jiting_wasm_code f i = .ok g) :
    body.UsesBelow frame.length ∧ Extends f (bodyItems frame 0 body ++ [.label "end"]) g ∧
      g.control_flow_stack = [] := by
  let opened : WasmFunction := { f with
    control_flow_stack := { label := "end", signature := f.result_data } :: f.control_flow_stack }
  have frame₀ : HasFrame opened frame := ⟨hf.count, hf.slot⟩
  have code₀ : opened.code_vec.drop i = body.bytes.map hexByte ++ [hexByte 0x0b] := by
    rw [hcode, List.map_append]
    rfl
  have room : body.turns + 1 ≤ f.code_vec.length := by
    have inside := congrArg List.length hcode
    rw [List.length_drop, List.length_map, List.length_append, List.length_singleton] at inside
    have := body.turns_le_bytes
    omega
  obtain ⟨fuel, hfuel⟩ := Nat.exists_eq_add_of_le room
  change jitLoop f.code_vec.length opened i = .ok g at done
  rw [hfuel, Nat.add_assoc] at done
  have uses := uses_of_loop body frame₀ code₀ done
  obtain ⟨g₁, all, -, control₁⟩ := seq_compiles body uses frame₀ code₀
  have code₁ : g₁.code_vec.drop (i + body.bytes.length) = hexByte 0x0b :: [] := all.code
  obtain ⟨g₂, turn₂, step₂, -, control₂⟩ := turn_end code₁ control₁
  have last := jits_turn (codeAt_of_drop code₁).2.2 turn₂ step₂
  rw [all.jits.loop, last.loop] at done
  have behind : ¬ i + body.bytes.length + 1 < g₂.code_vec.length := by
    have code₂ : g₂.code_vec.drop (i + body.bytes.length + 1) = [] := by
      rw [code_vec_of_extends step₂]
      exact (codeAt_of_drop code₁).2.1
    exact Nat.not_lt.mpr (List.drop_eq_nil_iff.mp code₂)
  have same : g₂ = g := by
    cases fuel with
    | zero =>
      rw [jitLoop, if_neg behind] at done
      exact Except.ok.inj done
    | succ fuel =>
      rw [jitLoop, if_neg behind] at done
      exact Except.ok.inj done
  subst same
  have step := all.jits.step.trans step₂
  rw [show opened.if_label = 0 from fresh] at step
  exact ⟨uses, ⟨fun items hi => step.code items ⟨hi.words, hi.jumps, hi.labels⟩, step.rest⟩,
    by rw [control₂, closed]⟩

end GenerationSpec
