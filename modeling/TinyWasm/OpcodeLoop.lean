import TinyWasm.FrameSpec
import TinyWasm.GenerationSpec

/-!
# Any bytes in the opcode loop

`jiting_wasm_code` on bytes that need not be a body. The bytes are walked the
way the loop walks them, and each place where it reads past the end, stands
still, or takes a block that is not there is named.
-/

namespace OpcodeLoop

open HexText Opcode Wasm Emit ArmInstruction LabelledCode SourceBody CodeItems EmissionSpec
open FrameSpec GenerationSpec

/-- A failure the program raises itself. -/
def IsThrow : CppError → Prop
  | .outOfRange _ | .invalidArgument _ | .thrown _ => True
  | .undefinedBehaviour _ | .divergence _ => False

/-- The call finishes or throws. -/
def Handled {α : Type} : Except CppError α → Prop
  | .ok _ => True
  | .error e => IsThrow e

/-- Two hex digits of either case. -/
structure HexPair where
  high : Char
  low : Char
  digits : (hexDigit? high).isSome ∧ (hexDigit? low).isSome

def HexPair.text (p : HexPair) : Text := [p.high, p.low]

def HexPair.value (p : HexPair) : Nat :=
  16 * (hexDigit? p.high).getD 0 + (hexDigit? p.low).getD 0

theorem HexPair.stoul_text (p : HexPair) : stoul p.text = .ok p.value :=
  stoul_pair (Option.some_get p.digits.1 ▸ rfl) (Option.some_get p.digits.2 ▸ rfl)

/-- An access to variable `index` is refused: there is no such variable, or its offset does
not fit the instruction. -/
def Refused (f : WasmFunction) (index : Nat) : Prop :=
  f.param_data.length + f.local_data.length ≤ index ∨
    ¬ Reachable (varAccess f index).1 (varAccess f index).2

/-- The block types `emitIfOp` takes. -/
def IsBlockType (type : Text) : Prop := ∃ block : BlockType, type = hexByte block.code

/-- The walk over the bytes behind the cursor, with `depth` blocks open: it ends behind the
last byte or at an instruction that throws. Opcodes are known, immediates are there, and
`else` and `end` find an open block. -/
def Clean (refused : Nat → Prop) : List HexPair → Nat → Prop
  | [], _ => True
  | b :: rest, depth =>
    match opcodeOf b.text with
    | .nop | .ret | .compare _ _ | .arith _ _ _ => Clean refused rest depth
    | .else => 0 < depth ∧ Clean refused rest depth
    | .end => 0 < depth ∧ Clean refused rest (depth - 1)
    | .if =>
      match rest with
      | [] => False
      | type :: rest => ¬ IsBlockType type.text ∨ Clean refused rest (depth + 1)
    | .localOp _ =>
      match rest with
      | [] => False
      | index :: rest => refused index.value ∨ Clean refused rest depth
    | .i32const | .i64const =>
      match rest with
      | [] => False
      | _ :: rest => Clean refused rest depth
    | .f32const => 4 ≤ rest.length
    | .f64const => 7 ≤ rest.length
    | .unknown => False

/-! ### One turn -/

/-- The kinds an opcode can have, with the operands the table gives them. -/
def inTable : OpcodeKind → Bool
  | .compare regtype condStr => (regtype = .wReg ∨ regtype = .xReg) ∧
      condStr ∈ ["eq", "ne", "lt", "cc", "gt", "hi", "le", "ls", "ge", "cs"]
  | .arith typeInfo opType _ => (typeInfo = 'i' ∨ typeInfo = 'l') ∧
      opType ∈ ['+', '-', '*', '/']
  | _ => true

theorem inTable_opcodeOf (code : Text) : inTable (opcodeOf code) = true := by
  have table : ∀ entry ∈ opcodes, inTable entry.2 = true := by decide
  rw [opcodeOf]
  cases h : opcodes.lookup code with
  | none => rfl
  | some kind =>
    obtain ⟨before, after, split, -⟩ := List.lookup_eq_some_iff.mp h
    exact table (code, kind) (by rw [split]; simp)

/-- The turn at `i` moves on by `n` bytes, with `depth` blocks open after it. -/
def Moves (f : WasmFunction) (i n depth : Nat) : Prop :=
  ∃ g, jitOne f i = .ok (g, i + n) ∧ g.code_vec = f.code_vec ∧ Refused g = Refused f ∧
    g.control_flow_stack.length = depth

theorem moves_of_turns {f : WasmFunction} {i n : Nat} {xs : List CodeItem}
    (h : Turns f i n xs) : Moves f i n f.control_flow_stack.length := by
  obtain ⟨g, turn, step, -, control⟩ := h
  exact ⟨g, turn, code_vec_of_extends step, by rw [step.rest]; rfl, by rw [control]⟩

theorem moves_nop {f : WasmFunction} {i : Nat} {code : Text} (hcode : f.codeAt i = .ok code)
    (kind : opcodeOf code = .nop) : Moves f i 1 f.control_flow_stack.length :=
  moves_of_turns (turns_of_emits
    (emits_emit (yieldsAll_of_yields EncoderCorrectness.encodeNop_yields))
    (jitOne_at hcode kind))

theorem moves_ret {f : WasmFunction} {i : Nat} {code : Text} (hcode : f.codeAt i = .ok code)
    (kind : opcodeOf code = .ret) : Moves f i 1 f.control_flow_stack.length :=
  moves_of_turns (turns_of_emits (emits_pure f) (jitOne_at hcode kind))

theorem moves_compare {f : WasmFunction} {i : Nat} {code : Text} {regtype : RegType}
    {condStr : String} (hcode : f.codeAt i = .ok code)
    (kind : opcodeOf code = .compare regtype condStr) :
    Moves f i 1 f.control_flow_stack.length := by
  have known := inTable_opcodeOf code
  simp only [kind, inTable, Bool.decide_and, Bool.and_eq_true, decide_eq_true_eq] at known
  obtain ⟨sized, named⟩ := known
  have width : ∃ width, regtype = regTypeOf width := by
    rcases sized with rfl | rfl
    · exact ⟨.w, rfl⟩
    · exact ⟨.x, rfl⟩
  have comparison : ∃ c, condStr = condStrOf c := by
    simp only [List.mem_cons, List.not_mem_nil, or_false] at named
    rcases named with rfl | rfl | rfl | rfl | rfl | rfl | rfl | rfl | rfl | rfl
    · exact ⟨.eq, rfl⟩
    · exact ⟨.ne, rfl⟩
    · exact ⟨.lt_s, rfl⟩
    · exact ⟨.lt_u, rfl⟩
    · exact ⟨.gt_s, rfl⟩
    · exact ⟨.gt_u, rfl⟩
    · exact ⟨.le_s, rfl⟩
    · exact ⟨.le_u, rfl⟩
    · exact ⟨.ge_s, rfl⟩
    · exact ⟨.ge_u, rfl⟩
  obtain ⟨width, rfl⟩ := width
  obtain ⟨c, rfl⟩ := comparison
  exact moves_of_turns (turns_of_emits (emitCompareOp_emits f width c) (jitOne_at hcode kind))

theorem moves_arith {f : WasmFunction} {i : Nat} {code : Text} {typeInfo opType : Char}
    {isSigned : Bool} (hcode : f.codeAt i = .ok code)
    (kind : opcodeOf code = .arith typeInfo opType isSigned) :
    Moves f i 1 f.control_flow_stack.length := by
  have known := inTable_opcodeOf code
  simp only [kind, inTable, Bool.decide_and, Bool.and_eq_true, decide_eq_true_eq] at known
  obtain ⟨sized, operator⟩ := known
  have width : ∃ width, typeInfo = typeInfoOf width := by
    rcases sized with rfl | rfl
    · exact ⟨.w, rfl⟩
    · exact ⟨.x, rfl⟩
  obtain ⟨width, rfl⟩ := width
  have turn : ∀ {xs : List CodeItem},
      Emits (emitArithOp f (typeInfoOf width) opType isSigned) f xs →
      Moves f i 1 f.control_flow_stack.length := fun h =>
    moves_of_turns (turns_of_emits h (jitOne_at hcode kind))
  simp only [List.mem_cons, List.not_mem_nil, or_false] at operator
  rcases operator with rfl | rfl | rfl | rfl
  · exact turn (emitArithOp_emits f width (by simp) (emitArithInstr_emits · width .add isSigned))
  · exact turn (emitArithOp_emits f width (by simp) (emitArithInstr_emits · width .sub isSigned))
  · exact turn (emitArithOp_emits f width (by simp) (emitArithInstr_emits · width .mul isSigned))
  · exact turn (emitArithOp_emits f width (by simp) (emitArithInstr_div_emits · width isSigned))

/-! ### Accesses to variables -/

theorem setField_throws {opcode : Arm64Opcode} {val : Int} {offset len : Nat} {e : CppError}
    (h : opcode.setField val offset len = .error e) : IsThrow e := by
  rw [Arm64Opcode.setField] at h
  split at h
  · cases h
    trivial
  · cases h

/-- A chain of field writes fails as its first failing write does. -/
theorem throws_bind {α : Type} {x : Except CppError Arm64Opcode}
    {next : Arm64Opcode → Except CppError α} (hx : ∀ e, x = .error e → IsThrow e)
    (hnext : ∀ o e, next o = .error e → IsThrow e) {e : CppError} (h : x >>= next = .error e) :
    IsThrow e := by
  cases x with
  | error e' =>
    cases h
    exact hx _ rfl
  | ok o => exact hnext o e h

theorem encodeLoadStoreImm_throws {regType : RegType} {ldstType : LdStType} {rt rn : BitVec 8}
    {imm : BitVec 16} {e : CppError}
    (h : encodeLoadStoreImm regType ldstType rt rn imm = .error e) : IsThrow e := by
  have write : ∀ (o : Arm64Opcode) (val : Int) (offset len : Nat) (e : CppError),
      o.setField val offset len = .error e → IsThrow e := fun _ _ _ _ _ => setField_throws
  refine throws_bind (write _ _ _ _) (fun _ _ => ?_) h
  refine throws_bind (write _ _ _ _) fun _ _ => ?_
  refine throws_bind (write _ _ _ _) fun _ _ => ?_
  refine throws_bind (write _ _ _ _) fun _ _ => ?_
  refine throws_bind (write _ _ _ _) fun _ _ => ?_
  refine throws_bind (write _ _ _ _) fun _ _ => ?_
  refine throws_bind (write _ _ _ _) fun _ _ => ?_
  refine throws_bind (write _ _ _ _) fun _ _ h => ?_
  cases h

theorem moves_localOp {f : WasmFunction} {i : Nat} {code immediate : Text} {index : Nat}
    {opType : LocalOp} (hcode : f.codeAt i = .ok code) (kind : opcodeOf code = .localOp opType)
    (next : f.codeAt (i + 1) = .ok immediate) (read : stoul immediate = .ok index)
    (usable : ¬ Refused f index) : Moves f i 2 f.control_flow_stack.length := by
  rw [Refused, not_or, not_le, not_not] at usable
  exact moves_of_turns (turns_of_emits (localOp_emits opType next read usable.1 usable.2)
    (jitOne_at hcode kind))

/-- The access is encoded before the function is touched, so a refused one stops the loop. -/
theorem fails_localOp {f : WasmFunction} {i : Nat} {code immediate : Text} {index : Nat}
    {opType : LocalOp} (hcode : f.codeAt i = .ok code) (kind : opcodeOf code = .localOp opType)
    (next : f.codeAt (i + 1) = .ok immediate) (read : stoul immediate = .ok index)
    (refused : Refused f index) : ∃ e, jitOne f i = .error e ∧ IsThrow e := by
  rw [jitOne_at hcode kind, jitOpcode]
  by_cases known : index < f.param_data.length + f.local_data.length
  · have far : ¬ Reachable (varAccess f index).1 (varAccess f index).2 :=
      refused.resolve_left (not_le.mpr known)
    have access : ∀ ldstType, ∃ e, encodeLoadStoreImm (varAccess f index).1 ldstType 11 31
        (BitVec.ofInt 16 (varAccess f index).2) = .error e ∧ IsThrow e := by
      intro ldstType
      cases h : encodeLoadStoreImm (varAccess f index).1 ldstType 11 31
          (BitVec.ofInt 16 (varAccess f index).2) with
      | ok text => exact absurd (encodeLoadStoreImm_ok h).2 far
      | error e => exact ⟨e, rfl, encodeLoadStoreImm_throws h⟩
    rw [commonLocalOp_known opType next read known]
    cases opType with
    | get =>
      obtain ⟨e, he, thrown⟩ := access .ldr
      refine ⟨e, ?_, thrown⟩
      rw [emitLocal, show emitGet f (varOf f index).2 (varOf f index).1 = .error e by
        rw [emitGet]; exact congrArg (· >>= _) he]
      rfl
    | set =>
      obtain ⟨e, he, thrown⟩ := access .str
      obtain ⟨ws, hpop, -⟩ := pop_yields (varAccess f index).1 (isReg 11)
      refine ⟨e, ?_, thrown⟩
      rw [emitLocal, show emitSet f (varOf f index).2 (varOf f index).1 = .error e by
        rw [emitSet]
        change (WasmFunction.pop (varAccess f index).1 false 11 >>= fun _ => _) = _
        rw [show WasmFunction.pop (varAccess f index).1 false 11 = _ from hpop, ok_bind]
        exact congrArg (· >>= _) he]
      rfl
    | tee =>
      obtain ⟨e, he, thrown⟩ := access .str
      obtain ⟨ws, hpop, -⟩ := tee_yields (varAccess f index).1 (isReg 11)
      refine ⟨e, ?_, thrown⟩
      rw [emitLocal, show emitSet f (varOf f index).2 (varOf f index).1 true = .error e by
        rw [emitSet]
        change (WasmFunction.pop (varAccess f index).1 true 11 >>= fun _ => _) = _
        rw [show WasmFunction.pop (varAccess f index).1 true 11 = _ from hpop, ok_bind]
        exact congrArg (· >>= _) he]
      rfl
  · rw [commonLocalOp, next, ok_bind, read, ok_bind, if_neg known]
    exact ⟨_, rfl, trivial⟩

/-! ### Blocks -/

/-- The opcodes of blocks have one spelling. -/
theorem text_of_block (code : Text) :
    (opcodeOf code = .if → code = hexByte 0x04) ∧ (opcodeOf code = .else → code = hexByte 0x05) ∧
      (opcodeOf code = .end → code = hexByte 0x0b) := by
  have table : ∀ entry ∈ opcodes, (entry.2 = .if → entry.1 = hexByte 0x04) ∧
      (entry.2 = .else → entry.1 = hexByte 0x05) ∧ (entry.2 = .end → entry.1 = hexByte 0x0b) := by
    decide
  rw [opcodeOf]
  cases h : opcodes.lookup code with
  | none => simp
  | some kind =>
    obtain ⟨before, after, split, -⟩ := List.lookup_eq_some_iff.mp h
    exact table (code, kind) (by rw [split]; simp)

theorem moves_if {f : WasmFunction} {i : Nat} {code : Text} {rest : List Text}
    (block : BlockType) (hcode : f.code_vec.drop i = code :: hexByte block.code :: rest)
    (kind : opcodeOf code = .if) : Moves f i 2 (f.control_flow_stack.length + 1) := by
  rw [(text_of_block code).1 kind] at hcode
  obtain ⟨g, turn, step, -, control⟩ := turn_if hcode
  exact ⟨g, turn, code_vec_of_extends step, by rw [step.rest]; rfl, by rw [control]; rfl⟩

theorem blockSignature_throws {type : Text} (unsupported : ¬ IsBlockType type) :
    ∃ e, blockSignature type = .error e ∧ IsThrow e := by
  have void : type ≠ "40".toList := fun h => unsupported ⟨.void, h.trans (by decide)⟩
  have i32 : type ≠ "7f".toList := fun h => unsupported ⟨.i32, h.trans (by decide)⟩
  have i64 : type ≠ "7e".toList := fun h => unsupported ⟨.i64, h.trans (by decide)⟩
  rw [blockSignature, if_neg i32, if_neg i64, if_neg void]
  split_ifs
  all_goals exact ⟨_, rfl, trivial⟩

theorem fails_if {f : WasmFunction} {i : Nat} {code type : Text} (hcode : f.codeAt i = .ok code)
    (kind : opcodeOf code = .if) (next : f.codeAt (i + 1) = .ok type)
    (unsupported : ¬ IsBlockType type) : ∃ e, jitOne f i = .error e ∧ IsThrow e := by
  obtain ⟨e, he, thrown⟩ := blockSignature_throws unsupported
  refine ⟨e, ?_, thrown⟩
  rw [jitOne_at hcode kind, jitOpcode, emitIfOp, next, ok_bind, he]
  rfl

theorem moves_else {f : WasmFunction} {i : Nat} {code : Text} {rest : List Text}
    (hcode : f.code_vec.drop i = code :: rest) (kind : opcodeOf code = .else)
    (opened : 0 < f.control_flow_stack.length) : Moves f i 1 f.control_flow_stack.length := by
  rw [(text_of_block code).2.1 kind] at hcode
  cases control : f.control_flow_stack with
  | nil => simp [control] at opened
  | cons element outer =>
    obtain ⟨g, turn, step, -, after⟩ := turn_else hcode control
    exact ⟨g, turn, code_vec_of_extends step, by rw [step.rest]; rfl, by rw [after]; rfl⟩

theorem moves_end {f : WasmFunction} {i : Nat} {code : Text} {rest : List Text}
    (hcode : f.code_vec.drop i = code :: rest) (kind : opcodeOf code = .end)
    (opened : 0 < f.control_flow_stack.length) :
    Moves f i 1 (f.control_flow_stack.length - 1) := by
  rw [(text_of_block code).2.2 kind] at hcode
  cases control : f.control_flow_stack with
  | nil => simp [control] at opened
  | cons element outer =>
    obtain ⟨g, turn, step, -, after⟩ := turn_end hcode control
    exact ⟨g, turn, code_vec_of_extends step, by rw [step.rest]; rfl, by rw [after]; rfl⟩

theorem moves_const {f : WasmFunction} {i : Nat} {code immediate : Text} {value : Nat}
    (hcode : f.codeAt i = .ok code)
    (kind : opcodeOf code = .i32const ∨ opcodeOf code = .i64const)
    (next : f.codeAt (i + 1) = .ok immediate) (read : stoul immediate = .ok value) :
    Moves f i 2 f.control_flow_stack.length := by
  rcases kind with kind | kind
  · refine moves_of_turns (turns_of_emits ((emitConst_emits f).1 (BitVec.ofNat 32 value)) ?_)
    rw [jitOne_at hcode kind, jitOpcode, next, ok_bind, read, ok_bind]
  · refine moves_of_turns (turns_of_emits ((emitConst_emits f).2 (BitVec.ofNat 64 value)) ?_)
    rw [jitOne_at hcode kind, jitOpcode, next, ok_bind, read, ok_bind]

/-! ### The whole loop -/

/-- At an unknown opcode the loop stands still until the turns are used up. -/
theorem loop_unknown {f : WasmFunction} {i : Nat} {code : Text} (inside : i < f.code_vec.length)
    (hcode : f.codeAt i = .ok code) (kind : opcodeOf code = .unknown) (fuel : Nat) :
    jitLoop fuel f i =
      .error (.divergence "no branch of jiting_wasm_code moves past the opcode") := by
  induction fuel with
  | zero => rw [jitLoop, if_pos inside]
  | succ fuel ih =>
    rw [jitLoop, if_pos inside, jitOne_at hcode kind]
    exact ih

theorem loop_fails {f : WasmFunction} {i fuel : Nat} (inside : i < f.code_vec.length)
    {e : CppError} (turn : jitOne f i = .error e) : jitLoop (fuel + 1) f i = .error e := by
  rw [jitLoop, if_pos inside, turn]
  rfl

/-- With this many turns the loop finishes or throws exactly when the walk over its bytes is
clean. -/
def Decided (fuel : Nat) : Prop :=
  ∀ {f : WasmFunction} {i : Nat} {pairs : List HexPair},
    f.code_vec.drop i = pairs.map HexPair.text → pairs.length ≤ fuel →
      (Handled (jitLoop fuel f i) ↔ Clean (Refused f) pairs f.control_flow_stack.length)

/-- The cursor is at `b`, behind which are `rest`, and there are turns for them. -/
structure Before (fuel : Nat) (f : WasmFunction) (i : Nat) (b : HexPair) (rest : List HexPair) :
    Prop where
  code : f.code_vec.drop i = (b :: rest).map HexPair.text
  few : rest.length ≤ fuel

section
variable {fuel : Nat} {f : WasmFunction} {i : Nat} {b type : HexPair} {rest : List HexPair}

theorem Before.here (at_b : Before fuel f i b rest) :
    f.codeAt i = .ok b.text ∧ f.code_vec.drop (i + 1) = rest.map HexPair.text ∧
      i < f.code_vec.length := codeAt_of_drop at_b.code

/-- The byte behind the opcode. -/
theorem Before.immediate (at_b : Before fuel f i b (type :: rest)) :
    f.codeAt (i + 1) = .ok type.text ∧ f.code_vec.drop (i + 2) = rest.map HexPair.text ∧
      rest.length ≤ fuel := by
  obtain ⟨read, after, -⟩ := codeAt_of_drop at_b.here.2.1
  exact ⟨read, after, Nat.le_of_succ_le at_b.few⟩

theorem Before.length (at_b : Before fuel f i b rest) :
    f.code_vec.length = i + 1 + rest.length := by
  have inside := at_b.here.2.2
  have cut := congrArg List.length at_b.here.2.1
  rw [List.length_drop, List.length_map] at cut
  omega

/-- Where the code ends a read fails. -/
theorem Before.missing (at_b : Before fuel f i b rest) {k : Nat} (short : rest.length < k) :
    f.codeAt (i + k) = .error (.undefinedBehaviour "code_vec read past its end") := by
  have size := at_b.length
  rw [WasmFunction.codeAt, List.getElem?_eq_none (by omega)]

theorem Before.present (at_b : Before fuel f i b rest) {k : Nat} (long : k ≤ rest.length) :
    ∃ code, f.codeAt (i + k) = .ok code := by
  have size := at_b.length
  have inside : i + k < f.code_vec.length := by omega
  exact ⟨f.code_vec[i + k], by rw [WasmFunction.codeAt, List.getElem?_eq_getElem inside]⟩

theorem handled_of_moves (decided : Decided fuel) (at_b : Before fuel f i b rest)
    {n depth : Nat} {later : List HexPair} (moves : Moves f i n depth)
    (drop : f.code_vec.drop (i + n) = later.map HexPair.text) (few : later.length ≤ fuel) :
    Handled (jitLoop (fuel + 1) f i) ↔ Clean (Refused f) later depth := by
  obtain ⟨g, turn, code, refused, rfl⟩ := moves
  rw [jitLoop, if_pos at_b.here.2.2, turn, ok_bind, ← refused]
  exact decided (by rw [code, drop]) few

theorem handled_of_fails (at_b : Before fuel f i b rest) {e : CppError}
    (turn : jitOne f i = .error e) : Handled (jitLoop (fuel + 1) f i) ↔ IsThrow e := by
  rw [loop_fails at_b.here.2.2 turn]
  exact Iff.rfl

/-- `else` and `end` take the innermost block. -/
theorem handled_closing (decided : Decided fuel) (at_b : Before fuel f i b rest) {depth : Nat}
    (opened : 0 < f.control_flow_stack.length → Moves f i 1 depth)
    (empty : f.control_flow_stack = [] → jitOne f i =
      .error (.undefinedBehaviour "control_flow_stack.back() of an empty vector")) :
    Handled (jitLoop (fuel + 1) f i) ↔
      0 < f.control_flow_stack.length ∧ Clean (Refused f) rest depth := by
  by_cases some : 0 < f.control_flow_stack.length
  · rw [and_iff_right some]
    exact handled_of_moves decided at_b (opened some) at_b.here.2.1 at_b.few
  · rw [handled_of_fails at_b (empty (List.eq_nil_of_length_eq_zero (by omega)))]
    exact iff_of_false id fun h => some h.1

theorem handled_else (decided : Decided fuel) (at_b : Before fuel f i b rest)
    (kind : opcodeOf b.text = .else) : Handled (jitLoop (fuel + 1) f i) ↔
      0 < f.control_flow_stack.length ∧ Clean (Refused f) rest f.control_flow_stack.length := by
  refine handled_closing decided at_b (moves_else at_b.code kind) fun empty => ?_
  rw [jitOne_at at_b.here.1 kind, jitOpcode, emitElseOp, empty]
  rfl

theorem handled_end (decided : Decided fuel) (at_b : Before fuel f i b rest)
    (kind : opcodeOf b.text = .end) : Handled (jitLoop (fuel + 1) f i) ↔
      0 < f.control_flow_stack.length ∧
        Clean (Refused f) rest (f.control_flow_stack.length - 1) := by
  refine handled_closing decided at_b (moves_end at_b.code kind) fun empty => ?_
  rw [jitOne_at at_b.here.1 kind, jitOpcode, emitEndOp, empty]
  rfl

/-- An opcode whose immediate is missing. -/
theorem handled_short (at_b : Before fuel f i b [])
    (kind : opcodeOf b.text = .if ∨ (∃ opType, opcodeOf b.text = .localOp opType) ∨
      opcodeOf b.text = .i32const ∨ opcodeOf b.text = .i64const) :
    ¬ Handled (jitLoop (fuel + 1) f i) := by
  have missing := at_b.missing Nat.one_pos
  have turn : jitOne f i = .error (.undefinedBehaviour "code_vec read past its end") := by
    rcases kind with kind | ⟨opType, kind⟩ | kind | kind
    · rw [jitOne_at at_b.here.1 kind, jitOpcode, emitIfOp, missing]
      rfl
    · rw [jitOne_at at_b.here.1 kind, jitOpcode, commonLocalOp, missing]
      rfl
    · rw [jitOne_at at_b.here.1 kind, jitOpcode, missing]
      rfl
    · rw [jitOne_at at_b.here.1 kind, jitOpcode, missing]
      rfl
  exact (handled_of_fails at_b turn).mp

theorem handled_if (decided : Decided fuel) (at_b : Before fuel f i b (type :: rest))
    (kind : opcodeOf b.text = .if) : Handled (jitLoop (fuel + 1) f i) ↔
      ¬ IsBlockType type.text ∨ Clean (Refused f) rest (f.control_flow_stack.length + 1) := by
  obtain ⟨read, after, few⟩ := at_b.immediate
  by_cases supported : IsBlockType type.text
  · refine Iff.trans ?_ (or_iff_right (not_not.mpr supported)).symm
    obtain ⟨block, spelling⟩ := supported
    have code := at_b.code
    rw [List.map_cons, List.map_cons, spelling] at code
    exact handled_of_moves decided at_b (moves_if block code kind) after few
  · obtain ⟨e, turn, thrown⟩ := fails_if at_b.here.1 kind read supported
    rw [handled_of_fails at_b turn]
    exact iff_of_true thrown (Or.inl supported)

theorem handled_localOp (decided : Decided fuel) (at_b : Before fuel f i b (type :: rest))
    {opType : LocalOp} (kind : opcodeOf b.text = .localOp opType) :
    Handled (jitLoop (fuel + 1) f i) ↔
      Refused f type.value ∨ Clean (Refused f) rest f.control_flow_stack.length := by
  obtain ⟨read, after, few⟩ := at_b.immediate
  by_cases refused : Refused f type.value
  · obtain ⟨e, turn, thrown⟩ := fails_localOp at_b.here.1 kind read type.stoul_text refused
    rw [handled_of_fails at_b turn]
    exact iff_of_true thrown (Or.inl refused)
  · refine Iff.trans ?_ (or_iff_right refused).symm
    exact handled_of_moves decided at_b
      (moves_localOp at_b.here.1 kind read type.stoul_text refused) after few

theorem handled_const (decided : Decided fuel) (at_b : Before fuel f i b (type :: rest))
    (kind : opcodeOf b.text = .i32const ∨ opcodeOf b.text = .i64const) :
    Handled (jitLoop (fuel + 1) f i) ↔ Clean (Refused f) rest f.control_flow_stack.length := by
  obtain ⟨read, after, few⟩ := at_b.immediate
  exact handled_of_moves decided at_b (moves_const at_b.here.1 kind read type.stoul_text) after few

/-- A floating-point constant throws, once its last byte has been read. -/
theorem handled_float (at_b : Before fuel f i b rest) {k : Nat}
    {next : Text → Except CppError (WasmFunction × Nat)}
    (turn : jitOne f i = f.codeAt (i + k) >>= next)
    (throws : ∀ code, ∃ e, next code = .error e ∧ IsThrow e) :
    Handled (jitLoop (fuel + 1) f i) ↔ k ≤ rest.length := by
  by_cases long : k ≤ rest.length
  · obtain ⟨code, read⟩ := at_b.present long
    obtain ⟨e, fails, thrown⟩ := throws code
    rw [read, ok_bind, fails] at turn
    rw [handled_of_fails at_b turn]
    exact iff_of_true thrown long
  · rw [at_b.missing (Nat.lt_of_not_le long)] at turn
    rw [handled_of_fails at_b turn]
    exact iff_of_false id long

end

theorem loop_behind {fuel : Nat} {f : WasmFunction} {i : Nat} (behind : f.code_vec.drop i = []) :
    jitLoop fuel f i = .ok f := by
  have outside := List.drop_eq_nil_iff.mp behind
  cases fuel <;> rw [jitLoop, if_neg (by omega)]

/-- One more turn, by the kind of the opcode at the cursor. -/
theorem decided_succ {fuel : Nat} (decided : Decided fuel) : Decided (fuel + 1) := by
  intro f i pairs hcode enough
  cases pairs with
  | nil =>
    rw [loop_behind hcode]
    exact Iff.rfl
  | cons b rest =>
    have at_b : Before fuel f i b rest := ⟨hcode, Nat.le_of_succ_le_succ enough⟩
    obtain ⟨here, next, inside⟩ := at_b.here
    have moves {depth : Nat} (moves : Moves f i 1 depth) :=
      handled_of_moves decided at_b moves next at_b.few
    rw [Clean.eq_def]
    cases kind : opcodeOf b.text with
    | nop =>
      simp only [kind]
      exact moves (moves_nop here kind)
    | ret =>
      simp only [kind]
      exact moves (moves_ret here kind)
    | compare regtype condStr =>
      simp only [kind]
      exact moves (moves_compare here kind)
    | arith typeInfo opType isSigned =>
      simp only [kind]
      exact moves (moves_arith here kind)
    | «else» =>
      simp only [kind]
      exact handled_else decided at_b kind
    | «end» =>
      simp only [kind]
      exact handled_end decided at_b kind
    | «if» =>
      simp only [kind]
      cases rest with
      | nil => exact iff_of_false (handled_short at_b (.inl kind)) id
      | cons type rest => exact handled_if decided at_b kind
    | localOp opType =>
      simp only [kind]
      cases rest with
      | nil => exact iff_of_false (handled_short at_b (.inr (.inl ⟨opType, kind⟩))) id
      | cons index rest => exact handled_localOp decided at_b kind
    | i32const =>
      simp only [kind]
      cases rest with
      | nil => exact iff_of_false (handled_short at_b (.inr (.inr (.inl kind)))) id
      | cons value rest => exact handled_const decided at_b (.inl kind)
    | i64const =>
      simp only [kind]
      cases rest with
      | nil => exact iff_of_false (handled_short at_b (.inr (.inr (.inr kind)))) id
      | cons value rest => exact handled_const decided at_b (.inr kind)
    | f32const =>
      simp only [kind]
      exact handled_float at_b (jitOne_at here kind) fun _ => ⟨_, rfl, trivial⟩
    | f64const =>
      simp only [kind]
      exact handled_float at_b (jitOne_at here kind) fun _ => ⟨_, rfl, trivial⟩
    | unknown =>
      simp only [kind]
      rw [loop_unknown inside here kind]
      exact Iff.rfl

/-- The loop is decided by its bytes. The induction is on the turns left, of which there are as
many as bytes. -/
theorem jitLoop_decided (fuel : Nat) : Decided fuel := by
  induction fuel with
  | zero =>
    intro f i pairs hcode enough
    cases List.eq_nil_of_length_eq_zero (Nat.le_zero.mp enough)
    rw [loop_behind hcode]
    exact Iff.rfl
  | succ fuel decided => exact decided_succ decided

/-- `jiting_wasm_code` on any bytes, from any offset: the block of the function itself is
open while they are walked. -/
theorem jiting_wasm_code_handled_iff (f : WasmFunction) (pairs : List HexPair) (l i : Nat) :
    Handled (jiting_wasm_code (f.set_code_vec (pairs.map HexPair.text) l) i) ↔
      Clean (Refused f) (pairs.drop i) (f.control_flow_stack.length + 1) := by
  have enough : (pairs.drop i).length ≤ (pairs.map HexPair.text).length := by
    rw [List.length_map, List.length_drop]
    omega
  exact jitLoop_decided _ (f := { f.set_code_vec (pairs.map HexPair.text) l with
    control_flow_stack := { label := "end", signature := f.result_data } ::
      f.control_flow_stack }) List.map_drop.symm enough

/-- On a body of one `block` opcode the loop never ends. -/
theorem block_not_handled :
    jiting_wasm_code (WasmFunction.set_code_vec {} [HexPair.text ⟨'0', '2', by decide⟩]) 0 =
        .error (.divergence "no branch of jiting_wasm_code moves past the opcode") ∧
      ¬ Handled (jiting_wasm_code
        (WasmFunction.set_code_vec {} [HexPair.text ⟨'0', '2', by decide⟩]) 0) := by
  have stuck :
      jiting_wasm_code (WasmFunction.set_code_vec {} [HexPair.text ⟨'0', '2', by decide⟩]) 0 =
        .error (.divergence "no branch of jiting_wasm_code moves past the opcode") := rfl
  refine ⟨stuck, ?_⟩
  rw [stuck]
  exact id

end OpcodeLoop
