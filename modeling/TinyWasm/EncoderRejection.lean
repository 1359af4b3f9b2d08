import TinyWasm.EncoderRoundTrip

/-!
# Operands an encoder cannot represent

`setField` refuses values above the mask of the field and nothing else. What
each encoder lets through on the other side of zero, in the upper half of a
signed field or below the access size is described per encoder.
-/

namespace EncoderRejection

open HexText Opcode ArmInstruction EncoderCorrectness EncoderRoundTrip EncoderCall

def Throws {α : Type} (call : Except CppError α) : Prop := ∃ e, call = .error e

/-- The register type of an integer register. -/
def intReg : Width → RegType
  | .w => .wReg
  | .x => .xReg

/-- The encoders with a bounded operand, on W and X registers. -/
inductive BoundedCall where
  | ldpStp (width : Width) (ldstType : LdStType) (rt rt2 rn : RegNum) (imm : BitVec 32)
      (mode : EncodingMode)
  | loadStoreImm (width : Width) (ldstType : LdStType) (rt rn : RegNum) (imm : BitVec 16)
      (mode : EncodingMode)
  | branch (imm : BitVec 32) (withLink : Bool)
  | branchCondition (imm19 : BitVec 32) (cond : BitVec 8)
  | addSubImm (width : Width) (isSub : Bool) (rd rn : RegNum) (imm : BitVec 16)
      (shift : BitVec 8) (isCmp setFlag : Bool)
  | movz (rd : RegNum) (imm16 : BitVec 16) (width : Width) (shift : BitVec 8)
  | movk (rd : RegNum) (imm16 : BitVec 16) (width : Width) (shift : BitVec 8)
  deriving DecidableEq, Repr

namespace BoundedCall

def run (smallEndian : Bool) : BoundedCall → Except CppError Text
  | ldpStp width ldstType rt rt2 rn imm mode =>
    encodeLdpStp (intReg width) ldstType rt rt2 rn imm mode smallEndian
  | loadStoreImm width ldstType rt rn imm mode =>
    encodeLoadStoreImm (intReg width) ldstType rt rn imm mode smallEndian
  | branch imm withLink => encodeBranch imm withLink smallEndian
  | branchCondition imm19 cond => encodeBranchCondition imm19 cond smallEndian
  | addSubImm width isSub rd rn imm shift isCmp setFlag =>
    encodeAddSubImm (intReg width) isSub rd rn imm shift isCmp setFlag smallEndian
  | movz rd imm16 width shift => encodeMovz rd imm16 (intReg width) shift smallEndian
  | movk rd imm16 width shift => encodeMovk rd imm16 (intReg width) shift smallEndian

/-- The same call among all encoder calls, where the legal operands are defined. -/
def call : BoundedCall → EncoderCall
  | ldpStp width ldstType rt rt2 rn imm mode =>
    .ldpStp (intReg width) ldstType rt rt2 rn imm mode
  | loadStoreImm width ldstType rt rn imm mode =>
    .loadStoreImm (intReg width) ldstType rt rn imm mode
  | branch imm withLink => .branch imm withLink
  | branchCondition imm19 cond => .branchCondition imm19 cond
  | addSubImm width isSub rd rn imm shift isCmp setFlag =>
    .addSubImm (intReg width) isSub rd rn imm shift isCmp setFlag
  | movz rd imm16 width shift => .movz rd imm16 (intReg width) shift
  | movk rd imm16 width shift => .movk rd imm16 (intReg width) shift

/-- An indexed offset below the field or in the upper half of it, and an unsigned one that
is not a multiple of the access size. -/
def UncheckedOffset (width : Width) (imm : Int) : EncodingMode → Prop
  | .preIndex | .postIndex => imm < -256 ∨ 256 ≤ imm ∧ imm < 512
  | .unSignedOffset => 0 ≤ imm ∧ imm < 4096 * width.bytes ∧ ¬ (width.bytes : Int) ∣ imm
  | .signedOffset => False

/-- A half-word position between two half words, or in the upper half of a W register. -/
def UncheckedHalf (width : Width) (shift : BitVec 8) : Prop :=
  shift.toNat < 64 ∧ (shift.toNat % 16 ≠ 0 ∨ width = .w ∧ 32 ≤ shift.toNat)

/-- The operands no check refuses although the instruction has no room for them. -/
def Unchecked : BoundedCall → Prop
  | ldpStp width _ rt rt2 rn imm mode =>
    IsReg rt ∧ IsReg rt2 ∧ IsReg rn ∧ mode ≠ .unSignedOffset ∧
      (imm.toInt < -64 * width.bytes ∨ 64 * width.bytes ≤ imm.toInt ∨
        ¬ (width.bytes : Int) ∣ imm.toInt)
  | loadStoreImm width _ rt rn imm mode =>
    IsReg rt ∧ IsReg rn ∧ UncheckedOffset width imm.toInt mode
  | branch imm _ => imm.toInt < -2 ^ 25 ∨ 2 ^ 25 ≤ imm.toInt ∧ imm.toInt < 2 ^ 26
  | branchCondition imm19 cond =>
    cond.toNat < 16 ∧
      (imm19.toInt < -2 ^ 18 ∨ 2 ^ 18 ≤ imm19.toInt ∧ imm19.toInt < 2 ^ 19)
  | addSubImm .. => False
  | movz rd _ width shift | movk rd _ width shift => IsReg rd ∧ UncheckedHalf width shift

end BoundedCall

open BoundedCall

/-! ### When an encoder throws -/

theorem not_throws_ok {α : Type} (a : α) : ¬ Throws (.ok a) := by
  rintro ⟨e, h⟩
  cases h

theorem throws_error {α : Type} (e : CppError) : Throws (.error e : Except CppError α) :=
  ⟨e, rfl⟩

theorem throws_error_bind {α β : Type} (e : CppError) (next : α → Except CppError β) :
    Throws (.error e >>= next) := ⟨e, rfl⟩

/-- A field write throws on a value above the mask, and otherwise goes on. -/
theorem throws_setField {β : Type} (opcode : Arm64Opcode) (val : Int) (offset len : Nat)
    (next : Arm64Opcode → Except CppError β) :
    Throws (opcode.setField val offset len >>= next) ↔
      2 ^ len - 1 < val ∨ Throws (next { opcode with
        inst := opcode.inst ||| BitFields.place 32 (BitVec.ofInt 64 val) offset len }) := by
  rw [Arm64Opcode.setField]
  by_cases high : val > 2 ^ len - 1
  · rw [if_pos high]
    exact ⟨fun _ => Or.inl high, fun _ => throws_error _⟩
  · rw [if_neg high]
    constructor
    · intro h
      exact Or.inr h
    · rintro (h | h)
      · exact absurd h high
      · exact h

theorem throws_addSubImm (width : Width) (isSub : Bool) (rd rn : RegNum) (imm : BitVec 16)
    (shift : BitVec 8) (isCmp setFlag e : Bool) :
    Throws (encodeAddSubImm (intReg width) isSub rd rn imm shift isCmp setFlag e) ↔
      2 ≤ shift.toNat ∨ 4096 ≤ imm.toNat ∨ ¬ IsReg rn ∨ ¬ IsReg rd := by
  simp only [encodeAddSubImm, Arm64Opcode.setSf, Arm64Opcode.setSh, Arm64Opcode.setImm12,
    Arm64Opcode.setRn, Arm64Opcode.setRd, throws_setField, pure, Except.pure, not_throws_ok,
    or_false]
  have := isX_fits (intReg width)
  have := toInt_short isSub
  have := toInt_short setFlag
  simp only [IsReg]
  omega

theorem throws_branch (imm : BitVec 32) (withLink e : Bool) :
    Throws (encodeBranch imm withLink e) ↔ 2 ^ 26 ≤ imm.toInt := by
  simp only [encodeBranch, throws_setField, pure, Except.pure, not_throws_ok, or_false]
  have := toInt_short withLink
  omega

theorem throws_branchCondition (imm19 : BitVec 32) (cond : BitVec 8) (e : Bool) :
    Throws (encodeBranchCondition imm19 cond e) ↔
      2 ^ 19 ≤ imm19.toInt ∨ 16 ≤ cond.toNat := by
  simp only [encodeBranchCondition, Arm64Opcode.setImm19, throws_setField, pure, Except.pure,
    not_throws_ok, or_false]
  omega

theorem throws_movWide (kind : MovKind) (rd : RegNum) (imm16 : BitVec 16) (width : Width)
    (shift : BitVec 8) (e : Bool) :
    Throws (encodeMovWide (movBits kind) rd imm16 (intReg width) shift e) ↔
      64 ≤ shift.toNat ∨ ¬ IsReg rd := by
  simp only [encodeMovWide, Arm64Opcode.setSf, Arm64Opcode.setHw, Arm64Opcode.setImm16,
    Arm64Opcode.setRd, throws_setField, pure, Except.pure, not_throws_ok, or_false,
    BitVec.toNat_ushiftRight, Nat.shiftRight_eq_div_pow]
  have := isX_fits (intReg width)
  have small : movBits kind ≤ 2 ^ 32 - 1 := by cases kind <;> decide
  have := imm16.isLt
  simp only [IsReg]
  omega

/-- The offset of a pair is narrowed to eight bits first, so the check of its field never
fails. -/
theorem throws_ldpStp (width : Width) (ldstType : LdStType) (rt rt2 rn : RegNum)
    (imm : BitVec 32) (mode : EncodingMode) (e : Bool) :
    Throws (encodeLdpStp (intReg width) ldstType rt rt2 rn imm mode e) ↔
      mode = .unSignedOffset ∨ ¬ IsReg rt2 ∨ ¬ IsReg rn ∨ ¬ IsReg rt := by
  have narrow := (((imm.sshiftRight (if intReg width = .xReg then 3 else 2)).setWidth 8 :
    BitVec 8)).toInt_lt
  have := isX_fits (intReg width)
  have := isLdr_short ldstType
  cases mode <;>
    simp only [encodeLdpStp, Arm64Opcode.setSf, Arm64Opcode.setImm7, Arm64Opcode.setRt2,
      Arm64Opcode.setRn, Arm64Opcode.setRt, throws_setField, throws_error_bind, pure,
      Except.pure, not_throws_ok, or_false, or_true, IsReg, reduceCtorEq, false_or, true_or]
  · omega
  · omega
  · omega

/-- The offset an encoder of single loads and stores refuses. -/
def RefusedOffset (width : Width) (imm : BitVec 16) : EncodingMode → Prop
  | .preIndex | .postIndex => 512 ≤ imm.toInt
  | .unSignedOffset => imm.toInt < 0 ∨ 4096 * width.bytes ≤ imm.toInt
  | .signedOffset => True

/-- The shifted offset is read as an unsigned value of 16 bits, so a negative one is too
large for the field. -/
theorem shifted_large (imm : BitVec 16) (width : Width) :
    (2 : Int) ^ 12 - 1 < ((imm.sshiftRight (if intReg width = .xReg then 3 else 2)).toNat : Int) ↔
      imm.toInt < 0 ∨ 4096 * width.bytes ≤ imm.toInt := by
  have value : ∀ k, (imm.sshiftRight k).toInt = imm.toInt / 2 ^ k := by
    intro k
    rw [BitVec.toInt_sshiftRight, Int.shiftRight_eq_div_pow]
    norm_num
  have signed : ∀ v : BitVec 16, v.toInt = v.toNat ∧ v.toNat < 2 ^ 15 ∨
      v.toInt = v.toNat - 2 ^ 16 ∧ 2 ^ 15 ≤ v.toNat := by
    intro v
    rw [BitVec.toInt_eq_toNat_cond]
    split <;> omega
  have := imm.isLt
  have large := signed imm
  cases width with
  | w =>
    have shifted := signed (imm.sshiftRight 2)
    have eq := value 2
    simp only [intReg, reduceCtorEq, if_false, Width.bytes]
    omega
  | x =>
    have shifted := signed (imm.sshiftRight 3)
    have eq := value 3
    simp only [intReg, if_true, Width.bytes]
    omega

theorem throws_loadStoreImm (width : Width) (ldstType : LdStType) (rt rn : RegNum)
    (imm : BitVec 16) (mode : EncodingMode) (e : Bool) :
    Throws (encodeLoadStoreImm (intReg width) ldstType rt rn imm mode e) ↔
      RefusedOffset width imm mode ∨ ¬ IsReg rt ∨ ¬ IsReg rn := by
  have := isX_fits (intReg width)
  have := isLdr_short ldstType
  cases mode <;>
    simp only [encodeLoadStoreImm, Arm64Opcode.setImm9, Arm64Opcode.setImm12,
      Arm64Opcode.setRn, Arm64Opcode.setRt, throws_setField, throws_error_bind, pure,
      Except.pure, not_throws_ok, or_false, or_true, true_or, IsReg, RefusedOffset,
      shifted_large, reduceCtorEq, if_true, if_false]
  · omega
  · omega
  · omega

/-! ### What is let through -/

theorem legalHalf_iff (width : Width) (shift : BitVec 8) :
    LegalHalf (intReg width) shift ↔
      shift.toNat % 16 = 0 ∧ shift.toNat < match width with | .w => 32 | .x => 64 := by
  have named : ∀ n : BitVec 8, shift = n ↔ shift.toNat = n.toNat := fun n => BitVec.toNat_inj.symm
  simp only [LegalHalf, named]
  cases width with
  | w =>
    have zero : (0 : BitVec 8).toNat = 0 := rfl
    have half : (16 : BitVec 8).toNat = 16 := rfl
    simp only [intReg, reduceCtorEq, false_and, or_false, zero, half]
    omega
  | x =>
    have zero : (0 : BitVec 8).toNat = 0 := rfl
    have half : (16 : BitVec 8).toNat = 16 := rfl
    have second : (32 : BitVec 8).toNat = 32 := rfl
    have third : (48 : BitVec 8).toNat = 48 := rfl
    simp only [intReg, true_and, zero, half, second, third]
    omega

theorem sized_intReg (width : Width) : Sized (intReg width) := by
  cases width
  · exact Or.inl rfl
  · exact Or.inr rfl

theorem scale_intReg (width : Width) : (2 : Int) ^ scale (intReg width) = width.bytes := by
  cases width <;> rfl

theorem movWide_rejects_iff (kind : MovKind) (rd : RegNum) (imm16 : BitVec 16) (width : Width)
    (shift : BitVec 8) (e : Bool) :
    (¬ (Sized (intReg width) ∧ IsReg rd ∧ LegalHalf (intReg width) shift) →
        Throws (encodeMovWide (movBits kind) rd imm16 (intReg width) shift e)) ↔
      ¬ (IsReg rd ∧ UncheckedHalf width shift) := by
  rw [throws_movWide, legalHalf_iff]
  simp only [sized_intReg, true_and, IsReg, UncheckedHalf]
  cases width
  · simp only [true_and]
    omega
  · simp only [reduceCtorEq, false_and, or_false]
    omega

/-- A call with operands the instruction cannot represent throws, unless it is of the kind
that no check refuses. -/
theorem rejects_iff (c : BoundedCall) (smallEndian : Bool) :
    (¬ c.call.Legal → Throws (c.run smallEndian)) ↔ ¬ c.Unchecked := by
  cases c with
  | ldpStp width ldstType rt rt2 rn imm mode =>
    simp only [call, Legal, BoundedCall.run, Unchecked, throws_ldpStp, sized_intReg,
      scale_intReg, true_and, IsReg, ne_eq]
    grind
  | loadStoreImm width ldstType rt rn imm mode =>
    simp only [call, Legal, BoundedCall.run, Unchecked, throws_loadStoreImm, sized_intReg,
      true_and]
    cases mode
    all_goals simp only [LegalOffset, RefusedOffset, UncheckedOffset, scale_intReg, IsReg]
    · omega
    · omega
    · grind
    · grind
  | branch imm withLink =>
    simp only [call, Legal, BoundedCall.run, Unchecked, throws_branch]
    omega
  | branchCondition imm19 cond =>
    simp only [call, Legal, BoundedCall.run, Unchecked, throws_branchCondition]
    omega
  | addSubImm width isSub rd rn imm shift isCmp setFlag =>
    simp only [call, Legal, BoundedCall.run, Unchecked, throws_addSubImm, sized_intReg,
      true_and, not_false_eq_true, iff_true, IsReg]
    omega
  | movz rd imm16 width shift => exact movWide_rejects_iff .movz rd imm16 width shift smallEndian
  | movk rd imm16 width shift => exact movWide_rejects_iff .movk rd imm16 width shift smallEndian

/-- `b` with the displacement 2^25 is returned as `b` with -2^25. -/
theorem branch_not_rejected :
    ¬ ∀ (c : BoundedCall) (smallEndian : Bool),
      ¬ c.call.Legal → Throws (c.run smallEndian) := by
  intro h
  have thrown := h (.branch (2 ^ 25) false) true
  simp only [call, Legal, BoundedCall.run, throws_branch] at thrown
  exact absurd (thrown (by decide)) (by decide)

end EncoderRejection
