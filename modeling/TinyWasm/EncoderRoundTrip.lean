import TinyWasm.EncoderCorrectness

/-!
# Encoding followed by decoding is the identity

One constructor of `EncoderCall` for each encoder, with the operands of the C++
signature. `Legal` is what the instruction set allows these operands to be, and
`requested` the instruction they name.
-/

namespace EncoderRoundTrip

open BitFields HexText Opcode ArmInstruction EncoderCorrectness

abbrev RegNum := BitVec 8

inductive EncoderCall where
  | ldpStp (regType : RegType) (ldstType : LdStType) (rt rt2 rn : RegNum) (imm : BitVec 32)
      (mode : EncodingMode)
  | loadStoreImm (regType : RegType) (ldstType : LdStType) (rt rn : RegNum) (imm : BitVec 16)
      (mode : EncodingMode)
  | loadStoreReg (regType : RegType) (ldstType : LdStType) (rt rn rm : RegNum)
      (extend : Extend)
  | movSP (regType : RegType) (rd rn : RegNum)
  | movRegister (regType : RegType) (rd rm : RegNum)
  | movz (rd : RegNum) (imm16 : BitVec 16) (regType : RegType) (shift : BitVec 8)
  | movk (rd : RegNum) (imm16 : BitVec 16) (regType : RegType) (shift : BitVec 8)
  | movn (rd : RegNum) (imm16 : BitVec 16) (regType : RegType) (shift : BitVec 8)
  | addSubShift (isSub : Bool) (regType : RegType) (rd rn rm : RegNum) (imm shift : BitVec 8)
      (isCmp : Bool)
  | addSubImm (regType : RegType) (isSub : Bool) (rd rn : RegNum) (imm : BitVec 16)
      (shift : BitVec 8) (isCmp setFlag : Bool)
  | compareImm (regType : RegType) (rn : RegNum) (imm12 : BitVec 16) (shift : Bool)
  | compareShift (regType : RegType) (rn rm : RegNum) (imm6 shift : BitVec 8)
  | compareNegativeShift (regType : RegType) (rn rm : RegNum) (imm6 shift : BitVec 8)
  | csel (regType : RegType) (rd rn rm cond : RegNum)
  | mul (regType : RegType) (rd rn rm : RegNum)
  | div (regType : RegType) (isSigned : Bool) (rd rn rm : RegNum)
  | branch (imm : BitVec 32) (withLink : Bool)
  | branchCondition (imm19 : BitVec 32) (cond : BitVec 8)
  | branchRegister (rn : RegNum) (hasReturn : Bool)
  | «return» (rn : RegNum)
  | adr (rd : RegNum) (imm : BitVec 32)
  | nop
  deriving DecidableEq, Repr

namespace EncoderCall

/-- The call, with the byte order the program always asks for. -/
def run : EncoderCall → Except CppError Text
  | ldpStp regType ldstType rt rt2 rn imm mode => encodeLdpStp regType ldstType rt rt2 rn imm mode
  | loadStoreImm regType ldstType rt rn imm mode =>
    encodeLoadStoreImm regType ldstType rt rn imm mode
  | loadStoreReg regType ldstType rt rn rm extend =>
    encodeLoadStoreReg regType ldstType rt rn rm (extendOption extend)
  | movSP regType rd rn => encodeMovSP regType rd rn
  | movRegister regType rd rm => encodeMovRegister regType rd rm
  | movz rd imm16 regType shift => encodeMovz rd imm16 regType shift
  | movk rd imm16 regType shift => encodeMovk rd imm16 regType shift
  | movn rd imm16 regType shift => encodeMovn rd imm16 regType shift
  | addSubShift isSub regType rd rn rm imm shift isCmp =>
    encodeAddSubShift isSub regType rd rn rm imm shift isCmp
  | addSubImm regType isSub rd rn imm shift isCmp setFlag =>
    encodeAddSubImm regType isSub rd rn imm shift isCmp setFlag
  | compareImm regType rn imm12 shift => encodeCompareImm regType rn imm12 shift
  | compareShift regType rn rm imm6 shift => encodeCompareShift regType rn rm imm6 shift
  | compareNegativeShift regType rn rm imm6 shift =>
    encodeCompareNegativeShift regType rn rm imm6 shift
  | csel regType rd rn rm cond => encodeCSEL regType rd rn rm cond
  | mul regType rd rn rm => encodeMul regType rd rn rm
  | div regType isSigned rd rn rm => encodeDiv regType isSigned rd rn rm
  | branch imm withLink => encodeBranch imm withLink
  | branchCondition imm19 cond => encodeBranchCondition imm19 cond
  | branchRegister rn hasReturn => encodeBranchRegister rn hasReturn
  | «return» rn => encodeReturn rn
  | adr rd imm => encodeAdr rd imm
  | nop => encodeNop

def Sized (regType : RegType) : Prop := regType = .wReg ∨ regType = .xReg

/-- A register number. -/
abbrev IsReg (r : RegNum) : Prop := r.toNat < 32

/-- A pair offset is a signed 7-bit multiple of the access size, an indexed offset
is signed and unscaled in 9 bits, an unsigned offset a 12-bit multiple. -/
def LegalOffset (regType : RegType) (imm : Int) : EncodingMode → Prop
  | .preIndex | .postIndex => -256 ≤ imm ∧ imm < 256
  | .unSignedOffset =>
    0 ≤ imm ∧ imm < 4096 * 2 ^ scale regType ∧ (2 : Int) ^ scale regType ∣ imm
  | .signedOffset => False

def LegalShift (regType : RegType) (amount shift : BitVec 8) : Prop :=
  (amount.toNat < if regType = .xReg then 64 else 32) ∧ shift.toNat < 3

def LegalHalf (regType : RegType) (shift : BitVec 8) : Prop :=
  shift = 0 ∨ shift = 16 ∨ regType = .xReg ∧ (shift = 32 ∨ shift = 48)

/-- The operands the instruction set allows. -/
def Legal : EncoderCall → Prop
  | ldpStp regType _ rt rt2 rn imm mode =>
    Sized regType ∧ IsReg rt ∧ IsReg rt2 ∧ IsReg rn ∧ mode ≠ .unSignedOffset ∧
      -64 * 2 ^ scale regType ≤ imm.toInt ∧ imm.toInt < 64 * 2 ^ scale regType ∧
      (2 : Int) ^ scale regType ∣ imm.toInt
  | loadStoreImm regType _ rt rn imm mode =>
    Sized regType ∧ IsReg rt ∧ IsReg rn ∧ LegalOffset regType imm.toInt mode
  | loadStoreReg regType _ rt rn rm _ => Sized regType ∧ IsReg rt ∧ IsReg rn ∧ IsReg rm
  | movSP regType rd rn => Sized regType ∧ IsReg rd ∧ IsReg rn
  | movRegister regType rd rm => Sized regType ∧ IsReg rd ∧ IsReg rm
  | movz rd _ regType shift | movk rd _ regType shift | movn rd _ regType shift =>
    Sized regType ∧ IsReg rd ∧ LegalHalf regType shift
  | addSubShift _ regType rd rn rm imm shift _ =>
    Sized regType ∧ IsReg rd ∧ IsReg rn ∧ IsReg rm ∧ LegalShift regType imm shift
  | addSubImm regType _ rd rn imm shift _ _ =>
    Sized regType ∧ IsReg rd ∧ IsReg rn ∧ imm.toNat < 4096 ∧ shift.toNat < 2
  | compareImm regType rn imm12 _ => Sized regType ∧ IsReg rn ∧ imm12.toNat < 4096
  | compareShift regType rn rm imm6 shift | compareNegativeShift regType rn rm imm6 shift =>
    Sized regType ∧ IsReg rn ∧ IsReg rm ∧ LegalShift regType imm6 shift
  | csel regType rd rn rm cond =>
    Sized regType ∧ IsReg rd ∧ IsReg rn ∧ IsReg rm ∧ cond.toNat < 16
  | mul regType rd rn rm | div regType _ rd rn rm =>
    Sized regType ∧ IsReg rd ∧ IsReg rn ∧ IsReg rm
  | branch imm _ => -2 ^ 25 ≤ imm.toInt ∧ imm.toInt < 2 ^ 25
  | branchCondition imm19 cond =>
    -2 ^ 18 ≤ imm19.toInt ∧ imm19.toInt < 2 ^ 18 ∧ cond.toNat < 16
  | branchRegister rn _ | «return» rn => IsReg rn
  | adr rd imm => IsReg rd ∧ -2 ^ 20 ≤ imm.toInt ∧ imm.toInt < 2 ^ 20
  | nop => True

/-- The instruction the operands name. -/
def requested : EncoderCall → Instr
  | ldpStp regType ldstType rt rt2 rn imm mode =>
    .ldpStp (decide (ldstType = .ldr)) (widthOf regType) (pairMode mode) (rt.setWidth 5)
      (rt2.setWidth 5) (rn.setWidth 5) imm.toInt
  | loadStoreImm regType ldstType rt rn imm mode =>
    .ldrStrImm (decide (ldstType = .ldr)) (widthOf regType) (addrMode mode) (rt.setWidth 5)
      (rn.setWidth 5) imm.toInt
  | loadStoreReg regType ldstType rt rn rm extend =>
    .ldrStrReg (decide (ldstType = .ldr)) (widthOf regType) (rt.setWidth 5) (rn.setWidth 5)
      (rm.setWidth 5) extend false
  | movSP regType rd rn =>
    .addSubImm false false (widthOf regType) (rd.setWidth 5) (rn.setWidth 5) 0 false
  | movRegister regType rd rm =>
    .orrShift (widthOf regType) (rd.setWidth 5) 31 (rm.setWidth 5) .lsl 0
  | movz rd imm16 regType shift =>
    .movWide .movz (widthOf regType) (rd.setWidth 5) imm16 (BitVec.ofNat 2 (shift.toNat / 16))
  | movk rd imm16 regType shift =>
    .movWide .movk (widthOf regType) (rd.setWidth 5) imm16 (BitVec.ofNat 2 (shift.toNat / 16))
  | movn rd imm16 regType shift =>
    .movWide .movn (widthOf regType) (rd.setWidth 5) imm16 (BitVec.ofNat 2 (shift.toNat / 16))
  | addSubShift isSub regType rd rn rm imm shift isCmp =>
    .addSubShift isSub isCmp (widthOf regType) (rd.setWidth 5) (rn.setWidth 5) (rm.setWidth 5)
      (shiftOf shift) (imm.setWidth 6)
  | addSubImm regType isSub rd rn imm shift _ setFlag =>
    .addSubImm isSub setFlag (widthOf regType) (rd.setWidth 5) (rn.setWidth 5)
      (imm.setWidth 12) (decide (shift = 1))
  | compareImm regType rn imm12 shift =>
    .addSubImm true true (widthOf regType) 31 (rn.setWidth 5) (imm12.setWidth 12) shift
  | compareShift regType rn rm imm6 shift =>
    .addSubShift true true (widthOf regType) 31 (rn.setWidth 5) (rm.setWidth 5)
      (shiftOf shift) (imm6.setWidth 6)
  | compareNegativeShift regType rn rm imm6 shift =>
    .addSubShift false true (widthOf regType) 31 (rn.setWidth 5) (rm.setWidth 5)
      (shiftOf shift) (imm6.setWidth 6)
  | csel regType rd rn rm cond =>
    .csel (widthOf regType) (rd.setWidth 5) (rn.setWidth 5) (rm.setWidth 5) (cond.setWidth 4)
  | mul regType rd rn rm =>
    .madd (widthOf regType) (rd.setWidth 5) (rn.setWidth 5) (rm.setWidth 5) 31
  | div regType isSigned rd rn rm =>
    .div isSigned (widthOf regType) (rd.setWidth 5) (rn.setWidth 5) (rm.setWidth 5)
  | branch imm withLink => .b withLink imm.toInt
  | branchCondition imm19 cond => .bCond (cond.setWidth 4) imm19.toInt
  | branchRegister rn hasReturn => .br hasReturn (rn.setWidth 5)
  | «return» rn => .ret (rn.setWidth 5)
  | adr rd imm => .adr (rd.setWidth 5) imm.toInt
  | nop => .nop

end EncoderCall

open EncoderCall

theorem half_of_legal {regType : RegType} {shift : BitVec 8} (legal : LegalHalf regType shift) :
    ((shift >>> 4).toNat < if regType = .xReg then 4 else 2) ∧
      (shift >>> 4).setWidth 2 = BitVec.ofNat 2 (shift.toNat / 16) := by
  rcases legal with rfl | rfl | ⟨rfl, rfl | rfl⟩
  · exact ⟨by split <;> decide, by decide⟩
  · exact ⟨by split <;> decide, by decide⟩
  · exact ⟨by decide, by decide⟩
  · exact ⟨by decide, by decide⟩

/-- A wide move of each kind, with its half-word position. -/
theorem movWide_yields (kind : MovKind) {regType : RegType} {rd shift : BitVec 8}
    (imm16 : BitVec 16) (hd : rd.toNat < 32) (legal : LegalHalf regType shift) :
    Yields (encodeMovWide (movBits kind) rd imm16 regType shift true)
      (.movWide kind (widthOf regType) (rd.setWidth 5) imm16
        (BitVec.ofNat 2 (shift.toNat / 16))) := by
  obtain ⟨small, half⟩ := half_of_legal legal
  have h := encodeMovWide_yields kind regType shift imm16 hd small
  rwa [half] at h

theorem scaled_unsigned {imm : BitVec 16} {k : Nat} (low : 0 ≤ imm.toInt)
    (high : imm.toInt < 4096 * 2 ^ k) (aligned : (2 : Int) ^ k ∣ imm.toInt) :
    (imm.sshiftRight k).toNat < 4096 ∧
      ((imm.sshiftRight k).toNat : Int) * 2 ^ k = imm.toInt := by
  have scaled := scaled_offset imm k aligned
  have hpos : (0 : Int) < 2 ^ k := by positivity
  have lo : 0 ≤ (imm.sshiftRight k).toInt := by
    rw [← scaled] at low
    exact nonneg_of_mul_nonneg_left low hpos
  have hi : (imm.sshiftRight k).toInt < 4096 := by
    rw [← scaled] at high
    exact Int.lt_of_mul_lt_mul_right high (Int.le_of_lt hpos)
  have same : ((imm.sshiftRight k).toNat : Int) = (imm.sshiftRight k).toInt := by
    rw [BitVec.toInt_eq_toNat_cond] at lo ⊢
    split at lo
    · rw [if_pos ‹_›]
    · omega
  rw [same]
  exact ⟨by omega, scaled⟩

theorem loadStoreImm_yields {regType : RegType} {ldstType : LdStType} {rt rn : BitVec 8}
    {imm : BitVec 16} {mode : EncodingMode} (ht : rt.toNat < 32) (hn : rn.toNat < 32)
    (legal : LegalOffset regType imm.toInt mode) :
    Yields (encodeLoadStoreImm regType ldstType rt rn imm mode)
      (.ldrStrImm (decide (ldstType = .ldr)) (widthOf regType) (addrMode mode) (rt.setWidth 5)
        (rn.setWidth 5) imm.toInt) := by
  cases mode with
  | preIndex => exact encodeLoadStoreImm_indexed_yields _ _ (Or.inl rfl) ht hn legal.1 legal.2
  | postIndex => exact encodeLoadStoreImm_indexed_yields _ _ (Or.inr rfl) ht hn legal.1 legal.2
  | signedOffset => exact legal.elim
  | unSignedOffset =>
    obtain ⟨low, high, aligned⟩ := legal
    obtain ⟨fits, offset⟩ := scaled_unsigned low high aligned
    have h := encodeLoadStoreImm_unsigned_yields regType ldstType ht hn fits
    rw [bytes_eq_scale] at h
    push_cast at h
    rwa [offset] at h

theorem yields_requested (c : EncoderCall) (legal : c.Legal) : Yields c.run c.requested := by
  cases c with
  | ldpStp =>
    obtain ⟨-, ht, ht2, hn, hmode, low, high, aligned⟩ := legal
    exact encodeLdpStp_yields _ _ hmode ht ht2 hn low high aligned
  | loadStoreImm =>
    obtain ⟨-, ht, hn, offset⟩ := legal
    exact loadStoreImm_yields ht hn offset
  | loadStoreReg =>
    obtain ⟨-, ht, hn, hm⟩ := legal
    exact encodeLoadStoreReg_yields _ _ _ ht hn hm
  | movSP =>
    obtain ⟨-, hd, hn⟩ := legal
    exact encodeAddSubImm_yields _ _ false false hd hn (by decide) (by decide)
  | movRegister =>
    obtain ⟨-, hd, hm⟩ := legal
    exact encodeMovRegister_yields _ hd hm
  | movz =>
    obtain ⟨-, hd, half⟩ := legal
    exact movWide_yields .movz _ hd half
  | movk =>
    obtain ⟨-, hd, half⟩ := legal
    exact movWide_yields .movk _ hd half
  | movn =>
    obtain ⟨-, hd, half⟩ := legal
    exact movWide_yields .movn _ hd half
  | addSubShift =>
    obtain ⟨-, hd, hn, hm, amount, kind⟩ := legal
    exact encodeAddSubShift_yields _ _ _ hd hn hm amount kind
  | addSubImm regType isSub rd rn imm shift isCmp setFlag =>
    obtain ⟨-, hd, hn, himm, hshift⟩ := legal
    have one : decide (shift = 1) = decide (shift.setWidth 1 = 1#1) := by
      have : shift = 0 ∨ shift = 1 := by bv_omega
      rcases this with rfl | rfl <;> decide
    rw [requested, one]
    exact encodeAddSubImm_yields _ _ isCmp _ hd hn himm hshift
  | compareImm regType rn imm12 shift =>
    obtain ⟨-, hn, himm⟩ := legal
    have h : Yields (encodeAddSubImm regType true 31 rn imm12 (if shift then 1 else 0) true true)
        _ := encodeAddSubImm_yields regType true true true (by decide) hn himm
          (by split <;> decide)
    cases shift
    · exact h
    · exact h
  | compareShift =>
    obtain ⟨-, hn, hm, amount, kind⟩ := legal
    exact encodeAddSubShift_yields _ _ _ (by decide) hn hm amount kind
  | compareNegativeShift =>
    obtain ⟨-, hn, hm, amount, kind⟩ := legal
    exact encodeAddSubShift_yields _ _ _ (by decide) hn hm amount kind
  | csel =>
    obtain ⟨-, hd, hn, hm, hc⟩ := legal
    exact encodeCSEL_yields _ hd hn hm hc
  | mul =>
    obtain ⟨-, hd, hn, hm⟩ := legal
    exact encodeMul_yields _ hd hn hm
  | div =>
    obtain ⟨-, hd, hn, hm⟩ := legal
    exact encodeDiv_yields _ _ hd hn hm
  | branch =>
    obtain ⟨low, high⟩ := legal
    exact encodeBranch_yields _ _ low high
  | branchCondition =>
    obtain ⟨low, high, hc⟩ := legal
    exact encodeBranchCondition_yields _ _ low high hc
  | branchRegister => exact encodeBranchRegister_yields _ legal
  | «return» => exact encodeReturn_yields legal
  | adr =>
    obtain ⟨hd, low, high⟩ := legal
    exact encodeAdr_yields hd low high
  | nop => exact encodeNop_yields

theorem wordText_digits (w : Word) : ∀ ch ∈ wordText w, (hexDigit? ch).isSome := by
  intro ch hch
  have digit : ∀ v : BitVec 4, (hexDigit? (upperDigit v)).isSome := by
    intro v
    rw [hexDigit?_upperDigit]
    rfl
  simp only [wordText, toHexString, List.drop_succ_cons, List.drop_zero, List.mem_cons,
    List.not_mem_nil, or_false] at hch
  rcases hch with rfl | rfl | rfl | rfl | rfl | rfl | rfl | rfl
  all_goals exact digit _

/-- A legal call prints eight hex digits, and the four bytes loaded from them, lowest
first, decode to the instruction asked for. -/
theorem encoder_round_trip (c : EncoderCall) (legal : c.Legal) :
    ∃ text b0 b1 b2 b3, c.run = .ok text ∧ text.length = 8 ∧
      (∀ ch ∈ text, (hexDigit? ch).isSome) ∧ charArray text = .ok [b0, b1, b2, b3] ∧
      decode (b3 ++ b2 ++ b1 ++ b0) = some c.requested := by
  obtain ⟨w, hrun, hdecode⟩ := yields_requested c legal
  have loaded : charArray (wordText w ++ []) = .ok _ := charArray_wordText rfl
  rw [List.append_nil] at loaded
  refine ⟨wordText w, _, _, _, _, hrun, wordText_length w, wordText_digits w, loaded, ?_⟩
  rw [word_of_bytes, hdecode]

/-- `stp x29, x30, [sp, #-0x20]!`, as the entry sequence uses it. -/
theorem encoder_round_trip_stp :
    ∃ text b0 b1 b2 b3,
      encodeLdpStp .xReg .str 29 30 31 (-0x20) .preIndex = .ok text ∧ text.length = 8 ∧
      (∀ ch ∈ text, (hexDigit? ch).isSome) ∧ charArray text = .ok [b0, b1, b2, b3] ∧
      decode (b3 ++ b2 ++ b1 ++ b0) = some (.ldpStp false .x .preIndex 29 30 31 (-0x20)) :=
  encoder_round_trip (.ldpStp .xReg .str 29 30 31 (-0x20) .preIndex)
    ⟨Or.inr rfl, by decide, by decide, by decide, by decide, by decide, by decide, by decide⟩

end EncoderRoundTrip
