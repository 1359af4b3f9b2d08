import TinyWasm.Opcode
import TinyWasm.ArmInstruction

/-!
# The encoders against the A64 tables

Each encoder is first shown to or together fields that do not overlap; the
word is then decoded field by field. The literals the encoders or in at one
offset span several fields of the tables, so they are split into those fields.
-/

namespace EncoderCorrectness

open BitFields HexText Opcode ArmInstruction

/-- The call prints one instruction word, which decodes to `i`. -/
def Yields (call : Except CppError Text) (i : Instr) : Prop :=
  ∃ w, call = .ok (wordText w) ∧ decode w = some i

def widthOf (regType : RegType) : Width := if regType = .xReg then .x else .w

section FieldWrites
variable {β : Type} (fields : List (Nat × Nat × Int)) (e : Bool)
variable (next : Arm64Opcode → Except CppError β)

theorem opcode_start : ({} : Arm64Opcode) = ⟨assemble [], true⟩ := rfl

theorem setField_fits {val : Int} (offset : Nat) {len : Nat} (fits : val ≤ 2 ^ len - 1) :
    (Arm64Opcode.setField ⟨assemble fields, e⟩ val offset len >>= next) =
      next ⟨assemble (fields ++ [(offset, len, val)]), e⟩ := by
  rw [Arm64Opcode.setField, if_neg (Int.not_lt.mpr fits), assemble_snoc]
  rfl

/-- A value written without a length fills only the field it fits in. -/
theorem setField_short {val : Int} (offset len : Nat) (hlen : len ≤ 32)
    (fits : 0 ≤ val ∧ val < 2 ^ len) :
    (Arm64Opcode.setField ⟨assemble fields, e⟩ val offset >>= next) =
      next ⟨assemble (fields ++ [(offset, len, val)]), e⟩ := by
  obtain ⟨n, rfl⟩ := Int.eq_ofNat_of_zero_le fits.1
  have hn : n < 2 ^ len := by exact_mod_cast fits.2
  have h32 : 2 ^ len ≤ 2 ^ 32 := Nat.pow_le_pow_right (by decide) hlen
  have hmod : n % 2 ^ 64 < 2 ^ len := Nat.lt_of_le_of_lt (Nat.mod_le _ _) hn
  rw [setField_fits fields e next offset (by omega), assemble_snoc, assemble_snoc,
    place_trim 32 offset 32 len (by decide) hlen (by decide)]
  simpa [BitVec.ofInt_natCast] using hmod

/-- A literal written without a length, split into the fields of the tables. -/
theorem setField_literal {val : Int} (offset : Nat) (pieces : List (Nat × Nat × Int))
    (fits : val ≤ 2 ^ 32 - 1)
    (split : place 32 (BitVec.ofInt 64 val) offset 32 = assemble pieces) :
    (Arm64Opcode.setField ⟨assemble fields, e⟩ val offset >>= next) =
      next ⟨assemble (fields ++ pieces), e⟩ := by
  rw [setField_fits fields e next offset fits, assemble_snoc, assemble_append, split]

end FieldWrites

theorem isX_fits (regType : RegType) : isX regType ≤ 2 ^ 1 - 1 := by
  cases regType <;> decide

theorem isX_short (regType : RegType) : 0 ≤ isX regType ∧ isX regType < 2 ^ 1 := by
  cases regType <;> decide

theorem isLdr_short (ldstType : LdStType) : 0 ≤ isLdr ldstType ∧ isLdr ldstType < 2 ^ 1 := by
  cases ldstType <;> decide

theorem toInt_short (b : Bool) : 0 ≤ b.toInt ∧ b.toInt < 2 ^ 1 := by
  cases b <;> decide

@[simp] theorem ofInt_toInt_eq_one (b : Bool) : BitVec.ofInt 1 b.toInt = 1#1 ↔ b = true := by
  cases b <;> decide

@[simp] theorem ofInt_isX_eq_one (regType : RegType) :
    BitVec.ofInt 1 (isX regType) = 1#1 ↔ regType = .xReg := by
  cases regType <;> decide

@[simp] theorem ofInt_isLdr_eq_one (ldstType : LdStType) :
    BitVec.ofInt 1 (isLdr ldstType) = 1#1 ↔ ldstType = .ldr := by
  cases ldstType <;> decide

theorem decode_of_key {w : Word} (key : BitVec 5) (hkey : field 24 5 w = key)
    (other : field 2 3 key ≠ 0b101 ∨ field 29 2 w ≠ 0) : decode w = decodeClass key w := by
  have h : ¬ (field 26 3 w = 0b101 ∧ field 29 2 w = 0) := by
    rw [← hkey, field_field 24 5 2 3 w (by decide)] at other
    rintro ⟨h1, h2⟩
    exact other.elim (fun h => h h1) (fun h => h h2)
  rw [decode, if_neg h, hkey]

section Encoders
attribute [local simp] flag sizeFlag wordSize widthOf decodeClass

theorem encodeNop_yields : Yields encodeNop .nop := ⟨0xD503201F, by decide, by decide⟩

theorem encodeAddSubImm_yields (regType : RegType) (isSub : Bool) {rd rn : BitVec 8}
    {imm : BitVec 16} {shift : BitVec 8} (isCmp setFlag : Bool) (hd : rd.toNat < 32)
    (hn : rn.toNat < 32) (hi : imm.toNat < 4096) (hs : shift.toNat < 2) :
    Yields (encodeAddSubImm regType isSub rd rn imm shift isCmp setFlag)
      (.addSubImm isSub setFlag (widthOf regType) (rd.setWidth 5) (rn.setWidth 5)
        (imm.setWidth 12) (decide (shift.setWidth 1 = 1#1))) := by
  refine ⟨assemble [(31, 1, isX regType), (30, 1, isSub.toInt), (29, 1, setFlag.toInt),
    (24, 5, 0b10001), (22, 1, shift.toNat), (10, 12, imm.toNat), (5, 5, rn.toNat),
    (0, 5, rd.toNat)], ?_, ?_⟩
  · simp only [encodeAddSubImm, Arm64Opcode.setSf, Arm64Opcode.setSh, Arm64Opcode.setImm12,
      Arm64Opcode.setRn, Arm64Opcode.setRd, opcode_start]
    rw [setField_fits _ _ _ 31 (isX_fits _), setField_short _ _ _ 30 1 (by decide) (toInt_short _),
      setField_short _ _ _ 29 1 (by decide) (toInt_short _),
      setField_short _ _ _ 24 5 (by decide) (by decide), setField_fits _ _ _ 22 (by omega),
      setField_fits _ _ _ 10 (by omega), setField_fits _ _ _ 5 (by omega),
      setField_fits _ _ _ 0 (by omega)]
    rfl
  · rw [decode_of_key 0b10001 (by simp) (Or.inl (by decide))]
    simp [decodeAddSubImm]

/-- The shift operand of an encoder call, for the three shifts there are. -/
def shiftOf (shift : BitVec 8) : ShiftKind :=
  if shift = 0 then .lsl else if shift = 1 then .lsr else .asr

theorem shiftKind_of_lt {shift : BitVec 8} (h : shift.toNat < 3) :
    shiftKind (shift.setWidth 2) = some (shiftOf shift) := by
  have : shift = 0 ∨ shift = 1 ∨ shift = 2 := by bv_omega
  rcases this with rfl | rfl | rfl <;> decide

/-- The amount of a shifted register is below the register width. -/
theorem amount_allowed (regType : RegType) (imm : BitVec 8) {w : Word}
    (hw : field 31 1 w = BitVec.ofInt 1 (isX regType)) (hi : field 10 6 w = imm.setWidth 6)
    (small : imm.toNat < if regType = .xReg then 64 else 32) :
    flag 31 w = true ∨ field 15 1 w = 0 := by
  by_cases hx : regType = .xReg
  · exact Or.inl (by simp [hw, hx])
  · refine Or.inr ?_
    rw [if_neg hx] at small
    rw [← field_field 10 6 5 1 w (by decide), hi]
    apply BitVec.eq_of_toNat_eq
    have hzero : (0 : BitVec 1).toNat = 0 := rfl
    simp only [field, BitVec.extractLsb'_toNat, BitVec.toNat_setWidth,
      Nat.shiftRight_eq_div_pow, hzero]
    omega

theorem encodeAddSubShift_yields (isSub : Bool) (regType : RegType) {rd rn rm imm shift : BitVec 8}
    (isCmp : Bool) (hd : rd.toNat < 32) (hn : rn.toNat < 32) (hm : rm.toNat < 32)
    (hi : imm.toNat < if regType = .xReg then 64 else 32) (hs : shift.toNat < 3) :
    Yields (encodeAddSubShift isSub regType rd rn rm imm shift isCmp)
      (.addSubShift isSub isCmp (widthOf regType) (rd.setWidth 5) (rn.setWidth 5)
        (rm.setWidth 5) (shiftOf shift) (imm.setWidth 6)) := by
  have hi64 : imm.toNat < 64 := by split at hi <;> omega
  refine ⟨assemble [(31, 1, isX regType), (24, 5, 0b01011), (30, 1, isSub.toInt),
    (29, 1, isCmp.toInt), (22, 2, shift.toNat), (16, 5, rm.toNat), (5, 5, rn.toNat),
    (0, 5, rd.toNat), (10, 6, imm.toNat)], ?_, ?_⟩
  · simp only [encodeAddSubShift, Arm64Opcode.setSf, Arm64Opcode.setShift, Arm64Opcode.setRm,
      Arm64Opcode.setRn, Arm64Opcode.setRd, Arm64Opcode.setImm6, opcode_start]
    rw [setField_fits _ _ _ 31 (isX_fits _), setField_short _ _ _ 24 5 (by decide) (by decide),
      setField_short _ _ _ 30 1 (by decide) (toInt_short _),
      setField_short _ _ _ 29 1 (by decide) (toInt_short _), setField_fits _ _ _ 22 (by omega),
      setField_fits _ _ _ 16 (by omega), setField_fits _ _ _ 5 (by omega),
      setField_fits _ _ _ 0 (by omega), setField_fits _ _ _ 10 (by omega)]
    rfl
  · rw [decode_of_key 0b01011 (by simp) (Or.inl (by decide)), decodeClass]
    rw [if_neg (by decide), if_neg (by decide), if_neg (by decide), if_neg (by decide),
      if_pos rfl, decodeAddSubShift,
      if_pos ⟨by simp, amount_allowed regType imm (by simp) (by simp) hi⟩]
    simp [shiftKind_of_lt hs]

theorem encodeMul_yields (regType : RegType) {rd rn rm : BitVec 8} (hd : rd.toNat < 32)
    (hn : rn.toNat < 32) (hm : rm.toNat < 32) :
    Yields (encodeMul regType rd rn rm)
      (.madd (widthOf regType) (rd.setWidth 5) (rn.setWidth 5) (rm.setWidth 5) 31) := by
  refine ⟨assemble [(31, 1, isX regType), (24, 5, 0b11011), (10, 5, 0b11111),
    (16, 5, rm.toNat), (5, 5, rn.toNat), (0, 5, rd.toNat)], ?_, ?_⟩
  · simp only [encodeMul, Arm64Opcode.setSf, Arm64Opcode.setRm, Arm64Opcode.setRn,
      Arm64Opcode.setRd, opcode_start]
    rw [setField_fits _ _ _ 31 (isX_fits _),
      setField_literal _ _ _ 0 [(24, 5, 0b11011), (10, 5, 0b11111)] (by decide) (by decide),
      setField_fits _ _ _ 16 (by omega), setField_fits _ _ _ 5 (by omega),
      setField_fits _ _ _ 0 (by omega)]
    rfl
  · rw [decode_of_key 0b11011 (by simp) (Or.inl (by decide))]
    simp [decodeMadd]

theorem encodeDiv_yields (regType : RegType) (isSigned : Bool) {rd rn rm : BitVec 8}
    (hd : rd.toNat < 32) (hn : rn.toNat < 32) (hm : rm.toNat < 32) :
    Yields (encodeDiv regType isSigned rd rn rm)
      (.div isSigned (widthOf regType) (rd.setWidth 5) (rn.setWidth 5) (rm.setWidth 5)) := by
  refine ⟨assemble [(31, 1, isX regType), (24, 5, 0b11010), (21, 3, 0b110), (11, 5, 0b00001),
    (10, 1, isSigned.toInt), (16, 5, rm.toNat), (5, 5, rn.toNat), (0, 5, rd.toNat)], ?_, ?_⟩
  · simp only [encodeDiv, Arm64Opcode.setSf, Arm64Opcode.setRm, Arm64Opcode.setRn,
      Arm64Opcode.setRd, opcode_start]
    rw [setField_fits _ _ _ 31 (isX_fits _),
      setField_literal _ _ _ 22 [(24, 5, 0b11010), (21, 3, 0b110)] (by decide) (by decide),
      setField_short _ _ _ 11 5 (by decide) (by decide),
      setField_short _ _ _ 10 1 (by decide) (toInt_short _), setField_fits _ _ _ 16 (by omega),
      setField_fits _ _ _ 5 (by omega), setField_fits _ _ _ 0 (by omega)]
    rfl
  · rw [decode_of_key 0b11010 (by simp) (Or.inl (by decide))]
    simp [decodeSelectOrDiv]

theorem encodeReturn_yields {rn : BitVec 8} (hn : rn.toNat < 32) :
    Yields (encodeReturn rn) (.ret (rn.setWidth 5)) := by
  refine ⟨assemble [(29, 3, 0b110), (24, 5, 0b10110), (21, 3, 0b010), (10, 11, 0b11111000000),
    (5, 5, rn.toNat)], ?_, ?_⟩
  · simp only [encodeReturn, Arm64Opcode.setRn, opcode_start]
    rw [setField_literal _ _ _ 10
        [(29, 3, 0b110), (24, 5, 0b10110), (21, 3, 0b010), (10, 11, 0b11111000000)]
        (by decide) (by decide), setField_fits _ _ _ 5 (by omega)]
    rfl
  · have upper : field 29 2 (assemble [(29, 3, 0b110), (24, 5, 0b10110), (21, 3, 0b010),
        (10, 11, 0b11111000000), (5, 5, rn.toNat)]) = 0b10 := by
      rw [← field_field 29 3 0 2 _ (by decide)]
      simp
      decide
    rw [decode_of_key 0b10110 (by simp) (Or.inr (by rw [upper]; decide))]
    simp [decodeBranchRegister]

theorem encodeBranchRegister_yields {rn : BitVec 8} (hasReturn : Bool) (hn : rn.toNat < 32) :
    Yields (encodeBranchRegister rn hasReturn) (.br hasReturn (rn.setWidth 5)) := by
  refine ⟨assemble [(29, 3, 0b110), (24, 5, 0b10110), (10, 11, 0b11111000000),
    (21, 3, hasReturn.toInt), (5, 5, rn.toNat)], ?_, ?_⟩
  · have three : 0 ≤ hasReturn.toInt ∧ hasReturn.toInt < 2 ^ 3 := by
      cases hasReturn <;> decide
    simp only [encodeBranchRegister, opcode_start]
    rw [setField_literal _ _ _ 10 [(29, 3, 0b110), (24, 5, 0b10110), (10, 11, 0b11111000000)]
        (by decide) (by decide), setField_short _ _ _ 21 3 (by decide) three,
      setField_fits _ _ _ 5 (by omega)]
    rfl
  · have upper : field 29 2 (assemble [(29, 3, 0b110), (24, 5, 0b10110),
        (10, 11, 0b11111000000), (21, 3, hasReturn.toInt), (5, 5, rn.toNat)]) = 0b10 := by
      rw [← field_field 29 3 0 2 _ (by decide)]
      simp
      decide
    rw [decode_of_key 0b10110 (by simp) (Or.inr (by rw [upper]; decide))]
    cases hasReturn
    · simp [decodeBranchRegister]
    · simp [decodeBranchRegister]

theorem encodeBranch_yields (imm : BitVec 32) (withLink : Bool) (low : -2 ^ 25 ≤ imm.toInt)
    (high : imm.toInt < 2 ^ 25) : Yields (encodeBranch imm withLink) (.b withLink imm.toInt) := by
  refine ⟨assemble [(26, 3, 0b101), (31, 1, withLink.toInt), (0, 26, imm.toInt)], ?_, ?_⟩
  · simp only [encodeBranch, opcode_start]
    rw [setField_short _ _ _ 26 3 (by decide) (by decide),
      setField_short _ _ _ 31 1 (by decide) (toInt_short _), setField_fits _ _ _ 0 (by omega)]
    rfl
  · have disp : (BitVec.ofInt 26 imm.toInt).toInt = imm.toInt :=
      BitVec.toInt_ofInt_eq_self (by decide) low high
    simp [decode, disp]

theorem encodeBranchCondition_yields (imm19 : BitVec 32) (cond : BitVec 8)
    (low : -2 ^ 18 ≤ imm19.toInt) (high : imm19.toInt < 2 ^ 18) (hc : cond.toNat < 16) :
    Yields (encodeBranchCondition imm19 cond) (.bCond (cond.setWidth 4) imm19.toInt) := by
  refine ⟨assemble [(29, 3, 0b010), (24, 5, 0b10100), (5, 19, imm19.toInt),
    (0, 4, cond.toNat)], ?_, ?_⟩
  · simp only [encodeBranchCondition, Arm64Opcode.setImm19, opcode_start]
    rw [setField_literal _ _ _ 24 [(29, 3, 0b010), (24, 5, 0b10100)] (by decide) (by decide),
      setField_fits _ _ _ 5 (by omega), setField_fits _ _ _ 0 (by omega)]
    rfl
  · have upper : field 29 2 (assemble [(29, 3, 0b010), (24, 5, 0b10100), (5, 19, imm19.toInt),
        (0, 4, cond.toNat)]) = 0b10 := by
      rw [← field_field 29 3 0 2 _ (by decide)]
      simp
      decide
    have disp : (BitVec.ofInt 19 imm19.toInt).toInt = imm19.toInt :=
      BitVec.toInt_ofInt_eq_self (by decide) low high
    rw [decode_of_key 0b10100 (by simp) (Or.inr (by rw [upper]; decide))]
    simp [decodeBCond, disp]

/-- The two pieces `encodeAdr` cuts the offset into are its low 21 bits. -/
theorem adr_pieces (imm : BitVec 32) :
    (imm.sshiftRight 2 &&& 0x7FFFF).setWidth 19 ++ (imm &&& 0x3).setWidth 2 =
      imm.setWidth 21 := by
  apply BitVec.eq_of_getLsbD_eq
  intro i hi
  have h2 : (0x3 : BitVec 32) = lowMask 32 2 := by decide
  have h19 : (0x7FFFF : BitVec 32) = lowMask 32 19 := by decide
  simp only [h2, h19, BitVec.getLsbD_append, BitVec.getLsbD_setWidth, BitVec.getLsbD_and,
    getLsbD_lowMask (show 2 < 32 by decide),
    getLsbD_lowMask (show 19 < 32 by decide), BitVec.getLsbD_sshiftRight]
  grind

theorem encodeAdr_yields {rd : BitVec 8} {imm : BitVec 32} (hd : rd.toNat < 32)
    (low : -2 ^ 20 ≤ imm.toInt) (high : imm.toInt < 2 ^ 20) :
    Yields (encodeAdr rd imm) (.adr (rd.setWidth 5) imm.toInt) := by
  have pieces := adr_pieces imm
  have two : (imm &&& 0x3).toInt ≤ 2 ^ 2 - 1 := by
    have h : (imm &&& 0x3).toNat ≤ 3 := by
      rw [BitVec.toNat_and]
      exact Nat.and_le_right
    rw [BitVec.toInt_eq_toNat_of_lt (by omega)]
    omega
  have nineteen : (imm.sshiftRight 2 &&& 0x7FFFF).toInt ≤ 2 ^ 19 - 1 := by
    have h : (imm.sshiftRight 2 &&& 0x7FFFF).toNat ≤ 0x7FFFF := by
      rw [BitVec.toNat_and]
      exact Nat.and_le_right
    rw [BitVec.toInt_eq_toNat_of_lt (by omega)]
    omega
  refine ⟨assemble [(24, 5, 0b10000), (29, 2, (imm &&& 0x3).toInt),
    (5, 19, (imm.sshiftRight 2 &&& 0x7FFFF).toInt), (0, 5, rd.toNat)], ?_, ?_⟩
  · simp only [encodeAdr, Arm64Opcode.setRd, opcode_start]
    rw [setField_literal _ _ _ 28 [(24, 5, 0b10000)] (by decide) (by decide),
      setField_fits _ _ _ 29 two, setField_fits _ _ _ 5 nineteen, setField_fits _ _ _ 0 (by omega)]
    rfl
  · have disp : (imm.setWidth 21).toInt = imm.toInt :=
      toInt_setWidth_of_range imm (by decide) (by decide) low high
    rw [decode_of_key 0b10000 (by simp) (Or.inl (by decide))]
    generalize imm &&& 0x3 = lo at pieces
    generalize imm.sshiftRight 2 &&& 0x7FFFF = hi at pieces
    simp [decodeAdr, ofInt_toInt_setWidth, pieces, disp]

theorem encodeCSEL_yields (regType : RegType) {rd rn rm cond : BitVec 8} (hd : rd.toNat < 32)
    (hn : rn.toNat < 32) (hm : rm.toNat < 32) (hc : cond.toNat < 16) :
    Yields (encodeCSEL regType rd rn rm cond)
      (.csel (widthOf regType) (rd.setWidth 5) (rn.setWidth 5) (rm.setWidth 5)
        (cond.setWidth 4)) := by
  refine ⟨assemble [(31, 1, isX regType), (24, 5, 0b11010), (21, 3, 0b100), (0, 5, rd.toNat),
    (16, 5, rm.toNat), (5, 5, rn.toNat), (12, 4, cond.toNat)], ?_, ?_⟩
  · simp only [encodeCSEL, Arm64Opcode.setSf, Arm64Opcode.setRm, Arm64Opcode.setRn,
      Arm64Opcode.setRd, Arm64Opcode.setCond, opcode_start]
    rw [setField_fits _ _ _ 31 (isX_fits _),
      setField_literal _ _ _ 23 [(24, 5, 0b11010), (21, 3, 0b100)] (by decide) (by decide),
      setField_fits _ _ _ 0 (by omega), setField_fits _ _ _ 16 (by omega),
      setField_fits _ _ _ 5 (by omega), setField_fits _ _ _ 12 (by omega)]
    rfl
  · rw [decode_of_key 0b11010 (by simp) (Or.inl (by decide))]
    simp [decodeSelectOrDiv]

theorem encodeMovRegister_yields (regType : RegType) {rd rm : BitVec 8} (hd : rd.toNat < 32)
    (hm : rm.toNat < 32) :
    Yields (encodeMovRegister regType rd rm)
      (.orrShift (widthOf regType) (rd.setWidth 5) 31 (rm.setWidth 5) .lsl 0) := by
  refine ⟨assemble [(31, 1, isX regType), (16, 5, rm.toNat), (0, 5, rd.toNat),
    (24, 5, 0b01010), (29, 2, 0b01), (5, 5, 0b11111)], ?_, ?_⟩
  · simp only [encodeMovRegister, Arm64Opcode.setSf, Arm64Opcode.setRm, Arm64Opcode.setRn,
      Arm64Opcode.setRd, opcode_start]
    rw [setField_fits _ _ _ 31 (isX_fits _), setField_fits _ _ _ 16 (by omega),
      setField_fits _ _ _ 0 (by omega),
      setField_literal _ _ _ 25 [(24, 5, 0b01010), (29, 2, 0b01)] (by decide) (by decide),
      setField_fits _ _ _ 5 (by decide)]
    rfl
  · rw [decode_of_key 0b01010 (by simp) (Or.inl (by decide))]
    simp [decodeOrrShift, shiftKind]

/-- The bits the three wide moves write at offset 23. -/
def movBits : MovKind → Int
  | .movn => 0b100101
  | .movz => 0b10100101
  | .movk => 0b11100101

/-- The shift of a wide move is one of the half-word positions of the register. -/
theorem hw_allowed (regType : RegType) (shift : BitVec 8) {w : Word}
    (hw : field 31 1 w = BitVec.ofInt 1 (isX regType))
    (hs : field 21 2 w = (shift >>> 4).setWidth 2)
    (small : (shift >>> 4).toNat < if regType = .xReg then 4 else 2) :
    flag 31 w = true ∨ field 22 1 w = 0 := by
  by_cases hx : regType = .xReg
  · exact Or.inl (by simp [hw, hx])
  · refine Or.inr ?_
    rw [if_neg hx] at small
    rw [← field_field 21 2 1 1 w (by decide), hs]
    apply BitVec.eq_of_toNat_eq
    have hzero : (0 : BitVec 1).toNat = 0 := rfl
    simp only [field, BitVec.extractLsb'_toNat, BitVec.toNat_setWidth,
      Nat.shiftRight_eq_div_pow, hzero]
    omega

theorem encodeMovWide_yields (kind : MovKind) (regType : RegType) (shift : BitVec 8)
    {rd : BitVec 8} (imm16 : BitVec 16) (hd : rd.toNat < 32)
    (hs : (shift >>> 4).toNat < if regType = .xReg then 4 else 2) :
    Yields (encodeMovWide (movBits kind) rd imm16 regType shift true)
      (.movWide kind (widthOf regType) (rd.setWidth 5) imm16 ((shift >>> 4).setWidth 2)) := by
  have hs4 : (shift >>> 4).toNat < 4 := by split at hs <;> omega
  let opc : Int := match kind with | .movn => 0b00 | .movz => 0b10 | .movk => 0b11
  have split : place 32 (BitVec.ofInt 64 (movBits kind)) 23 32 =
      assemble [(24, 5, 0b10010), (23, 1, 1), (29, 2, opc)] := by
    cases kind <;> decide
  refine ⟨assemble [(31, 1, isX regType), (24, 5, 0b10010), (23, 1, 1), (29, 2, opc),
    (21, 2, (shift >>> 4).toNat), (5, 16, imm16.toNat), (0, 5, rd.toNat)], ?_, ?_⟩
  · simp only [encodeMovWide, Arm64Opcode.setSf, Arm64Opcode.setHw, Arm64Opcode.setImm16,
      Arm64Opcode.setRd, opcode_start]
    rw [setField_fits _ _ _ 31 (isX_fits _),
      setField_literal _ _ _ 23 _ (by cases kind <;> decide) split,
      setField_fits _ _ _ 21 (by omega), setField_fits _ _ _ 5 (by omega),
      setField_fits _ _ _ 0 (by omega)]
    rfl
  · rw [decode_of_key 0b10010 (by simp) (Or.inl (by decide)), decodeClass,
      if_neg (by decide), if_pos rfl, decodeMovWide]
    have allowed := fun (w : Word) hw hs' =>
      hw_allowed regType shift (w := w) hw hs' hs
    generalize shift >>> 4 = hw at allowed
    rw [if_pos ⟨by simp, allowed _ (by simp) (by simp)⟩]
    cases kind <;> simp [opc]

/-- The byte offset of a load or store, from its scaled field. -/
theorem scaled_offset {n : Nat} (imm : BitVec n) (k : Nat) (aligned : (2 : Int) ^ k ∣ imm.toInt) :
    (imm.sshiftRight k).toInt * 2 ^ k = imm.toInt := by
  rw [BitVec.toInt_sshiftRight, Int.shiftRight_eq_div_pow]
  exact_mod_cast Int.ediv_mul_cancel aligned

/-- Bits of the access size: the scale of an offset field. -/
def scale (regType : RegType) : Nat := if regType = .xReg then 3 else 2

theorem bytes_eq_scale (regType : RegType) : (widthOf regType).bytes = 2 ^ scale regType := by
  cases regType <;> decide

/-- The addressing mode of a register pair; the unsigned one is refused for pairs. -/
def pairMode : EncodingMode → PairMode
  | .preIndex => .preIndex
  | .postIndex => .postIndex
  | .signedOffset | .unSignedOffset => .signedOffset

/-- Shifting out the scale and narrowing to `int8_t` loses nothing of a legal offset. -/
theorem pair_offset {imm : BitVec 32} {k : Nat} (low : -64 * 2 ^ k ≤ imm.toInt)
    (high : imm.toInt < 64 * 2 ^ k) (aligned : (2 : Int) ^ k ∣ imm.toInt) :
    ((imm.sshiftRight k).setWidth 8).toInt * 2 ^ k = imm.toInt ∧
      -64 ≤ ((imm.sshiftRight k).setWidth 8).toInt ∧
      ((imm.sshiftRight k).setWidth 8).toInt < 64 := by
  have scaled := scaled_offset imm k aligned
  have hpos : (0 : Int) < 2 ^ k := by positivity
  have lo : -64 ≤ (imm.sshiftRight k).toInt := by
    rw [← scaled] at low
    exact Int.le_of_mul_le_mul_right low hpos
  have hi : (imm.sshiftRight k).toInt < 64 := by
    rw [← scaled] at high
    exact Int.lt_of_mul_lt_mul_right high (Int.le_of_lt hpos)
  have narrow : ((imm.sshiftRight k).setWidth 8).toInt = (imm.sshiftRight k).toInt :=
    toInt_setWidth_of_range _ (by decide) (by decide) (by omega) (by omega)
  exact ⟨by rw [narrow, scaled], by omega, by omega⟩

/-- The bits `encodeLdpStp` writes at offset 23, split into the class key and bit 23. -/
def pairBits : EncodingMode → Int
  | .preIndex => 0b1010011
  | .postIndex => 0b1010001
  | .signedOffset | .unSignedOffset => 0b1010010

def pairKey : EncodingMode → BitVec 5
  | .postIndex => 0b01000
  | _ => 0b01001

def pairBit : EncodingMode → Int
  | .preIndex | .postIndex => 1
  | .signedOffset | .unSignedOffset => 0

theorem pairBits_split (mode : EncodingMode) :
    place 32 (BitVec.ofInt 64 (pairBits mode)) 23 32 =
      assemble [(24, 5, (pairKey mode).toNat), (23, 1, pairBit mode), (29, 2, 0b01)] := by
  cases mode <;> decide

theorem encodeLdpStp_yields (regType : RegType) (ldstType : LdStType) {rt rt2 rn : BitVec 8}
    {imm : BitVec 32} {mode : EncodingMode} (hmode : mode ≠ .unSignedOffset)
    (ht : rt.toNat < 32) (ht2 : rt2.toNat < 32) (hn : rn.toNat < 32)
    (low : -64 * 2 ^ scale regType ≤ imm.toInt) (high : imm.toInt < 64 * 2 ^ scale regType)
    (aligned : (2 : Int) ^ scale regType ∣ imm.toInt) :
    Yields (encodeLdpStp regType ldstType rt rt2 rn imm mode)
      (.ldpStp (decide (ldstType = .ldr)) (widthOf regType) (pairMode mode) (rt.setWidth 5)
        (rt2.setWidth 5) (rn.setWidth 5) imm.toInt) := by
  obtain ⟨offset, lo, hi⟩ := pair_offset low high aligned
  rw [show (2 : Int) ^ scale regType = (widthOf regType).bytes by
    rw [bytes_eq_scale]; norm_cast] at offset
  have oneWrite : encodeLdpStp regType ldstType rt rt2 rn imm mode = (do
      let opcode ← Arm64Opcode.setField ⟨assemble [], true⟩ (isX regType) 31 1
      let opcode ← opcode.setField (isLdr ldstType) 22
      let opcode ← opcode.setField (pairBits mode) 23
      let opcode ← opcode.setField ((imm.sshiftRight (scale regType)).setWidth 8).toInt 15 7
      let opcode ← opcode.setField rt2.toNat 10 5
      let opcode ← opcode.setField rn.toNat 5 5
      let opcode ← opcode.setField rt.toNat 0 5
      return opcode.getInstruction) := by
    cases mode with
    | preIndex => rfl
    | postIndex => rfl
    | signedOffset => rfl
    | unSignedOffset => exact absurd rfl hmode
  rw [oneWrite]
  generalize (imm.sshiftRight (scale regType)).setWidth 8 = imm7 at *
  have disp : (BitVec.ofInt 7 imm7.toInt).toInt = imm7.toInt :=
    BitVec.toInt_ofInt_eq_self (by decide) lo hi
  refine ⟨assemble [(31, 1, isX regType), (22, 1, isLdr ldstType),
    (24, 5, (pairKey mode).toNat), (23, 1, pairBit mode), (29, 2, 0b01), (15, 7, imm7.toInt),
    (10, 5, rt2.toNat), (5, 5, rn.toNat), (0, 5, rt.toNat)], ?_, ?_⟩
  · rw [setField_fits _ _ _ 31 (isX_fits _),
      setField_short _ _ _ 22 1 (by decide) (isLdr_short _),
      setField_literal _ _ _ 23 _ (by cases mode <;> decide) (pairBits_split mode),
      setField_fits _ _ _ 15 (by omega), setField_fits _ _ _ 10 (by omega),
      setField_fits _ _ _ 5 (by omega), setField_fits _ _ _ 0 (by omega)]
    rfl
  · rw [decode_of_key (pairKey mode) (by simp) (Or.inl (by cases mode <;> decide))]
    have signedKey : field 0 2 (9#5) = 0b01#2 := by decide
    have postKey : field 0 2 (8#5) = 0b00#2 := by decide
    cases mode with
    | preIndex => simp [pairKey, pairBit, pairMode, decodeLdpStp, disp, ← offset, signedKey]
    | postIndex => simp [pairKey, pairBit, pairMode, decodeLdpStp, disp, ← offset, postKey]
    | signedOffset => simp [pairKey, pairBit, pairMode, decodeLdpStp, disp, ← offset, signedKey]
    | unSignedOffset => exact absurd rfl hmode

/-- The class key of a load or store, from the literal and the mode bit. -/
theorem loadStore_key {w : Word} (bit : BitVec 1) (upper : field 25 4 w = 0b1100)
    (lower : field 24 1 w = bit) : decode w = decodeClass (0b1100#4 ++ bit) w := by
  have key : field 24 5 w = 0b1100#4 ++ bit := by
    rw [← field_append 24 4 1 w, upper, lower]
    rfl
  have apart : ∀ bit : BitVec 1, field 2 3 (0b1100#4 ++ bit) ≠ 0b101 := by decide
  exact decode_of_key _ key (Or.inl (apart bit))

/-- The unsigned form takes any offset whose scaled value fits twelve bits, and
silently rounds it down to a multiple of the access size. -/
theorem encodeLoadStoreImm_unsigned_yields (regType : RegType) (ldstType : LdStType)
    {rt rn : BitVec 8} {imm : BitVec 16} (ht : rt.toNat < 32) (hn : rn.toNat < 32)
    (fits : (imm.sshiftRight (scale regType)).toNat < 4096) :
    Yields (encodeLoadStoreImm regType ldstType rt rn imm)
      (.ldrStrImm (decide (ldstType = .ldr)) (widthOf regType) .unsignedOffset (rt.setWidth 5)
        (rn.setWidth 5) ((imm.sshiftRight (scale regType)).toNat * (widthOf regType).bytes)) := by
  simp only [encodeLoadStoreImm, Arm64Opcode.setImm12, Arm64Opcode.setRt, Arm64Opcode.setRn,
    opcode_start]
  rw [show (if regType = .xReg then 3 else 2) = scale regType from rfl]
  generalize imm.sshiftRight (scale regType) = imm12 at fits
  have disp : imm12.toNat % 4096 = imm12.toNat := Nat.mod_eq_of_lt fits
  refine ⟨assemble [(31, 1, 1), (30, 1, isX regType), (29, 1, 1), (25, 4, 0b1100),
    (22, 1, isLdr ldstType), (24, 1, 1), (10, 12, imm12.toNat), (0, 5, rt.toNat),
    (5, 5, rn.toNat)], ?_, ?_⟩
  · rw [setField_short _ _ _ 31 1 (by decide) (by decide),
      setField_short _ _ _ 30 1 (by decide) (isX_short _),
      setField_literal _ _ _ 27 [(29, 1, 1), (25, 4, 0b1100)] (by decide) (by decide),
      setField_short _ _ _ 22 1 (by decide) (isLdr_short _),
      setField_short _ _ _ 24 1 (by decide) (by decide), setField_fits _ _ _ 10 (by omega),
      setField_fits _ _ _ 0 (by omega), setField_fits _ _ _ 5 (by omega)]
    rfl
  · rw [loadStore_key 1 (by simp) (by simp)]
    simp [decodeLdrStrUnsigned, disp]

/-- The indexing mode of a single load or store; the signed one is refused. -/
def addrMode : EncodingMode → AddrMode
  | .preIndex => .preIndex
  | .postIndex => .postIndex
  | .unSignedOffset | .signedOffset => .unsignedOffset

theorem encodeLoadStoreImm_indexed_yields (regType : RegType) (ldstType : LdStType)
    {rt rn : BitVec 8} {imm : BitVec 16} {mode : EncodingMode}
    (hmode : mode = .preIndex ∨ mode = .postIndex) (ht : rt.toNat < 32) (hn : rn.toNat < 32)
    (low : -256 ≤ imm.toInt) (high : imm.toInt < 256) :
    Yields (encodeLoadStoreImm regType ldstType rt rn imm mode)
      (.ldrStrImm (decide (ldstType = .ldr)) (widthOf regType) (addrMode mode) (rt.setWidth 5)
        (rn.setWidth 5) imm.toInt) := by
  let kind : Int := if mode = .preIndex then 0b11 else 0b01
  have disp : (BitVec.ofInt 9 imm.toInt).toInt = imm.toInt :=
    BitVec.toInt_ofInt_eq_self (by decide) low high
  refine ⟨assemble [(31, 1, 1), (30, 1, isX regType), (29, 1, 1), (25, 4, 0b1100),
    (22, 1, isLdr ldstType), (24, 1, 0), (12, 9, imm.toInt), (10, 2, kind), (0, 5, rt.toNat),
    (5, 5, rn.toNat)], ?_, ?_⟩
  · rcases hmode with rfl | rfl
    all_goals
      simp only [encodeLoadStoreImm, Arm64Opcode.setImm9, Arm64Opcode.setRt, Arm64Opcode.setRn,
        opcode_start]
      rw [setField_short _ _ _ 31 1 (by decide) (by decide),
        setField_short _ _ _ 30 1 (by decide) (isX_short _),
        setField_literal _ _ _ 27 [(29, 1, 1), (25, 4, 0b1100)] (by decide) (by decide),
        setField_short _ _ _ 22 1 (by decide) (isLdr_short _),
        setField_short _ _ _ 24 1 (by decide) (by decide), setField_fits _ _ _ 12 (by omega),
        setField_short _ _ _ 10 2 (by decide) (by decide),
        setField_fits _ _ _ 0 (by omega), setField_fits _ _ _ 5 (by omega)]
      rfl
  · rw [loadStore_key 0 (by simp) (by simp)]
    rcases hmode with rfl | rfl
    · simp [decodeLdrStrOther, disp, kind, addrMode]
    · simp [decodeLdrStrOther, disp, kind, addrMode]

/-- The four extend options of a register offset. -/
def extendOption : Extend → BitVec 32
  | .uxtw => 0b010
  | .lsl => 0b011
  | .sxtw => 0b110
  | .sxtx => 0b111

theorem encodeLoadStoreReg_yields (regType : RegType) (ldstType : LdStType) (extend : Extend)
    {rt rn rm : BitVec 8} (ht : rt.toNat < 32) (hn : rn.toNat < 32) (hm : rm.toNat < 32) :
    Yields (encodeLoadStoreReg regType ldstType rt rn rm (extendOption extend))
      (.ldrStrReg (decide (ldstType = .ldr)) (widthOf regType) (rt.setWidth 5) (rn.setWidth 5)
        (rm.setWidth 5) extend false) := by
  refine ⟨assemble [(31, 1, 1), (30, 1, isX regType), (29, 1, 1), (25, 4, 0b1100),
    (22, 1, isLdr ldstType), (21, 1, 1), (13, 3, (extendOption extend).toInt), (10, 2, 0b10),
    (16, 5, rm.toNat), (5, 5, rn.toNat), (0, 5, rt.toNat)], ?_, ?_⟩
  · simp only [encodeLoadStoreReg, Arm64Opcode.setOption, Arm64Opcode.setRt, Arm64Opcode.setRn,
      Arm64Opcode.setRm, opcode_start]
    rw [setField_short _ _ _ 31 1 (by decide) (by decide),
      setField_short _ _ _ 30 1 (by decide) (isX_short _),
      setField_literal _ _ _ 27 [(29, 1, 1), (25, 4, 0b1100)] (by decide) (by decide),
      setField_short _ _ _ 22 1 (by decide) (isLdr_short _),
      setField_short _ _ _ 21 1 (by decide) (by decide),
      setField_short _ _ _ 13 3 (by decide) (by cases extend <;> decide),
      setField_literal _ _ _ 11 [(10, 2, 0b10)] (by decide) (by decide),
      setField_fits _ _ _ 16 (by omega), setField_fits _ _ _ 5 (by omega),
      setField_fits _ _ _ 0 (by omega)]
    rfl
  · rw [loadStore_key 0 (by simp) (by simp)]
    cases extend
    all_goals simp [decodeLdrStrOther, extendOption, extendKind]

end Encoders

end EncoderCorrectness
