import Mathlib.Tactic

/-!
# Bit fields of fixed-width words

A word assembled by or-ing masked values at fixed offsets is read back field
by field. The mask is the two's-complement one, so a negative value lands as
its residue modulo the field size. Nothing here knows an instruction format.
-/

namespace BitFields

/-- The mask with exactly the low `len` bits set, computed as `(1 << len) - 1`. -/
def lowMask (m len : Nat) : BitVec m := (1#m <<< len) - 1#m

/-- Mask `v` to `len` bits, shift it to `off` and cut the result to `n` bits. -/
def place (n : Nat) {m : Nat} (v : BitVec m) (off len : Nat) : BitVec n :=
  ((v &&& lowMask m len) <<< off).setWidth n

/-- The `len` bits of `w` starting at bit `off`. -/
def field (off len : Nat) {n : Nat} (w : BitVec n) : BitVec len :=
  w.extractLsb' off len

theorem lowMask_eq_ofNat {m len : Nat} (h : len < m) :
    lowMask m len = BitVec.ofNat m (2 ^ len - 1) := by
  have hpow : 2 ^ len < 2 ^ m := Nat.pow_lt_pow_right (by decide) h
  have hpos : 1 ≤ 2 ^ len := Nat.one_le_two_pow
  apply BitVec.eq_of_toNat_eq
  have hone : 1 % 2 ^ m = 1 := Nat.mod_eq_of_lt (by omega)
  simp only [lowMask, BitVec.toNat_sub, BitVec.toNat_shiftLeft, BitVec.toNat_ofNat, hone,
    Nat.shiftLeft_eq, Nat.one_mul, Nat.mod_eq_of_lt hpow]
  rw [show 2 ^ m - 1 + 2 ^ len = 2 ^ len - 1 + 2 ^ m by omega, Nat.add_mod_right]

theorem getLsbD_lowMask {m len : Nat} (h : len < m) (i : Nat) :
    (lowMask m len).getLsbD i = decide (i < len) := by
  rw [lowMask_eq_ofNat h, BitVec.getLsbD_ofNat, Nat.testBit_two_pow_sub_one]
  by_cases hi : i < len
  · simp [hi, Nat.lt_trans hi h]
  · simp [hi]

theorem getLsbD_place (n : Nat) {m : Nat} (v : BitVec m) {off len : Nat} (h : len < m)
    (hm : n ≤ m) (i : Nat) :
    (place n v off len).getLsbD i =
      (decide (i < n) && decide (off ≤ i) && decide (i < off + len) && v.getLsbD (i - off)) := by
  simp only [place, BitVec.getLsbD_setWidth, BitVec.getLsbD_shiftLeft, BitVec.getLsbD_and,
    getLsbD_lowMask h]
  by_cases hn : i < n
  · by_cases ho : off ≤ i
    · have hl : i - off < len ↔ i < off + len := by omega
      have him : i < m := by omega
      simp [hn, ho, him, hl, Nat.not_lt.mpr ho, Bool.and_comm]
    · simp [hn, ho, Nat.lt_of_not_le ho]
  · simp [hn]

@[simp] theorem field_or {n : Nat} (off len : Nat) (a b : BitVec n) :
    field off len (a ||| b) = field off len a ||| field off len b := by
  apply BitVec.eq_of_getLsbD_eq
  intro i hi
  simp [field, hi]

@[simp] theorem field_zero {n : Nat} (off len : Nat) :
    field off len (0#n) = BitVec.ofNat len 0 := by
  apply BitVec.eq_of_getLsbD_eq
  intro i hi
  simp [field]

/-- A placed value is read back, cut to the field, at its own place. -/
theorem field_place_same (n : Nat) {m : Nat} (v : BitVec m) {off len : Nat} (h : len < m)
    (hm : n ≤ m) (fits : off + len ≤ n) :
    field off len (place n v off len) = v.setWidth len := by
  apply BitVec.eq_of_getLsbD_eq
  intro i hi
  have hn : off + i < n := by omega
  simp only [field, BitVec.getLsbD_extractLsb', getLsbD_place n v h hm,
    BitVec.getLsbD_setWidth, Nat.add_sub_cancel_left]
  simp [hi, hn]

/-- A placed value leaves every field that does not meet it clear. -/
theorem field_place_disjoint (n : Nat) {m : Nat} (v : BitVec m) {off len off' len' : Nat}
    (h : len < m) (hm : n ≤ m) (apart : off + len ≤ off' ∨ off' + len' ≤ off) :
    field off' len' (place n v off len) = BitVec.ofNat len' 0 := by
  apply BitVec.eq_of_getLsbD_eq
  intro i hi
  simp only [field, BitVec.getLsbD_extractLsb', getLsbD_place n v h hm, BitVec.getLsbD_zero]
  rcases apart with before | after
  · have : ¬ off' + i < off + len := by omega
    simp [this]
  · have : ¬ off ≤ off' + i := by omega
    simp [this]

/-- Placing a value that fits a shorter field is placing it in that field. -/
theorem place_trim (n : Nat) {m : Nat} {v : BitVec m} (off len len' : Nat)
    (h : len < m) (h' : len' ≤ len) (hm : n ≤ m) (fits : v.toNat < 2 ^ len') :
    place n v off len = place n v off len' := by
  apply BitVec.eq_of_getLsbD_eq
  intro i hi
  rw [getLsbD_place n v h hm, getLsbD_place n v (by omega) hm]
  by_cases inside : i < off + len'
  · have : i < off + len := by omega
    simp [inside, this]
  · by_cases ho : off ≤ i
    · have high : v.getLsbD (i - off) = false := by
        have hpow : 2 ^ len' ≤ 2 ^ (i - off) := Nat.pow_le_pow_right (by decide) (by omega)
        exact Nat.testBit_lt_two_pow (by omega)
      simp [high]
    · simp [ho]

theorem field_field (off len off' len' : Nat) {n : Nat} (w : BitVec n)
    (inside : off' + len' ≤ len) :
    field off' len' (field off len w) = field (off + off') len' w := by
  apply BitVec.eq_of_getLsbD_eq
  intro i hi
  have : off' + i < len := by omega
  simp [field, hi, this, Nat.add_assoc]

/-- Two adjacent fields are one longer field. -/
theorem field_append (off len len' : Nat) {n : Nat} (w : BitVec n) :
    field (off + len') len w ++ field off len' w = field off (len + len') w := by
  apply BitVec.eq_of_getLsbD_eq
  intro i hi
  simp only [field, BitVec.getLsbD_append, BitVec.getLsbD_extractLsb']
  by_cases low : i < len'
  · simp [low, hi]
  · have : off + len' + (i - len') = off + i := by omega
    have : i - len' < len := by omega
    simp_all

/-- Cutting a two's-complement value commutes with cutting the word. -/
theorem setWidth_ofInt (v : Int) {len m : Nat} (h : len ≤ m) :
    (BitVec.ofInt m v).setWidth len = BitVec.ofInt len v := by
  apply BitVec.eq_of_toNat_eq
  have hdvd : (2 : Int) ^ len ∣ 2 ^ m := pow_dvd_pow 2 h
  have hm : 0 ≤ v % 2 ^ m := Int.emod_nonneg _ (by positivity)
  have hl : 0 ≤ v % 2 ^ len := Int.emod_nonneg _ (by positivity)
  simp only [BitVec.toNat_setWidth, BitVec.toNat_ofInt]
  zify
  rw [Int.toNat_of_nonneg hm, Int.toNat_of_nonneg hl]
  exact Int.emod_emod_of_dvd v hdvd

/-- A 32-bit word as the or of its fields, each given by offset, length and value. -/
def assemble (fields : List (Nat × Nat × Int)) : BitVec 32 :=
  fields.foldl (fun w f => w ||| place 32 (BitVec.ofInt 64 f.2.2) f.1 f.2.1) 0

@[simp] theorem assemble_nil : assemble [] = 0#32 := rfl

theorem assemble_snoc (fields : List (Nat × Nat × Int)) (f : Nat × Nat × Int) :
    assemble (fields ++ [f]) =
      assemble fields ||| place 32 (BitVec.ofInt 64 f.2.2) f.1 f.2.1 := by
  simp [assemble]

theorem assemble_cons (f : Nat × Nat × Int) (fields : List (Nat × Nat × Int)) :
    assemble (f :: fields) =
      place 32 (BitVec.ofInt 64 f.2.2) f.1 f.2.1 ||| assemble fields := by
  have shift : ∀ (fs : List (Nat × Nat × Int)) (a : BitVec 32),
      fs.foldl (fun w f => w ||| place 32 (BitVec.ofInt 64 f.2.2) f.1 f.2.1) a =
        a ||| assemble fs := by
    intro fs
    induction fs with
    | nil => intro a; simp
    | cons g fs ih =>
      intro a
      rw [assemble, List.foldl_cons, List.foldl_cons, ih, ih, ← BitVec.or_assoc]
      simp
  rw [assemble, List.foldl_cons, shift]
  simp

theorem assemble_append (fields more : List (Nat × Nat × Int)) :
    assemble (fields ++ more) = assemble fields ||| assemble more := by
  induction fields with
  | nil => simp
  | cons f fields ih => rw [List.cons_append, assemble_cons, assemble_cons, ih, BitVec.or_assoc]

/-- Read past a field that does not meet the one asked for. -/
@[simp] theorem field_assemble_skip {off len off' len' : Nat} (v : Int)
    (fields : List (Nat × Nat × Int)) (h : len < 64)
    (apart : off + len ≤ off' ∨ off' + len' ≤ off) :
    field off' len' (assemble ((off, len, v) :: fields)) =
      field off' len' (assemble fields) := by
  rw [assemble_cons, field_or, field_place_disjoint 32 _ h (by decide) apart, BitVec.zero_or]

/-- Read the field asked for. -/
@[simp] theorem field_assemble_hit {off len : Nat} (v : Int)
    (fields : List (Nat × Nat × Int)) (h : len < 64) (fits : off + len ≤ 32) :
    field off len (assemble ((off, len, v) :: fields)) =
      BitVec.ofInt len v ||| field off len (assemble fields) := by
  rw [assemble_cons, field_or, field_place_same 32 _ h (by decide) fits,
    setWidth_ofInt v (Nat.le_of_lt h)]

@[simp] theorem ofInt_toNat {m : Nat} (b : BitVec m) (len : Nat) :
    BitVec.ofInt len b.toNat = b.setWidth len := by
  rw [BitVec.ofInt_natCast]
  apply BitVec.eq_of_toNat_eq
  simp

theorem ofInt_toInt_setWidth {m : Nat} (b : BitVec m) {len : Nat} (h : len ≤ m) :
    BitVec.ofInt len b.toInt = b.setWidth len := by
  rw [← setWidth_ofInt b.toInt h, BitVec.ofInt_toInt]

/-- A value in the signed range of a shorter word survives the cut. -/
theorem toInt_setWidth_of_range {m : Nat} (b : BitVec m) {len : Nat} (h : len ≤ m)
    (hpos : 0 < len) (low : -2 ^ (len - 1) ≤ b.toInt) (high : b.toInt < 2 ^ (len - 1)) :
    (b.setWidth len).toInt = b.toInt := by
  rw [← ofInt_toInt_setWidth b h, BitVec.toInt_ofInt_eq_self hpos low high]

end BitFields
