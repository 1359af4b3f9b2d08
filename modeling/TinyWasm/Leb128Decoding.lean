import TinyWasm.HexText
import TinyWasm.Leb128

/-!
# The two LEB128 decoders

`decodeULEB128` and `decodeSLEB128` shift the seven bits of a byte in an `int`
and extend its sign into a 64-bit result. The signed decoder leaves its loop at
the last byte without adding that byte's bits.
-/

namespace Leb128Decoding

open HexText

/-! ### The decoders -/

/-- `(input & 0x7f) << shift`, on an `int`. -/
def shiftedBits (input : Byte) (shift : Nat) : Except CppError (BitVec 32) :=
  if shift < 32 then .ok ((input &&& 0x7f).setWidth 32 <<< shift)
  else .error (.undefinedBehaviour "an int shifted by 32 or more")

/-- `result & mask` with `mask = (1UL << bits) - 1`. -/
def maskTo (bits : Nat) (result : BitVec 64) : Except CppError (BitVec 64) :=
  if bits < 64 then .ok (result &&& ((1 : BitVec 64) <<< bits - 1))
  else .error (.undefinedBehaviour "1UL shifted by 64 or more")

def ulebLoop : List Byte → BitVec 64 → Nat → Except CppError (BitVec 64)
  | [], result, _ => .ok result
  | input :: inputs, result, shift => do
    let result := result ||| (← shiftedBits input shift).signExtend 64
    if input &&& 0x80 = 0 then return result
    ulebLoop inputs result (shift + 7)

def decodeULEB128 (inputs : List Byte) (bits : Nat) : Except CppError (BitVec 64) := do
  maskTo bits (← ulebLoop inputs 0 0)

/-- The variables of `decodeSLEB128`, and the elements it has read. -/
structure Cursor where
  result : BitVec 64
  shift : Nat
  i : Nat
  reads : List Nat
  deriving DecidableEq, Repr

/-- `inputs[i]`, which is undefined behind the last element. -/
def Cursor.element (c : Cursor) (inputs : List Byte) : Except CppError (Byte × Cursor) :=
  match inputs[c.i]? with
  | some input => .ok (input, { c with reads := c.i :: c.reads })
  | none => .error (.undefinedBehaviour "vector::operator[] behind the end")

/-- The `while` loop; `fuel` bounds its turns. -/
def slebLoop (inputs : List Byte) (fuel : Nat) (c : Cursor) : Except CppError Cursor :=
  if c.i < inputs.length then do
    let (input, c) ← c.element inputs
    if input &&& 0x80 = 0 then return c
    match fuel with
    | 0 => .error (.divergence "the index of decodeSLEB128 stands still")
    | fuel + 1 =>
      let shifted ← shiftedBits input c.shift
      -- The test for a last byte inside the loop repeats the loop's own condition.
      slebLoop inputs fuel { c with
        result := c.result ||| shifted.signExtend 64, shift := c.shift + 7, i := c.i + 1 }
  else .ok c

/-- The result, and the elements read on the way to it. -/
def decodeSLEB128 (inputs : List Byte) (bits : Nat) :
    Except CppError (BitVec 64 × List Nat) := do
  let c ← slebLoop inputs inputs.length ⟨0, 0, 0, []⟩
  let c ←
    if c.shift < bits then do
      let (input, c) ← c.element inputs
      if input &&& 0x40 = 0 then pure c
      else pure { c with result := c.result ||| BitVec.allOnes 64 <<< c.shift }
    else pure c
  return (← maskTo bits c.result, c.reads)

/-! ### Bytes and shifted bits -/

theorem toNat_sevenBits (b : Byte) : (b &&& 0x7f).toNat = b.toNat % 128 := by
  rw [BitVec.toNat_and]
  exact Nat.and_two_pow_sub_one_eq_mod b.toNat 7

theorem continues_iff : ∀ b : Byte, b &&& 0x80 = 0 ↔ b.toNat < 128 := by decide +kernel

theorem signed_iff : ∀ b : Byte, b.toNat < 128 → (b &&& 0x40 = 0 ↔ b.toNat < 64) := by
  decide +kernel

/-- The low 32 bits of a number, extended like an `int`. -/
def extended (n : Nat) : BitVec 64 := (BitVec.ofNat 32 n).signExtend 64

/-- Seven bits above the bits read so far extend the number by one byte. -/
theorem extended_or {n shift : Nat} (b : Byte) (below : n < 2 ^ shift) :
    extended n ||| ((b &&& 0x7f).setWidth 32 <<< shift).signExtend 64 =
      extended (n + 2 ^ shift * (b.toNat % 128)) := by
  rw [extended, ← BitVec.signExtend_or, extended]
  apply congrArg (BitVec.signExtend 64)
  apply BitVec.eq_of_toNat_eq
  have apart : n ||| (b.toNat % 128) <<< shift = n + 2 ^ shift * (b.toNat % 128) := by
    rw [Nat.or_comm, ← Nat.shiftLeft_add_eq_or_of_lt below, Nat.shiftLeft_eq, Nat.add_comm,
      Nat.mul_comm]
  have small : b.toNat % 128 % 2 ^ 32 = b.toNat % 128 := by omega
  rw [BitVec.toNat_or, BitVec.toNat_shiftLeft, BitVec.toNat_setWidth, toNat_sevenBits, small,
    BitVec.toNat_ofNat, BitVec.toNat_ofNat, ← apart, Nat.or_mod_two_pow]

theorem extended_toNat (n : Nat) :
    (extended n).toNat = n % 2 ^ 32 + if 2 ^ 31 ≤ n % 2 ^ 32 then 2 ^ 64 - 2 ^ 32 else 0 := by
  have room : n % 2 ^ 32 < 2 ^ 64 := (Nat.mod_lt n (by decide)).trans (by decide)
  rw [extended, BitVec.toNat_signExtend, BitVec.toNat_setWidth, BitVec.toNat_ofNat,
    Nat.mod_eq_of_lt room, BitVec.msb_eq_decide, BitVec.toNat_ofNat]
  simp only [decide_eq_true_eq, Nat.reduceSub]

theorem extended_zero : extended 0 = 0 := by decide

theorem maskTo_toNat {bits : Nat} (narrow : bits < 64) (result : BitVec 64) :
    ∃ value, maskTo bits result = .ok value ∧ value.toNat = result.toNat % 2 ^ bits := by
  refine ⟨_, if_pos narrow, ?_⟩
  have power : ((1 : BitVec 64) <<< bits).toNat = 2 ^ bits := by
    have room : 2 ^ bits < 2 ^ 64 := Nat.pow_lt_pow_right (by decide) narrow
    have one : (1 : BitVec 64).toNat = 1 := rfl
    rw [BitVec.toNat_shiftLeft, Nat.shiftLeft_eq, one, Nat.one_mul, Nat.mod_eq_of_lt room]
  have mask : ((1 : BitVec 64) <<< bits - 1).toNat = 2 ^ bits - 1 := by
    have positive : 0 < 2 ^ bits := Nat.two_pow_pos bits
    rw [BitVec.toNat_sub_of_le (BitVec.le_def.mpr (by rw [power]; exact positive)), power]
    rfl
  rw [BitVec.toNat_and, mask, Nat.and_two_pow_sub_one_eq_mod]

/-! ### Unsigned numbers -/

/-- The loop takes an encoding off the front, whatever follows it. -/
theorem ulebLoop_unsigned {encoding : List Byte} (rest : List Byte) {m : Nat}
    (value : Leb128.unsigned encoding = some m) {n shift : Nat} (below : n < 2 ^ shift)
    (few : shift + 7 * encoding.length ≤ 35) :
    ulebLoop (encoding ++ rest) (extended n) shift = .ok (extended (n + 2 ^ shift * m)) := by
  induction encoding generalizing n shift m with
  | nil => exact nomatch value
  | cons b encoding ih =>
    rw [List.length_cons] at few
    have narrow : shift < 32 := by omega
    rw [List.cons_append, ulebLoop, shiftedBits, if_pos narrow, ok_bind, extended_or b below]
    have bound := b.isLt
    rcases Leb128.unsigned_cons value with ⟨last, -, rfl⟩ | ⟨high, -, k, later, rfl⟩
    · rw [if_pos ((continues_iff b).mpr last), Nat.mod_eq_of_lt last]
      rfl
    · have seven : b.toNat % 128 = b.toNat - 128 := by omega
      have higher : n + 2 ^ shift * (b.toNat - 128) < 2 ^ (shift + 7) := by
        have top : 2 ^ shift * (b.toNat - 128 + 1) ≤ 2 ^ shift * 2 ^ 7 :=
          Nat.mul_le_mul_left _ (by omega)
        rw [Nat.mul_succ] at top
        rw [Nat.pow_add]
        omega
      have sum : n + 2 ^ shift * (b.toNat - 128) + 2 ^ (shift + 7) * k =
          n + 2 ^ shift * (b.toNat - 128 + 128 * k) := by
        rw [Nat.pow_add]
        ring
      rw [if_neg (by rw [continues_iff]; omega), seven, ← sum]
      exact ih later higher (by omega)

/-- The unsigned decoder inverts every encoding of at most five bytes. -/
theorem decodeULEB128_inverts {encoding : List Byte} (rest : List Byte) {bits v : Nat}
    (value : Leb128.unsigned encoding = some v) (few : encoding.length ≤ 5) (positive : 1 ≤ bits)
    (narrow : bits ≤ 32) (range : v < 2 ^ bits) :
    decodeULEB128 (encoding ++ rest) bits = .ok (BitVec.ofNat 64 v) := by
  have loop : ulebLoop (encoding ++ rest) (extended 0) 0 = _ :=
    ulebLoop_unsigned rest value Nat.one_pos (by omega)
  rw [extended_zero, Nat.pow_zero, Nat.one_mul, Nat.zero_add] at loop
  obtain ⟨masked, done, result⟩ := maskTo_toNat (show bits < 64 by omega) (extended v)
  rw [decodeULEB128, loop, ok_bind, done]
  have room : 2 ^ bits ≤ 2 ^ 32 := Nat.pow_le_pow_right (by decide) narrow
  have low : (extended v).toNat = v + if 2 ^ 31 ≤ v then 2 ^ 64 - 2 ^ 32 else 0 := by
    rw [extended_toNat, Nat.mod_eq_of_lt (by omega)]
  -- The bits that the sign of the fifth shift spills over are multiples of `2 ^ 32`.
  have spilled : (extended v).toNat % 2 ^ bits = v := by
    have divides : 2 ^ bits ∣ 2 ^ 64 - 2 ^ 32 :=
      Nat.dvd_sub (Nat.pow_dvd_pow 2 (by omega)) (Nat.pow_dvd_pow 2 narrow)
    rw [low]
    split
    · rw [Nat.add_mod, Nat.mod_eq_zero_of_dvd divides, Nat.add_zero, Nat.mod_mod,
        Nat.mod_eq_of_lt range]
    · exact Nat.mod_eq_of_lt range
  apply congrArg
  apply BitVec.eq_of_toNat_eq
  rw [result, spilled, BitVec.toNat_ofNat, Nat.mod_eq_of_lt (by omega)]

/-- A zero-padded encoding of the largest number, with two bytes behind it. -/
theorem decodeULEB128_inverts_max :
    decodeULEB128 [0xff, 0xff, 0xff, 0xff, 0x0f, 0x80, 0x01] 32 =
      .ok (BitVec.ofNat 64 4294967295) :=
  decodeULEB128_inverts [0x80, 0x01]
    (show Leb128.unsigned [0xff, 0xff, 0xff, 0xff, 0x0f] = some 4294967295 by decide)
    (by decide) (by decide) (by decide) (by decide)

example : decodeULEB128 [0xe5, 0x8e, 0x26] 32 = .ok 624485 := by decide

/-! ### The signed loop -/

section
variable {inputs : List Byte} {c : Cursor} {b : Byte}

theorem element_eq (here : inputs[c.i]? = some b) :
    c.element inputs = .ok (b, { c with reads := c.i :: c.reads }) := by
  rw [Cursor.element, here]

theorem slebLoop_stop (fuel : Nat) (here : inputs[c.i]? = some b) (last : b.toNat < 128) :
    slebLoop inputs fuel c = .ok { c with reads := c.i :: c.reads } := by
  obtain ⟨inside, -⟩ := List.getElem?_eq_some_iff.mp here
  rw [slebLoop.eq_def, if_pos inside, element_eq here, ok_bind]
  exact if_pos ((continues_iff b).mpr last)

theorem slebLoop_turn (fuel : Nat) (here : inputs[c.i]? = some b) (high : 128 ≤ b.toNat)
    (narrow : c.shift < 32) :
    slebLoop inputs (fuel + 1) c = slebLoop inputs fuel
      ⟨c.result ||| ((b &&& 0x7f).setWidth 32 <<< c.shift).signExtend 64, c.shift + 7, c.i + 1,
        c.i :: c.reads⟩ := by
  obtain ⟨inside, -⟩ := List.getElem?_eq_some_iff.mp here
  have more : ¬ b &&& 0x80 = 0 := by
    rw [continues_iff]
    omega
  rw [slebLoop.eq_def, if_pos inside, element_eq here, ok_bind]
  simp only [more, if_false, shiftedBits, narrow, if_true, ok_bind]

/-- From the sixth byte on the shift is undefined when the byte continues. -/
theorem slebLoop_undefined (fuel : Nat) (here : inputs[c.i]? = some b) (high : 128 ≤ b.toNat)
    (wide : 32 ≤ c.shift) (result : Cursor) : slebLoop inputs fuel c ≠ .ok result := by
  obtain ⟨inside, -⟩ := List.getElem?_eq_some_iff.mp here
  have more : ¬ b &&& 0x80 = 0 := by
    rw [continues_iff]
    omega
  have undefined : ¬ c.shift < 32 := by omega
  rw [slebLoop.eq_def, if_pos inside, element_eq here, ok_bind]
  cases fuel with
  | zero =>
    simp only [more, if_false]
    exact fun done => nomatch done
  | succ fuel =>
    simp only [more, if_false, shiftedBits, undefined]
    exact fun done => nomatch done

theorem getElem?_of_drop {rest : List Byte} {i : Nat} (here : inputs.drop i = b :: rest) :
    inputs[i]? = some b ∧ inputs.drop (i + 1) = rest := by
  constructor
  · rw [← List.head?_drop, here]
    rfl
  · rw [← List.tail_drop, here]
    rfl

/-- The loop adds up the bytes that continue and stops on the last one. -/
theorem slebLoop_front {front rest : List Byte} {last : Byte} {fuel n : Nat}
    (here : inputs.drop c.i = front ++ last :: rest) (continues : ∀ b ∈ front, 128 ≤ b.toNat)
    (low : last.toNat < 128) (fueled : front.length ≤ fuel) (step : c.shift = 7 * c.i)
    (few : c.i + front.length ≤ 5) (result : c.result = extended n) (below : n < 2 ^ (7 * c.i)) :
    ∃ reads, slebLoop inputs fuel c =
        .ok ⟨extended (n + 2 ^ (7 * c.i) * Leb128.payload front), 7 * (c.i + front.length),
          c.i + front.length, reads⟩ ∧
      ∀ i ∈ reads, i ∈ c.reads ∨ i ≤ c.i + front.length := by
  induction front generalizing c fuel n with
  | nil =>
    obtain ⟨here, -⟩ := getElem?_of_drop here
    refine ⟨c.i :: c.reads, ?_, ?_⟩
    · rw [slebLoop_stop fuel here low, Leb128.payload, List.length_nil, Nat.mul_zero, Nat.add_zero,
        Nat.add_zero, ← result, ← step]
    · intro i member
      rcases List.mem_cons.mp member with rfl | earlier
      · exact Or.inr (Nat.le_refl _)
      · exact Or.inl earlier
  | cons b front ih =>
    obtain ⟨here, next⟩ := getElem?_of_drop here
    obtain ⟨fuel, rfl⟩ : ∃ more, fuel = more + 1 :=
      Nat.exists_eq_succ_of_ne_zero (by rw [List.length_cons] at fueled; omega)
    rw [List.length_cons] at fueled few
    have narrow : c.shift < 32 := by omega
    have high := continues b List.mem_cons_self
    have added : c.result ||| ((b &&& 0x7f).setWidth 32 <<< c.shift).signExtend 64 =
        extended (n + 2 ^ (7 * c.i) * (b.toNat % 128)) := by
      rw [result, step]
      exact extended_or b below
    have higher : n + 2 ^ (7 * c.i) * (b.toNat % 128) < 2 ^ (7 * (c.i + 1)) := by
      have top : 2 ^ (7 * c.i) * (b.toNat % 128 + 1) ≤ 2 ^ (7 * c.i) * 2 ^ 7 :=
        Nat.mul_le_mul_left _ (by omega)
      rw [Nat.mul_succ] at top
      rw [Nat.mul_succ, Nat.pow_add]
      omega
    have sum : n + 2 ^ (7 * c.i) * (b.toNat % 128) +
        2 ^ (7 * (c.i + 1)) * Leb128.payload front =
          n + 2 ^ (7 * c.i) * Leb128.payload (b :: front) := by
      rw [Leb128.payload, Nat.mul_succ, Nat.pow_add]
      ring
    obtain ⟨reads, done, inside⟩ := ih
      (c := ⟨c.result ||| ((b &&& 0x7f).setWidth 32 <<< c.shift).signExtend 64, c.shift + 7,
        c.i + 1, c.i :: c.reads⟩) next (fun b member => continues b (List.mem_cons_of_mem _ member))
      (show front.length ≤ fuel by omega) (by rw [step, Nat.mul_succ]) (by simp only; omega) added
      higher
    have length : c.i + 1 + front.length = c.i + (b :: front).length := by
      rw [List.length_cons]
      omega
    refine ⟨reads, ?_, ?_⟩
    · rw [slebLoop_turn fuel here high narrow, done, sum, length]
    · intro i member
      rcases inside i member with earlier | bound
      · rcases List.mem_cons.mp earlier with rfl | older
        · exact Or.inr (Nat.le_add_right _ _)
        · exact Or.inl older
      · rw [← length]
        exact Or.inr bound

/-- A seventh byte is out of reach: the sixth would be shifted by 35. -/
theorem slebLoop_long {front rest : List Byte} {fuel : Nat}
    (here : inputs.drop c.i = front ++ rest) (continues : ∀ b ∈ front, 128 ≤ b.toNat)
    (step : c.shift = 7 * c.i) (early : c.i ≤ 5) (many : 6 ≤ c.i + front.length)
    (result : Cursor) : slebLoop inputs fuel c ≠ .ok result := by
  induction front generalizing c fuel with
  | nil =>
    rw [List.length_nil] at many
    omega
  | cons b front ih =>
    obtain ⟨here, next⟩ := getElem?_of_drop here
    have high := continues b List.mem_cons_self
    rw [List.length_cons] at many
    by_cases sixth : c.i = 5
    · exact slebLoop_undefined fuel here high (by omega) result
    · cases fuel with
      | zero =>
        obtain ⟨inside, -⟩ := List.getElem?_eq_some_iff.mp here
        have more : ¬ b &&& 0x80 = 0 := by
          rw [continues_iff]
          omega
        rw [slebLoop.eq_def, if_pos inside, element_eq here, ok_bind]
        simp only [more, if_false]
        exact fun done => nomatch done
      | succ fuel =>
        rw [slebLoop_turn fuel here high (by omega)]
        apply ih next (fun b member => continues b (List.mem_cons_of_mem _ member))
        · simp only
          omega
        · simp only
          omega
        · simp only
          omega

end

/-- What the loop leaves, extended from the sign of the last byte. -/
def recovered (front : List Byte) (last : Byte) : BitVec 64 :=
  if last.toNat < 64 then extended (Leb128.payload front)
  else extended (Leb128.payload front) ||| BitVec.allOnes 64 <<< (7 * front.length)

theorem decodeSLEB128_eq {front : List Byte} (rest : List Byte) {last : Byte} {bits : Nat}
    (continues : ∀ b ∈ front, 128 ≤ b.toNat) (low : last.toNat < 128) (few : front.length ≤ 5)
    (room : 7 * front.length < bits) (narrow : bits ≤ 63) :
    ∃ value reads, decodeSLEB128 (front ++ last :: rest) bits = .ok (value, reads) ∧
      value.toNat = (recovered front last).toNat % 2 ^ bits ∧ ∀ i ∈ reads, i ≤ front.length := by
  have fueled : front.length ≤ (front ++ last :: rest).length := by
    rw [List.length_append]
    omega
  obtain ⟨reads, loop, inside⟩ := slebLoop_front (c := ⟨0, 0, 0, []⟩) (n := 0)
    (show (front ++ last :: rest).drop 0 = front ++ last :: rest from rfl) continues low fueled rfl
    (by simp only; omega) extended_zero.symm Nat.one_pos
  simp only [Nat.zero_add, Nat.mul_zero, Nat.pow_zero, Nat.one_mul] at loop inside
  have last_element : (front ++ last :: rest)[front.length]? = some last :=
    List.getElem?_append_right (Nat.le_refl _) |>.trans (by rw [Nat.sub_self]; rfl)
  obtain ⟨masked, done, value⟩ := maskTo_toNat (show bits < 64 by omega) (recovered front last)
  refine ⟨masked, front.length :: reads, ?_, value, ?_⟩
  · rw [decodeSLEB128, loop, ok_bind]
    simp only [room, if_true, Cursor.element, last_element, ok_bind]
    by_cases positive : last.toNat < 64
    · rw [recovered, if_pos positive] at done
      rw [if_pos ((signed_iff last low).mpr positive)]
      simp only [pure, Except.pure, ok_bind, done]
    · rw [recovered, if_neg positive] at done
      rw [if_neg fun zero => positive ((signed_iff last low).mp zero)]
      simp only [pure, Except.pure, ok_bind, done]
  · intro i member
    rcases List.mem_cons.mp member with rfl | earlier
    · exact Nat.le_refl _
    · rcases inside i earlier with none | bound
      · exact absurd none List.not_mem_nil
      · exact bound

/-! ### When the signed decoder is right -/

/-- Ones above a position replace what a word has there. -/
theorem toNat_or_ones (x : BitVec 64) {shift : Nat} (low : shift ≤ 64) :
    (x ||| BitVec.allOnes 64 <<< shift).toNat = x.toNat % 2 ^ shift + (2 ^ 64 - 2 ^ shift) := by
  obtain ⟨count, split⟩ : ∃ count, 2 ^ 64 = count * 2 ^ shift ∧ count = 2 ^ (64 - shift) :=
    ⟨2 ^ (64 - shift), by rw [← Nat.pow_add, Nat.sub_add_cancel low], rfl⟩
  have positive : 0 < 2 ^ shift := Nat.two_pow_pos shift
  have counted : 0 < count := by
    rw [split.2]
    exact Nat.two_pow_pos _
  have within : 2 ^ shift ≤ 2 ^ 64 := Nat.pow_le_pow_right (by decide) low
  have above : 2 ^ 64 - 2 ^ shift = (count - 1) * 2 ^ shift := by
    rw [split.1, Nat.sub_one_mul]
  have ones : (BitVec.allOnes 64 <<< shift).toNat = (count - 1) * 2 ^ shift := by
    have wraps : (2 ^ 64 - 1) * 2 ^ shift = 2 ^ 64 * (2 ^ shift - 1) + (2 ^ 64 - 2 ^ shift) := by
      rw [Nat.sub_one_mul, Nat.mul_sub_one]
      omega
    rw [BitVec.toNat_shiftLeft, BitVec.toNat_allOnes, Nat.shiftLeft_eq, wraps, Nat.mul_add_mod,
      Nat.mod_eq_of_lt (by omega), above]
  have upper : (x.toNat ||| (count - 1) * 2 ^ shift) / 2 ^ shift = count - 1 := by
    have bound : x.toNat / 2 ^ shift < 2 ^ (64 - shift) := by
      rw [← split.2]
      exact Nat.div_lt_of_lt_mul (by rw [Nat.mul_comm, ← split.1]; exact x.isLt)
    rw [Nat.or_div_two_pow, Nat.mul_div_cancel _ positive]
    have most := Nat.or_lt_two_pow bound (show count - 1 < 2 ^ (64 - shift) by omega)
    have least : count - 1 ≤ x.toNat / 2 ^ shift ||| (count - 1) := Nat.right_le_or
    omega
  have lower : (x.toNat ||| (count - 1) * 2 ^ shift) % 2 ^ shift = x.toNat % 2 ^ shift := by
    rw [Nat.or_mod_two_pow, Nat.mul_mod_left, Nat.or_zero]
  rw [BitVec.toNat_or, ones, above, ← Nat.div_add_mod (x.toNat ||| _) (2 ^ shift), upper, lower,
    Nat.mul_comm, Nat.add_comm]

/-- The bytes are few, the last one adds nothing but the sign, and the sign of
the shift by 28 agrees with it. -/
def SignOnly (length : Nat) (v : Int) : Prop :=
  length ≤ 6 ∧ -2 ^ (7 * (length - 1)) ≤ v ∧ v < 2 ^ (7 * (length - 1)) ∧
    (length = 6 → -2 ^ 31 ≤ v ∧ v < 2 ^ 31 ∨ v < 2 ^ 31 - 2 ^ 35)

instance (length : Nat) (v : Int) : Decidable (SignOnly length v) := by
  unfold SignOnly
  infer_instance

/-- The decoder gives the number back and stays inside the encoding. -/
def Inverts (encoding rest : List Byte) (bits : Nat) (v : Int) : Prop :=
  ∃ value reads, decodeSLEB128 (encoding ++ rest) bits = .ok (value, reads) ∧
    (value.toNat : Int) = v % 2 ^ bits ∧ ∀ i ∈ reads, i < encoding.length

theorem residue_iff {bits A : Nat} {v d : Int} (narrow : bits ≤ 64)
    (off : (A : Int) = v + d ∨ (A : Int) = v + d + 2 ^ 64) (small : |d| < 2 ^ bits) :
    ((A % 2 ^ bits : Nat) : Int) = v % 2 ^ bits ↔ d = 0 := by
  have divides : (2 : Int) ^ bits ∣ 2 ^ 64 := pow_dvd_pow 2 narrow
  have same : ((A % 2 ^ bits : Nat) : Int) = (v + d) % 2 ^ bits := by
    push_cast
    rcases off with off | off
    · rw [off]
    · rw [off, Int.add_emod, Int.emod_eq_zero_of_dvd divides, add_zero,
        Int.emod_emod_of_dvd _ (dvd_refl _)]
  rw [same]
  constructor
  · intro equal
    have divided : (2 : Int) ^ bits ∣ v + d - v := Int.ModEq.dvd equal.symm
    rw [add_sub_cancel_left] at divided
    exact Int.eq_zero_of_abs_lt_dvd divided small
  · rintro rfl
    rw [add_zero]

/-- How far the recovered word is from the number, and when it is not far at all. -/
theorem recovered_off {front : List Byte} {last : Byte} {v : Int} {bits : Nat}
    (few : front.length ≤ 5) (low : last.toNat < 128) (room : 7 * front.length < bits)
    (value : v = Leb128.payload front + 2 ^ (7 * front.length) *
      (if last.toNat < 64 then (last.toNat : Int) else last.toNat - 128))
    (least : -2 ^ (bits - 1) ≤ v) (most : v < 2 ^ (bits - 1)) :
    ∃ d, (((recovered front last).toNat : Int) = v + d ∨
        ((recovered front last).toNat : Int) = v + d + 2 ^ 64) ∧
      |d| < 2 ^ bits ∧ (d = 0 ↔ SignOnly (front.length + 1) v) := by
  have wide : (2 : Int) ^ (7 * front.length) ≤ 2 ^ (bits - 1) :=
    pow_le_pow_right₀ (by norm_num) (by omega)
  have double : (2 : Int) ^ bits = 2 * 2 ^ (bits - 1) := by
    rw [← pow_succ', Nat.sub_add_cancel (by omega)]
  have bound := Leb128.payload_lt front
  have extension := extended_toNat (Leb128.payload front)
  have word : (recovered front last).toNat = if last.toNat < 64 then
      (extended (Leb128.payload front)).toNat
      else (extended (Leb128.payload front)).toNat % 2 ^ (7 * front.length) +
        (2 ^ 64 - 2 ^ (7 * front.length)) := by
    rw [recovered, apply_ite BitVec.toNat, toNat_or_ones _ (by omega)]
  rw [double]
  generalize (2 : Int) ^ (bits - 1) = half at least most wide
  generalize (recovered front last).toNat = result at word ⊢
  generalize (extended (Leb128.payload front)).toNat = loop at word extension
  generalize Leb128.payload front = sum at value bound extension
  -- Up to the fifth byte the sum stays below the sign of an `int`.
  refine ⟨if result < 2 ^ 63 then result - v else result - v - 2 ^ 64, ?_, ?_, ?_⟩
  · split
    · exact Or.inl (by ring)
    · exact Or.inr (by ring)
  · rw [abs_lt]
    interval_cases front.length
    all_goals
      norm_num at value bound wide word
      constructor
      · split at word <;> split at extension <;> split <;> omega
      · split at word <;> split at extension <;> split <;> omega
  · unfold SignOnly
    interval_cases front.length
    all_goals
      norm_num at value bound wide word ⊢
      split at word <;> split at extension <;> split <;> omega

/-- The signed decoder inverts exactly the encodings whose last byte is a sign. -/
theorem decodeSLEB128_inverts_iff {encoding : List Byte} (rest : List Byte) {bits : Nat} {v : Int}
    (value : Leb128.signed encoding = some v) (few : encoding.length ≤ (bits + 6) / 7)
    (positive : 1 ≤ bits) (narrow : bits ≤ 63) (least : -2 ^ (bits - 1) ≤ v)
    (most : v < 2 ^ (bits - 1)) :
    Inverts encoding rest bits v ↔ SignOnly encoding.length v := by
  obtain ⟨front, last, rfl, continues, low, split⟩ := Leb128.signed_split value
  rw [List.length_append, List.length_singleton] at few ⊢
  have room : 7 * front.length < bits := by omega
  by_cases short : front.length ≤ 5
  · obtain ⟨result, reads, done, residue, inside⟩ :=
      decodeSLEB128_eq rest continues low short room narrow
    obtain ⟨d, off, small, exact_iff⟩ := recovered_off short low room split least most
    rw [← exact_iff, ← residue_iff (by omega) off small, ← residue, Inverts, List.append_assoc]
    constructor
    · rintro ⟨result', reads', done', equal, -⟩
      obtain ⟨rfl, -⟩ := Prod.mk.inj (Except.ok.inj (done.symm.trans done'))
      exact equal
    · intro equal
      refine ⟨result, reads, done, equal, ?_⟩
      intro i member
      rw [List.length_append, List.length_singleton]
      exact Nat.lt_succ_of_le (inside i member)
  · constructor
    · rintro ⟨result, reads, done, -⟩
      rw [List.append_assoc, decodeSLEB128] at done
      obtain ⟨c, loop, -⟩ := ok_of_bind done
      have whole : (front ++ last :: rest).drop 0 = front ++ last :: rest := rfl
      exact absurd loop (slebLoop_long whole continues rfl (Nat.zero_le _)
        (by simp only; omega) c)
    · rintro ⟨bytes, -⟩
      omega

/-- A sign byte behind a byte that continues, and a byte of other data. -/
theorem decodeSLEB128_inverts_padded : Inverts [0xff, 0x7f] [0x20] 14 (-1) :=
  (decodeSLEB128_inverts_iff [0x20] (by decide) (by decide) (by decide) (by decide) (by norm_num)
    (by norm_num)).mpr (by decide)

example : decodeSLEB128 [0x7f] 7 = .ok (127, [0, 0]) := by decide

/-- The bits of a single byte are lost. -/
theorem decodeSLEB128_loses_five : Leb128.signed [0x05] = some 5 ∧ ¬ Inverts [0x05] [] 32 5 := by
  constructor
  · decide
  · rintro ⟨value, reads, done, equal, -⟩
    have zero : decodeSLEB128 [0x05] 32 = .ok (0, [0, 0]) := by decide
    obtain ⟨rfl, -⟩ := Prod.mk.inj (Except.ok.inj (zero.symm.trans done))
    exact absurd equal (by decide)

end Leb128Decoding
