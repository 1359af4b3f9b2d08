import Mathlib.Tactic

/-!
# LEB128

A number in bytes of seven bits each, the lowest first; every byte but the last
has its high bit set. A signed number is extended from the sixth bit of its last
byte. Padding is allowed, so a number has many encodings.
-/

namespace Leb128

/-- The unsigned number that all the bytes encode. -/
def unsigned : List (BitVec 8) → Option Nat
  | [] => none
  | b :: rest =>
    if b.toNat < 128 then
      match rest with
      | [] => some b.toNat
      | _ :: _ => none
    else (unsigned rest).map fun n => b.toNat - 128 + 128 * n

/-- The signed number that all the bytes encode. -/
def signed : List (BitVec 8) → Option Int
  | [] => none
  | b :: rest =>
    if b.toNat < 128 then
      match rest with
      | [] => some (if b.toNat < 64 then b.toNat else b.toNat - 128)
      | _ :: _ => none
    else (signed rest).map fun n => b.toNat - 128 + 128 * n

/-- An encoding is its last byte, or a byte in front of another encoding. -/
theorem unsigned_cons {b : BitVec 8} {rest : List (BitVec 8)} {n : Nat}
    (h : unsigned (b :: rest) = some n) :
    (b.toNat < 128 ∧ rest = [] ∧ n = b.toNat) ∨
      (128 ≤ b.toNat ∧ rest ≠ [] ∧ ∃ m, unsigned rest = some m ∧ n = b.toNat - 128 + 128 * m) := by
  rw [unsigned.eq_def] at h
  by_cases last : b.toNat < 128
  · simp only [last, if_true] at h
    cases rest with
    | nil => exact Or.inl ⟨last, rfl, (Option.some.inj h).symm⟩
    | cons c rest => exact nomatch h
  · simp only [last, if_false] at h
    obtain ⟨m, later, rfl⟩ := Option.map_eq_some_iff.mp h
    refine Or.inr ⟨by omega, ?_, m, later, rfl⟩
    rintro rfl
    exact nomatch later

theorem signed_cons {b : BitVec 8} {rest : List (BitVec 8)} {n : Int}
    (h : signed (b :: rest) = some n) :
    (b.toNat < 128 ∧ rest = [] ∧ n = if b.toNat < 64 then (b.toNat : Int) else b.toNat - 128) ∨
      (128 ≤ b.toNat ∧ rest ≠ [] ∧
        ∃ m, signed rest = some m ∧ n = b.toNat - 128 + 128 * m) := by
  rw [signed.eq_def] at h
  by_cases last : b.toNat < 128
  · simp only [last, if_true] at h
    cases rest with
    | nil => exact Or.inl ⟨last, rfl, (Option.some.inj h).symm⟩
    | cons c rest => exact nomatch h
  · simp only [last, if_false] at h
    obtain ⟨m, later, rfl⟩ := Option.map_eq_some_iff.mp h
    refine Or.inr ⟨by omega, ?_, m, later, rfl⟩
    rintro rfl
    exact nomatch later

/-- The seven low bits of each byte, the first byte's lowest. -/
def payload : List (BitVec 8) → Nat
  | [] => 0
  | b :: rest => b.toNat % 128 + 128 * payload rest

theorem payload_lt (front : List (BitVec 8)) : payload front < 2 ^ (7 * front.length) := by
  induction front with
  | nil => exact Nat.one_pos
  | cons b front ih =>
    rw [payload, List.length_cons, Nat.mul_succ, Nat.pow_add]
    omega

/-- A signed encoding is bytes that continue and a last byte that carries the sign. -/
theorem signed_split {bytes : List (BitVec 8)} {n : Int} (h : signed bytes = some n) :
    ∃ front last, bytes = front ++ [last] ∧ (∀ b ∈ front, 128 ≤ b.toNat) ∧ last.toNat < 128 ∧
      n = payload front + 2 ^ (7 * front.length) *
        (if last.toNat < 64 then (last.toNat : Int) else last.toNat - 128) := by
  induction bytes generalizing n with
  | nil => exact nomatch h
  | cons b rest ih =>
    rcases signed_cons h with ⟨last, rfl, value⟩ | ⟨high, -, m, later, value⟩
    · refine ⟨[], b, rfl, fun _ none => absurd none List.not_mem_nil, last, ?_⟩
      rw [value, payload, List.length_nil]
      omega
    · obtain ⟨front, last, rfl, continues, low, rfl⟩ := ih later
      refine ⟨b :: front, last, rfl, ?_, low, ?_⟩
      · intro c member
        rcases List.mem_cons.mp member with rfl | inner
        · exact high
        · exact continues c inner
      · have bound := b.isLt
        have seven : ((b.toNat % 128 : Nat) : Int) = b.toNat - 128 := by omega
        rw [value, payload, List.length_cons, Nat.mul_succ, pow_add, Nat.cast_add, Nat.cast_mul,
          seven]
        push_cast
        ring

end Leb128
