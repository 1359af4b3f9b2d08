import Mathlib.Tactic
import Mathlib.Data.BitVec

/-!
# Byte-addressed memory

A memory maps addresses of `w` bits to bytes. Values are read and written
little-endian, `n` bytes at a time, and addresses wrap around.
-/

namespace ByteMemory

variable {w m : Nat}

abbrev Memory (w : Nat) := BitVec w → BitVec 8

/-- The `n` bytes from `a` on, as a value of `m` bits. -/
def read (m : Nat) (mem : Memory w) (a : BitVec w) : Nat → BitVec m
  | 0 => 0
  | n + 1 => read m mem a n ||| (mem (a + BitVec.ofNat w n)).setWidth m <<< (8 * n)

/-- The low `n` bytes of `v` written from `a` on. -/
def write (mem : Memory w) (a : BitVec w) (n : Nat) (v : BitVec m) : Memory w :=
  fun b => if (b - a).toNat < n then v.extractLsb' (8 * (b - a).toNat) 8 else mem b

/-- The byte `b` is one of the `n` bytes from `a` on. -/
def Inside (a : BitVec w) (n : Nat) (b : BitVec w) : Prop := (b - a).toNat < n

/-- The `n` bytes from `a` on and the `k` bytes from `b` on do not meet. -/
def Apart (a : BitVec w) (n : Nat) (b : BitVec w) (k : Nat) : Prop :=
  ∀ c, Inside a n c → ¬ Inside b k c

/-- The `n'` bytes from `a'` on are among the `n` bytes from `a` on. -/
def Within (a' : BitVec w) (n' : Nat) (a : BitVec w) (n : Nat) : Prop :=
  ∀ c, Inside a' n' c → Inside a n c

/-- The memories agree on the `n` bytes from `a` on. -/
def SameOn (a : BitVec w) (n : Nat) (mem mem' : Memory w) : Prop :=
  ∀ c, Inside a n c → mem c = mem' c

theorem inside_offset {a : BitVec w} {n i : Nat} (h : i < n) (fits : n ≤ 2 ^ w) :
    Inside a n (a + BitVec.ofNat w i) := by
  have offset : a + BitVec.ofNat w i - a = BitVec.ofNat w i := by
    rw [BitVec.add_comm, BitVec.add_sub_cancel]
  rw [Inside, offset, BitVec.toNat_ofNat, Nat.mod_eq_of_lt (by omega)]
  exact h

theorem Apart.symm {a b : BitVec w} {n k : Nat} (h : Apart a n b k) : Apart b k a n :=
  fun c inside other => h c other inside

theorem Apart.mono {a a' b b' : BitVec w} {n n' k k' : Nat} (h : Apart a n b k)
    (ha : Within a' n' a n) (hb : Within b' k' b k) : Apart a' n' b' k' :=
  fun c inside other => h c (ha c inside) (hb c other)

theorem within_refl (a : BitVec w) (n : Nat) : Within a n a n := fun _ h => h

theorem Within.trans {a b c : BitVec w} {n k l : Nat} (h : Within a n b k)
    (h' : Within b k c l) : Within a n c l := fun x inside => h' x (h x inside)

/-- Where a byte of a range stands, counted from an address in front of the range. -/
theorem place_of_inside {a c : BitVec w} {d n : Nat} (fits : d + n ≤ 2 ^ w)
    (inside : Inside (a + BitVec.ofNat w d) n c) :
    (c - a).toNat = (c - (a + BitVec.ofNat w d)).toNat + d := by
  have shift : c - a = (c - (a + BitVec.ofNat w d)) + BitVec.ofNat w d := by ring
  rw [Inside] at inside
  rw [shift, BitVec.toNat_add, BitVec.toNat_ofNat, Nat.mod_eq_of_lt (a := d) (by omega),
    Nat.mod_eq_of_lt (by omega)]

/-- A range that starts `d` bytes into another and is no longer than what is left. -/
theorem within_of_offset {a : BitVec w} {n d k : Nat} (h : d + k ≤ n) (fits : n ≤ 2 ^ w) :
    Within (a + BitVec.ofNat w d) k a n := by
  intro c inside
  have place := place_of_inside (by omega) inside
  rw [Inside] at inside ⊢
  omega

/-- Ranges at two offsets from one address meet only when the offsets do. -/
theorem apart_of_offsets {a : BitVec w} {d n e k : Nat} (h : d + n ≤ e ∨ e + k ≤ d)
    (fits : d + n ≤ 2 ^ w ∧ e + k ≤ 2 ^ w) :
    Apart (a + BitVec.ofNat w d) n (a + BitVec.ofNat w e) k := by
  intro c inside other
  have first := place_of_inside fits.1 inside
  have second := place_of_inside fits.2 other
  rw [Inside] at inside other
  omega

theorem offset_sub_offset {a : BitVec w} {d e : Nat} (le : d ≤ e) (fits : e < 2 ^ w) :
    (a + BitVec.ofNat w e - (a + BitVec.ofNat w d)).toNat = e - d := by
  have split : e = d + (e - d) := by omega
  have shift : a + BitVec.ofNat w e - (a + BitVec.ofNat w d) = BitVec.ofNat w (e - d) := by
    conv_lhs => rw [split, BitVec.ofNat_add]
    ring
  rw [shift, BitVec.toNat_ofNat, Nat.mod_eq_of_lt (by omega)]

/-- A range `d` bytes into another is among its bytes only when it ends in front of the other's
end. -/
theorem within_offset_iff {a : BitVec w} {n d k : Nat} (some : 0 < k) (fits : d + k ≤ 2 ^ w)
    (fits' : n ≤ 2 ^ w) : Within (a + BitVec.ofNat w d) k a n ↔ d + k ≤ n := by
  constructor
  · intro within
    have last : Inside (a + BitVec.ofNat w d) k (a + BitVec.ofNat w (d + (k - 1))) := by
      rw [Inside, offset_sub_offset (by omega) (by omega)]
      omega
    have inside := within _ last
    have place := place_of_inside fits last
    rw [offset_sub_offset (by omega) (by omega)] at place
    rw [Inside] at inside
    omega
  · intro le
    exact within_of_offset le fits'

/-- Ranges at two offsets are apart only when one ends in front of the other. -/
theorem apart_offset_iff {a : BitVec w} {d n e k : Nat} (some : 0 < n ∧ 0 < k)
    (fits : d + n ≤ 2 ^ w ∧ e + k ≤ 2 ^ w) :
    Apart (a + BitVec.ofNat w d) n (a + BitVec.ofNat w e) k ↔ d + n ≤ e ∨ e + k ≤ d := by
  constructor
  · intro apart
    by_contra meet
    rw [not_or] at meet
    refine apart (a + BitVec.ofNat w (max d e)) ?_ ?_
    · rw [Inside, offset_sub_offset (by omega) (by omega)]
      omega
    · rw [Inside, offset_sub_offset (by omega) (by omega)]
      omega
  · intro h
    exact apart_of_offsets h fits

/-- Ranges given by the numbers of their addresses. -/
theorem apart_of_lt {d n e k : Nat} (h : d + n ≤ e ∨ e + k ≤ d)
    (fits : d + n ≤ 2 ^ w ∧ e + k ≤ 2 ^ w) :
    Apart (BitVec.ofNat w d) n (BitVec.ofNat w e) k := by
  have apart := apart_of_offsets (a := BitVec.ofNat w 0) h fits
  rwa [BitVec.zero_add, BitVec.zero_add] at apart

/-! ### Reading -/

theorem getLsbD_read (mem : Memory w) (a : BitVec w) (n i : Nat) :
    (read m mem a n).getLsbD i = (decide (i < m) && decide (i < 8 * n) &&
      (mem (a + BitVec.ofNat w (i / 8))).getLsbD (i % 8)) := by
  induction n with
  | zero => simp [read]
  | succ n ih =>
    rw [read, BitVec.getLsbD_or, ih, BitVec.getLsbD_shiftLeft, BitVec.getLsbD_setWidth]
    by_cases inside : i < m
    · rcases Nat.lt_trichotomy (i / 8) n with before | here | behind
      · have h1 : i < 8 * n := by omega
        have h2 : i < 8 * (n + 1) := by omega
        simp [inside, h1, h2]
      · have h1 : ¬ i < 8 * n := by omega
        have h2 : i < 8 * (n + 1) := by omega
        have h3 : i - 8 * n = i % 8 := by omega
        have h4 : i % 8 < m := by omega
        simp [inside, h1, h2, h3, here, h4]
      · have h1 : ¬ i < 8 * n := by omega
        have h2 : ¬ i < 8 * (n + 1) := by omega
        have h3 : 8 ≤ i - 8 * n := by omega
        simp [inside, h1, h2, BitVec.getLsbD_of_ge _ _ h3]
    · simp [inside]

theorem read_congr {mem mem' : Memory w} {a : BitVec w} {n : Nat} (fits : n ≤ 2 ^ w)
    (same : SameOn a n mem mem') : read m mem a n = read m mem' a n := by
  apply BitVec.eq_of_getLsbD_eq
  intro i hi
  rw [getLsbD_read, getLsbD_read]
  by_cases inside : i < 8 * n
  · rw [same _ (inside_offset (show i / 8 < n by omega) fits)]
  · simp [inside]

/-- The first bytes of a value written are read back. -/
theorem getLsbD_read_write (mem : Memory w) (a : BitVec w) {n k : Nat} (shorter : n ≤ k)
    (fits : k ≤ 2 ^ w) {l : Nat} (v : BitVec l) (i : Nat) :
    (read m (write mem a k v) a n).getLsbD i =
      (decide (i < m) && decide (i < 8 * n) && v.getLsbD i) := by
  rw [getLsbD_read]
  by_cases inside : i < 8 * n
  · have offset : (a + BitVec.ofNat w (i / 8) - a).toNat = i / 8 := by
      rw [BitVec.add_comm, BitVec.add_sub_cancel, BitVec.toNat_ofNat,
        Nat.mod_eq_of_lt (by omega)]
    rw [write, if_pos (by omega), offset, BitVec.getLsbD_extractLsb',
      decide_eq_true (Nat.mod_lt i (by decide)), Bool.true_and, Nat.div_add_mod]
  · simp [inside]

/-! ### Frames -/

theorem SameOn.refl (a : BitVec w) (n : Nat) (mem : Memory w) : SameOn a n mem mem :=
  fun _ _ => rfl

theorem SameOn.symm {a : BitVec w} {n : Nat} {mem mem' : Memory w} (h : SameOn a n mem mem') :
    SameOn a n mem' mem := fun c inside => (h c inside).symm

theorem SameOn.trans {a : BitVec w} {n : Nat} {mem mem' mem'' : Memory w}
    (first : SameOn a n mem mem') (second : SameOn a n mem' mem'') : SameOn a n mem mem'' :=
  fun c inside => (first c inside).trans (second c inside)

theorem SameOn.mono {a b : BitVec w} {n k : Nat} {mem mem' : Memory w} (h : SameOn a n mem mem')
    (within : Within b k a n) : SameOn b k mem mem' := fun c inside => h c (within c inside)

/-- A write leaves what it is apart from as it was. -/
theorem write_apart {a b : BitVec w} {n k : Nat} (mem : Memory w) (v : BitVec m)
    (apart : Apart a n b k) : SameOn a n (write mem b k v) mem := by
  intro c inside
  exact if_neg (apart c inside)

theorem read_write_apart {a b : BitVec w} {n k : Nat} {mem : Memory w} {l : Nat} {v : BitVec l}
    (fits : n ≤ 2 ^ w) (apart : Apart a n b k) :
    read m (write mem b k v) a n = read m mem a n :=
  read_congr fits (write_apart mem v apart)

/-! ### Several writes -/

/-- One write: where, how many bytes, and what. -/
structure Put (w m : Nat) where
  address : BitVec w
  bytes : Nat
  value : BitVec m

def putAll (mem : Memory w) (puts : List (Put w m)) : Memory w :=
  puts.foldl (fun mem p => write mem p.address p.bytes p.value) mem

@[simp] theorem putAll_nil (mem : Memory w) : putAll mem ([] : List (Put w m)) = mem := rfl

@[simp] theorem putAll_cons (mem : Memory w) (p : Put w m) (puts : List (Put w m)) :
    putAll mem (p :: puts) = putAll (write mem p.address p.bytes p.value) puts := rfl

theorem putAll_append (mem : Memory w) (first second : List (Put w m)) :
    putAll mem (first ++ second) = putAll (putAll mem first) second := List.foldl_append

theorem putAll_apart {a : BitVec w} {n : Nat} {puts : List (Put w m)} (mem : Memory w)
    (apart : ∀ p ∈ puts, Apart a n p.address p.bytes) : SameOn a n (putAll mem puts) mem := by
  induction puts generalizing mem with
  | nil => exact .refl a n mem
  | cons p puts ih =>
    have later := ih (write mem p.address p.bytes p.value)
      fun q hq => apart q (List.mem_cons_of_mem _ hq)
    exact later.trans (write_apart mem p.value (apart p List.mem_cons_self))

/-- Of writes that do not meet, each is still there at the end. -/
theorem putAll_mem {puts : List (Put w m)} (mem : Memory w)
    (apart : puts.Pairwise fun p q => Apart p.address p.bytes q.address q.bytes) {p : Put w m}
    (h : p ∈ puts) : ∃ mem', SameOn p.address p.bytes (putAll mem puts)
      (write mem' p.address p.bytes p.value) := by
  induction puts generalizing mem with
  | nil => exact absurd h List.not_mem_nil
  | cons q puts ih =>
    obtain ⟨first, rest⟩ := List.pairwise_cons.mp apart
    rcases List.mem_cons.mp h with rfl | later
    · exact ⟨mem, putAll_apart _ first⟩
    · exact ih (write mem q.address q.bytes q.value) rest later

/-- A value of `8 * n` bits written to `n` bytes is read back. -/
theorem read_write_same (mem : Memory w) (a : BitVec w) {n : Nat} (fits : n ≤ 2 ^ w)
    (v : BitVec (8 * n)) : read (8 * n) (write mem a n v) a n = v := by
  apply BitVec.eq_of_getLsbD_eq
  intro i hi
  rw [getLsbD_read_write mem a (Nat.le_refl n) fits]
  simp [hi]

end ByteMemory
