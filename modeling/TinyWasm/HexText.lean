import TinyWasm.BitFields

/-!
# Hex text: the byte strings the program keeps as characters

Modules, bodies and machine code are all held as strings of hex digits. This
file models the string operations and conversions of `Utils.h` the program
uses on them, with their exceptions. `stoul` is only ever applied to pieces of
such digit strings, so its handling of blanks, signs and prefixes is left out.
-/

namespace HexText

open BitFields

/-- How a C++ call can fail to return. Undefined behaviour and a loop that never
ends are outcomes of their own. -/
inductive CppError where
  | outOfRange (what : String)
  | invalidArgument (what : String)
  | thrown (message : String)
  | undefinedBehaviour (what : String)
  | divergence (what : String)
  deriving DecidableEq, Repr

@[simp] theorem ok_bind {ε α β : Type} (a : α) (next : α → Except ε β) :
    ((.ok a : Except ε α) >>= next) = next a := rfl

/-- A sequence that completes completes in both parts. -/
theorem ok_of_bind {ε α β : Type} {x : Except ε α} {next : α → Except ε β} {r : β}
    (h : x >>= next = .ok r) : ∃ a, x = .ok a ∧ next a = .ok r := by
  cases x with
  | error e => exact nomatch h
  | ok a => exact ⟨a, rfl, h⟩

abbrev Text := List Char
abbrev Byte := BitVec 8

/-- `std::string::substr(pos, len)`: the length is clipped, the position is not. -/
def substr (s : Text) (pos len : Nat) : Except CppError Text :=
  if s.length < pos then .error (.outOfRange "basic_string::substr")
  else .ok ((s.drop pos).take len)

/-- `std::string::substr(pos)`. -/
def substrFrom (s : Text) (pos : Nat) : Except CppError Text :=
  if s.length < pos then .error (.outOfRange "basic_string::substr") else .ok (s.drop pos)

/-- `std::string::replace(pos, len, with)`. -/
def replace (s : Text) (pos len : Nat) (other : Text) : Except CppError Text :=
  if s.length < pos then .error (.outOfRange "basic_string::replace")
  else .ok (s.take pos ++ other ++ s.drop (pos + len))

def hexCharToInt (ch : Char) : Except CppError Nat :=
  if '0' ≤ ch ∧ ch ≤ '9' then .ok (ch.toNat - '0'.toNat)
  else if 'a' ≤ ch ∧ ch ≤ 'f' then .ok (ch.toNat - 'a'.toNat + 10)
  else if 'A' ≤ ch ∧ ch ≤ 'F' then .ok (ch.toNat - 'A'.toNat + 10)
  else .error (.invalidArgument "Invalid hex character")

def hexDigit? (ch : Char) : Option Nat := (hexCharToInt ch).toOption

/-- `stoul(s, nullptr, 16)`: the value of the longest prefix of hex digits. -/
def stoul (s : Text) : Except CppError Nat :=
  let digits := s.takeWhile fun ch => (hexDigit? ch).isSome
  if digits = [] then .error (.invalidArgument "stoul")
  else .ok (digits.foldl (fun value ch => 16 * value + (hexDigit? ch).getD 0) 0)

/-- `hexToAscii`, giving the bytes of the resulting string. -/
def hexToAscii (hex : Text) : Except CppError (List Byte) :=
  match hex with
  | [] => .ok []
  | [_] => .error (.invalidArgument "Hex string length must be even")
  | high :: low :: rest => do
    let h ← hexCharToInt high
    let l ← hexCharToInt low
    let tail ← hexToAscii rest
    return BitVec.ofNat 8 (h * 16 + l) :: tail

/-- The digit `std::hex` prints for four bits. -/
def lowerDigit (v : BitVec 4) : Char :=
  Char.ofNat (if v.toNat < 10 then '0'.toNat + v.toNat else 'a'.toNat + (v.toNat - 10))

/-- The digit `std::uppercase << std::hex` prints for four bits. -/
def upperDigit (v : BitVec 4) : Char :=
  Char.ofNat (if v.toNat < 10 then '0'.toNat + v.toNat else 'A'.toNat + (v.toNat - 10))

/-- One byte as `setw(2) << setfill('0') << hex` prints it. -/
def hexByte (b : Byte) : Text := [lowerDigit (field 4 4 b), lowerDigit (field 0 4 b)]

/-- `readBinary` on the bytes of the file. -/
def readBinary (file : List Byte) : Text := file.flatMap hexByte

/-- `toHexString`: `0x` and eight upper-case digits. -/
def toHexString (value : BitVec 32) : Text :=
  '0' :: 'x' :: [upperDigit (field 28 4 value), upperDigit (field 24 4 value),
    upperDigit (field 20 4 value), upperDigit (field 16 4 value),
    upperDigit (field 12 4 value), upperDigit (field 8 4 value),
    upperDigit (field 4 4 value), upperDigit (field 0 4 value)]

/-- `__builtin_bswap32`. -/
def bswap32 (w : BitVec 32) : BitVec 32 :=
  field 0 8 w ++ field 8 8 w ++ field 16 8 w ++ field 24 8 w

/-- The byte array `getFunctionPointer` fills from a string of digits, two at a time. -/
def charArray (full_instructions : Text) : Except CppError (List Byte) :=
  match full_instructions with
  | high :: low :: rest => do
    let value ← stoul [high, low]
    let tail ← charArray rest
    return BitVec.ofNat 8 value :: tail
  | _ => .ok []

/-- Memory bytes read as 32-bit little-endian words. -/
def littleEndianWords : List Byte → List (BitVec 32)
  | b0 :: b1 :: b2 :: b3 :: rest => (b3 ++ b2 ++ b1 ++ b0) :: littleEndianWords rest
  | _ => []

/-- The words the loaded text puts in executable memory. -/
def loadWords (full_instructions : Text) : Except CppError (List (BitVec 32)) :=
  (charArray full_instructions).map littleEndianWords

/-- The eight characters of a little-endian instruction word. -/
def wordText (w : BitVec 32) : Text := (toHexString (bswap32 w)).drop 2

@[simp] theorem wordText_length (w : BitVec 32) : (wordText w).length = 8 := rfl

theorem hexDigit?_lowerDigit : ∀ v : BitVec 4, hexDigit? (lowerDigit v) = some v.toNat := by
  decide

theorem hexDigit?_upperDigit : ∀ v : BitVec 4, hexDigit? (upperDigit v) = some v.toNat := by
  decide

theorem stoul_pair {a b : Char} {u v : Nat} (ha : hexDigit? a = some u)
    (hb : hexDigit? b = some v) : stoul [a, b] = .ok (16 * u + v) := by
  simp [stoul, List.takeWhile, ha, hb]

/-- A byte is its high digit times sixteen plus its low digit. -/
theorem byte_of_digits (b : Byte) :
    BitVec.ofNat 8 (16 * (field 4 4 b).toNat + (field 0 4 b).toNat) = b := by
  apply BitVec.eq_of_toNat_eq
  have hlt := b.isLt
  simp only [field, BitVec.extractLsb'_toNat, BitVec.toNat_ofNat, Nat.shiftRight_eq_div_pow]
  omega

theorem stoul_hexByte (b : Byte) :
    stoul (hexByte b) = .ok (16 * (field 4 4 b).toNat + (field 0 4 b).toNat) :=
  stoul_pair (hexDigit?_lowerDigit _) (hexDigit?_lowerDigit _)

theorem byte_toNat (b : Byte) :
    16 * (field 4 4 b).toNat + (field 0 4 b).toNat = b.toNat := by
  have hlt := b.isLt
  simp only [field, BitVec.extractLsb'_toNat, Nat.shiftRight_eq_div_pow]
  omega

/-- Reading back the two digits printed for a byte gives the byte. -/
theorem stoul_hexByte_toNat (b : Byte) : stoul (hexByte b) = .ok b.toNat := by
  rw [stoul_hexByte, byte_toNat]

theorem hexByte_inj {a b : Byte} : hexByte a = hexByte b ↔ a = b := by
  constructor
  · intro h
    have value := stoul_hexByte_toNat a
    rw [h, stoul_hexByte_toNat] at value
    exact BitVec.eq_of_toNat_eq (Except.ok.inj value).symm
  · rintro rfl
    rfl

theorem charArray_pair {a b : Char} {u v : Nat} {rest : Text} {bytes : List Byte}
    (ha : hexDigit? a = some u) (hb : hexDigit? b = some v) (hr : charArray rest = .ok bytes) :
    charArray (a :: b :: rest) = .ok (BitVec.ofNat 8 (16 * u + v) :: bytes) := by
  simp only [charArray, stoul_pair ha hb, hr]
  rfl

theorem byte_of_word_digits (w : BitVec 32) (off : Nat) :
    BitVec.ofNat 8 (16 * (field (off + 4) 4 w).toNat + (field off 4 w).toNat) =
      field off 8 w := by
  have high := field_field off 8 4 4 w (by decide)
  have low := field_field off 8 0 4 w (by decide)
  rw [← high, show field off 4 w = field 0 4 (field off 8 w) from low.symm, byte_of_digits]

theorem field_bswap32 (w : BitVec 32) {k : Nat} (hk : k < 4) :
    field (8 * k) 8 (bswap32 w) = field (8 * (3 - k)) 8 w := by
  apply BitVec.eq_of_getLsbD_eq
  intro i hi
  simp only [field, bswap32, BitVec.getLsbD_extractLsb', BitVec.getLsbD_append]
  rcases k with _ | _ | _ | _ | k
  · grind
  · grind
  · grind
  · grind
  · omega

theorem word_of_bytes (w : BitVec 32) :
    field 24 8 w ++ field 16 8 w ++ field 8 8 w ++ field 0 8 w = w := by
  apply BitVec.eq_of_getLsbD_eq
  intro i hi
  simp only [field, BitVec.getLsbD_extractLsb', BitVec.getLsbD_append]
  grind

/-- The eight characters of a word load as its four bytes, lowest first. -/
theorem charArray_wordText {w : BitVec 32} {rest : Text} {bytes : List Byte}
    (hr : charArray rest = .ok bytes) :
    charArray (wordText w ++ rest) =
      .ok (field 0 8 w :: field 8 8 w :: field 16 8 w :: field 24 8 w :: bytes) := by
  have pair : ∀ (off : Nat) {t : Text} {bs : List Byte}, charArray t = .ok bs →
      charArray (upperDigit (field (off + 4) 4 (bswap32 w)) ::
        upperDigit (field off 4 (bswap32 w)) :: t) = .ok (field off 8 (bswap32 w) :: bs) := by
    intro off t bs ht
    have h := charArray_pair (hexDigit?_upperDigit (field (off + 4) 4 (bswap32 w)))
      (hexDigit?_upperDigit (field off 4 (bswap32 w))) ht
    rwa [byte_of_word_digits] at h
  have all := pair 24 (pair 16 (pair 8 (pair 0 hr)))
  rw [show field 24 8 (bswap32 w) = field 0 8 w from field_bswap32 w (k := 3) (by decide),
    show field 16 8 (bswap32 w) = field 8 8 w from field_bswap32 w (k := 2) (by decide),
    show field 8 8 (bswap32 w) = field 16 8 w from field_bswap32 w (k := 1) (by decide),
    show field 0 8 (bswap32 w) = field 24 8 w from field_bswap32 w (k := 0) (by decide)] at all
  exact all

/-- A text made of instruction words loads as exactly those words. -/
theorem loadWords_flatMap (ws : List (BitVec 32)) :
    loadWords (ws.flatMap wordText) = .ok ws := by
  suffices h : ∃ bytes, charArray (ws.flatMap wordText) = .ok bytes ∧
      littleEndianWords bytes = ws by
    obtain ⟨bytes, hb, hw⟩ := h
    simp [loadWords, hb, hw, Except.map]
  induction ws with
  | nil => exact ⟨[], rfl, rfl⟩
  | cons w ws ih =>
    obtain ⟨bytes, hb, hw⟩ := ih
    refine ⟨_, charArray_wordText hb, ?_⟩
    rw [littleEndianWords, word_of_bytes, hw]

end HexText
