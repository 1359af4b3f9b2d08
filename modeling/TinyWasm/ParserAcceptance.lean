import TinyWasm.ParserExactness

/-!
# The files the parser accepts

Nothing is checked but the magic number: a file is refused only where a read
runs off its end. The entries of a section are read from the text that is left,
not from the section, so they may lie behind it or leave part of it unread.
-/

namespace ParserAcceptance

open HexText Wasm Parser ParserExactness

def Returns {α : Type} (call : Except CppError α) : Prop := ∃ r, call = .ok r

theorem returns_ok {α : Type} (a : α) : Returns (.ok a) := ⟨a, rfl⟩

theorem returns_bind {α β : Type} (x : Except CppError α) (next : α → Except CppError β) :
    Returns (x >>= next) ↔ ∃ a, x = .ok a ∧ Returns (next a) := by
  constructor
  · rintro ⟨r, h⟩
    obtain ⟨a, ha, hr⟩ := ok_of_bind h
    exact ⟨a, ha, r, hr⟩
  · rintro ⟨a, ha, r, hr⟩
    exact ⟨r, by rw [ha, ok_bind, hr]⟩

/-! ### What each section reader needs -/

/-- The types from byte `k` on: each has its two counts in the file, and its result types
but for the last one. -/
def TypesRead (bytes : List Byte) : Nat → Nat → Prop
  | 0, _ => True
  | count + 1, k => ∃ params results : Byte, bytes[k + 1]? = some params ∧
      bytes[k + 2 + params.toNat]? = some results ∧
      k + 2 + params.toNat + results.toNat ≤ bytes.length ∧
      TypesRead bytes count (k + 3 + params.toNat + results.toNat)

/-- The exports behind byte `k`, with their kind and index. -/
def ExportsRead (bytes : List Byte) : Nat → Nat → Prop
  | 0, _ => True
  | count + 1, k => ∃ size : Byte, bytes[k + 1]? = some size ∧
      k + 3 + size.toNat < bytes.length ∧ ExportsRead bytes count (k + 3 + size.toNat)

/-- The code entries behind byte `k`: size and number of declarations, and all opcodes but
the last one. -/
def CodeRead (bytes : List Byte) : Nat → Nat → Prop
  | 0, _ => True
  | count + 1, k => ∃ size : Byte, bytes[k + 1]? = some size ∧ k + 2 < bytes.length ∧
      k + 2 + wrappedPred size.toNat ≤ bytes.length ∧ CodeRead bytes count (k + size.toNat + 1)

/-- What the reader of section `id` needs of the bytes from the section's first one to the
end of the file. -/
def Readable (id : Byte) (bytes : List Byte) : Prop :=
  if id = 0x01 then ∃ count : Byte, bytes[0]? = some count ∧ TypesRead bytes count.toNat 1
  else if id = 0x03 then ∃ count : Byte, bytes[0]? = some count ∧ count.toNat < bytes.length
  else if id = 0x07 then ∃ count : Byte, bytes[0]? = some count ∧ ExportsRead bytes count.toNat 0
  else if id = 0x0a then ∃ count : Byte, bytes[0]? = some count ∧ CodeRead bytes count.toNat 0
  else True

/-- Sections laid end to end, each readable and with its declared length inside the file. -/
inductive Tiled : List Byte → Prop where
  | done : Tiled []
  | step (id length : Byte) (rest : List Byte) (readable : Readable id rest)
      (inside : length.toNat ≤ rest.length) (later : Tiled (rest.drop length.toNat)) :
      Tiled (id :: length :: rest)

/-! ### Reading at a byte position -/

theorem drop_readBinary (bytes : List Byte) (k : Nat) :
    (readBinary bytes).drop (2 * k) = readBinary (bytes.drop k) := by
  induction bytes generalizing k with
  | nil => simp [readBinary]
  | cons b bytes ih =>
    cases k with
    | zero => rfl
    | succ k => exact ih k

theorem take_readBinary (bytes : List Byte) (n : Nat) :
    (readBinary bytes).take (2 * n) = readBinary (bytes.take n) := by
  induction bytes generalizing n with
  | nil => simp [readBinary]
  | cons b bytes ih =>
    cases n with
    | zero => rfl
    | succ n =>
      change _ :: _ :: (readBinary bytes).take (2 * n) = _
      rw [ih]
      rfl

theorem substr_readBinary (bytes : List Byte) {k n : Nat} (h : k ≤ bytes.length) :
    substr (readBinary bytes) (2 * k) (2 * n) = .ok (readBinary ((bytes.drop k).take n)) := by
  have inside : ¬ (readBinary bytes).length < 2 * k := by
    rw [readBinary_length]
    omega
  rw [substr, if_neg inside, drop_readBinary, take_readBinary]

/-- A cut that starts behind the end is refused, one at the end is empty. -/
theorem returns_substr (bytes : List Byte) (k n : Nat) :
    Returns (substr (readBinary bytes) (2 * k) (2 * n)) ↔ k ≤ bytes.length := by
  constructor
  · rintro ⟨r, h⟩
    rw [substr, readBinary_length] at h
    split at h
    · cases h
    · omega
  · intro h
    rw [substr_readBinary bytes h]
    exact returns_ok _

theorem returns_substrFrom (bytes : List Byte) (k : Nat) (r : Text) :
    substrFrom (readBinary bytes) (2 * k) = .ok r ↔
      k ≤ bytes.length ∧ r = readBinary (bytes.drop k) := by
  rw [substrFrom, readBinary_length, drop_readBinary]
  by_cases h : 2 * bytes.length < 2 * k
  · rw [if_pos h]
    constructor
    · intro e
      cases e
    · rintro ⟨inside, -⟩
      omega
  · rw [if_neg h, Except.ok.injEq]
    constructor
    · rintro rfl
      exact ⟨by omega, rfl⟩
    · rintro ⟨-, rfl⟩
      rfl

theorem byteAt_readBinary (bytes : List Byte) (k n : Nat) :
    byteAt (readBinary bytes) (2 * k) = .ok n ↔ ∃ b, bytes[k]? = some b ∧ b.toNat = n := by
  rw [byteAt]
  by_cases h : k ≤ bytes.length
  · rw [show substr (readBinary bytes) (2 * k) 2 = _ from substr_readBinary _ (n := 1) h, ok_bind,
      ← Nat.add_zero k, ← List.getElem?_drop, Nat.add_zero]
    cases bytes.drop k with
    | nil =>
      constructor
      · intro e
        cases e
      · rintro ⟨b, hb, -⟩
        cases hb
    | cons b rest =>
      have one : readBinary ((b :: rest).take 1) = hexByte b := rfl
      rw [one, stoul_hexByte_toNat]
      simp
  · have behind : substr (readBinary bytes) (2 * k) 2 =
        .error (.outOfRange "basic_string::substr") := by
      rw [substr, if_pos (by rw [readBinary_length]; omega)]
    have none : bytes[k]? = none := List.getElem?_eq_none (by omega)
    rw [behind, none]
    constructor
    · intro e
      cases e
    · rintro ⟨b, hb, -⟩
      cases hb

theorem returns_byteAt {β : Type} (bytes : List Byte) (pos k : Nat) (hpos : pos = 2 * k)
    (next : Nat → Except CppError β) :
    Returns (byteAt (readBinary bytes) pos >>= next) ↔
      ∃ b : Byte, bytes[k]? = some b ∧ Returns (next b.toNat) := by
  subst hpos
  rw [returns_bind]
  constructor
  · rintro ⟨n, hn, later⟩
    obtain ⟨b, hb, rfl⟩ := (byteAt_readBinary bytes k n).mp hn
    exact ⟨b, hb, later⟩
  · rintro ⟨b, hb, later⟩
    exact ⟨b.toNat, (byteAt_readBinary bytes k _).mpr ⟨b, hb, rfl⟩, later⟩

/-! ### The section readers -/

theorem returns_addTypes (bytes : List Byte) (category : TypeCategory) (count k : Nat)
    (t : WasmType) :
    Returns (addTypes (readBinary bytes) category count (2 * k) t) ↔
      count = 0 ∨ k + count ≤ bytes.length + 1 := by
  induction count generalizing k t with
  | zero => simp [addTypes, returns_ok]
  | succ count ih =>
    rw [addTypes, returns_bind]
    constructor
    · rintro ⟨type, htype, later⟩
      have here := (returns_substr bytes k 1).mp ⟨type, htype⟩
      rcases (ih (k + 1) _).mp later with zero | more
      · omega
      · omega
    · intro h
      have here : k ≤ bytes.length := by omega
      exact ⟨_, substr_readBinary _ (n := 1) here, (ih (k + 1) _).mpr (by omega)⟩

theorem returns_typeLoop (bytes : List Byte) (count k : Nat) (types : List WasmType) :
    Returns (typeLoop (readBinary bytes) count (2 * k) types) ↔ TypesRead bytes count k := by
  induction count generalizing k types with
  | zero => simp [typeLoop, TypesRead, returns_ok]
  | succ count ih =>
    rw [typeLoop, returns_byteAt bytes _ (k + 1) (by omega), TypesRead]
    refine exists_congr fun params => ?_
    constructor
    · rintro ⟨hparams, h⟩
      obtain ⟨t, ht, h⟩ := (returns_bind _ _).mp h
      obtain ⟨results, hresults, h⟩ :=
        (returns_byteAt bytes _ (k + 2 + params.toNat) (by omega) _).mp h
      obtain ⟨t', ht', h⟩ := (returns_bind _ _).mp h
      have inside := (returns_addTypes bytes .RESULT results.toNat (k + 3 + params.toNat) t).mp
        ⟨t', by rw [← ht']; congr 1; omega⟩
      have below := List.getElem?_eq_some_iff.mp hresults
      refine ⟨results, hparams, hresults, ?_, ?_⟩
      · obtain ⟨below, -⟩ := below
        omega
      · refine (ih _ (types ++ [t'])).mp ?_
        rw [show 2 * (k + 3 + params.toNat + results.toNat) =
          2 * k + 2 + 2 + 2 * params.toNat + 2 + 2 * results.toNat by omega]
        exact h
    · rintro ⟨results, hparams, hresults, inside, later⟩
      obtain ⟨below, -⟩ := List.getElem?_eq_some_iff.mp hresults
      obtain ⟨t, ht⟩ := (returns_addTypes bytes .PARAM params.toNat (k + 2) {}).mpr (by omega)
      obtain ⟨t', ht'⟩ := (returns_addTypes bytes .RESULT results.toNat (k + 3 + params.toNat)
        t).mpr (by omega)
      refine ⟨hparams, (returns_bind _ _).mpr ⟨t, by rw [← ht]; congr 1, ?_⟩⟩
      refine (returns_byteAt bytes _ (k + 2 + params.toNat) (by omega) _).mpr
        ⟨results, hresults, ?_⟩
      refine (returns_bind _ _).mpr ⟨t', by rw [← ht']; congr 1; omega, ?_⟩
      have read := (ih (k + 3 + params.toNat + results.toNat) (types ++ [t'])).mpr later
      rwa [show 2 * (k + 3 + params.toNat + results.toNat) =
        2 * k + 2 + 2 + 2 * params.toNat + 2 + 2 * results.toNat by omega] at read

theorem returns_functionLoop (bytes : List Byte) (count i : Nat) (indices : List Nat) :
    Returns (functionLoop (readBinary bytes) count i indices) ↔
      count = 0 ∨ i + count < bytes.length := by
  induction count generalizing i indices with
  | zero => simp [functionLoop, returns_ok]
  | succ count ih =>
    rw [functionLoop, returns_byteAt bytes _ (i + 1) (by omega)]
    constructor
    · rintro ⟨b, hb, later⟩
      obtain ⟨below, -⟩ := List.getElem?_eq_some_iff.mp hb
      rcases (ih (i + 1) _).mp later with zero | more
      · omega
      · omega
    · intro h
      have below : i + 1 < bytes.length := by omega
      exact ⟨bytes[i + 1], List.getElem?_eq_getElem below, (ih (i + 1) _).mpr (by omega)⟩

theorem returns_exportLoop (bytes : List Byte) (count k : Nat) (p : State)
    (hs : p.s = readBinary bytes) :
    Returns (exportLoop count (2 * k) p) ↔ ExportsRead bytes count k := by
  induction count generalizing k p with
  | zero => simp [exportLoop, ExportsRead, returns_ok]
  | succ count ih =>
    rw [exportLoop, hs, returns_byteAt bytes _ (k + 1) (by omega), ExportsRead]
    refine exists_congr fun size => and_congr_right fun hsize => ?_
    have later : ∀ q : State, q.s = readBinary bytes →
        (Returns (exportLoop count (2 * k + 2 * size.toNat + 6) q) ↔
          ExportsRead bytes count (k + 3 + size.toNat)) := by
      intro q hq
      rw [← ih (k + 3 + size.toNat) q hq,
        show 2 * (k + 3 + size.toNat) = 2 * k + 2 * size.toNat + 6 by omega]
    constructor
    · intro h
      obtain ⟨name, hname, h⟩ := (returns_bind _ _).mp h
      obtain ⟨ascii, hascii, h⟩ := (returns_bind _ _).mp h
      obtain ⟨kind, hkind, h⟩ :=
        (returns_byteAt bytes _ (k + 2 + size.toNat) (by omega) _).mp h
      obtain ⟨index, hindex, h⟩ :=
        (returns_byteAt bytes _ (k + 3 + size.toNat) (by omega) _).mp h
      obtain ⟨below, -⟩ := List.getElem?_eq_some_iff.mp hindex
      exact ⟨below, (later _ rfl).mp h⟩
    · rintro ⟨below, h⟩
      have cut := substr_readBinary bytes (k := k + 2) (n := size.toNat) (by omega)
      refine (returns_bind _ _).mpr ⟨_, by rw [← cut]; congr 1; omega, ?_⟩
      refine (returns_bind _ _).mpr ⟨_, hexToAscii_readBinary _, ?_⟩
      have kindInside : k + 2 + size.toNat < bytes.length := by omega
      refine (returns_byteAt bytes _ (k + 2 + size.toNat) (by omega) _).mpr
        ⟨_, List.getElem?_eq_getElem kindInside, ?_⟩
      refine (returns_byteAt bytes _ (k + 3 + size.toNat) (by omega) _).mpr
        ⟨_, List.getElem?_eq_getElem below, ?_⟩
      exact (later _ rfl).mpr h

theorem returns_readOpcodes (bytes : List Byte) (count k : Nat) :
    Returns (readOpcodes (readBinary bytes) count (2 * k)) ↔
      count = 0 ∨ k + count ≤ bytes.length + 1 := by
  induction count generalizing k with
  | zero => simp [readOpcodes, returns_ok]
  | succ count ih =>
    rw [readOpcodes, returns_bind]
    constructor
    · rintro ⟨opcode, hopcode, later⟩
      have here := (returns_substr bytes k 1).mp ⟨opcode, hopcode⟩
      obtain ⟨rest, hrest, -⟩ := (returns_bind _ _).mp later
      rcases (ih (k + 1)).mp ⟨rest, hrest⟩ with zero | more
      · omega
      · omega
    · intro h
      have here : k ≤ bytes.length := by omega
      obtain ⟨rest, hrest⟩ := (ih (k + 1)).mpr (by omega)
      exact ⟨_, substr_readBinary _ (n := 1) here, (returns_bind _ _).mpr
        ⟨rest, hrest, returns_ok _⟩⟩

theorem returns_codeLoop (bytes : List Byte) (count k : Nat) (functions : List WasmFunction) :
    Returns (codeLoop (readBinary bytes) count (2 * k) functions) ↔ CodeRead bytes count k := by
  induction count generalizing k functions with
  | zero => simp [codeLoop, CodeRead, returns_ok]
  | succ count ih =>
    rw [codeLoop, returns_byteAt bytes _ (k + 1) (by omega), CodeRead]
    refine exists_congr fun size => and_congr_right fun hsize => ?_
    have later : ∀ fs, Returns (codeLoop (readBinary bytes) count (2 * k + 2 * size.toNat + 2) fs) ↔
        CodeRead bytes count (k + size.toNat + 1) := by
      intro fs
      rw [← ih (k + size.toNat + 1) fs,
        show 2 * (k + size.toNat + 1) = 2 * k + 2 * size.toNat + 2 by omega]
    rw [returns_byteAt bytes _ (k + 2) (by omega)]
    constructor
    · rintro ⟨declares, hdeclares, h⟩
      obtain ⟨below, -⟩ := List.getElem?_eq_some_iff.mp hdeclares
      obtain ⟨opcodes, hopcodes, h⟩ := (returns_bind _ _).mp h
      have inside := (returns_readOpcodes bytes (wrappedPred size.toNat) (k + 3)).mp
        ⟨opcodes, by rw [← hopcodes]; congr 1⟩
      exact ⟨below, by omega, (later _).mp h⟩
    · rintro ⟨below, inside, h⟩
      obtain ⟨opcodes, hopcodes⟩ :=
        (returns_readOpcodes bytes (wrappedPred size.toNat) (k + 3)).mpr (by omega)
      exact ⟨_, List.getElem?_eq_getElem below, (returns_bind _ _).mpr
        ⟨opcodes, by rw [← hopcodes]; congr 1, (later _).mpr h⟩⟩

/-! ### The file -/

/-- The readers of a section leave the text and the length of the section alone. -/
theorem exportLoop_frame {count k : Nat} {p q : State} (h : exportLoop count k p = .ok q) :
    q.s = p.s ∧ q.length = p.length := by
  induction count generalizing k p with
  | zero =>
    cases h
    exact ⟨rfl, rfl⟩
  | succ count ih =>
    rw [exportLoop] at h
    obtain ⟨size, -, h⟩ := ok_of_bind h
    obtain ⟨name, -, h⟩ := ok_of_bind h
    obtain ⟨ascii, -, h⟩ := ok_of_bind h
    obtain ⟨kind, -, h⟩ := ok_of_bind h
    obtain ⟨index, -, h⟩ := ok_of_bind h
    obtain ⟨text, length⟩ := ih h
    exact ⟨text, length⟩

theorem readContents_cases (id : Byte) (p : State) :
    readContents (hexByte id) p =
      if id = 0x01 then parse_type p
      else if id = 0x03 then parse_function p
      else if id = 0x07 then parse_export p
      else if id = 0x0a then parse_code p
      else .ok p := by
  rw [readContents_eq]
  by_cases h1 : id = 0x01
  · subst h1
    simp
  · by_cases h3 : id = 0x03
    · subst h3
      simp
    · by_cases h7 : id = 0x07
      · subst h7
        simp
      · simp only [if_neg h1, if_neg h3, if_neg h7, pure_bind]
        rfl

theorem returns_pure {α β : Type} (x : Except CppError α) (g : α → β) :
    Returns (x >>= fun a => pure (g a)) ↔ Returns x := by
  rw [returns_bind]
  constructor
  · rintro ⟨a, ha, -⟩
    exact ⟨a, ha⟩
  · rintro ⟨a, ha⟩
    exact ⟨a, ha, returns_ok _⟩

theorem returns_readContents (id : Byte) (bytes : List Byte) (p : State)
    (hs : p.s = readBinary bytes) :
    Returns (readContents (hexByte id) p) ↔ Readable id bytes := by
  rw [readContents_cases, Readable]
  split_ifs
  · rw [parse_type, hs, returns_byteAt bytes 0 0 rfl]
    refine exists_congr fun count => and_congr_right fun _ => ?_
    rw [returns_pure]
    exact returns_typeLoop bytes count.toNat 1 p.wasmTypeVec
  · rw [parse_function, hs, returns_byteAt bytes 0 0 rfl]
    refine exists_congr fun count => and_congr_right fun first => ?_
    obtain ⟨nonempty, -⟩ := List.getElem?_eq_some_iff.mp first
    rw [returns_pure, returns_functionLoop]
    omega
  · rw [parse_export, hs, returns_byteAt bytes 0 0 rfl]
    refine exists_congr fun count => and_congr_right fun _ => ?_
    exact returns_exportLoop bytes count.toNat 0 p hs
  · rw [parse_code, hs, returns_byteAt bytes 0 0 rfl]
    refine exists_congr fun count => and_congr_right fun _ => ?_
    rw [returns_pure]
    exact returns_codeLoop bytes count.toNat 0 p.wasmFunctionVec
  · exact iff_true_intro (returns_ok p)

theorem readContents_frame {id : Byte} {p q : State} (h : readContents (hexByte id) p = .ok q) :
    q.s = p.s ∧ q.length = p.length := by
  rw [readContents_cases] at h
  split_ifs at h
  · obtain ⟨count, -, h⟩ := ok_of_bind h
    obtain ⟨types, -, h⟩ := ok_of_bind h
    cases h
    exact ⟨rfl, rfl⟩
  · obtain ⟨count, -, h⟩ := ok_of_bind h
    obtain ⟨indices, -, h⟩ := ok_of_bind h
    cases h
    exact ⟨rfl, rfl⟩
  · obtain ⟨count, -, h⟩ := ok_of_bind h
    exact exportLoop_frame h
  · obtain ⟨count, -, h⟩ := ok_of_bind h
    obtain ⟨functions, -, h⟩ := ok_of_bind h
    cases h
    exact ⟨rfl, rfl⟩
  · cases h
    exact ⟨rfl, rfl⟩

/-- A turn of the main loop on less than an id and a length. -/
theorem parseSection_short {p : State} {bytes : List Byte} (hs : p.s = readBinary bytes)
    (short : bytes.length < 2) : ¬ Returns (parseSection p) := by
  rintro ⟨q, h⟩
  rw [parseSection, hs] at h
  obtain ⟨type, -, h⟩ := ok_of_bind h
  obtain ⟨s, hcut, h⟩ := ok_of_bind h
  obtain ⟨n, hlength, -⟩ := ok_of_bind h
  obtain ⟨inside, rfl⟩ := (returns_substrFrom bytes 1 s).mp hcut
  obtain ⟨b, hb, -⟩ := (byteAt_readBinary (bytes.drop 1) 0 n).mp hlength
  obtain ⟨nonempty, -⟩ := List.getElem?_eq_some_iff.mp hb
  rw [List.length_drop] at nonempty
  omega

/-- A turn of the main loop reads the contents of one section and cuts its declared length. -/
theorem parseSection_cons {p : State} {id length : Byte} {rest : List Byte}
    (hs : p.s = readBinary (id :: length :: rest)) :
    parseSection p = (do
      let q ← readContents (hexByte id) { p with s := readBinary rest, length := length.toNat }
      let s ← substrFrom q.s (q.length * 2)
      return { q with s }) := by
  have type : substr p.s 0 2 = .ok (hexByte id) := by
    rw [hs]
    rfl
  have cutType : substrFrom p.s 2 = .ok (readBinary (length :: rest)) := by
    rw [hs]
    exact (returns_substrFrom _ 1 _).mpr ⟨by simp, rfl⟩
  have readLength : byteAt (readBinary (length :: rest)) 0 = .ok length.toNat :=
    (byteAt_readBinary _ 0 _).mpr ⟨length, rfl, rfl⟩
  have cutLength : substrFrom (readBinary (length :: rest)) 2 = .ok (readBinary rest) :=
    (returns_substrFrom _ 1 _).mpr ⟨by simp, rfl⟩
  rw [parseSection, type, ok_bind, cutType, ok_bind, readLength, ok_bind, cutLength, ok_bind]

theorem parseSection_ok {p q : State} {id length : Byte} {rest : List Byte}
    (hs : p.s = readBinary (id :: length :: rest)) (h : parseSection p = .ok q) :
    Readable id rest ∧ length.toNat ≤ rest.length ∧
      q.s = readBinary (rest.drop length.toNat) := by
  rw [parseSection_cons hs] at h
  obtain ⟨read, hread, h⟩ := ok_of_bind h
  obtain ⟨s, hcut, h⟩ := ok_of_bind h
  obtain ⟨text, size⟩ := readContents_frame hread
  rw [text, size, Nat.mul_comm] at hcut
  obtain ⟨inside, rfl⟩ := (returns_substrFrom rest length.toNat s).mp hcut
  cases h
  exact ⟨(returns_readContents id rest _ rfl).mp ⟨read, hread⟩, inside, rfl⟩

theorem parseSection_returns {p : State} {id length : Byte} {rest : List Byte}
    (hs : p.s = readBinary (id :: length :: rest)) (readable : Readable id rest)
    (inside : length.toNat ≤ rest.length) : Returns (parseSection p) := by
  rw [parseSection_cons hs]
  obtain ⟨read, hread⟩ := (returns_readContents id rest
    { p with s := readBinary rest, length := length.toNat } rfl).mpr readable
  obtain ⟨text, size⟩ := readContents_frame hread
  have cut : substrFrom read.s (read.length * 2) =
      .ok (readBinary (rest.drop length.toNat)) := by
    rw [text, size, Nat.mul_comm]
    exact (returns_substrFrom rest length.toNat _).mpr ⟨inside, rfl⟩
  exact (returns_bind _ _).mpr ⟨read, hread, (returns_bind _ _).mpr ⟨_, cut, returns_ok _⟩⟩

/-- The induction is on the turns; each one shortens the text, so they suffice. -/
theorem returns_parseLoop {fuel : Nat} {p : State} {bytes : List Byte}
    (hs : p.s = readBinary bytes) (enough : bytes.length ≤ fuel) :
    Returns (parseLoop fuel p) ↔ Tiled bytes := by
  induction fuel generalizing p bytes with
  | zero =>
    have none : bytes = [] := List.eq_nil_of_length_eq_zero (by omega)
    subst none
    rw [parseLoop, if_neg (by rw [hs]; decide)]
    exact ⟨fun _ => .done, fun _ => returns_ok _⟩
  | succ fuel ih =>
    by_cases short : bytes.length < 2
    · by_cases none : bytes = []
      · subst none
        rw [parseLoop, if_neg (by rw [hs]; decide)]
        exact ⟨fun _ => .done, fun _ => returns_ok _⟩
      · have more : p.s.length > 0 := by
          rw [hs, readBinary_length]
          have := List.length_pos_iff.mpr none
          omega
        rw [parseLoop, if_pos more, returns_bind]
        constructor
        · rintro ⟨q, hq, -⟩
          exact absurd ⟨q, hq⟩ (parseSection_short hs short)
        · intro tiled
          cases tiled with
          | done => exact absurd rfl none
          | step => simp at short
    · rcases bytes with _ | ⟨id, _ | ⟨length, rest⟩⟩
      · simp at short
      · simp at short
      · have more : p.s.length > 0 := by
          rw [hs, readBinary_length, List.length_cons]
          omega
        have fewer : (rest.drop length.toNat).length ≤ fuel := by
          simp only [List.length_cons] at enough
          rw [List.length_drop]
          omega
        rw [parseLoop, if_pos more, returns_bind]
        constructor
        · rintro ⟨q, hq, later⟩
          obtain ⟨readable, inside, text⟩ := parseSection_ok hs hq
          exact .step id length rest readable inside ((ih text fewer).mp later)
        · intro tiled
          cases tiled with
          | step _ _ _ readable inside later =>
            obtain ⟨q, hq⟩ := parseSection_returns hs readable inside
            obtain ⟨-, -, text⟩ := parseSection_ok hs hq
            exact ⟨q, hq, (ih text fewer).mpr later⟩

def magic : List Byte := [0x00, 0x61, 0x73, 0x6d]

theorem readBinary_injective : Function.Injective readBinary := by
  intro xs
  induction xs with
  | nil =>
    intro ys h
    cases ys with
    | nil => rfl
    | cons y ys => cases h
  | cons x xs ih =>
    intro ys h
    cases ys with
    | nil => cases h
    | cons y ys =>
      change hexByte x ++ readBinary xs = hexByte y ++ readBinary ys at h
      obtain ⟨head, tail⟩ := List.append_inj h rfl
      rw [hexByte_inj.mp head, ih tail]

theorem magic_text : "0061736d".toList = readBinary magic := by decide

/-- Behind the check, the parser stands at the ninth byte. -/
theorem initial_check_iff (file : List Byte) (q : State) :
    initial_check (ofFile file) = .ok q ↔
      ∃ version sections, file = magic ++ (version ++ sections) ∧ version.length = 4 ∧
        q = { s := readBinary sections } := by
  have cut : substr (readBinary file) 0 8 = .ok (readBinary (file.take 4)) :=
    substr_readBinary _ (k := 0) (n := 4) (Nat.zero_le _)
  constructor
  · intro h
    rw [initial_check, ofFile, cut, ok_bind] at h
    by_cases same : readBinary (file.take 4) = "0061736d".toList
    · rw [same] at h
      simp only [ne_eq, not_true_eq_false, if_false] at h
      obtain ⟨s, hs, h⟩ := ok_of_bind h
      obtain ⟨s', hs', h⟩ := ok_of_bind h
      obtain ⟨first, rfl⟩ := (returns_substrFrom file 4 s).mp hs
      obtain ⟨second, rfl⟩ := (returns_substrFrom (file.drop 4) 4 s').mp hs'
      have start : file.take 4 = magic := readBinary_injective (same.trans magic_text)
      refine ⟨(file.drop 4).take 4, (file.drop 4).drop 4, ?_, ?_, ?_⟩
      · rw [List.take_append_drop, ← start, List.take_append_drop]
      · rw [List.length_take]
        omega
      · cases h
        rfl
    · rw [if_pos same] at h
      cases h
  · rintro ⟨version, sections, rfl, four, rfl⟩
    have start : (magic ++ (version ++ sections)).take 4 = magic := rfl
    have cutMagic : substrFrom (readBinary (magic ++ (version ++ sections))) 8 =
        .ok (readBinary (version ++ sections)) := substrFrom_readBinary magic rfl
    have cutVersion : substrFrom (readBinary (version ++ sections)) 8 =
        .ok (readBinary sections) := substrFrom_readBinary version (by rw [four])
    rw [start] at cut
    simp only [initial_check, ofFile, cut, ok_bind, ← magic_text, ne_eq, not_true_eq_false,
      if_false, cutMagic, cutVersion]
    rfl

/-- The files the parser returns on: the magic number, four bytes that are not looked at,
and sections laid end to end. -/
theorem parse_returns_iff (file : List Byte) :
    Returns (parse (ofFile file)) ↔
      ∃ version sections, file = magic ++ (version ++ sections) ∧ version.length = 4 ∧
        Tiled sections := by
  rw [parse, returns_bind]
  have loop : ∀ sections, Returns (parseLoop (readBinary sections).length
      { s := readBinary sections }) ↔ Tiled sections := by
    intro sections
    refine returns_parseLoop rfl ?_
    rw [readBinary_length]
    omega
  constructor
  · rintro ⟨q, hq, later⟩
    obtain ⟨version, sections, rfl, four, rfl⟩ := (initial_check_iff file q).mp hq
    exact ⟨version, sections, rfl, four, (loop sections).mp later⟩
  · rintro ⟨version, sections, rfl, four, tiled⟩
    exact ⟨_, (initial_check_iff _ _).mpr ⟨version, sections, rfl, four, rfl⟩,
      (loop sections).mpr tiled⟩

/-- Taking the types of function `i` stays inside the tables when the function has a code
entry, a declaration, and a declared type that exists. -/
theorem returns_initFunctionbyType (p : State) (i : Nat) :
    Returns (initFunctionbyType p i) ↔
      i < p.wasmFunctionVec.length ∧
        ∃ type, p.funcTypeVec[i]? = some type ∧ type < p.wasmTypeVec.length := by
  have returns_entryAt : ∀ {α : Type} (entries : List α) (i : Nat) (r : α),
      entryAt entries i = .ok r ↔ entries[i]? = some r := by
    intro α entries i r
    rw [entryAt]
    cases entries[i]? <;> simp
  rw [initFunctionbyType, returns_bind]
  constructor
  · rintro ⟨f, hf, h⟩
    obtain ⟨type, htype, h⟩ := (returns_bind _ _).mp h
    obtain ⟨t, ht, -⟩ := (returns_bind _ _).mp h
    obtain ⟨function, -⟩ := List.getElem?_eq_some_iff.mp ((returns_entryAt _ _ _).mp hf)
    obtain ⟨declared, -⟩ := List.getElem?_eq_some_iff.mp ((returns_entryAt _ _ _).mp ht)
    exact ⟨function, type, (returns_entryAt _ _ _).mp htype, declared⟩
  · rintro ⟨function, type, htype, declared⟩
    refine ⟨p.wasmFunctionVec[i], (returns_entryAt _ _ _).mpr (List.getElem?_eq_getElem function),
      (returns_bind _ _).mpr ⟨type, (returns_entryAt _ _ _).mpr htype,
        (returns_bind _ _).mpr ⟨p.wasmTypeVec[type], ?_, returns_ok _⟩⟩⟩
    exact (returns_entryAt _ _ _).mpr (List.getElem?_eq_getElem declared)

/-- What acceptance means: the section headers lie end to end up to the end of the file and
the entries read lie in the file, while the tables may still name what is not there. -/
theorem accepted_iff (file : List Byte) :
    (Returns (parse (ofFile file)) ↔
      ∃ version sections, file = magic ++ (version ++ sections) ∧ version.length = 4 ∧
        Tiled sections) ∧
    ∀ p, parse (ofFile file) = .ok p → ∀ i, Returns (initFunctionbyType p i) ↔
      i < p.wasmFunctionVec.length ∧
        ∃ type, p.funcTypeVec[i]? = some type ∧ type < p.wasmTypeVec.length :=
  ⟨parse_returns_iff file, fun p _ i => returns_initFunctionbyType p i⟩

/-- A type section of five bytes whose one type starts with `61` and takes four of them, and
a declaration of type 7 without a code entry. -/
def unchecked : List Byte :=
  [0x00, 0x61, 0x73, 0x6d, 0x01, 0x00, 0x00, 0x00,
    0x01, 0x05, 0x01, 0x61, 0x00, 0x00, 0xaa, 0x03, 0x02, 0x01, 0x07]

theorem unchecked_accepted :
    ∃ p, parse (ofFile unchecked) = .ok p ∧ p.wasmTypeVec = [{}] ∧ p.funcTypeVec = [7] ∧
      ¬ p.funcTypeVec.length = p.wasmFunctionVec.length ∧
      (¬ ∀ type ∈ p.funcTypeVec, type < p.wasmTypeVec.length) ∧
      ¬ Returns (initFunctionbyType p 0) := by
  have tables : (parse (ofFile unchecked)).toOption.map (fun p =>
      (p.wasmTypeVec, p.funcTypeVec, p.wasmFunctionVec.length)) = some ([{}], [7], 0) := by
    decide +kernel
  cases h : parse (ofFile unchecked) with
  | error e =>
    rw [h] at tables
    cases tables
  | ok p =>
    rw [h] at tables
    simp only [Except.toOption, Option.map_some, Option.some.injEq, Prod.mk.injEq] at tables
    obtain ⟨types, functions, code⟩ := tables
    refine ⟨p, rfl, types, functions, ?_, ?_, ?_⟩
    · rw [functions, code]
      decide
    · rw [functions, types]
      decide
    · rw [returns_initFunctionbyType, code]
      rintro ⟨none, -⟩
      exact absurd none (by decide)

end ParserAcceptance
