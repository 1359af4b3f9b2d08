import TinyWasm.Parser
import TinyWasm.LocalDeclarations

/-!
# The parser decodes a module exactly

A module is described by its sections, and written as bytes in the binary
format with every count, index and size in one LEB128 byte. Each loop of the
parser is shown to walk over the entries it reads with the right offset; the
text in front of the cursor is arbitrary, so that the loops compose.
-/

namespace ParserExactness

open HexText BitFields Wasm Parser LocalDeclarations

inductive ValType where
  | i32
  | i64
  | f32
  | f64
  deriving DecidableEq, Repr

def ValType.code : ValType → Byte
  | .i32 => 0x7f
  | .i64 => 0x7e
  | .f32 => 0x7d
  | .f64 => 0x7c

/-- The variable of this type with its initial value. -/
def ValType.zero : ValType → wasm_type
  | .i32 => .i32 0
  | .i64 => .i64 0
  | .f32 => .f32 0
  | .f64 => .f64 0

structure FuncType where
  params : List ValType
  results : List ValType
  deriving DecidableEq, Repr

/-- A code entry: groups of locals of one type, and the instruction bytes. -/
structure Body where
  locals : List (Nat × ValType)
  instrs : List Byte
  deriving DecidableEq, Repr

inductive Section where
  | types (types : List FuncType)
  | functions (indices : List Nat)
  | exports (entries : List (List Byte × Nat))
  | code (bodies : List Body)
  | other (id : Byte) (payload : List Byte)
  deriving DecidableEq, Repr

/-- A number in one LEB128 byte. -/
def leb (n : Nat) : Byte := BitVec.ofNat 8 n

def FuncType.bytes (t : FuncType) : List Byte :=
  0x60 :: leb t.params.length :: t.params.map ValType.code ++
    leb t.results.length :: t.results.map ValType.code

def exportBytes (e : List Byte × Nat) : List Byte :=
  leb e.1.length :: e.1 ++ [0x00, leb e.2]

def groupBytes (g : Nat × ValType) : List Byte := [leb g.1, g.2.code]

/-- What `code_vec` is to hold: the local declarations and the instructions. -/
def Body.code (b : Body) : List Byte := b.locals.flatMap groupBytes ++ b.instrs

def Body.bytes (b : Body) : List Byte :=
  leb (b.code.length + 1) :: leb b.locals.length :: b.code

namespace Section

def id : Section → Byte
  | types _ => 0x01
  | functions _ => 0x03
  | exports _ => 0x07
  | code _ => 0x0a
  | other id _ => id

def payload : Section → List Byte
  | types ts => leb ts.length :: ts.flatMap FuncType.bytes
  | functions indices => leb indices.length :: indices.map leb
  | exports es => leb es.length :: es.flatMap exportBytes
  | code bodies => leb bodies.length :: bodies.flatMap Body.bytes
  | other _ payload => payload

def bytes (sec : Section) : List Byte := sec.id :: leb sec.payload.length :: sec.payload

/-- Every count, index and size takes one LEB128 byte. -/
def Fits (sec : Section) : Prop :=
  sec.payload.length < 128 ∧
  match sec with
  | types ts => ts.length < 128 ∧ ∀ t ∈ ts, t.params.length < 128 ∧ t.results.length < 128
  | functions indices => indices.length < 128 ∧ ∀ i ∈ indices, i < 128
  | exports es => es.length < 128 ∧ ∀ e ∈ es, e.1.length < 128 ∧ e.2 < 128
  | code bodies => bodies.length < 128 ∧
      ∀ b ∈ bodies, b.code.length + 1 < 128 ∧ b.locals.length < 128 ∧ ∀ g ∈ b.locals, g.1 < 128
  | other id _ => id ≠ 0x01 ∧ id ≠ 0x03 ∧ id ≠ 0x07 ∧ id ≠ 0x0a

end Section

/-- Magic number, version and sections. -/
def moduleBytes (sections : List Section) : List Byte :=
  [0x00, 0x61, 0x73, 0x6d, 0x01, 0x00, 0x00, 0x00] ++ sections.flatMap Section.bytes

def typeSection : Section → List FuncType
  | .types ts => ts
  | _ => []

def functionSection : Section → List Nat
  | .functions indices => indices
  | _ => []

def exportSection : Section → List (List Byte × Nat)
  | .exports es => es
  | _ => []

def codeSection : Section → List Body
  | .code bodies => bodies
  | _ => []

def toWasmType (t : FuncType) : WasmType :=
  { param_data := t.params.map ValType.zero, result_data := t.results.map ValType.zero }

/-- The function `parse_code` stores for a code entry. -/
def toFunction (b : Body) : WasmFunction :=
  { code_vec := b.code.map hexByte, local_var_declare_count := b.locals.length }

/-! ### The cursor -/

@[simp] theorem leb_toNat {n : Nat} (h : n < 128) : (leb n).toNat = n := by
  rw [leb, BitVec.toNat_ofNat]
  omega

@[simp] theorem readBinary_length (bs : List Byte) : (readBinary bs).length = 2 * bs.length := by
  induction bs with
  | nil => rfl
  | cons b bs ih =>
    simp only [readBinary, List.flatMap_cons, List.length_append, List.length_cons] at ih ⊢
    rw [ih]
    simp only [hexByte, List.length_cons, List.length_nil]
    omega

theorem readBinary_append (bs cs : List Byte) :
    readBinary (bs ++ cs) = readBinary bs ++ readBinary cs := by
  simp [readBinary]

/-- The text `s` of a file holds `bytes` from byte `k` on. -/
def Holds (s : Text) (k : Nat) (bytes : List Byte) : Prop :=
  ∃ pre post, pre.length = k ∧ s = readBinary (pre ++ (bytes ++ post))

theorem holds_append {s : Text} {k : Nat} {xs ys : List Byte} (h : Holds s k (xs ++ ys)) :
    Holds s k xs ∧ Holds s (k + xs.length) ys := by
  obtain ⟨pre, post, hk, hs⟩ := h
  exact ⟨⟨pre, ys ++ post, hk, by rw [hs, List.append_assoc]⟩,
    ⟨pre ++ xs, post, by rw [List.length_append, hk], by rw [hs]; simp⟩⟩

theorem holds_cons {s : Text} {k : Nat} {b : Byte} {bs : List Byte} (h : Holds s k (b :: bs)) :
    Holds s k [b] ∧ Holds s (k + 1) bs := holds_append (show Holds s k ([b] ++ bs) from h)

/-- Cutting whole bytes out of the text of a file. -/
theorem substr_of_holds {s : Text} {k : Nat} (pos len : Nat) {bytes : List Byte}
    (h : Holds s k bytes) (hpos : pos = 2 * k) (hlen : len = 2 * bytes.length) :
    substr s pos len = .ok (readBinary bytes) := by
  obtain ⟨pre, post, hk, rfl⟩ := h
  have inside : ¬ (readBinary (pre ++ (bytes ++ post))).length < pos := by
    simp only [readBinary_length, List.length_append]
    omega
  rw [substr, if_neg inside, readBinary_append, readBinary_append,
    List.drop_left' (by simp [hk, hpos]), List.take_left' (by simp [hlen])]

theorem substr_byte {s : Text} {k : Nat} (pos : Nat) {b : Byte} (h : Holds s k [b])
    (hpos : pos = 2 * k) :
    substr s pos 2 = .ok (hexByte b) := by
  have cut := substr_of_holds pos 2 h hpos rfl
  rwa [readBinary, List.flatMap_singleton] at cut

theorem byteAt_of_holds {s : Text} {k : Nat} (pos : Nat) {b : Byte} (h : Holds s k [b])
    (hpos : pos = 2 * k) : byteAt s pos = .ok b.toNat := by
  rw [byteAt, substr_byte pos h hpos]
  exact stoul_hexByte_toNat b

theorem count_of_holds {s : Text} {k n : Nat} (pos : Nat) (h : Holds s k [leb n])
    (hpos : pos = 2 * k) (fits : n < 128) : byteAt s pos = .ok n := by
  rw [byteAt_of_holds pos h hpos, leb_toNat fits]

theorem substrFrom_readBinary (pre : List Byte) {post : List Byte} {pos : Nat}
    (hpos : pos = 2 * pre.length) :
    substrFrom (readBinary (pre ++ post)) pos = .ok (readBinary post) := by
  have inside : ¬ (readBinary (pre ++ post)).length < pos := by
    simp only [readBinary_length, List.length_append]
    omega
  rw [substrFrom, if_neg inside, readBinary_append, List.drop_left' (by simp [hpos])]

theorem hexToAscii_readBinary (bs : List Byte) : hexToAscii (readBinary bs) = .ok bs := by
  induction bs with
  | nil => rfl
  | cons b bs ih =>
    have digit : ∀ v : BitVec 4, hexCharToInt (lowerDigit v) = .ok v.toNat := by decide
    have value : (field 4 4 b).toNat * 16 + (field 0 4 b).toNat = b.toNat := by
      rw [Nat.mul_comm, byte_toNat]
    change hexToAscii (lowerDigit (field 4 4 b) :: lowerDigit (field 0 4 b) :: readBinary bs) = _
    rw [hexToAscii, digit, digit, ih]
    change Except.ok (BitVec.ofNat 8 ((field 4 4 b).toNat * 16 + (field 0 4 b).toNat) :: bs) = _
    rw [value, BitVec.ofNat_toNat, BitVec.setWidth_eq]

theorem typeOfCode_code (t : ValType) :
    WasmFunction.typeOfCode (hexByte t.code) = some t.zero := by
  cases t <;> decide

/-! ### The four section readers -/

/-- The types of one list added to a function type. -/
def extend (t : WasmType) (category : TypeCategory) (values : List wasm_type) : WasmType :=
  match category with
  | .PARAM => { t with param_data := t.param_data ++ values }
  | .RESULT => { t with result_data := t.result_data ++ values }
  | .LOCAL => t

theorem extend_add_data (t : WasmType) (category : TypeCategory) (v : ValType)
    (values : List wasm_type) :
    extend (t.add_data category (hexByte v.code)) category values =
      extend t category (v.zero :: values) := by
  cases category <;> simp [WasmType.add_data, typeOfCode_code, extend]

theorem addTypes_of_holds {s : Text} (category : TypeCategory) {ts : List ValType} {k : Nat}
    (pos : Nat) (t : WasmType) (h : Holds s k (ts.map ValType.code)) (hpos : pos = 2 * k) :
    addTypes s category ts.length pos t = .ok (extend t category (ts.map ValType.zero)) := by
  induction ts generalizing k pos t with
  | nil => cases category <;> simp [addTypes, extend]
  | cons v ts ih =>
    obtain ⟨here, later⟩ := holds_cons h
    rw [List.length_cons, addTypes, substr_byte pos here hpos, ok_bind, ih _ _ later (by omega),
      extend_add_data, List.map_cons]

theorem typeLoop_of_holds {s : Text} {ts : List FuncType} {k : Nat} (pos : Nat)
    (types : List WasmType)
    (h : Holds s k (ts.flatMap FuncType.bytes)) (hpos : pos = 2 * k)
    (fits : ∀ t ∈ ts, t.params.length < 128 ∧ t.results.length < 128) :
    typeLoop s ts.length pos types = .ok (types ++ ts.map toWasmType) := by
  induction ts generalizing k pos types with
  | nil => simp [typeLoop]
  | cons t ts ih =>
    obtain ⟨⟨hp, hr⟩, others⟩ := List.forall_mem_cons.mp fits
    obtain ⟨entry, later⟩ := holds_append h
    obtain ⟨paramPart, resultPart⟩ := holds_append entry
    obtain ⟨-, afterTag⟩ := holds_cons paramPart
    obtain ⟨paramCount, params⟩ := holds_cons afterTag
    obtain ⟨resultCount, results⟩ := holds_cons resultPart
    have readParamCount := count_of_holds (pos + 2) paramCount (by omega) hp
    have readParams := addTypes_of_holds .PARAM (pos + 2 + 2) {} params (by omega)
    have readResultCount := count_of_holds (pos + 2 + 2 + 2 * t.params.length) resultCount
      (by simp; omega) hr
    have readResults := addTypes_of_holds .RESULT (pos + 2 + 2 + 2 * t.params.length + 2)
      (extend {} .PARAM (t.params.map ValType.zero)) results (by simp; omega)
    have readOthers := ih (pos + 2 + 2 + 2 * t.params.length + 2 + 2 * t.results.length)
      (types ++ [toWasmType t]) later (by simp [FuncType.bytes]; omega) others
    simp only [List.length_cons, typeLoop, readParamCount, readParams, readResultCount,
      readResults, ok_bind]
    rw [show extend (extend {} .PARAM (t.params.map ValType.zero)) .RESULT
      (t.results.map ValType.zero) = toWasmType t by simp [extend, toWasmType], readOthers]
    simp

theorem functionLoop_of_holds {s : Text} {indices : List Nat} {i : Nat} (before : List Nat)
    (h : Holds s (i + 1) (indices.map leb)) (fits : ∀ n ∈ indices, n < 128) :
    functionLoop s indices.length i before = .ok (before ++ indices) := by
  induction indices generalizing i before with
  | nil => simp [functionLoop]
  | cons n indices ih =>
    obtain ⟨hn, others⟩ := List.forall_mem_cons.mp fits
    obtain ⟨here, later⟩ := holds_cons h
    rw [List.length_cons, functionLoop, count_of_holds _ here (by omega) hn, ok_bind,
      ih _ later others]
    simp

/-- What one export adds to the two maps. -/
def recordExport (p : State) (e : List Byte × Nat) : State :=
  { p with
    funcNameIndexMapper := assign e.1 e.2 p.funcNameIndexMapper
    funcIndexNameMapper := assign e.2 e.1 p.funcIndexNameMapper }

/-- An export entry of any kind. -/
def exportEntry (kind : Byte) (e : List Byte × Nat) : List Byte :=
  leb e.1.length :: e.1 ++ [kind, leb e.2]

/-- Whatever the kinds, every entry is recorded. The offset runs one byte behind the entry it
reads. -/
theorem exportLoop_of_holds {es : List (Byte × List Byte × Nat)} {k : Nat} (pos : Nat) (p : State)
    (h : Holds p.s (k + 1) (es.flatMap fun e => exportEntry e.1 e.2)) (hpos : pos = 2 * k)
    (fits : ∀ e ∈ es, e.2.1.length < 128 ∧ e.2.2 < 128) :
    exportLoop es.length pos p = .ok ((es.map Prod.snd).foldl recordExport p) := by
  induction es generalizing k pos p with
  | nil => rfl
  | cons entry es ih =>
    obtain ⟨kindByte, e⟩ := entry
    obtain ⟨hentry, others⟩ := List.forall_mem_cons.mp fits
    have hsize : e.1.length < 128 := hentry.1
    have hindex : e.2 < 128 := hentry.2
    obtain ⟨entry, later⟩ := holds_append h
    obtain ⟨sizeAndName, kindAndIndex⟩ := holds_append entry
    obtain ⟨size, name⟩ := holds_cons sizeAndName
    obtain ⟨kind, index⟩ := holds_cons kindAndIndex
    have readSize := count_of_holds (pos + 2) size (by omega) hsize
    have readName := substr_of_holds (pos + 4) (e.1.length * 2) name (by omega)
      (Nat.mul_comm _ _)
    have readKind := byteAt_of_holds (pos + 2 * e.1.length + 4) kind (by simp; omega)
    have readIndex := count_of_holds (pos + 2 * e.1.length + 6) index (by simp; omega)
      hindex
    have readOthers := ih (k := k + e.1.length + 3) (pos + 2 * e.1.length + 6)
      (recordExport p e)
      (by
        have place : k + 1 + (exportEntry kindByte e).length = k + e.1.length + 3 + 1 := by
          simp [exportEntry]
          omega
        rwa [place] at later)
      (by omega) others
    simp only [List.length_cons, exportLoop, readSize, readName, readKind, readIndex,
      hexToAscii_readBinary, ok_bind]
    exact readOthers

theorem readOpcodes_of_holds {s : Text} {bytes : List Byte} {k : Nat} (pos : Nat)
    (h : Holds s k bytes) (hpos : pos = 2 * k) :
    readOpcodes s bytes.length pos = .ok (bytes.map hexByte) := by
  induction bytes generalizing k pos with
  | nil => rfl
  | cons b bytes ih =>
    obtain ⟨here, later⟩ := holds_cons h
    rw [List.length_cons, readOpcodes, substr_byte pos here hpos, ok_bind, ih _ later (by omega)]
    rfl

/-- Here too the offset runs one byte behind the entry. -/
theorem codeLoop_of_holds {s : Text} {bodies : List Body} {k : Nat} (pos : Nat)
    (functions : List WasmFunction) (h : Holds s (k + 1) (bodies.flatMap Body.bytes))
    (hpos : pos = 2 * k)
    (fits : ∀ b ∈ bodies, b.code.length + 1 < 128 ∧ b.locals.length < 128) :
    codeLoop s bodies.length pos functions = .ok (functions ++ bodies.map toFunction) := by
  induction bodies generalizing k pos functions with
  | nil => simp [codeLoop]
  | cons b bodies ih =>
    obtain ⟨⟨hsize, hlocals⟩, others⟩ := List.forall_mem_cons.mp fits
    obtain ⟨entry, later⟩ := holds_append h
    obtain ⟨size, afterSize⟩ := holds_cons entry
    obtain ⟨declares, code⟩ := holds_cons afterSize
    have readSize := count_of_holds (pos + 2) size (by omega) hsize
    have readDeclares := count_of_holds (pos + 4) declares (by omega) hlocals
    have readCode := readOpcodes_of_holds (pos + 6) code (by omega)
    have count : wrappedPred (b.code.length + 1) = b.code.length := rfl
    have readOthers := ih (k := k + b.code.length + 2) (pos + 2 * (b.code.length + 1) + 2)
      (functions ++ [toFunction b])
      (by
        have place : k + 1 + b.bytes.length = k + b.code.length + 2 + 1 := by
          simp [Body.bytes]
          omega
        rwa [place] at later)
      (by omega) others
    simp only [List.length_cons, codeLoop, readSize, readDeclares, count, readCode, ok_bind]
    rw [show ({} : WasmFunction).set_code_vec (b.code.map hexByte) b.locals.length =
      toFunction b from rfl, readOthers]
    simp

/-! ### Sections and modules -/

/-- What reading a section adds to the parser's tables. -/
def record (p : State) : Section → State
  | .types ts => { p with wasmTypeVec := p.wasmTypeVec ++ ts.map toWasmType }
  | .functions indices => { p with funcTypeVec := p.funcTypeVec ++ indices }
  | .exports es => es.foldl recordExport p
  | .code bodies => { p with wasmFunctionVec := p.wasmFunctionVec ++ bodies.map toFunction }
  | .other _ _ => p

/-- Recording exports touches the two maps only. -/
theorem foldl_recordExport (p : State) (es : List (List Byte × Nat)) :
    es.foldl recordExport p =
      { p with
        funcNameIndexMapper := es.foldl (fun m e => assign e.1 e.2 m) p.funcNameIndexMapper
        funcIndexNameMapper := es.foldl (fun m e => assign e.2 e.1 m) p.funcIndexNameMapper } := by
  induction es generalizing p with
  | nil => rfl
  | cons e es ih => rw [List.foldl_cons, ih]; rfl

theorem record_tables (p : State) (sec : Section) :
    (record p sec).s = p.s ∧ (record p sec).length = p.length ∧
      (record p sec).wasmTypeVec = p.wasmTypeVec ++ (typeSection sec).map toWasmType ∧
      (record p sec).funcTypeVec = p.funcTypeVec ++ functionSection sec ∧
      (record p sec).funcNameIndexMapper =
        (exportSection sec).foldl (fun m e => assign e.1 e.2 m) p.funcNameIndexMapper ∧
      (record p sec).wasmFunctionVec = p.wasmFunctionVec ++ (codeSection sec).map toFunction := by
  cases sec <;>
    simp [record, typeSection, functionSection, exportSection, codeSection, foldl_recordExport]

theorem readContents_eq (id : Byte) (p : State) :
    readContents (hexByte id) p = (do
      let p ← if id = 0x01 then parse_type p else pure p
      let p ← if id = 0x03 then parse_function p else pure p
      let p ← if id = 0x07 then parse_export p else pure p
      if id = 0x0a then parse_code p else pure p) := by
  simp only [readContents, show "01".toList = hexByte 0x01 by decide,
    show "03".toList = hexByte 0x03 by decide, show "07".toList = hexByte 0x07 by decide,
    show "0a".toList = hexByte 0x0a by decide, hexByte_inj]

/-- The contents of a section are read by the reader its id selects, or by none. -/
theorem readContents_of_holds {sec : Section} (p : State) (fits : sec.Fits)
    (h : Holds p.s 0 sec.payload) :
    readContents (hexByte sec.id) p = .ok (record p sec) := by
  rw [readContents_eq]
  obtain ⟨-, fits⟩ := fits
  cases sec with
  | types ts =>
    obtain ⟨count, entries⟩ := holds_cons h
    have read := typeLoop_of_holds 2 p.wasmTypeVec entries rfl fits.2
    have parsed : parse_type p = .ok (record p (.types ts)) := by
      rw [parse_type, count_of_holds 0 count rfl fits.1, ok_bind, read]
      rfl
    simp [Section.id, parsed]
  | functions indices =>
    obtain ⟨count, entries⟩ := holds_cons h
    have read := functionLoop_of_holds (i := 0) p.funcTypeVec entries fits.2
    have parsed : parse_function p = .ok (record p (.functions indices)) := by
      rw [parse_function, count_of_holds 0 count rfl fits.1, ok_bind, read]
      rfl
    simp [Section.id, parsed]
  | exports es =>
    obtain ⟨count, entries⟩ := holds_cons h
    have kinds : es.flatMap exportBytes =
        (es.map fun e => ((0x00 : Byte), e)).flatMap fun e => exportEntry e.1 e.2 := by
      rw [List.flatMap_map]
      rfl
    rw [kinds] at entries
    have small : ∀ e ∈ es.map fun e => ((0x00 : Byte), e), e.2.1.length < 128 ∧ e.2.2 < 128 := by
      intro e he
      obtain ⟨e, hmem, rfl⟩ := List.mem_map.mp he
      exact fits.2 e hmem
    have read := exportLoop_of_holds (k := 0) 0 p entries rfl small
    rw [List.length_map, List.map_map] at read
    have parsed : parse_export p = .ok (record p (.exports es)) := by
      rw [parse_export, count_of_holds 0 count rfl fits.1, ok_bind, read, record]
      simp [Function.comp_def]
    simp [Section.id, parsed]
  | code bodies =>
    obtain ⟨count, entries⟩ := holds_cons h
    have read := codeLoop_of_holds (k := 0) 0 p.wasmFunctionVec entries rfl
      fun b hb => ⟨(fits.2 b hb).1, (fits.2 b hb).2.1⟩
    have parsed : parse_code p = .ok (record p (.code bodies)) := by
      rw [parse_code, count_of_holds 0 count rfl fits.1, ok_bind, read]
      rfl
    simp [Section.id, parsed]
  | other id payload =>
    obtain ⟨h1, h3, h7, ha⟩ := fits
    simp only [Section.id, if_neg h1, if_neg h3, if_neg h7, pure_bind]
    exact (if_neg ha).trans rfl

/-- A section as the main loop meets it: its id, its bytes, and what reading them does to the
parser. -/
structure Piece where
  id : Byte
  payload : List Byte
  store : State → State
  reads : ∀ p, Holds p.s 0 payload → readContents (hexByte id) p = .ok (store p)
  frame : ∀ p s length, store { p with s, length } = { store p with s, length }
  fits : payload.length < 128

def Piece.bytes (piece : Piece) : List Byte :=
  piece.id :: leb piece.payload.length :: piece.payload

/-- One turn of the main loop reads one section and leaves the text behind it. -/
theorem parseSection_piece (piece : Piece) {p : State} {rest : List Byte}
    (hs : p.s = readBinary (piece.bytes ++ rest)) :
    parseSection p =
      .ok { piece.store p with s := readBinary rest, length := piece.payload.length } := by
  let p' : State :=
    { p with s := readBinary (piece.payload ++ rest), length := piece.payload.length }
  have start : Holds p.s 0 [piece.id] := ⟨[], _, rfl, hs⟩
  have readType := substr_byte 0 start rfl
  have cutType : substrFrom p.s 2 =
      .ok (readBinary (leb piece.payload.length :: (piece.payload ++ rest))) := by
    rw [hs]
    exact substrFrom_readBinary [piece.id] rfl
  have lengthByte : Holds (readBinary (leb piece.payload.length :: (piece.payload ++ rest))) 0
      [leb piece.payload.length] := ⟨[], _, rfl, rfl⟩
  have readLength := count_of_holds 0 lengthByte rfl piece.fits
  have cutLength : substrFrom (readBinary (leb piece.payload.length :: (piece.payload ++ rest))) 2 =
      .ok (readBinary (piece.payload ++ rest)) :=
    substrFrom_readBinary [leb piece.payload.length] rfl
  have contents : readContents (hexByte piece.id) p' =
      .ok { piece.store p with
        s := readBinary (piece.payload ++ rest), length := piece.payload.length } := by
    rw [piece.reads p' ⟨[], rest, rfl, rfl⟩, piece.frame]
  have cutContents : substrFrom (readBinary (piece.payload ++ rest)) (piece.payload.length * 2) =
      .ok (readBinary rest) := substrFrom_readBinary _ (Nat.mul_comm _ _)
  simp only [parseSection, readType, cutType, readLength, cutLength, ok_bind]
  change (readContents (hexByte piece.id) p' >>= _) = _
  rw [contents, ok_bind, cutContents]
  rfl

/-- The stores of the sections, in order. -/
def storeAll (pieces : List Piece) (p : State) : State :=
  pieces.foldl (fun p piece => piece.store p) p

theorem storeAll_frame (pieces : List Piece) (p : State) (s : Text) (length : Nat) :
    storeAll pieces { p with s, length } = { storeAll pieces p with s, length } := by
  induction pieces generalizing p with
  | nil => rfl
  | cons piece pieces ih =>
    have step := ih (piece.store p)
    rw [storeAll, storeAll] at step ⊢
    rw [List.foldl_cons, piece.frame, step, List.foldl_cons]

/-- The text left over grows shorter with every section, so the loop ends, with the stores of
the sections made in order. -/
theorem parseLoop_pieces {pieces : List Piece} {p : State} {fuel : Nat}
    (hs : p.s = readBinary (pieces.flatMap Piece.bytes)) (enough : pieces.length ≤ fuel) :
    ∃ length, parseLoop fuel p = .ok { storeAll pieces p with s := [], length } := by
  induction pieces generalizing p fuel with
  | nil =>
    have empty : p.s = [] := hs
    refine ⟨p.length, ?_⟩
    unfold parseLoop
    rw [if_neg (by simp [empty]), ← empty]
    rfl
  | cons piece pieces ih =>
    cases fuel with
    | zero => exact absurd enough (by simp)
    | succ fuel =>
      have more : 0 < p.s.length := by
        rw [hs, readBinary_length, List.flatMap_cons, List.length_append, Piece.bytes]
        simp
      rw [List.flatMap_cons] at hs
      let p' : State := { piece.store p with
        s := readBinary (pieces.flatMap Piece.bytes), length := piece.payload.length }
      obtain ⟨length, hq⟩ := ih (p := p') rfl (show pieces.length ≤ fuel by simpa using enough)
      refine ⟨length, ?_⟩
      rw [parseLoop, if_pos more, parseSection_piece piece hs, ok_bind, hq, storeAll_frame,
        storeAll, storeAll, List.foldl_cons]

/-- The magic number, and a version the parser does not read. -/
theorem parse_pieces (pieces : List Piece) :
    ∃ length, parse (ofFile ([0x00, 0x61, 0x73, 0x6d, 0x01, 0x00, 0x00, 0x00] ++
        pieces.flatMap Piece.bytes)) =
      .ok { storeAll pieces { s := [] } with s := [], length } := by
  let text := pieces.flatMap Piece.bytes
  let magic : List Byte := [0x00, 0x61, 0x73, 0x6d]
  let version : List Byte := [0x01, 0x00, 0x00, 0x00]
  have readMagic : substr (readBinary (magic ++ (version ++ text))) 0 8 =
      .ok (readBinary magic) :=
    substr_of_holds (k := 0) 0 8 ⟨[], version ++ text, rfl, rfl⟩ rfl rfl
  have matched : readBinary magic = "0061736d".toList := by decide
  have cutMagic : substrFrom (readBinary (magic ++ (version ++ text))) 8 =
      .ok (readBinary (version ++ text)) := substrFrom_readBinary magic rfl
  have cutVersion : substrFrom (readBinary (version ++ text)) 8 = .ok (readBinary text) :=
    substrFrom_readBinary version rfl
  have checked : initial_check (ofFile (magic ++ (version ++ text))) =
      .ok { s := readBinary text } := by
    simp only [initial_check, ofFile, readMagic, ok_bind, matched, ne_eq, not_true_eq_false,
      if_false, cutMagic, cutVersion]
    rfl
  have enough : pieces.length ≤ (readBinary text).length := by
    rw [readBinary_length]
    have nonempty : ∀ ps : List Piece, ps.length ≤ (ps.flatMap Piece.bytes).length := by
      intro ps
      induction ps with
      | nil => simp
      | cons piece ps ih =>
        rw [List.flatMap_cons, List.length_append, List.length_cons, Piece.bytes]
        simp only [List.length_cons]
        omega
    have bound : pieces.length ≤ text.length := nonempty pieces
    omega
  obtain ⟨length, hq⟩ := parseLoop_pieces (p := { s := readBinary text }) rfl enough
  refine ⟨length, ?_⟩
  change parse (ofFile (magic ++ (version ++ text))) = _
  rw [parse, checked, ok_bind, hq]
  have frame := storeAll_frame pieces { s := [] } (readBinary text) 0
  rw [show ({ s := readBinary text } : State) = { ({ s := [] } : State) with
    s := readBinary text, length := 0 } from rfl, frame]

theorem assign_new {α β : Type} [DecidableEq α] {key : α} (value : β) {entries : List (α × β)}
    (new : key ∉ entries.map Prod.fst) :
    assign key value entries = entries ++ [(key, value)] := by
  induction entries with
  | nil => rfl
  | cons entry rest ih =>
    rw [List.map_cons, List.mem_cons, not_or] at new
    rw [assign, if_neg fun same => new.1 same.symm, ih new.2, List.cons_append]

/-- Under distinct names the map is the list of the exports. -/
theorem foldl_assign (es before : List (List Byte × Nat))
    (distinct : ((before ++ es).map Prod.fst).Nodup) :
    es.foldl (fun m e => assign e.1 e.2 m) before = before ++ es := by
  induction es generalizing before with
  | nil => simp
  | cons e es ih =>
    have new : e.1 ∉ before.map Prod.fst := by
      rw [List.map_append, List.map_cons, List.nodup_append] at distinct
      exact fun h => distinct.2.2 _ h _ (List.mem_cons_self ..) rfl
    rw [List.foldl_cons, assign_new _ new, ih _ (by simpa using distinct)]
    simp

/-! ### The local declarations -/

/-- A group as the two bytes of its declaration. -/
def toGroup (g : Nat × ValType) : Group := (leb g.1, g.2.code)

def declaredLocals (g : Nat × ValType) : List wasm_type := List.replicate g.1 g.2.zero

theorem flatMap_groupCode (groups : List (Nat × ValType)) :
    (groups.map toGroup).flatMap groupCode = (groups.flatMap groupBytes).map hexByte := by
  induction groups with
  | nil => rfl
  | cons g groups ih =>
    rw [List.map_cons, List.flatMap_cons, ih, List.flatMap_cons, List.map_append]
    rfl

theorem flatMap_groupLocals {groups : List (Nat × ValType)} (fits : ∀ g ∈ groups, g.1 < 128) :
    (groups.map toGroup).flatMap groupLocals = groups.flatMap declaredLocals := by
  induction groups with
  | nil => rfl
  | cons g groups ih =>
    obtain ⟨hg, others⟩ := List.forall_mem_cons.mp fits
    rw [List.map_cons, List.flatMap_cons, ih others, List.flatMap_cons, groupLocals, toGroup,
      typeOfCode_code, leb_toNat hg]
    rfl

/-- The declarations of a code entry are read in full, and the cursor stops at the
first instruction. -/
theorem local_var_initialize_toFunction {b : Body} (fits : ∀ g ∈ b.locals, g.1 < 128) :
    ∃ f offset, WasmFunction.local_var_initialize (toFunction b) 0 = .ok (f, offset) ∧
      f.local_data = b.locals.flatMap declaredLocals ∧
      (toFunction b).code_vec.drop offset = b.instrs.map hexByte := by
  have hcode : (toFunction b).code_vec =
      (b.locals.map toGroup).flatMap groupCode ++ b.instrs.map hexByte := by
    rw [flatMap_groupCode, ← List.map_append]
    rfl
  have read := local_var_initialize_groups hcode (by simp [toFunction])
  refine ⟨_, _, read, ?_, ?_⟩
  · rw [flatMap_groupLocals fits]
    rfl
  · rw [hcode, List.drop_left' (groupCode_length _)]

/-- A list of sections, each of them a piece, is read piece by piece. -/
theorem parse_sections {σ : Type} (bytes : σ → List Byte) (store : State → σ → State)
    (sections : List σ)
    (piece : ∀ sec ∈ sections, ∃ piece : Piece,
      piece.bytes = bytes sec ∧ ∀ p, piece.store p = store p sec) :
    ∃ length, parse (ofFile ([0x00, 0x61, 0x73, 0x6d, 0x01, 0x00, 0x00, 0x00] ++
        sections.flatMap bytes)) =
      .ok { sections.foldl store { s := [] } with s := [], length } := by
  have written : ∃ pieces : List Piece, sections.flatMap bytes = pieces.flatMap Piece.bytes ∧
      ∀ p, storeAll pieces p = sections.foldl store p := by
    induction sections with
    | nil => exact ⟨[], rfl, fun p => rfl⟩
    | cons sec sections ih =>
      obtain ⟨first, hbytes, hstore⟩ := piece sec (List.mem_cons_self ..)
      obtain ⟨pieces, hrest, hfold⟩ := ih fun sec h => piece sec (List.mem_cons_of_mem _ h)
      refine ⟨first :: pieces, ?_, ?_⟩
      · rw [List.flatMap_cons, List.flatMap_cons, hbytes, hrest]
      · intro p
        rw [storeAll, List.foldl_cons, hstore]
        exact hfold _
  obtain ⟨pieces, hbytes, hstore⟩ := written
  rw [hbytes, ← hstore]
  exact parse_pieces pieces

/-- A section of the module as a piece of its file. -/
def sectionPiece (sec : Section) (fits : sec.Fits) : Piece where
  id := sec.id
  payload := sec.payload
  store p := record p sec
  reads p h := readContents_of_holds p fits h
  frame p s length := by cases sec <;> simp [record, foldl_recordExport]
  fits := fits.1

/-- The tables after a list of sections. -/
theorem record_sections (sections : List Section) (p : State) :
    (sections.foldl record p).wasmTypeVec =
        p.wasmTypeVec ++ (sections.flatMap typeSection).map toWasmType ∧
      (sections.foldl record p).funcTypeVec =
        p.funcTypeVec ++ sections.flatMap functionSection ∧
      (sections.foldl record p).funcNameIndexMapper =
        (sections.flatMap exportSection).foldl (fun m e => assign e.1 e.2 m)
          p.funcNameIndexMapper ∧
      (sections.foldl record p).wasmFunctionVec =
        p.wasmFunctionVec ++ (sections.flatMap codeSection).map toFunction := by
  induction sections generalizing p with
  | nil => simp
  | cons sec sections ih =>
    obtain ⟨-, -, types, functions, exports, code⟩ := record_tables p sec
    obtain ⟨laterTypes, laterFunctions, laterExports, laterCode⟩ := ih (record p sec)
    rw [List.foldl_cons]
    refine ⟨?_, ?_, ?_, ?_⟩
    · rw [laterTypes, types, List.flatMap_cons, List.map_append, List.append_assoc]
    · rw [laterFunctions, functions, List.flatMap_cons, List.append_assoc]
    · rw [laterExports, exports, List.flatMap_cons, List.foldl_append]
    · rw [laterCode, code, List.flatMap_cons, List.map_append, List.append_assoc]

/-- A module of one-byte counts, indices and sizes is decoded exactly, and its text is
consumed to the end. -/
theorem parse_exact (sections : List Section) (fits : ∀ sec ∈ sections, sec.Fits)
    (distinct : ((sections.flatMap exportSection).map Prod.fst).Nodup) :
    ∃ p, parse (ofFile (moduleBytes sections)) = .ok p ∧ p.s = [] ∧
      p.wasmTypeVec = (sections.flatMap typeSection).map toWasmType ∧
      p.funcTypeVec = sections.flatMap functionSection ∧
      p.funcNameIndexMapper = sections.flatMap exportSection ∧
      p.wasmFunctionVec = (sections.flatMap codeSection).map toFunction ∧
      ∀ b ∈ sections.flatMap codeSection, ∃ f offset,
        WasmFunction.local_var_initialize (toFunction b) 0 = .ok (f, offset) ∧
        f.local_data = b.locals.flatMap declaredLocals ∧
        (toFunction b).code_vec.drop offset = b.instrs.map hexByte := by
  obtain ⟨length, hq⟩ := parse_sections Section.bytes record sections
    fun sec h => ⟨sectionPiece sec (fits sec h), rfl, fun p => rfl⟩
  obtain ⟨htypes, hfunctions, hexports, hcode⟩ := record_sections sections { s := [] }
  refine ⟨_, hq, rfl, by simpa using htypes, by simpa using hfunctions, ?_,
    by simpa using hcode, ?_⟩
  · refine hexports.trans ?_
    simpa using foldl_assign (sections.flatMap exportSection) [] (by simpa using distinct)
  · intro b hb
    obtain ⟨sec, hsec, hmem⟩ := List.mem_flatMap.mp hb
    cases sec with
    | code bodies =>
      exact local_var_initialize_toFunction ((fits _ hsec).2.2 b hmem).2.2
    | types | functions | exports | other => exact absurd hmem (by simp [codeSection])

/-- A custom section, then code before its types, with two groups of locals. -/
def sampleModule : List Section :=
  [.other 0x00 [0x02, 0x68, 0x69], .code [⟨[(2, .i32), (1, .i64)], [0x20, 0x00, 0x0b]⟩],
    .types [⟨[.i32, .f64], [.i32]⟩], .exports [([0x61, 0xff], 0)], .functions [0]]

theorem parse_exact_sample :
    ∃ p, parse (ofFile (moduleBytes sampleModule)) = .ok p ∧ p.s = [] ∧
      p.wasmTypeVec = [{ param_data := [.i32 0, .f64 0], result_data := [.i32 0] }] ∧
      p.funcTypeVec = [0] ∧ p.funcNameIndexMapper = [([0x61, 0xff], 0)] := by
  have fits : ∀ sec ∈ sampleModule, sec.Fits := by
    simp only [sampleModule, List.mem_cons, List.not_mem_nil, or_false, forall_eq_or_imp, forall_eq]
    exact ⟨⟨by decide, by decide⟩, ⟨by decide, by decide, by decide⟩,
      ⟨by decide, by decide, by decide⟩, ⟨by decide, by decide, by decide⟩,
      ⟨by decide, by decide, by decide⟩⟩
  obtain ⟨p, hp, hend, htypes, hfunctions, hexports, -⟩ :=
    parse_exact sampleModule fits (by decide)
  exact ⟨p, hp, hend, htypes, hfunctions, hexports⟩

end ParserExactness
