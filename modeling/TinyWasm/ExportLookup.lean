import TinyWasm.ParserExactness

/-!
# Looking up an export

Modules whose exports are of any kind and which may import functions. The
parser skips the import section and records every export in the same two maps,
so a name leads to the exported function when nothing else is exported and no
imported function shifts the indices.
-/

namespace ExportLookup

open HexText Wasm Parser LocalDeclarations ParserExactness

inductive ExternKind where
  | func
  | table
  | mem
  | global
  deriving DecidableEq, Repr

def ExternKind.code : ExternKind → Byte
  | .func => 0x00
  | .table => 0x01
  | .mem => 0x02
  | .global => 0x03

structure Export where
  name : List Byte
  kind : ExternKind
  index : Nat
  deriving DecidableEq, Repr

/-- An import: its two names, its kind, and the bytes that describe its type. -/
structure Import where
  moduleName : List Byte
  name : List Byte
  kind : ExternKind
  descriptor : List Byte
  deriving DecidableEq, Repr

/-- Sections as they occur in a valid module; the parser reads four kinds of them. -/
inductive ModuleSection where
  | types (types : List FuncType)
  | imports (entries : List Import)
  | functions (indices : List Nat)
  | exports (entries : List Export)
  | code (bodies : List Body)
  | other (id : Byte) (payload : List Byte)
  deriving DecidableEq, Repr

def Export.bytes (e : Export) : List Byte := exportEntry e.kind.code (e.name, e.index)

def Import.bytes (i : Import) : List Byte :=
  leb i.moduleName.length :: i.moduleName ++ leb i.name.length :: i.name ++
    i.kind.code :: i.descriptor

namespace ModuleSection

def id : ModuleSection → Byte
  | types _ => 0x01
  | imports _ => 0x02
  | functions _ => 0x03
  | exports _ => 0x07
  | code _ => 0x0a
  | other id _ => id

def payload : ModuleSection → List Byte
  | types ts => leb ts.length :: ts.flatMap FuncType.bytes
  | imports is => leb is.length :: is.flatMap Import.bytes
  | functions indices => leb indices.length :: indices.map leb
  | exports es => leb es.length :: es.flatMap Export.bytes
  | code bodies => leb bodies.length :: bodies.flatMap Body.bytes
  | other _ payload => payload

def bytes (sec : ModuleSection) : List Byte := sec.id :: leb sec.payload.length :: sec.payload

/-- Every count, index and size takes one LEB128 byte. -/
def Fits (sec : ModuleSection) : Prop :=
  sec.payload.length < 128 ∧
  match sec with
  | types ts => ts.length < 128 ∧ ∀ t ∈ ts, t.params.length < 128 ∧ t.results.length < 128
  | imports is => is.length < 128 ∧ ∀ i ∈ is, i.moduleName.length < 128 ∧ i.name.length < 128
  | functions indices => indices.length < 128 ∧ ∀ i ∈ indices, i < 128
  | exports es => es.length < 128 ∧ ∀ e ∈ es, e.name.length < 128 ∧ e.index < 128
  | code bodies => bodies.length < 128 ∧
      ∀ b ∈ bodies, b.code.length + 1 < 128 ∧ b.locals.length < 128 ∧ ∀ g ∈ b.locals, g.1 < 128
  | other id _ => id ≠ 0x01 ∧ id ≠ 0x02 ∧ id ≠ 0x03 ∧ id ≠ 0x07 ∧ id ≠ 0x0a

/-- The number of functions the section imports. -/
def importedFunctions : ModuleSection → Nat
  | imports is => is.countP fun i => i.kind = .func
  | _ => 0

def typeEntries : ModuleSection → List FuncType
  | types ts => ts
  | _ => []

def functionEntries : ModuleSection → List Nat
  | functions indices => indices
  | _ => []

def exportEntries : ModuleSection → List Export
  | exports es => es
  | _ => []

def codeEntries : ModuleSection → List Body
  | code bodies => bodies
  | _ => []

end ModuleSection

open ModuleSection

/-- A module with what validity demands of the tables the parser builds: distinct export
names, a code entry for each declared function, and indices in range. -/
structure Module where
  sections : List ModuleSection
  fits : ∀ sec ∈ sections, sec.Fits
  distinct : ((sections.flatMap exportEntries).map Export.name).Nodup
  matched : (sections.flatMap functionEntries).length = (sections.flatMap codeEntries).length
  typed : ∀ i ∈ sections.flatMap functionEntries, i < (sections.flatMap typeEntries).length
  defined : ∀ e ∈ sections.flatMap exportEntries, e.kind = .func →
    e.index < (sections.map importedFunctions).sum + (sections.flatMap functionEntries).length

namespace Module

def bytes (m : Module) : List Byte :=
  [0x00, 0x61, 0x73, 0x6d, 0x01, 0x00, 0x00, 0x00] ++ m.sections.flatMap ModuleSection.bytes

def imported (m : Module) : Nat := (m.sections.map importedFunctions).sum
def functions (m : Module) : List Nat := m.sections.flatMap functionEntries
def exports (m : Module) : List Export := m.sections.flatMap exportEntries
def code (m : Module) : List Body := m.sections.flatMap codeEntries

end Module

/-! ### What the parser stores -/

def entry (e : Export) : List Byte × Nat := (e.name, e.index)

/-- The sections the parser reads, as the reader of function exports sees them. -/
def asSection : ModuleSection → Section
  | types ts => .types ts
  | imports is => .other 0x02 (imports is).payload
  | functions indices => .functions indices
  | exports es => .exports (es.map entry)
  | code bodies => .code bodies
  | other sectionId payload => .other sectionId payload

theorem exports_reads {es : List Export} (p : State) (fits : (exports es).Fits)
    (h : Holds p.s 0 (exports es).payload) :
    readContents (hexByte 0x07) p = .ok (record p (asSection (exports es))) := by
  obtain ⟨count, entries⟩ := holds_cons h
  have kinds : es.flatMap Export.bytes =
      (es.map fun e => (e.kind.code, entry e)).flatMap fun e => exportEntry e.1 e.2 := by
    rw [List.flatMap_map]
    rfl
  rw [kinds] at entries
  have small : ∀ e ∈ es.map fun e => (e.kind.code, entry e),
      e.2.1.length < 128 ∧ e.2.2 < 128 := by
    intro e he
    obtain ⟨e, hmem, rfl⟩ := List.mem_map.mp he
    exact fits.2.2 e hmem
  have read := exportLoop_of_holds (k := 0) 0 p entries rfl small
  rw [List.length_map, List.map_map] at read
  have parsed : parse_export p = .ok (record p (asSection (exports es))) := by
    rw [parse_export, count_of_holds 0 count rfl fits.2.1, ok_bind, read, asSection, record]
    rfl
  rw [readContents_eq]
  simp [parsed]

/-- A section of the module as a piece of its file. -/
theorem section_piece (sec : ModuleSection) (fits : sec.Fits) :
    ∃ piece : Piece, piece.bytes = sec.bytes ∧ ∀ p, piece.store p = record p (asSection sec) := by
  have frame : ∀ p s length, record { p with s, length } (asSection sec) =
      { record p (asSection sec) with s, length } := by
    intro p s length
    cases sec <;> simp [asSection, record, foldl_recordExport]
  cases sec with
  | exports es =>
    exact ⟨⟨0x07, (exports es).payload, fun p => record p (asSection (exports es)),
      fun p h => exports_reads p fits h, frame, fits.1⟩, rfl, fun p => rfl⟩
  | types ts => exact ⟨sectionPiece (.types ts) fits, rfl, fun p => rfl⟩
  | functions indices => exact ⟨sectionPiece (.functions indices) fits, rfl, fun p => rfl⟩
  | code bodies => exact ⟨sectionPiece (.code bodies) fits, rfl, fun p => rfl⟩
  | imports is =>
    exact ⟨sectionPiece (.other 0x02 (imports is).payload)
      ⟨fits.1, by decide, by decide, by decide, by decide⟩, rfl, fun p => rfl⟩
  | other sectionId payload =>
    obtain ⟨short, h1, -, h3, h7, ha⟩ := fits
    exact ⟨sectionPiece (.other sectionId payload) ⟨short, h1, h3, h7, ha⟩, rfl, fun p => rfl⟩

theorem flatMap_asSection (sections : List ModuleSection) :
    (sections.map asSection).flatMap functionSection = sections.flatMap functionEntries ∧
      (sections.map asSection).flatMap exportSection =
        (sections.flatMap exportEntries).map entry ∧
      (sections.map asSection).flatMap codeSection = sections.flatMap codeEntries := by
  induction sections with
  | nil => exact ⟨rfl, rfl, rfl⟩
  | cons sec sections ih =>
    obtain ⟨functions, exports, code⟩ := ih
    simp only [List.map_cons, List.flatMap_cons, List.map_append, functions, exports, code]
    cases sec <;> exact ⟨rfl, rfl, rfl⟩

/-- Every export is recorded under its name, whatever its kind, with the index as the file
has it; the tables of functions hold the declared functions only. -/
theorem parse_module (m : Module) :
    ∃ p, parse (ofFile m.bytes) = .ok p ∧ p.funcNameIndexMapper = m.exports.map entry ∧
      p.funcTypeVec = m.functions ∧ p.wasmFunctionVec = m.code.map toFunction := by
  obtain ⟨length, hp⟩ := parse_sections ModuleSection.bytes (fun p sec => record p (asSection sec))
    m.sections fun sec h => section_piece sec (m.fits sec h)
  refine ⟨_, hp, ?_⟩
  have folded : m.sections.foldl (fun p sec => record p (asSection sec)) { s := [] } =
      (m.sections.map asSection).foldl record { s := [] } := by
    rw [List.foldl_map]
  obtain ⟨-, hfunctions, hexports, hcode⟩ :=
    record_sections (m.sections.map asSection) { s := [] }
  obtain ⟨functions, exports, code⟩ := flatMap_asSection m.sections
  have distinct : (([] ++ m.exports.map entry).map Prod.fst).Nodup := by
    rw [List.nil_append, List.map_map]
    exact m.distinct
  rw [folded]
  refine ⟨?_, ?_, ?_⟩
  · rw [hexports, exports]
    exact foldl_assign (m.exports.map entry) [] distinct
  · rw [hfunctions, functions]
    rfl
  · rw [hcode, code]
    rfl

/-! ### When a name leads to its function -/

/-- The name table holds the exported functions, and leads to the body and the type of each
one that the module defines. -/
structure Finds (m : Module) (p : State) : Prop where
  keys : ∀ name, name ∈ p.funcNameIndexMapper.map Prod.fst ↔
    ∃ e ∈ m.exports, e.kind = .func ∧ e.name = name
  bodies : ∀ e ∈ m.exports, e.kind = .func → m.imported ≤ e.index →
    ∃ i, p.funcNameIndexMapper.lookup e.name = some i ∧
      p.wasmFunctionVec[i]? = (m.code[e.index - m.imported]?).map toFunction ∧
      p.funcTypeVec[i]? = m.functions[e.index - m.imported]?

/-- What a code entry says, apart from its own size. -/
def contents (b : Body) : Nat × List Byte := (b.locals.length, b.code)

/-- Entries `i` and `j` of the module's functions are the same. -/
def SameFunction (m : Module) (i j : Nat) : Prop :=
  (m.code[i]?).map contents = (m.code[j]?).map contents ∧ m.functions[i]? = m.functions[j]?

theorem toFunction_eq_iff (b c : Body) : toFunction b = toFunction c ↔ contents b = contents c := by
  have digits : Function.Injective hexByte := fun _ _ h => hexByte_inj.mp h
  simp only [toFunction, contents, WasmFunction.mk.injEq, Prod.mk.injEq,
    (List.map_injective_iff.mpr digits).eq_iff, true_and, and_true]

theorem lookup_entry {es : List Export} (distinct : (es.map Export.name).Nodup) {e : Export}
    (h : e ∈ es) : (es.map entry).lookup e.name = some e.index := by
  induction es with
  | nil => exact absurd h List.not_mem_nil
  | cons first es ih =>
    rw [List.map_cons, List.nodup_cons] at distinct
    rw [List.map_cons, entry, List.lookup_cons]
    rcases List.mem_cons.mp h with rfl | later
    · simp
    · have other : (e.name == first.name) = false := by
        rw [beq_eq_false_iff_ne]
        intro same
        exact distinct.1 (List.mem_map.mpr ⟨e, later, same⟩)
      rw [other]
      exact ih distinct.2 later

/-- The lookup is right for a module exactly when it exports functions only, and each exported
function of its own is entered alike at its index with and without the imports counted. -/
theorem export_lookup_iff (m : Module) :
    ∃ p, parse (ofFile m.bytes) = .ok p ∧
      (Finds m p ↔ ∀ e ∈ m.exports, e.kind = .func ∧
        (m.imported ≤ e.index → SameFunction m e.index (e.index - m.imported))) := by
  obtain ⟨p, hp, hnames, htypes, hcode⟩ := parse_module m
  refine ⟨p, hp, ?_⟩
  have distinct : (m.exports.map Export.name).Nodup := m.distinct
  have at_index : ∀ i j : Nat, p.wasmFunctionVec[i]? = (m.code[j]?).map toFunction ↔
      (m.code[i]?).map contents = (m.code[j]?).map contents := by
    intro i j
    rw [hcode, List.getElem?_map]
    cases m.code[i]? <;> cases m.code[j]? <;> simp [toFunction_eq_iff]
  constructor
  · intro finds e he
    have named : e.name ∈ p.funcNameIndexMapper.map Prod.fst := by
      rw [hnames, List.map_map]
      exact List.mem_map.mpr ⟨e, he, rfl⟩
    obtain ⟨e', he', func, same⟩ := (finds.keys e.name).mp named
    have : e' = e := List.inj_on_of_nodup_map distinct he' he same
    subst this
    refine ⟨func, fun own => ?_⟩
    obtain ⟨i, hi, body, type⟩ := finds.bodies e' he func own
    rw [hnames, lookup_entry distinct he, Option.some.injEq] at hi
    subst hi
    rw [htypes] at type
    exact ⟨(at_index _ _).mp body, type⟩
  · intro right
    constructor
    · intro name
      rw [hnames, List.map_map, List.mem_map]
      constructor
      · rintro ⟨e, he, rfl⟩
        exact ⟨e, he, (right e he).1, rfl⟩
      · rintro ⟨e, he, -, rfl⟩
        exact ⟨e, he, rfl⟩
    · intro e he func own
      obtain ⟨body, type⟩ := (right e he).2 own
      refine ⟨e.index, ?_, (at_index _ _).mpr body, ?_⟩
      · rw [hnames, lookup_entry distinct he]
      · rw [htypes, type]

/-- A memory exported as `m`, and nothing else. -/
def memoryModule : Module where
  sections := [.other 0x05 [0x01, 0x00, 0x01], .exports [⟨[0x6d], .mem, 0⟩]]
  fits := by
    intro sec h
    simp only [List.mem_cons, List.not_mem_nil, or_false] at h
    rcases h with rfl | rfl
    · exact ⟨by decide, by decide, by decide, by decide, by decide, by decide⟩
    · exact ⟨by decide, by decide, by decide⟩
  distinct := by decide
  matched := rfl
  typed := by decide
  defined := by decide

theorem memory_found_as_function :
    ¬ ∀ m : Module, ∀ p, parse (ofFile m.bytes) = .ok p → Finds m p := by
  intro h
  obtain ⟨p, hp, right⟩ := export_lookup_iff memoryModule
  have finds := right.mp (h memoryModule p hp)
  exact absurd (finds ⟨[0x6d], .mem, 0⟩ (by decide)).1 (by decide)

end ExportLookup
