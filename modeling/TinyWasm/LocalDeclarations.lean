import TinyWasm.Wasm

/-!
# The local declarations of a body

`local_var_initialize` reads groups of a count byte and a type byte. A type
byte that is not known is skipped with its whole group.
-/

namespace LocalDeclarations

open HexText Wasm

/-- A count byte and a type byte. -/
abbrev Group := Byte × Byte

def groupCode (g : Group) : List Text := [hexByte g.1, hexByte g.2]

/-- The variables a group declares. -/
def groupLocals (g : Group) : List wasm_type :=
  match WasmFunction.typeOfCode (hexByte g.2) with
  | some data => List.replicate g.1.toNat data
  | none => []

theorem add_group (f : WasmFunction) (g : Group) :
    (List.range g.1.toNat).foldl (fun f _ => f.add_data .LOCAL (hexByte g.2)) f =
      { f with local_data := f.local_data ++ groupLocals g } := by
  have repeated : ∀ n : Nat, (List.range n).foldl
      (fun f _ => WasmFunction.add_data f .LOCAL (hexByte g.2)) f =
      { f with local_data := f.local_data ++
          match WasmFunction.typeOfCode (hexByte g.2) with
          | some data => List.replicate n data
          | none => [] } := by
    intro n
    induction n with
    | zero => cases WasmFunction.typeOfCode (hexByte g.2) <;> simp
    | succ n ih =>
      rw [List.range_succ, List.foldl_append, ih]
      cases h : WasmFunction.typeOfCode (hexByte g.2) with
      | none => simp [WasmFunction.add_data, h]
      | some data => simp [WasmFunction.add_data, h, List.replicate_succ']
  exact repeated g.1.toNat

theorem readLocals_groups (groups : List Group) (f : WasmFunction) (offset : Nat)
    (rest : List Text) (hcode : f.code_vec.drop offset = groups.flatMap groupCode ++ rest) :
    f.readLocals groups.length offset =
      .ok ({ f with local_data := f.local_data ++ groups.flatMap groupLocals },
        offset + 2 * groups.length) := by
  induction groups generalizing f offset with
  | nil => simp [WasmFunction.readLocals]
  | cons g groups ih =>
    have codes : f.code_vec.drop offset =
        hexByte g.1 :: hexByte g.2 :: (groups.flatMap groupCode ++ rest) := by
      rw [hcode]
      simp [groupCode]
    have readCount : f.codeAt offset = .ok (hexByte g.1) := by
      have h : f.code_vec[offset]? = some (hexByte g.1) := by
        rw [← Nat.add_zero offset, ← List.getElem?_drop, codes]
        rfl
      rw [WasmFunction.codeAt, h]
    have readType : f.codeAt (offset + 1) = .ok (hexByte g.2) := by
      have h : f.code_vec[offset + 1]? = some (hexByte g.2) := by
        rw [← List.getElem?_drop, codes]
        rfl
      rw [WasmFunction.codeAt, h]
    have later : f.code_vec.drop (offset + 2) = groups.flatMap groupCode ++ rest := by
      rw [← List.drop_drop, codes]
      rfl
    have step := ih { f with local_data := f.local_data ++ groupLocals g } (offset + 2) later
    rw [List.length_cons, WasmFunction.readLocals, readCount, ok_bind, stoul_hexByte_toNat,
      ok_bind, readType, ok_bind, add_group]
    refine step.trans ?_
    simp only [List.flatMap_cons, List.append_assoc, Except.ok.injEq, Prod.mk.injEq, true_and]
    omega

theorem groupCode_length (groups : List Group) :
    (groups.flatMap groupCode).length = 2 * groups.length := by
  induction groups with
  | nil => rfl
  | cons g groups ih =>
    rw [List.flatMap_cons, List.length_append, ih, List.length_cons]
    simp only [groupCode, List.length_cons, List.length_nil]
    omega

/-- The declarations in front of the code are read in full, and the cursor stops at
the first instruction. -/
theorem local_var_initialize_groups {f : WasmFunction} {groups : List Group} {rest : List Text}
    (hcode : f.code_vec = groups.flatMap groupCode ++ rest)
    (hcount : f.local_var_declare_count = groups.length) :
    WasmFunction.local_var_initialize f 0 =
      .ok ({ f with local_data := f.local_data ++ groups.flatMap groupLocals },
        2 * groups.length) := by
  have read := readLocals_groups groups f 0 rest (by rw [List.drop_zero, hcode])
  rw [Nat.zero_add, ← hcount] at read
  rw [WasmFunction.local_var_initialize, read, hcount]

end LocalDeclarations
