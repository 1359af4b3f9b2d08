import TinyWasm.Wasm

/-!
# The module parser

`Parser.hpp`: the hex text `s` of the file is cut section by section, and each
known section is read with an offset into the text that is left.
-/

namespace Parser

open HexText Wasm

structure WasmType where
  param_data : List wasm_type := []
  result_data : List wasm_type := []
  deriving DecidableEq, Repr

/-- A type byte that is not known is reported and skipped. -/
def WasmType.add_data (t : WasmType) (category : TypeCategory) (type : Text) : WasmType :=
  match WasmFunction.typeOfCode type with
  | none => t
  | some data =>
    match category with
    | .PARAM => { t with param_data := t.param_data ++ [data] }
    | .RESULT => { t with result_data := t.result_data ++ [data] }
    | .LOCAL => t

/-- `map[key] = value`. -/
def assign {α β : Type} [DecidableEq α] (key : α) (value : β) : List (α × β) → List (α × β)
  | [] => [(key, value)]
  | entry :: rest =>
    if entry.1 = key then (key, value) :: rest else entry :: assign key value rest

structure State where
  s : Text
  length : Nat := 0
  wasmFunctionVec : List WasmFunction := []
  wasmTypeVec : List WasmType := []
  funcTypeVec : List Nat := []
  funcNameIndexMapper : List (List Byte × Nat) := []
  funcIndexNameMapper : List (Nat × List Byte) := []

/-- `stoul(s.substr(pos, 2), nullptr, 16)`. -/
def byteAt (s : Text) (pos : Nat) : Except CppError Nat := do stoul (← substr s pos 2)

/-- `curType.add_data(category, s.substr(pos + 2 * j, 2))` for the next `count` of `j`. -/
def addTypes (s : Text) (category : TypeCategory) : Nat → Nat → WasmType →
    Except CppError WasmType
  | 0, _, t => .ok t
  | count + 1, pos, t => do
    let type ← substr s pos 2
    addTypes s category count (pos + 2) (t.add_data category type)

/-- The loop of `parse_type` over the types still to read. -/
def typeLoop (s : Text) : Nat → Nat → List WasmType → Except CppError (List WasmType)
  | 0, _, types => .ok types
  | count + 1, base_offset, types => do
    let param_count ← byteAt s (base_offset + 2)
    let base_offset := base_offset + 2
    let curType ← addTypes s .PARAM param_count (base_offset + 2) {}
    let base_offset := base_offset + 2 + 2 * param_count
    let result_count ← byteAt s base_offset
    let curType ← addTypes s .RESULT result_count (base_offset + 2) curType
    let base_offset := base_offset + 2 + 2 * result_count
    typeLoop s count base_offset (types ++ [curType])

def parse_type (p : State) : Except CppError State := do
  let type_count ← byteAt p.s 0
  let wasmTypeVec ← typeLoop p.s type_count 2 p.wasmTypeVec
  return { p with wasmTypeVec }

/-- The loop of `parse_function` from index `i` on. -/
def functionLoop (s : Text) : Nat → Nat → List Nat → Except CppError (List Nat)
  | 0, _, indices => .ok indices
  | count + 1, i, indices => do
    let function_type ← byteAt s (0 + 2 * i + 2)
    functionLoop s count (i + 1) (indices ++ [function_type])

def parse_function (p : State) : Except CppError State := do
  let function_count ← byteAt p.s 0
  let funcTypeVec ← functionLoop p.s function_count 0 p.funcTypeVec
  return { p with funcTypeVec }

/-- The loop of `parse_export`; the export kind is read and not used. -/
def exportLoop : Nat → Nat → State → Except CppError State
  | 0, _, p => .ok p
  | count + 1, base_offset, p => do
    let export_size ← byteAt p.s (base_offset + 2)
    let export_name ← hexToAscii (← substr p.s (base_offset + 4) (export_size * 2))
    let _export_type ← byteAt p.s (base_offset + 2 * export_size + 4)
    let export_index ← byteAt p.s (base_offset + 2 * export_size + 6)
    exportLoop count (base_offset + 2 * export_size + 6)
      { p with
        funcNameIndexMapper := assign export_name export_index p.funcNameIndexMapper
        funcIndexNameMapper := assign export_index export_name p.funcIndexNameMapper }

def parse_export (p : State) : Except CppError State := do
  let export_count ← byteAt p.s 0
  exportLoop export_count 0 p

/-- `opcodes.push_back(s.substr(pos + i * 2, 2))` for the next `count` of `i`. -/
def readOpcodes (s : Text) : Nat → Nat → Except CppError (List Text)
  | 0, _ => .ok []
  | count + 1, pos => do
    let opcode ← substr s pos 2
    let rest ← readOpcodes s count (pos + 2)
    return opcode :: rest

/-- `n - 1` on an unsigned 64-bit value. -/
def wrappedPred (n : Nat) : Nat := if n = 0 then 2 ^ 64 - 1 else n - 1

/-- The loop of `parse_code`. -/
def codeLoop (s : Text) : Nat → Nat → List WasmFunction → Except CppError (List WasmFunction)
  | 0, _, functions => .ok functions
  | count + 1, base_offset, functions => do
    let func_size ← byteAt s (base_offset + 2)
    let local_var_declare_count ← byteAt s (base_offset + 4)
    let opcodes ← readOpcodes s (wrappedPred func_size) (base_offset + 6)
    let curFunc := ({} : WasmFunction).set_code_vec opcodes local_var_declare_count
    codeLoop s count (base_offset + 2 * func_size + 2) (functions ++ [curFunc])

def parse_code (p : State) : Except CppError State := do
  let func_count ← byteAt p.s 0
  let wasmFunctionVec ← codeLoop p.s func_count 0 p.wasmFunctionVec
  return { p with wasmFunctionVec }

/-- A wrong magic number ends the process. -/
def initial_check (p : State) : Except CppError State := do
  let magic_number ← substr p.s 0 8
  if magic_number ≠ "0061736d".toList then throw (.thrown "exit(-1)")
  let s ← substrFrom p.s 8
  let s ← substrFrom s 8
  return { p with s }

/-- The reader a section id selects; other sections are skipped. -/
def readContents (type : Text) (p : State) : Except CppError State := do
  let p ← if type = "01".toList then parse_type p else pure p
  let p ← if type = "03".toList then parse_function p else pure p
  let p ← if type = "07".toList then parse_export p else pure p
  if type = "0a".toList then parse_code p else pure p

/-- One section: its id and length are cut, it is read, and its contents are cut. -/
def parseSection (p : State) : Except CppError State := do
  let type ← substr p.s 0 2
  let s ← substrFrom p.s 2
  let length ← byteAt s 0
  let s ← substrFrom s 2
  let p ← readContents type { p with s, length }
  let s ← substrFrom p.s (p.length * 2)
  return { p with s }

/-- Every turn cuts the text, so as many turns as there are characters are enough. -/
def parseLoop : Nat → State → Except CppError State
  | fuel, p =>
    if p.s.length > 0 then
      match fuel with
      | 0 => .error (.divergence "parse")
      | fuel + 1 => do
        let p ← parseSection p
        parseLoop fuel p
    else .ok p

def parse (p : State) : Except CppError State := do
  let p ← initial_check p
  parseLoop p.s.length p

/-- `v[i]` of a vector the parser filled. -/
def entryAt {α : Type} (entries : List α) (i : Nat) : Except CppError α :=
  match entries[i]? with
  | some entry => .ok entry
  | none => .error (.undefinedBehaviour "vector read past its end")

/-- The types of function `i` are those its declaration names; the field `type` is never read
again. -/
def initFunctionbyType (p : State) (i : Nat) : Except CppError State := do
  let f ← entryAt p.wasmFunctionVec i
  let type ← entryAt p.wasmTypeVec (← entryAt p.funcTypeVec i)
  return { p with
    wasmFunctionVec := p.wasmFunctionVec.set i
      { f with param_data := type.param_data, result_data := type.result_data } }

/-- `Parser(wasmpath)` on the bytes of the file. -/
def ofFile (file : List Byte) : State := { s := readBinary file }

end Parser
