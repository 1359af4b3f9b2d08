import TinyWasm.Opcode

/-!
# A function under compilation

The state `WasmFunction` carries while its code is generated, and the methods
that lay out its frame, move values to and from the wasm stack, and place and
fix branches. Trace output is left out, and with it `stackToVec`, which is only
ever printed.
-/

namespace Wasm

open HexText Opcode

/-- The value types, each with the value it holds. -/
inductive wasm_type where
  | i32 (value : BitVec 32)
  | i64 (value : BitVec 64)
  | f32 (bits : BitVec 32)
  | f64 (bits : BitVec 64)
  deriving DecidableEq, Repr

inductive TypeCategory where
  | PARAM
  | RESULT
  | LOCAL
  deriving DecidableEq, Repr

structure controlFlowElement where
  label : String
  signature : List wasm_type
  deriving DecidableEq, Repr

def REG_BUFFER : BitVec 8 := 19
def REG_WASM_STACK : BitVec 8 := 20
def REG_POINTER_WASM_STACK : BitVec 8 := 21

/-- An entry of `fake_insert_map`: label, character offset, kind of branch. -/
abbrev FakeBranch := String × Nat × String

/-- The maps read with `operator[]` are total, with the value-initialised default.
The back of `control_flow_stack` is the head of the list. -/
structure WasmFunction where
  stack_size : Int := 0
  param_stack_start_location : Int := 0
  param_stack_end_location : Int := 0
  local_stack_start_location : Int := 0
  local_stack_end_location : Int := 0
  if_label : Nat := 0
  local_var_declare_count : Nat := 0
  wasm_instructions : Text := []
  pre_instructions_for_param_loading : Text := []
  code_vec : List Text := []
  local_data : List wasm_type := []
  param_data : List wasm_type := []
  result_data : List wasm_type := []
  control_flow_stack : List controlFlowElement := []
  vecToStack : TypeCategory → Nat → Int := fun _ _ => 0
  regTypeGetter : TypeCategory → Nat → RegType := fun _ _ => .wReg
  fake_insert_map : List FakeBranch := []
  label_map : List (String × Nat) := []

namespace WasmFunction

def constructFullinstr (f : WasmFunction) (sub_instr : Text) : WasmFunction :=
  { f with wasm_instructions := f.wasm_instructions ++ sub_instr }

/-- `wasm_instructions += call`. -/
def emit (f : WasmFunction) (call : Except CppError Text) : Except CppError WasmFunction :=
  call.map f.constructFullinstr

/-- `code_vec[i]`. -/
def codeAt (f : WasmFunction) (i : Nat) : Except CppError Text :=
  match f.code_vec[i]? with
  | some code => .ok code
  | none => .error (.undefinedBehaviour "code_vec read past its end")

/-! ### Branches and labels -/

def fakeInsertBranch (f : WasmFunction) (label BranchStr : String) : WasmFunction :=
  { f.constructFullinstr "FFFFFFFF".toList with
    fake_insert_map := f.fake_insert_map ++ [(label, f.wasm_instructions.length, BranchStr)] }

/-- `insert` keeps the position a label already has. -/
def insertLabel (f : WasmFunction) (label : String) : WasmFunction :=
  if (f.label_map.lookup label).isSome then f
  else { f with label_map := f.label_map ++ [(label, f.wasm_instructions.length)] }

/-- The branch placed at `origin_location` for a label at `location`. -/
def encodeFixed (BranchStr : String) (location origin_location : Nat) : Except CppError Text :=
  let instructions_level_offset : BitVec 32 :=
    BitVec.ofInt 32 (((location : Int) - origin_location).tdiv 8)
  if BranchStr = "b" then encodeBranch instructions_level_offset
  else if BranchStr = "bl" then encodeBranch instructions_level_offset true
  else do
    let cond ← condAt (BranchStr.drop 1).toString
    encodeBranchCondition instructions_level_offset cond

/-- One turn of the loop. Reading `label_map[label]` records a missing label at zero. -/
def fixOne (f : WasmFunction) (x : FakeBranch) : Except CppError WasmFunction := do
  let (label, origin_location, BranchStr) := x
  let f := match f.label_map.lookup label with
    | some _ => f
    | none => { f with label_map := f.label_map ++ [(label, 0)] }
  let instr ← encodeFixed BranchStr ((f.label_map.lookup label).getD 0) origin_location
  let fixed ← replace f.wasm_instructions origin_location 8 instr
  return { f with wasm_instructions := fixed }

/-- The order in which an `unordered_multimap` is iterated: some order of its entries. -/
structure VisitOrder where
  visit : List FakeBranch → List FakeBranch
  perm : ∀ entries, (visit entries).Perm entries

def fixUpfakeBranch (f : WasmFunction) (order : VisitOrder) : Except CppError WasmFunction :=
  (order.visit f.fake_insert_map).foldlM fixOne f

/-! ### Types, params and locals -/

/-- The value `add_data` stores for a type byte. -/
def typeOfCode (type : Text) : Option wasm_type :=
  if type = "7f".toList then some (.i32 0)
  else if type = "7e".toList then some (.i64 0)
  else if type = "7d".toList then some (.f32 0)
  else if type = "7c".toList then some (.f64 0)
  else none

def add_data (f : WasmFunction) (category : TypeCategory) (type : Text) : WasmFunction :=
  match typeOfCode type with
  | none => f
  | some data =>
    match category with
    | .PARAM => { f with param_data := f.param_data ++ [data] }
    | .RESULT => { f with result_data := f.result_data ++ [data] }
    | .LOCAL => { f with local_data := f.local_data ++ [data] }

def set_code_vec (f : WasmFunction) (v : List Text) (l : Nat := 0) : WasmFunction :=
  { f with code_vec := v, local_var_declare_count := l }

/-- The loop of `local_var_initialize`, with the declarations still to read. -/
def readLocals (f : WasmFunction) : Nat → Nat → Except CppError (WasmFunction × Nat)
  | 0, offset => .ok (f, offset)
  | declares + 1, offset => do
    let count ← stoul (← f.codeAt offset)
    let var_type ← f.codeAt (offset + 1)
    let f := (List.range count).foldl (fun f _ => f.add_data .LOCAL var_type) f
    readLocals f declares (offset + 2)

def local_var_initialize (f : WasmFunction) (offset : Nat) :
    Except CppError (WasmFunction × Nat) :=
  f.readLocals f.local_var_declare_count offset

def allocateVar (elem : wasm_type) (stack_location : Int) : Int :=
  match elem with
  | .f32 _ => stack_location + 4
  | .f64 _ => stack_location + 8
  | .i64 _ => stack_location + 4
  | .i32 _ => stack_location + 4

/-! ### Stack -/

def getStackPreallocateSize (f : WasmFunction) : WasmFunction :=
  let param_end := f.param_data.foldl (fun location c => allocateVar c location) 0
  let local_start := param_end + 8
  let local_end := f.local_data.foldl (fun location c => allocateVar c location) local_start
  { f with
    param_stack_start_location := 0
    param_stack_end_location := param_end
    local_stack_start_location := local_start
    local_stack_end_location := local_end
    stack_size := if local_end.tmod 16 ≠ 0 then 16 * (local_end.tdiv 16 + 1) else local_end }

/-- The frame size is narrowed to the `uint16_t` of the encoder. -/
def prepareSp (f : WasmFunction) : Except CppError WasmFunction :=
  f.emit (encodeAddSubImm .xReg true 31 31 (BitVec.ofInt 16 f.stack_size))

def push (regType : RegType) (save_reg : BitVec 8 := 11) : Except CppError Text := do
  let store ← encodeLoadStoreReg regType .str save_reg REG_WASM_STACK REG_POINTER_WASM_STACK
  let up ← encodeAddSubImm .xReg false REG_POINTER_WASM_STACK REG_POINTER_WASM_STACK 8
  return store ++ up

def pop (regType : RegType) (tee : Bool := false) (save_reg : BitVec 8 := 11) :
    Except CppError Text := do
  let down ← encodeAddSubImm .xReg true REG_POINTER_WASM_STACK REG_POINTER_WASM_STACK 8
  let load ← encodeLoadStoreReg regType .ldr save_reg REG_WASM_STACK REG_POINTER_WASM_STACK
  if tee then
    let up ← encodeAddSubImm .xReg false REG_POINTER_WASM_STACK REG_POINTER_WASM_STACK 8
    return down ++ load ++ up
  else return down ++ load

/-- The results popped to their registers, from register `i` on. -/
def popResults : Nat → List wasm_type → Except CppError Text
  | _, [] => .ok []
  | i, value :: rest => do
    let instr ← match value with
      | .f32 _ => .error (.invalidArgument "Fmov not supported yet!")
      | .f64 _ => .error (.invalidArgument "Fmov not supported yet!")
      | .i64 _ => pop .xReg false (BitVec.ofNat 8 i)
      | .i32 _ => pop .wReg false (BitVec.ofNat 8 i)
    let others ← popResults (i + 1) rest
    return instr ++ others

def restoreSP (f : WasmFunction) : Except CppError WasmFunction := do
  let prepare_ans_instr ← popResults 0 f.result_data
  let restore_sp_instr ← encodeAddSubImm .xReg false 31 31 (BitVec.ofInt 16 f.stack_size)
  return f.constructFullinstr (prepare_ans_instr ++ restore_sp_instr)

/-! ### Initialisation -/

/-- `vecToStack[{category, i}] = offset` and `regTypeGetter[{category, i}] = regType`. -/
def setVar (f : WasmFunction) (category : TypeCategory) (i : Nat) (offset : Int)
    (regType : RegType) : WasmFunction :=
  { f with
    vecToStack := fun c j => if c = category ∧ j = i then offset else f.vecToStack c j
    regTypeGetter := fun c j =>
      if c = category ∧ j = i then regType else f.regTypeGetter c j }

/-- The loop of `initParam` from index `i` on. -/
def storeParams (f : WasmFunction) (offset : Int) (fp_reg_used general_reg_used i : Nat) :
    List wasm_type → Except CppError WasmFunction
  | [] => .ok f
  | value :: rest => do
    let store := fun regType (reg : Nat) =>
      encodeLoadStoreImm regType .str (BitVec.ofNat 8 reg) 31 (BitVec.ofInt 16 offset)
    match value with
    | .f32 _ =>
      let f ← (f.setVar .PARAM i offset .sReg).emit (store .sReg fp_reg_used)
      storeParams f (offset - 4) (fp_reg_used + 1) general_reg_used (i + 1) rest
    | .f64 _ =>
      let f ← (f.setVar .PARAM i offset .dReg).emit (store .dReg fp_reg_used)
      storeParams f (offset - 8) (fp_reg_used + 1) general_reg_used (i + 1) rest
    | .i64 _ =>
      let f ← (f.setVar .PARAM i offset .xReg).emit (store .xReg general_reg_used)
      storeParams f (offset - 4) fp_reg_used (general_reg_used + 1) (i + 1) rest
    | .i32 _ =>
      let f ← (f.setVar .PARAM i offset .wReg).emit (store .wReg general_reg_used)
      storeParams f (offset - 4) fp_reg_used (general_reg_used + 1) (i + 1) rest

def initParam (f : WasmFunction) : Except CppError WasmFunction :=
  f.storeParams f.param_stack_end_location 0 0 0 f.param_data

/-- The loop of `initLocal` from index `i` on: floats are zeroed as integers of their size. -/
def storeLocals (f : WasmFunction) (offset : Int) (i : Nat) :
    List wasm_type → Except CppError WasmFunction
  | [] => .ok f
  | value :: rest => do
    let store := fun regType =>
      encodeLoadStoreImm regType .str 31 31 (BitVec.ofInt 16 offset)
    match value with
    | .f32 _ =>
      let f ← (f.setVar .LOCAL i offset .sReg).emit (store .wReg)
      storeLocals f (offset - 4) (i + 1) rest
    | .f64 _ =>
      let f ← (f.setVar .LOCAL i offset .dReg).emit (store .xReg)
      storeLocals f (offset - 8) (i + 1) rest
    | .i64 _ =>
      let f ← (f.setVar .LOCAL i offset .xReg).emit (store .xReg)
      storeLocals f (offset - 4) (i + 1) rest
    | .i32 _ =>
      let f ← (f.setVar .LOCAL i offset .wReg).emit (store .wReg)
      storeLocals f (offset - 4) (i + 1) rest

def initLocal (f : WasmFunction) : Except CppError WasmFunction :=
  f.storeLocals f.local_stack_end_location 0 f.local_data

def main_entry_initialize (f : WasmFunction) : Except CppError WasmFunction := do
  let f ← f.getStackPreallocateSize.prepareSp
  let f ← f.initParam
  f.initLocal

/-- The arguments loaded to their registers, from index `i` on. -/
def loadParams : Nat → List wasm_type → Except CppError Text
  | _, [] => .ok []
  | i, value :: rest => do
    let instr ← match value with
      | .f32 _ => .error (.invalidArgument "Fmov not supported yet!")
      | .f64 _ => .error (.invalidArgument "Fmov not supported yet!")
      | .i64 v => wrapperEncodeMovInt64 (BitVec.ofNat 8 i) v
      | .i32 v => wrapperEncodeMovInt32 (BitVec.ofNat 8 i) v
    let others ← loadParams (i + 1) rest
    return instr ++ others

def prepareParams (f : WasmFunction) : Except CppError WasmFunction := do
  let buffer ← encodeMovRegister .xReg REG_BUFFER 0
  let stack ← encodeMovRegister .xReg REG_WASM_STACK 1
  let pointer ← encodeMovz REG_POINTER_WASM_STACK 0 .xReg
  let params ← loadParams 0 f.param_data
  return { f with
    pre_instructions_for_param_loading :=
      f.pre_instructions_for_param_loading ++ buffer ++ stack ++ pointer ++ params }

end WasmFunction

end Wasm
