import TinyWasm.Wasm

/-!
# Code generation

The code of one function: the `setjmp`/`longjmp` stubs, what each opcode emits,
the loop over the opcodes, and `processCodeVec`, which puts the parts together.
-/

namespace Emit

open HexText Opcode Wasm

/-- Instructions printed one after the other. -/
def concat : List (Except CppError Text) → Except CppError Text
  | [] => .ok []
  | call :: rest => do
    let instr ← call
    let others ← concat rest
    return instr ++ others

def getSetJmpInstr : Except CppError Text :=
  concat [encodeLdpStp .xReg .str 19 20 0 0,
    encodeLdpStp .xReg .str 21 22 0 (2 <<< 3),
    encodeLdpStp .xReg .str 23 24 0 (4 <<< 3),
    encodeLdpStp .xReg .str 25 26 0 (6 <<< 3),
    encodeLdpStp .xReg .str 27 28 0 (8 <<< 3),
    encodeLdpStp .xReg .str 29 30 0 (10 <<< 3),
    encodeMovSP .xReg 2 31,
    encodeLoadStoreImm .xReg .str 2 0 (13 <<< 3),
    encodeMovz 0 0 .wReg 0,
    encodeReturn]

def getLongJmpInstr : Except CppError Text :=
  concat [encodeLdpStp .xReg .ldr 19 20 0 (0 <<< 3),
    encodeLdpStp .xReg .ldr 21 22 0 (2 <<< 3),
    encodeLdpStp .xReg .ldr 23 24 0 (4 <<< 3),
    encodeLdpStp .xReg .ldr 25 26 0 (6 <<< 3),
    encodeLdpStp .xReg .ldr 27 28 0 (8 <<< 3),
    encodeLdpStp .xReg .ldr 29 30 0 (10 <<< 3),
    encodeLoadStoreImm .xReg .ldr 5 0 (13 <<< 3),
    encodeMovSP .xReg 31 5,
    encodeCompareImm .xReg 1 0,
    encodeMovz 0 1 .xReg 0,
    (do encodeCSEL .xReg 0 1 0 (← condAt "ne")),
    encodeBranchRegister 30]

/-! ### What one opcode emits -/

def emitGet (f : WasmFunction) (var_to_get : Nat) (vecType : TypeCategory) :
    Except CppError WasmFunction := do
  let regtype := f.regTypeGetter vecType var_to_get
  let stack_offset := f.vecToStack vecType var_to_get
  let load_param_instr ← encodeLoadStoreImm regtype .ldr 11 31 (BitVec.ofInt 16 stack_offset)
  let store_to_stack_instr ← WasmFunction.push regtype
  return f.constructFullinstr (load_param_instr ++ store_to_stack_instr)

def emitSet (f : WasmFunction) (var_to_set : Nat) (vecType : TypeCategory)
    (isTee : Bool := false) : Except CppError WasmFunction := do
  let regtype := f.regTypeGetter vecType var_to_set
  let stack_offset := f.vecToStack vecType var_to_set
  let load_to_reg_instr ← WasmFunction.pop regtype isTee
  let reg_to_mem_instr ← encodeLoadStoreImm regtype .str 11 31 (BitVec.ofInt 16 stack_offset)
  return f.constructFullinstr (load_to_reg_instr ++ reg_to_mem_instr)

inductive LocalOp where
  | get
  | set
  | tee
  deriving DecidableEq, Repr

def commonLocalOp (f : WasmFunction) (i : Nat) (opType : LocalOp) :
    Except CppError WasmFunction := do
  let var_index ← stoul (← f.codeAt (i + 1))
  if var_index < f.param_data.length + f.local_data.length then
    let (typecategory, index) :=
      if var_index < f.param_data.length then (TypeCategory.PARAM, var_index)
      else (TypeCategory.LOCAL, var_index - f.param_data.length)
    match opType with
    | .get => emitGet f index typecategory
    | .set => emitSet f index typecategory
    | .tee => emitSet f index typecategory true
  else
    .error (.thrown ("Too big index \x7b" ++ toString var_index ++
      "\x7d for local data; skipping current op;"))

def emitConst (f : WasmFunction) (elem : wasm_type) : Except CppError WasmFunction :=
  match elem with
  | .f32 _ => .error (.invalidArgument
      "Don't support float const yet; need to properly implement fmov or store float first")
  | .f64 _ => .error (.invalidArgument
      "Don't support double const yet; need to properly implement fmov or store double first")
  | .i32 value => do
    let load_to_reg_instr ← wrapperEncodeMovInt32 11 value
    let store_to_stack_instr ← WasmFunction.push .wReg
    return f.constructFullinstr (load_to_reg_instr ++ store_to_stack_instr)
  | .i64 value => do
    let load_to_reg_instr ← wrapperEncodeMovInt64 11 value
    let store_to_stack_instr ← WasmFunction.push .xReg
    return f.constructFullinstr (load_to_reg_instr ++ store_to_stack_instr)

def emitCompareOp (f : WasmFunction) (regtype : RegType) (condStr : String) :
    Except CppError WasmFunction := do
  if regtype ≠ .xReg ∧ regtype ≠ .wReg then
    throw (.thrown "Unsupported reg type (float or double)")
  let f ← f.emit (encodeMovz 3 1 .xReg)
  let f ← f.emit (encodeMovz 4 0 .xReg)
  let load_second_param_instr ← WasmFunction.pop regtype false 12
  let load_first_param_instr ← WasmFunction.pop regtype false 11
  let f := f.constructFullinstr (load_second_param_instr ++ load_first_param_instr)
  let f ← f.emit (encodeCompareShift regtype 11 12)
  let f ← f.emit (do encodeCSEL .xReg 0 3 4 (← condAt condStr))
  f.emit (WasmFunction.push .xReg 0)

/-- Branches to the division unless the divisor is minus one and the dividend the
smallest value. Every division uses the same label. -/
def emitOverflowChecks (f : WasmFunction) (regtype : RegType) :
    Except CppError WasmFunction :=
  if regtype = .xReg then do
    let f ← f.emit (wrapperEncodeMovInt64 5 (-1))
    let f ← f.emit (encodeCompareShift .xReg 11 5)
    let f := f.fakeInsertBranch "normal_div" "bne"
    let f ← f.emit (wrapperEncodeMovInt64 5 (BitVec.intMin 64))
    let f ← f.emit (encodeCompareShift .xReg 12 5)
    return f.fakeInsertBranch "normal_div" "bne"
  else do
    let f ← f.emit (wrapperEncodeMovInt32 5 (-1))
    let f ← f.emit (encodeCompareShift .wReg 11 5)
    let f := f.fakeInsertBranch "normal_div" "bne"
    let f ← f.emit (wrapperEncodeMovInt32 5 (BitVec.intMin 32))
    let f ← f.emit (encodeCompareShift .wReg 12 5)
    return f.fakeInsertBranch "normal_div" "bne"

/-- The checks before a division: a zero divisor, and the one overflow. -/
def emitDivGuards (f : WasmFunction) (regtype : RegType) : Except CppError WasmFunction := do
  let f ← f.emit (encodeCompareImm regtype 11 0)
  let f := f.fakeInsertBranch "preparelongjmp" "beq"
  let f ← emitOverflowChecks f regtype
  return (f.fakeInsertBranch "preparelongjmp" "b").insertLabel "normal_div"

/-- An unknown `typeInfo` leaves `regtype` uninitialised. -/
def arithRegType (typeInfo : Char) : Except CppError RegType :=
  if typeInfo = 'i' then .ok .wReg
  else if typeInfo = 'l' then .ok .xReg
  else .error (.undefinedBehaviour "regtype read uninitialised")

/-- The operation itself: `r11 = r12 op r11`. -/
def emitArithInstr (f : WasmFunction) (regtype : RegType) (opType : Char) (isSigned : Bool) :
    Except CppError WasmFunction :=
  if opType = '+' then f.emit (encodeAddSubShift false regtype 11 12 11)
  else if opType = '-' then f.emit (encodeAddSubShift true regtype 11 12 11)
  else if opType = '*' then f.emit (encodeMul regtype 11 12 11)
  else do
    let f ← emitDivGuards f regtype
    f.emit (encodeDiv regtype isSigned 11 12 11)

def emitArithOp (f : WasmFunction) (typeInfo opType : Char) (isSigned : Bool := true) :
    Except CppError WasmFunction :=
  if opType ∉ ['+', '-', '*', '/'] then .error (.thrown "Unknown arithmetic operator")
  else do
    let regtype ← arithRegType typeInfo
    let load_second_param_instr ← WasmFunction.pop regtype false 11
    let load_first_param_instr ← WasmFunction.pop regtype false 12
    let f := f.constructFullinstr (load_second_param_instr ++ load_first_param_instr)
    let f ← emitArithInstr f regtype opType isSigned
    f.emit (WasmFunction.push regtype)

/-- The block type after `if`. -/
def blockSignature (code : Text) : Except CppError (List wasm_type) :=
  if code = "7f".toList then .ok [.i32 0]
  else if code = "7e".toList then .ok [.i64 0]
  else if code = "7d".toList then .error (.thrown "return f32 after if not implemented yet")
  else if code = "7c".toList then .error (.thrown "return f64 after if not implemented yet")
  else if code = "70".toList then
    .error (.thrown "return funcref after if not implemented yet")
  else if code = "60".toList then .error (.thrown "return func after if not implemented yet")
  else if code = "40".toList then .ok []
  else .error (.thrown ("invalid byte after if: " ++ String.ofList code ++
    ". Check wasm binary integrity"))

def ifLabel (n : Nat) : String := "Else/End_" ++ toString n
def elseLabel (n : Nat) : String := "End_" ++ toString n

/-- The condition is read with `tee`. -/
def emitIfOp (f : WasmFunction) (i : Nat) : Except CppError WasmFunction := do
  let signature ← blockSignature (← f.codeAt i)
  let label := ifLabel f.if_label
  let f := { f with
    if_label := f.if_label + 1
    control_flow_stack := { label, signature } :: f.control_flow_stack }
  let f ← f.emit (WasmFunction.pop .wReg true)
  let f ← f.emit (encodeCompareImm .wReg 11 0)
  return f.fakeInsertBranch label "beq"

/-- `back` of an empty vector is undefined. -/
def emitElseOp (f : WasmFunction) : Except CppError WasmFunction :=
  match f.control_flow_stack with
  | [] => .error (.undefinedBehaviour "control_flow_stack.back() of an empty vector")
  | { label, signature } :: rest =>
    let else_label := elseLabel f.if_label
    let f := { f with
      if_label := f.if_label + 1
      control_flow_stack := { label := else_label, signature } :: rest }
    .ok ((f.fakeInsertBranch else_label "b").insertLabel label)

def emitEndOp (f : WasmFunction) : Except CppError WasmFunction :=
  match f.control_flow_stack with
  | [] => .error (.undefinedBehaviour "control_flow_stack.back() of an empty vector")
  | { label, signature := _ } :: rest =>
    .ok ({ f with control_flow_stack := rest }.insertLabel label)

def emitRet (f : WasmFunction) : Except CppError WasmFunction := f.emit encodeReturn

/-! ### The loop over the opcodes -/

inductive OpcodeKind where
  | nop
  | «if»
  | «else»
  | ret
  | «end»
  | localOp (opType : LocalOp)
  | i32const
  | i64const
  | f32const
  | f64const
  | compare (regtype : RegType) (condStr : String)
  | arith (typeInfo opType : Char) (isSigned : Bool)
  | unknown
  deriving DecidableEq, Repr

def opcodes : List (Text × OpcodeKind) :=
  [(['0', '1'], .nop), (['0', '4'], .if), (['0', '5'], .else), (['0', 'f'], .ret),
    (['0', 'b'], .end), (['2', '0'], .localOp .get), (['2', '1'], .localOp .set),
    (['2', '2'], .localOp .tee), (['4', '1'], .i32const), (['4', '2'], .i64const),
    (['4', '3'], .f32const), (['4', '4'], .f64const),
    (['4', '6'], .compare .wReg "eq"), (['5', '1'], .compare .xReg "eq"),
    (['4', '7'], .compare .wReg "ne"), (['5', '2'], .compare .xReg "ne"),
    (['4', '8'], .compare .wReg "lt"), (['4', '9'], .compare .wReg "cc"),
    (['4', 'a'], .compare .wReg "gt"), (['4', 'b'], .compare .wReg "hi"),
    (['4', 'c'], .compare .wReg "le"), (['4', 'd'], .compare .wReg "ls"),
    (['4', 'e'], .compare .wReg "ge"), (['4', 'f'], .compare .wReg "cs"),
    (['5', '3'], .compare .xReg "lt"), (['5', '4'], .compare .xReg "cc"),
    (['5', '5'], .compare .xReg "gt"), (['5', '6'], .compare .xReg "hi"),
    (['5', '7'], .compare .xReg "le"), (['5', '8'], .compare .xReg "ls"),
    (['5', '9'], .compare .xReg "ge"), (['5', 'a'], .compare .xReg "cs"),
    (['6', 'a'], .arith 'i' '+' true), (['6', 'b'], .arith 'i' '-' true),
    (['6', 'c'], .arith 'i' '*' true), (['6', 'd'], .arith 'i' '/' true),
    (['6', 'e'], .arith 'i' '/' false), (['7', 'c'], .arith 'l' '+' true),
    (['7', 'd'], .arith 'l' '-' true), (['7', 'e'], .arith 'l' '*' true),
    (['7', 'f'], .arith 'l' '/' true), (['8', '0'], .arith 'l' '/' false)]

def opcodeOf (code : Text) : OpcodeKind := (opcodes.lookup code).getD .unknown

/-- The branch of an opcode: the function and the next index. The bits of a float
constant are not read here, as `emitConst` refuses every one of them. -/
def jitOpcode (f : WasmFunction) (i : Nat) :
    OpcodeKind → Except CppError (WasmFunction × Nat)
  | .nop => do return (← f.emit encodeNop, i + 1)
  | .if => do return (← emitIfOp f (i + 1), i + 2)
  | .else => do return (← emitElseOp f, i + 1)
  | .ret => do return (f, i + 1)
  | .end => do return (← emitEndOp f, i + 1)
  | .localOp opType => do return (← commonLocalOp f i opType, i + 2)
  | .i32const => do
    let value ← stoul (← f.codeAt (i + 1))
    return (← emitConst f (.i32 (BitVec.ofNat 32 value)), i + 2)
  | .i64const => do
    let value ← stoul (← f.codeAt (i + 1))
    return (← emitConst f (.i64 (BitVec.ofNat 64 value)), i + 2)
  | .f32const => do
    let _ ← f.codeAt (i + 4)
    return (← emitConst f (.f32 0), i + 5)
  | .f64const => do
    let _ ← f.codeAt (i + 7)
    return (← emitConst f (.f64 0), i + 9)
  | .compare regtype condStr => do return (← emitCompareOp f regtype condStr, i + 1)
  | .arith typeInfo opType isSigned => do return (← emitArithOp f typeInfo opType isSigned, i + 1)
  | .unknown => do return (f, i)

/-- One turn of the loop. -/
def jitOne (f : WasmFunction) (i : Nat) : Except CppError (WasmFunction × Nat) := do
  jitOpcode f i (opcodeOf (← f.codeAt i))

/-- Every turn that does not stay where it is moves on by one at least, so a loop that
has not ended after `code_vec.size()` turns stays at an unknown opcode for ever. -/
def jitLoop : Nat → WasmFunction → Nat → Except CppError WasmFunction
  | fuel, f, i =>
    if i < f.code_vec.length then
      match fuel with
      | 0 => .error (.divergence "no branch of jiting_wasm_code moves past the opcode")
      | fuel + 1 => do
        let (f, i) ← jitOne f i
        jitLoop fuel f i
    else .ok f

def jiting_wasm_code (f : WasmFunction) (i : Nat) : Except CppError WasmFunction :=
  let f := { f with
    control_flow_stack :=
      { label := "end", signature := f.result_data } :: f.control_flow_stack }
  jitLoop f.code_vec.length f i

/-! ### The whole function -/

def wrapper_setjmp (f : WasmFunction) : Except CppError WasmFunction := do
  let f ← f.emit (encodeLdpStp .xReg .str 29 30 31 (-0x20) .preIndex)
  let f ← f.emit (encodeMovRegister .xReg 0 REG_BUFFER)
  let f := f.fakeInsertBranch "setjmp" "bl"
  let f ← f.emit (encodeCompareImm .xReg 0 0)
  let f := f.fakeInsertBranch "raiseException" "bne"
  f.emit (encodeLdpStp .xReg .ldr 29 30 31 0x20 .postIndex)

def main_entry_finalize (f : WasmFunction) : Except CppError WasmFunction := do
  emitRet (← f.restoreSP)

/-- The stubs in front of the entry: `setjmp`, `preparelongjmp`, `longjmp` and
`raiseException`. -/
def emitStubs (f : WasmFunction) : Except CppError WasmFunction := do
  let f := (f.fakeInsertBranch "entry" "b").insertLabel "setjmp"
  let f ← f.emit getSetJmpInstr
  let f := f.insertLabel "preparelongjmp"
  let f ← f.emit (encodeMovRegister .xReg 14 30)
  let f ← f.emit (encodeMovSP .xReg 15 31)
  let f ← f.emit (encodeMovRegister .xReg 0 REG_BUFFER)
  let f := (f.fakeInsertBranch "longjmp" "b").insertLabel "longjmp"
  let f ← f.emit getLongJmpInstr
  let f := f.insertLabel "raiseException"
  let f ← f.emit (encodeMovRegister .xReg 30 14)
  let f ← f.emit (encodeMovSP .xReg 31 15)
  let f ← f.emit (encodeMovz 11 0x1 .xReg 0)
  let f ← f.emit (encodeLoadStoreImm .xReg .str 11 REG_BUFFER 0)
  return f.fakeInsertBranch "finalize" "b"

/-- `processCodeVec` up to the fix-up of the branches. -/
def generate (f : WasmFunction) : Except CppError WasmFunction := do
  let (f, offset) ← f.local_var_initialize 0
  let f ← emitStubs f
  let f := f.insertLabel "entry"
  let f ← f.main_entry_initialize
  let f ← wrapper_setjmp f
  let f ← jiting_wasm_code f offset
  let f ← f.emit (encodeMovz 11 0x0 .xReg 0)
  let f ← f.emit (encodeLoadStoreImm .xReg .str 11 REG_BUFFER 0)
  main_entry_finalize (f.insertLabel "finalize")

def processCodeVec (f : WasmFunction) (order : WasmFunction.VisitOrder) :
    Except CppError WasmFunction := do
  let f ← generate f
  f.fixUpfakeBranch order

/-- `funcSingleProcess`: the arguments are loaded in front of the generated code. -/
def funcSingleProcess (f : WasmFunction) (order : WasmFunction.VisitOrder) :
    Except CppError WasmFunction := do
  let f ← f.prepareParams
  processCodeVec f order

/-- The instructions `executeWasmInstr` makes executable. -/
def full_instructions (f : WasmFunction) : Text :=
  f.pre_instructions_for_param_loading ++ f.wasm_instructions

end Emit
