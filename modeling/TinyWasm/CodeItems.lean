import TinyWasm.SourceBody
import TinyWasm.LabelledCode
import TinyWasm.EncoderCorrectness

/-!
# The code of a function, as labelled items

The instruction blocks the emission functions write, at the level of decoded
instructions, with the branches still symbolic. `wholeItems` is the code of a
whole function; the modules after this one show that the emitted text carries
exactly these items, and reason about their execution.
-/

namespace CodeItems

open BitFields HexText Opcode Wasm Emit ArmInstruction EncoderCorrectness LabelledCode
open SourceBody

inductive BranchKind where
  | b
  | bl
  | beq
  | bne
  deriving DecidableEq, Repr

/-- The kind as `fakeInsertBranch` is given it. -/
def BranchKind.text : BranchKind → String
  | .b => "b"
  | .bl => "bl"
  | .beq => "beq"
  | .bne => "bne"

/-- The branch of this kind over `disp` instructions. -/
def link : BranchKind → Int → Instr
  | .b, disp => .b false disp
  | .bl, disp => .b true disp
  | .beq, disp => .bCond 0b0000 disp
  | .bne, disp => .bCond 0b0001 disp

abbrev CodeItem := Item Instr BranchKind

def ins (block : List Instr) : List CodeItem := block.map Item.ins

/-! ### Operand stack and registers -/

def pushBlock (width : Width) (reg : Reg) : List Instr :=
  [.ldrStrReg false width reg 20 21 .lsl false, .addSubImm false false .x 21 21 8 false]

def popBlock (width : Width) (reg : Reg) : List Instr :=
  [.addSubImm true false .x 21 21 8 false, .ldrStrReg true width reg 20 21 .lsl false]

def teeBlock (width : Width) (reg : Reg) : List Instr :=
  popBlock width reg ++ [.addSubImm false false .x 21 21 8 false]

/-- The constant moved to a register sixteen bits at a time. -/
def mov32 (rd : Reg) (value : BitVec 32) : List Instr :=
  [.movWide .movz .w rd (field 0 16 value) 0, .movWide .movk .w rd (field 16 16 value) 1]

def mov64 (rd : Reg) (value : BitVec 64) : List Instr :=
  [.movWide .movz .x rd (field 0 16 value) 0, .movWide .movk .x rd (field 16 16 value) 1,
    .movWide .movk .x rd (field 32 16 value) 2, .movWide .movk .x rd (field 48 16 value) 3]

def movConst (width : Width) (rd : Reg) (value : BitVec 64) : List Instr :=
  match width with
  | .w => mov32 rd (value.setWidth 32)
  | .x => mov64 rd value

def mov (rd rm : Reg) : Instr := .orrShift .x rd 31 rm .lsl 0

def movSp (rd rn : Reg) : Instr := .addSubImm false false .x rd rn 0 false

def cmpZero (width : Width) (rn : Reg) : Instr := .addSubImm true true width 31 rn 0 false

def cmp (width : Width) (rn rm : Reg) : Instr := .addSubShift true true width 31 rn rm .lsl 0

/-! ### Variables -/

/-- Where an access to a variable really goes: its width, and its offset from `sp`. -/
structure Slot where
  width : Width
  offset : Nat
  deriving DecidableEq, Repr

abbrev Frame := List Slot

/-- The register type `initParam` and `initLocal` record for a variable. -/
def varRegType : wasm_type → RegType
  | .i32 _ => .wReg
  | .i64 _ => .xReg
  | .f32 _ => .sReg
  | .f64 _ => .dReg

/-- The register type a local is zeroed with. -/
def zeroRegType : wasm_type → RegType
  | .i32 _ | .f32 _ => .wReg
  | .i64 _ | .f64 _ => .xReg

/-- Bytes a variable is given in the frame. -/
def slotSize : wasm_type → Int
  | .f64 _ => 8
  | .i32 _ | .i64 _ | .f32 _ => 4

def isFloat : wasm_type → Bool
  | .f32 _ | .f64 _ => true
  | .i32 _ | .i64 _ => false

/-- The scaled offset as the encoder computes it from the narrowed `int`. -/
def scaledOffset (regType : RegType) (offset : Int) : Nat :=
  ((BitVec.ofInt 16 offset).sshiftRight (scale regType)).toNat

/-- The slot an access with this register type and frame offset denotes. -/
def slotOf (regType : RegType) (offset : Int) : Slot :=
  { width := widthOf regType
    offset := scaledOffset regType offset * (widthOf regType).bytes }

def storeVar (reg : Reg) (slot : Slot) : Instr :=
  .ldrStrImm false slot.width .unsignedOffset reg 31 slot.offset

def loadVar (reg : Reg) (slot : Slot) : Instr :=
  .ldrStrImm true slot.width .unsignedOffset reg 31 slot.offset

/-- The slots of a list of variables, handed out downwards from `offset`. -/
def slots : Int → List wasm_type → Frame
  | _, [] => []
  | offset, v :: vs => slotOf (varRegType v) offset :: slots (offset - slotSize v) vs

/-- One store of the frame's initialisation: the variable, the register type of the
store, and the register. -/
structure Store where
  value : wasm_type
  regType : RegType
  reg : Nat
  deriving DecidableEq, Repr

/-- The params are stored from their registers, floats and integers counted apart. -/
def paramStores : Nat → Nat → List wasm_type → List Store
  | _, _, [] => []
  | fp, gp, v :: vs =>
    ⟨v, varRegType v, if isFloat v then fp else gp⟩ ::
      paramStores (if isFloat v then fp + 1 else fp) (if isFloat v then gp else gp + 1) vs

/-- The locals are zeroed. -/
def localStores (vs : List wasm_type) : List Store := vs.map fun v => ⟨v, zeroRegType v, 31⟩

def storesBlock : Int → List Store → List Instr
  | _, [] => []
  | offset, st :: rest =>
    storeVar (BitVec.ofNat 5 st.reg) (slotOf st.regType offset) ::
      storesBlock (offset - slotSize st.value) rest

def totalSize (vs : List wasm_type) : Int := (vs.map slotSize).sum

def paramEnd (params : List wasm_type) : Int := totalSize params

def localEnd (params locals : List wasm_type) : Int := totalSize params + 8 + totalSize locals

/-- The frame size: `localEnd` rounded up to a multiple of sixteen. -/
def frameSize (params locals : List wasm_type) : Int :=
  if (localEnd params locals).tmod 16 ≠ 0 then 16 * ((localEnd params locals).tdiv 16 + 1)
  else localEnd params locals

def frameOf (params locals : List wasm_type) : Frame :=
  slots (paramEnd params) params ++ slots (localEnd params locals) locals

/-! ### Instructions of the body -/

def condOf : Comparison → BitVec 4
  | .eq => 0b0000
  | .ne => 0b0001
  | .lt_s => 0b1011
  | .lt_u => 0b0011
  | .gt_s => 0b1100
  | .gt_u => 0b1000
  | .le_s => 0b1101
  | .le_u => 0b1001
  | .ge_s => 0b1010
  | .ge_u => 0b0010

def arithInstr (width : Width) : Arith → Instr
  | .add => .addSubShift false false width 11 12 11 .lsl 0
  | .sub => .addSubShift true false width 11 12 11 .lsl 0
  | .mul => .madd width 11 12 11 31

def localBlock (slot : Slot) : LocalOp → List Instr
  | .get => loadVar 11 slot :: pushBlock slot.width 11
  | .set => popBlock slot.width 11 ++ [storeVar 11 slot]
  | .tee => teeBlock slot.width 11 ++ [storeVar 11 slot]

def opBlock (frame : Frame) : Op → List Instr
  | .nop => [.nop]
  | .ret => []
  | .localVar opType index =>
    match frame[index.toNat]? with
    | some slot => localBlock slot opType
    | none => []
  | .i32const value => mov32 11 (value.setWidth 32) ++ pushBlock .w 11
  | .i64const value => mov64 11 (value.setWidth 64) ++ pushBlock .x 11
  | .compare width c =>
    [.movWide .movz .x 3 1 0, .movWide .movz .x 4 0 0] ++ popBlock width 12 ++
      popBlock width 11 ++ [cmp width 11 12, .csel .x 0 3 4 (condOf c)] ++ pushBlock .x 0
  | .arith width a => popBlock width 11 ++ popBlock width 12 ++ [arithInstr width a] ++
      pushBlock width 11

/-- The smallest value of a width. -/
def minValue : Width → BitVec 64
  | .w => 0x80000000
  | .x => 0x8000000000000000

def guardItems (width : Width) : List CodeItem :=
  ins [cmpZero width 11] ++ [.jump "preparelongjmp" .beq] ++
    ins (movConst width 5 (-1) ++ [cmp width 11 5]) ++ [.jump "normal_div" .bne] ++
    ins (movConst width 5 (minValue width) ++ [cmp width 12 5]) ++
    [.jump "normal_div" .bne, .jump "preparelongjmp" .b, .label "normal_div"]

def divItems (width : Width) (signed : Bool) : List CodeItem :=
  ins (popBlock width 11 ++ popBlock width 12) ++ guardItems width ++
    ins (.div signed width 11 12 11 :: pushBlock width 11)

/-- The test of an `if`: the condition is read and stays where it is. -/
def ifItems (label : String) : List CodeItem :=
  ins (teeBlock .w 11 ++ [cmpZero .w 11]) ++ [.jump label .beq]

/-- The items of a sequence, with labels numbered from `c` on. -/
def bodyItems (frame : Frame) : Nat → Seq → List CodeItem
  | _, .nil => []
  | c, .op o rest => ins (opBlock frame o) ++ bodyItems frame c rest
  | c, .div width signed rest => divItems width signed ++ bodyItems frame c rest
  | c, .ifThen _ thn rest =>
    ifItems (ifLabel c) ++ bodyItems frame (c + 1) thn ++ [.label (ifLabel c)] ++
      bodyItems frame (c + 1 + thn.labelsUsed) rest
  | c, .ifElse _ thn els rest =>
    ifItems (ifLabel c) ++ bodyItems frame (c + 1) thn ++
      [.jump (elseLabel (c + 1 + thn.labelsUsed)) .b, .label (ifLabel c)] ++
      bodyItems frame (c + 2 + thn.labelsUsed) els ++
      [.label (elseLabel (c + 1 + thn.labelsUsed))] ++
      bodyItems frame (c + 2 + thn.labelsUsed + els.labelsUsed) rest

/-! ### Around the body -/

def saveRegs (load : Bool) : List Instr :=
  [.ldpStp load .x .signedOffset 19 20 0 0, .ldpStp load .x .signedOffset 21 22 0 16,
    .ldpStp load .x .signedOffset 23 24 0 32, .ldpStp load .x .signedOffset 25 26 0 48,
    .ldpStp load .x .signedOffset 27 28 0 64, .ldpStp load .x .signedOffset 29 30 0 80]

def setjmpBlock : List Instr :=
  saveRegs false ++ [movSp 2 31, .ldrStrImm false .x .unsignedOffset 2 0 104,
    .movWide .movz .w 0 0 0, .ret 30]

def longjmpBlock : List Instr :=
  saveRegs true ++ [.ldrStrImm true .x .unsignedOffset 5 0 104, movSp 31 5, cmpZero .x 1,
    .movWide .movz .x 0 1 0, .csel .x 0 1 0 0b0001, .br false 30]

/-- The return code stored to the start of the buffer. -/
def returnCode (code : BitVec 16) : List Instr :=
  [.movWide .movz .x 11 code 0, .ldrStrImm false .x .unsignedOffset 11 19 0]

def stubItems : List CodeItem :=
  [.jump "entry" .b, .label "setjmp"] ++ ins setjmpBlock ++ [.label "preparelongjmp"] ++
    ins [mov 14 30, movSp 15 31, mov 0 19] ++ [.jump "longjmp" .b, .label "longjmp"] ++
    ins longjmpBlock ++ [.label "raiseException"] ++
    ins ([mov 30 14, movSp 31 15] ++ returnCode 1) ++ [.jump "finalize" .b]

def frameItems (params locals : List wasm_type) : List CodeItem :=
  ins (.addSubImm true false .x 31 31 (BitVec.ofInt 12 (frameSize params locals)) false ::
    (storesBlock (paramEnd params) (paramStores 0 0 params) ++
      storesBlock (localEnd params locals) (localStores locals)))

def wrapperItems : List CodeItem :=
  ins [.ldpStp false .x .preIndex 29 30 31 (-32), mov 0 19] ++ [.jump "setjmp" .bl] ++
    ins [cmpZero .x 0] ++ [.jump "raiseException" .bne] ++
    ins [.ldpStp true .x .postIndex 29 30 31 32]

/-- The results popped to the registers from `x0` on. -/
def resultsBlock : Nat → List wasm_type → List Instr
  | _, [] => []
  | i, v :: vs => popBlock (widthOf (varRegType v)) (BitVec.ofNat 5 i) ++ resultsBlock (i + 1) vs

def epilogueBlock (params locals results : List wasm_type) : List Instr :=
  resultsBlock 0 results ++
    [.addSubImm false false .x 31 31 (BitVec.ofInt 12 (frameSize params locals)) false, .ret 30]

/-- The code of a function before its branches are fixed. -/
def wholeItems (params locals results : List wasm_type) (body : Seq) : List CodeItem :=
  stubItems ++ [.label "entry"] ++ frameItems params locals ++ wrapperItems ++
    bodyItems (frameOf params locals) 0 body ++ [.label "end"] ++ ins (returnCode 0) ++
    [.label "finalize"] ++ ins (epilogueBlock params locals results)

end CodeItems
