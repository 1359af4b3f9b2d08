import TinyWasm.HexText

/-!
# Instruction encoders

The headers under `Opcode/`: an instruction word is built by or-ing field
values into `inst`, byte-swapped and printed as eight hex digits. Printing the
disassembly is left out. The machine types of the parameters are kept, and
`setField` sees their promoted values, as the `auto` parameters do.
-/

namespace Opcode

open BitFields HexText

inductive EncodingMode where
  | postIndex
  | preIndex
  | signedOffset
  | unSignedOffset
  deriving DecidableEq, Repr

inductive LdStType where
  | str
  | ldr
  deriving DecidableEq, Repr

inductive RegType where
  | wReg
  | xReg
  | sReg
  | dReg
  deriving DecidableEq, Repr, Inhabited

/-- `reverse_cond_str_map`; `at` throws on a key that is not there. -/
def reverse_cond_str_map : List (String × BitVec 8) :=
  [("eq", 0b0000), ("ne", 0b0001), ("cs", 0b0010), ("cc", 0b0011), ("mi", 0b0100),
    ("pl", 0b0101), ("vs", 0b0110), ("vc", 0b0111), ("hi", 0b1000), ("ls", 0b1001),
    ("ge", 0b1010), ("lt", 0b1011), ("gt", 0b1100), ("le", 0b1101), ("al", 0b1110),
    ("nv", 0b1111)]

def condAt (condStr : String) : Except CppError (BitVec 8) :=
  match reverse_cond_str_map.lookup condStr with
  | some cond => .ok cond
  | none => .error (.outOfRange "unordered_map::at")

def isX (regType : RegType) : Int := if regType = .xReg then 1 else 0

def isLdr (ldstType : LdStType) : Int := if ldstType = .ldr then 1 else 0

structure Arm64Opcode where
  inst : BitVec 32 := 0
  smallEndian : Bool := true

namespace Arm64Opcode

/-- Only values above the mask are refused; negative ones are masked silently. -/
def setField (opcode : Arm64Opcode) (val : Int) (offset : Nat) (set_length : Nat := 32) :
    Except CppError Arm64Opcode :=
  let limit : Int := 2 ^ set_length - 1
  if val > limit then .error (.outOfRange "Encode value out of range.")
  else .ok { opcode with
    inst := opcode.inst ||| place 32 (BitVec.ofInt 64 val) offset set_length }

def setRm (opcode : Arm64Opcode) (rm : BitVec 8) := opcode.setField rm.toNat 16 5
def setRn (opcode : Arm64Opcode) (rn : BitVec 8) := opcode.setField rn.toNat 5 5
def setRd (opcode : Arm64Opcode) (rd : BitVec 8) := opcode.setField rd.toNat 0 5
def setRt (opcode : Arm64Opcode) (rt : BitVec 8) := opcode.setField rt.toNat 0 5
def setRt2 (opcode : Arm64Opcode) (rt2 : BitVec 8) := opcode.setField rt2.toNat 10 5
def setImm6 (opcode : Arm64Opcode) (imm6 : Int) := opcode.setField imm6 10 6
def setImm7 (opcode : Arm64Opcode) (imm7 : Int) := opcode.setField imm7 15 7
def setImm9 (opcode : Arm64Opcode) (imm9 : Int) := opcode.setField imm9 12 9
def setImm12 (opcode : Arm64Opcode) (imm12 : Int) := opcode.setField imm12 10 12
def setImm16 (opcode : Arm64Opcode) (imm16 : Int) := opcode.setField imm16 5 16
def setImm19 (opcode : Arm64Opcode) (imm19 : Int) := opcode.setField imm19 5 19
def setOption (opcode : Arm64Opcode) (option : Int) := opcode.setField option 13
def setSf (opcode : Arm64Opcode) (regType : RegType) := opcode.setField (isX regType) 31 1
def setCond (opcode : Arm64Opcode) (cond : BitVec 8) := opcode.setField cond.toNat 12 4
def setShift (opcode : Arm64Opcode) (shift : BitVec 8) := opcode.setField shift.toNat 22 2
def setSh (opcode : Arm64Opcode) (sh : BitVec 8) := opcode.setField sh.toNat 22 1
def setHw (opcode : Arm64Opcode) (hw : Int) := opcode.setField hw 21 2

/-- `commonEncode`: swap the bytes if asked to, print, and cut the leading `0x`. -/
def getInstruction (opcode : Arm64Opcode) : Text :=
  (toHexString (if opcode.smallEndian then bswap32 opcode.inst else opcode.inst)).drop 2

end Arm64Opcode

def encodeNop (smallEndian : Bool := true) : Except CppError Text := do
  let opcode : Arm64Opcode := { smallEndian }
  let opcode ← opcode.setField 0b11010101000000110010000000011111 0
  return opcode.getInstruction

/-! ### Arithmetic -/

def encodeAddSubShift (isSub : Bool) (regType : RegType) (rd rn rm : BitVec 8)
    (imm : BitVec 8 := 0) (shift : BitVec 8 := 0) (isCmp : Bool := false)
    (smallEndian : Bool := true) : Except CppError Text := do
  let opcode : Arm64Opcode := { smallEndian }
  let opcode ← opcode.setSf regType
  let opcode ← opcode.setField 0b1011 24
  let opcode ← opcode.setField isSub.toInt 30
  let opcode ← opcode.setField isCmp.toInt 29
  let opcode ← opcode.setShift shift
  let opcode ← opcode.setRm rm
  let opcode ← opcode.setRn rn
  let opcode ← opcode.setRd rd
  let opcode ← opcode.setImm6 imm.toNat
  return opcode.getInstruction

def encodeMul (regType : RegType) (rd rn rm : BitVec 8) (smallEndian : Bool := true) :
    Except CppError Text := do
  let opcode : Arm64Opcode := { smallEndian }
  let opcode ← opcode.setSf regType
  let opcode ← opcode.setField 0b00011011000000000111110000000000 0
  let opcode ← opcode.setRm rm
  let opcode ← opcode.setRn rn
  let opcode ← opcode.setRd rd
  return opcode.getInstruction

def encodeDiv (regType : RegType) (isSigned : Bool) (rd rn rm : BitVec 8)
    (smallEndian : Bool := true) : Except CppError Text := do
  let opcode : Arm64Opcode := { smallEndian }
  let opcode ← opcode.setSf regType
  let opcode ← opcode.setField 0b1101011 22
  let opcode ← opcode.setField 1 11
  let opcode ← opcode.setField isSigned.toInt 10
  let opcode ← opcode.setRm rm
  let opcode ← opcode.setRn rn
  let opcode ← opcode.setRd rd
  return opcode.getInstruction

/-- `isCmp` is accepted and never read. -/
def encodeAddSubImm (regType : RegType) (isSub : Bool) (rd rn : BitVec 8) (imm : BitVec 16)
    (shift : BitVec 8 := 0) (_isCmp : Bool := false) (setFlag : Bool := false)
    (smallEndian : Bool := true) : Except CppError Text := do
  let opcode : Arm64Opcode := { smallEndian }
  let opcode ← opcode.setSf regType
  let opcode ← opcode.setField isSub.toInt 30
  let opcode ← opcode.setField setFlag.toInt 29
  let opcode ← opcode.setField 0b10001 24
  let opcode ← opcode.setSh shift
  let opcode ← opcode.setImm12 imm.toNat
  let opcode ← opcode.setRn rn
  let opcode ← opcode.setRd rd
  return opcode.getInstruction

/-! ### Branch -/

def encodeReturn (rn : BitVec 8 := 30) (smallEndian : Bool := true) : Except CppError Text := do
  let opcode : Arm64Opcode := { smallEndian }
  let opcode ← opcode.setField 0b1101011001011111000000 10
  let opcode ← opcode.setRn rn
  return opcode.getInstruction

def encodeBranch (imm : BitVec 32) (withLink : Bool := false) (smallEndian : Bool := true) :
    Except CppError Text := do
  let opcode : Arm64Opcode := { smallEndian }
  let opcode ← opcode.setField 0b101 26
  let opcode ← opcode.setField withLink.toInt 31
  let opcode ← opcode.setField imm.toInt 0 26
  return opcode.getInstruction

def encodeBranchCondition (imm19 : BitVec 32) (cond : BitVec 8) (smallEndian : Bool := true) :
    Except CppError Text := do
  let opcode : Arm64Opcode := { smallEndian }
  let opcode ← opcode.setField 0b01010100 24
  let opcode ← opcode.setImm19 imm19.toInt
  let opcode ← opcode.setField cond.toNat 0 4
  return opcode.getInstruction

def encodeBranchRegister (rn : BitVec 8) (hasReturn : Bool := false)
    (smallEndian : Bool := true) : Except CppError Text := do
  let opcode : Arm64Opcode := { smallEndian }
  let opcode ← opcode.setField 0b1101011000011111000000 10
  let opcode ← opcode.setField hasReturn.toInt 21
  let opcode ← opcode.setField rn.toNat 5 5
  return opcode.getInstruction

def encodeAdr (rd : BitVec 8) (imm : BitVec 32) (smallEndian : Bool := true) :
    Except CppError Text := do
  let opcode : Arm64Opcode := { smallEndian }
  let opcode ← opcode.setField 1 28
  let opcode ← opcode.setField (imm &&& 0x3).toInt 29 2
  let opcode ← opcode.setField ((imm.sshiftRight 2) &&& 0x7FFFF).toInt 5 19
  let opcode ← opcode.setRd rd
  return opcode.getInstruction

/-! ### Compare -/

def encodeCompareNegativeShift (regType : RegType) (rn rm : BitVec 8) (imm6 : BitVec 8 := 0)
    (shift : BitVec 8 := 0) (smallEndian : Bool := true) : Except CppError Text :=
  encodeAddSubShift false regType 31 rn rm imm6 shift true smallEndian

def encodeCompareShift (regType : RegType) (rn rm : BitVec 8) (imm6 : BitVec 8 := 0)
    (shift : BitVec 8 := 0) (smallEndian : Bool := true) : Except CppError Text :=
  encodeAddSubShift true regType 31 rn rm imm6 shift true smallEndian

def encodeCompareImm (regType : RegType) (rn : BitVec 8) (imm12 : BitVec 16)
    (shift : Bool := false) (smallEndian : Bool := true) : Except CppError Text :=
  encodeAddSubImm regType true 31 rn imm12 (if shift then 1 else 0) true true smallEndian

def encodeCSEL (regType : RegType) (rd rn rm cond : BitVec 8) (smallEndian : Bool := true) :
    Except CppError Text := do
  let opcode : Arm64Opcode := { smallEndian }
  let opcode ← opcode.setSf regType
  let opcode ← opcode.setField 0b110101 23
  let opcode ← opcode.setRd rd
  let opcode ← opcode.setRm rm
  let opcode ← opcode.setRn rn
  let opcode ← opcode.setCond cond
  return opcode.getInstruction

/-! ### Load and store -/

def encodeLdpStp (regType : RegType) (ldstType : LdStType) (rt rt2 rn : BitVec 8)
    (imm : BitVec 32) (mode : EncodingMode := .signedOffset) (smallEndian : Bool := true) :
    Except CppError Text := do
  let opcode : Arm64Opcode := { smallEndian }
  let opcode ← opcode.setSf regType
  -- narrowed to int8_t before the range check of the field sees it
  let imm7 : BitVec 8 := (imm.sshiftRight (if regType = .xReg then 3 else 2)).setWidth 8
  let opcode ← opcode.setField (isLdr ldstType) 22
  let opcode ← match mode with
    | .preIndex => opcode.setField 0b1010011 23
    | .postIndex => opcode.setField 0b1010001 23
    | .signedOffset => opcode.setField 0b1010010 23
    | .unSignedOffset => .error (.thrown "Unsupported Encode mode for LDP/STP")
  let opcode ← opcode.setImm7 imm7.toInt
  let opcode ← opcode.setRt2 rt2
  let opcode ← opcode.setRn rn
  let opcode ← opcode.setRt rt
  return opcode.getInstruction

def encodeLoadStoreImm (regType : RegType) (ldstType : LdStType) (rt rn : BitVec 8)
    (imm : BitVec 16) (mode : EncodingMode := .unSignedOffset) (smallEndian : Bool := true) :
    Except CppError Text := do
  let opcode : Arm64Opcode := { smallEndian }
  let opcode ← opcode.setField 1 31
  let opcode ← opcode.setField (isX regType) 30
  let opcode ← opcode.setField 0b111 27
  let opcode ← opcode.setField (isLdr ldstType) 22
  let opcode ← opcode.setField (if mode = .unSignedOffset then 1 else 0) 24
  let opcode ← match mode with
    | .postIndex => do
      let opcode ← opcode.setImm9 imm.toInt
      opcode.setField 1 10
    | .preIndex => do
      let opcode ← opcode.setImm9 imm.toInt
      opcode.setField 0b11 10
    | .unSignedOffset =>
      opcode.setImm12 (imm.sshiftRight (if regType = .xReg then 3 else 2)).toNat
    | .signedOffset => .error (.thrown "Unsupported Encode mode for LDR/STR immediate")
  let opcode ← opcode.setRt rt
  let opcode ← opcode.setRn rn
  return opcode.getInstruction

def encodeLoadStoreReg (regType : RegType) (ldstType : LdStType) (rt rn rm : BitVec 8)
    (option : BitVec 32 := 0b011) (smallEndian : Bool := true) : Except CppError Text := do
  let opcode : Arm64Opcode := { smallEndian }
  let opcode ← opcode.setField 1 31
  let opcode ← opcode.setField (isX regType) 30
  let opcode ← opcode.setField 0b111 27
  let opcode ← opcode.setField (isLdr ldstType) 22
  let opcode ← opcode.setField 1 21
  let opcode ← opcode.setOption option.toInt
  let opcode ← opcode.setField 1 11
  let opcode ← opcode.setRm rm
  let opcode ← opcode.setRn rn
  let opcode ← opcode.setRt rt
  return opcode.getInstruction

/-! ### Move -/

/-- The endianness asked for is not passed on. -/
def encodeMovSP (regType : RegType) (rd rn : BitVec 8) (_smallEndian : Bool := true) :
    Except CppError Text :=
  encodeAddSubImm regType false rd rn 0

def encodeMovRegister (regType : RegType) (rd rm : BitVec 8) (smallEndian : Bool := true) :
    Except CppError Text := do
  let opcode : Arm64Opcode := { smallEndian }
  let opcode ← opcode.setSf regType
  let opcode ← opcode.setRm rm
  let opcode ← opcode.setRd rd
  let opcode ← opcode.setField 0b10101 25
  let opcode ← opcode.setRn 0b11111
  return opcode.getInstruction

/-- The three wide moves differ in the bits written at offset 23 only. -/
def encodeMovWide (bits : Int) (rd : BitVec 8) (imm16 : BitVec 16) (regType : RegType)
    (shift : BitVec 8) (smallEndian : Bool) : Except CppError Text := do
  let opcode : Arm64Opcode := { smallEndian }
  let opcode ← opcode.setSf regType
  let opcode ← opcode.setField bits 23
  let opcode ← opcode.setHw (shift >>> 4).toNat
  let opcode ← opcode.setImm16 imm16.toNat
  let opcode ← opcode.setRd rd
  return opcode.getInstruction

def encodeMovz (rd : BitVec 8) (imm16 : BitVec 16) (regType : RegType) (shift : BitVec 8 := 0)
    (smallEndian : Bool := true) : Except CppError Text :=
  encodeMovWide 0b10100101 rd imm16 regType shift smallEndian

def encodeMovk (rd : BitVec 8) (imm16 : BitVec 16) (regType : RegType) (shift : BitVec 8)
    (smallEndian : Bool := true) : Except CppError Text :=
  encodeMovWide 0b11100101 rd imm16 regType shift smallEndian

def encodeMovn (rd : BitVec 8) (imm16 : BitVec 16) (regType : RegType) (shift : BitVec 8)
    (smallEndian : Bool := true) : Except CppError Text :=
  encodeMovWide 0b100101 rd imm16 regType shift smallEndian

def wrapperEncodeMovInt32 (rd : BitVec 8) (value : BitVec 32) (smallEndian : Bool := true) :
    Except CppError Text := do
  let imm0 : BitVec 16 := (value &&& 0xFFFF).setWidth 16
  let imm1 : BitVec 16 := (value.sshiftRight 16 &&& 0xFFFF).setWidth 16
  let instr_0 ← encodeMovz rd imm0 .wReg 0 smallEndian
  let instr_1 ← encodeMovk rd imm1 .wReg (1 * 16) smallEndian
  return instr_0 ++ instr_1

def wrapperEncodeMovInt64 (rd : BitVec 8) (value : BitVec 64) (smallEndian : Bool := true) :
    Except CppError Text := do
  let imm0 : BitVec 16 := (value &&& 0xFFFF).setWidth 16
  let imm1 : BitVec 16 := (value.sshiftRight 16 &&& 0xFFFF).setWidth 16
  let imm2 : BitVec 16 := (value.sshiftRight 32 &&& 0xFFFF).setWidth 16
  let imm3 : BitVec 16 := (value.sshiftRight 48 &&& 0xFFFF).setWidth 16
  let instr_0 ← encodeMovz rd imm0 .xReg 0 smallEndian
  let instr_1 ← encodeMovk rd imm1 .xReg (1 * 16) smallEndian
  let instr_2 ← encodeMovk rd imm2 .xReg (2 * 16) smallEndian
  let instr_3 ← encodeMovk rd imm3 .xReg (3 * 16) smallEndian
  return instr_0 ++ instr_1 ++ instr_2 ++ instr_3

end Opcode
