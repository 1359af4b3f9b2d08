import TinyWasm.BitFields

/-!
# The A64 instructions the compiler emits, and their encoding tables

`decode` follows the encoding diagrams of the A64 base instructions class by
class. Words outside the modelled classes, and the reserved field values inside
them, decode to `none`. Offsets and displacements are kept in the unit the
assembler writes: bytes for memory operands and `adr`, instructions for branches.
-/

namespace ArmInstruction

open BitFields

abbrev Word := BitVec 32
abbrev Reg := BitVec 5

inductive Width where
  | w
  | x
  deriving DecidableEq, Repr

/-- Size in bytes of a register viewed at this width. -/
def Width.bytes : Width → Nat
  | .w => 4
  | .x => 8

inductive PairMode where
  | postIndex
  | preIndex
  | signedOffset
  deriving DecidableEq, Repr

inductive AddrMode where
  | postIndex
  | preIndex
  | unsignedOffset
  deriving DecidableEq, Repr

inductive MovKind where
  | movn
  | movz
  | movk
  deriving DecidableEq, Repr

inductive ShiftKind where
  | lsl
  | lsr
  | asr
  deriving DecidableEq, Repr

inductive Extend where
  | uxtw
  | lsl
  | sxtw
  | sxtx
  deriving DecidableEq, Repr

inductive Instr where
  | ldpStp (load : Bool) (width : Width) (mode : PairMode) (rt rt2 rn : Reg) (offset : Int)
  | ldrStrImm (load : Bool) (width : Width) (mode : AddrMode) (rt rn : Reg) (offset : Int)
  | ldrStrReg (load : Bool) (width : Width) (rt rn rm : Reg) (extend : Extend) (scaled : Bool)
  | addSubImm (sub setFlags : Bool) (width : Width) (rd rn : Reg) (imm : BitVec 12)
      (shift12 : Bool)
  | addSubShift (sub setFlags : Bool) (width : Width) (rd rn rm : Reg) (shift : ShiftKind)
      (amount : BitVec 6)
  | orrShift (width : Width) (rd rn rm : Reg) (shift : ShiftKind) (amount : BitVec 6)
  | movWide (kind : MovKind) (width : Width) (rd : Reg) (imm : BitVec 16) (hw : BitVec 2)
  | csel (width : Width) (rd rn rm : Reg) (cond : BitVec 4)
  | madd (width : Width) (rd rn rm ra : Reg)
  | div (signed : Bool) (width : Width) (rd rn rm : Reg)
  | b (link : Bool) (disp : Int)
  | bCond (cond : BitVec 4) (disp : Int)
  | br (link : Bool) (rn : Reg)
  | ret (rn : Reg)
  | adr (rd : Reg) (disp : Int)
  | nop
  deriving DecidableEq, Repr

def flag (off : Nat) (w : Word) : Bool := decide (field off 1 w = 1#1)

def sizeFlag (w : Word) : Width := if flag 31 w then .x else .w

def shiftKind (v : BitVec 2) : Option ShiftKind :=
  if v = 0 then some .lsl else if v = 1 then some .lsr else if v = 2 then some .asr else none

def extendKind (v : BitVec 3) : Option Extend :=
  if v = 0b010 then some .uxtw else if v = 0b011 then some .lsl
  else if v = 0b110 then some .sxtw else if v = 0b111 then some .sxtx else none

/-- Add/subtract (immediate): `sf op S 100010 sh imm12 Rn Rd`. -/
def decodeAddSubImm (w : Word) : Option Instr :=
  if field 23 1 w = 0 then
    some (.addSubImm (flag 30 w) (flag 29 w) (sizeFlag w) (field 0 5 w) (field 5 5 w)
      (field 10 12 w) (flag 22 w))
  else none

/-- Move wide (immediate): `sf opc 100101 hw imm16 Rd`. -/
def decodeMovWide (w : Word) : Option Instr :=
  if field 23 1 w = 1 ∧ (flag 31 w ∨ field 22 1 w = 0) then
    let mov := fun kind =>
      some (Instr.movWide kind (sizeFlag w) (field 0 5 w) (field 5 16 w) (field 21 2 w))
    if field 29 2 w = 0b00 then mov .movn
    else if field 29 2 w = 0b10 then mov .movz
    else if field 29 2 w = 0b11 then mov .movk
    else none
  else none

/-- PC-relative addressing, `adr` only: `0 immlo 10000 immhi Rd`. -/
def decodeAdr (w : Word) : Option Instr :=
  if field 31 1 w = 0 then
    some (.adr (field 0 5 w) (field 5 19 w ++ field 29 2 w).toInt)
  else none

/-- Logical (shifted register), `orr` only: `sf 01 01010 shift 0 Rm imm6 Rn Rd`. -/
def decodeOrrShift (w : Word) : Option Instr :=
  if field 29 2 w = 0b01 ∧ field 21 1 w = 0 ∧ (flag 31 w ∨ field 15 1 w = 0) then
    (shiftKind (field 22 2 w)).map fun shift =>
      .orrShift (sizeFlag w) (field 0 5 w) (field 5 5 w) (field 16 5 w) shift (field 10 6 w)
  else none

/-- Add/subtract (shifted register): `sf op S 01011 shift 0 Rm imm6 Rn Rd`. -/
def decodeAddSubShift (w : Word) : Option Instr :=
  if field 21 1 w = 0 ∧ (flag 31 w ∨ field 15 1 w = 0) then
    (shiftKind (field 22 2 w)).map fun shift =>
      .addSubShift (flag 30 w) (flag 29 w) (sizeFlag w) (field 0 5 w) (field 5 5 w)
        (field 16 5 w) shift (field 10 6 w)
  else none

/-- Conditional select and data processing (2 source): `sf 0 0 11010 ...`. -/
def decodeSelectOrDiv (w : Word) : Option Instr :=
  if field 29 2 w = 0 then
    if field 21 3 w = 0b100 ∧ field 10 2 w = 0 then
      some (.csel (sizeFlag w) (field 0 5 w) (field 5 5 w) (field 16 5 w) (field 12 4 w))
    else if field 21 3 w = 0b110 ∧ field 11 5 w = 0b00001 then
      some (.div (flag 10 w) (sizeFlag w) (field 0 5 w) (field 5 5 w) (field 16 5 w))
    else none
  else none

/-- Data processing (3 source), `madd` only: `sf 00 11011 000 Rm 0 Ra Rn Rd`. -/
def decodeMadd (w : Word) : Option Instr :=
  if field 29 2 w = 0 ∧ field 21 3 w = 0 ∧ field 15 1 w = 0 then
    some (.madd (sizeFlag w) (field 0 5 w) (field 5 5 w) (field 16 5 w) (field 10 5 w))
  else none

/-- Conditional branch (immediate): `0101010 0 imm19 0 cond`. -/
def decodeBCond (w : Word) : Option Instr :=
  if field 29 3 w = 0b010 ∧ field 4 1 w = 0 then
    some (.bCond (field 0 4 w) (field 5 19 w).toInt)
  else none

/-- Unconditional branch (register): `1101011 opc 11111 000000 Rn 00000`. -/
def decodeBranchRegister (w : Word) : Option Instr :=
  if field 29 3 w = 0b110 ∧ field 10 11 w = 0b11111000000 ∧ field 0 5 w = 0 then
    if field 21 3 w = 0b000 then some (.br false (field 5 5 w))
    else if field 21 3 w = 0b001 then some (.br true (field 5 5 w))
    else if field 21 3 w = 0b010 then some (.ret (field 5 5 w))
    else none
  else none

/-- Load/store register pair: `opc 101 0 mode L imm7 Rt2 Rn Rt`. The upper two
bits of the mode are the lower two of the class key. -/
def decodeLdpStp (key : BitVec 5) (w : Word) : Option Instr :=
  if field 29 2 w = 0b01 then
    let pair := fun mode =>
      some (Instr.ldpStp (flag 22 w) (sizeFlag w) mode (field 0 5 w) (field 10 5 w)
        (field 5 5 w) ((field 15 7 w).toInt * (sizeFlag w).bytes))
    if field 0 2 key ++ field 23 1 w = 0b001 then pair .postIndex
    else if field 0 2 key ++ field 23 1 w = 0b010 then pair .signedOffset
    else if field 0 2 key ++ field 23 1 w = 0b011 then pair .preIndex
    else none
  else none

def wordSize (w : Word) : Width := if flag 30 w then .x else .w

/-- Load/store register (unsigned immediate): `1 size0 111 0 01 opc imm12 Rn Rt`. -/
def decodeLdrStrUnsigned (w : Word) : Option Instr :=
  if field 31 1 w = 1 ∧ field 29 1 w = 1 ∧ field 23 1 w = 0 then
    some (.ldrStrImm (flag 22 w) (wordSize w) .unsignedOffset (field 0 5 w) (field 5 5 w)
      ((field 10 12 w).toNat * (wordSize w).bytes))
  else none

/-- Load/store register (indexed or register offset): `1 size0 111 0 00 opc ...`. -/
def decodeLdrStrOther (w : Word) : Option Instr :=
  if field 31 1 w = 1 ∧ field 29 1 w = 1 ∧ field 23 1 w = 0 then
    if field 21 1 w = 0 then
      let indexed := fun mode =>
        some (Instr.ldrStrImm (flag 22 w) (wordSize w) mode (field 0 5 w) (field 5 5 w)
          (field 12 9 w).toInt)
      if field 10 2 w = 0b01 then indexed .postIndex
      else if field 10 2 w = 0b11 then indexed .preIndex
      else none
    else if field 10 2 w = 0b10 then
      (extendKind (field 13 3 w)).map fun extend =>
        .ldrStrReg (flag 22 w) (wordSize w) (field 0 5 w) (field 5 5 w) (field 16 5 w) extend
          (flag 12 w)
    else none
  else none

/-- All classes but the immediate branches are told by bits 28:24. -/
def decodeClass (key : BitVec 5) (w : Word) : Option Instr :=
  if key = 0b10001 then decodeAddSubImm w
  else if key = 0b10010 then decodeMovWide w
  else if key = 0b10000 then decodeAdr w
  else if key = 0b01010 then decodeOrrShift w
  else if key = 0b01011 then decodeAddSubShift w
  else if key = 0b11010 then decodeSelectOrDiv w
  else if key = 0b11011 then decodeMadd w
  else if key = 0b10100 then decodeBCond w
  else if key = 0b10110 then decodeBranchRegister w
  else if key = 0b10101 then if w = 0xD503201F then some .nop else none
  else if key = 0b01000 ∨ key = 0b01001 then decodeLdpStp key w
  else if key = 0b11001 then decodeLdrStrUnsigned w
  else if key = 0b11000 then decodeLdrStrOther w
  else none

/-- Unconditional branch (immediate) is `op 00101 imm26`; the rest goes by class. -/
def decode (w : Word) : Option Instr :=
  if field 26 3 w = 0b101 ∧ field 29 2 w = 0 then some (.b (flag 31 w) (field 0 26 w).toInt)
  else decodeClass (field 24 5 w) w

end ArmInstruction
