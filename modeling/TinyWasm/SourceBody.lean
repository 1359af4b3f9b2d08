import TinyWasm.LocalDeclarations
import TinyWasm.Emit
import TinyWasm.ArmInstruction

/-!
# Function bodies as structured code

The bodies the compiler supports, as a syntax tree: instructions without
control flow, divisions, and `if` blocks with or without an `else`. `bytes`
writes a tree in the binary format, with every immediate in one byte.
-/

namespace SourceBody

open HexText Opcode Wasm Emit ArmInstruction LocalDeclarations

inductive Comparison where
  | eq
  | ne
  | lt_s
  | lt_u
  | gt_s
  | gt_u
  | le_s
  | le_u
  | ge_s
  | ge_u
  deriving DecidableEq, Repr

inductive Arith where
  | add
  | sub
  | mul
  deriving DecidableEq, Repr

/-- An instruction that neither branches nor divides; `.w` is `i32` and `.x` is `i64`. -/
inductive Op where
  | nop
  | ret
  | localVar (opType : LocalOp) (index : Byte)
  | i32const (value : Byte)
  | i64const (value : Byte)
  | compare (width : Width) (comparison : Comparison)
  | arith (width : Width) (arith : Arith)
  deriving DecidableEq, Repr

inductive BlockType where
  | void
  | i32
  | i64
  deriving DecidableEq, Repr

/-- A sequence of instructions; the `end` of a block is part of its constructor. -/
inductive Seq where
  | nil
  | op (o : Op) (rest : Seq)
  | div (width : Width) (signed : Bool) (rest : Seq)
  | ifThen (block : BlockType) (thn rest : Seq)
  | ifElse (block : BlockType) (thn els rest : Seq)
  deriving DecidableEq, Repr

def Comparison.index : Comparison → Byte
  | .eq => 0
  | .ne => 1
  | .lt_s => 2
  | .lt_u => 3
  | .gt_s => 4
  | .gt_u => 5
  | .le_s => 6
  | .le_u => 7
  | .ge_s => 8
  | .ge_u => 9

def LocalOp.code : LocalOp → Byte
  | .get => 0x20
  | .set => 0x21
  | .tee => 0x22

def Arith.code : Width → Arith → Byte
  | .w, .add => 0x6a
  | .w, .sub => 0x6b
  | .w, .mul => 0x6c
  | .x, .add => 0x7c
  | .x, .sub => 0x7d
  | .x, .mul => 0x7e

def divCode : Width → Bool → Byte
  | .w, true => 0x6d
  | .w, false => 0x6e
  | .x, true => 0x7f
  | .x, false => 0x80

def BlockType.code : BlockType → Byte
  | .void => 0x40
  | .i32 => 0x7f
  | .i64 => 0x7e

def Op.bytes : Op → List Byte
  | .nop => [0x01]
  | .ret => [0x0f]
  | .localVar opType index => [LocalOp.code opType, index]
  | .i32const value => [0x41, value]
  | .i64const value => [0x42, value]
  | .compare .w c => [0x46 + c.index]
  | .compare .x c => [0x51 + c.index]
  | .arith width a => [a.code width]

def Seq.bytes : Seq → List Byte
  | .nil => []
  | .op o rest => o.bytes ++ rest.bytes
  | .div width signed rest => divCode width signed :: rest.bytes
  | .ifThen block thn rest => 0x04 :: block.code :: (thn.bytes ++ 0x0b :: rest.bytes)
  | .ifElse block thn els rest =>
    0x04 :: block.code :: (thn.bytes ++ 0x05 :: (els.bytes ++ 0x0b :: rest.bytes))

/-- Number of turns the loop over the opcodes takes for the sequence. -/
def Seq.turns : Seq → Nat
  | .nil => 0
  | .op _ rest => 1 + rest.turns
  | .div _ _ rest => 1 + rest.turns
  | .ifThen _ thn rest => 1 + (thn.turns + (1 + rest.turns))
  | .ifElse _ thn els rest => 1 + (thn.turns + (1 + (els.turns + (1 + rest.turns))))

/-- Number of labels the shared counter hands out for the sequence. -/
def Seq.labelsUsed : Seq → Nat
  | .nil => 0
  | .op _ rest => rest.labelsUsed
  | .div _ _ rest => rest.labelsUsed
  | .ifThen _ thn rest => 1 + thn.labelsUsed + rest.labelsUsed
  | .ifElse _ thn els rest => 2 + thn.labelsUsed + els.labelsUsed + rest.labelsUsed

/-- Number of divisions in the sequence. -/
def Seq.divisions : Seq → Nat
  | .nil => 0
  | .op _ rest => rest.divisions
  | .div _ _ rest => 1 + rest.divisions
  | .ifThen _ thn rest => thn.divisions + rest.divisions
  | .ifElse _ thn els rest => thn.divisions + els.divisions + rest.divisions

/-- The variable indices of the sequence are below `n`. -/
def Op.UsesBelow (n : Nat) : Op → Prop
  | .localVar _ index => index.toNat < n
  | _ => True

def Seq.UsesBelow (n : Nat) : Seq → Prop
  | .nil => True
  | .op o rest => o.UsesBelow n ∧ rest.UsesBelow n
  | .div _ _ rest => rest.UsesBelow n
  | .ifThen _ thn rest => thn.UsesBelow n ∧ rest.UsesBelow n
  | .ifElse _ thn els rest => thn.UsesBelow n ∧ els.UsesBelow n ∧ rest.UsesBelow n

theorem Op.bytes_pos (o : Op) : 0 < o.bytes.length := by
  cases o with
  | compare width c => cases width <;> simp [Op.bytes]
  | nop | ret | localVar | i32const | i64const | arith => simp [Op.bytes]

theorem Seq.turns_le_bytes (seq : Seq) : seq.turns ≤ seq.bytes.length := by
  induction seq with
  | nil => simp [Seq.turns]
  | op o rest ih =>
    have := o.bytes_pos
    simp only [Seq.turns, Seq.bytes, List.length_append]
    omega
  | div width signed rest ih =>
    simp only [Seq.turns, Seq.bytes, List.length_cons]
    omega
  | ifThen block thn rest ihThn ihRest =>
    simp only [Seq.turns, Seq.bytes, List.length_cons, List.length_append]
    omega
  | ifElse block thn els rest ihThn ihEls ihRest =>
    simp only [Seq.turns, Seq.bytes, List.length_cons, List.length_append]
    omega

/-- A function as `parse_code` delivers it, with the types its type index names and the
arguments of a call: declarations, body, and the final `end`; and the instructions that load
the arguments, once these are prepared. -/
def delivered (params results : List wasm_type) (groups : List Group) (body : Seq)
    (pre : Text := []) : WasmFunction :=
  { param_data := params, result_data := results, local_var_declare_count := groups.length
    pre_instructions_for_param_loading := pre
    code_vec := groups.flatMap groupCode ++ (body.bytes ++ [0x0b]).map hexByte }

end SourceBody
