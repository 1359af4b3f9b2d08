import TinyWasm.Leb128
import TinyWasm.CompilerFrame
import TinyWasm.OpcodeLoop
import TinyWasm.WholeFunction

/-!
# Immediates in the opcode loop

Bodies in the binary format with immediates of any length. The loop is run with
a record of its dispatches: where each one starts, and the immediate it hands to
the emission of the opcode.
-/

namespace ImmediateDecoding

open HexText Opcode Wasm Emit ArmInstruction LabelledCode SourceBody CodeItems EmissionSpec
open FrameSpec GenerationSpec OpcodeLoop

/-! ### The recorded loop -/

inductive Operand where
  | index (n : Nat)
  | i32 (value : BitVec 32)
  | i64 (value : BitVec 64)
  deriving DecidableEq, Repr

/-- What the branch of an opcode reads behind it. -/
def operandAt (f : WasmFunction) (i : Nat) : OpcodeKind → Except CppError (Option Operand)
  | .localOp _ => do return some (.index (← stoul (← f.codeAt (i + 1))))
  | .i32const => do return some (.i32 (BitVec.ofNat 32 (← stoul (← f.codeAt (i + 1)))))
  | .i64const => do return some (.i64 (BitVec.ofNat 64 (← stoul (← f.codeAt (i + 1)))))
  | _ => .ok none

/-- `commonLocalOp` behind its read of the index. -/
def localAccess (f : WasmFunction) (var_index : Nat) (opType : LocalOp) :
    Except CppError WasmFunction :=
  if var_index < f.param_data.length + f.local_data.length then
    let (typecategory, index) :=
      if var_index < f.param_data.length then (TypeCategory.PARAM, var_index)
      else (TypeCategory.LOCAL, var_index - f.param_data.length)
    match opType with
    | .get => emitGet f index typecategory
    | .set => emitSet f index typecategory
    | .tee => emitSet f index typecategory true
  else
    .error (.thrown ("Too big index \x7b" ++ toString var_index ++
      "\x7d for local data; skipping current op;"))

/-- The branch of an opcode behind the read of its immediate. -/
def useOperand (f : WasmFunction) (i : Nat) :
    OpcodeKind → Option Operand → Except CppError (WasmFunction × Nat)
  | .localOp opType, some (.index n) => do return (← localAccess f n opType, i + 2)
  | .i32const, some (.i32 value) => do return (← emitConst f (.i32 value), i + 2)
  | .i64const, some (.i64 value) => do return (← emitConst f (.i64 value), i + 2)
  | kind, _ => jitOpcode f i kind

/-- The operand is all that a branch takes from behind its opcode. -/
theorem jitOpcode_eq (f : WasmFunction) (i : Nat) (kind : OpcodeKind) :
    jitOpcode f i kind = operandAt f i kind >>= useOperand f i kind := by
  cases kind with
  | localOp opType =>
    rw [jitOpcode, commonLocalOp, operandAt]
    cases f.codeAt (i + 1) with
    | error e => rfl
    | ok code =>
      rw [ok_bind, ok_bind]
      cases stoul code with
      | error e => rfl
      | ok n => rfl
  | i32const =>
    rw [jitOpcode, operandAt]
    cases f.codeAt (i + 1) with
    | error e => rfl
    | ok code =>
      rw [ok_bind, ok_bind]
      cases stoul code with
      | error e => rfl
      | ok n => rfl
  | i64const =>
    rw [jitOpcode, operandAt]
    cases f.codeAt (i + 1) with
    | error e => rfl
    | ok code =>
      rw [ok_bind, ok_bind]
      cases stoul code with
      | error e => rfl
      | ok n => rfl
  | nop | ret | compare | arith | unknown | f32const | f64const => rfl
  | «if» | «else» | «end» => rfl

/-- A turn of the loop: where it starts, and its operand when it takes one. -/
structure Dispatch where
  offset : Nat
  operand : Option Operand
  deriving DecidableEq, Repr

def dispatchAt (f : WasmFunction) (i : Nat) : Dispatch :=
  match f.codeAt i with
  | .error _ => ⟨i, none⟩
  | .ok code =>
    match operandAt f i (opcodeOf code) with
    | .error _ => ⟨i, none⟩
    | .ok operand => ⟨i, operand⟩

/-- `jitLoop` with a record of its turns. -/
def recordedLoop :
    Nat → WasmFunction → Nat → List Dispatch × Except CppError WasmFunction
  | fuel, f, i =>
    if i < f.code_vec.length then
      match fuel with
      | 0 => ([], .error (.divergence "no branch of jiting_wasm_code moves past the opcode"))
      | fuel + 1 =>
        match jitOne f i with
        | .error e => ([dispatchAt f i], .error e)
        | .ok (g, j) => (dispatchAt f i :: (recordedLoop fuel g j).1, (recordedLoop fuel g j).2)
    else ([], .ok f)

theorem recordedLoop_result (fuel : Nat) (f : WasmFunction) (i : Nat) :
    (recordedLoop fuel f i).2 = jitLoop fuel f i := by
  induction fuel generalizing f i with
  | zero =>
    rw [recordedLoop, jitLoop]
    split
    · rfl
    · rfl
  | succ fuel ih =>
    rw [recordedLoop, jitLoop]
    split
    · cases jitOne f i with
      | error e => rfl
      | ok turned => exact ih turned.1 turned.2
    · rfl

/-- The turns of `jiting_wasm_code`, and its result. -/
def recorded (f : WasmFunction) (i : Nat) : List Dispatch × Except CppError WasmFunction :=
  let f := { f with
    control_flow_stack :=
      { label := "end", signature := f.result_data } :: f.control_flow_stack }
  recordedLoop f.code_vec.length f i

theorem recorded_result (f : WasmFunction) (i : Nat) :
    (recorded f i).2 = jiting_wasm_code f i := recordedLoop_result _ _ _

/-! ### Bodies with immediates of any length -/

inductive Instruction where
  | nop
  | ret
  | ifBlock (block : BlockType)
  | elseBlock
  | endBlock
  | localVar (opType : LocalOp) (index : List Byte)
  | const (width : Width) (value : List Byte)
  | compare (width : Width) (comparison : Comparison)
  | arith (width : Width) (arith : Arith)
  | div (width : Width) (signed : Bool)
  deriving DecidableEq, Repr

namespace Instruction

def opcode : Instruction → Byte
  | nop => 0x01
  | ret => 0x0f
  | ifBlock _ => 0x04
  | elseBlock => 0x05
  | endBlock => 0x0b
  | localVar opType _ => LocalOp.code opType
  | const .w _ => 0x41
  | const .x _ => 0x42
  | compare .w c => 0x46 + c.index
  | compare .x c => 0x51 + c.index
  | arith width a => a.code width
  | div width signed => divCode width signed

def immediate : Instruction → List Byte
  | ifBlock block => [block.code]
  | localVar _ index => index
  | const _ value => value
  | _ => []

def bytes (x : Instruction) : List Byte := x.opcode :: x.immediate

/-- The immediate as the binary format defines it: an unsigned index, a signed constant. -/
def operand : Instruction → Option Operand
  | localVar _ index => (Leb128.unsigned index).map .index
  | const .w value => (Leb128.signed value).map fun n => .i32 (BitVec.ofInt 32 n)
  | const .x value => (Leb128.signed value).map fun n => .i64 (BitVec.ofInt 64 n)
  | _ => none

/-- The immediate is well formed: a `u32` that names one of `vars` variables, or a number of the
constant's type. -/
def Encoded (vars : Nat) : Instruction → Prop
  | localVar _ index => index.length ≤ 5 ∧
      ∃ n, Leb128.unsigned index = some n ∧ n < 2 ^ 32 ∧ n < vars
  | const width value => value.length ≤ (8 * width.bytes + 6) / 7 ∧
      ∃ n, Leb128.signed value = some n ∧ -2 ^ (8 * width.bytes - 1) ≤ n ∧
        n < 2 ^ (8 * width.bytes - 1)
  | _ => True

/-- The immediate is one byte, and a constant is not negative. -/
def Short : Instruction → Prop
  | localVar _ index => index.length = 1
  | const _ value => value.length = 1 ∧ ∀ b ∈ value, b.toNat < 64
  | _ => True

end Instruction

/-- What is open around an instruction: a `then` arm, which an `else` may follow, or an
`else` arm or the function itself. -/
inductive Arm where
  | thn
  | last
  deriving DecidableEq, Repr

/-- The arms open behind an instruction. -/
def Instruction.armsAfter : Instruction → Arm → List Arm → List Arm
  | ifBlock _, arm, arms => .thn :: arm :: arms
  | elseBlock, _, arms => .last :: arms
  | endBlock, _, arms => arms
  | _, arm, arms => arm :: arms

/-- Blocks are nested properly, and the last `end` closes the outermost of `arms`. -/
def Nested : List Arm → List Instruction → Prop
  | [], rest => rest = []
  | _ :: _, [] => False
  | arm :: arms, x :: rest => (x = .elseBlock → arm = .thn) ∧ Nested (x.armsAfter arm arms) rest

/-- The dispatches the binary format asks for. -/
def layout : Nat → List Instruction → List Dispatch
  | _, [] => []
  | i, x :: rest => ⟨i, x.operand⟩ :: layout (i + x.bytes.length) rest

theorem recordedLoop_cons {f : WasmFunction} {i : Nat} (fuel : Nat)
    (inside : i < f.code_vec.length) :
    ∃ later, (recordedLoop (fuel + 1) f i).1 = dispatchAt f i :: later ∧
      ∀ g j, jitOne f i = .ok (g, j) → later = (recordedLoop fuel g j).1 := by
  rw [recordedLoop, if_pos inside]
  cases jitOne f i with
  | error e => exact ⟨[], rfl, by simp⟩
  | ok turned =>
    refine ⟨_, rfl, ?_⟩
    rintro g j same
    cases same
    rfl

/-- The record of a loop starts where the loop starts, if it starts at all. -/
theorem recordedLoop_start (fuel : Nat) (f : WasmFunction) (i : Nat) :
    ∀ d ∈ (recordedLoop fuel f i).1.head?, d.offset = i := by
  cases fuel with
  | zero =>
    rw [recordedLoop]
    split
    · simp
    · simp
  | succ fuel =>
    by_cases inside : i < f.code_vec.length
    · obtain ⟨later, starts, -⟩ := recordedLoop_cons fuel inside
      rw [starts]
      rintro d first
      cases first
      rw [dispatchAt]
      split
      · rfl
      · split
        · rfl
        · rfl
    · rw [recordedLoop, if_neg inside]
      simp

/-- The branch of the loop that an instruction takes. -/
def Instruction.kind : Instruction → OpcodeKind
  | nop => .nop
  | ret => .ret
  | ifBlock _ => .if
  | elseBlock => .else
  | endBlock => .end
  | localVar opType _ => .localOp opType
  | const .w _ => .i32const
  | const .x _ => .i64const
  | compare width c => .compare (regTypeOf width) (condStrOf c)
  | arith width a => .arith (typeInfoOf width) (opTypeOf a) true
  | div width signed => .arith (typeInfoOf width) '/' signed

theorem Instruction.opcodeOf_opcode (x : Instruction) :
    opcodeOf (hexByte x.opcode) = x.kind := by
  cases x with
  | nop => exact show opcodeOf (hexByte 0x01) = .nop by decide
  | ret => exact show opcodeOf (hexByte 0x0f) = .ret by decide
  | ifBlock block => exact show opcodeOf (hexByte 0x04) = .if by decide
  | elseBlock => exact show opcodeOf (hexByte 0x05) = .else by decide
  | endBlock => exact show opcodeOf (hexByte 0x0b) = .end by decide
  | localVar opType index => exact opcodeOf_localVar opType
  | const width value =>
    cases width with
    | w => exact show opcodeOf (hexByte 0x41) = .i32const by decide
    | x => exact show opcodeOf (hexByte 0x42) = .i64const by decide
  | compare width c =>
    cases width with
    | w => exact (opcodeOf_compare c).1
    | x => exact (opcodeOf_compare c).2
  | arith width a => exact opcodeOf_arith width a
  | div width signed => exact opcodeOf_div width signed

/-- What the loop takes the first byte of an immediate for. -/
def Instruction.taken : Instruction → Byte → Option Operand
  | localVar _ _, b => some (.index b.toNat)
  | const .w _, b => some (.i32 (BitVec.ofNat 32 b.toNat))
  | const .x _, b => some (.i64 (BitVec.ofNat 64 b.toNat))
  | _, _ => none

/-- An instruction with a number behind it is read as two bytes. -/
theorem number_turn {f : WasmFunction} {i : Nat} {x : Instruction} {b : Byte} {rest : List Text}
    (hcode : f.code_vec.drop i = hexByte x.opcode :: hexByte b :: rest) {operand : Operand}
    (number : x.taken b = some operand) :
    dispatchAt f i = ⟨i, some operand⟩ ∧ ∀ g j, jitOne f i = .ok (g, j) → j = i + 2 := by
  obtain ⟨here, next, -⟩ := codeAt_of_drop hcode
  obtain ⟨immediate, -, -⟩ := codeAt_of_drop next
  have read : operandAt f i x.kind = .ok (some operand) ∧
      ∀ g j, useOperand f i x.kind (some operand) = .ok (g, j) → j = i + 2 := by
    have after : ∀ {call : Except CppError WasmFunction} (g : WasmFunction) (j : Nat),
        (call >>= fun g => pure (g, i + 2)) = Except.ok (g, j) → j = i + 2 := by
      intro call g j done
      obtain ⟨h, -, done⟩ := ok_of_bind done
      cases done
      rfl
    cases x with
    | localVar opType index =>
      cases number
      exact ⟨by rw [Instruction.kind, operandAt, immediate, ok_bind, stoul_hexByte_toNat]; rfl,
        after⟩
    | const width value =>
      cases width with
      | w =>
        cases number
        exact ⟨by rw [Instruction.kind, operandAt, immediate, ok_bind, stoul_hexByte_toNat]; rfl,
          after⟩
      | x =>
        cases number
        exact ⟨by rw [Instruction.kind, operandAt, immediate, ok_bind, stoul_hexByte_toNat]; rfl,
          after⟩
    | nop | ret | ifBlock | elseBlock | endBlock | compare | arith | div => exact nomatch number
  refine ⟨?_, ?_⟩
  · simp only [dispatchAt, here, x.opcodeOf_opcode, read.1]
  · intro g j turn
    rw [jitOne, here, ok_bind, x.opcodeOf_opcode, jitOpcode_eq, read.1, ok_bind] at turn
    exact read.2 g j turn

/-- A signed byte is the number it is taken for when it is not negative. -/
theorem ofInt_signed_byte (b : Byte) {len : Nat} (wide : 8 ≤ len) (last : b.toNat < 128) :
    BitVec.ofInt len (if b.toNat < 64 then (b.toNat : Int) else b.toNat - 128) =
      BitVec.ofNat len b.toNat ↔ b.toNat < 64 := by
  split
  · rename_i small
    rw [BitVec.ofInt_natCast]
    exact iff_of_true rfl small
  · rename_i large
    refine iff_of_false (fun same => ?_) large
    have room : 2 ^ 8 ≤ 2 ^ len := Nat.pow_le_pow_right (by decide) wide
    have values := congrArg BitVec.toNat same
    rw [BitVec.toNat_ofInt, BitVec.toNat_ofNat, Nat.mod_eq_of_lt (by omega)] at values
    have wraps : ((b.toNat : Int) - 128) % ((2 ^ len : Nat) : Int) =
        (b.toNat : Int) - 128 + ((2 ^ len : Nat) : Int) := by
      rw [← Int.add_emod_right, Int.emod_eq_of_lt (by omega) (by omega)]
    rw [wraps] at values
    omega

/-- The number in the immediate is the one its first byte is taken for, and that byte is all,
exactly when the immediate is short. -/
theorem short_iff {x : Instruction} {vars : Nat} (encoded : x.Encoded vars) {b : Byte}
    {more : List Byte} (immediate : x.immediate = b :: more) {operand : Operand}
    (number : x.taken b = some operand) :
    x.Short ↔ more = [] ∧ x.operand = some operand := by
  cases x with
  | nop | ret | ifBlock | elseBlock | endBlock | compare | arith | div => exact nomatch number
  | localVar opType index =>
    cases number
    obtain rfl : index = b :: more := immediate
    obtain ⟨-, n, value, -⟩ := encoded
    have short : (Instruction.localVar opType (b :: more)).Short ↔ more = [] := by
      simp [Instruction.Short]
    rw [short, Instruction.operand, value]
    rcases Leb128.unsigned_cons value with ⟨-, rfl, rfl⟩ | ⟨-, longer, -⟩
    · simp
    · simp [longer]
  | const width value =>
    obtain rfl : value = b :: more := immediate
    obtain ⟨-, n, value, -⟩ := encoded
    have short : (Instruction.const width (b :: more)).Short ↔
        more = [] ∧ b.toNat < 64 := by
      constructor
      · rintro ⟨one, small⟩
        exact ⟨by simpa using one, small b (by simp)⟩
      · rintro ⟨rfl, small⟩
        exact ⟨rfl, by simpa using small⟩
    rw [short]
    rcases Leb128.signed_cons value with ⟨last, rfl, rfl⟩ | ⟨-, longer, -⟩
    · rw [and_iff_right rfl, and_iff_right rfl]
      cases width with
      | w =>
        cases number
        rw [Instruction.operand, value, Option.map_some, Option.some.injEq, Operand.i32.injEq]
        exact (ofInt_signed_byte b (by decide) last).symm
      | x =>
        cases number
        rw [Instruction.operand, value, Option.map_some, Option.some.injEq, Operand.i64.injEq]
        exact (ofInt_signed_byte b (by decide) last).symm
    · simp [longer]

section
variable {f : WasmFunction} {i vars : Nat} {x : Instruction} {rest : List Text} {arm : Arm}
  {arms : List Arm}

/-- A short number is the one byte behind the opcode, and is used as it is meant. -/
theorem short_number (hcode : f.code_vec.drop i = x.bytes.map hexByte ++ rest)
    (encoded : x.Encoded vars) (short : x.Short) {b : Byte} {more : List Byte}
    (immediate : x.immediate = b :: more) {operand : Operand} (taken : x.taken b = some operand) :
    more = [] ∧ f.codeAt (i + 1) = .ok (hexByte b) ∧ dispatchAt f i = ⟨i, x.operand⟩ := by
  obtain ⟨rfl, same⟩ := (short_iff encoded immediate taken).mp short
  have both : f.code_vec.drop i = hexByte x.opcode :: hexByte b :: rest := by
    rw [hcode, Instruction.bytes, immediate]
    rfl
  obtain ⟨-, next, -⟩ := codeAt_of_drop both
  rw [same]
  exact ⟨rfl, (codeAt_of_drop next).1, (number_turn both taken).1⟩

theorem dispatch_plain (hcode : f.code_vec.drop i = x.bytes.map hexByte ++ rest)
    (absent : operandAt f i x.kind = .ok none) : dispatchAt f i = ⟨i, none⟩ := by
  obtain ⟨here, -, -⟩ := codeAt_of_drop
    (show f.code_vec.drop i = hexByte x.opcode :: (x.immediate.map hexByte ++ rest) from hcode)
  simp only [dispatchAt, here, x.opcodeOf_opcode, absent]

/-- An instruction that opens and closes no block. -/
theorem moves_inside (depth : f.control_flow_stack.length = (arm :: arms).length)
    (same : x.armsAfter arm arms = arm :: arms)
    (moves : Moves f i x.bytes.length f.control_flow_stack.length) :
    Moves f i x.bytes.length (x.armsAfter arm arms).length := by
  rw [same, ← depth]
  exact moves

theorem moves_localVar (depth : f.control_flow_stack.length = (arm :: arms).length)
    {opType : LocalOp} {index : List Byte}
    (hcode : f.code_vec.drop i = (Instruction.localVar opType index).bytes.map hexByte ++ rest)
    (usable : ∀ n < vars, ¬ Refused f n)
    (encoded : (Instruction.localVar opType index).Encoded vars)
    (short : (Instruction.localVar opType index).Short) :
    dispatchAt f i = ⟨i, (Instruction.localVar opType index).operand⟩ ∧
      Moves f i (Instruction.localVar opType index).bytes.length (arm :: arms).length := by
  have here := (codeAt_of_drop (show f.code_vec.drop i =
    hexByte (Instruction.localVar opType index).opcode :: (index.map hexByte ++ rest) from hcode)).1
  obtain ⟨-, n, value, -, known⟩ := id encoded
  cases index with
  | nil => exact nomatch value
  | cons b more =>
    obtain ⟨rfl, immediate, dispatched⟩ := short_number hcode encoded short rfl rfl
    refine ⟨dispatched, moves_inside depth rfl ?_⟩
    rcases Leb128.unsigned_cons value with ⟨-, -, rfl⟩ | ⟨-, longer, -⟩
    · exact moves_localOp here (opcodeOf_localVar opType) immediate (stoul_hexByte_toNat b)
        (usable _ known)
    · exact absurd rfl longer

theorem moves_number (depth : f.control_flow_stack.length = (arm :: arms).length) {width : Width}
    {value : List Byte}
    (hcode : f.code_vec.drop i = (Instruction.const width value).bytes.map hexByte ++ rest)
    (encoded : (Instruction.const width value).Encoded vars)
    (short : (Instruction.const width value).Short) :
    dispatchAt f i = ⟨i, (Instruction.const width value).operand⟩ ∧
      Moves f i (Instruction.const width value).bytes.length (arm :: arms).length := by
  have here := (codeAt_of_drop (show f.code_vec.drop i =
    hexByte (Instruction.const width value).opcode :: (value.map hexByte ++ rest) from hcode)).1
  have kind := (Instruction.const width value).opcodeOf_opcode
  obtain ⟨-, n, known, -⟩ := id encoded
  cases value with
  | nil => exact nomatch known
  | cons b more =>
    cases width with
    | w =>
      obtain ⟨rfl, immediate, dispatched⟩ := short_number hcode encoded short rfl rfl
      exact ⟨dispatched, moves_inside depth rfl
        (moves_const here (Or.inl kind) immediate (stoul_hexByte_toNat b))⟩
    | x =>
      obtain ⟨rfl, immediate, dispatched⟩ := short_number hcode encoded short rfl rfl
      exact ⟨dispatched, moves_inside depth rfl
        (moves_const here (Or.inr kind) immediate (stoul_hexByte_toNat b))⟩

/-- An instruction without a number moves the loop on by its bytes, and one with a short
number does too. -/
theorem moves_short (depth : f.control_flow_stack.length = (arm :: arms).length)
    (hcode : f.code_vec.drop i = x.bytes.map hexByte ++ rest)
    (usable : ∀ n < vars, ¬ Refused f n) (encoded : x.Encoded vars) (short : x.Short) :
    dispatchAt f i = ⟨i, x.operand⟩ ∧
      Moves f i x.bytes.length (x.armsAfter arm arms).length := by
  have here := (codeAt_of_drop
    (show f.code_vec.drop i = hexByte x.opcode :: (x.immediate.map hexByte ++ rest) from hcode)).1
  have kind := x.opcodeOf_opcode
  have plain := dispatch_plain hcode
  have opened : 0 < f.control_flow_stack.length := by
    rw [depth]
    exact Nat.succ_pos _
  cases x with
  | nop => exact ⟨plain rfl, moves_inside depth rfl (moves_nop here kind)⟩
  | ret => exact ⟨plain rfl, moves_inside depth rfl (moves_ret here kind)⟩
  | ifBlock block =>
    refine ⟨plain rfl, ?_⟩
    rw [Instruction.armsAfter, List.length_cons, ← depth]
    exact moves_if block hcode kind
  | elseBlock =>
    refine ⟨plain rfl, ?_⟩
    rw [Instruction.armsAfter, List.length_cons, ← List.length_cons, ← depth]
    exact moves_else hcode kind opened
  | endBlock =>
    refine ⟨plain rfl, ?_⟩
    rw [Instruction.armsAfter, ← Nat.add_sub_cancel arms.length 1, ← List.length_cons, ← depth]
    exact moves_end hcode kind opened
  | localVar opType index => exact moves_localVar depth hcode usable encoded short
  | const width value => exact moves_number depth hcode encoded short
  | compare width c => exact ⟨plain rfl, moves_inside depth rfl (moves_compare here kind)⟩
  | arith width a => exact ⟨plain rfl, moves_inside depth rfl (moves_arith here kind)⟩
  | div width signed => exact ⟨plain rfl, moves_inside depth rfl (moves_arith here kind)⟩

end

theorem immediate_number {x : Instruction} {vars : Nat} (encoded : x.Encoded vars)
    (long : ¬ x.Short) : ∃ b more operand, x.immediate = b :: more ∧ x.taken b = some operand := by
  cases x with
  | nop | ret | ifBlock | elseBlock | endBlock | compare | arith | div => exact absurd trivial long
  | localVar opType index =>
    obtain ⟨-, n, value, -⟩ := encoded
    cases index with
    | nil => exact nomatch value
    | cons b more => exact ⟨b, more, _, rfl, rfl⟩
  | const width value =>
    obtain ⟨-, n, value', -⟩ := encoded
    cases value with
    | nil => exact nomatch value'
    | cons b more =>
      cases width with
      | w => exact ⟨b, more, _, rfl, rfl⟩
      | x => exact ⟨b, more, _, rfl, rfl⟩

/-- The first instruction whose number is not short spoils the record: another number is
used, or the next turn starts inside the immediate. -/
theorem recordedLoop_long {f : WasmFunction} {i fuel : Nat} {x : Instruction}
    {rest : List Instruction} {vars : Nat} (encoded : x.Encoded vars) (long : ¬ x.Short)
    (more : rest ≠ []) {later : List Text}
    (hcode : f.code_vec.drop i = x.bytes.map hexByte ++ later) :
    (recordedLoop (fuel + 1) f i).1 ≠ layout i (x :: rest) := by
  obtain ⟨b, tail, operand, immediate, number⟩ := immediate_number encoded long
  rw [Instruction.bytes, immediate] at hcode
  obtain ⟨dispatched, two⟩ := number_turn
    (show f.code_vec.drop i = _ :: _ :: (tail.map hexByte ++ later) from hcode) number
  obtain ⟨-, -, inside⟩ := codeAt_of_drop
    (show f.code_vec.drop i = hexByte x.opcode :: (hexByte b :: (tail.map hexByte ++ later)) from
      hcode)
  obtain ⟨turns, starts, continues⟩ := recordedLoop_cons fuel inside
  intro same
  rw [starts, layout, List.cons.injEq, dispatched, Dispatch.mk.injEq] at same
  obtain ⟨⟨-, used⟩, behind⟩ := same
  have longer : tail ≠ [] := fun short =>
    long ((short_iff encoded immediate number).mpr ⟨short, used.symm⟩)
  obtain ⟨y, others, rfl⟩ := List.exists_cons_of_ne_nil more
  rw [layout, Instruction.bytes, immediate] at behind
  have turned : ∃ g j, jitOne f i = .ok (g, j) := by
    cases turn : jitOne f i with
    | ok result => exact ⟨result.1, result.2, rfl⟩
    | error e =>
      rw [recordedLoop, if_pos inside, turn] at starts
      rw [behind] at starts
      simp at starts
  obtain ⟨g, j, turn⟩ := turned
  have start := recordedLoop_start fuel g j ⟨_, _⟩ (by
    rw [← continues g j turn, behind, List.head?_cons]
    rfl)
  have := two g j turn
  have := List.length_pos_of_ne_nil longer
  simp only [List.length_cons] at start
  omega

/-- The record is the layout exactly when every number is short. -/
theorem recordedLoop_iff {f : WasmFunction} {i fuel vars : Nat} {arms : List Arm}
    {instrs : List Instruction} (depth : f.control_flow_stack.length = arms.length)
    (hcode : f.code_vec.drop i = (instrs.flatMap Instruction.bytes).map hexByte)
    (usable : ∀ n < vars, ¬ Refused f n) (nested : Nested arms instrs)
    (encoded : ∀ x ∈ instrs, x.Encoded vars) (enough : instrs.length ≤ fuel) :
    (recordedLoop fuel f i).1 = layout i instrs ↔ ∀ x ∈ instrs, x.Short := by
  induction instrs generalizing f i fuel arms with
  | nil =>
    have behind := List.drop_eq_nil_iff.mp hcode
    have ended : (recordedLoop fuel f i).1 = [] := by
      cases fuel with
      | zero => rw [recordedLoop, if_neg (by omega)]
      | succ fuel => rw [recordedLoop, if_neg (by omega)]
    exact iff_of_true ended (by simp)
  | cons x rest ih =>
    obtain ⟨fuel, rfl⟩ : ∃ k, fuel = k + 1 := ⟨fuel - 1, by simp at enough; omega⟩
    rw [List.flatMap_cons, List.map_append] at hcode
    cases arms with
    | nil => exact nomatch nested
    | cons arm arms =>
      obtain ⟨-, nested⟩ := nested
      have here := encoded x (by simp)
      by_cases short : x.Short
      · obtain ⟨dispatched, g, turn, code, refused, opened⟩ :=
          moves_short depth hcode usable here short
        obtain ⟨-, -, inside⟩ := codeAt_of_drop
          (show f.code_vec.drop i = hexByte x.opcode :: (x.immediate.map hexByte ++ _) from hcode)
        obtain ⟨turns, starts, continues⟩ := recordedLoop_cons fuel inside
        have next : g.code_vec.drop (i + x.bytes.length) =
            (rest.flatMap Instruction.bytes).map hexByte := by
          rw [code, ← List.drop_drop, hcode]
          exact List.drop_left' (List.length_map _)
        have later := ih opened next (by rw [refused]; exact usable) nested
          (fun y hy => encoded y (List.mem_cons_of_mem x hy)) (by simpa using enough)
        rw [starts, layout, dispatched, continues g _ turn, List.cons.injEq, and_iff_right rfl,
          later]
        simp [short]
      · refine iff_of_false ?_ fun all => short (all x (by simp))
        have more : rest ≠ [] := by
          rintro rfl
          cases x with
          | localVar opType index => exact nested
          | const width value => exact nested
          | nop | ret | ifBlock | elseBlock | endBlock | compare | arith | div =>
            exact short trivial
        exact recordedLoop_long here short more hcode

/-! ### The function around the body -/

/-- A group of local variables: how many, and their type. -/
structure Declaration where
  count : List Byte
  type : Byte
  deriving DecidableEq, Repr

def Declaration.bytes (d : Declaration) : List Byte := d.count ++ [d.type]

def Declaration.variables (d : Declaration) : Nat := (Leb128.unsigned d.count).getD 0

/-- The count is a `u32`, and the type is a number type. -/
def Declaration.Encoded (d : Declaration) : Prop :=
  d.count.length ≤ 5 ∧ (∃ n, Leb128.unsigned d.count = some n ∧ n < 2 ^ 32) ∧
    d.type ∈ [0x7f, 0x7e, 0x7d, 0x7c]

/-- The function as it reaches the compiler. -/
def function (params results : List wasm_type) (decls : List Declaration)
    (instrs : List Instruction) (pre : Text := []) : WasmFunction :=
  { param_data := params, result_data := results, local_var_declare_count := decls.length
    pre_instructions_for_param_loading := pre
    code_vec := (decls.flatMap Declaration.bytes ++ instrs.flatMap Instruction.bytes).map hexByte }

/-- What the validation of a body promises of its encoding. -/
structure Valid (params : List wasm_type) (decls : List Declaration)
    (instrs : List Instruction) : Prop where
  declarations : ∀ d ∈ decls, d.Encoded
  nested : Nested [.last] instrs
  encoded : ∀ x ∈ instrs,
    x.Encoded (params.length + (decls.map Declaration.variables).sum)

/-- `generate` up to `jiting_wasm_code`. -/
def atLoop (f : WasmFunction) : Except CppError (WasmFunction × Nat) := do
  let (f, offset) ← f.local_var_initialize 0
  let f ← emitStubs f
  let f := f.insertLabel "entry"
  let f ← f.main_entry_initialize
  let f ← wrapper_setjmp f
  return (f, offset)

/-- `generate` behind `jiting_wasm_code`. -/
def behindLoop (f : WasmFunction) : Except CppError WasmFunction := do
  let f ← f.emit (encodeMovz 11 0x0 .xReg 0)
  let f ← f.emit (encodeLoadStoreImm .xReg .str 11 REG_BUFFER 0)
  main_entry_finalize (f.insertLabel "finalize")

theorem generate_eq (f : WasmFunction) :
    generate f = atLoop f >>= fun loop => jiting_wasm_code loop.1 loop.2 >>= behindLoop := by
  simp only [generate, atLoop, bind_assoc, pure_bind]
  rfl

/-- The declarations are read as two bytes each. -/
theorem readLocals_offset {f g : WasmFunction} {n offset next : Nat}
    (done : f.readLocals n offset = .ok (g, next)) : next = offset + 2 * n := by
  induction n generalizing f offset with
  | zero =>
    cases done
    rfl
  | succ n ih =>
    obtain ⟨first, -, done⟩ := ok_of_bind done
    obtain ⟨count, -, done⟩ := ok_of_bind done
    obtain ⟨type, -, done⟩ := ok_of_bind done
    rw [ih done]
    omega

/-- The state at the loop: nothing is open, the code is untouched, and the frame of the
declared variables is there. -/
theorem atLoop_ok {f g : WasmFunction} {offset : Nat} (fresh : f.control_flow_stack = [])
    (done : atLoop f = .ok (g, offset)) :
    offset = 2 * f.local_var_declare_count ∧ g.code_vec = f.code_vec ∧
      g.control_flow_stack = [] ∧ HasFrame g (frameOf f.param_data
        (f.local_data ++ CompilerFrame.declared f.code_vec f.local_var_declare_count 0)) := by
  obtain ⟨⟨f₀, next⟩, read, done⟩ := ok_of_bind done
  obtain ⟨f₁, stubs, done⟩ := ok_of_bind done
  obtain ⟨f₂, frame, done⟩ := ok_of_bind done
  obtain ⟨f₃, wrapper, done⟩ := ok_of_bind done
  cases done
  have offset := readLocals_offset read
  have start := CompilerFrame.readLocals_eq read
  obtain ⟨stubStep, -, stubControl⟩ := extends_of_emits (WholeFunction.emitStubs_emits f₀) stubs
  obtain ⟨entryStep, -, entryControl⟩ := extends_of_emits (emits_insertLabel f₁ "entry") rfl
  obtain ⟨entered, -, -, hasFrame, -, -⟩ := main_entry_initialize_ok frame
  obtain ⟨wrapStep, -, wrapControl⟩ :=
    extends_of_emits (WholeFunction.wrapper_setjmp_emits f₂) wrapper
  have rest := (stubStep.trans entryStep).rest
  have params : (f₁.insertLabel "entry").param_data = f.param_data := by rw [rest, start]
  have locals : (f₁.insertLabel "entry").local_data = f.local_data ++
      CompilerFrame.declared f.code_vec f.local_var_declare_count 0 := by rw [rest, start]
  rw [params, locals] at hasFrame
  refine ⟨by rw [offset, Nat.zero_add], ?_, ?_, hasFrame.extends wrapStep⟩
  · rw [code_vec_of_extends wrapStep, entered.code_vec, rest, start]
  · rw [wrapControl, entered.control_flow_stack, entryControl, stubControl, start]
    exact fresh

theorem usable_of_frame {f : WasmFunction} {params locals : List wasm_type}
    (frame : HasFrame f (frameOf params locals)) :
    ∀ n < params.length + locals.length, ¬ Refused f n := by
  have count : (frameOf params locals).length = params.length + locals.length := by
    rw [frameOf, List.length_append, slots_length, slots_length]
  intro n inside
  have slot := List.getElem?_eq_getElem (l := frameOf params locals) (i := n) (by omega)
  have reach := (frame.slot n _ slot).1
  rw [Refused, not_or, not_le, not_not]
  exact ⟨by rw [← frame.count, count]; exact inside, reach⟩

theorem Declaration.length_bytes (d : Declaration) : d.bytes.length = d.count.length + 1 := by
  rw [Declaration.bytes, List.length_append]
  rfl

/-- Declarations take two bytes each exactly when every count is one byte. -/
theorem declarations_size {decls : List Declaration} (encoded : ∀ d ∈ decls, d.Encoded) :
    2 * decls.length ≤ (decls.flatMap Declaration.bytes).length ∧
      ((decls.flatMap Declaration.bytes).length = 2 * decls.length ↔
        ∀ d ∈ decls, d.count.length = 1) := by
  induction decls with
  | nil => simp
  | cons d decls ih =>
    obtain ⟨-, ⟨n, value, -⟩, -⟩ := encoded d (by simp)
    have positive : 0 < d.count.length := by
      cases count : d.count with
      | nil =>
        rw [count] at value
        exact nomatch value
      | cons b more => exact Nat.succ_pos _
    obtain ⟨low, iff⟩ := ih fun e he => encoded e (List.mem_cons_of_mem d he)
    simp only [List.flatMap_cons, List.length_append, List.length_cons, d.length_bytes,
      List.forall_mem_cons]
    refine ⟨by omega, ?_⟩
    rw [← iff]
    omega

/-- Declarations with short counts are read as they are written. -/
theorem declared_length {decls : List Declaration} (encoded : ∀ d ∈ decls, d.Encoded)
    (short : ∀ d ∈ decls, d.count.length = 1) (before : List Text) (rest : List Byte) :
    (CompilerFrame.declared (before ++ (decls.flatMap Declaration.bytes ++ rest).map hexByte)
      decls.length before.length).length = (decls.map Declaration.variables).sum := by
  induction decls generalizing before with
  | nil => rfl
  | cons d decls ih =>
    obtain ⟨-, ⟨n, value, -⟩, known⟩ := encoded d (by simp)
    obtain ⟨b, count⟩ : ∃ b, d.count = [b] := List.length_eq_one_iff.mp (short d (by simp))
    have small : d.variables = b.toNat := by
      rw [Declaration.variables, count]
      rw [count] at value
      rcases Leb128.unsigned_cons value with ⟨-, -, rfl⟩ | ⟨-, longer, -⟩
      · rw [value]
        rfl
      · exact absurd rfl longer
    have typed : ∃ data, WasmFunction.typeOfCode (hexByte d.type) = some data := by
      simp only [List.mem_cons, List.not_mem_nil, or_false] at known
      rcases known with h | h | h | h
      · exact ⟨.i32 0, by rw [h]; decide⟩
      · exact ⟨.i64 0, by rw [h]; decide⟩
      · exact ⟨.f32 0, by rw [h]; decide⟩
      · exact ⟨.f64 0, by rw [h]; decide⟩
    obtain ⟨data, typed⟩ := typed
    have split : before ++ ((d :: decls).flatMap Declaration.bytes ++ rest).map hexByte =
        (before ++ [hexByte b, hexByte d.type]) ++
          (decls.flatMap Declaration.bytes ++ rest).map hexByte := by
      simp [Declaration.bytes, count]
    have later := ih (fun e he => encoded e (List.mem_cons_of_mem d he))
      (fun e he => short e (List.mem_cons_of_mem d he)) (before ++ [hexByte b, hexByte d.type])
    rw [split, List.length_cons, CompilerFrame.declared, List.length_append]
    rw [@List.length_append _ before] at later
    rw [show before.length + 2 = before.length + [hexByte b, hexByte d.type].length from rfl, later,
      List.map_cons, List.sum_cons, small]
    simp [typed, stoul_hexByte_toNat]

/-- The record of the loop is the layout of the body exactly when its numbers are short. -/
theorem record_iff {params results : List wasm_type} {decls : List Declaration}
    {instrs : List Instruction} {pre : Text} (valid : Valid params decls instrs)
    {g : WasmFunction} {offset : Nat}
    (reached : atLoop (function params results decls instrs pre) = .ok (g, offset)) :
    (recorded g offset).1 = layout (decls.flatMap Declaration.bytes).length instrs ↔
      (∀ d ∈ decls, d.count.length = 1) ∧ ∀ x ∈ instrs, x.Short := by
  obtain ⟨declarations, nested, encoded⟩ := valid
  obtain ⟨start, code, control, frame⟩ := atLoop_ok rfl reached
  obtain ⟨-, sizes⟩ := declarations_size declarations
  let opened : WasmFunction := { g with
    control_flow_stack := { label := "end", signature := g.result_data } :: g.control_flow_stack }
  have record : (recorded g offset).1 = (recordedLoop g.code_vec.length opened offset).1 := rfl
  rw [record]
  by_cases short : ∀ d ∈ decls, d.count.length = 1
  · rw [and_iff_right short]
    have size := sizes.mpr short
    have place : offset = (decls.flatMap Declaration.bytes).length := by rw [start, size]; rfl
    rw [← place]
    have behind : opened.code_vec.drop offset =
        (instrs.flatMap Instruction.bytes).map hexByte := by
      rw [show opened.code_vec = _ from code, place, function, List.map_append]
      exact List.drop_left' (List.length_map _)
    have counted := declared_length declarations short [] (instrs.flatMap Instruction.bytes)
    have depth : opened.control_flow_stack.length = [Arm.last].length := by
      change g.control_flow_stack.length + 1 = 1
      rw [control]
      rfl
    refine recordedLoop_iff depth behind ?_ nested encoded ?_
    · rw [← counted]
      exact usable_of_frame (show HasFrame opened (frameOf params (CompilerFrame.declared
        (function params results decls instrs pre).code_vec decls.length 0)) from
        ⟨frame.count, frame.slot⟩)
    · have bytes : instrs.length ≤ (instrs.flatMap Instruction.bytes).length := by
        have each : ∀ n ∈ instrs.map fun x => x.bytes.length, 1 ≤ n := by
          simp [Instruction.bytes]
        have total := List.length_le_sum_of_one_le _ each
        rwa [List.length_map, ← List.length_flatMap] at total
      have whole : g.code_vec.length = (decls.flatMap Declaration.bytes).length +
          (instrs.flatMap Instruction.bytes).length := by
        rw [code, function, List.length_map, List.length_append]
      omega
  · refine iff_of_false ?_ fun both => short both.1
    intro same
    cases instrs with
    | nil => exact nested
    | cons x rest =>
      have first := recordedLoop_start g.code_vec.length opened offset ⟨_, _⟩ (by
        rw [same, layout, List.head?_cons]
        rfl)
      exact short (sizes.mp (first.trans start))

/-- Whenever the loop is reached, `generate` goes on with what it returns, and it starts a turn at
the first byte of each instruction and nowhere else, with the number the immediate encodes, exactly
when the count of every declaration and the number in every immediate are one byte, and no constant
is negative. -/
theorem immediates_decoded_iff {params results : List wasm_type} {decls : List Declaration}
    {instrs : List Instruction} {pre : Text} (valid : Valid params decls instrs)
    {g : WasmFunction} {offset : Nat}
    (reached : atLoop (function params results decls instrs pre) = .ok (g, offset)) :
    generate (function params results decls instrs pre) =
        jiting_wasm_code g offset >>= behindLoop ∧
      (recorded g offset).2 = jiting_wasm_code g offset ∧
      ((recorded g offset).1 = layout (decls.flatMap Declaration.bytes).length instrs ↔
        (∀ d ∈ decls, d.count.length = 1) ∧ ∀ x ∈ instrs, x.Short) := by
  refine ⟨?_, recorded_result g offset, record_iff valid reached⟩
  rw [generate_eq, reached, ok_bind]

/-- `(i32.const 5) (local.get 0)`, on a function of one parameter. -/
def shortBody : List Instruction := [.const .w [0x05], .localVar .get [0x00], .endBlock]

theorem shortBody_valid : Valid [.i32 0] [⟨[0x01], 0x7f⟩] shortBody := by
  refine ⟨?_, ?_, ?_⟩
  · intro d hd
    obtain rfl := List.mem_singleton.mp hd
    exact ⟨by decide, ⟨1, by decide, by decide⟩, by decide⟩
  · exact ⟨nofun, nofun, nofun, rfl⟩
  · intro x hx
    simp only [shortBody, List.mem_cons, List.not_mem_nil, or_false] at hx
    rcases hx with rfl | rfl | rfl
    · exact ⟨by decide, 5, by decide, by decide, by decide⟩
    · exact ⟨by decide, 0, by decide, by decide, by decide⟩
    · trivial

theorem immediates_decoded_shortBody : ∃ g offset,
    atLoop (function [.i32 0] [.i32 0] [⟨[0x01], 0x7f⟩] shortBody) = .ok (g, offset) ∧
      generate (function [.i32 0] [.i32 0] [⟨[0x01], 0x7f⟩] shortBody) =
        jiting_wasm_code g offset >>= behindLoop ∧
      (recorded g offset).2 = jiting_wasm_code g offset ∧
      (recorded g offset).1 = layout 2 shortBody := by
  have ends : (atLoop (function [.i32 0] [.i32 0] [⟨[0x01], 0x7f⟩] shortBody)).toOption.isSome =
      true := by decide +kernel
  cases reached : atLoop (function [.i32 0] [.i32 0] [⟨[0x01], 0x7f⟩] shortBody) with
  | error e =>
    rw [reached] at ends
    exact nomatch ends
  | ok loop =>
    obtain ⟨goes, result, record⟩ := immediates_decoded_iff shortBody_valid reached
    refine ⟨loop.1, loop.2, rfl, goes, result, record.mpr ⟨?_, ?_⟩⟩
    · simp
    · simp [shortBody, Instruction.Short]

/-- `i32.const -1`. -/
def negativeBody : List Instruction := [.const .w [0x7f], .endBlock]

theorem negativeBody_valid : Valid [] [] negativeBody := by
  refine ⟨nofun, ⟨nofun, nofun, rfl⟩, ?_⟩
  intro x hx
  simp only [negativeBody, List.mem_cons, List.not_mem_nil, or_false] at hx
  rcases hx with rfl | rfl
  · exact ⟨by decide, -1, by decide, by decide, by decide⟩
  · trivial

/-- The immediate of `i32.const -1` is used as 127. -/
theorem negative_constant_misread : Valid [] [] negativeBody ∧
    ∃ g offset, atLoop (function [] [.i32 0] [] negativeBody) = .ok (g, offset) ∧
      (recorded g offset).2 = jiting_wasm_code g offset ∧
      (recorded g offset).1.head? = some ⟨0, some (.i32 127)⟩ ∧
      (layout 0 negativeBody).head? = some ⟨0, some (.i32 (-1))⟩ ∧
      (recorded g offset).1 ≠ layout 0 negativeBody := by
  have used : (atLoop (function [] [.i32 0] [] negativeBody)).toOption.map
      (fun loop => (recorded loop.1 loop.2).1.head?) = some (some ⟨0, some (.i32 127)⟩) := by
    decide +kernel
  have asked : (layout 0 negativeBody).head? = some ⟨0, some (.i32 (-1))⟩ := by decide
  refine ⟨negativeBody_valid, ?_⟩
  cases reached : atLoop (function [] [.i32 0] [] negativeBody) with
  | error e =>
    rw [reached] at used
    exact nomatch used
  | ok loop =>
    rw [reached] at used
    have first : (recorded loop.1 loop.2).1.head? = some ⟨0, some (.i32 127)⟩ :=
      Option.some.inj used
    refine ⟨loop.1, loop.2, rfl, recorded_result _ _, first, asked, fun same => ?_⟩
    rw [same, asked] at first
    exact absurd first (by decide)

end ImmediateDecoding
