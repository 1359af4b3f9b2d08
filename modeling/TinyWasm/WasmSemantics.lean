import TinyWasm.OperandStack

/-!
# What straight-line instructions mean

WebAssembly's meaning of the instructions without control flow, on a list of
locals and an operand stack of typed integers. An instruction whose operands are
missing or of another type has no meaning.
-/

namespace WasmSemantics

open HexText ArmInstruction SourceBody StructuredRun OperandStack Emit

/-- An integer with its type: `.w` is `i32` and `.x` is `i64`. -/
structure Val where
  width : Width
  value : Value width
  deriving DecidableEq

structure Values where
  locals : List Val
  stack : List Val
  deriving DecidableEq

/-- The signed value of an immediate of one byte. -/
def immediate (width : Width) (value : Byte) : Value width :=
  (value.setWidth 7).signExtend (8 * width.bytes)

def compareBits {n : Nat} (c : Comparison) (a b : BitVec n) : Bool :=
  match c with
  | .eq => a = b
  | .ne => a ≠ b
  | .lt_s => a.toInt < b.toInt
  | .lt_u => a.toNat < b.toNat
  | .gt_s => b.toInt < a.toInt
  | .gt_u => b.toNat < a.toNat
  | .le_s => a.toInt ≤ b.toInt
  | .le_u => a.toNat ≤ b.toNat
  | .ge_s => b.toInt ≤ a.toInt
  | .ge_u => b.toNat ≤ a.toNat

def arithBits {n : Nat} (o : Arith) (a b : BitVec n) : BitVec n :=
  match o with
  | .add => a + b
  | .sub => a - b
  | .mul => a * b

/-- The value, if it has the type. -/
def Val.as (width : Width) (v : Val) : Option (Value width) :=
  if h : v.width = width then some (h ▸ v.value) else none

/-- The two operands on top, if they have the type. -/
def takeTwo (width : Width) : List Val → Option (Value width × Value width × List Val)
  | b :: a :: rest =>
    match a.as width, b.as width with
    | some a, some b => some (a, b, rest)
    | _, _ => none
  | _ => none

def evalOp : Op → Values → Option Values
  | .nop, m => some m
  | .ret, _ => none
  | .localVar .get index, m => do
    let v ← m.locals[index.toNat]?
    some { m with stack := v :: m.stack }
  | .localVar .set index, m =>
    match m.stack, m.locals[index.toNat]? with
    | v :: rest, some old =>
      if v.width = old.width then some ⟨m.locals.set index.toNat v, rest⟩ else none
    | _, _ => none
  | .localVar .tee index, m =>
    match m.stack, m.locals[index.toNat]? with
    | v :: _, some old =>
      if v.width = old.width then some { m with locals := m.locals.set index.toNat v } else none
    | _, _ => none
  | .i32const value, m => some { m with stack := ⟨.w, immediate .w value⟩ :: m.stack }
  | .i64const value, m => some { m with stack := ⟨.x, immediate .x value⟩ :: m.stack }
  | .compare width c, m => do
    let (a, b, rest) ← takeTwo width m.stack
    some { m with stack := ⟨.w, if compareBits c a b then 1 else 0⟩ :: rest }
  | .arith width o, m => do
    let (a, b, rest) ← takeTwo width m.stack
    some { m with stack := ⟨width, arithBits o a b⟩ :: rest }

def evalOps : List Op → Values → Option Values
  | [], m => some m
  | o :: ops, m => (evalOp o m).bind (evalOps ops)

theorem as_eq {width : Width} {v : Val} {a : Value width} (h : v.as width = some a) :
    v = ⟨width, a⟩ := by
  obtain ⟨own, value⟩ := v
  rw [Val.as] at h
  split_ifs at h with same
  subst same
  cases h
  rfl

theorem takeTwo_eq {width : Width} {stack rest : List Val} {a b : Value width}
    (h : takeTwo width stack = some (a, b, rest)) : stack = ⟨width, b⟩ :: ⟨width, a⟩ :: rest := by
  match stack with
  | second :: first :: others =>
    rw [takeTwo] at h
    split at h
    · rename_i isFirst isSecond
      cases h
      rw [as_eq isFirst, as_eq isSecond]
    · exact nomatch h
  | [_] => exact nomatch h
  | [] => exact nomatch h

/-- An instruction moves the top of the stack by its effect. -/
theorem evalOp_height {o : Op} {m m' : Values} (h : evalOp o m = some m') :
    (m'.stack.length : Int) = m.stack.length + Op.effect o := by
  have two : ∀ {width : Width} {a b : Value width} {rest : List Val} (v : Val),
      takeTwo width m.stack = some (a, b, rest) →
      ((v :: rest).length : Int) = m.stack.length + -1 := by
    intro width a b rest v two
    rw [takeTwo_eq two]
    simp only [List.length_cons]
    omega
  cases o with
  | nop =>
    cases h
    exact (Int.add_zero _).symm
  | ret => exact nomatch h
  | localVar opType index =>
    cases opType with
    | get =>
      rw [evalOp] at h
      obtain ⟨v, -, grown⟩ := Option.bind_eq_some_iff.mp h
      cases grown
      simp [Op.effect]
    | set =>
      rw [evalOp] at h
      split at h
      · rename_i v rest old top here
        split_ifs at h
        cases h
        simp only [top, List.length_cons, Op.effect]
        omega
      · exact nomatch h
    | tee =>
      rw [evalOp] at h
      split at h
      · split_ifs at h
        cases h
        exact (Int.add_zero _).symm
      · exact nomatch h
  | i32const value =>
    cases h
    simp [Op.effect]
  | i64const value =>
    cases h
    simp [Op.effect]
  | compare width c =>
    rw [evalOp] at h
    obtain ⟨⟨a, b, rest⟩, operands, rest'⟩ := Option.bind_eq_some_iff.mp h
    cases rest'
    exact two _ operands
  | arith width c =>
    rw [evalOp] at h
    obtain ⟨⟨a, b, rest⟩, operands, rest'⟩ := Option.bind_eq_some_iff.mp h
    cases rest'
    exact two _ operands

theorem effect_le_one (o : Op) : Op.effect o ≤ 1 := by
  cases o with
  | localVar opType index => cases opType <;> simp [Op.effect]
  | nop | ret | i32const | i64const | compare | arith => simp [Op.effect]

/-- An instruction puts at most one entry on the stack. -/
theorem evalOp_grows {o : Op} {m m' : Values} (h : evalOp o m = some m') :
    m'.stack.length ≤ m.stack.length + 1 := by
  have height := evalOp_height h
  have small := effect_le_one o
  omega

end WasmSemantics
