import TinyWasm.CodeItems

/-!
# Valid bodies

WebAssembly's typing of the supported bodies. Operand types are listed from the
top of the stack down, an arm of an `if` begins with an empty stack of its own,
and what stands behind a `return` may be given any operands.
-/

namespace Validation

open Wasm ArmInstruction SourceBody Emit

inductive ValType where
  | i32
  | i64
  | f32
  | f64
  deriving DecidableEq, Repr

def typeOf : wasm_type → ValType
  | .i32 _ => .i32
  | .i64 _ => .i64
  | .f32 _ => .f32
  | .f64 _ => .f64

def ofWidth : Width → ValType
  | .w => .i32
  | .x => .i64

/-- The types a block of this type leaves on the stack. -/
def BlockType.types : BlockType → List ValType
  | .void => []
  | .i32 => [.i32]
  | .i64 => [.i64]

/-- `Typed vars results seq ts us`: in a function with these variables and results the sequence
takes a stack of types `ts` to one of types `us`. -/
inductive Typed (vars results : List ValType) : Seq → List ValType → List ValType → Prop where
  | nil {ts} : Typed vars results .nil ts ts
  | nop {rest ts us} : Typed vars results rest ts us → Typed vars results (.op .nop rest) ts us
  | ret {rest below ts us} : Typed vars results rest ts us →
      Typed vars results (.op .ret rest) (results.reverse ++ below) us
  | get {index rest t ts us} : vars[index.toNat]? = some t →
      Typed vars results rest (t :: ts) us →
      Typed vars results (.op (.localVar .get index) rest) ts us
  | set {index rest t ts us} : vars[index.toNat]? = some t → Typed vars results rest ts us →
      Typed vars results (.op (.localVar .set index) rest) (t :: ts) us
  | tee {index rest t ts us} : vars[index.toNat]? = some t →
      Typed vars results rest (t :: ts) us →
      Typed vars results (.op (.localVar .tee index) rest) (t :: ts) us
  | i32const {value rest ts us} : Typed vars results rest (.i32 :: ts) us →
      Typed vars results (.op (.i32const value) rest) ts us
  | i64const {value rest ts us} : Typed vars results rest (.i64 :: ts) us →
      Typed vars results (.op (.i64const value) rest) ts us
  | compare {width c rest ts us} : Typed vars results rest (.i32 :: ts) us →
      Typed vars results (.op (.compare width c) rest) (ofWidth width :: ofWidth width :: ts) us
  | arith {width a rest ts us} : Typed vars results rest (ofWidth width :: ts) us →
      Typed vars results (.op (.arith width a) rest) (ofWidth width :: ofWidth width :: ts) us
  | div {width signed rest ts us} : Typed vars results rest (ofWidth width :: ts) us →
      Typed vars results (.div width signed rest) (ofWidth width :: ofWidth width :: ts) us
  | ifThen {thn rest ts us} : Typed vars results thn [] [] → Typed vars results rest ts us →
      Typed vars results (.ifThen .void thn rest) (.i32 :: ts) us
  | ifElse {block thn els rest ts us} : Typed vars results thn [] (BlockType.types block) →
      Typed vars results els [] (BlockType.types block) →
      Typed vars results rest (BlockType.types block ++ ts) us →
      Typed vars results (.ifElse block thn els rest) (.i32 :: ts) us

/-- A valid body of a function with these params, locals and results. -/
def Valid (params locals results : List wasm_type) (body : Seq) : Prop :=
  Typed ((params ++ locals).map typeOf) (results.map typeOf) body []
    (results.map typeOf).reverse

/-- The sequence has no `return`, in its arms either. -/
def ReturnFree : Seq → Prop
  | .nil => True
  | .op o rest => o ≠ .ret ∧ ReturnFree rest
  | .div _ _ rest => ReturnFree rest
  | .ifThen _ thn rest => ReturnFree thn ∧ ReturnFree rest
  | .ifElse _ thn els rest => ReturnFree thn ∧ ReturnFree els ∧ ReturnFree rest

end Validation
