import TinyWasm.BodySimulation
import TinyWasm.Outcome

/-!
# What blocks mean

The meaning of whole bodies, under rules for what the compiler treats in its own
way: constants, the condition of an `if`, and the operands a division refuses.
The machine follows the meaning under the rules of the compiler, whatever the
body.
-/

namespace BlockSemantics

open HexText ArmInstruction ByteMemory StepRuns ArmMachine BlockEffects SourceBody Emit CodeItems
open StructuredRun BodyFrame OperandStack DivisionRun WasmSemantics BodySimulation

structure Rules where
  constant (width : Width) : Byte → Value width
  /-- An `if` takes its condition off the stack. -/
  takesCondition : Bool
  refuses (signed : Bool) {width : Width} : Value width → Value width → Bool

/-- The rules of WebAssembly. -/
def wasm : Rules where
  constant := immediate
  takesCondition := true
  refuses signed {width} a b :=
    b = 0 ∨ (signed = true ∧ b = -1 ∧ a = BitVec.intMin (8 * width.bytes))

/-- The rules of the compiled code: an immediate is read without a sign, an `if` leaves its
condition behind, and one guard stands in front of both divisions. -/
def compiled : Rules where
  constant _ value := value.setWidth _
  takesCondition := false
  refuses _ {_} a b := Refuses a b

namespace Rules

variable (rules : Rules)

def op : Op → Values → Option Values
  | .i32const value, m => some { m with stack := ⟨.w, rules.constant .w value⟩ :: m.stack }
  | .i64const value, m => some { m with stack := ⟨.x, rules.constant .x value⟩ :: m.stack }
  | o, m => evalOp o m

/-- Whether the condition on top of the stack holds, and the values the arms begin with. -/
def test (m : Values) : Outcome (Bool × Values) :=
  match m.stack with
  | v :: rest =>
    match v.as .w with
    | some c => .done (c ≠ 0, { m with stack := if rules.takesCondition then rest else m.stack })
    | none => .stuck
  | [] => .stuck

def divide (width : Width) (signed : Bool) (m : Values) : Outcome Values :=
  match takeTwo width m.stack with
  | some (a, b, rest) =>
    if rules.refuses signed a b then .trap
    else .done { m with stack := ⟨width, quotientOf signed a b⟩ :: rest }
  | none => .stuck

def eval : Seq → Values → Outcome Values
  | .nil, m => .done m
  | .op o rest, m => (Outcome.ofOption (rules.op o m)).andThen (eval rest)
  | .div width signed rest, m => (rules.divide width signed m).andThen (eval rest)
  | .ifThen _ thn rest, m => (rules.test m).andThen fun (taken, m) =>
    (if taken then eval thn m else .done m).andThen (eval rest)
  | .ifElse _ thn els rest, m => (rules.test m).andThen fun (taken, m) =>
    (if taken then eval thn m else eval els m).andThen (eval rest)

end Rules

/-! ### Straight-line instructions -/

theorem wasm_op (o : Op) (m : Values) : wasm.op o m = evalOp o m := by
  cases o <;> rfl

/-- Below 64 the byte is the value. -/
theorem compiled_op {o : Op} (plain : Op.Plain o) (m : Values) :
    compiled.op o m = evalOp o m := by
  have constant : ∀ {width : Width} {value : Byte}, value.toNat < 64 →
      compiled.constant width value = immediate width value := fun plain =>
    (immediate_eq plain _).symm
  cases o with
  | i32const value =>
    rw [Rules.op, evalOp, constant plain]
  | i64const value =>
    rw [Rules.op, evalOp, constant plain]
  | nop | ret | localVar | compare | arith => rfl

/-- An instruction adds at most one entry for each of its bytes. -/
theorem op_grows {rules : Rules} {o : Op} {m m' : Values} (h : rules.op o m = some m') :
    m'.stack.length ≤ m.stack.length + 1 := by
  cases o with
  | i32const value | i64const value =>
    cases h
    exact Nat.le_refl _
  | nop =>
    cases h
    exact Nat.le_succ _
  | ret => cases h
  | localVar | compare | arith => exact evalOp_grows (by simpa only [Rules.op] using h)

theorem compiled_op_represents {frame : Frame} {m m' : Values} {s : State}
    (h : Represents frame m s) {n : Nat} (spread : Spread frame (s.x 20) s.sp n)
    (room : m.stack.length < n) (few : m.stack.length < 2 ^ 60) {o : Op}
    (runs : compiled.op o m = some m') : Represents frame m' (execAll (opBlock frame o) s) := by
  cases o with
  | i32const value =>
    cases runs
    have replaces : Replaces 0 .w (value.setWidth (8 * Width.w.bytes)) s _ :=
      load_replaces (exec_mov32 (by decide) (value.setWidth 32) s)
    exact h.push replaces spread (Nat.zero_le _) (by omega) few
  | i64const value =>
    cases runs
    have loads := exec_mov64 (r := 11) (by decide) (value.setWidth 64) s
    rw [← whole (value.setWidth 64)] at loads
    exact h.push (load_replaces loads) spread (Nat.zero_le _) (by omega) few
  | nop | ret | localVar | compare | arith =>
    exact op_represents h spread room few trivial runs

/-! ### Walks -/

/-- What a walk comes to. -/
def outcomeOf (w : Walk) : Outcome State := if w.trapped then .trap else .done w.state

theorem outcomeOf_andThen (w : Walk) (next : State → Walk) :
    outcomeOf (w.andThen next) = (outcomeOf w).andThen fun t => outcomeOf (next t) := by
  by_cases trapped : w.trapped = true
  · rw [Walk.andThen, if_pos trapped, outcomeOf, if_pos trapped]
    rfl
  · rw [Walk.andThen, if_neg trapped, outcomeOf, outcomeOf, if_neg trapped]
    rfl

/-- A visit behind a walk does not change what it comes to. -/
theorem outcomeOf_visit (w : Walk) (v : State → Visit) :
    outcomeOf (w.andThen fun u => .once (v u) u) = outcomeOf w := by
  rw [outcomeOf_andThen]
  exact Outcome.andThen_done _

theorem outcomeOf_once (v : Visit) (s : State) : outcomeOf (.once v s) = .done s := rfl

/-- The machine in `u` represents the values, at most `k` of them on the stack, and has kept all
but the work registers since `s`. -/
structure Carries (frame : Frame) (k : Nat) (s : State) (m : Values) (u : State) : Prop where
  represents : Represents frame m u
  keeps : Keeps workRegs s u
  height : m.stack.length ≤ k

section
variable {frame : Frame} {m : Values} {s : State} {n : Nat}

theorem Carries.spread {k : Nat} {u : State} (h : Carries frame k s m u)
    (spread : Spread frame (s.x 20) s.sp n) : Spread frame (u.x 20) u.sp n := by
  rw [h.keeps.x 20 (by decide), h.keeps.sp]
  exact spread

theorem Carries.widen {k l : Nat} {t u : State} (h : Carries frame k t m u)
    (before : Keeps workRegs s t) (more : k ≤ l) : Carries frame l s m u :=
  ⟨h.represents, before.trans h.keeps, h.height.trans more⟩

/-- The test of an `if` leaves the condition on the stack and in `x11`. -/
theorem test_simulates (h : Represents frame m s) :
    Outcome.Simulates (fun taken t => Carries frame m.stack.length s taken.2 t ∧
        (taken.1 = false ↔ (t.x 11).setWidth 32 = 0))
      (compiled.test m) (.done (execAll testBlock s)) := by
  rw [Rules.test]
  split
  · rename_i v rest stack
    cases typed : v.as .w with
    | none => exact Outcome.simulates_stuck _ _
    | some c =>
      let t := peeked s .w 11
      have block : execAll testBlock s = exec (cmpZero .w 11) t := by
        rw [testBlock, execAll_append, exec_peek .w (by decide) (by decide)]
        rfl
      obtain ⟨x, sp, mem⟩ := cmpZero_keeps .w 11 t
      have kept : t.x 20 = s.x 20 ∧ t.x 21 = s.x 21 := ⟨rfl, rfl⟩
      have value : t.x 11 = (operand s .w 0).setWidth 64 := by
        rw [← popped_value s .w 11]
        rfl
      have top : operand s .w 0 = c := h.stack 0 ⟨.w, c⟩ (by rw [stack, as_eq typed]; rfl)
      have lowered := h.of_lower (t := exec (cmpZero .w 11) t) (k := 0)
        (by rw [x]; exact kept.1) sp mem
        (by rw [x]; exact kept.2.trans (BitVec.sub_zero _).symm) (Nat.zero_le _)
      refine Outcome.Matches.simulates (.done ⟨⟨?_, ?_, Nat.le_refl _⟩, ?_⟩)
      · rw [block]
        exact lowered
      · exact keeps_of_uses uses_testBlock s
      · have narrow : BitVec.setWidth 32 (c.setWidth 64) = c := narrow_widen c
        rw [block, x, value, top, narrow, decide_eq_false_iff_not, not_not]
        exact Iff.rfl
  · exact Outcome.simulates_stuck _ _

theorem divWalk_keeps (base : BitVec 64) (width : Width) (signed : Bool) (offset : Nat)
    (height : Int) (p : Nat) (s : State) :
    Keeps workRegs s (divWalk base width signed offset height p s).state := by
  have first := keeps_of_uses (uses_zeroCheck width) s
  have second := first.trans (keeps_of_uses (uses_minusOneCheck width) _)
  have third := second.trans (keeps_of_uses (uses_minimumCheck width) _)
  have last := keeps_of_uses (uses_quotient width signed)
  rw [divWalk]
  split_ifs
  · exact first
  · exact second.trans (last _)
  · exact third.trans (last _)
  · exact third

/-- A division goes on with the quotient, or traps, as the rules say. -/
theorem divide_simulates (h : Represents frame m s) (spread : Spread frame (s.x 20) s.sp n)
    (room : m.stack.length ≤ n) (few : m.stack.length < 2 ^ 60) (base : BitVec 64) (width : Width)
    (signed : Bool) (offset : Nat) (height : Int) (p : Nat) :
    Outcome.Simulates (Carries frame m.stack.length s) (compiled.divide width signed m)
      (outcomeOf (divWalk base width signed offset height p s)) := by
  rw [Rules.divide]
  split
  · rename_i a b rest two
    obtain ⟨dividend, divisor, drop⟩ := h.two two
    have operands := takeTwo_eq two
    obtain ⟨traps, goes⟩ := divWalk_eq base width signed offset height p s
    rw [dividend, divisor] at traps goes
    have refuses : compiled.refuses signed a b = decide (Refuses a b) := rfl
    by_cases refused : Refuses a b
    · rw [refuses, decide_eq_true refused, if_pos rfl, outcomeOf, if_pos (traps.mpr refused)]
      exact Outcome.Matches.simulates .trap
    · have through : ¬ (divWalk base width signed offset height p s).trapped = true :=
        fun trapped => refused (traps.mp trapped)
      rw [refuses, decide_eq_false refused, if_neg Bool.false_ne_true, outcomeOf, if_neg through]
      have enough : 2 ≤ m.stack.length := by
        rw [operands]
        simp
      refine Outcome.Matches.simulates (.done ⟨?_, ?_, ?_⟩)
      · rw [drop]
        exact h.push (goes refused) spread enough (by omega) few
      · exact divWalk_keeps base width signed offset height p s
      · rw [drop, List.length_cons, List.length_drop]
        omega
  · exact Outcome.simulates_stuck _ _

/-! ### Sequences -/

/-- From any state with room for its bytes the machine follows the meaning of the sequence under the
rules of the compiler. -/
def Follows (frame : Frame) (base : BitVec 64) (n : Nat) (seq : Seq) : Prop :=
  ∀ {m : Values} {s : State}, Represents frame m s → Spread frame (s.x 20) s.sp n →
    m.stack.length + seq.bytes.length ≤ n → ∀ offset height p,
      Outcome.Simulates (Carries frame (m.stack.length + seq.bytes.length) s) (compiled.eval seq m)
        (outcomeOf (walk frame base seq offset height p s))

/-- The sequence is followed behind a part that kept the relation. -/
theorem Follows.behind {base : BitVec 64} {seq : Seq} (follows : Follows frame base n seq)
    {k l : Nat} {m' : Values} {t : State} (carries : Carries frame k s m' t)
    (spread : Spread frame (s.x 20) s.sp n) (more : k + seq.bytes.length ≤ l) (room : l ≤ n)
    (offset : Nat) (height : Int) (p : Nat) :
    Outcome.Simulates (Carries frame l s) (compiled.eval seq m')
      (outcomeOf (walk frame base seq offset height p t)) := by
  have low := carries.height
  exact (follows carries.represents (carries.spread spread) (by omega) offset height p).mono
    fun x y done => done.widen carries.keeps (by omega)

section
variable {base : BitVec 64} {thn els rest : Seq} (small : n ≤ 2 ^ 60)
include small

theorem op_follows (o : Op) (follows : Follows frame base n rest) :
    Follows frame base n (.op o rest) := by
  intro m s h spread room offset height p
  have bytes : (Seq.op o rest).bytes.length = o.bytes.length + rest.bytes.length :=
    List.length_append
  have long := o.bytes_pos
  rw [walk, outcomeOf_andThen, outcomeOf_once, Rules.eval]
  refine Outcome.Simulates.andThen (R := Carries frame (m.stack.length + o.bytes.length) s) ?_
    fun x y done => follows.behind done spread (by omega) room _ _ _
  cases runs : compiled.op o m with
  | none => exact Outcome.simulates_stuck _ _
  | some m' =>
    have grown := op_grows runs
    exact Outcome.Matches.simulates (.done ⟨compiled_op_represents h spread (by omega) (by omega)
      runs, keeps_of_uses (uses_opBlock frame o) s, by omega⟩)

theorem div_follows (width : Width) (signed : Bool) (follows : Follows frame base n rest) :
    Follows frame base n (.div width signed rest) := by
  intro m s h spread room offset height p
  have bytes : (Seq.div width signed rest).bytes.length = rest.bytes.length + 1 :=
    List.length_cons ..
  rw [walk, outcomeOf_andThen, Rules.eval]
  exact Outcome.Simulates.andThen
    (divide_simulates h spread (by omega) (by omega) base width signed offset height p)
    fun x y done => follows.behind done spread (by omega) room _ _ _

omit small in
theorem ifThen_follows (block : BlockType) (followsThen : Follows frame base n thn)
    (follows : Follows frame base n rest) : Follows frame base n (.ifThen block thn rest) := by
  intro m s h spread room offset height p
  have bytes : (Seq.ifThen block thn rest).bytes.length =
      thn.bytes.length + rest.bytes.length + 3 := by
    simp only [Seq.bytes, List.length_cons, List.length_append]
    omega
  rw [walk, outcomeOf_andThen, outcomeOf_once, Rules.eval]
  refine Outcome.Simulates.andThen (test_simulates h) ?_
  rintro ⟨taken, m'⟩ t ⟨tested, zero⟩
  rw [outcomeOf_andThen]
  refine Outcome.Simulates.andThen (R := Carries frame (m.stack.length + thn.bytes.length) s) ?_
    fun x y done => follows.behind done spread (by omega) room _ _ _
  cases taken with
  | false =>
    rw [if_pos (zero.mp rfl)]
    exact Outcome.Matches.simulates (.done (tested.widen (.refl _ s) (by omega)))
  | true =>
    rw [if_neg fun none => Bool.false_ne_true (zero.mpr none).symm, outcomeOf_visit]
    exact followsThen.behind tested spread (Nat.le_refl _) (by omega) _ _ _

omit small in
theorem ifElse_follows (block : BlockType) (followsThen : Follows frame base n thn)
    (followsElse : Follows frame base n els) (follows : Follows frame base n rest) :
    Follows frame base n (.ifElse block thn els rest) := by
  intro m s h spread room offset height p
  have bytes : (Seq.ifElse block thn els rest).bytes.length =
      thn.bytes.length + els.bytes.length + rest.bytes.length + 4 := by
    simp only [Seq.bytes, List.length_cons, List.length_append]
    omega
  rw [walk, outcomeOf_andThen, outcomeOf_once, Rules.eval]
  refine Outcome.Simulates.andThen (test_simulates h) ?_
  rintro ⟨taken, m'⟩ t ⟨tested, zero⟩
  rw [outcomeOf_andThen]
  refine Outcome.Simulates.andThen
    (R := Carries frame (m.stack.length + thn.bytes.length + els.bytes.length) s) ?_
    fun x y done => follows.behind done spread (by omega) room _ _ _
  cases taken with
  | false =>
    rw [if_pos (zero.mp rfl), outcomeOf_visit]
    exact followsElse.behind tested spread (by omega) (by omega) _ _ _
  | true =>
    rw [if_neg fun none => Bool.false_ne_true (zero.mpr none).symm, outcomeOf_visit]
    exact followsThen.behind tested spread (by omega) (by omega) _ _ _

/-- The machine follows the meaning of every sequence, as the operand stack grows by at most one
entry for each byte. -/
theorem walk_follows (seq : Seq) : Follows frame base n seq := by
  induction seq with
  | nil =>
    intro m s h spread room offset height p
    exact Outcome.Matches.simulates (.done ⟨h, .refl _ s, Nat.le_refl _⟩)
  | op o rest ih => exact op_follows small o ih
  | div width signed rest ih => exact div_follows small width signed ih
  | ifThen block thn rest ihThn ihRest => exact ifThen_follows block ihThn ihRest
  | ifElse block thn els rest ihThn ihEls ihRest => exact ifElse_follows block ihThn ihEls ihRest

end

end

end BlockSemantics
