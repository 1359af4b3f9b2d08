import TinyWasm.OperandStack

/-!
# What a division does

The two operands are taken from the top of the operand stack. The guard lets
them through to the quotient unless the divisor is zero, or it is minus one and
the dividend the smallest value; the instruction behind the guard is the only
place where the signed and the unsigned division differ.
-/

namespace DivisionRun

open ArmInstruction ByteMemory StepRuns ArmMachine BlockEffects LabelledCode SourceBody Emit
open CodeItems StructuredRun BodyFrame OperandStack

/-! ### Single instructions -/

theorem minusOne_eq (width : Width) : truncate width (-1) = (-1 : Value width).setWidth 64 := by
  cases width <;> decide

theorem minValue_eq (width : Width) :
    truncate width (minValue width) = (BitVec.intMin (8 * width.bytes)).setWidth 64 := by
  cases width <;> decide

theorem exec_movConst (width : Width) {r : Reg} (hr : r ≠ 31) (value : BitVec 64) (s : State) :
    execAll (movConst width r value) s =
      { s with x := Function.update s.x r (truncate width value) } := by
  cases width with
  | w => exact exec_mov32 hr _ s
  | x => exact exec_mov64 hr _ s

theorem sub_flags {k : Nat} (a b : BitVec k) :
    (addWithCarry a (~~~ b) true).2.z = decide (a = b) := by
  have difference : a + ~~~ b + 1 = a - b := not_add_one a b
  rw [addWithCarry]
  refine (congrArg (fun v => decide (v = 0)) difference).trans ?_
  congr 1
  rw [eq_iff_iff]
  constructor
  · intro h
    rw [← BitVec.sub_add_cancel a b, h, show (0 : BitVec k) + b = b from BitVec.zero_add b]
  · rintro rfl
    exact BitVec.sub_self a

theorem exec_cmp (width : Width) {r q : Reg} (hr : r ≠ 31) (hq : q ≠ 31) (s : State) :
    (exec (CodeItems.cmp width r q) s).flags.z =
      decide (truncate width (s.x r) = truncate width (s.x q)) := by
  cases width with
  | w =>
    change (addWithCarry ((s.reg .w r).setWidth 32)
      (~~~ (shiftValue .lsl .w (s.reg .w q) 0).setWidth 32) true).2.z = _
    rw [sub_flags, reg_of_ne hr, reg_of_ne hq, shiftValue, BitVec.shiftLeft_zero,
      truncate_truncate]
    congr 1
    rw [eq_iff_iff]
    constructor
    · intro h
      rw [truncate_w, truncate_w, narrow_widen, narrow_widen] at h
      rw [truncate_w, truncate_w, h]
    · intro h
      rw [h]
  | x =>
    change (addWithCarry (s.reg .x r) (~~~ shiftValue .lsl .x (s.reg .x q) 0) true).2.z = _
    rw [sub_flags, reg_of_ne hr, reg_of_ne hq, shiftValue, BitVec.shiftLeft_zero]
    rfl

theorem cmp_keeps (width : Width) (r q : Reg) (s : State) :
    (exec (CodeItems.cmp width r q) s).x = s.x ∧ (exec (CodeItems.cmp width r q) s).sp = s.sp ∧
      (exec (CodeItems.cmp width r q) s).mem = s.mem := by
  cases width <;> exact ⟨rfl, rfl, rfl⟩

/-- The quotient the instruction gives. -/
def quotientOf (signed : Bool) {width : Width} (a b : Value width) : Value width :=
  if signed then a.sdiv b else a.udiv b

theorem divide_eq (signed : Bool) {width : Width} (a b : Value width) :
    divide signed width (a.setWidth 64) (b.setWidth 64) =
      (quotientOf signed a b).setWidth 64 := by
  cases width with
  | w =>
    have first : BitVec.setWidth 32 (a.setWidth 64) = a := narrow_widen a
    have second : BitVec.setWidth 32 (b.setWidth 64) = b := narrow_widen b
    cases signed with
    | false =>
      change BitVec.setWidth 64 (BitVec.udiv (BitVec.setWidth 32 (a.setWidth 64))
        (BitVec.setWidth 32 (b.setWidth 64))) = _
      rw [first, second]
      rfl
    | true =>
      change BitVec.setWidth 64 (BitVec.sdiv (BitVec.setWidth 32 (a.setWidth 64))
        (BitVec.setWidth 32 (b.setWidth 64))) = _
      rw [first, second]
      rfl
  | x =>
    rw [whole, whole, whole]
    cases signed <;> rfl

/-! ### The checks and the quotient -/

/-- The division traps: the divisor is zero, or it is minus one and the dividend the smallest
value. -/
def Refuses {width : Width} (a b : Value width) : Prop :=
  b = 0 ∨ (b = -1 ∧ a = BitVec.intMin (8 * width.bytes))

instance {width : Width} (a b : Value width) : Decidable (Refuses a b) :=
  inferInstanceAs (Decidable (_ ∨ _))

theorem zeroCheck_popped (t : State) (width : Width) :
    Popped t width 11 12 (execAll (zeroCheck width) t) ∧
      (execAll (zeroCheck width) t).flags.z = decide (operand t width 0 = 0) := by
  have operands := pop_two t width (r := 11) (q := 12) (by decide) (by decide) (by decide)
  let u := execAll (popBlock width 11 ++ popBlock width 12) t
  have whole : execAll (zeroCheck width) t = exec (cmpZero width 11) u := by
    rw [zeroCheck, execAll_append]
    rfl
  obtain ⟨x, sp, mem⟩ := cmpZero_keeps width 11 u
  obtain ⟨divisor, dividend, stack, pointer, sp', mem'⟩ := operands
  rw [whole]
  refine ⟨⟨by rw [x]; exact divisor, by rw [x]; exact dividend, by rw [x]; exact stack,
    by rw [x]; exact pointer, sp.trans sp', mem.trans mem'⟩, ?_⟩
  have value : u.x 11 = (operand t width 0).setWidth 64 := divisor
  rw [exec_cmpZero width (by decide), value, truncate_setWidth]
  congr 1
  rw [eq_iff_iff, ← setWidth_inj (b := (0 : Value width))]
  simp

/-- A comparison of an operand with a constant. -/
theorem check_popped {t u : State} {width : Width} (popped : Popped t width 11 12 u) {r : Reg}
    (known : r = 11 ∨ r = 12) (value : BitVec 64) :
    Popped t width 11 12 (execAll (movConst width 5 value ++ [CodeItems.cmp width r 5]) u) ∧
      (execAll (movConst width 5 value ++ [CodeItems.cmp width r 5]) u).flags.z =
        decide (truncate width (u.x r) = truncate width value) := by
  have apart : r ≠ 5 ∧ r ≠ 31 := by
    rcases known with rfl | rfl <;> exact ⟨by decide, by decide⟩
  obtain ⟨x, sp, mem⟩ := cmp_keeps width r 5
    { u with x := Function.update u.x 5 (truncate width value) }
  have others : ∀ q : Reg, q ≠ 5 →
      (execAll (movConst width 5 value ++ [CodeItems.cmp width r 5]) u).x q = u.x q := by
    intro q hq
    rw [execAll_append, exec_movConst width (by decide), execAll_cons, execAll_nil, x]
    exact Function.update_of_ne hq _ _
  refine ⟨⟨(others 11 (by decide)).trans popped.upper, (others 12 (by decide)).trans popped.under,
    (others 20 (by decide)).trans popped.stack, (others 21 (by decide)).trans popped.pointer,
    ?_, ?_⟩, ?_⟩
  · rw [execAll_append, exec_movConst width (by decide), execAll_cons, execAll_nil, sp]
    exact popped.sp
  · rw [execAll_append, exec_movConst width (by decide), execAll_cons, execAll_nil, mem]
    exact popped.mem
  · rw [execAll_append, exec_movConst width (by decide), execAll_cons, execAll_nil,
      exec_cmp width apart.2 (by decide)]
    simp only [Function.update_self, Function.update_of_ne apart.1, truncate_truncate]

theorem quotient_replaced {t u : State} {width : Width} (popped : Popped t width 11 12 u)
    (signed : Bool) :
    Replaces 2 width (quotientOf signed (operand t width 1) (operand t width 0)) t
      (execAll (quotient width signed) u) := by
  let q : Value width := quotientOf signed (operand t width 1) (operand t width 0)
  have divided : exec (.div signed width 11 12 11) u =
      { u with x := Function.update u.x 11 (q.setWidth 64) } := by
    change u.setReg width 11 (divide signed width (u.reg width 12) (u.reg width 11)) = _
    rw [setReg_of_ne (by decide), reg_of_ne (by decide), reg_of_ne (by decide), popped.under,
      popped.upper, truncate_setWidth, truncate_setWidth, divide_eq, truncate_setWidth]
  have replaces := set_push_replaces (Nat.le_refl width.bytes) (show (11 : Reg) ≠ 31 ∧ _ by decide)
    (k := 2) (q.setWidth 64) popped.stack popped.pointer popped.sp popped.mem
  rw [setWidth_setWidth_value] at replaces
  rw [quotient, execAll_cons, divided]
  exact replaces

/-- What the flags of a division's three checks say about its operands. -/
theorem check_flags (width : Width) (t : State) :
    ((execAll (zeroCheck width) t).flags.z = true ↔ operand t width 0 = 0) ∧
      ((execAll (minusOneCheck width) (execAll (zeroCheck width) t)).flags.z = true ↔
        operand t width 0 = -1) ∧
      ((execAll (minimumCheck width) (execAll (minusOneCheck width)
        (execAll (zeroCheck width) t))).flags.z = true ↔
        operand t width 1 = BitVec.intMin (8 * width.bytes)) := by
  obtain ⟨popped₁, zero⟩ := zeroCheck_popped t width
  obtain ⟨popped₂, minusOne⟩ := check_popped popped₁ (Or.inl rfl) (-1)
  obtain ⟨-, minimum⟩ := check_popped popped₂ (Or.inr rfl) (minValue width)
  refine ⟨by rw [zero, decide_eq_true_iff], ?_, ?_⟩
  · refine (Bool.eq_iff_iff.mp minusOne).trans ?_
    rw [decide_eq_true_iff, popped₁.upper, truncate_setWidth, minusOne_eq, setWidth_inj]
  · refine (Bool.eq_iff_iff.mp minimum).trans ?_
    rw [decide_eq_true_iff, popped₂.under, truncate_setWidth, minValue_eq, setWidth_inj]

/-- A division traps exactly on the operands it refuses, whether it is signed or not. -/
theorem divWalk_eq (base : BitVec 64) (width : Width) (signed : Bool) (offset : Nat) (height : Int)
    (p : Nat) (t : State) :
    ((divWalk base width signed offset height p t).trapped = true ↔
      Refuses (operand t width 1) (operand t width 0)) ∧
      (¬ Refuses (operand t width 1) (operand t width 0) →
        Replaces 2 width (quotientOf signed (operand t width 1) (operand t width 0)) t
          (divWalk base width signed offset height p t).state) := by
  obtain ⟨popped₁, -⟩ := zeroCheck_popped t width
  obtain ⟨popped₂, -⟩ := check_popped popped₁ (Or.inl rfl) (-1)
  obtain ⟨popped₃, -⟩ := check_popped popped₂ (Or.inr rfl) (minValue width)
  have last₂ := quotient_replaced popped₂ signed
  have last₃ := quotient_replaced popped₃ signed
  obtain ⟨zero, one, smallest⟩ := check_flags width t
  have through : ∀ {v : Visit} {u : State},
      ¬ Refuses (operand t width 1) (operand t width 0) →
      Replaces 2 width (quotientOf signed (operand t width 1) (operand t width 0)) t u →
      ((Walk.once v u).trapped = true ↔ Refuses (operand t width 1) (operand t width 0)) ∧
        (¬ Refuses (operand t width 1) (operand t width 0) →
          Replaces 2 width (quotientOf signed (operand t width 1) (operand t width 0)) t
            (Walk.once v u).state) :=
    fun fine replaced => ⟨iff_of_false Bool.false_ne_true fine, fun _ => replaced⟩
  rw [divWalk]
  split_ifs with divisor other large
  · have refused : Refuses (operand t width 1) (operand t width 0) := Or.inl (zero.mp divisor)
    exact ⟨iff_of_true rfl refused, fun fine => absurd refused fine⟩
  · refine through ?_ last₂
    rintro (none | ⟨minus, -⟩)
    · exact divisor (zero.mpr none)
    · rw [one.mpr minus] at other
      cases other
  · refine through ?_ last₃
    rintro (none | ⟨-, least⟩)
    · exact divisor (zero.mpr none)
    · rw [smallest.mpr least] at large
      cases large
  · simp only [Bool.not_eq_true', Bool.not_eq_false] at other large
    have refused : Refuses (operand t width 1) (operand t width 0) :=
      Or.inr ⟨one.mp other, smallest.mp large⟩
    exact ⟨iff_of_true rfl refused, fun fine => absurd refused fine⟩

end DivisionRun
