import TinyWasm.CodeItems
import TinyWasm.ArmMachine

/-!
# What the blocks do

The effect of each building block on the machine state: pushes and pops of the
operand stack at `x20 + x21`, constants, comparisons and arithmetic in `x11`
and `x12`, and accesses to variables relative to `sp`.
-/

namespace BlockEffects

open BitFields ArmInstruction ByteMemory ArmMachine SourceBody Emit CodeItems Wasm

/-! ### Arithmetic -/

@[simp] theorem addSub_x_add (a b : BitVec 64) : (addSub .x false a b).1 = a + b :=
  BitVec.add_zero (a + b)

theorem not_add_one {k : Nat} (a b : BitVec k) : a + ~~~ b + 1 = a - b := by
  rw [BitVec.add_assoc, BitVec.sub_eq_add_neg, BitVec.neg_eq_not_add]
  rfl

@[simp] theorem addSub_x_sub (a b : BitVec 64) : (addSub .x true a b).1 = a - b :=
  not_add_one a b

@[simp] theorem addSub_w_add (a b : BitVec 64) :
    (addSub .w false a b).1 = (a.setWidth 32 + b.setWidth 32).setWidth 64 :=
  congrArg (BitVec.setWidth 64) (BitVec.add_zero (a.setWidth 32 + b.setWidth 32))

@[simp] theorem addSub_w_sub (a b : BitVec 64) :
    (addSub .w true a b).1 = (a.setWidth 32 - b.setWidth 32).setWidth 64 :=
  congrArg (BitVec.setWidth 64) (not_add_one (a.setWidth 32) (b.setWidth 32))

@[simp] theorem truncate_x (v : BitVec 64) : truncate .x v = v := rfl

@[simp] theorem truncate_w (v : BitVec 64) : truncate .w v = (v.setWidth 32).setWidth 64 := rfl

theorem narrow_widen (v : BitVec 32) : (v.setWidth 64).setWidth 32 = v := by
  rw [BitVec.setWidth_setWidth_of_le v (by decide), BitVec.setWidth_eq]

theorem truncate_truncate (width : Width) (v : BitVec 64) :
    truncate width (truncate width v) = truncate width v := by
  cases width with
  | w => rw [truncate_w, truncate_w, narrow_widen]
  | x => rfl

/-- What a read of a width gives has no more bits than the width. -/
theorem truncate_load (width : Width) (s : State) (a : BitVec 64) :
    truncate width (s.load width a) = s.load width a := by
  cases width with
  | w =>
    apply BitVec.eq_of_getLsbD_eq
    intro i hi
    simp only [truncate_w, BitVec.getLsbD_setWidth, State.load, getLsbD_read, Width.bytes]
    by_cases low : i < 32 <;> simp [low, hi]
  | x => rfl

/-! ### The operand stack -/

/-- The address of the slot the pointer is at. -/
def top (s : State) : BitVec 64 := s.x 20 + s.x 21

/-- The state after a push of a register. -/
def pushed (s : State) (width : Width) (r : Reg) : State :=
  { s with
    mem := write s.mem (top s) width.bytes (truncate width (s.x r))
    x := Function.update s.x 21 (s.x 21 + 8) }

/-- The state after the pointer has moved down. -/
def lowered (s : State) : State := { s with x := Function.update s.x 21 (s.x 21 - 8) }

/-- The state after a pop to a register. -/
def popped (s : State) (width : Width) (r : Reg) : State :=
  { lowered s with
    x := Function.update (lowered s).x r (s.load width (top (lowered s))) }

/-- The state after a read of the top of the stack to a register. -/
def peeked (s : State) (width : Width) (r : Reg) : State :=
  { s with x := Function.update s.x r (s.load width (top (lowered s))) }

theorem reg_of_ne {r : Reg} (hr : r ≠ 31) (s : State) (width : Width) :
    s.reg width r = truncate width (s.x r) := if_neg hr

theorem regSp_of_ne {r : Reg} (hr : r ≠ 31) (s : State) (width : Width) :
    s.regSp width r = truncate width (s.x r) := if_neg hr

theorem setReg_of_ne {r : Reg} (hr : r ≠ 31) (s : State) (width : Width) (v : BitVec 64) :
    s.setReg width r v = { s with x := Function.update s.x r (truncate width v) } := if_neg hr

theorem setRegSp_of_ne {r : Reg} (hr : r ≠ 31) (s : State) (width : Width) (v : BitVec 64) :
    s.setRegSp width r v = { s with x := Function.update s.x r (truncate width v) } := if_neg hr

theorem slot_address (s : State) :
    s.regSp .x 20 + extendValue .lsl (s.reg .x 21) <<< 0 = top s := by
  rw [regSp_of_ne (by decide), reg_of_ne (by decide), extendValue, BitVec.shiftLeft_zero]
  rfl

theorem exec_move (load : Bool) (width : Width) (r : Reg) (s : State) :
    exec (.ldrStrReg load width r 20 21 .lsl false) s = moveOne s load width r (top s) :=
  congrArg (moveOne s load width r) (slot_address s)

theorem exec_pointer (sub : Bool) (s : State) :
    exec (.addSubImm sub false .x 21 21 8 false) s =
      { s with x := Function.update s.x 21 (if sub then s.x 21 - 8 else s.x 21 + 8) } := by
  cases sub with
  | false =>
    change s.setRegSp .x 21 (addSub .x false (s.regSp .x 21) 8).1 = _
    rw [setRegSp_of_ne (by decide), regSp_of_ne (by decide), addSub_x_add]
    rfl
  | true =>
    change s.setRegSp .x 21 (addSub .x true (s.regSp .x 21) 8).1 = _
    rw [setRegSp_of_ne (by decide), regSp_of_ne (by decide), addSub_x_sub]
    rfl

theorem exec_push (width : Width) {r : Reg} (hr : r ≠ 31) (s : State) :
    execAll (pushBlock width r) s = pushed s width r := by
  rw [pushBlock, execAll_cons, execAll_cons, execAll_nil, exec_move, exec_pointer, moveOne,
    if_neg Bool.false_ne_true, reg_of_ne hr]
  rfl

theorem exec_pop (width : Width) {r : Reg} (hr : r ≠ 31) (s : State) :
    execAll (popBlock width r) s = popped s width r := by
  rw [popBlock, execAll_cons, execAll_cons, execAll_nil, exec_move, exec_pointer, moveOne,
    if_pos rfl, setReg_of_ne hr, truncate_load]
  rfl

theorem exec_peek (width : Width) {r : Reg} (hr : r ≠ 31) (apart : r ≠ 21) (s : State) :
    execAll (teeBlock width r) s = peeked s width r := by
  rw [teeBlock, execAll_append, exec_pop width hr, execAll_cons, execAll_nil, exec_pointer]
  have pointer : (popped s width r).x 21 = s.x 21 - 8 :=
    (Function.update_of_ne (Ne.symm apart) _ _).trans (Function.update_self (21 : Reg) _ s.x)
  have back : Function.update (popped s width r).x 21 (s.x 21) =
      Function.update s.x r (s.load width (top (lowered s))) := by
    simp only [popped, lowered]
    rw [Function.update_comm apart, Function.update_idem, Function.update_eq_self]
  simp only [Bool.false_eq_true, if_false, pointer, BitVec.sub_add_cancel, back]
  rfl

/-! ### Constants -/

theorem getLsbD_halfMask (j : Nat) : (0xFFFF : BitVec 64).getLsbD j = decide (j < 16) := by
  by_cases inside : j < 64
  · have all : ∀ j < 64, (0xFFFF : BitVec 64).getLsbD j = decide (j < 16) := by decide
    exact all j inside
  · rw [BitVec.getLsbD_of_ge _ _ (by omega), decide_eq_false (by omega)]

/-- One `movk`: sixteen more bits of the constant are in place. -/
theorem movk_value {w : Nat} (v : BitVec w) (k : Nat) :
    ((v.setWidth (16 * k)).setWidth 64 &&& ~~~ ((0xFFFF : BitVec 64) <<< (16 * k)) |||
      (field (16 * k) 16 v).setWidth 64 <<< (16 * k)) =
        (v.setWidth (16 * (k + 1))).setWidth 64 := by
  apply BitVec.eq_of_getLsbD_eq
  intro i hi
  simp only [field, BitVec.getLsbD_or, BitVec.getLsbD_and, BitVec.getLsbD_not,
    BitVec.getLsbD_shiftLeft, BitVec.getLsbD_setWidth, BitVec.getLsbD_extractLsb', getLsbD_halfMask]
  rcases Nat.lt_or_ge i (16 * k) with before | after
  · have h : i < 16 * (k + 1) := by omega
    simp [before, h, hi]
  · have h : 16 * k + (i - 16 * k) = i := by omega
    by_cases here : i < 16 * (k + 1)
    · have h' : i - 16 * k < 16 := by omega
      have h'' : i - 16 * k < 64 := by omega
      simp [hi, here, Nat.not_lt.mpr after, h', h'', h]
    · have h' : ¬ i - 16 * k < 16 := by omega
      simp [here, h', Nat.not_lt.mpr after]

/-- The smallest constants take one instruction. -/
theorem exec_movz (width : Width) {r : Reg} (hr : r ≠ 31) (value : BitVec 16) (s : State) :
    exec (.movWide .movz width r value 0) s =
      { s with x := Function.update s.x r (truncate width (value.setWidth 64)) } := by
  change s.setReg width r (value.setWidth 64 <<< 0) = _
  rw [setReg_of_ne hr, BitVec.shiftLeft_zero]

/-- The low `n` bits of a constant, in a register. -/
def lowPart {w : Nat} (v : BitVec w) (n : Nat) : BitVec 64 := (v.setWidth n).setWidth 64

theorem truncate_lowPart (width : Width) {w : Nat} (v : BitVec w) {n : Nat}
    (fits : n ≤ 8 * width.bytes) : truncate width (lowPart v n) = lowPart v n := by
  cases width with
  | w =>
    apply BitVec.eq_of_getLsbD_eq
    intro i hi
    simp only [truncate_w, lowPart, BitVec.getLsbD_setWidth]
    have fits : n ≤ 32 := fits
    by_cases low : i < n
    · have h : i < 32 := by omega
      simp [h, hi]
    · simp [low]
  | x => rfl

theorem exec_movzLow (width : Width) {r : Reg} (hr : r ≠ 31) {w : Nat} (v : BitVec w) (s : State) :
    exec (.movWide .movz width r (field 0 16 v) 0) s =
      { s with x := Function.update s.x r (lowPart v 16) } := by
  change s.setReg width r ((field 0 16 v).setWidth 64 <<< 0) = _
  have low : (field 0 16 v).setWidth 64 = lowPart v 16 := by
    apply BitVec.eq_of_getLsbD_eq
    intro i hi
    simp [field, lowPart]
  rw [setReg_of_ne hr, BitVec.shiftLeft_zero, low, truncate_lowPart]
  cases width <;> decide

/-- A `movk` behind the pieces below it. -/
theorem exec_movkNext (width : Width) {r : Reg} (hr : r ≠ 31) {w : Nat} (v : BitVec w)
    (hw : BitVec 2) (fits : 16 * (hw.toNat + 1) ≤ 8 * width.bytes) (s : State) :
    exec (.movWide .movk width r (field (16 * hw.toNat) 16 v) hw)
        { s with x := Function.update s.x r (lowPart v (16 * hw.toNat)) } =
      { s with x := Function.update s.x r (lowPart v (16 * (hw.toNat + 1))) } := by
  have old : truncate width (lowPart v (16 * hw.toNat)) = lowPart v (16 * hw.toNat) :=
    truncate_lowPart width v (by omega)
  change State.setReg _ width r (State.reg _ width r &&&
    ~~~ ((0xFFFF : BitVec 64) <<< (16 * hw.toNat)) |||
    (field (16 * hw.toNat) 16 v).setWidth 64 <<< (16 * hw.toNat)) = _
  rw [setReg_of_ne hr, reg_of_ne hr]
  simp only [Function.update_self, Function.update_idem, old]
  rw [lowPart, movk_value, ← lowPart, truncate_lowPart width v fits]

theorem exec_mov32 {r : Reg} (hr : r ≠ 31) (v : BitVec 32) (s : State) :
    execAll (mov32 r v) s = { s with x := Function.update s.x r (v.setWidth 64) } := by
  have second := exec_movkNext .w hr v 1 (by decide) s
  rw [mov32, execAll_cons, exec_movzLow .w hr, execAll_cons, execAll_nil]
  refine second.trans ?_
  rw [show 16 * ((1 : BitVec 2).toNat + 1) = 32 from rfl, lowPart, BitVec.setWidth_eq]

theorem exec_mov64 {r : Reg} (hr : r ≠ 31) (v : BitVec 64) (s : State) :
    execAll (mov64 r v) s = { s with x := Function.update s.x r v } := by
  have second := exec_movkNext .x hr v 1 (by decide) s
  have third := exec_movkNext .x hr v 2 (by decide) s
  have fourth := exec_movkNext .x hr v 3 (by decide) s
  rw [mov64, execAll_cons, exec_movzLow .x hr, execAll_cons, execAll_cons, execAll_cons,
    execAll_nil]
  refine (congrArg _ ((congrArg _ second).trans third)).trans (fourth.trans ?_)
  rw [show 16 * ((3 : BitVec 2).toNat + 1) = 64 from rfl, lowPart, BitVec.setWidth_eq,
    BitVec.setWidth_eq]

/-! ### Comparing with zero -/

theorem sub_zero_flags {k : Nat} (a : BitVec k) :
    (addWithCarry a (~~~ 0) true).2.z = decide (a = 0) := by
  have same : a + ~~~ (0 : BitVec k) + 1 = a := (not_add_one a 0).trans (BitVec.sub_zero a)
  rw [addWithCarry]
  exact congrArg (fun v => decide (v = 0)) same

theorem exec_cmpZero (width : Width) {r : Reg} (hr : r ≠ 31) (s : State) :
    (exec (cmpZero width r) s).flags.z = decide (truncate width (s.x r) = 0) := by
  cases width with
  | w =>
    change (addWithCarry ((s.regSp .w r).setWidth 32) (~~~ 0) true).2.z = _
    rw [sub_zero_flags, regSp_of_ne hr, truncate_w, narrow_widen]
    congr 1
    rw [eq_iff_iff]
    constructor
    · intro h
      rw [h]
      rfl
    · intro h
      rw [← narrow_widen ((s.x r).setWidth 32), h]
      rfl
  | x =>
    change (addWithCarry (s.regSp .x r) (~~~ 0) true).2.z = _
    rw [sub_zero_flags, regSp_of_ne hr]

theorem cmpZero_keeps (width : Width) (r : Reg) (s : State) :
    (exec (cmpZero width r) s).x = s.x ∧ (exec (cmpZero width r) s).sp = s.sp ∧
      (exec (cmpZero width r) s).mem = s.mem := ⟨rfl, rfl, rfl⟩

theorem holds_eq (f : Flags) : holds 0b0000 f = f.z := by
  simp [holds, BitFields.field]

theorem holds_ne (f : Flags) : holds 0b0001 f = !f.z := by
  simp [holds, BitFields.field]

end BlockEffects
