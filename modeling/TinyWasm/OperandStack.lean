import TinyWasm.BodyFrame

/-!
# Entries of the operand stack

The entries are read from the top down, eight bytes apart, at the width of their
type; an entry pushed with four bytes has whatever was there before in the other
four. An instruction takes a number of entries from the top and puts one there.
-/

namespace OperandStack

open ArmInstruction ByteMemory ArmMachine BlockEffects CodeItems StructuredRun BodyFrame

/-! ### Values of a width -/

/-- The bits of a value of a width. -/
abbrev Value (width : Width) : Type := BitVec (8 * width.bytes)

theorem bytes_small (width : Width) : 0 < width.bytes ∧ width.bytes ≤ 8 := by
  cases width <;> decide

theorem bits_small (width : Width) : 8 * width.bytes ≤ 64 := by
  cases width <;> decide

/-- A value of a width in a register. -/
theorem setWidth_inj {width : Width} {a b : Value width} :
    a.setWidth 64 = b.setWidth 64 ↔ a = b := by
  have fits := bits_small width
  constructor
  · intro h
    apply BitVec.eq_of_toNat_eq
    have both := congrArg BitVec.toNat h
    rwa [BitVec.toNat_setWidth_of_le fits, BitVec.toNat_setWidth_of_le fits] at both
  · rintro rfl
    rfl

theorem setWidth_setWidth_value {width : Width} (a : Value width) :
    (a.setWidth 64).setWidth (8 * width.bytes) = a := by
  rw [BitVec.setWidth_setWidth_of_le a (bits_small width), BitVec.setWidth_eq]

theorem whole (a : Value .x) : a.setWidth 64 = a := BitVec.setWidth_eq (x := a)

theorem truncate_setWidth (width : Width) (a : Value width) :
    truncate width (a.setWidth 64) = a.setWidth 64 := by
  cases width with
  | w => exact congrArg (BitVec.setWidth 64) (narrow_widen a)
  | x => rfl

theorem load_eq (s : State) (width : Width) (a : BitVec 64) :
    s.load width a = (read (8 * width.bytes) s.mem a width.bytes).setWidth 64 := by
  have fits := bits_small width
  apply BitVec.eq_of_getLsbD_eq
  intro i hi
  rw [State.load, getLsbD_read, BitVec.getLsbD_setWidth, getLsbD_read]
  by_cases low : i < 8 * width.bytes
  · simp [hi, low]
  · simp [low]

/-- A value that was written is read at its width or a smaller one. -/
theorem read_written (mem : Memory 64) (a : BitVec 64) {width other : Width}
    (narrow : other.bytes ≤ width.bytes) (v : BitVec 64) :
    read (8 * other.bytes) (write mem a width.bytes v) a other.bytes = v.setWidth _ := by
  have small := bytes_small width
  apply BitVec.eq_of_getLsbD_eq
  intro i hi
  rw [getLsbD_read_write mem a narrow (by omega), BitVec.getLsbD_setWidth]
  simp [hi]

/-! ### Entries -/

/-- The address of the `m`-th entry from the top. -/
def entryAddr (s : State) (m : Nat) : BitVec 64 := top s - BitVec.ofNat 64 (8 * (m + 1))

/-- The `m`-th entry from the top of the operand stack, read at a width. -/
def operand (s : State) (width : Width) (m : Nat) : Value width :=
  read (8 * width.bytes) s.mem (entryAddr s m) width.bytes

theorem add_sub_right (a b c : BitVec 64) : a + (b - c) = a + b - c := by ring

theorem add_sub_both (a b c : BitVec 64) : a + b - (b + c) = a - c := by ring

/-- The address of an entry when the pointer has moved down by `k` entries. -/
theorem entryAddr_lower {s u : State} {k : Nat} (stack : u.x 20 = s.x 20)
    (pointer : u.x 21 = s.x 21 - BitVec.ofNat 64 (8 * k)) (m : Nat) :
    entryAddr u m = entryAddr s (m + k) := by
  have split : 8 * (m + k + 1) = 8 * k + 8 * (m + 1) := by omega
  rw [entryAddr, entryAddr, top, top, stack, pointer, split, BitVec.ofNat_add, add_sub_right,
    BitVec.sub_sub]

theorem operand_lower {s u : State} {k : Nat} (stack : u.x 20 = s.x 20)
    (pointer : u.x 21 = s.x 21 - BitVec.ofNat 64 (8 * k)) (mem : u.mem = s.mem) (width : Width)
    (m : Nat) : operand u width m = operand s width (m + k) := by
  rw [operand, operand, mem, entryAddr_lower stack pointer]

theorem popped_value (s : State) (width : Width) (r : Reg) :
    (popped s width r).x r = (operand s width 0).setWidth 64 := by
  have address : top (lowered s) = entryAddr s 0 := add_sub_right _ _ _
  change Function.update _ r _ r = _
  rw [Function.update_self, load_eq, address, operand]

theorem popped_regs (s : State) (width : Width) {r : Reg} (h20 : r ≠ 20) (h21 : r ≠ 21) :
    (popped s width r).x 20 = s.x 20 ∧ (popped s width r).x 21 = s.x 21 - 8 := by
  constructor
  · exact (Function.update_of_ne (Ne.symm h20) _ _).trans
      (Function.update_of_ne (show (20 : Reg) ≠ 21 by decide) (s.x 21 - 8) s.x)
  · exact (Function.update_of_ne (Ne.symm h21) _ _).trans (Function.update_self (21 : Reg) _ s.x)

/-- Two entries popped to registers, and nothing stored. -/
structure Popped (t : State) (width : Width) (r q : Reg) (u : State) : Prop where
  upper : u.x r = (operand t width 0).setWidth 64
  under : u.x q = (operand t width 1).setWidth 64
  stack : u.x 20 = t.x 20
  pointer : u.x 21 = t.x 21 - 16
  sp : u.sp = t.sp
  mem : u.mem = t.mem

theorem pop_two (t : State) (width : Width) {r q : Reg} (distinct : r ≠ q)
    (hr : r ≠ 31 ∧ r ≠ 20 ∧ r ≠ 21) (hq : q ≠ 31 ∧ q ≠ 20 ∧ q ≠ 21) :
    Popped t width r q (execAll (popBlock width r ++ popBlock width q) t) := by
  rw [execAll_append, exec_pop width hr.1, exec_pop width hq.1]
  obtain ⟨stack, pointer⟩ := popped_regs t width hr.2.1 hr.2.2
  obtain ⟨stack', pointer'⟩ := popped_regs (popped t width r) width hq.2.1 hq.2.2
  refine ⟨?_, ?_, stack'.trans stack, ?_, rfl, rfl⟩
  · refine Eq.trans ?_ (popped_value t width r)
    exact (Function.update_of_ne distinct _ _).trans (Function.update_of_ne hr.2.2 _ _)
  · rw [popped_value, operand_lower (k := 1) stack pointer rfl]
  · rw [pointer', pointer, BitVec.sub_sub]
    rfl

/-! ### Replacing the top -/

/-- `u` has the value `v` in place of the `k` entries on top of `t`: the entries below them, and
all memory apart from the slot that is written, are as they were. -/
structure Replaces (k : Nat) (width : Width) (v : Value width) (t u : State) : Prop where
  value : operand u width 0 = v
  lower : ∀ (other : Width) (m : Nat), m < 2 ^ 60 →
    operand u other (m + 1) = operand t other (m + k)
  pointer : u.x 21 = t.x 21 - BitVec.ofNat 64 (8 * k) + 8
  stack : u.x 20 = t.x 20
  sp : u.sp = t.sp
  memory : ∀ a n, Apart a n (top t - BitVec.ofNat 64 (8 * k)) 8 → SameOn a n u.mem t.mem

/-- A push behind `k` pops, read at the width pushed or a smaller one. -/
theorem replaces_of_write {k : Nat} {t u : State} {width other : Width}
    (narrow : other.bytes ≤ width.bytes) {v : BitVec 64} (stack : u.x 20 = t.x 20)
    (pointer : u.x 21 = t.x 21 - BitVec.ofNat 64 (8 * k) + 8) (sp : u.sp = t.sp)
    (mem : u.mem = write t.mem (top t - BitVec.ofNat 64 (8 * k)) width.bytes v) :
    Replaces k other (v.setWidth _) t u := by
  have small := bytes_small width
  let slot := top t - BitVec.ofNat 64 (8 * k)
  have raised : top u = slot + 8 := by
    rw [top, stack, pointer, ← BitVec.add_assoc, add_sub_right]
    rfl
  have address : ∀ m, entryAddr u m = slot - BitVec.ofNat 64 (8 * m) := by
    intro m
    rw [entryAddr, raised, Nat.mul_add, Nat.add_comm, BitVec.ofNat_add]
    exact add_sub_both _ _ _
  refine ⟨?_, fun other m far => ?_, pointer, stack, sp, fun a n apart => ?_⟩
  · rw [operand, address, mem]
    exact (congrArg (read _ _ · _) (BitVec.sub_zero _)).trans (read_written _ _ narrow v)
  · have small' := bytes_small other
    have below : entryAddr t (m + k) = slot - BitVec.ofNat 64 (8 * (m + 1)) := by
      rw [entryAddr, show 8 * (m + k + 1) = 8 * k + 8 * (m + 1) by omega, BitVec.ofNat_add,
        ← BitVec.sub_sub]
    rw [operand, operand, address, below, mem]
    refine read_write_apart (by omega) ?_
    have apart := apart_of_offsets (a := slot - BitVec.ofNat 64 (8 * (m + 1))) (d := 0)
      (n := other.bytes) (e := 8 * (m + 1)) (k := width.bytes) (Or.inl (by omega)) (by omega)
    rw [BitVec.sub_add_cancel] at apart
    exact apart.mono (by rw [BitVec.add_zero]; exact within_refl _ _) (within_refl _ _)
  · rw [mem]
    refine write_apart _ _ (apart.mono (within_refl _ _) ?_)
    have within := within_of_offset (a := slot) (d := 0) (n := 8) (k := width.bytes) (by omega)
      (by decide)
    rwa [show slot + BitVec.ofNat 64 0 = slot from BitVec.add_zero _] at within

theorem narrow_truncate {width other : Width} (narrow : other.bytes ≤ width.bytes)
    (v : BitVec 64) : (truncate width v).setWidth (8 * other.bytes) = v.setWidth _ := by
  cases width with
  | w =>
    rw [truncate_w, BitVec.setWidth_setWidth_of_le _ (bits_small other),
      BitVec.setWidth_setWidth_of_le _ (show 8 * other.bytes ≤ 32 by
        have narrow : other.bytes ≤ 4 := narrow
        omega)]
  | x => rfl

/-- A register pushed behind `k` pops. -/
theorem push_replaces {k : Nat} {t u : State} {width other : Width}
    (narrow : other.bytes ≤ width.bytes) {r : Reg} (hr : r ≠ 31) (stack : u.x 20 = t.x 20)
    (pointer : u.x 21 = t.x 21 - BitVec.ofNat 64 (8 * k)) (sp : u.sp = t.sp) (mem : u.mem = t.mem) :
    Replaces k other ((u.x r).setWidth _) t (execAll (pushBlock width r) u) := by
  have address : top u = top t - BitVec.ofNat 64 (8 * k) := by
    rw [top, stack, pointer, add_sub_right, top]
  rw [exec_push width hr, ← narrow_truncate narrow]
  refine replaces_of_write narrow ?_ ?_ sp ?_
  · exact (Function.update_of_ne (show (20 : Reg) ≠ 21 by decide) (u.x 21 + 8) u.x).trans stack
  · exact (Function.update_self (21 : Reg) _ u.x).trans (congrArg (· + 8) pointer)
  · rw [← address, ← mem]
    rfl

/-- A register set and pushed behind `k` pops. -/
theorem set_push_replaces {k : Nat} {t u : State} {width other : Width}
    (narrow : other.bytes ≤ width.bytes) {r : Reg} (hr : r ≠ 31 ∧ r ≠ 20 ∧ r ≠ 21) (v : BitVec 64)
    (stack : u.x 20 = t.x 20) (pointer : u.x 21 = t.x 21 - BitVec.ofNat 64 (8 * k))
    (sp : u.sp = t.sp) (mem : u.mem = t.mem) :
    Replaces k other (v.setWidth _) t
      (execAll (pushBlock width r) { u with x := Function.update u.x r v }) := by
  let w : State := { u with x := Function.update u.x r v }
  have value : w.x r = v := Function.update_self r v u.x
  have replaces := push_replaces (u := w) narrow hr.1
    ((Function.update_of_ne (Ne.symm hr.2.1) v u.x).trans stack)
    ((Function.update_of_ne (Ne.symm hr.2.2) v u.x).trans pointer) sp mem
  rwa [value] at replaces

/-- A variable's value. -/
def valueOf (s : State) (slot : Slot) : Value slot.width :=
  read (8 * slot.width.bytes) s.mem (slotAddr s.sp slot) slot.width.bytes

/-- A variable apart from the slot that is written keeps its value. -/
theorem Replaces.valueOf_eq {k : Nat} {width : Width} {v : Value width} {t u : State}
    (h : Replaces k width v t u) {slot : Slot}
    (apart : Apart (slotAddr t.sp slot) slot.width.bytes (top t - BitVec.ofNat 64 (8 * k)) 8) :
    valueOf u slot = valueOf t slot := by
  have small := bytes_small slot.width
  rw [valueOf, valueOf, h.sp]
  exact read_congr (by omega) (h.memory _ _ apart)

end OperandStack
