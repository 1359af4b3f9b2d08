import TinyWasm.DivisionRun
import TinyWasm.WasmSemantics

/-!
# The machine follows the meaning

The operand stack in memory carries the entries of the stack WebAssembly has, and
the frame the locals, as long as the slots of the frame are apart from each other
and from the operand stack. Each instruction keeps this, so every straight-line
sequence does.
-/

namespace BodySimulation

open BitFields HexText ArmInstruction ByteMemory ArmMachine BlockEffects SourceBody Emit CodeItems
open StructuredRun BodyFrame OperandStack DivisionRun WasmSemantics

/-! ### Conditions -/

/-- The sign of a difference, and whether it overflows, tell which operand is smaller. -/
theorem sign_ne_overflow {k : Nat} (a b : BitVec (k + 1)) :
    (decide ((a - b).toInt < 0) == decide ((a - b).toInt ≠ a.toInt - b.toInt)) =
      !decide (a.toInt < b.toInt) := by
  have even : (2 : Int) ^ (k + 1) = 2 * 2 ^ k := by ring
  have positive : (0 : Int) < 2 ^ k := by positivity
  have lowA := BitVec.le_two_mul_toInt (x := a)
  have highA := BitVec.two_mul_toInt_lt (x := a)
  have lowB := BitVec.le_two_mul_toInt (x := b)
  have highB := BitVec.two_mul_toInt_lt (x := b)
  have remainder : (a.toInt - b.toInt) % 2 ^ (k + 1) =
      if a.toInt < b.toInt then a.toInt - b.toInt + 2 ^ (k + 1) else a.toInt - b.toInt := by
    split_ifs with less
    · rw [← Int.add_emod_right]
      exact Int.emod_eq_of_lt (by omega) (by omega)
    · exact Int.emod_eq_of_lt (by omega) (by omega)
  rw [BitVec.toInt_sub, Int.bmod_def]
  push_cast
  rw [remainder, Bool.eq_iff_iff]
  simp only [beq_iff_eq, Bool.not_eq_true', decide_eq_false_iff_not, decide_eq_decide]
  rw [even] at *
  split_ifs <;> omega

theorem toInt_complement {k : Nat} (b : BitVec (k + 1)) : (~~~ b).toInt = -1 - b.toInt := by
  have even : 2 ^ (k + 1) = 2 * 2 ^ k := by ring
  have := b.isLt
  rw [BitVec.toInt_eq_toNat_cond, BitVec.toInt_eq_toNat_cond, BitVec.toNat_not, even]
  split_ifs <;> omega

/-- What the flags of a subtraction tell about its operands. -/
def flagTest (f : Flags) : Comparison → Bool
  | .eq => f.z
  | .ne => !f.z
  | .lt_s => !(f.n == f.v)
  | .lt_u => !f.c
  | .gt_s => f.n == f.v && !f.z
  | .gt_u => f.c && !f.z
  | .le_s => !(f.n == f.v && !f.z)
  | .le_u => !(f.c && !f.z)
  | .ge_s => f.n == f.v
  | .ge_u => f.c

theorem holds_condOf (c : Comparison) (f : Flags) : holds (condOf c) f = flagTest f c := by
  cases c <;> simp [holds, condOf, BitFields.field, flagTest]

/-- The condition a comparison is compiled to holds for the flags of the subtraction. -/
theorem compare_flags {k : Nat} (c : Comparison) (a b : BitVec (k + 1)) :
    holds (condOf c) (addWithCarry a (~~~ b) true).2 = compareBits c a b := by
  let f := (addWithCarry a (~~~ b) true).2
  have difference : a + ~~~ b + BitVec.ofNat (k + 1) true.toNat = a - b := not_add_one a b
  have zero : f.z = decide (a = b) := sub_flags a b
  have carry : f.c = decide (b.toNat ≤ a.toNat) := by
    change decide (2 ^ (k + 1) ≤ a.toNat + (~~~ b).toNat + 1) = _
    rw [BitVec.toNat_not]
    have := b.isLt
    congr 1
    rw [eq_iff_iff]
    omega
  have sign : (f.n == f.v) = !decide (a.toInt < b.toInt) := by
    have n : f.n = decide ((a - b).toInt < 0) := by
      change (a + ~~~ b + BitVec.ofNat (k + 1) true.toNat).msb = _
      rw [difference, BitVec.msb_eq_toInt]
    have v : f.v = decide ((a - b).toInt ≠ a.toInt - b.toInt) := by
      change decide ((a + ~~~ b + BitVec.ofNat (k + 1) true.toNat).toInt ≠
        a.toInt + (~~~ b).toInt + 1) = _
      rw [difference, toInt_complement]
      congr 2
      omega
    rw [n, v, sign_ne_overflow]
  have same : a = b ↔ a.toNat = b.toNat := BitVec.toNat_inj.symm
  have same' : a = b ↔ a.toInt = b.toInt := BitVec.toInt_inj.symm
  refine (holds_condOf c f).trans ?_
  cases c with
  | eq => exact zero
  | ne =>
    rw [flagTest, zero]
    exact decide_not.symm
  | lt_s | ge_u => simp [flagTest, carry, sign, compareBits]
  | ge_s | lt_u =>
    rw [flagTest, compareBits, Bool.eq_iff_iff]
    simp [carry, sign]
  | gt_s | le_s =>
    rw [flagTest, zero, sign, compareBits, Bool.eq_iff_iff]
    simp [same']
    omega
  | gt_u | le_u =>
    rw [flagTest, zero, carry, compareBits, Bool.eq_iff_iff]
    simp [same]
    omega

/-! ### Comparisons and arithmetic -/

theorem cmp_flags (width : Width) {r q : Reg} (hr : r ≠ 31) (hq : q ≠ 31) {s : State}
    {a b : Value width} (first : s.x r = a.setWidth 64) (second : s.x q = b.setWidth 64) :
    (exec (CodeItems.cmp width r q) s).flags = (addWithCarry a (~~~ b) true).2 := by
  cases width with
  | w =>
    change (addWithCarry ((s.reg .w r).setWidth 32)
      (~~~ (shiftValue .lsl .w (s.reg .w q) 0).setWidth 32) true).2 = _
    rw [reg_of_ne hr, reg_of_ne hq, shiftValue, BitVec.shiftLeft_zero, truncate_truncate, first,
      second, truncate_setWidth, truncate_setWidth]
    exact congrArg₂ (fun a b => (addWithCarry a (~~~ b) true).2) (narrow_widen a) (narrow_widen b)
  | x =>
    change (addWithCarry (s.reg .x r) (~~~ shiftValue .lsl .x (s.reg .x q) 0) true).2 = _
    rw [reg_of_ne hr, reg_of_ne hq, shiftValue, BitVec.shiftLeft_zero, first, second]
    exact congrArg₂ (fun a b => (addWithCarry a (~~~ b) true).2)
      (BitVec.setWidth_eq (x := a)) (BitVec.setWidth_eq (x := b))

theorem exec_csel (cond : BitVec 4) (s : State) :
    exec (.csel .x 0 3 4 cond) s =
      { s with x := Function.update s.x 0 (if holds cond s.flags then s.x 3 else s.x 4) } := by
  change s.setReg .x 0 (if holds cond s.flags then s.reg .x 3 else s.reg .x 4) = _
  rw [setReg_of_ne (by decide), reg_of_ne (by decide), reg_of_ne (by decide)]
  rfl

theorem exec_arith (width : Width) (o : Arith) {s : State} {a b : Value width}
    (first : s.x 12 = a.setWidth 64) (second : s.x 11 = b.setWidth 64) :
    exec (arithInstr width o) s =
      { s with x := Function.update s.x 11 ((arithBits o a b).setWidth 64) } := by
  have reg12 : s.reg width 12 = a.setWidth 64 := by
    rw [reg_of_ne (by decide), first, truncate_setWidth]
  have reg11 : s.reg width 11 = b.setWidth 64 := by
    rw [reg_of_ne (by decide), second, truncate_setWidth]
  have shifted : shiftValue .lsl width (s.reg width 11) 0 = b.setWidth 64 := by
    rw [shiftValue, BitVec.shiftLeft_zero, reg11, truncate_setWidth]
  have result : ∀ v : BitVec 64, truncate width v = (arithBits o a b).setWidth 64 →
      s.setReg width 11 v =
        { s with x := Function.update s.x 11 ((arithBits o a b).setWidth 64) } := by
    intro v hv
    rw [setReg_of_ne (by decide), hv]
  cases o with
  | add =>
    change s.setReg width 11
      (addSub width false (s.reg width 12) (shiftValue .lsl width (s.reg width 11) 0)).1 = _
    rw [reg12, shifted]
    apply result
    cases width with
    | w =>
      rw [addSub_w_add, truncate_w, narrow_widen]
      exact congrArg₂ (fun a b => BitVec.setWidth 64 (a + b)) (narrow_widen a) (narrow_widen b)
    | x =>
      rw [addSub_x_add, whole, whole]
      exact (whole _).symm
  | sub =>
    change s.setReg width 11
      (addSub width true (s.reg width 12) (shiftValue .lsl width (s.reg width 11) 0)).1 = _
    rw [reg12, shifted]
    apply result
    cases width with
    | w =>
      rw [addSub_w_sub, truncate_w, narrow_widen]
      exact congrArg₂ (fun a b => BitVec.setWidth 64 (a - b)) (narrow_widen a) (narrow_widen b)
    | x =>
      rw [addSub_x_sub, whole, whole]
      exact (whole _).symm
  | mul =>
    change s.setReg width 11 (s.reg width 31 + s.reg width 12 * s.reg width 11) = _
    rw [reg12, reg11]
    apply result
    have zero : s.reg width 31 = 0 := if_pos rfl
    rw [zero, show (0 : BitVec 64) + a.setWidth 64 * b.setWidth 64 = a.setWidth 64 * b.setWidth 64
      from BitVec.zero_add _]
    cases width with
    | w =>
      rw [truncate_w, BitVec.setWidth_mul _ _ (by decide)]
      exact congrArg₂ (fun a b => BitVec.setWidth 64 (a * b)) (narrow_widen a) (narrow_widen b)
    | x =>
      rw [truncate_x, whole, whole]
      exact (whole _).symm

/-! ### The relation -/

/-- The pointer counts the entries, the operand stack carries them, and the frame the locals. -/
structure Represents (frame : Frame) (m : Values) (s : State) : Prop where
  pointer : s.x 21 = depth m.stack.length
  stack : ∀ k v, m.stack[k]? = some v → operand s v.width k = v.value
  locals : m.locals = frame.map fun slot => ⟨slot.width, valueOf s slot⟩

/-- The slots of the frame are apart from each other and from the first `n` slots of the operand
stack. -/
structure Spread (frame : Frame) (stack sp : BitVec 64) (n : Nat) : Prop where
  vars : frame.Pairwise fun a b =>
    Apart (slotAddr sp a) a.width.bytes (slotAddr sp b) b.width.bytes
  slots : ∀ slot ∈ frame, ∀ k : Nat, k < n →
    Apart (slotAddr sp slot) slot.width.bytes (stack + depth k) 8

theorem depth_lower {n k : Nat} (enough : k ≤ n) :
    depth (n : Int) - BitVec.ofNat 64 (8 * k) = depth ((n - k : Nat) : Int) := by
  have split : depth (n : Int) = depth ((n - k : Nat) : Int) + BitVec.ofNat 64 (8 * k) := by
    rw [show (n : Int) = ((n - k : Nat) : Int) + (k : Int) by omega, depth_add]
    rw [depth, depth, ← BitVec.ofInt_natCast]
    rfl
  rw [split, BitVec.add_sub_cancel]

/-- The address `k` entries below the top. -/
theorem lower_address {s : State} {n k : Nat} (pointer : s.x 21 = depth n) (enough : k ≤ n) :
    top s - BitVec.ofNat 64 (8 * k) = s.x 20 + depth ((n - k : Nat) : Int) := by
  rw [top, pointer, ← add_sub_right, depth_lower enough]

/-- An instruction that replaces the top of the stack. -/
theorem Represents.push {frame : Frame} {m : Values} {s u : State} (h : Represents frame m s)
    {k : Nat} {width : Width} {v : Value width} (replaces : Replaces k width v s u) {n : Nat}
    (spread : Spread frame (s.x 20) s.sp n) (enough : k ≤ m.stack.length)
    (room : m.stack.length < k + n) (few : m.stack.length < 2 ^ 60) :
    Represents frame { m with stack := ⟨width, v⟩ :: m.stack.drop k } u := by
  refine ⟨?_, fun j w hw => ?_, ?_⟩
  · have count : ((⟨width, v⟩ :: m.stack.drop k : List Val).length : Int) =
        ((m.stack.length - k : Nat) : Int) + 1 := by simp
    rw [replaces.pointer, h.pointer, depth_lower enough, count, depth_add]
    rfl
  · cases j with
    | zero =>
      cases hw
      exact replaces.value
    | succ j =>
      rw [List.getElem?_cons_succ, List.getElem?_drop] at hw
      have inside := (List.getElem?_eq_some_iff.mp hw).1
      rw [replaces.lower _ _ (by omega), Nat.add_comm j k]
      exact h.stack _ _ hw
  · refine h.locals.trans (List.map_congr_left fun slot hs => ?_)
    have address := lower_address h.pointer enough
    rw [replaces.valueOf_eq]
    rw [address]
    exact spread.slots slot hs _ (by omega)

/-- The state after a value is stored to a variable. -/
def assigned (t : State) (slot : Slot) (v : Value slot.width) : State :=
  { t with mem := write t.mem (slotAddr t.sp slot) slot.width.bytes (v.setWidth 64) }

theorem exec_assign {t : State} {slot : Slot} {v : Value slot.width}
    (value : t.x 11 = v.setWidth 64) : exec (storeVar 11 slot) t = assigned t slot v := by
  rw [exec_storeVar, reg_of_ne (by decide), value, truncate_setWidth]
  rfl

theorem valueOf_assigned (t : State) (slot : Slot) (v : Value slot.width) :
    valueOf (assigned t slot v) slot = v :=
  (read_written _ _ (Nat.le_refl _) _).trans (setWidth_setWidth_value v)

theorem valueOf_assigned_of_apart {t : State} {slot other : Slot} (v : Value slot.width)
    (apart : Apart (slotAddr t.sp other) other.width.bytes (slotAddr t.sp slot) slot.width.bytes) :
    valueOf (assigned t slot v) other = valueOf t other := by
  have small := bytes_small other.width
  exact read_write_apart (by omega) apart

theorem Spread.apart {frame : Frame} {stack sp : BitVec 64} {n : Nat}
    (spread : Spread frame stack sp n) {i j : Nat} {slot other : Slot} (hi : frame[i]? = some slot)
    (hj : frame[j]? = some other) (distinct : i ≠ j) :
    Apart (slotAddr sp other) other.width.bytes (slotAddr sp slot) slot.width.bytes := by
  obtain ⟨isSlot, rfl⟩ := List.getElem?_eq_some_iff.mp hi
  obtain ⟨isOther, rfl⟩ := List.getElem?_eq_some_iff.mp hj
  have pairs := List.pairwise_iff_getElem.mp spread.vars
  rcases Nat.lt_or_gt_of_ne distinct with less | more
  · exact (pairs i j isSlot isOther less).symm
  · exact pairs j i isOther isSlot more

/-- An assignment to a variable. -/
theorem Represents.assign {frame : Frame} {m : Values} {t : State} (h : Represents frame m t)
    {i : Nat} {slot : Slot} (here : frame[i]? = some slot) (v : Value slot.width) {n : Nat}
    (spread : Spread frame (t.x 20) t.sp n) (room : m.stack.length ≤ n) :
    Represents frame { m with locals := m.locals.set i ⟨slot.width, v⟩ } (assigned t slot v) := by
  have small := bytes_small slot.width
  refine ⟨h.pointer, fun k w hw => ?_, ?_⟩
  · have inside : k < m.stack.length := (List.getElem?_eq_some_iff.mp hw).1
    have small' := bytes_small w.width
    have address := lower_address h.pointer (show k + 1 ≤ m.stack.length by omega)
    have apart :=
      spread.slots slot (List.mem_of_getElem? here) (m.stack.length - (k + 1)) (by omega)
    rw [← address] at apart
    have within := within_of_offset (a := entryAddr t k) (d := 0) (n := 8) (k := w.width.bytes)
      (by omega) (by decide)
    rw [show entryAddr t k + BitVec.ofNat 64 0 = entryAddr t k from BitVec.add_zero _] at within
    refine Eq.trans ?_ (h.stack k w hw)
    exact read_write_apart (by omega) (apart.symm.mono within (within_refl _ _))
  · apply List.ext_getElem?
    intro j
    rw [List.getElem?_set, List.getElem?_map, h.locals, List.length_map]
    split_ifs with same inside
    · subst same
      rw [here]
      exact congrArg (fun v => some (Val.mk slot.width v)) (valueOf_assigned t slot v).symm
    · subst same
      exact absurd (List.getElem?_eq_some_iff.mp here).1 inside
    · rw [List.getElem?_map]
      cases other : frame[j]? with
      | none => rfl
      | some slot' =>
        exact congrArg (fun v => some (Val.mk slot'.width v))
          (valueOf_assigned_of_apart v (spread.apart here other same)).symm

/-! ### Instructions -/

/-- A value put in `x11` and pushed. -/
theorem load_replaces {block : List Instr} {s : State} {width : Width} {v : Value width}
    (loads : execAll block s = { s with x := Function.update s.x 11 (v.setWidth 64) }) :
    Replaces 0 width v s (execAll (block ++ pushBlock width 11) s) := by
  have replaces := set_push_replaces (Nat.le_refl width.bytes) (show (11 : Reg) ≠ 31 ∧ _ by decide)
    (t := s) (u := s) (k := 0) (v.setWidth 64) rfl (BitVec.sub_zero _).symm rfl rfl
  rw [setWidth_setWidth_value] at replaces
  rw [execAll_append, loads]
  exact replaces

theorem arith_replaces (width : Width) (o : Arith) (s : State) :
    Replaces 2 width (arithBits o (operand s width 1) (operand s width 0)) s
      (execAll (popBlock width 11 ++ popBlock width 12 ++ [arithInstr width o] ++
        pushBlock width 11) s) := by
  have popped := pop_two s width (r := 11) (q := 12) (by decide) (by decide) (by decide)
  have replaces := set_push_replaces (Nat.le_refl width.bytes) (show (11 : Reg) ≠ 31 ∧ _ by decide)
    (k := 2) ((arithBits o (operand s width 1) (operand s width 0)).setWidth 64) popped.stack
    popped.pointer popped.sp popped.mem
  rw [setWidth_setWidth_value] at replaces
  rw [execAll_append, execAll_append, execAll_cons, execAll_nil,
    exec_arith width o popped.under popped.upper]
  exact replaces

/-- A comparison pushes eight bytes, and is read as an `i32`. -/
theorem compare_replaces (width : Width) (c : Comparison) (s : State) :
    Replaces 2 .w (if compareBits c (operand s width 1) (operand s width 0) then 1 else 0) s
      (execAll ([.movWide .movz .x 3 1 0, .movWide .movz .x 4 0 0] ++ popBlock width 12 ++
        popBlock width 11 ++ [CodeItems.cmp width 11 12, .csel .x 0 3 4 (condOf c)] ++
        pushBlock .x 0) s) := by
  let t : State := { s with x := Function.update (Function.update s.x 3 1) 4 0 }
  let u := execAll (popBlock width 12 ++ popBlock width 11) t
  let v := exec (CodeItems.cmp width 11 12) u
  have constants : execAll [.movWide .movz .x 3 1 0, .movWide .movz .x 4 0 0] s = t := by
    rw [execAll_cons, exec_movz .x (by decide), execAll_cons, exec_movz .x (by decide)]
    rfl
  have popped : Popped t width 12 11 u := pop_two t width (by decide) (by decide) (by decide)
  have same : ∀ m, operand t width m = operand s width m := fun m =>
    operand_lower (k := 0) rfl (BitVec.sub_zero _).symm rfl width m
  have three : u.x 3 = 1 ∧ u.x 4 = 0 := by
    have pops : u = BlockEffects.popped (BlockEffects.popped t width 12) width 11 := by
      change execAll _ t = _
      rw [execAll_append, exec_pop width (by decide), exec_pop width (by decide)]
    rw [pops]
    exact ⟨rfl, rfl⟩
  have flags : holds (condOf c) v.flags =
      compareBits c (operand s width 1) (operand s width 0) := by
    rw [cmp_flags width (by decide) (by decide) popped.under popped.upper, same, same]
    cases width <;> exact compare_flags c _ _
  obtain ⟨x, sp, mem⟩ := cmp_keeps width 11 12 u
  let bit : BitVec 64 := if holds (condOf c) v.flags then v.x 3 else v.x 4
  have value : bit.setWidth (8 * Width.w.bytes) =
      if compareBits c (operand s width 1) (operand s width 0) then 1 else 0 := by
    change BitVec.setWidth _ (if holds (condOf c) v.flags then v.x 3 else v.x 4) = _
    rw [flags, x, three.1, three.2]
    split_ifs <;> rfl
  have replaces :=
    set_push_replaces (t := s) (u := v) (show Width.w.bytes ≤ Width.x.bytes by decide)
    (show (0 : Reg) ≠ 31 ∧ _ by decide) (k := 2) bit (by rw [x]; exact popped.stack)
    (by rw [x]; exact popped.pointer) (sp.trans popped.sp) (mem.trans popped.mem)
  rw [value] at replaces
  rw [List.append_assoc _ (popBlock width 12), execAll_append, execAll_append, execAll_append,
    constants, execAll_cons, execAll_cons, execAll_nil, exec_csel]
  exact replaces

/-- The immediates of the constants are below 64, where the byte is the value. -/
def Op.Plain : Op → Prop
  | .i32const value | .i64const value => value.toNat < 64
  | _ => True

instance (o : Op) : Decidable (Op.Plain o) := by
  cases o <;> unfold Op.Plain <;> infer_instance

theorem immediate_eq {value : Byte} (plain : value.toNat < 64) (width : Width) :
    immediate width value = value.setWidth _ := by
  have low : (value.setWidth 7).msb = false := by
    rw [BitVec.msb_eq_decide, BitVec.toNat_setWidth]
    simp
    omega
  rw [immediate, BitVec.signExtend_eq_setWidth_of_msb_false low]
  apply BitVec.eq_of_toNat_eq
  have bits := bytes_small width
  simp only [BitVec.toNat_setWidth]
  have fits : value.toNat < 2 ^ (8 * width.bytes) :=
    value.isLt.trans_le (Nat.pow_le_pow_right (by decide) (by omega))
  rw [Nat.mod_eq_of_lt (a := value.toNat) (b := 2 ^ 7) (by omega)]

theorem Represents.of_lower {frame : Frame} {m : Values} {s t : State} (h : Represents frame m s)
    (stack : t.x 20 = s.x 20) (sp : t.sp = s.sp) (mem : t.mem = s.mem) {k : Nat}
    (pointer : t.x 21 = s.x 21 - BitVec.ofNat 64 (8 * k)) (enough : k ≤ m.stack.length) :
    Represents frame { m with stack := m.stack.drop k } t := by
  refine ⟨?_, fun j v hv => ?_, ?_⟩
  · rw [pointer, h.pointer, depth_lower enough, List.length_drop]
  · rw [List.getElem?_drop] at hv
    rw [operand_lower stack pointer mem, Nat.add_comm]
    exact h.stack _ _ hv
  · refine h.locals.trans (List.map_congr_left fun slot _ => ?_)
    rw [valueOf, valueOf, sp, mem]

/-- The two operands as the machine has them. -/
theorem Represents.two {frame : Frame} {m : Values} {s : State} (h : Represents frame m s)
    {width : Width} {a b : Value width} {rest : List Val}
    (two : takeTwo width m.stack = some (a, b, rest)) :
    operand s width 1 = a ∧ operand s width 0 = b ∧ rest = m.stack.drop 2 := by
  have stack := takeTwo_eq two
  refine ⟨h.stack 1 ⟨width, a⟩ (by rw [stack]; rfl), h.stack 0 ⟨width, b⟩ (by rw [stack]; rfl), ?_⟩
  rw [stack]
  rfl

theorem Represents.slot {frame : Frame} {m : Values} {s : State} (h : Represents frame m s)
    {i : Nat} {v : Val} (here : m.locals[i]? = some v) :
    ∃ slot, frame[i]? = some slot ∧ v = ⟨slot.width, valueOf s slot⟩ := by
  rw [h.locals, List.getElem?_map] at here
  obtain ⟨slot, found, rfl⟩ := Option.map_eq_some_iff.mp here
  exact ⟨slot, found, rfl⟩

/-- The value on top of the stack stored to a variable of its type, from wherever `t` has put it
in `x11`. -/
theorem Represents.store {frame : Frame} {m : Values} {s t : State} (h : Represents frame m s)
    {v : Val} (top : m.stack[0]? = some v) {i : Nat} {slot : Slot} (here : frame[i]? = some slot)
    (typed : v.width = slot.width) (value : t.x 11 = (operand s slot.width 0).setWidth 64) {k : Nat}
    (lowered : Represents frame { m with stack := m.stack.drop k } t) {n : Nat}
    (spread : Spread frame (t.x 20) t.sp n) (room : m.stack.length ≤ n) :
    Represents frame ⟨m.locals.set i v, m.stack.drop k⟩ (exec (storeVar 11 slot) t) := by
  obtain ⟨own, bits⟩ := v
  cases typed
  rw [h.stack 0 _ top] at value
  rw [exec_assign value]
  exact lowered.assign here bits spread (by rw [List.length_drop]; omega)

theorem localVar_represents {frame : Frame} {m m' : Values} {s : State}
    (h : Represents frame m s) {n : Nat} (spread : Spread frame (s.x 20) s.sp n)
    (room : m.stack.length < n) (few : m.stack.length < 2 ^ 60) {opType : LocalOp} {index : Byte}
    (runs : evalOp (.localVar opType index) m = some m') :
    Represents frame m' (execAll (opBlock frame (.localVar opType index)) s) := by
  cases opType with
  | get =>
    rw [evalOp] at runs
    obtain ⟨v, here, runs⟩ := Option.bind_eq_some_iff.mp runs
    cases runs
    obtain ⟨slot, found, rfl⟩ := h.slot here
    have loads : execAll [loadVar 11 slot] s =
        { s with x := Function.update s.x 11 ((valueOf s slot).setWidth 64) } := by
      rw [execAll_cons, execAll_nil, exec_loadVar (by decide), load_eq]
      rfl
    rw [opBlock, found]
    exact h.push (load_replaces loads) spread (Nat.zero_le _) (by omega) few
  | set =>
    rw [evalOp] at runs
    split at runs
    · rename_i v rest old stack here
      split_ifs at runs with typed
      cases runs
      obtain ⟨slot, found, rfl⟩ := h.slot here
      obtain ⟨kept, pointer⟩ := popped_regs s slot.width (show (11 : Reg) ≠ 20 by decide)
        (show (11 : Reg) ≠ 21 by decide)
      have lowered := h.of_lower (t := popped s slot.width 11) (k := 1) kept rfl rfl pointer
        (by rw [stack]; simp)
      have stored := h.store (by rw [stack]; rfl) found typed (popped_value s slot.width 11)
        lowered (by rw [kept]; exact spread) room.le
      rw [opBlock, found]
      simp only [localBlock]
      rw [execAll_append, exec_pop _ (by decide), execAll_cons, execAll_nil]
      rwa [show rest = m.stack.drop 1 by rw [stack]; rfl]
    · cases runs
  | tee =>
    rw [evalOp] at runs
    split at runs
    · rename_i v rest old stack here
      split_ifs at runs with typed
      cases runs
      obtain ⟨slot, found, rfl⟩ := h.slot here
      let t := peeked s slot.width 11
      have value : t.x 11 = (operand s slot.width 0).setWidth 64 := by
        rw [← popped_value s slot.width 11]
        rfl
      have kept : t.x 20 = s.x 20 ∧ t.x 21 = s.x 21 := ⟨rfl, rfl⟩
      have lowered := h.of_lower (t := t) (k := 0) kept.1 rfl rfl
        (kept.2.trans (BitVec.sub_zero _).symm) (Nat.zero_le _)
      have stored := h.store (by rw [stack]; rfl) found typed value lowered
        (by rw [kept.1]; exact spread) room.le
      rw [opBlock, found]
      simp only [localBlock]
      rw [execAll_append, exec_peek _ (by decide) (by decide), execAll_cons, execAll_nil]
      exact stored
    · cases runs

/-- An instruction with a meaning keeps the relation. -/
theorem op_represents {frame : Frame} {m m' : Values} {s : State} (h : Represents frame m s)
    {n : Nat} (spread : Spread frame (s.x 20) s.sp n) (room : m.stack.length < n)
    (few : m.stack.length < 2 ^ 60) {o : Op} (plain : Op.Plain o)
    (runs : evalOp o m = some m') : Represents frame m' (execAll (opBlock frame o) s) := by
  cases o with
  | nop =>
    cases runs
    exact h
  | ret => exact nomatch runs
  | localVar opType index => exact localVar_represents h spread room few runs
  | i32const value =>
    cases runs
    rw [immediate_eq plain]
    have replaces : Replaces 0 .w (value.setWidth (8 * Width.w.bytes)) s _ :=
      load_replaces (exec_mov32 (by decide) (value.setWidth 32) s)
    exact h.push replaces spread (Nat.zero_le _) (by omega) few
  | i64const value =>
    cases runs
    rw [immediate_eq plain]
    have loads := exec_mov64 (r := 11) (by decide) (value.setWidth 64) s
    rw [← whole (value.setWidth 64)] at loads
    exact h.push (load_replaces loads) spread (Nat.zero_le _) (by omega) few
  | compare width c =>
    rw [evalOp] at runs
    obtain ⟨⟨a, b, rest⟩, two, runs⟩ := Option.bind_eq_some_iff.mp runs
    cases runs
    obtain ⟨first, second, drop⟩ := h.two two
    have replaces := compare_replaces width c s
    rw [first, second] at replaces
    rw [drop]
    exact h.push replaces spread (by rw [takeTwo_eq two]; simp) (by omega) few
  | arith width o =>
    rw [evalOp] at runs
    obtain ⟨⟨a, b, rest⟩, two, runs⟩ := Option.bind_eq_some_iff.mp runs
    cases runs
    obtain ⟨first, second, drop⟩ := h.two two
    have replaces := arith_replaces width o s
    rw [first, second] at replaces
    rw [drop]
    exact h.push replaces spread (by rw [takeTwo_eq two]; simp) (by omega) few

/-- A straight-line sequence keeps the relation: by induction, the stack grows by at most one entry
for each instruction. -/
theorem ops_represents {frame : Frame} {ops : List Op} {m m' : Values} {s : State}
    (h : Represents frame m s) {n : Nat} (spread : Spread frame (s.x 20) s.sp n)
    (room : m.stack.length + ops.length ≤ n) (small : n ≤ 2 ^ 60)
    (plain : ∀ o ∈ ops, Op.Plain o) (runs : evalOps ops m = some m') :
    Represents frame m' (execAll (ops.flatMap (opBlock frame)) s) := by
  induction ops generalizing m s with
  | nil =>
    cases runs
    exact h
  | cons o ops ih =>
    obtain ⟨middle, first, later⟩ := Option.bind_eq_some_iff.mp runs
    obtain ⟨plainFirst, plainLater⟩ := List.forall_mem_cons.mp plain
    have grown := evalOp_grows first
    have keeps := keeps_of_uses (uses_opBlock frame o) s
    rw [List.length_cons] at room
    rw [List.flatMap_cons, execAll_append]
    refine ih (op_represents h spread (by omega) (by omega) plainFirst first) ?_ (by omega)
      plainLater later
    rw [keeps.x 20 (by decide), keeps.sp]
    exact spread

end BodySimulation
