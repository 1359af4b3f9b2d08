import TinyWasm.StructuredRun

/-!
# What a body leaves alone

A body moves the operand-stack pointer `x21` by eight bytes for each push and
pop, stores at the pushed slots and to variables, and keeps every register but
its work registers. The slots it may push to are bounded along all its paths.
-/

namespace BodyFrame

open ArmInstruction ByteMemory ArmMachine BlockEffects LabelledCode
open SourceBody Emit CodeItems StructuredRun

/-! ### The pointer -/

/-- `d` slots of the operand stack in bytes. -/
def depth (d : Int) : BitVec 64 := BitVec.ofInt 64 (8 * d)

@[simp] theorem depth_zero : depth 0 = 0 := rfl

theorem depth_add (d e : Int) : depth (d + e) = depth d + depth e := by
  rw [depth, Int.mul_add, BitVec.ofInt_add]
  rfl

theorem sub_eight (a : BitVec 64) : a - 8 = a + depth (-1) := BitVec.sub_eq_add_neg a 8

/-- The block moves the pointer by `d` slots. -/
def Moves (d : Int) (block : List Instr) : Prop :=
  ∀ s, (execAll block s).x 21 = s.x 21 + depth d

theorem Moves.append {d e : Int} {first second : List Instr} (h : Moves d first)
    (h' : Moves e second) : Moves (d + e) (first ++ second) := by
  intro s
  rw [execAll_append, h' _, h s, BitVec.add_assoc, ← depth_add]

theorem Moves.count {d e : Int} {block : List Instr} (h : Moves d block) (same : d = e) :
    Moves e block := same ▸ h

theorem moves_of_writes {block : List Instr} (h : ∀ i ∈ block, (21 : Reg) ∉ writes i) :
    Moves 0 block := by
  intro s
  refine Eq.trans ?_ (BitVec.add_zero _).symm
  induction block generalizing s with
  | nil => rfl
  | cons i block ih =>
    rw [execAll_cons, ih (fun j hj => h j (List.mem_cons_of_mem _ hj)), exec_x (h i (by simp))]

theorem moves_push (width : Width) {r : Reg} (hr : r ≠ 31) : Moves 1 (pushBlock width r) := by
  intro s
  rw [exec_push width hr]
  exact Function.update_self (21 : Reg) _ s.x

theorem moves_pop (width : Width) {r : Reg} (hr : r ≠ 31) (apart : r ≠ 21) :
    Moves (-1) (popBlock width r) := by
  intro s
  rw [exec_pop width hr, ← sub_eight]
  exact (Function.update_of_ne (Ne.symm apart) _ _).trans (Function.update_self (21 : Reg) _ s.x)

theorem moves_tee (width : Width) {r : Reg} (hr : r ≠ 31) (apart : r ≠ 21) :
    Moves 0 (teeBlock width r) := by
  intro s
  rw [exec_peek width hr apart]
  exact (Function.update_of_ne (Ne.symm apart) _ _).trans (BitVec.add_zero _).symm

theorem moves_mov32 {r : Reg} (apart : r ≠ 21) (value : BitVec 32) :
    Moves 0 (mov32 r value) := by
  refine moves_of_writes fun i hi => ?_
  simp only [mov32, List.mem_cons, List.not_mem_nil, or_false] at hi
  rcases hi with rfl | rfl <;> simpa [writes] using Ne.symm apart

theorem moves_mov64 {r : Reg} (apart : r ≠ 21) (value : BitVec 64) :
    Moves 0 (mov64 r value) := by
  refine moves_of_writes fun i hi => ?_
  simp only [mov64, List.mem_cons, List.not_mem_nil, or_false] at hi
  rcases hi with rfl | rfl | rfl | rfl <;> simpa [writes] using Ne.symm apart

theorem moves_movConst (width : Width) {r : Reg} (apart : r ≠ 21) (value : BitVec 64) :
    Moves 0 (movConst width r value) := by
  cases width with
  | w => exact moves_mov32 apart _
  | x => exact moves_mov64 apart _

theorem moves_one {i : Instr} (h : (21 : Reg) ∉ writes i) : Moves 0 [i] :=
  moves_of_writes fun j hj => by rwa [List.mem_singleton.mp hj]

theorem moves_compare (width : Width) (c : Comparison) :
    Moves (-2) ([.movWide .movz .x 3 1 0, .movWide .movz .x 4 0 0] ++ popBlock width 12 ++
      popBlock width 11 ++ [CodeItems.cmp width 11 12, .csel .x 0 3 4 (condOf c)]) := by
  have zeroOne : Moves 0 [.movWide .movz .x 3 1 0, .movWide .movz .x 4 0 0] :=
    moves_of_writes fun i hi => by
      simp only [List.mem_cons, List.not_mem_nil, or_false] at hi
      rcases hi with rfl | rfl <;> simp [writes]
  have select : Moves 0 [CodeItems.cmp width 11 12, .csel .x 0 3 4 (condOf c)] :=
    moves_of_writes fun i hi => by
      simp only [List.mem_cons, List.not_mem_nil, or_false] at hi
      rcases hi with rfl | rfl <;> simp [CodeItems.cmp, writes]
  exact (((zeroOne.append (moves_pop width (by decide) (by decide))).append
    (moves_pop width (by decide) (by decide))).append select).count rfl

theorem moves_arith (width : Width) (a : Arith) :
    Moves (-2) (popBlock width 11 ++ popBlock width 12 ++ [arithInstr width a]) := by
  have operation : Moves 0 [arithInstr width a] :=
    moves_one (by cases a <;> simp [arithInstr, writes])
  exact (((moves_pop width (by decide) (by decide)).append
    (moves_pop width (by decide) (by decide))).append operation).count rfl

theorem moves_op {frame : Frame} {o : Op} (uses : o.UsesBelow frame.length) :
    Moves (Op.effect o) (opBlock frame o) := by
  have pop := fun width => moves_pop width (r := 11) (by decide) (by decide)
  have push := fun width => moves_push width (r := 11) (by decide)
  cases o with
  | nop => exact moves_one (by simp [writes])
  | ret => exact moves_of_writes fun i hi => absurd hi List.not_mem_nil
  | localVar opType index =>
    have inside : index.toNat < frame.length := uses
    rw [opBlock, List.getElem?_eq_getElem inside]
    have load : Moves 0 [loadVar 11 frame[index.toNat]] := moves_one (by simp [loadVar, writes])
    have store : Moves 0 [storeVar 11 frame[index.toNat]] := moves_one (by simp [storeVar, writes])
    cases opType with
    | get => exact (load.append (push _)).count rfl
    | set => exact ((pop _).append store).count rfl
    | tee => exact ((moves_tee _ (by decide) (by decide)).append store).count rfl
  | i32const value =>
    exact ((moves_mov32 (by decide) (value.setWidth 32)).append (push _)).count rfl
  | i64const value =>
    exact ((moves_mov64 (by decide) (value.setWidth 64)).append (push _)).count rfl
  | compare width c =>
    exact ((moves_compare width c).append (moves_push .x (by decide))).count rfl
  | arith width a => exact ((moves_arith width a).append (push width)).count rfl

/-! ### Memory -/

/-- The instruction ends with a push. -/
def Op.pushes : Op → Bool
  | .nop | .ret | .localVar .set _ | .localVar .tee _ => false
  | .localVar .get _ | .i32const _ | .i64const _ | .compare _ _ | .arith _ _ => true

/-- The address of a variable. -/
def slotAddr (sp : BitVec 64) (slot : Slot) : BitVec 64 := sp + BitVec.ofNat 64 slot.offset

theorem exec_storeVar (r : Reg) (slot : Slot) (s : State) :
    exec (storeVar r slot) s =
      { s with
        mem := write s.mem (slotAddr s.sp slot) slot.width.bytes (s.reg slot.width r) } := by
  change s.store slot.width (s.regSp .x 31 + BitVec.ofInt 64 slot.offset) (s.reg slot.width r) = _
  rw [BitVec.ofInt_natCast]
  rfl

theorem exec_loadVar {r : Reg} (hr : r ≠ 31) (slot : Slot) (s : State) :
    exec (loadVar r slot) s =
      { s with x := Function.update s.x r (s.load slot.width (slotAddr s.sp slot)) } := by
  change s.setReg slot.width r
    (s.load slot.width (s.regSp .x 31 + BitVec.ofInt 64 slot.offset)) = _
  rw [setReg_of_ne hr, truncate_load, BitVec.ofInt_natCast]
  rfl

/-- Behind a block that stores nothing, a push writes one slot. -/
theorem push_memory {block : List Instr} {d : Int} (quiet : ∀ i ∈ block, isStore i = false)
    (moves : Moves d block) (uses : Uses workRegs block) (width : Width) {r : Reg} (hr : r ≠ 31)
    (s : State) :
    ∃ v : BitVec 64, (execAll (block ++ pushBlock width r) s).mem =
      write s.mem (s.x 20 + (s.x 21 + depth d)) width.bytes v := by
  have kept := (keeps_of_uses uses s).x 20 (by decide)
  refine ⟨truncate width ((execAll block s).x r), ?_⟩
  rw [execAll_append, exec_push width hr, pushed, top, execAll_mem quiet, kept, moves s]

theorem store_memory {block : List Instr} (quiet : ∀ i ∈ block, isStore i = false)
    (uses : Uses workRegs block) (slot : Slot) (s : State) :
    ∃ v : BitVec 64, (execAll (block ++ [storeVar 11 slot]) s).mem =
      write s.mem (slotAddr s.sp slot) slot.width.bytes v := by
  refine ⟨(execAll block s).reg slot.width 11, ?_⟩
  rw [execAll_append, execAll_cons, execAll_nil, exec_storeVar, execAll_mem quiet,
    (keeps_of_uses uses s).sp]

theorem quiet_append {first second : List Instr} (h : ∀ i ∈ first, isStore i = false)
    (h' : ∀ i ∈ second, isStore i = false) : ∀ i ∈ first ++ second, isStore i = false := by
  intro i hi
  rcases List.mem_append.mp hi with hi | hi
  · exact h i hi
  · exact h' i hi

theorem quiet_pop (width : Width) (r : Reg) : ∀ i ∈ popBlock width r, isStore i = false := by
  simp [popBlock, isStore]

theorem quiet_tee (width : Width) (r : Reg) : ∀ i ∈ teeBlock width r, isStore i = false := by
  simp [teeBlock, popBlock, isStore]

theorem quiet_movConst (width : Width) (r : Reg) (value : BitVec 64) :
    ∀ i ∈ movConst width r value, isStore i = false := by
  cases width <;> simp [movConst, mov32, mov64, isStore]

/-- One instruction writes at most its pushed slot, or its variable. -/
theorem op_memory {frame : Frame} {o : Op} (uses : o.UsesBelow frame.length) (s : State) :
    (Op.pushes o = true ∧ ∃ (width : Width) (v : BitVec 64), (execAll (opBlock frame o) s).mem =
        write s.mem (s.x 20 + (s.x 21 + depth (Op.effect o - 1))) width.bytes v) ∨
      (∃ slot ∈ frame, ∃ v : BitVec 64, (execAll (opBlock frame o) s).mem =
        write s.mem (slotAddr s.sp slot) slot.width.bytes v) ∨
      (execAll (opBlock frame o) s).mem = s.mem := by
  have mem11 : (11 : Reg) ∈ workRegs := by decide
  have mem12 : (12 : Reg) ∈ workRegs := by decide
  have pop := fun width => moves_pop width (r := 11) (by decide) (by decide)
  have pop' := fun width => moves_pop width (r := 12) (by decide) (by decide)
  cases o with
  | nop => exact Or.inr (Or.inr rfl)
  | ret => exact Or.inr (Or.inr rfl)
  | localVar opType index =>
    have inside : index.toNat < frame.length := uses
    rw [opBlock, List.getElem?_eq_getElem inside]
    have slot := List.getElem_mem inside
    cases opType with
    | get =>
      have load : Uses workRegs [loadVar 11 frame[index.toNat]] :=
        uses_one rfl (by simp [loadVar, movesSp]) (by simp [loadVar, writes, workRegs])
      obtain ⟨v, h⟩ := push_memory (show ∀ i ∈ [loadVar 11 frame[index.toNat]],
        isStore i = false by simp [loadVar, isStore]) (moves_one (by simp [loadVar, writes])) load
        frame[index.toNat].width (r := 11) (by decide) s
      exact Or.inl ⟨rfl, _, v, h⟩
    | set =>
      exact Or.inr (Or.inl ⟨_, slot, store_memory (quiet_pop _ _) (uses_pop _ mem11) _ s⟩)
    | tee =>
      exact Or.inr (Or.inl ⟨_, slot, store_memory (quiet_tee _ _) (uses_tee _ mem11) _ s⟩)
  | i32const value =>
    obtain ⟨v, h⟩ := push_memory (by simp [mov32, isStore])
      (moves_mov32 (by decide) (value.setWidth 32)) (uses_mov32 mem11 _) .w (r := 11)
      (by decide) s
    exact Or.inl ⟨rfl, _, v, h⟩
  | i64const value =>
    obtain ⟨v, h⟩ := push_memory (by simp [mov64, isStore])
      (moves_mov64 (by decide) (value.setWidth 64)) (uses_mov64 mem11 _) .x (r := 11)
      (by decide) s
    exact Or.inl ⟨rfl, _, v, h⟩
  | compare width c =>
    obtain ⟨v, h⟩ := push_memory
      (quiet_append (quiet_append (quiet_append (by simp [isStore]) (quiet_pop width 12))
        (quiet_pop width 11)) (by simp [CodeItems.cmp, isStore]))
      (moves_compare width c) (uses_compare width c) .x (r := 0) (by decide) s
    exact Or.inl ⟨rfl, _, v, h⟩
  | arith width a =>
    obtain ⟨v, h⟩ := push_memory
      (quiet_append (quiet_append (quiet_pop width 11) (quiet_pop width 12))
        (by cases a <;> simp [arithInstr, isStore]))
      (moves_arith width a) (uses_arith width a) width (r := 11) (by decide) s
    exact Or.inl ⟨rfl, _, v, h⟩

/-! ### A whole body -/

/-- Every slot the sequence pushes to, from height `h` on along any of its paths, is one of
`lo, …, hi - 1`, and every height it ends at satisfies `post`. -/
def StoresIn (lo hi : Int) : Seq → Int → (Int → Prop) → Prop
  | .nil, h, post => post h
  | .op o rest, h, post =>
    (Op.pushes o = true → lo ≤ h + Op.effect o - 1 ∧ h + Op.effect o - 1 < hi) ∧
      StoresIn lo hi rest (h + Op.effect o) post
  | .div _ _ rest, h, post => (lo ≤ h - 2 ∧ h - 2 < hi) ∧ StoresIn lo hi rest (h - 1) post
  | .ifThen _ thn rest, h, post =>
    StoresIn lo hi rest h post ∧ StoresIn lo hi thn h fun k => StoresIn lo hi rest k post
  | .ifElse _ thn els rest, h, post =>
    (StoresIn lo hi thn h fun k => StoresIn lo hi rest k post) ∧
      StoresIn lo hi els h fun k => StoresIn lo hi rest k post

/-- The `n` bytes from `a` on are apart from the slots and the variables. -/
structure Room (a : BitVec 64) (n : Nat) (stack sp : BitVec 64) (lo hi : Int) (frame : Frame) :
    Prop where
  slots : ∀ k, lo ≤ k → k < hi → ∀ width : Width, Apart a n (stack + depth k) width.bytes
  vars : ∀ slot ∈ frame, Apart a n (slotAddr sp slot) slot.width.bytes

/-- The walk keeps all but the work registers, all the way, and the `n` bytes from `a` on. -/
structure Kept (a : BitVec 64) (n : Nat) (s : State) (w : Walk) : Prop where
  keeps : Keeps workRegs s w.state
  trace : ∀ c ∈ w.trace, Keeps workRegs s c.state
  mem : SameOn a n w.state.mem s.mem

theorem kept_nil (a : BitVec 64) (n : Nat) (s : State) : Kept a n s ⟨[], false, s⟩ :=
  ⟨.refl _ s, by simp [Walk.trace], .refl a n _⟩

theorem Walk.trace_andThen {w : Walk} (through : w.trapped = false) (next : State → Walk) :
    (w.andThen next).trace = w.trace ++ (next w.state).trace ∧
      (w.andThen next).state = (next w.state).state ∧
      (w.andThen next).trapped = (next w.state).trapped := by
  rw [Walk.andThen, if_neg (by simp [through])]
  exact ⟨List.flatMap_append, rfl, rfl⟩

theorem Walk.andThen_through {w : Walk} {next : State → Walk} (first : w.trapped = false)
    (second : (next w.state).trapped = false) : (w.andThen next).trapped = false :=
  (Walk.trace_andThen first next).2.2.trans second

/-- Only a division traps. -/
theorem walk_through (frame : Frame) (base : BitVec 64) {seq : Seq} (none : seq.divisions = 0)
    (offset : Nat) (height : Int) (p : Nat) (s : State) :
    (walk frame base seq offset height p s).trapped = false := by
  induction seq generalizing offset height p s with
  | nil => rfl
  | op o rest ih => exact Walk.andThen_through rfl (ih none _ _ _ _)
  | div width signed rest ih =>
    rw [Seq.divisions] at none
    omega
  | ifThen block thn rest ihThn ihRest =>
    obtain ⟨noneThn, noneRest⟩ := Nat.add_eq_zero_iff.mp none
    refine Walk.andThen_through rfl (Walk.andThen_through ?_ (ihRest noneRest _ _ _ _))
    split_ifs
    · rfl
    · exact Walk.andThen_through (ihThn noneThn _ _ _ _) rfl
  | ifElse block thn els rest ihThn ihEls ihRest =>
    obtain ⟨noneArms, noneRest⟩ := Nat.add_eq_zero_iff.mp none
    obtain ⟨noneThn, noneEls⟩ := Nat.add_eq_zero_iff.mp noneArms
    refine Walk.andThen_through rfl (Walk.andThen_through ?_ (ihRest noneRest _ _ _ _))
    split_ifs
    · exact Walk.andThen_through (ihEls noneEls _ _ _ _) rfl
    · exact Walk.andThen_through (ihThn noneThn _ _ _ _) rfl

theorem Kept.andThen {a : BitVec 64} {n : Nat} {s : State} {w : Walk} {next : State → Walk}
    (first : Kept a n s w) (second : w.trapped = false → Kept a n w.state (next w.state)) :
    Kept a n s (w.andThen next) := by
  cases hw : w.trapped with
  | true =>
    rw [Walk.andThen, if_pos hw]
    exact first
  | false =>
    obtain ⟨trace, state, -⟩ := Walk.trace_andThen hw next
    obtain ⟨keeps, along, mem⟩ := second hw
    refine ⟨by rw [state]; exact first.keeps.trans keeps, fun c hc => ?_,
      by rw [state]; exact mem.trans first.mem⟩
    rw [trace, List.mem_append] at hc
    rcases hc with hc | hc
    · exact first.trace c hc
    · exact first.keeps.trans (along c hc)

theorem branchTrace_keeps {block : List Instr} (uses : Uses workRegs block) (base : BitVec 64)
    (p : Nat) (s : State) : ∀ c ∈ branchTrace base p block s, Keeps workRegs s c.state := by
  intro c hc
  rcases List.mem_append.mp hc with hc | hc
  · exact blockTrace_keeps uses base p s c hc
  · rw [List.mem_singleton] at hc
    subst hc
    exact keeps_of_uses uses s

theorem op_kept {a : BitVec 64} {n : Nat} {stack sp : BitVec 64} {lo hi : Int} {frame : Frame}
    (room : Room a n stack sp lo hi frame) {o : Op} (uses : o.UsesBelow frame.length) {h : Int}
    (inside : Op.pushes o = true → lo ≤ h + Op.effect o - 1 ∧ h + Op.effect o - 1 < hi)
    {s : State} (hstack : s.x 20 = stack) (hpointer : s.x 21 = depth h) (hsp : s.sp = sp)
    (base : BitVec 64) (offset : Nat) (height : Int) (p : Nat) :
    Kept a n s (.once ⟨offset, height, s, blockTrace base p (opBlock frame o) s⟩
      (execAll (opBlock frame o) s)) := by
  refine ⟨keeps_of_uses (uses_opBlock frame o) s, fun c hc => ?_, ?_⟩
  · rw [Walk.once, Walk.trace, List.flatMap_singleton] at hc
    exact blockTrace_keeps (uses_opBlock frame o) base p s c hc
  · change SameOn a n (execAll (opBlock frame o) s).mem s.mem
    rcases op_memory uses s with ⟨pushes, width, v, written⟩ | ⟨slot, hslot, v, written⟩ | same
    · obtain ⟨low, high⟩ := inside pushes
      rw [written, hstack, hpointer, ← depth_add, ← Int.add_sub_assoc]
      exact write_apart _ _ (room.slots _ low high width)
    · rw [written, hsp]
      exact write_apart _ _ (room.vars slot hslot)
    · rw [same]
      exact .refl a n _

theorem moves_checks (width : Width) : Moves (-2) (zeroCheck width) ∧
    Moves 0 (minusOneCheck width) ∧ Moves 0 (minimumCheck width) := by
  have compare : ∀ r, Moves 0 [CodeItems.cmp width r 5] := fun r =>
    moves_one (by simp [CodeItems.cmp, writes])
  have zero : Moves 0 [cmpZero width 11] := moves_one (by simp [cmpZero, writes])
  exact ⟨(((moves_pop width (by decide) (by decide)).append
      (moves_pop width (by decide) (by decide))).append zero).count rfl,
    ((moves_movConst width (by decide) _).append (compare 11)).count rfl,
    ((moves_movConst width (by decide) _).append (compare 12)).count rfl⟩

theorem quiet_checks (width : Width) : (∀ i ∈ zeroCheck width, isStore i = false) ∧
    (∀ i ∈ minusOneCheck width, isStore i = false) ∧
    ∀ i ∈ minimumCheck width, isStore i = false :=
  ⟨quiet_append (quiet_append (quiet_pop width 11) (quiet_pop width 12))
      (by simp [cmpZero, isStore]),
    quiet_append (quiet_movConst width 5 _) (by simp [CodeItems.cmp, isStore]),
    quiet_append (quiet_movConst width 5 _) (by simp [CodeItems.cmp, isStore])⟩

/-- The quotient behind the checks: the pointer is one slot lower than before them. -/
theorem quotient_kept {a : BitVec 64} {n : Nat} {stack sp : BitVec 64} {lo hi : Int} {frame : Frame}
    (room : Room a n stack sp lo hi frame) {h : Int} (inside : lo ≤ h ∧ h < hi) (width : Width)
    (signed : Bool) {s : State} (hstack : s.x 20 = stack) (hpointer : s.x 21 = depth h) :
    SameOn a n (execAll (quotient width signed) s).mem s.mem ∧
      (execAll (quotient width signed) s).x 21 = depth (h + 1) := by
  have divide : Moves 0 [.div signed width 11 12 11] := moves_one (by simp [writes])
  have uses : Uses workRegs [.div signed width 11 12 11] :=
    uses_one rfl rfl (by simp [writes, workRegs])
  have moves := (divide.append (moves_push width (r := 11) (by decide))) s
  rw [hpointer, ← depth_add, Int.zero_add] at moves
  obtain ⟨v, written⟩ := push_memory (by simp [isStore]) divide uses width (r := 11) (by decide) s
  rw [hstack, hpointer, ← depth_add, Int.add_zero] at written
  refine ⟨?_, moves⟩
  rw [show quotient width signed = [.div signed width 11 12 11] ++ pushBlock width 11 from rfl,
    written]
  exact write_apart _ _ (room.slots h inside.1 inside.2 width)

/-- What a check without stores keeps, up to its branch. -/
theorem check_kept {block : List Instr} (uses : Uses workRegs block)
    (quiet : ∀ i ∈ block, isStore i = false) {s t : State} (before : Keeps workRegs s t)
    (same : t.mem = s.mem) (base : BitVec 64) (p : Nat) :
    Keeps workRegs s (execAll block t) ∧ (execAll block t).mem = s.mem ∧
      ∀ c ∈ branchTrace base p block t, Keeps workRegs s c.state :=
  ⟨before.trans (keeps_of_uses uses t), (execAll_mem quiet t).trans same,
    fun c hc => before.trans (branchTrace_keeps uses base p t c hc)⟩

/-- The pointer behind each check of a division: the first one takes both operands. -/
theorem checks_pointer (width : Width) {s : State} {h : Int} (hpointer : s.x 21 = depth h) :
    (execAll (zeroCheck width) s).x 21 = depth (h - 2) ∧
      (execAll (minusOneCheck width) (execAll (zeroCheck width) s)).x 21 = depth (h - 2) ∧
      (execAll (minimumCheck width) (execAll (minusOneCheck width)
        (execAll (zeroCheck width) s))).x 21 = depth (h - 2) := by
  obtain ⟨zeroMoves, oneMoves, minimumMoves⟩ := moves_checks width
  have first : (execAll (zeroCheck width) s).x 21 = depth (h - 2) := by
    rw [zeroMoves s, hpointer, ← depth_add]
    rfl
  have second := ((oneMoves (execAll (zeroCheck width) s)).trans (BitVec.add_zero _)).trans first
  have third := ((minimumMoves (execAll (minusOneCheck width) (execAll (zeroCheck width) s))).trans
    (BitVec.add_zero _)).trans second
  exact ⟨first, second, third⟩

/-- The quotient, from whichever check has let the division through. -/
theorem quotient_visit {a : BitVec 64} {n : Nat} {stack sp : BitVec 64} {lo hi : Int}
    {frame : Frame} (room : Room a n stack sp lo hi frame) {h : Int}
    (inside : lo ≤ h - 2 ∧ h - 2 < hi) {s t : State} (keeps : Keeps workRegs s t)
    (mem : t.mem = s.mem) (hstack : s.x 20 = stack) (hpointer : t.x 21 = depth (h - 2))
    {trace : List Config} (along : ∀ c ∈ trace, Keeps workRegs s c.state) (width : Width)
    (signed : Bool) (base : BitVec 64) (offset : Nat) (height : Int) (p : Nat) :
    Kept a n s (.once
        ⟨offset, height, s, trace ++ blockTrace base p (quotient width signed) t⟩
        (execAll (quotient width signed) t)) ∧
      (execAll (quotient width signed) t).x 21 = depth (h - 1) := by
  obtain ⟨same, moved⟩ := quotient_kept room inside width signed
    ((keeps.x 20 (by decide)).trans hstack) hpointer
  refine ⟨⟨keeps.trans (keeps_of_uses (uses_quotient width signed) t), fun c hc => ?_,
    mem ▸ same⟩, by rw [moved]; congr 1; omega⟩
  rw [Walk.once, Walk.trace, List.flatMap_singleton, List.mem_append] at hc
  rcases hc with hc | hc
  · exact along c hc
  · exact keeps.trans (blockTrace_keeps (uses_quotient width signed) base _ t c hc)

theorem div_kept {a : BitVec 64} {n : Nat} {stack sp : BitVec 64} {lo hi : Int} {frame : Frame}
    (room : Room a n stack sp lo hi frame) {h : Int} (inside : lo ≤ h - 2 ∧ h - 2 < hi)
    {s : State} (hstack : s.x 20 = stack) (hpointer : s.x 21 = depth h) (width : Width)
    (signed : Bool) (base : BitVec 64) (offset : Nat) (height : Int) (p : Nat) :
    Kept a n s (divWalk base width signed offset height p s) ∧
      ((divWalk base width signed offset height p s).trapped = false →
        (divWalk base width signed offset height p s).state.x 21 = depth (h - 1)) := by
  obtain ⟨-, pointer₂, pointer₃⟩ := checks_pointer width hpointer
  obtain ⟨zeroQuiet, oneQuiet, minimumQuiet⟩ := quiet_checks width
  let p₁ := p + (zeroCheck width).length + 1
  let p₂ := p₁ + (minusOneCheck width).length + 1
  obtain ⟨keeps₁, mem₁, trace₁⟩ :=
    check_kept (uses_zeroCheck width) zeroQuiet (.refl _ s) rfl base p
  obtain ⟨keeps₂, mem₂, trace₂⟩ :=
    check_kept (uses_minusOneCheck width) oneQuiet keeps₁ mem₁ base p₁
  obtain ⟨keeps₃, mem₃, trace₃⟩ :=
    check_kept (uses_minimumCheck width) minimumQuiet keeps₂ mem₂ base p₂
  have along₂ := List.forall_mem_append.mpr ⟨trace₁, trace₂⟩
  have along₃ := List.forall_mem_append.mpr ⟨along₂, trace₃⟩
  rw [divWalk]
  split_ifs with zeroDivisor notMinusOne notMinimum
  · refine ⟨⟨keeps₁, fun c hc => ?_, fun c _ => congrFun mem₁ c⟩,
      fun through => absurd through (by decide)⟩
    rw [Walk.trace, List.flatMap_singleton] at hc
    exact trace₁ c hc
  · obtain ⟨kept, pointer⟩ := quotient_visit room inside keeps₂ mem₂ hstack pointer₂ along₂ width
      signed base offset height _
    exact ⟨kept, fun _ => pointer⟩
  · obtain ⟨kept, pointer⟩ := quotient_visit room inside keeps₃ mem₃ hstack pointer₃ along₃ width
      signed base offset height _
    exact ⟨kept, fun _ => pointer⟩
  · refine ⟨⟨keeps₃, fun c hc => ?_, fun c _ => congrFun mem₃ c⟩,
      fun through => absurd through (by decide)⟩
    rw [Walk.trace, List.flatMap_singleton] at hc
    exact List.forall_mem_append.mpr ⟨along₃, List.forall_mem_singleton.mpr keeps₃⟩ c hc

/-- The walk keeps what `Kept` says and, unless it traps, leaves the pointer at a height
that satisfies `post`. -/
structure Settles (a : BitVec 64) (n : Nat) (post : Int → Prop) (s : State) (w : Walk) : Prop where
  kept : Kept a n s w
  pointer : w.trapped = false → ∃ k, post k ∧ w.state.x 21 = depth k

theorem settles_nil {a : BitVec 64} {n : Nat} {post : Int → Prop} {s : State} {k : Int}
    (here : post k) (pointer : s.x 21 = depth k) : Settles a n post s ⟨[], false, s⟩ :=
  ⟨kept_nil a n s, fun _ => ⟨k, here, pointer⟩⟩

/-- A visit that takes no step, or one that changes nothing. -/
theorem settles_pass {a : BitVec 64} {n : Nat} {post : Int → Prop} {s : State} {k : Int}
    (here : post k) (pointer : s.x 21 = depth k) {v : Visit}
    (still : ∀ c ∈ v.trace, c.state = s) : Settles a n post s (.once v s) := by
  refine ⟨⟨.refl _ s, fun c hc => ?_, .refl a n _⟩, fun _ => ⟨k, here, pointer⟩⟩
  rw [Walk.once, Walk.trace, List.flatMap_singleton] at hc
  rw [still c hc]
  exact .refl _ s

theorem Settles.andThen {a : BitVec 64} {n : Nat} {post post' : Int → Prop} {s : State} {w : Walk}
    {next : State → Walk} (first : Settles a n post s w)
    (second : ∀ k, post k → Keeps workRegs s w.state → w.state.x 21 = depth k →
      Settles a n post' w.state (next w.state)) : Settles a n post' s (w.andThen next) := by
  have later : w.trapped = false → Settles a n post' w.state (next w.state) := by
    intro through
    obtain ⟨k, here, pointer⟩ := first.pointer through
    exact second k here first.kept.keeps pointer
  refine ⟨first.kept.andThen fun through => (later through).kept, fun through => ?_⟩
  cases hw : w.trapped with
  | true =>
    rw [Walk.andThen, if_pos hw, hw] at through
    exact nomatch through
  | false =>
    obtain ⟨-, state, trapped⟩ := Walk.trace_andThen hw next
    rw [trapped] at through
    rw [state]
    exact (later hw).pointer through

theorem test_settles (a : BitVec 64) (n : Nat) {s : State} {h : Int} (hpointer : s.x 21 = depth h)
    (base : BitVec 64) (offset : Nat) (height : Int) (p : Nat) :
    Settles a n (· = h) s (.once ⟨offset, height, s, branchTrace base p testBlock s⟩
      (execAll testBlock s)) := by
  have moves : Moves 0 testBlock :=
    ((moves_tee .w (by decide) (by decide)).append
      (moves_one (i := cmpZero .w 11) (by simp [cmpZero, writes]))).count rfl
  have quiet := quiet_append (quiet_tee .w 11)
    (show ∀ i ∈ [cmpZero .w 11], isStore i = false by simp [cmpZero, isStore])
  obtain ⟨keeps, mem, trace⟩ := check_kept uses_testBlock quiet (.refl _ s) rfl base p
  refine ⟨⟨keeps, fun c hc => ?_, fun c _ => congrFun mem c⟩,
    fun _ => ⟨h, rfl, (moves s).trans ((BitVec.add_zero _).trans hpointer)⟩⟩
  rw [Walk.once, Walk.trace, List.flatMap_singleton] at hc
  exact trace c hc

/-- An arm of an `if`, with the step of the instruction that ends it. -/
theorem Settles.arm {a : BitVec 64} {n : Nat} {post : Int → Prop} {s : State} {w : Walk}
    (h : Settles a n post s w) {v : State → Visit}
    (still : ∀ u, ∀ c ∈ (v u).trace, c.state = u) :
    Settles a n post s (w.andThen fun u => .once (v u) u) :=
  h.andThen fun _ here _ pointer => settles_pass here pointer (still _)

theorem carry {stack sp : BitVec 64} {s t : State} (hstack : s.x 20 = stack) (hsp : s.sp = sp)
    (keeps : Keeps workRegs s t) : t.x 20 = stack ∧ t.sp = sp :=
  ⟨(keeps.x 20 (by decide)).trans hstack, keeps.sp.trans hsp⟩

/-- A whole body: the induction follows `walk`, and `StoresIn` carries the height. -/
theorem walk_settles {a : BitVec 64} {n : Nat} {stack sp : BitVec 64} {lo hi : Int} {frame : Frame}
    (room : Room a n stack sp lo hi frame) (base : BitVec 64) (seq : Seq)
    (uses : seq.UsesBelow frame.length) {h : Int} {post : Int → Prop}
    (inside : StoresIn lo hi seq h post) {s : State} (hstack : s.x 20 = stack)
    (hpointer : s.x 21 = depth h) (hsp : s.sp = sp) (offset : Nat) (height : Int) (p : Nat) :
    Settles a n post s (walk frame base seq offset height p s) := by
  induction seq generalizing h post s offset height p with
  | nil => exact settles_nil inside hpointer
  | op o rest ih =>
    obtain ⟨usesOp, usesRest⟩ := uses
    obtain ⟨slot, insideRest⟩ := inside
    have first : Settles a n (· = h + Op.effect o) s
        (.once ⟨offset, height, s, blockTrace base p (opBlock frame o) s⟩
          (execAll (opBlock frame o) s)) :=
      ⟨op_kept room usesOp slot hstack hpointer hsp base offset height p, fun _ =>
        ⟨_, rfl, (moves_op usesOp s).trans (by rw [hpointer, ← depth_add])⟩⟩
    refine first.andThen fun k here keeps pointer => ?_
    subst here
    obtain ⟨stack', sp'⟩ := carry hstack hsp keeps
    exact ih usesRest insideRest stack' pointer sp' _ _ _
  | div width signed rest ih =>
    obtain ⟨slot, insideRest⟩ := inside
    obtain ⟨kept, moved⟩ := div_kept room slot hstack hpointer width signed base offset height p
    have first : Settles a n (· = h - 1) s (divWalk base width signed offset height p s) :=
      ⟨kept, fun through => ⟨_, rfl, moved through⟩⟩
    refine first.andThen fun k here keeps pointer => ?_
    subst here
    obtain ⟨stack', sp'⟩ := carry hstack hsp keeps
    exact ih uses insideRest stack' pointer sp' _ _ _
  | ifThen block thn rest ihThn ihRest =>
    obtain ⟨usesThn, usesRest⟩ := uses
    obtain ⟨skips, enters⟩ := inside
    rw [walk]
    refine (test_settles a n hpointer base offset height p).andThen fun k here keeps pointer => ?_
    subst here
    obtain ⟨stack', sp'⟩ := carry hstack hsp keeps
    refine Settles.andThen (?_ : Settles a n (fun k => StoresIn lo hi rest k post) _ _)
      fun k here keeps' pointer' => ?_
    · split_ifs
      · exact settles_nil skips pointer
      · exact (ihThn usesThn enters stack' pointer sp' _ _ _).arm (by simp)
    · obtain ⟨stack'', sp''⟩ := carry stack' sp' keeps'
      exact ihRest usesRest here stack'' pointer' sp'' _ _ _
  | ifElse block thn els rest ihThn ihEls ihRest =>
    obtain ⟨usesThn, usesEls, usesRest⟩ := uses
    obtain ⟨entersThn, entersEls⟩ := inside
    rw [walk]
    refine (test_settles a n hpointer base offset height p).andThen fun k here keeps pointer => ?_
    subst here
    obtain ⟨stack', sp'⟩ := carry hstack hsp keeps
    refine Settles.andThen (?_ : Settles a n (fun k => StoresIn lo hi rest k post) _ _)
      fun k here keeps' pointer' => ?_
    · split_ifs
      · exact (ihEls usesEls entersEls stack' pointer sp' _ _ _).arm (by simp)
      · exact (ihThn usesThn entersThn stack' pointer sp' _ _ _).arm (by simp)
    · obtain ⟨stack'', sp''⟩ := carry stack' sp' keeps'
      exact ihRest usesRest here stack'' pointer' sp'' _ _ _

end BodyFrame
