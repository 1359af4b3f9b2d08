import TinyWasm.BlockEffects

/-!
# Structured execution of a body

`walk` executes the blocks of a body the way its nesting reads: every `if` takes
one of its arms, by the word its test has loaded, and a division whose guard
fails ends the walk. The machine on the linked code follows the walk, as long as
every label stands where its branches lead.
-/

namespace StructuredRun

open ArmInstruction ByteMemory StepRuns ArmMachine BlockEffects LabelledCode
open SourceBody Emit CodeItems Wasm

/-- A source instruction reached: its offset in the body, the height WebAssembly gives the
operand stack there, the state, and the machine's steps through its block. -/
structure Visit where
  offset : Nat
  height : Int
  state : State
  trace : List Config

structure Walk where
  visits : List Visit
  trapped : Bool
  state : State

namespace Walk

/-- The steps of all visits. -/
def trace (w : Walk) : List Config := w.visits.flatMap Visit.trace

/-- A walk of one visit that goes through. -/
def once (v : Visit) (s : State) : Walk := ⟨[v], false, s⟩

/-- One walk after the other, unless the first traps. -/
def andThen (w : Walk) (next : State → Walk) : Walk :=
  if w.trapped then w
  else { next w.state with visits := w.visits ++ (next w.state).visits }

end Walk

/-- What an instruction adds to the height of the operand stack. -/
def Op.effect : Op → Int
  | .nop | .ret | .localVar .tee _ => 0
  | .localVar .get _ | .i32const _ | .i64const _ => 1
  | .localVar .set _ | .compare _ _ | .arith _ _ => -1

def BlockType.arity : BlockType → Int
  | .void => 0
  | .i32 | .i64 => 1

/-- The test of an `if`, without its branch. -/
def testBlock : List Instr := teeBlock .w 11 ++ [cmpZero .w 11]

/-- The three pieces of a division's guard, each up to its branch, and what follows it. -/
def zeroCheck (width : Width) : List Instr :=
  popBlock width 11 ++ popBlock width 12 ++ [cmpZero width 11]

def minusOneCheck (width : Width) : List Instr := movConst width 5 (-1) ++ [cmp width 11 5]

def minimumCheck (width : Width) : List Instr :=
  movConst width 5 (minValue width) ++ [cmp width 12 5]

def quotient (width : Width) (signed : Bool) : List Instr :=
  .div signed width 11 12 11 :: pushBlock width 11

/-- The steps of a block and of the branch after it. -/
def branchTrace (base : BitVec 64) (p : Nat) (block : List Instr) (s : State) : List Config :=
  blockTrace base p block s ++ [⟨addr base (p + block.length), execAll block s⟩]

/-- A division: the checks, each with its branch, and the quotient. -/
def divWalk (base : BitVec 64) (width : Width) (signed : Bool) (offset : Nat) (height : Int)
    (p : Nat) (s : State) : Walk :=
  let p₁ := p + (zeroCheck width).length + 1
  let p₂ := p₁ + (minusOneCheck width).length + 1
  let p₃ := p₂ + (minimumCheck width).length + 1
  let s₁ := execAll (zeroCheck width) s
  let s₂ := execAll (minusOneCheck width) s₁
  let s₃ := execAll (minimumCheck width) s₂
  let t₁ := branchTrace base p (zeroCheck width) s
  let t₂ := t₁ ++ branchTrace base p₁ (minusOneCheck width) s₁
  let t₃ := t₂ ++ branchTrace base p₂ (minimumCheck width) s₂
  if s₁.flags.z then ⟨[⟨offset, height, s, t₁⟩], true, s₁⟩
  else if !s₂.flags.z then
    .once ⟨offset, height, s, t₂ ++ blockTrace base (p₃ + 1) (quotient width signed) s₂⟩
      (execAll (quotient width signed) s₂)
  else if !s₃.flags.z then
    .once ⟨offset, height, s, t₃ ++ blockTrace base (p₃ + 1) (quotient width signed) s₃⟩
      (execAll (quotient width signed) s₃)
  else ⟨[⟨offset, height, s, t₃ ++ [⟨addr base p₃, s₃⟩]⟩], true, s₃⟩

variable (frame : Frame) (base : BitVec 64)

/-- The walk through a sequence whose first byte is at `offset` and whose code is at `p`. -/
def walk : Seq → (offset : Nat) → (height : Int) → (p : Nat) → State → Walk
  | .nil, _, _, _, s => ⟨[], false, s⟩
  | .op o rest, offset, height, p, s =>
    let block := opBlock frame o
    (Walk.once ⟨offset, height, s, blockTrace base p block s⟩ (execAll block s)).andThen
      (walk rest (offset + o.bytes.length) (height + Op.effect o) (p + block.length))
  | .div width signed rest, offset, height, p, s =>
    (divWalk base width signed offset height p s).andThen
      (walk rest (offset + 1) (height - 1) (p + size (divItems width signed)))
  | .ifThen block thn rest, offset, height, p, s =>
    let t := execAll testBlock s
    let q := p + testBlock.length + 1
    let after := offset + 2 + thn.bytes.length
    let height' := height - 1 + BlockType.arity block
    (Walk.once ⟨offset, height, s, branchTrace base p testBlock s⟩ t).andThen fun t =>
      (if (t.x 11).setWidth 32 = 0 then ⟨[], false, t⟩
      else (walk thn (offset + 2) (height - 1) q t).andThen fun u =>
        .once ⟨after, height', u, []⟩ u).andThen
        (walk rest (after + 1) height' (q + size (bodyItems frame 0 thn)))
  | .ifElse block thn els rest, offset, height, p, s =>
    let t := execAll testBlock s
    let q := p + testBlock.length + 1
    let e := q + size (bodyItems frame 0 thn)
    let middle := offset + 2 + thn.bytes.length
    let after := middle + 1 + els.bytes.length
    let height' := height - 1 + BlockType.arity block
    (Walk.once ⟨offset, height, s, branchTrace base p testBlock s⟩ t).andThen fun t =>
      (if (t.x 11).setWidth 32 = 0 then
        (walk els (middle + 1) (height - 1) (e + 1) t).andThen fun u =>
          .once ⟨after, height', u, []⟩ u
      else (walk thn (offset + 2) (height - 1) q t).andThen fun u =>
        .once ⟨middle, height', u, [⟨addr base e, u⟩]⟩ u).andThen
        (walk rest (after + 1) height' (e + 1 + size (bodyItems frame 0 els)))

/-! ### The blocks are plain -/

/-- The registers a body works with; 31 is the zero register comparisons write to. -/
def workRegs : List Reg := [0, 3, 4, 5, 11, 12, 21, 31]

theorem uses_push (width : Width) (r : Reg) : Uses workRegs (pushBlock width r) := by
  intro i hi
  simp only [pushBlock, List.mem_cons, List.not_mem_nil, or_false] at hi
  rcases hi with rfl | rfl <;> simp [plain, movesSp, writes, workRegs]

theorem uses_pop (width : Width) {r : Reg} (hr : r ∈ workRegs) :
    Uses workRegs (popBlock width r) := by
  intro i hi
  simp only [popBlock, List.mem_cons, List.not_mem_nil, or_false] at hi
  rcases hi with rfl | rfl
  · simp [plain, movesSp, writes, workRegs]
  · simpa [plain, movesSp, writes] using hr

theorem uses_tee (width : Width) {r : Reg} (hr : r ∈ workRegs) :
    Uses workRegs (teeBlock width r) := by
  refine (uses_pop width hr).append fun i hi => ?_
  rw [List.mem_singleton] at hi
  subst hi
  simp [plain, movesSp, writes, workRegs]

theorem uses_mov32 {r : Reg} (hr : r ∈ workRegs) (value : BitVec 32) :
    Uses workRegs (mov32 r value) := by
  intro i hi
  simp only [mov32, List.mem_cons, List.not_mem_nil, or_false] at hi
  rcases hi with rfl | rfl <;> simpa [plain, movesSp, writes] using hr

theorem uses_mov64 {r : Reg} (hr : r ∈ workRegs) (value : BitVec 64) :
    Uses workRegs (mov64 r value) := by
  intro i hi
  simp only [mov64, List.mem_cons, List.not_mem_nil, or_false] at hi
  rcases hi with rfl | rfl | rfl | rfl <;> simpa [plain, movesSp, writes] using hr

theorem uses_movConst (width : Width) {r : Reg} (hr : r ∈ workRegs) (value : BitVec 64) :
    Uses workRegs (movConst width r value) := by
  cases width with
  | w => exact uses_mov32 hr _
  | x => exact uses_mov64 hr _

/-- An instruction that goes on to the next and writes work registers only. -/
theorem uses_one {i : Instr} (straight : plain i = true) (still : movesSp i = false)
    (written : ∀ r ∈ writes i, r ∈ workRegs) : Uses workRegs [i] := by
  intro j hj
  rw [List.mem_singleton] at hj
  subst hj
  exact ⟨straight, still, written⟩

theorem uses_cmp (width : Width) (r q : Reg) :
    Uses workRegs [cmpZero width r] ∧ Uses workRegs [cmp width r q] := by
  constructor
  · exact uses_one rfl rfl (by simp [cmpZero, writes, workRegs])
  · exact uses_one rfl rfl (by simp [CodeItems.cmp, writes, workRegs])

theorem uses_local (slot : Slot) (opType : LocalOp) : Uses workRegs (localBlock slot opType) := by
  have load : Uses workRegs [loadVar 11 slot] :=
    uses_one rfl (by simp [loadVar, movesSp]) (by simp [loadVar, writes, workRegs])
  have store : Uses workRegs [storeVar 11 slot] :=
    uses_one rfl (by simp [storeVar, movesSp]) (by simp [storeVar, writes])
  have mem : (11 : Reg) ∈ workRegs := by decide
  cases opType with
  | get => exact load.append (uses_push _ _)
  | set => exact (uses_pop _ mem).append store
  | tee => exact (uses_tee _ mem).append store

/-- The operands and the result of a comparison, in front of its push. -/
theorem uses_compare (width : Width) (c : Comparison) :
    Uses workRegs ([.movWide .movz .x 3 1 0, .movWide .movz .x 4 0 0] ++ popBlock width 12 ++
      popBlock width 11 ++ [CodeItems.cmp width 11 12, .csel .x 0 3 4 (condOf c)]) := by
  have select : Uses workRegs [.csel .x 0 3 4 (condOf c)] :=
    uses_one rfl rfl (by simp [writes, workRegs])
  have zeroOne : Uses workRegs [.movWide .movz .x 3 1 0, .movWide .movz .x 4 0 0] :=
    (uses_one (i := .movWide .movz .x 3 1 0) rfl rfl (by simp [writes, workRegs])).append
      (uses_one (i := .movWide .movz .x 4 0 0) rfl rfl (by simp [writes, workRegs]))
  exact ((zeroOne.append (uses_pop width (by decide))).append (uses_pop width (by decide))).append
    ((uses_cmp width 11 12).2.append select)

theorem uses_arith (width : Width) (a : Arith) :
    Uses workRegs (popBlock width 11 ++ popBlock width 12 ++ [arithInstr width a]) := by
  have operation : Uses workRegs [arithInstr width a] := by
    cases a <;> exact uses_one rfl rfl (by simp [arithInstr, writes, workRegs])
  exact ((uses_pop width (by decide)).append (uses_pop width (by decide))).append operation

theorem uses_opBlock (frame : Frame) (o : Op) : Uses workRegs (opBlock frame o) := by
  have nothing : Uses workRegs [] := fun i hi => nomatch hi
  cases o with
  | nop => exact uses_one rfl rfl (by simp [writes])
  | ret => exact nothing
  | localVar opType index =>
    rw [opBlock]
    cases frame[index.toNat]? with
    | none => exact nothing
    | some slot => exact uses_local slot opType
  | i32const value =>
    exact (uses_mov32 (by decide) (value.setWidth 32)).append (uses_push _ _)
  | i64const value =>
    exact (uses_mov64 (by decide) (value.setWidth 64)).append (uses_push _ _)
  | compare width c => exact (uses_compare width c).append (uses_push _ _)
  | arith width a => exact (uses_arith width a).append (uses_push _ _)

theorem uses_testBlock : Uses workRegs testBlock :=
  (uses_tee .w (by decide)).append (uses_cmp .w 11 11).1

theorem uses_zeroCheck (width : Width) : Uses workRegs (zeroCheck width) :=
  ((uses_pop width (by decide)).append (uses_pop width (by decide))).append (uses_cmp width 11 11).1

theorem uses_minusOneCheck (width : Width) : Uses workRegs (minusOneCheck width) :=
  (uses_movConst width (by decide) _).append (uses_cmp width 11 5).2

theorem uses_minimumCheck (width : Width) : Uses workRegs (minimumCheck width) :=
  (uses_movConst width (by decide) _).append (uses_cmp width 12 5).2

theorem uses_quotient (width : Width) (signed : Bool) : Uses workRegs (quotient width signed) :=
  (uses_one (i := .div signed width 11 12 11) rfl rfl (by simp [writes, workRegs])).append
    (uses_push _ _)

/-! ### Sizes -/

/-- Numbering the labels differently does not move the code. -/
theorem bodyItems_size_eq (frame : Frame) (c c' : Nat) (seq : Seq) :
    size (bodyItems frame c seq) = size (bodyItems frame c' seq) := by
  induction seq generalizing c c' with
  | nil => rfl
  | op o rest ih => simp [bodyItems, ih c c']
  | div width signed rest ih => simp [bodyItems, ih c c']
  | ifThen block thn rest ihThn ihRest =>
    simp [bodyItems, ifItems, CodeItems.ins, ihThn (c + 1) (c' + 1),
      ihRest (c + 1 + thn.labelsUsed) (c' + 1 + thn.labelsUsed)]
  | ifElse block thn els rest ihThn ihEls ihRest =>
    simp [bodyItems, ifItems, CodeItems.ins, ihThn (c + 1) (c' + 1),
      ihEls (c + 2 + thn.labelsUsed) (c' + 2 + thn.labelsUsed),
      ihRest (c + 2 + thn.labelsUsed + els.labelsUsed) (c' + 2 + thn.labelsUsed + els.labelsUsed)]

/-- A division's checks and branches, in the order of the code. -/
theorem divItems_split (width : Width) (signed : Bool) :
    divItems width signed = CodeItems.ins (zeroCheck width) ++ (.jump "preparelongjmp" .beq ::
      (CodeItems.ins (minusOneCheck width) ++ (.jump "normal_div" .bne ::
      (CodeItems.ins (minimumCheck width) ++ (.jump "normal_div" .bne ::
      .jump "preparelongjmp" .b :: .label "normal_div" ::
      CodeItems.ins (quotient width signed)))))) := by
  simp [divItems, guardItems, zeroCheck, minusOneCheck, minimumCheck, quotient, CodeItems.ins]

theorem size_divItems (width : Width) (signed : Bool) :
    size (divItems width signed) = (zeroCheck width).length + 1 +
      (minusOneCheck width).length + 1 + (minimumCheck width).length + 2 +
      (quotient width signed).length := by
  rw [divItems_split]
  simp [CodeItems.ins]
  omega

/-- The code of an `if` without `else`, with its label where the branch leads. -/
theorem items_ifThen (frame : Frame) (c : Nat) (block : BlockType) (thn rest : Seq) :
    bodyItems frame c (.ifThen block thn rest) = CodeItems.ins testBlock ++
      (.jump (ifLabel c) .beq :: (bodyItems frame (c + 1) thn ++ (.label (ifLabel c) ::
        bodyItems frame (c + 1 + thn.labelsUsed) rest))) := by
  simp [bodyItems, ifItems, testBlock, CodeItems.ins]

theorem items_ifElse (frame : Frame) (c : Nat) (block : BlockType) (thn els rest : Seq) :
    bodyItems frame c (.ifElse block thn els rest) = CodeItems.ins testBlock ++
      (.jump (ifLabel c) .beq :: (bodyItems frame (c + 1) thn ++
        (.jump (elseLabel (c + 1 + thn.labelsUsed)) .b :: .label (ifLabel c) ::
          (bodyItems frame (c + 2 + thn.labelsUsed) els ++
            (.label (elseLabel (c + 1 + thn.labelsUsed)) ::
              bodyItems frame (c + 2 + thn.labelsUsed + els.labelsUsed) rest))))) := by
  simp [bodyItems, ifItems, testBlock, CodeItems.ins]

/-! ### The parts of a body in the code -/

/-- A division in the code. -/
structure DivAt (instrs : List Instr) (trap p : Nat) (width : Width) (signed : Bool) : Prop where
  zero : Stands instrs p (zeroCheck width)
  toTrap : ∃ disp : Int, instrs[p + (zeroCheck width).length]? = some (.bCond 0b0000 disp) ∧
    ((p + (zeroCheck width).length : Nat) : Int) + disp = trap
  minusOne : Stands instrs (p + (zeroCheck width).length + 1) (minusOneCheck width)
  toQuotient : ∃ disp : Int, instrs[p + (zeroCheck width).length + 1 +
      (minusOneCheck width).length]? = some (.bCond 0b0001 disp) ∧
    ((p + (zeroCheck width).length + 1 + (minusOneCheck width).length : Nat) : Int) + disp =
      (p + (zeroCheck width).length + 1 + (minusOneCheck width).length + 1 +
        (minimumCheck width).length + 2 : Nat)
  minimum : Stands instrs (p + (zeroCheck width).length + 1 + (minusOneCheck width).length + 1)
    (minimumCheck width)
  toQuotient' : ∃ disp : Int, instrs[p + (zeroCheck width).length + 1 +
      (minusOneCheck width).length + 1 + (minimumCheck width).length]? = some (.bCond 0b0001 disp) ∧
    ((p + (zeroCheck width).length + 1 + (minusOneCheck width).length + 1 +
      (minimumCheck width).length : Nat) : Int) + disp =
      (p + (zeroCheck width).length + 1 + (minusOneCheck width).length + 1 +
        (minimumCheck width).length + 2 : Nat)
  toTrap' : ∃ disp : Int, instrs[p + (zeroCheck width).length + 1 +
      (minusOneCheck width).length + 1 + (minimumCheck width).length + 1]? = some (.b false disp) ∧
    ((p + (zeroCheck width).length + 1 + (minusOneCheck width).length + 1 +
      (minimumCheck width).length + 1 : Nat) : Int) + disp = trap
  quotient : Stands instrs (p + (zeroCheck width).length + 1 + (minusOneCheck width).length + 1 +
    (minimumCheck width).length + 2) (quotient width signed)
  size_eq : size (divItems width signed) = (zeroCheck width).length + 1 +
    (minusOneCheck width).length + 1 + (minimumCheck width).length + 2 +
    (StructuredRun.quotient width signed).length

/-- An `if` without `else` in the code. -/
structure IfThenAt (instrs : List Instr) (target : String → Int) (frame : Frame) (p c : Nat)
    (thn rest : Seq) : Prop where
  test : Stands instrs p testBlock
  branch : ∃ disp : Int, instrs[p + testBlock.length]? = some (.bCond 0b0000 disp) ∧
    ((p + testBlock.length : Nat) : Int) + disp =
      (p + testBlock.length + 1 + size (bodyItems frame 0 thn) : Nat)
  inThen : Linked link target instrs (p + testBlock.length + 1) (bodyItems frame (c + 1) thn)
  thenLabels : Labelled target (p + testBlock.length + 1) (bodyItems frame (c + 1) thn)
  inRest : Linked link target instrs (p + testBlock.length + 1 + size (bodyItems frame 0 thn))
    (bodyItems frame (c + 1 + thn.labelsUsed) rest)
  restLabels : Labelled target (p + testBlock.length + 1 + size (bodyItems frame 0 thn))
    (bodyItems frame (c + 1 + thn.labelsUsed) rest)
  size_eq : ∀ block, size (bodyItems frame c (.ifThen block thn rest)) =
    testBlock.length + 1 + size (bodyItems frame 0 thn) +
      size (bodyItems frame (c + 1 + thn.labelsUsed) rest)

/-- An `if` with an `else` in the code. -/
structure IfElseAt (instrs : List Instr) (target : String → Int) (frame : Frame) (p c : Nat)
    (thn els rest : Seq) : Prop where
  test : Stands instrs p testBlock
  branch : ∃ disp : Int, instrs[p + testBlock.length]? = some (.bCond 0b0000 disp) ∧
    ((p + testBlock.length : Nat) : Int) + disp =
      (p + testBlock.length + 1 + size (bodyItems frame 0 thn) + 1 : Nat)
  inThen : Linked link target instrs (p + testBlock.length + 1) (bodyItems frame (c + 1) thn)
  thenLabels : Labelled target (p + testBlock.length + 1) (bodyItems frame (c + 1) thn)
  skip : ∃ disp : Int, instrs[p + testBlock.length + 1 + size (bodyItems frame 0 thn)]? =
      some (.b false disp) ∧
    ((p + testBlock.length + 1 + size (bodyItems frame 0 thn) : Nat) : Int) + disp =
      (p + testBlock.length + 1 + size (bodyItems frame 0 thn) + 1 +
        size (bodyItems frame 0 els) : Nat)
  inElse : Linked link target instrs
    (p + testBlock.length + 1 + size (bodyItems frame 0 thn) + 1)
    (bodyItems frame (c + 2 + thn.labelsUsed) els)
  elseLabels : Labelled target (p + testBlock.length + 1 + size (bodyItems frame 0 thn) + 1)
    (bodyItems frame (c + 2 + thn.labelsUsed) els)
  inRest : Linked link target instrs
    (p + testBlock.length + 1 + size (bodyItems frame 0 thn) + 1 + size (bodyItems frame 0 els))
    (bodyItems frame (c + 2 + thn.labelsUsed + els.labelsUsed) rest)
  restLabels : Labelled target
    (p + testBlock.length + 1 + size (bodyItems frame 0 thn) + 1 + size (bodyItems frame 0 els))
    (bodyItems frame (c + 2 + thn.labelsUsed + els.labelsUsed) rest)
  size_eq : ∀ block, size (bodyItems frame c (.ifElse block thn els rest)) =
    testBlock.length + 1 + size (bodyItems frame 0 thn) + 1 + size (bodyItems frame 0 els) +
      size (bodyItems frame (c + 2 + thn.labelsUsed + els.labelsUsed) rest)

section
variable {instrs : List Instr} {target : String → Int} {trap : Nat}

theorem divAt_of_linked (htrap : target "preparelongjmp" = trap) {width : Width} {signed : Bool}
    {p : Nat} (linked : Linked link target instrs p (divItems width signed))
    (labelled : Labelled target p (divItems width signed)) :
    DivAt instrs trap p width signed := by
  rw [divItems_split] at linked labelled
  simp only [linked_append, labelled_append, Linked, Labelled, CodeItems.ins, linked_map_ins,
    size_map_ins] at linked labelled
  obtain ⟨zero, toTrap, minusOne, toQuotient, minimum, toQuotient', toTrap', quotient⟩ := linked
  obtain ⟨-, -, -, here, -⟩ := labelled
  exact
    { zero, minusOne, minimum, quotient
      toTrap := ⟨_, toTrap, by omega⟩
      toQuotient := ⟨_, toQuotient, by omega⟩
      toQuotient' := ⟨_, toQuotient', by omega⟩
      toTrap' := ⟨_, toTrap', by omega⟩
      size_eq := size_divItems width signed }

theorem ifThenAt_of_linked {frame : Frame} {block : BlockType} {thn rest : Seq} {c p : Nat}
    (linked : Linked link target instrs p (bodyItems frame c (.ifThen block thn rest)))
    (labelled : Labelled target p (bodyItems frame c (.ifThen block thn rest))) :
    IfThenAt instrs target frame p c thn rest := by
  rw [items_ifThen] at linked labelled
  simp only [linked_append, labelled_append, Linked, Labelled, CodeItems.ins, linked_map_ins,
    size_map_ins] at linked labelled
  obtain ⟨test, branch, inThen, inRest⟩ := linked
  obtain ⟨-, thenLabels, here, restLabels⟩ := labelled
  have same := bodyItems_size_eq frame (c + 1) 0 thn
  rw [same] at here inRest restLabels
  refine { test, inThen, thenLabels, inRest, restLabels
           branch := ⟨_, branch, by omega⟩
           size_eq := fun block => ?_ }
  rw [items_ifThen]
  simp [CodeItems.ins, same]
  omega

theorem ifElseAt_of_linked {frame : Frame} {block : BlockType} {thn els rest : Seq} {c p : Nat}
    (linked : Linked link target instrs p (bodyItems frame c (.ifElse block thn els rest)))
    (labelled : Labelled target p (bodyItems frame c (.ifElse block thn els rest))) :
    IfElseAt instrs target frame p c thn els rest := by
  rw [items_ifElse] at linked labelled
  simp only [linked_append, labelled_append, Linked, Labelled, CodeItems.ins, linked_map_ins,
    size_map_ins] at linked labelled
  obtain ⟨test, branch, inThen, skip, inElse, inRest⟩ := linked
  obtain ⟨-, thenLabels, elseHere, elseLabels, endHere, restLabels⟩ := labelled
  have sameThen := bodyItems_size_eq frame (c + 1) 0 thn
  have sameElse := bodyItems_size_eq frame (c + 2 + thn.labelsUsed) 0 els
  rw [sameThen] at skip elseHere inElse elseLabels
  rw [sameThen, sameElse] at endHere inRest restLabels
  refine { test, inThen, thenLabels, inElse, elseLabels, inRest, restLabels
           branch := ⟨_, branch, by omega⟩
           skip := ⟨_, skip, by omega⟩
           size_eq := fun block => ?_ }
  rw [items_ifElse]
  simp [CodeItems.ins, sameThen, sameElse]
  omega

end

/-! ### The machine follows the walk -/

/-- The machine goes from position `p` through the steps of the walk, and ends at position
`q`, or at `trap` if the walk traps. -/
def Follows (code : List Word) (base : BitVec 64) (w : Walk) (s : State) (p q trap : Nat) : Prop :=
  Run (step code base) ⟨addr base p, s⟩ w.trace
    ⟨addr base (if w.trapped then trap else q), w.state⟩

section
variable {code : List Word} {base : BitVec 64} {trap : Nat}

theorem follows_nil (s : State) (p : Nat) :
    Follows code base ⟨[], false, s⟩ s p p trap := .nil _

theorem follows_once {v : Visit} {s t : State} {p q : Nat}
    (h : Run (step code base) ⟨addr base p, s⟩ v.trace ⟨addr base q, t⟩) :
    Follows code base (.once v t) s p q trap := by
  simpa [Follows, Walk.once, Walk.trace] using h

/-- A visit that takes no step. -/
theorem follows_pass (offset : Nat) (height : Int) (s : State) (p : Nat) :
    Follows code base (.once ⟨offset, height, s, []⟩ s) s p p trap := follows_once (.nil _)

theorem follows_andThen {w : Walk} {next : State → Walk} {s : State} {p q r : Nat}
    (first : Follows code base w s p q trap)
    (second : w.trapped = false → Follows code base (next w.state) w.state q r trap) :
    Follows code base (w.andThen next) s p r trap := by
  cases hw : w.trapped with
  | true =>
    have whole : w.andThen next = w := if_pos hw
    rw [Follows, hw] at first
    rw [Follows, whole, hw]
    exact first
  | false =>
    have whole : w.andThen next =
        { next w.state with visits := w.visits ++ (next w.state).visits } := if_neg (by simp [hw])
    have trace : (w.andThen next).trace = w.trace ++ (next w.state).trace := by
      rw [whole, Walk.trace, List.flatMap_append]
      rfl
    rw [Follows, hw] at first
    rw [Follows, trace, whole]
    exact first.append (second hw)

end

/-- The flag the branch of a test looks at. -/
theorem test_flag (s : State) : (execAll testBlock s).flags.z =
    decide (((execAll testBlock s).x 11).setWidth 32 = 0) := by
  rw [testBlock, execAll_append, execAll_cons, execAll_nil, exec_cmpZero .w (by decide),
    (cmpZero_keeps .w 11 _).1, truncate_w]
  congr 1
  rw [eq_iff_iff]
  constructor
  · intro h
    rw [← narrow_widen ((State.x _ 11).setWidth 32), h]
    rfl
  · intro h
    rw [h]
    rfl

section
variable {code : List Word} {instrs : List Instr} (loaded : Loaded code instrs)
  (base : BitVec 64) {trap : Nat}
include loaded

theorem run_uses {p : Nat} {block : List Instr} (stands : Stands instrs p block)
    (uses : Uses workRegs block) (s : State) :
    Run (step code base) ⟨addr base p, s⟩ (blockTrace base p block s)
      ⟨addr base (p + block.length), execAll block s⟩ :=
  run_block loaded base stands (fun i hi => (uses i hi).1) s

/-- A block and a conditional branch behind it. -/
theorem run_branch {p q : Nat} {block : List Instr} (stands : Stands instrs p block)
    (uses : Uses workRegs block) {cond : BitVec 4} {disp : Int}
    (here : instrs[p + block.length]? = some (.bCond cond disp))
    (target : ((p + block.length : Nat) : Int) + disp = q) (s : State) :
    Run (step code base) ⟨addr base p, s⟩ (branchTrace base p block s)
      ⟨if holds cond (execAll block s).flags then addr base q
        else addr base (p + block.length + 1), execAll block s⟩ :=
  (run_uses loaded base stands uses s).append (.one (step_bCond loaded base here target _))

/-- The state behind the test of an `if`, and the branch that skips its first arm. -/
theorem test_branch {p q : Nat} {disp : Int} (stands : Stands instrs p testBlock)
    (here : instrs[p + testBlock.length]? = some (.bCond 0b0000 disp))
    (goal : ((p + testBlock.length : Nat) : Int) + disp = q) (s : State) :
    Run (step code base) ⟨addr base p, s⟩ (branchTrace base p testBlock s)
      ⟨addr base (if ((execAll testBlock s).x 11).setWidth 32 = 0 then q
        else p + testBlock.length + 1), execAll testBlock s⟩ := by
  have branch := run_branch loaded base stands uses_testBlock here goal s
  rw [holds_eq, test_flag] at branch
  by_cases zero : ((execAll testBlock s).x 11).setWidth 32 = 0
  · rw [decide_eq_true zero, if_pos rfl] at branch
    rwa [if_pos zero]
  · rw [decide_eq_false zero, if_neg Bool.false_ne_true] at branch
    rwa [if_neg zero]

variable {target : String → Int}

/-- An `if` without `else` is followed where its arm and the code behind it are. -/
theorem ifThen_follows {frame : Frame} {c p : Nat} {thn rest : Seq}
    (parts : IfThenAt instrs target frame p c thn rest)
    (thenArm : ∀ offset height s, Follows code base
      (walk frame base thn offset height (p + testBlock.length + 1) s) s
      (p + testBlock.length + 1) (p + testBlock.length + 1 + size (bodyItems frame 0 thn)) trap)
    (behind : ∀ offset height s, Follows code base
      (walk frame base rest offset height
        (p + testBlock.length + 1 + size (bodyItems frame 0 thn)) s) s
      (p + testBlock.length + 1 + size (bodyItems frame 0 thn))
      (p + testBlock.length + 1 + size (bodyItems frame 0 thn) +
        size (bodyItems frame (c + 1 + thn.labelsUsed) rest)) trap)
    (block : BlockType) (offset : Nat) (height : Int) (s : State) :
    Follows code base (walk frame base (.ifThen block thn rest) offset height p s) s p
      (p + size (bodyItems frame c (.ifThen block thn rest))) trap := by
  obtain ⟨disp, branch, goal⟩ := parts.branch
  let q := p + testBlock.length + 1
  have len : p + size (bodyItems frame c (.ifThen block thn rest)) =
      q + size (bodyItems frame 0 thn) + size (bodyItems frame (c + 1 + thn.labelsUsed) rest) := by
    rw [parts.size_eq]
    omega
  have decided := test_branch loaded base parts.test branch goal s
  rw [len, walk]
  refine follows_andThen (follows_once decided) fun _ =>
    follows_andThen (q := q + size (bodyItems frame 0 thn)) ?_ fun _ => behind _ _ _
  change Follows code base (if ((execAll testBlock s).x 11).setWidth 32 = 0 then _ else _) _
    _ _ trap
  by_cases zero : ((execAll testBlock s).x 11).setWidth 32 = 0
  · rw [if_pos zero, if_pos zero]
    exact follows_nil _ _
  · rw [if_neg zero, if_neg zero]
    exact follows_andThen (thenArm _ _ _) fun _ => follows_pass _ _ _ _

theorem ifElse_follows {frame : Frame} {c p : Nat} {thn els rest : Seq}
    (parts : IfElseAt instrs target frame p c thn els rest)
    (thenArm : ∀ offset height s, Follows code base
      (walk frame base thn offset height (p + testBlock.length + 1) s) s
      (p + testBlock.length + 1) (p + testBlock.length + 1 + size (bodyItems frame 0 thn)) trap)
    (elseArm : ∀ offset height s, Follows code base
      (walk frame base els offset height
        (p + testBlock.length + 1 + size (bodyItems frame 0 thn) + 1) s) s
      (p + testBlock.length + 1 + size (bodyItems frame 0 thn) + 1)
      (p + testBlock.length + 1 + size (bodyItems frame 0 thn) + 1 +
        size (bodyItems frame 0 els)) trap)
    (behind : ∀ offset height s, Follows code base
      (walk frame base rest offset height (p + testBlock.length + 1 +
        size (bodyItems frame 0 thn) + 1 + size (bodyItems frame 0 els)) s) s
      (p + testBlock.length + 1 + size (bodyItems frame 0 thn) + 1 + size (bodyItems frame 0 els))
      (p + testBlock.length + 1 + size (bodyItems frame 0 thn) + 1 +
        size (bodyItems frame 0 els) +
        size (bodyItems frame (c + 2 + thn.labelsUsed + els.labelsUsed) rest)) trap)
    (block : BlockType) (offset : Nat) (height : Int) (s : State) :
    Follows code base (walk frame base (.ifElse block thn els rest) offset height p s) s p
      (p + size (bodyItems frame c (.ifElse block thn els rest))) trap := by
  obtain ⟨disp, branch, goal⟩ := parts.branch
  obtain ⟨disp', skip, goal'⟩ := parts.skip
  let e' := p + testBlock.length + 1 + size (bodyItems frame 0 thn) + 1 +
    size (bodyItems frame 0 els)
  have len : p + size (bodyItems frame c (.ifElse block thn els rest)) =
      e' + size (bodyItems frame (c + 2 + thn.labelsUsed + els.labelsUsed) rest) := by
    rw [parts.size_eq]
    omega
  have decided := test_branch loaded base parts.test branch goal s
  rw [len, walk]
  refine follows_andThen (follows_once decided) fun _ =>
    follows_andThen (q := e') ?_ fun _ => behind _ _ _
  change Follows code base (if ((execAll testBlock s).x 11).setWidth 32 = 0 then _ else _) _
    _ _ trap
  by_cases zero : ((execAll testBlock s).x 11).setWidth 32 = 0
  · rw [if_pos zero, if_pos zero]
    exact follows_andThen (elseArm _ _ _) fun _ => follows_pass _ _ _ _
  · rw [if_neg zero, if_neg zero]
    exact follows_andThen (thenArm _ _ _) fun _ =>
      follows_once (.one (step_b loaded base skip goal' _))

variable (htrap : target "preparelongjmp" = trap)
include htrap

theorem div_follows {width : Width} {signed : Bool} {p : Nat}
    (linked : Linked link target instrs p (divItems width signed))
    (labelled : Labelled target p (divItems width signed)) (offset : Nat) (height : Int)
    (s : State) :
    Follows code base (divWalk base width signed offset height p s) s p
      (p + size (divItems width signed)) trap := by
  have parts := divAt_of_linked htrap linked labelled
  obtain ⟨d₁, toTrap, t₁⟩ := parts.toTrap
  obtain ⟨d₂, toQuotient, t₂⟩ := parts.toQuotient
  obtain ⟨d₃, toQuotient', t₃⟩ := parts.toQuotient'
  obtain ⟨d₄, toTrap', t₄⟩ := parts.toTrap'
  have first := run_branch loaded base parts.zero (uses_zeroCheck width) toTrap t₁ s
  have second := run_branch loaded base parts.minusOne (uses_minusOneCheck width) toQuotient t₂
    (execAll (zeroCheck width) s)
  have third := run_branch loaded base parts.minimum (uses_minimumCheck width) toQuotient' t₃
    (execAll (minusOneCheck width) (execAll (zeroCheck width) s))
  have fourth := step_b loaded base toTrap' t₄
  have last := run_uses loaded base parts.quotient (uses_quotient width signed)
  rw [holds_eq] at first
  rw [holds_ne] at second third
  have finish : p + size (divItems width signed) = p + (zeroCheck width).length + 1 +
      (minusOneCheck width).length + 1 + (minimumCheck width).length + 2 +
      (quotient width signed).length := by
    rw [parts.size_eq]
    omega
  rw [finish, divWalk]
  split_ifs with zeroDivisor notMinusOne notMinimum
  · rw [if_pos zeroDivisor] at first
    simpa [Follows, Walk.trace] using first
  · rw [if_neg zeroDivisor] at first
    rw [if_pos notMinusOne] at second
    exact follows_once ((first.append second).append (last _))
  · rw [if_neg zeroDivisor] at first
    rw [if_neg notMinusOne] at second
    rw [if_pos notMinimum] at third
    exact follows_once (((first.append second).append third).append (last _))
  · rw [if_neg zeroDivisor] at first
    rw [if_neg notMinusOne] at second
    rw [if_neg notMinimum] at third
    have all := ((first.append second).append third).append (.one (fourth _))
    simpa [Follows, Walk.trace] using all

/-- The machine follows the walk through any sequence, wherever its code stands. -/
theorem walk_follows (frame : Frame) (seq : Seq) {c p : Nat}
    (linked : Linked link target instrs p (bodyItems frame c seq))
    (labelled : Labelled target p (bodyItems frame c seq)) (offset : Nat) (height : Int)
    (s : State) :
    Follows code base (walk frame base seq offset height p s) s p
      (p + size (bodyItems frame c seq)) trap := by
  induction seq generalizing c p offset height s with
  | nil => exact follows_nil s p
  | op o rest ih =>
    rw [bodyItems, linked_append, CodeItems.ins, linked_map_ins, size_map_ins] at linked
    rw [bodyItems, labelled_append, CodeItems.ins, size_map_ins] at labelled
    rw [bodyItems, size_append, CodeItems.ins, size_map_ins, ← Nat.add_assoc]
    exact follows_andThen (follows_once (run_uses loaded base linked.1 (uses_opBlock frame o) s))
      fun _ => ih linked.2 labelled.2 _ _ _
  | div width signed rest ih =>
    rw [bodyItems, linked_append] at linked
    rw [bodyItems, labelled_append] at labelled
    rw [bodyItems, size_append, ← Nat.add_assoc]
    exact follows_andThen (div_follows loaded base htrap linked.1 labelled.1 _ _ s)
      fun _ => ih linked.2 labelled.2 _ _ _
  | ifThen block thn rest ihThn ihRest =>
    have parts := ifThenAt_of_linked linked labelled
    refine ifThen_follows loaded base parts (fun offset height s => ?_)
      (fun _ _ _ => ihRest parts.inRest parts.restLabels _ _ _) block offset height s
    rw [← bodyItems_size_eq frame (c + 1) 0 thn]
    exact ihThn parts.inThen parts.thenLabels offset height s
  | ifElse block thn els rest ihThn ihEls ihRest =>
    have parts := ifElseAt_of_linked linked labelled
    refine ifElse_follows loaded base parts (fun offset height s => ?_)
      (fun offset height s => ?_) (fun _ _ _ => ihRest parts.inRest parts.restLabels _ _ _)
      block offset height s
    · have inThen := ihThn parts.inThen parts.thenLabels offset height s
      rwa [bodyItems_size_eq frame (c + 1) 0 thn] at inThen
    · have inElse := ihEls parts.inElse parts.elseLabels offset height s
      rwa [bodyItems_size_eq frame (c + 2 + thn.labelsUsed) 0 els] at inElse

end

end StructuredRun
