import TinyWasm.BodySimulation
import TinyWasm.CallRun
import TinyWasm.Validation

/-!
# The division of a straight-line body

A straight-line body with one division reaches it in every run. Behind it the
run has left the words of the division either for `preparelongjmp`, or for the
next instruction with the quotient in place of the two operands.
-/

namespace StraightDivision

open HexText Opcode Wasm Emit ArmInstruction ByteMemory StepRuns ArmMachine BlockEffects
open LabelledCode LocalDeclarations SourceBody EncoderCorrectness CodeItems StructuredRun CodeLayout
open BodyFrame OperandStack FrameEffects CallStubs EntryRun FunctionRun FunctionCall CallRun
open DivisionRun WasmSemantics BodySimulation Validation

/-! ### Straight-line code -/

/-- The instructions in front of a sequence. -/
def before (ops : List Op) (rest : Seq) : Seq := ops.foldr Seq.op rest

/-- A straight-line body with one division. -/
def straight (pre : List Op) (width : Width) (signed : Bool) (post : List Op) : Seq :=
  before pre (.div width signed (before post .nil))

def opsBlock (frame : Frame) (ops : List Op) : List Instr := ops.flatMap (opBlock frame)

theorem divisions_before (ops : List Op) (rest : Seq) :
    (before ops rest).divisions = rest.divisions := by
  induction ops with
  | nil => rfl
  | cons o ops ih => exact ih

theorem divisions_straight (pre : List Op) (width : Width) (signed : Bool) (post : List Op) :
    (straight pre width signed post).divisions = 1 := by
  rw [straight, divisions_before, Seq.divisions, divisions_before]
  rfl

theorem usesBelow_before {n : Nat} {ops : List Op} {rest : Seq}
    (h : (before ops rest).UsesBelow n) :
    (∀ o ∈ ops, o.UsesBelow n) ∧ rest.UsesBelow n := by
  induction ops with
  | nil => exact ⟨fun o ho => absurd ho List.not_mem_nil, h⟩
  | cons o ops ih =>
    obtain ⟨first, later⟩ := h
    obtain ⟨all, behind⟩ := ih later
    exact ⟨List.forall_mem_cons.mpr ⟨first, all⟩, behind⟩

theorem bodyItems_before (frame : Frame) (c : Nat) (ops : List Op) (rest : Seq) :
    bodyItems frame c (before ops rest) =
      CodeItems.ins (opsBlock frame ops) ++ bodyItems frame c rest := by
  induction ops with
  | nil => rfl
  | cons o ops ih =>
    have first : bodyItems frame c (before (o :: ops) rest) =
        CodeItems.ins (opBlock frame o) ++ bodyItems frame c (before ops rest) := rfl
    rw [first, ih, opsBlock, opsBlock, List.flatMap_cons]
    simp [CodeItems.ins]

theorem uses_opsBlock (frame : Frame) (ops : List Op) : Uses workRegs (opsBlock frame ops) := by
  intro i hi
  obtain ⟨o, -, inside⟩ := List.mem_flatMap.mp hi
  exact uses_opBlock frame o i inside

/-- How far the instructions move the top of the operand stack. -/
def effectOf (ops : List Op) : Int := (ops.map Op.effect).sum

theorem moves_opsBlock {frame : Frame} {ops : List Op}
    (uses : ∀ o ∈ ops, o.UsesBelow frame.length) : Moves (effectOf ops) (opsBlock frame ops) := by
  induction ops with
  | nil => exact moves_of_writes fun i hi => absurd hi List.not_mem_nil
  | cons o ops ih =>
    obtain ⟨first, later⟩ := List.forall_mem_cons.mp uses
    exact ((moves_op first).append (ih later)).count rfl

theorem storesIn_before {lo hi : Int} {ops : List Op} {rest : Seq} {h : Int} {post : Int → Prop}
    (inside : StoresIn lo hi (before ops rest) h post) :
    StoresIn lo hi rest (h + effectOf ops) post := by
  induction ops generalizing h with
  | nil =>
    have none : h + effectOf [] = h := Int.add_zero h
    rwa [none]
  | cons o ops ih =>
    have sum : h + effectOf (o :: ops) = h + Op.effect o + effectOf ops := by
      simp [effectOf, Int.add_assoc]
    rw [sum]
    exact ih inside.2

/-- The walk through instructions that do not divide goes on with the walk behind them. -/
theorem walk_before (frame : Frame) (base : BitVec 64) (ops : List Op) (rest : Seq) (offset : Nat)
    (height : Int) (p : Nat) (s : State) :
    ∃ offset' height',
      let w := walk frame base rest offset' height' (p + (opsBlock frame ops).length)
        (execAll (opsBlock frame ops) s)
      (walk frame base (before ops rest) offset height p s).trapped = w.trapped ∧
        (walk frame base (before ops rest) offset height p s).state = w.state := by
  induction ops generalizing offset height p s with
  | nil => exact ⟨offset, height, rfl, rfl⟩
  | cons o ops ih =>
    obtain ⟨offset', height', trapped, state⟩ := ih (offset + o.bytes.length)
      (height + Op.effect o) (p + (opBlock frame o).length) (execAll (opBlock frame o) s)
    obtain ⟨-, behind, later⟩ := Walk.trace_andThen
      (w := .once ⟨offset, height, s, blockTrace base p (opBlock frame o) s⟩
        (execAll (opBlock frame o) s)) rfl
      (walk frame base (before ops rest) (offset + o.bytes.length) (height + Op.effect o)
        (p + (opBlock frame o).length))
    refine ⟨offset', height', ?_⟩
    rw [opsBlock, List.flatMap_cons, List.length_append, execAll_append, ← Nat.add_assoc]
    exact ⟨later.trans trapped, behind.trans state⟩

/-- A straight-line body traps where its division does. -/
theorem walk_straight (frame : Frame) (base : BitVec 64) (pre : List Op) (width : Width)
    (signed : Bool) (post : List Op) (offset : Nat) (height : Int) (p : Nat) (s : State) :
    (walk frame base (straight pre width signed post) offset height p s).trapped = true ↔
      Refuses (operand (execAll (opsBlock frame pre) s) width 1)
        (operand (execAll (opsBlock frame pre) s) width 0) := by
  obtain ⟨offset', height', same, -⟩ := walk_before frame base pre
    (.div width signed (before post .nil)) offset height p s
  let q := p + (opsBlock frame pre).length
  let t := execAll (opsBlock frame pre) s
  have divided := (divWalk_eq base width signed offset' height' q t).1
  rw [straight, same, ← divided, walk]
  cases trapped : (divWalk base width signed offset' height' q t).trapped with
  | true => rw [Walk.andThen, if_pos trapped, trapped]
  | false =>
    obtain ⟨-, -, through⟩ := Walk.trace_andThen trapped (walk frame base (before post .nil)
      (offset' + 1) (height' - 1) (q + size (divItems width signed)))
    obtain ⟨offset'', height'', last, -⟩ :=
      walk_before frame base post .nil (offset' + 1) (height' - 1)
      (q + size (divItems width signed)) (divWalk base width signed offset' height' q t).state
    rw [through, last]
    rfl

/-! ### The run -/

/-- From `c` the machine leaves the `n` words at position `p` for `d`. -/
def Exits (code : List Word) (base : BitVec 64) (p n : Nat) (c d : Config) : Prop :=
  ∃ trace, Run (step code base) c trace d ∧ StepsIn base (fun k => p ≤ k ∧ k < p + n) trace ∧
    ∀ k, p ≤ k → k < p + n → d.pc ≠ addr base k

theorem exits_unique {code : List Word} {base : BitVec 64} {p n : Nat} {c d d' : Config}
    (h : Exits code base p n c d) (h' : Exits code base p n c d') : d = d' := by
  obtain ⟨trace, run, inside, outside⟩ := h
  obtain ⟨trace', run', inside', outside'⟩ := h'
  refine run.exit_unique inside ?_ run' inside' ?_
  · rintro ⟨k, ⟨low, high⟩, here⟩
    exact outside k low high here
  · rintro ⟨k, ⟨low, high⟩, here⟩
    exact outside' k low high here

section
variable (params locals : List wasm_type) (pre : List Op) (base : BitVec 64)

/-- Where the division of a straight-line body stands, and the words it takes. -/
def divisionStart : Nat :=
  functionStart params + bodyStart params locals + (opsBlock (frameOf params locals) pre).length

def divisionSize (width : Width) (signed : Bool) : Nat := size (divItems width signed)

/-- The state in which a call reaches the division. -/
def atDivision (s : State) : State :=
  execAll (opsBlock (frameOf params locals) pre)
    (entered params locals base (functionStart params) (atEntry params s))

/-- The division is left for `preparelongjmp`. -/
def Traps (code : List Word) (width : Width) (signed : Bool) (t : State) : Prop :=
  ∃ u, Exits code base (divisionStart params locals pre) (divisionSize width signed)
    ⟨addr base (divisionStart params locals pre), t⟩ ⟨addr base (trapStart params), u⟩

/-- The division is left for the instruction behind it, with `q` on the operand stack. -/
def Yields (code : List Word) (width : Width) (signed : Bool) (t : State) (q : Value width)
    (u : State) : Prop :=
  Exits code base (divisionStart params locals pre) (divisionSize width signed)
      ⟨addr base (divisionStart params locals pre), t⟩
      ⟨addr base (divisionStart params locals pre + divisionSize width signed), u⟩ ∧
    Replaces 2 width q t u

end

section
variable {code : List Word} {instrs : List Instr} {target : String → Int}
  {params locals results : List wasm_type} {pre post : List Op} {width : Width} {signed : Bool}
  (callable : Callable code instrs target params locals results (straight pre width signed post))
include callable

/-- The run reaches the division. -/
theorem run_to_division (base : BitVec 64) (s : State) :
    ∃ trace, Run (step code base) ⟨base, s⟩ trace
      ⟨addr base (divisionStart params locals pre), atDivision params locals pre base s⟩ := by
  have layout := layout_of_placed callable.placed
  have loads := run_block callable.placed.loaded base callable.loads
    (fun i hi => (argumentBlock_plain params i hi).1) s
  rw [addr_zero, Nat.zero_add] at loads
  have entry := run_entry callable.placed.loaded base layout callable.small (atEntry params s)
  have linked := layout.linked
  rw [straight, bodyItems_before, linked_append, CodeItems.ins, linked_map_ins] at linked
  have ops := run_uses callable.placed.loaded base linked.1 (uses_opsBlock _ pre)
    (entered params locals base (functionStart params) (atEntry params s))
  exact ⟨_, (loads.append entry).append ops⟩

theorem division_small :
    divisionStart params locals pre + divisionSize width signed < 2 ^ 61 := by
  have far := finalize_small callable
  have finish : finalizeStart params locals (straight pre width signed post) =
      bodyStart params locals +
        size (bodyItems (frameOf params locals) 0 (straight pre width signed post)) + 2 := rfl
  rw [straight, bodyItems_before, size_append, CodeItems.ins, size_map_ins, bodyItems,
    size_append] at finish
  rw [divisionStart, divisionSize]
  rw [straight] at far
  omega

/-- The way out of the division, as its operands are. -/
theorem division_exits (base : BitVec 64) (t : State) :
    (Refuses (operand t width 1) (operand t width 0) →
      Traps params locals pre base code width signed t) ∧
    (¬ Refuses (operand t width 1) (operand t width 0) →
      ∃ u, Yields params locals pre base code width signed t
        (quotientOf signed (operand t width 1) (operand t width 0)) u) := by
  have layout := layout_of_placed callable.placed
  let p := divisionStart params locals pre
  let n := divisionSize width signed
  have linked := layout.linked
  have labelled := layout.labelled
  rw [straight, bodyItems_before, linked_append, CodeItems.ins, size_map_ins, bodyItems,
    linked_append] at linked
  rw [straight, bodyItems_before, labelled_append, CodeItems.ins, size_map_ins, bodyItems,
    labelled_append] at labelled
  have follows : Run (step code base) ⟨addr base p, t⟩ (divWalk base width signed 0 0 p t).trace
      ⟨addr base (if (divWalk base width signed 0 0 p t).trapped then trapStart params else p + n),
        (divWalk base width signed 0 0 p t).state⟩ :=
    div_follows callable.placed.loaded base layout.trap linked.2.1 labelled.2.1 0 0 t
  have steps := (div_ascends base width signed 0 0 p t).steps
  obtain ⟨trapped, through⟩ := divWalk_eq base width signed 0 0 p t
  have small := division_small callable
  have start : trapStart params < p := by
    change functionStart params + 11 < functionStart params + (32 + _ + 6) + _
    omega
  constructor
  · intro refused
    rw [← trapped] at refused
    rw [if_pos refused] at follows
    refine ⟨_, _, follows, steps, fun k low high same => ?_⟩
    have := addr_injective (by omega) (by omega) same
    omega
  · intro fine
    have untrapped : ¬ (divWalk base width signed 0 0 p t).trapped = true :=
      fun h => fine (trapped.mp h)
    rw [if_neg untrapped] at follows
    refine ⟨_, ⟨_, follows, steps, fun k low high same => ?_⟩, through fine⟩
    have := addr_injective (by omega) (by omega) same
    omega

theorem traps_iff (base : BitVec 64) (t : State) :
    Traps params locals pre base code width signed t ↔
      Refuses (operand t width 1) (operand t width 0) := by
  obtain ⟨refuses, yields⟩ := division_exits callable base t
  refine ⟨?_, refuses⟩
  rintro ⟨u, trap⟩
  by_contra fine
  obtain ⟨v, through, -⟩ := yields fine
  have same := congrArg Config.pc (exits_unique trap through)
  have small := division_small callable
  have start : trapStart params < divisionStart params locals pre := by
    change functionStart params + 11 < functionStart params + (32 + _ + 6) + _
    omega
  have := addr_injective (by omega) (by omega) same
  omega

end

/-! ### What the caller sees -/

/-- A call as `executeWasmInstr` makes it: the body keeps to the slots `lo, …, hi - 1`, the memories
are apart, and arguments and results leave the registers of the frame alone. -/
structure Served (code : List Word) (base : BitVec 64) (params locals results : List wasm_type)
    (body : Seq) (lo hi : Int) (s : State) : Prop where
  few : params.length ≤ 19
  narrow : results.length ≤ 29
  inside : StoresIn lo hi body 0 fun _ => True
  arranged : Arranged code base params locals lo hi s

section
variable {code : List Word} {instrs : List Instr} {target : String → Int}
  {params locals results : List wasm_type} {pre post : List Op} {width : Width} {signed : Bool}
  (callable : Callable code instrs target params locals results (straight pre width signed post))
  (ints : ∀ v ∈ params, isFloat v = false) {base : BitVec 64} {lo hi : Int} {s : State}
  (served : Served code base params locals results (straight pre width signed post) lo hi s)
include callable ints served

theorem throws_straight : Throws code base s ↔
    Refuses (operand (atDivision params locals pre base s) width 1)
      (operand (atDivision params locals pre base s) width 0) := by
  obtain ⟨few, narrow, inside, arranged⟩ := served
  exact (throws_iff callable few ints arranged
    (callWalk_kept callable few ints inside arranged) narrow).trans
    (walk_straight (frameOf params locals) base pre width signed post _ _ _ _)

/-- The slot of the quotient is one of the operand stack's. -/
theorem quotient_within : Within (top (atDivision params locals pre base s) - 16) 8
    (s.x 1 + depth lo) (8 * (hi - lo)).toNat := by
  obtain ⟨few, -, inside, arranged⟩ := served
  obtain ⟨⟨low, high⟩, -⟩ := storesIn_before inside
  obtain ⟨-, stack, empty, -⟩ := atEntry_eq few ints s
  obtain ⟨others, -⟩ := entered_eq callable.small base (functionStart params) (atEntry params s)
  have fits := fits_of_apart arranged.buffer (by decide)
  have pointer : (atDivision params locals pre base s).x 21 = depth (effectOf pre) := by
    rw [atDivision, moves_opsBlock (usesBelow_before callable.uses).1,
      others 21 (by decide) (by decide) (by decide) (by decide), empty]
    exact BitVec.zero_add _
  have kept : (atDivision params locals pre base s).x 20 = s.x 1 := by
    rw [atDivision, (keeps_of_uses (uses_opsBlock _ pre) _).x 20 (by decide),
      others 20 (by decide) (by decide) (by decide) (by decide), stack]
  have slot :
      top (atDivision params locals pre base s) - 16 = s.x 1 + depth (effectOf pre - 2) := by
    rw [top, pointer, kept, Int.sub_eq_add_neg, depth_add, ← BitVec.add_assoc]
    exact BitVec.sub_eq_add_neg _ 16
  rw [slot]
  rw [Int.zero_add] at low high
  exact slot_inside low high fits .x

/-- The division leaves the params and the locals as they were. -/
theorem yields_keeps {q : Value width} {u : State}
    (yields : Yields params locals pre base code width signed (atDivision params locals pre base s)
      q u) : ∀ slot ∈ frameOf params locals,
      valueOf u slot = valueOf (atDivision params locals pre base s) slot := by
  intro slot hs
  have quotient := quotient_within callable ints served
  obtain ⟨few, -, -, arranged⟩ := served
  obtain ⟨-, -, -, -, -, -, entrySp, -⟩ := atEntry_eq few ints s
  obtain ⟨-, -, -, sp, -⟩ :=
    entered_eq callable.small base (functionStart params) (atEntry params s)
  have bottom : stackBottom params locals (atEntry params s) = stackBottom params locals s := by
    rw [stackBottom, stackBottom, entrySp]
  have frame := (slot_within callable.small _ slot hs).trans (frame_inside callable.small
    (atEntry params s))
  have stack : (atDivision params locals pre base s).sp =
      (atEntry params s).sp - sizeBytes params locals :=
    (keeps_of_uses (uses_opsBlock _ pre) _).sp.trans sp
  rw [bottom, ← stack] at frame
  exact yields.2.valueOf_eq (arranged.operands.symm.mono frame quotient)

end

/-! ### Operands from constants -/

/-- Without variables the operands are the ones WebAssembly computes. -/
theorem consts_represent {pre : List Op} {m : Values} (plain : ∀ o ∈ pre, Op.Plain o)
    (short : pre.length ≤ 2 ^ 60) (runs : evalOps pre ⟨[], []⟩ = some m) {t : State}
    (empty : t.x 21 = 0) : Represents [] m (execAll (opsBlock [] pre) t) := by
  have start : Represents [] ⟨[], []⟩ t := ⟨empty, by simp, rfl⟩
  exact ops_represents start (n := 2 ^ 60) ⟨List.Pairwise.nil, by simp⟩
    (by simpa using short) (Nat.le_refl _) plain runs

theorem entered_empty {params locals : List wasm_type} (small : frameSize params locals ≤ 4080)
    (base : BitVec 64) {s : State} (empty : (atEntry params s).x 21 = 0) :
    (entered params locals base (functionStart params) (atEntry params s)).x 21 = 0 := by
  obtain ⟨others, -⟩ := entered_eq small base (functionStart params) (atEntry params s)
  exact (others 21 (by decide) (by decide) (by decide) (by decide)).trans empty

theorem atDivision_represents {pre : List Op} {m : Values} (plain : ∀ o ∈ pre, Op.Plain o)
    (short : pre.length ≤ 2 ^ 60) (runs : evalOps pre ⟨[], []⟩ = some m) (base : BitVec 64)
    (s : State) : Represents [] m (atDivision [] [] pre base s) := by
  obtain ⟨-, -, empty, -⟩ := atEntry_eq (show ([] : List wasm_type).length ≤ 19 by decide)
    (by simp) s
  exact consts_represent plain short runs (entered_empty (by decide) base empty)

/-- One divided by zero. -/
def oneByZero : List Op := [.i32const 1, .i32const 0]

theorem oneByZero_pushed {t : State} (empty : t.x 21 = 0) :
    operand (execAll (opsBlock [] oneByZero) t) .w 1 = 1 ∧
      operand (execAll (opsBlock [] oneByZero) t) .w 0 = 0 := by
  have represents := consts_represent (show ∀ o ∈ oneByZero, Op.Plain o by decide) (by decide)
    rfl empty
  exact ⟨represents.stack 1 ⟨.w, 1⟩ rfl, represents.stack 0 ⟨.w, 0⟩ rfl⟩

theorem oneByZero_operands (base : BitVec 64) (s : State) :
    operand (atDivision [] [] oneByZero base s) .w 1 = 1 ∧
      operand (atDivision [] [] oneByZero base s) .w 0 = 0 := by
  obtain ⟨-, -, empty, -⟩ := atEntry_eq (show ([] : List wasm_type).length ≤ 19 by decide)
    (by simp) s
  exact oneByZero_pushed (entered_empty (by decide) base empty)

theorem oneByZero_served {results : List wasm_type} {signed : Bool} (narrow : results.length ≤ 29)
    {code : List Word} (short : code.length ≤ 2 ^ 61) :
    Served code 0x100000 [] [] results (straight oneByZero .w signed []) 0 1024 sampleCall := by
  refine ⟨by decide, narrow, ?_, sampleCall_arranged (by decide) short ⟨rfl, rfl, rfl⟩ rfl⟩
  simp [oneByZero, straight, before, StoresIn, Op.pushes, Op.effect]

/-! ### Exactness -/

/-- A signed division traps on a zero divisor and on the overflow, and gives the quotient truncated
toward zero everywhere else. -/
theorem signed_division_exact {params results : List wasm_type} {groups : List Group}
    {pre post : List Op} {width : Width} {order : WasmFunction.VisitOrder} {g : WasmFunction}
    (size_byte : BranchFixup.bodySize groups (straight pre width true post) ≤ 255)
    (done : funcSingleProcess (delivered params results groups (straight pre width true post))
      order = .ok g) :
    ∃ code, loadWords (full_instructions g) = .ok code ∧ ∀ base s,
      let locals := groups.flatMap groupLocals
      let t := atDivision params locals pre base s
      let a := operand t width 1
      let b := operand t width 0
      let refused := b = 0 ∨ (a = BitVec.intMin (8 * width.bytes) ∧ b = -1)
      (∃ trace, Run (step code base) ⟨base, s⟩ trace
        ⟨addr base (divisionStart params locals pre), t⟩) ∧
      (Traps params locals pre base code width true t ↔ refused) ∧
      (¬ refused → ∃ q u, q.toInt = a.toInt.tdiv b.toInt ∧
        Yields params locals pre base code width true t q u) ∧
      ∀ lo hi, Served code base params locals results (straight pre width true post) lo hi s →
        (Throws code base s ↔ refused) ∧
        ∀ q u, Yields params locals pre base code width true t q u →
          ∀ slot ∈ frameOf params locals, valueOf u slot = valueOf t slot := by
  have once := divisions_straight pre width true post
  obtain ⟨code, instrs, target, loads, callable, ints, -⟩ :=
    callable_of_funcSingleProcess size_byte (by omega) done
  refine ⟨code, loads, fun base s => ?_⟩
  intro locals t a b refused
  have same : Refuses a b ↔ refused := or_congr Iff.rfl and_comm
  refine ⟨run_to_division callable base s, (traps_iff callable base t).trans same, fun fine => ?_,
    fun lo hi served => ⟨(throws_straight callable ints served).trans same, fun q u yields =>
      yields_keeps callable ints served yields⟩⟩
  obtain ⟨u, yields⟩ := (division_exits callable base t).2 (fun refuses => fine (same.mp refuses))
  refine ⟨_, u, ?_, yields⟩
  have legal : a ≠ BitVec.intMin (8 * width.bytes) ∨ b ≠ -1 := by
    by_contra overflow
    rw [not_or, not_not, not_not] at overflow
    exact fine (Or.inr overflow)
  exact BitVec.toInt_sdiv_of_ne_or_ne a b legal

theorem signed_division_exact_sample :
    ∃ g code, funcSingleProcess (delivered [] [.i32 0] [] (straight oneByZero .w true []))
        BranchFixup.inOrder = .ok g ∧
      loadWords (full_instructions g) = .ok code ∧ Throws code 0x100000 sampleCall := by
  obtain ⟨g, done⟩ := BranchFixup.ok_of_isOk (show (funcSingleProcess
    (delivered [] [.i32 0] [] (straight oneByZero .w true [])) BranchFixup.inOrder).isOk = true by
      decide +kernel)
  obtain ⟨code, instrs, target, loads, callable, -⟩ :=
    callable_of_funcSingleProcess (by decide) (by decide) done
  obtain ⟨code', loads', exact_⟩ := signed_division_exact (by decide) done
  cases loads.symm.trans loads'
  obtain ⟨-, -, -, served⟩ := exact_ 0x100000 sampleCall
  have throws := (served 0 1024 (oneByZero_served (by decide) callable.placed.loaded.short)).1
  exact ⟨g, code, done, loads, throws.mpr (Or.inl (oneByZero_operands 0x100000 sampleCall).2)⟩

/-- Nineteen zeros, and an address that is loaded to the register of the buffer. -/
def addressParams : List wasm_type := List.replicate 19 (.i32 0) ++ [.i64 0x30000]

/-- The division of one by zero, its quotient stored to the first param. -/
def storedDivision : Seq := straight oneByZero .w true [.localVar .set 0]

theorem addressParams_entry : (atEntry addressParams sampleCall).x 19 = 0x30000 ∧
    (atEntry addressParams sampleCall).x 20 = 0x20000 ∧
    (atEntry addressParams sampleCall).x 21 = 0 ∧
    (atEntry addressParams sampleCall).x 30 = 0x80000 ∧
    (atEntry addressParams sampleCall).sp = 0x40000 ∧
    (atEntry addressParams sampleCall).mem = sampleCall.mem := by
  obtain ⟨values, others, sp, mem⟩ := atEntry_registers
    (show addressParams.length ≤ 32 by decide) (by decide) sampleCall
  obtain ⟨-, x20, x21, -, x30⟩ := withRoles_x sampleCall
  exact ⟨values 19 (.i64 0x30000) rfl (by decide), (others 20 (Or.inl (by decide))).trans x20,
    (others 21 (Or.inl (by decide))).trans x21, (others 30 (Or.inl (by decide))).trans x30, sp, mem⟩

theorem addressParams_bottom :
    stackBottom addressParams [] (atEntry addressParams sampleCall) = BitVec.ofNat 64 0x3ff80 := by
  rw [stackBottom, addressParams_entry.2.2.2.2.1]
  decide

theorem addressParams_apart :
    BufferApart addressParams [] 0 1024 (atEntry addressParams sampleCall) := by
  obtain ⟨buffer, stack, -⟩ := addressParams_entry
  constructor
  · rw [buffer, addressParams_bottom]
    exact apart_of_lt (d := 0x30000) (Or.inl (by decide)) ⟨by decide, by decide⟩
  · rw [buffer, stack]
    exact apart_of_lt (d := 0x30000) (e := 0x20000) (Or.inr (by decide)) ⟨by decide, by decide⟩

section
variable {code : List Word} {instrs : List Instr} {target : String → Int}
  (callable : Callable code instrs target addressParams [] [] storedDivision)
include callable

theorem storedDivision_kept : Kept ((atEntry addressParams sampleCall).x 19) areaSize
    (entered addressParams [] 0x100000 (functionStart addressParams)
      (atEntry addressParams sampleCall))
    (callWalk addressParams [] storedDivision 0x100000 sampleCall) := by
  have inside : StoresIn 0 1024 storedDivision 0 fun _ => True := by
    simp [storedDivision, oneByZero, straight, before, StoresIn, Op.pushes, Op.effect]
  exact bodyWalk_kept callable.small callable.uses inside addressParams_entry.2.2.1 0x100000
    (functionStart addressParams) addressParams_apart

/-- The caller's buffer is none of the memory that the call writes. -/
theorem storedDivision_unwritten :
    SameOn 0x10000 2 (callEnd addressParams [] [] storedDivision 0x100000 sampleCall).mem
      sampleCall.mem := by
  obtain ⟨buffer, stack, empty, -, -, mem⟩ := addressParams_entry
  have operands : Apart (0x10000 : BitVec 64) 2
      ((atEntry addressParams sampleCall).x 20 + depth 0) (8 * ((1024 : Int) - 0)).toNat := by
    rw [stack]
    exact apart_of_lt (d := 0x10000) (e := 0x20000) (Or.inl (by decide)) ⟨by decide, by decide⟩
  have machine : Apart (0x10000 : BitVec 64) 2
      (stackBottom addressParams [] (atEntry addressParams sampleCall))
      (stackReach addressParams []) := by
    rw [addressParams_bottom]
    exact apart_of_lt (d := 0x10000) (Or.inl (by decide)) ⟨by decide, by decide⟩
  have area : Apart (0x10000 : BitVec 64) 2 ((atEntry addressParams sampleCall).x 19) areaSize := by
    rw [buffer]
    exact apart_of_lt (d := 0x10000) (e := 0x30000) (Or.inl (by decide)) ⟨by decide, by decide⟩
  have inside : StoresIn 0 1024 storedDivision 0 fun _ => True := by
    simp [storedDivision, oneByZero, straight, before, StoresIn, Op.pushes, Op.effect]
  have through := bodyWalk_room callable.small callable.uses inside empty 0x100000
    (functionStart addressParams) (room_of_areas callable.small operands (by decide) machine)
  rw [← mem]
  exact finalState_elsewhere callable.small addressParams_apart.stack
    (storedDivision_kept callable) [] area machine through.mem

end

/-- With twenty params the trap of a division by zero leaves its return code at the address the
last of them gives, and nothing is thrown. -/
theorem trap_not_thrown : Valid addressParams [] [] storedDivision ∧ ∃ g code,
    funcSingleProcess (delivered addressParams [] [] storedDivision) BranchFixup.inOrder = .ok g ∧
      loadWords (full_instructions g) = .ok code ∧
      Arranged code 0x100000 addressParams [] 0 1024 sampleCall ∧
      operand (atDivision addressParams [] oneByZero 0x100000 sampleCall) .w 0 = 0 ∧
      Traps addressParams [] oneByZero 0x100000 code .w true
        (atDivision addressParams [] oneByZero 0x100000 sampleCall) ∧
      ¬ Throws code 0x100000 sampleCall := by
  obtain ⟨g, done⟩ := BranchFixup.ok_of_isOk (show (funcSingleProcess
    (delivered addressParams [] [] storedDivision) BranchFixup.inOrder).isOk = true by
      decide +kernel)
  obtain ⟨code, instrs, target, loads, callable, -⟩ :=
    callable_of_funcSingleProcess (by decide) (by decide) done
  change Callable code instrs target addressParams [] [] storedDivision at callable
  have arranged := sampleCall_arranged callable.small callable.placed.loaded.short
    (s := sampleCall) ⟨rfl, rfl, rfl⟩ rfl
  obtain ⟨-, -, empty, link, -⟩ := addressParams_entry
  have divisor := (oneByZero_pushed (entered_empty callable.small 0x100000 empty)).2
  have kept := storedDivision_kept callable
  have back := (callEnd_link callable addressParams_apart.stack kept (by decide)).trans link
  have run := run_call callable addressParams_apart.stack kept
  rw [back] at run
  refine ⟨.i32const (.i32const (.div (.set rfl .nil))), g, code, done, loads, arranged, divisor,
    (traps_iff callable _ _).mpr (Or.inl divisor), ?_⟩
  rintro ⟨trace, t, complete, thrown⟩
  obtain ⟨-, ends⟩ := Complete.unique ⟨run, step_outside arranged.outside⟩ complete
  cases ends
  exact thrown (read_congr (m := 16) (by decide) (storedDivision_unwritten callable))

/-- What is asked of an unsigned division: it traps on a zero divisor only, and gives the quotient
everywhere else. -/
def UnsignedExact (params locals : List wasm_type) (pre : List Op) (base : BitVec 64)
    (code : List Word) (width : Width) (t : State) : Prop :=
  (Traps params locals pre base code width false t ↔ (operand t width 0).toNat = 0) ∧
    ((operand t width 0).toNat ≠ 0 → ∃ q u,
      q.toNat = (operand t width 1).toNat / (operand t width 0).toNat ∧
      Yields params locals pre base code width false t q u)

/-- The operands that overflow a signed division, read without a sign. -/
theorem overflow_toNat {width : Width} (a b : Value width) :
    (b = -1 ∧ a = BitVec.intMin (8 * width.bytes)) ↔
      a.toNat = 2 ^ (8 * width.bytes - 1) ∧ b.toNat = 2 ^ (8 * width.bytes) - 1 := by
  have least : (BitVec.intMin (8 * width.bytes)).toNat = 2 ^ (8 * width.bytes - 1) := by
    cases width <;> decide
  have last : (-1 : Value width).toNat = 2 ^ (8 * width.bytes) - 1 := by
    cases width <;> decide
  rw [← least, ← last, BitVec.toNat_inj, BitVec.toNat_inj, and_comm]

/-- The guard of the signed division stands in front of the unsigned one, too: it is exact but on
the operands that overflow the signed division. -/
theorem unsigned_division_exact_iff {params results : List wasm_type} {groups : List Group}
    {pre post : List Op} {width : Width} {order : WasmFunction.VisitOrder} {g : WasmFunction}
    (size_byte : BranchFixup.bodySize groups (straight pre width false post) ≤ 255)
    (done : funcSingleProcess (delivered params results groups (straight pre width false post))
      order = .ok g) :
    ∃ code, loadWords (full_instructions g) = .ok code ∧ ∀ base s,
      let locals := groups.flatMap groupLocals
      let t := atDivision params locals pre base s
      let a := operand t width 1
      let b := operand t width 0
      (∃ trace, Run (step code base) ⟨base, s⟩ trace
        ⟨addr base (divisionStart params locals pre), t⟩) ∧
      (UnsignedExact params locals pre base code width t ↔
        ¬ (a.toNat = 2 ^ (8 * width.bytes - 1) ∧ b.toNat = 2 ^ (8 * width.bytes) - 1)) ∧
      ∀ lo hi, Served code base params locals results (straight pre width false post) lo hi s →
        (Throws code base s ↔ Traps params locals pre base code width false t) := by
  have once := divisions_straight pre width false post
  obtain ⟨code, instrs, target, loads, callable, ints, -⟩ :=
    callable_of_funcSingleProcess size_byte (by omega) done
  refine ⟨code, loads, fun base s => ?_⟩
  intro locals t a b
  have traps := traps_iff callable base t
  have zero : b.toNat = 0 ↔ b = 0 := BitVec.toNat_inj (y := 0)
  refine ⟨run_to_division callable base s, ?_, fun lo hi served =>
    (throws_straight callable ints served).trans traps.symm⟩
  rw [← overflow_toNat]
  constructor
  · rintro ⟨exact_, -⟩ overflow
    have none := zero.mp (exact_.mp (traps.mpr (Or.inr overflow)))
    rw [none] at overflow
    cases width <;> exact absurd overflow.1 (by decide)
  · intro legal
    have refused : Refuses a b ↔ b = 0 := or_iff_left legal
    refine ⟨traps.trans (refused.trans zero.symm), fun divisor => ?_⟩
    obtain ⟨u, yields⟩ := (division_exits callable base t).2
      (fun refuses => divisor (zero.mpr (refused.mp refuses)))
    exact ⟨_, u, BitVec.toNat_udiv, yields⟩

theorem unsigned_division_exact_iff_sample :
    ∃ g code, funcSingleProcess (delivered [] [.i32 0] [] (straight oneByZero .w false []))
        BranchFixup.inOrder = .ok g ∧
      loadWords (full_instructions g) = .ok code ∧
      UnsignedExact [] [] oneByZero 0x100000 code .w
        (atDivision [] [] oneByZero 0x100000 sampleCall) := by
  obtain ⟨g, done⟩ := BranchFixup.ok_of_isOk (show (funcSingleProcess
    (delivered [] [.i32 0] [] (straight oneByZero .w false [])) BranchFixup.inOrder).isOk = true by
      decide +kernel)
  obtain ⟨code, loads, exact_⟩ := unsigned_division_exact_iff (by decide) done
  obtain ⟨-, iff, -⟩ := exact_ 0x100000 sampleCall
  refine ⟨g, code, done, loads, iff.mpr ?_⟩
  rintro ⟨dividend, -⟩
  have one := (oneByZero_operands 0x100000 sampleCall).1
  have same := congrArg BitVec.toNat one
  exact absurd (same.symm.trans dividend) (by decide)

/-- The smallest value and minus one, each computed from constants. -/
def overflowing : List Op :=
  [.i32const 32, .i32const 32, .arith .w .mul, .i32const 32, .arith .w .mul, .i32const 32,
    .arith .w .mul, .i32const 32, .arith .w .mul, .i32const 32, .arith .w .mul, .i32const 2,
    .arith .w .mul, .i32const 0, .i32const 1, .arith .w .sub]

/-- `0x80000000` divided by `0xffffffff`, without a sign: the quotient is zero, and it traps. -/
theorem unsigned_overflow_traps :
    ∃ g code, funcSingleProcess (delivered [] [.i32 0] [] (straight overflowing .w false []))
        BranchFixup.inOrder = .ok g ∧
      loadWords (full_instructions g) = .ok code ∧
      operand (atDivision [] [] overflowing 0x100000 sampleCall) .w 1 = 0x80000000 ∧
      operand (atDivision [] [] overflowing 0x100000 sampleCall) .w 0 = 0xffffffff ∧
      Traps [] [] overflowing 0x100000 code .w false
        (atDivision [] [] overflowing 0x100000 sampleCall) ∧
      ¬ UnsignedExact [] [] overflowing 0x100000 code .w
        (atDivision [] [] overflowing 0x100000 sampleCall) := by
  obtain ⟨g, done⟩ := BranchFixup.ok_of_isOk (show (funcSingleProcess
    (delivered [] [.i32 0] [] (straight overflowing .w false []))
    BranchFixup.inOrder).isOk = true by
      decide +kernel)
  obtain ⟨code, instrs, target, loads, callable, -⟩ :=
    callable_of_funcSingleProcess (by decide) (by decide) done
  have represents := atDivision_represents (show ∀ o ∈ overflowing, Op.Plain o by decide)
    (by decide) rfl 0x100000
    sampleCall
  have dividend := represents.stack 1 ⟨.w, 0x80000000⟩ rfl
  have divisor := represents.stack 0 ⟨.w, 0xffffffff⟩ rfl
  have traps : Traps [] [] overflowing 0x100000 code .w false
      (atDivision [] [] overflowing 0x100000 sampleCall) :=
    (traps_iff callable _ _).mpr (Or.inr ⟨divisor, dividend⟩)
  refine ⟨g, code, done, loads, dividend, divisor, traps, fun exact_ => ?_⟩
  have zero := exact_.1.mp traps
  rw [divisor] at zero
  exact absurd zero (by decide)

end StraightDivision
