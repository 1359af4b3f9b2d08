import TinyWasm.ExecutedPath
import TinyWasm.StraightDivision

/-!
# The operand stack of a call

Around the body nothing is addressed through `x20 + x21` but the results the
epilogue pops. On the way over `longjmp` these pops begin at the bottom of the
operand stack, because `x21` is taken back to its value at `setjmp`.
-/

namespace StackSafety

open HexText Opcode Wasm Emit ArmInstruction ByteMemory StepRuns ArmMachine BlockEffects
open LabelledCode LocalDeclarations SourceBody EncoderCorrectness EmissionSpec WholeFunction
open CodeItems FrameSpec StructuredRun CodeLayout BodyFrame FrameEffects CallStubs EntryRun
open ExitRun FunctionRun FunctionCall CallRun StackAccesses OperandSupply ExecutedPath Validation
open StraightDivision

/-! ### Around the body -/

theorem silent_stores (offset : Int) (stores : List Store) :
    ∀ i ∈ storesBlock offset stores, silent i = true := by
  induction stores generalizing offset with
  | nil => exact fun i hi => absurd hi List.not_mem_nil
  | cons st rest ih => exact List.forall_mem_cons.mpr ⟨rfl, ih _⟩

theorem silent_frame (params locals : List wasm_type) :
    ∀ i ∈ frameBlock params locals, silent i = true := by
  refine List.forall_mem_cons.mpr ⟨rfl, fun i hi => ?_⟩
  rcases List.mem_append.mp hi with hi | hi
  · exact silent_stores _ _ i hi
  · exact silent_stores _ _ i hi

theorem silent_arguments (params : List wasm_type) :
    ∀ i ∈ argumentBlock params, silent i = true := by
  have loads : ∀ k, ∀ i ∈ argLoads k params, silent i = true := by
    induction params with
    | nil => exact fun k i hi => absurd hi List.not_mem_nil
    | cons v rest ih =>
      intro k i hi
      cases v with
      | i32 v =>
        rcases List.mem_append.mp hi with hi | hi
        · exact silent_movConst .w _ (v.setWidth 64) i (by
            rwa [movConst, BitVec.setWidth_setWidth_of_le v (by decide), BitVec.setWidth_eq])
        · exact ih _ i hi
      | i64 v =>
        rcases List.mem_append.mp hi with hi | hi
        · exact silent_movConst .x _ v i hi
        · exact ih _ i hi
      | f32 _ => exact ih _ i hi
      | f64 _ => exact ih _ i hi
  intro i hi
  rcases List.mem_append.mp hi with hi | hi
  · simp only [List.mem_cons, List.not_mem_nil, or_false] at hi
    rcases hi with rfl | rfl | rfl <;> rfl
  · exact loads 0 i hi

section
variable {code : List Word} {instrs : List Instr} {target : String → Int} {n : Nat}
  {params locals results : List wasm_type} {body : Seq} (loaded : Loaded code instrs)
  (base stack : BitVec 64) (layout : Layout instrs target n params locals results body)
include loaded

theorem branch_stays {p q : Nat} {kind : BranchKind} (here : BranchAt instrs p kind q) (s : State) :
    ∀ c ∈ [Config.mk (addr base p) s], StaysIn code base stack c := by
  obtain ⟨disp, here, -⟩ := here
  refine List.forall_mem_singleton.mpr (staysIn_silent loaded base stack here ?_ s)
  cases kind <;> rfl

theorem silent_stays {p : Nat} {block : List Instr} (stands : Stands instrs p block)
    (quiet : ∀ i ∈ block, silent i = true) (s : State) :
    ∀ c ∈ blockTrace base p block s, StaysIn code base stack c :=
  (staysIn_block loaded base stack stands s).mpr (allIn_silent quiet s)

theorem test_stays {p q : Nat} {kind : BranchKind} {block : List Instr}
    (stands : Stands instrs p block) (here : BranchAt instrs (p + block.length) kind q)
    (quiet : ∀ i ∈ block, silent i = true) (s : State) :
    ∀ c ∈ branchTrace base p block s, StaysIn code base stack c :=
  List.forall_mem_append.mpr ⟨silent_stays loaded base stack stands quiet s,
    branch_stays loaded base stack here _⟩

include layout

theorem entry_stays (s : State) :
    ∀ c ∈ entryTrace params locals base n s, StaysIn code base stack c := by
  obtain ⟨setjmp, back⟩ := stands_append.mp (setjmpBlock_eq ▸ layout.setjmp)
  have ret := staysIn_silent loaded base stack (back 0 _ rfl) rfl (marked params locals base n s)
  simp only [entryTrace, List.forall_mem_append]
  exact ⟨⟨⟨⟨⟨⟨⟨branch_stays loaded base stack layout.toEntry s,
    silent_stays loaded base stack layout.frame (silent_frame params locals) s⟩,
    silent_stays loaded base stack layout.save (by simp [mov, silent]) _⟩,
    branch_stays loaded base stack layout.call _⟩,
    silent_stays loaded base stack setjmp (by simp [setjmpBody, saveRegs, movSp, silent]) _⟩,
    List.forall_mem_singleton.mpr ret⟩,
    test_stays loaded base stack layout.test layout.toRaise (by simp [cmpZero, silent]) _⟩,
    silent_stays loaded base stack layout.restore (by simp [silent]) _⟩

theorem exit_stays (w : Walk) :
    ∀ c ∈ exitTrace params locals body base n w, StaysIn code base stack c := by
  obtain ⟨loads, behind⟩ := stands_append.mp (longjmpBlock_eq ▸ layout.longjmp)
  obtain ⟨rest, br⟩ := stands_append.mp behind
  have jump := staysIn_silent loaded base stack (br 0 _ rfl) rfl (jumped w.state)
  rw [exitTrace]
  split_ifs
  · simp only [trapTrace, List.forall_mem_append]
    exact ⟨⟨⟨⟨⟨⟨⟨silent_stays loaded base stack layout.prepare
        (by simp [mov, movSp, silent]) _,
      branch_stays loaded base stack layout.toLongjmp _⟩,
      silent_stays loaded base stack loads (by simp [longjmpLoads, saveRegs, silent]) _⟩,
      silent_stays loaded base stack rest (by simp [longjmpRest, movSp, cmpZero, silent]) _⟩,
      List.forall_mem_singleton.mpr jump⟩,
      test_stays loaded base stack layout.test layout.toRaise (by simp [cmpZero, silent]) _⟩,
      silent_stays loaded base stack layout.raise
        (by simp [mov, movSp, returnCode, silent]) _⟩,
      branch_stays loaded base stack layout.toFinalize _⟩
  · exact silent_stays loaded base stack layout.returned (by simp [returnCode, silent]) _

theorem leave_stays (u : State) :
    (∀ c ∈ leaveTrace params locals results base (n + finalizeStart params locals body) u,
      StaysIn code base stack c) ↔ AllIn stack (resultsBlock 0 results) u := by
  have ret := staysIn_silent loaded base stack layout.ret rfl (left params locals results u)
  rw [leaveTrace, List.forall_mem_append, staysIn_block loaded base stack layout.leave,
    List.forall_mem_singleton, leaveBlock, allIn_append, and_assoc]
  exact and_iff_left ⟨allIn_silent (by simp [silent]) _, ret⟩

end

/-! ### The pops of the results -/

/-- The pops stay in the `wasm_stack` exactly when the results are there, as long as no pop but the
last is to `x20`. -/
theorem results_stay {i : Nat} {results : List wasm_type} (few : i + results.length ≤ 21)
    {u : State} {k : Int} (pointer : u.x 21 = depth k) (low : 0 ≤ k) (high : k ≤ 1000) :
    AllIn (u.x 20) (resultsBlock i results) u ↔ (results.length : Int) ≤ k := by
  induction results generalizing i u k with
  | nil => exact iff_of_true trivial low
  | cons v rest ih =>
    let width := widthOf (varRegType v)
    have first := needs_pop width (BitVec.ofNat 5 i) u k pointer low high
    rw [List.length_cons] at few ⊢
    rw [resultsBlock, allIn_append, first]
    cases rest with
    | nil => exact and_iff_left trivial
    | cons v' rest =>
      rw [List.length_cons] at few
      have number : (BitVec.ofNat 5 i).toNat = i := by
        rw [BitVec.toNat_ofNat]
        omega
      have apart : ∀ r : Reg, 20 ≤ r.toNat → BitVec.ofNat 5 i ≠ r := by
        rintro r hr rfl
        omega
      have twenty := apart 20 (by decide)
      have pointed := apart 21 (by decide)
      have zero := apart 31 (by decide)
      have moved : (execAll (popBlock width (BitVec.ofNat 5 i)) u).x 21 = depth (k - 1) := by
        rw [moves_pop width zero pointed u, pointer, ← depth_add]
        rfl
      have kept : (execAll (popBlock width (BitVec.ofNat 5 i)) u).x 20 = u.x 20 := by
        rw [exec_pop width zero]
        exact (OperandStack.popped_regs u width twenty pointed).1
      by_cases some : 1 ≤ k
      · have later := ih (i := i + 1) (by rw [List.length_cons]; omega) moved (by omega) (by omega)
        rw [kept] at later
        rw [later]
        omega
      · exact iff_of_false (fun both => some both.1) (by omega)

/-! ### A whole call -/

/-- The state in which a call enters the body. -/
def bodyState (params locals : List wasm_type) (base : BitVec 64) (s : State) : State :=
  entered params locals base (functionStart params) (atEntry params s)

section
variable {code : List Word} {instrs : List Instr} {target : String → Int}
  {params locals results : List wasm_type} {body : Seq}
  (callable : Callable code instrs target params locals results body)
  (few : params.length ≤ 19) (ints : ∀ v ∈ params, isFloat v = false)
  {base : BitVec 64} {s : State}
include callable few ints

theorem bodyState_eq (base : BitVec 64) (s : State) :
    (bodyState params locals base s).x 20 = s.x 1 ∧
    (bodyState params locals base s).x 21 = depth 0 ∧
    (bodyState params locals base s).sp = (atEntry params s).sp - sizeBytes params locals := by
  obtain ⟨-, stack, empty, -⟩ := atEntry_eq few ints s
  obtain ⟨others, -, -, sp, -⟩ := entered_eq callable.small base (functionStart params)
    (atEntry params s)
  exact ⟨(others 20 (by decide) (by decide) (by decide) (by decide)).trans stack,
    (others 21 (by decide) (by decide) (by decide) (by decide)).trans empty, sp⟩

variable (arranged : Arranged code base params locals 0 1024 s)
include arranged

theorem body_charts (short : body.bytes.length ≤ 255) :
    Charts code base (s.x 1) ((atEntry params s).x 19) areaSize body.bytes.length
      (bodyState params locals base s) (callWalk params locals body base s)
      (Supplied (frameOf params locals) body (bodyState params locals base s)) := by
  obtain ⟨stack, empty, sp⟩ := bodyState_eq callable few ints base s
  have layout := layout_of_placed callable.placed
  have room := room_of_apart callable.small (bufferApart_of_arranged few ints arranged)
  rw [(atEntry_eq few ints s).2.1] at room
  have charts := walk_charts callable.placed.loaded base room layout.trap body callable.uses
    layout.linked layout.labelled stack empty sp (le_refl 0) (by omega) 0 0
  rw [Int.zero_add] at charts
  exact charts

/-- In front of the epilogue the operand stack is where the body has left it, or empty after a
trap. -/
theorem exit_pointer (kept : Kept ((atEntry params s).x 19) areaSize
      (bodyState params locals base s) (callWalk params locals body base s)) :
    (exitState (callWalk params locals body base s)).x 20 = s.x 1 ∧
      (exitState (callWalk params locals body base s)).x 21 =
        if (callWalk params locals body base s).trapped then depth 0
        else (callWalk params locals body base s).state.x 21 := by
  have machine := (bufferApart_of_arranged few ints arranged).stack
  obtain ⟨stack, -⟩ := bodyState_eq callable few ints base s
  obtain ⟨-, stackEntry, emptyEntry, -⟩ := atEntry_eq few ints s
  cases trapped : (callWalk params locals body base s).trapped with
  | true =>
    obtain ⟨buffer, -, -, -, holds⟩ := bodyWalk_eq callable.small machine kept
    obtain ⟨-, calledX, -⟩ := called_eq params locals base
      (functionStart params) (atEntry params s)
    obtain ⟨callingX, -⟩ := calling_eq callable.small (atEntry params s)
    obtain ⟨back, -⟩ := raised_eq (t := (callWalk params locals body base s).state)
      (by rw [callWalk, buffer]; exact holds)
    rw [exitState, if_pos trapped, if_pos rfl]
    exact ⟨(back 1 (by decide)).trans (((calledX 20 (by decide)).trans
        (callingX 20 (by decide))).trans stackEntry),
      (back 2 (by decide)).trans (((calledX 21 (by decide)).trans
        (callingX 21 (by decide))).trans emptyEntry)⟩
  | false =>
    obtain ⟨others, -⟩ := returned_eq (callWalk params locals body base s).state
    rw [exitState, trapped, if_neg Bool.false_ne_true, if_neg Bool.false_ne_true]
    exact ⟨(others 20 (by decide)).trans ((kept.keeps.x 20 (by decide)).trans stack),
      others 21 (by decide)⟩

theorem leave_stays_iff (narrow : results.length ≤ 21) (short : body.bytes.length ≤ 255)
    (inside : ∀ c ∈ (callWalk params locals body base s).trace, StaysIn code base (s.x 1) c) :
    (∀ c ∈ leaveTrace params locals results base
        (functionStart params + finalizeStart params locals body)
        (exitState (callWalk params locals body base s)), StaysIn code base (s.x 1) c) ↔
      ((callWalk params locals body base s).trapped = false →
        Enough results.length (callWalk params locals body base s).state) ∧
      ((callWalk params locals body base s).trapped = true → results = []) := by
  have layout := layout_of_placed callable.placed
  have charts := body_charts callable few ints arranged short
  obtain ⟨stack, pointer⟩ := exit_pointer callable few ints arranged (charts.kept inside)
  have leaves := leave_stays callable.placed.loaded base (s.x 1) layout
    (exitState (callWalk params locals body base s))
  refine leaves.trans ?_
  cases trapped : (callWalk params locals body base s).trapped with
  | true =>
    rw [trapped, if_pos rfl] at pointer
    have pops :=
      results_stay (show 0 + results.length ≤ 21 by omega) pointer (le_refl 0) (by decide)
    rw [stack] at pops
    rw [pops]
    constructor
    · intro none
      exact ⟨fun through => absurd through.symm Bool.false_ne_true,
        fun _ => List.eq_nil_of_length_eq_zero (by omega)⟩
    · rintro ⟨-, none⟩
      rw [none rfl]
      exact le_refl _
  | false =>
    rw [trapped, if_neg Bool.false_ne_true] at pointer
    obtain ⟨k, low, high, height⟩ := charts.pointer inside trapped
    have pops := results_stay (show 0 + results.length ≤ 21 by omega) (pointer.trans height) low
      (by omega)
    rw [stack] at pops
    rw [pops, enough_iff height (by omega) (by omega)]
    exact ⟨fun h => ⟨fun _ => h, fun none => absurd none Bool.false_ne_true⟩, fun h => h.1 rfl⟩

/-- A call stays in the `wasm_stack` exactly when every instruction of the body that it reaches, and
the epilogue, finds its operands on the stack, and there are no results after a trap. -/
theorem call_stays_iff (narrow : results.length ≤ 21) (short : body.bytes.length ≤ 255) :
    (∀ trace d, Run (step code base) ⟨base, s⟩ trace d →
        ∀ c ∈ trace, StaysIn code base (s.x 1) c) ↔
      Supplied (frameOf params locals) body (bodyState params locals base s)
        (Enough results.length) ∧
      ((callWalk params locals body base s).trapped = true → results = []) := by
  have loaded := callable.placed.loaded
  have layout := layout_of_placed callable.placed
  have charts := body_charts callable few ints arranged short
  have loads := run_block loaded base callable.loads
    (fun i hi => (argumentBlock_plain params i hi).1) s
  rw [addr_zero, Nat.zero_add] at loads
  have start := loads.append (run_body loaded base layout callable.small (atEntry params s))
  rw [charts.fed_iff]
  constructor
  · intro stays
    have inside : ∀ c ∈ (callWalk params locals body base s).trace, StaysIn code base (s.x 1) c :=
      fun c hc => stays _ _ start c (List.mem_append_right _ (List.mem_append_right _ hc))
    have whole := run_call callable (bufferApart_of_arranged few ints arranged).stack
      (charts.kept inside)
    have left := (leave_stays_iff callable few ints arranged narrow short inside).mp
      fun c hc => stays _ _ whole c (List.mem_append_right _ (List.mem_append_right _ hc))
    exact ⟨⟨inside, left.1⟩, left.2⟩
  · rintro ⟨⟨inside, enough⟩, none⟩
    have complete := complete_call callable few ints arranged (charts.kept inside) (by omega)
    have left := (leave_stays_iff callable few ints arranged narrow short inside).mpr ⟨enough, none⟩
    have front := silent_stays loaded base (s.x 1) callable.loads (silent_arguments params) s
    have entry := entry_stays loaded base (s.x 1) layout (atEntry params s)
    have exit := exit_stays loaded base (s.x 1) layout (callWalk params locals body base s)
    refine fun trace d run => forall_of_complete complete ?_ run
    simp only [callTrace, functionTrace, List.forall_mem_append]
    exact ⟨front, ⟨⟨entry, inside⟩, exit⟩, left⟩

/-- Some run reaches `preparelongjmp` exactly when the body traps. -/
theorem reaches_trap_iff (kept : Kept ((atEntry params s).x 19) areaSize
      (bodyState params locals base s) (callWalk params locals body base s))
    (narrow : results.length ≤ 29) :
    (∃ trace d, Run (step code base) ⟨base, s⟩ trace d ∧
        Passes base (trapStart params) trace) ↔
      (callWalk params locals body base s).trapped = true := by
  have complete := complete_call callable few ints arranged kept narrow
  rw [← trapped_iff callable base s]
  constructor
  · rintro ⟨trace, d, run, passes⟩
    obtain ⟨rest, whole, -⟩ := run.part_of complete
    rw [whole]
    exact passes_append.mpr (Or.inl passes)
  · exact fun passes => ⟨_, _, complete.1, passes⟩

omit arranged in
/-- A valid body finds its operands when it does so behind the returns it executes. -/
theorem supplied_valid_iff (valid : Valid params locals results body)
    (short : body.bytes.length ≤ 255) :
    Supplied (frameOf params locals) body (bodyState params locals base s)
        (Enough results.length) ↔
      FedBehindReturns results.length
        (executed (frameOf params locals) body (bodyState params locals base s)) := by
  obtain ⟨-, empty, -⟩ := bodyState_eq callable few ints base s
  have fed := supplied_of_typed_iff valid callable.uses (by omega) empty
  rwa [List.length_reverse, List.length_map] at fed

omit arranged in
/-- One without `return` always does. -/
theorem supplied_of_valid (valid : Valid params locals results body) (free : ReturnFree body)
    (short : body.bytes.length ≤ 255) :
    Supplied (frameOf params locals) body (bodyState params locals base s)
      (Enough results.length) :=
  (supplied_valid_iff callable few ints valid short).mpr
    (fed_of_free (executed_returnFree free _))

end

/-- A call of a valid function stays in the `wasm_stack` exactly when it has no results or does not
trap, and behind every `return` it executes there are as many entries as the instructions take. -/
theorem stack_accesses_iff {params results : List wasm_type} {groups : List Group} {body : Seq}
    {order : WasmFunction.VisitOrder} {g : WasmFunction} (few : params.length ≤ 19)
    (narrow : results.length ≤ 21) (size_byte : BranchFixup.bodySize groups body ≤ 255)
    (once : body.divisions ≤ 1) (valid : Valid params (groups.flatMap groupLocals) results body)
    (done : funcSingleProcess (delivered params results groups body) order = .ok g) :
    ∃ code, loadWords (full_instructions g) = .ok code ∧ ∀ base s,
      let locals := groups.flatMap groupLocals
      Arranged code base params locals 0 1024 s →
        ((∀ trace d, Run (step code base) ⟨base, s⟩ trace d →
            ∀ c ∈ trace, StaysIn code base (s.x 1) c) ↔
          (results = [] ∨ ¬ ∃ trace d, Run (step code base) ⟨base, s⟩ trace d ∧
            Passes base (trapStart params) trace) ∧
          FedBehindReturns results.length
            (executed (frameOf params locals) body (bodyState params locals base s))) := by
  obtain ⟨code, instrs, target, loads, callable, ints, -⟩ :=
    callable_of_funcSingleProcess size_byte once done
  refine ⟨code, loads, fun base s => ?_⟩
  intro locals arranged
  have short : body.bytes.length ≤ 255 := by
    rw [BranchFixup.bodySize] at size_byte
    omega
  have charts := body_charts callable few ints arranged short
  refine (call_stays_iff callable few ints arranged narrow short).trans ?_
  rw [← supplied_valid_iff callable few ints valid short, and_comm]
  refine and_congr_left fun supplied => ?_
  have inside := ((charts.fed_iff _).mp supplied).1
  rw [reaches_trap_iff callable few ints arranged (charts.kept inside) (by omega)]
  exact Decidable.imp_iff_not_or.trans or_comm

/-- A division by zero in a function without results. -/
theorem stack_accesses_iff_void :
    ∃ g code, funcSingleProcess (delivered [.i32 7] [] []
        (straight oneByZero .w true [.localVar .set 0])) BranchFixup.inOrder = .ok g ∧
      loadWords (full_instructions g) = .ok code ∧
      ∀ trace d, Run (step code 0x100000) ⟨0x100000, sampleCall⟩ trace d →
        ∀ c ∈ trace, StaysIn code 0x100000 (sampleCall.x 1) c := by
  obtain ⟨g, done⟩ := BranchFixup.ok_of_isOk (show (funcSingleProcess (delivered [.i32 7] [] []
    (straight oneByZero .w true [.localVar .set 0])) BranchFixup.inOrder).isOk = true by
      decide +kernel)
  obtain ⟨code, instrs, target, loads, callable, -⟩ :=
    callable_of_funcSingleProcess (by decide) (by decide) done
  obtain ⟨code', loads', exact_⟩ := stack_accesses_iff (by decide) (by decide) (by decide)
    (by decide) (.i32const (.i32const (.div (.set rfl .nil)))) done
  cases loads.symm.trans loads'
  have arranged := sampleCall_arranged callable.small callable.placed.loaded.short
    (s := sampleCall) ⟨rfl, rfl, rfl⟩ rfl
  refine ⟨g, code, done, loads, (exact_ 0x100000 sampleCall arranged).mpr ⟨Or.inl rfl,
    fed_of_free (executed_returnFree ?_ _)⟩⟩
  simp [before, ReturnFree]

/-- One divided by zero, with a result: the epilogue reads below the `wasm_stack`. -/
theorem trap_reads_below :
    Valid [] [] [.i32 0] (straight oneByZero .w true []) ∧
    ∃ g code, funcSingleProcess (delivered [] [.i32 0] [] (straight oneByZero .w true []))
        BranchFixup.inOrder = .ok g ∧
      loadWords (full_instructions g) = .ok code ∧
      Arranged code 0x100000 [] [] 0 1024 sampleCall ∧
      ∃ trace d, Run (step code 0x100000) ⟨0x100000, sampleCall⟩ trace d ∧
        ∃ c ∈ trace, ¬ StaysIn code 0x100000 (sampleCall.x 1) c := by
  obtain ⟨g, done⟩ := BranchFixup.ok_of_isOk (show (funcSingleProcess
    (delivered [] [.i32 0] [] (straight oneByZero .w true [])) BranchFixup.inOrder).isOk = true by
      decide +kernel)
  obtain ⟨code, instrs, target, loads, callable, ints, -⟩ :=
    callable_of_funcSingleProcess (by decide) (by decide) done
  have arranged := sampleCall_arranged callable.small callable.placed.loaded.short
    (s := sampleCall) ⟨rfl, rfl, rfl⟩ rfl
  have traps :
      (callWalk [] [] (straight oneByZero .w true []) 0x100000 sampleCall).trapped = true :=
    (walk_straight (frameOf [] []) 0x100000 oneByZero .w true [] _ _ _ _).mpr
      (Or.inl (oneByZero_operands 0x100000 sampleCall).2)
  have leaves : ¬ ∀ trace d, Run (step code 0x100000) ⟨0x100000, sampleCall⟩ trace d →
      ∀ c ∈ trace, StaysIn code 0x100000 (sampleCall.x 1) c := by
    intro stays
    have none := ((call_stays_iff callable (by decide) ints arranged (by decide) (by decide)).mp
      stays).2 traps
    exact nomatch none
  push Not at leaves
  exact ⟨.i32const (.i32const (.div .nil)), g, code, done, loads, arranged, leaves⟩

end StackSafety
