import TinyWasm.FrameEffects
import TinyWasm.CallStubs

/-!
# From the start of a function to its body

The machine lays out the frame, saves the frame record, calls `setjmp`, finds
zero in `x0` and restores the frame record. At the body the area holds what a
trap takes back.
-/

namespace EntryRun

open HexText Wasm ArmInstruction ByteMemory StepRuns ArmMachine BlockEffects LabelledCode SourceBody
open CodeItems FrameSpec StructuredRun CodeLayout BodyFrame FrameEffects CallStubs

/-! ### Positions and stack pointers along a trace -/

/-- Every step of the trace is from a position that satisfies `P`. -/
def StepsIn (base : BitVec 64) (P : Nat → Prop) (trace : List Config) : Prop :=
  ∀ c ∈ trace, ∃ k, P k ∧ c.pc = addr base k

/-- At every step of the trace the stack pointer satisfies `P`. -/
def SpIn (P : BitVec 64 → Prop) (trace : List Config) : Prop := ∀ c ∈ trace, P c.state.sp

theorem StepsIn.mono {base : BitVec 64} {P Q : Nat → Prop} {trace : List Config}
    (h : StepsIn base P trace) (more : ∀ k, P k → Q k) : StepsIn base Q trace := by
  intro c hc
  obtain ⟨k, hk, place⟩ := h c hc
  exact ⟨k, more k hk, place⟩

theorem StepsIn.append {base : BitVec 64} {P : Nat → Prop} {first second : List Config}
    (h : StepsIn base P first) (h' : StepsIn base P second) :
    StepsIn base P (first ++ second) := by
  intro c hc
  rcases List.mem_append.mp hc with hc | hc
  · exact h c hc
  · exact h' c hc

theorem stepsIn_one {base : BitVec 64} {P : Nat → Prop} {k : Nat} (h : P k) (s : State) :
    StepsIn base P [⟨addr base k, s⟩] := by
  intro c hc
  rw [List.mem_singleton] at hc
  subst hc
  exact ⟨k, h, rfl⟩

theorem stepsIn_block {base : BitVec 64} {P : Nat → Prop} {p : Nat} {block : List Instr}
    (h : ∀ k, p ≤ k → k < p + block.length → P k) (s : State) :
    StepsIn base P (blockTrace base p block s) := by
  induction block generalizing p s with
  | nil => exact fun c hc => absurd hc List.not_mem_nil
  | cons i block ih =>
    rw [List.length_cons] at h
    exact (stepsIn_one (h p (Nat.le_refl p) (by omega)) s).append
      (ih (fun k low high => h k (by omega) (by omega)) (exec i s))

theorem stepsIn_branch {base : BitVec 64} {P : Nat → Prop} {p : Nat} {block : List Instr}
    (h : ∀ k, p ≤ k → k ≤ p + block.length → P k) (s : State) :
    StepsIn base P (branchTrace base p block s) :=
  (stepsIn_block (fun k low high => h k low (by omega)) s).append
    (stepsIn_one (h _ (by omega) (Nat.le_refl _)) _)

theorem SpIn.append {P : BitVec 64 → Prop} {first second : List Config} (h : SpIn P first)
    (h' : SpIn P second) : SpIn P (first ++ second) := by
  intro c hc
  rcases List.mem_append.mp hc with hc | hc
  · exact h c hc
  · exact h' c hc

theorem spIn_one {P : BitVec 64 → Prop} {c : Config} (h : P c.state.sp) : SpIn P [c] := by
  intro d hd
  rw [List.mem_singleton] at hd
  subst hd
  exact h

theorem spIn_block {P : BitVec 64 → Prop} {base : BitVec 64} {p : Nat} {block : List Instr}
    (still : ∀ i ∈ block, movesSp i = false) {s : State} (h : P s.sp) :
    SpIn P (blockTrace base p block s) := by
  induction block generalizing p s with
  | nil => exact fun c hc => absurd hc List.not_mem_nil
  | cons i block ih =>
    have kept : (exec i s).sp = s.sp := exec_sp (still i (by simp)) s
    exact (spIn_one (c := ⟨addr base p, s⟩) h).append
      (ih (fun j hj => still j (List.mem_cons_of_mem _ hj)) (by rw [kept]; exact h))

/-- A block whose first instruction alone may move the stack pointer. -/
theorem spIn_move {P : BitVec 64 → Prop} {base : BitVec 64} {p : Nat} {i : Instr}
    {block : List Instr} (still : ∀ j ∈ block, movesSp j = false) {s : State} (here : P s.sp)
    (there : P (exec i s).sp) : SpIn P (blockTrace base p (i :: block) s) :=
  (spIn_one (c := ⟨addr base p, s⟩) here).append (spIn_block still there)

theorem spIn_branch {P : BitVec 64 → Prop} {base : BitVec 64} {p : Nat} {block : List Instr}
    (still : ∀ i ∈ block, movesSp i = false) {s : State} (h : P s.sp) :
    SpIn P (branchTrace base p block s) := by
  have kept : (execAll block s).sp = s.sp := by
    induction block generalizing s p with
    | nil => rfl
    | cons i block ih =>
      have first : (exec i s).sp = s.sp := exec_sp (still i (by simp)) s
      rw [execAll_cons, ih (p := p) (fun j hj => still j (List.mem_cons_of_mem _ hj))
        (by rwa [first]), first]
  exact (spIn_block still h).append (spIn_one (by rwa [kept]))

/-! ### The call of `setjmp` -/

theorem exec_saveFrame (s : State) :
    exec (.ldpStp false .x .preIndex 29 30 31 (-32)) s =
      { s with
        mem := write (write s.mem (s.sp - 32) 8 (s.x 29)) (s.sp - 32 + 8) 8 (s.x 30)
        sp := s.sp - 32 } := by
  have down : s.regSp .x 31 + BitVec.ofInt 64 (-32) = s.sp - 32 :=
    (BitVec.sub_eq_add_neg s.sp 32).symm
  have pair : ∀ a, movePair s false .x 29 30 a =
      { s with mem := write (write s.mem a 8 (s.x 29)) (a + 8) 8 (s.x 30) } := fun a => rfl
  change (movePair s false .x 29 30 (s.regSp .x 31 + BitVec.ofInt 64 (-32))).setRegSp .x 31
    (s.regSp .x 31 + BitVec.ofInt 64 (-32)) = _
  rw [down, pair, State.setRegSp, if_pos rfl, truncate_x]

theorem exec_restoreFrame (s : State) :
    exec (.ldpStp true .x .postIndex 29 30 31 32) s =
      { s with
        x := Function.update (Function.update s.x 29 (read 64 s.mem s.sp 8)) 30
          (read 64 s.mem (s.sp + 8) 8)
        sp := s.sp + 32 } := by
  have pair : ∀ a, movePair s true .x 29 30 a =
      (s.setReg .x 29 (s.load .x a)).setReg .x 30 (s.load .x (a + 8)) := fun a => rfl
  change (movePair s true .x 29 30 s.sp).setRegSp .x 31 (s.sp + 32) = _
  rw [pair, State.setRegSp, if_pos rfl, truncate_x, setReg_of_ne (by decide),
    setReg_of_ne (by decide)]
  rfl

def saveBlock : List Instr := [.ldpStp false .x .preIndex 29 30 31 (-32), mov 0 19]

def restoreBlock : List Instr := [.ldpStp true .x .postIndex 29 30 31 32]

section
variable (params locals : List wasm_type) (base : BitVec 64) (n : Nat)

/-- Where `setjmp` returns to, both times. -/
def returnAddress : BitVec 64 := addr base (n + wrapperStart params locals + 3)

/-- The states between the parts of the entry: with the frame laid out, in front of the call,
in `setjmp`, behind it, behind the test, and at the body. -/
def framed (s : State) : State := execAll (frameBlock params locals) s

def calling (s : State) : State := execAll saveBlock (framed params locals s)

def called (s : State) : State :=
  (calling params locals s).setReg .x 30 (returnAddress params locals base n)

def marked (s : State) : State := execAll setjmpBody (called params locals base n s)

def tested (s : State) : State := execAll [cmpZero .x 0] (marked params locals base n s)

def entered (s : State) : State := execAll restoreBlock (tested params locals base n s)

/-- The steps from the start of the function to its body. -/
def entryTrace (s : State) : List Config :=
  [⟨addr base n, s⟩] ++ blockTrace base (n + 32) (frameBlock params locals) s ++
    blockTrace base (n + wrapperStart params locals) saveBlock (framed params locals s) ++
    [⟨addr base (n + wrapperStart params locals + 2), calling params locals s⟩] ++
    blockTrace base (n + 1) setjmpBody (called params locals base n s) ++
    [⟨addr base (n + 10), marked params locals base n s⟩] ++
    branchTrace base (n + wrapperStart params locals + 3) [cmpZero .x 0]
      (marked params locals base n s) ++
    blockTrace base (n + wrapperStart params locals + 5) restoreBlock
      (tested params locals base n s)

end

section
variable {params locals : List wasm_type}

theorem called_eq (params locals : List wasm_type) (base : BitVec 64) (n : Nat) (s : State) :
    (called params locals base n s).x 30 = returnAddress params locals base n ∧
      (∀ r, r ≠ 30 → (called params locals base n s).x r = (calling params locals s).x r) ∧
      (called params locals base n s).sp = (calling params locals s).sp ∧
      (called params locals base n s).mem = (calling params locals s).mem := by
  rw [called]
  refine ⟨?_, fun r hr => setReg_x_of_ne hr, setReg_sp .., setReg_mem ..⟩
  rw [setReg_of_ne (by decide)]
  simp only [Function.update_self, truncate_x]

variable (small : frameSize params locals ≤ 4080)
include small

theorem framed_eq (s : State) :
    (framed params locals s).x = s.x ∧
      (framed params locals s).sp = s.sp - sizeBytes params locals ∧
      (framed params locals s).mem =
        putAll s.mem (framePuts params locals (sunk params locals s)) := by
  rw [framed, exec_frame small]
  exact ⟨rfl, rfl, rfl⟩

theorem calling_eq (s : State) :
    (∀ r, r ≠ 0 → (calling params locals s).x r = s.x r) ∧
      (calling params locals s).x 0 = s.x 19 ∧
      (calling params locals s).sp = s.sp - sizeBytes params locals - 32 ∧
      (calling params locals s).mem =
        write (write (framed params locals s).mem (s.sp - sizeBytes params locals - 32) 8 (s.x 29))
          (s.sp - sizeBytes params locals - 32 + 8) 8 (s.x 30) := by
  obtain ⟨x, sp, -⟩ := framed_eq small s
  rw [calling, saveBlock, execAll_cons, exec_saveFrame, execAll_cons,
    exec_mov (by decide) (by decide), execAll_nil]
  simp only [Function.update_self, x, sp, and_true]
  exact fun r hr => Function.update_of_ne hr _ _

variable (base : BitVec 64) (n : Nat)

/-- Behind `setjmp` the first time: `x0` is zero, and the area is written. -/
theorem marked_eq (s : State) :
    (marked params locals base n s).x 0 = 0 ∧
      (marked params locals base n s).x 30 = returnAddress params locals base n ∧
      (∀ r, r ≠ 0 → r ≠ 2 → r ≠ 30 → (marked params locals base n s).x r = s.x r) ∧
      (marked params locals base n s).sp = s.sp - sizeBytes params locals - 32 ∧
      (marked params locals base n s).mem =
        putAll (calling params locals s).mem (areaPuts (called params locals base n s)) := by
  obtain ⟨x, -, sp, -⟩ := calling_eq small s
  obtain ⟨x30, x', sp', mem'⟩ := called_eq params locals base n s
  rw [marked, exec_setjmp]
  simp only [mem', sp', sp, Function.update_self, true_and, and_true]
  refine ⟨?_, fun r h0 h2 h30 => ?_⟩
  · rw [Function.update_of_ne (by decide), Function.update_of_ne (by decide), x30]
  · rw [Function.update_of_ne h0, Function.update_of_ne h2, x' r h30, x r h0]

theorem tested_eq (s : State) :
    (tested params locals base n s).x = (marked params locals base n s).x ∧
      (tested params locals base n s).sp = (marked params locals base n s).sp ∧
      (tested params locals base n s).mem = (marked params locals base n s).mem ∧
      (tested params locals base n s).flags.z = true := by
  obtain ⟨x, sp, mem⟩ := cmpZero_keeps .x 0 (marked params locals base n s)
  rw [tested, execAll_cons, execAll_nil]
  refine ⟨x, sp, mem, ?_⟩
  rw [exec_cmpZero .x (by decide), (marked_eq small base n s).1]
  rfl

theorem entered_eq (s : State) :
    (∀ r, r ≠ 0 → r ≠ 2 → r ≠ 29 → r ≠ 30 → (entered params locals base n s).x r = s.x r) ∧
      (entered params locals base n s).x 29 =
        read 64 (marked params locals base n s).mem (s.sp - sizeBytes params locals - 32) 8 ∧
      (entered params locals base n s).x 30 =
        read 64 (marked params locals base n s).mem (s.sp - sizeBytes params locals - 32 + 8) 8 ∧
      (entered params locals base n s).sp = s.sp - sizeBytes params locals ∧
      (entered params locals base n s).mem = (marked params locals base n s).mem := by
  obtain ⟨-, -, others, sp, -⟩ := marked_eq small base n s
  obtain ⟨testedX, testedSp, testedMem, -⟩ := tested_eq small base n s
  rw [entered, restoreBlock, execAll_cons, execAll_nil, exec_restoreFrame, testedX, testedSp,
    testedMem, sp]
  simp only [Function.update_self, true_and, and_true]
  refine ⟨fun r h0 h2 h29 h30 => ?_, ?_, BitVec.sub_add_cancel _ _⟩
  · rw [Function.update_of_ne h30, Function.update_of_ne h29, others r h0 h2 h30]
  · rw [Function.update_of_ne (by decide), Function.update_self]

end

section
variable {code : List Word} {instrs : List Instr} {target : String → Int} {n : Nat}
  {params locals results : List wasm_type} {body : Seq} (loaded : Loaded code instrs)
  (base : BitVec 64)

theorem storesBlock_plain (offset : Int) (stores : List Store) :
    ∀ i ∈ storesBlock offset stores, plain i = true ∧ movesSp i = false := by
  induction stores generalizing offset with
  | nil => exact fun i hi => absurd hi List.not_mem_nil
  | cons st rest ih =>
    intro i hi
    rcases List.mem_cons.mp hi with rfl | later
    · exact ⟨rfl, rfl⟩
    · exact ih _ i later

theorem frameBlock_plain : ∀ i ∈ frameBlock params locals, plain i = true := by
  intro i hi
  rcases List.mem_cons.mp hi with rfl | hi
  · rfl
  · rcases List.mem_append.mp hi with hi | hi <;> exact (storesBlock_plain _ _ i hi).1

include loaded

theorem run_entry (layout : Layout instrs target n params locals results body)
    (small : frameSize params locals ≤ 4080) (s : State) :
    Run (step code base) ⟨addr base n, s⟩ (entryTrace params locals base n s)
      ⟨addr base (n + bodyStart params locals), entered params locals base n s⟩ := by
  obtain ⟨d₁, b₁, t₁⟩ := layout.toEntry
  obtain ⟨d₂, b₂, t₂⟩ := layout.call
  obtain ⟨d₃, b₃, t₃⟩ := layout.toRaise
  obtain ⟨setjmp, back⟩ := stands_append.mp (setjmpBlock_eq ▸ layout.setjmp)
  have toFrame := step_b loaded base b₁ t₁ s
  have frame := run_block loaded base layout.frame frameBlock_plain s
  have save : Run (step code base) _ _
      ⟨addr base (n + wrapperStart params locals + 2), calling params locals s⟩ :=
    run_block loaded base layout.save (by simp [plain, mov]) (framed params locals s)
  have call : step code base _ = some ⟨addr base (n + 1), called params locals base n s⟩ :=
    step_bl loaded base b₂ t₂ (calling params locals s)
  have mark : Run (step code base) _ _ ⟨addr base (n + 10), marked params locals base n s⟩ :=
    run_block loaded base setjmp (by simp [setjmpBody, saveRegs, plain, movSp])
      (called params locals base n s)
  have ret : step code base ⟨addr base (n + 10), marked params locals base n s⟩ =
      some ⟨returnAddress params locals base n, marked params locals base n s⟩ := by
    have h := step_ret loaded base (back 0 _ rfl) (marked params locals base n s)
    rw [reg_of_ne (by decide), (marked_eq small base n s).2.1] at h
    exact h
  have test : Run (step code base)
      ⟨returnAddress params locals base n, marked params locals base n s⟩
      (branchTrace base (n + wrapperStart params locals + 3) [cmpZero .x 0]
        (marked params locals base n s))
      ⟨addr base (n + wrapperStart params locals + 5), tested params locals base n s⟩ := by
    have h := run_branch loaded base layout.test (uses_cmp .x 0 0).1 b₃ t₃
      (marked params locals base n s)
    have flag : (execAll [cmpZero .x 0] (marked params locals base n s)).flags.z = true :=
      (tested_eq small base n s).2.2.2
    rw [holds_ne, flag, Bool.not_true, if_neg Bool.false_ne_true] at h
    exact h
  have restore : Run (step code base) _ _
      ⟨addr base (n + bodyStart params locals), entered params locals base n s⟩ :=
    run_block loaded base layout.restore (by simp [plain]) (tested params locals base n s)
  rw [frameBlock_length, Nat.add_assoc] at frame
  rw [entryTrace]
  exact (((((((Run.one toFrame).append frame).append save).append (.one call)).append mark).append
    (.one ret)).append test).append restore

end

/-! ### What the entry leaves behind -/

/-- The entry steps through the stubs up to `preparelongjmp`, and from the frame on. -/
theorem entryTrace_steps (params locals : List wasm_type) (base : BitVec 64) (n : Nat) (s : State) :
    StepsIn base (fun k => (n ≤ k ∧ k < n + 11) ∨ (n + 32 ≤ k ∧ k < n + bodyStart params locals))
      (entryTrace params locals base n s) := by
  have start : bodyStart params locals = wrapperStart params locals + 6 := rfl
  have wrapper : wrapperStart params locals = 32 + (1 + params.length + locals.length) := rfl
  have frame := frameBlock_length params locals
  have lengths : saveBlock.length = 2 ∧ setjmpBody.length = 9 ∧ restoreBlock.length = 1 ∧
      [cmpZero .x 0].length = 1 := ⟨rfl, rfl, rfl, rfl⟩
  refine ((((((((stepsIn_one ?_ s).append (stepsIn_block ?_ _)).append (stepsIn_block ?_ _)).append
    (stepsIn_one ?_ _)).append (stepsIn_block ?_ _)).append (stepsIn_one ?_ _)).append
    (stepsIn_branch ?_ _)).append (stepsIn_block ?_ _)) <;>
  · intros
    omega

theorem entryTrace_sp {P : BitVec 64 → Prop} {params locals : List wasm_type}
    (small : frameSize params locals ≤ 4080) (base : BitVec 64) (n : Nat) {s : State} (top : P s.sp)
    (frame : P (s.sp - sizeBytes params locals)) (saved : P (s.sp - sizeBytes params locals - 32)) :
    SpIn P (entryTrace params locals base n s) := by
  obtain ⟨-, framedSp, -⟩ := framed_eq small s
  obtain ⟨-, -, callingSp, -⟩ := calling_eq small s
  obtain ⟨-, -, calledSp, -⟩ := called_eq params locals base n s
  obtain ⟨-, -, -, markedSp, -⟩ := marked_eq small base n s
  obtain ⟨-, testedSp, -⟩ := tested_eq small base n s
  have stores : SpIn P (blockTrace base (n + 32) (frameBlock params locals) s) := by
    refine spIn_move (fun i hi => ?_) top ?_
    · rcases List.mem_append.mp hi with hi | hi <;> exact (storesBlock_plain _ _ i hi).2
    · rw [exec_subSp small]
      exact frame
  have save : SpIn P (blockTrace base (n + wrapperStart params locals) saveBlock
      (framed params locals s)) := by
    refine spIn_move (by simp [mov, movesSp]) (by rw [framedSp]; exact frame) ?_
    rw [exec_saveFrame, framedSp]
    exact saved
  have still : ∀ i ∈ setjmpBody, movesSp i = false := by
    simp [setjmpBody, saveRegs, movSp, movesSp]
  have marking : P (marked params locals base n s).sp := by
    rw [markedSp]
    exact saved
  have start : SpIn P [⟨addr base n, s⟩] := spIn_one top
  have call : SpIn P [⟨addr base (n + wrapperStart params locals + 2), calling params locals s⟩] :=
    spIn_one (by rw [callingSp]; exact saved)
  have mark : SpIn P (blockTrace base (n + 1) setjmpBody (called params locals base n s)) :=
    spIn_block still (by rw [calledSp, callingSp]; exact saved)
  have ret : SpIn P [⟨addr base (n + 10), marked params locals base n s⟩] := spIn_one marking
  have test : SpIn P (branchTrace base (n + wrapperStart params locals + 3) [cmpZero .x 0]
      (marked params locals base n s)) := spIn_branch (by simp [cmpZero, movesSp]) marking
  have restore : SpIn P (blockTrace base (n + wrapperStart params locals + 5) restoreBlock
      (tested params locals base n s)) :=
    spIn_one (c := ⟨_, tested params locals base n s⟩) (by rw [testedSp]; exact marking)
  exact ((((((start.append stores).append save).append call).append mark).append ret).append
    test).append restore

/-- The memory a function works in on the machine stack, from below the frame on. -/
def stackBottom (params locals : List wasm_type) (s : State) : BitVec 64 :=
  s.sp - sizeBytes params locals - 32

def stackReach (params locals : List wasm_type) : Nat := 32 + frameReach params locals

theorem entered_memory {params locals : List wasm_type} (small : frameSize params locals ≤ 4080)
    (base : BitVec 64) (n : Nat) {s : State}
    (apart : Apart (s.x 19) areaSize (stackBottom params locals s) (stackReach params locals)) :
    (entered params locals base n s).x 29 = s.x 29 ∧
      (entered params locals base n s).x 30 = s.x 30 ∧
      Holds (s.x 19) (entered params locals base n s).mem (called params locals base n s) := by
  obtain ⟨-, x29, x30, -, mem⟩ := entered_eq small base n s
  obtain ⟨-, -, -, -, markedMem⟩ := marked_eq small base n s
  obtain ⟨-, area, -, callingMem⟩ := calling_eq small s
  obtain ⟨-, others, -, -⟩ := called_eq params locals base n s
  have base19 : (called params locals base n s).x 0 = s.x 19 :=
    (others 0 (by decide)).trans area
  have fits : stackReach params locals ≤ 2 ^ 64 := by
    have := frameSize_nonneg params locals
    have reach : stackReach params locals = 32 + ((frameSize params locals).toNat + 8) := rfl
    omega
  have low : 32 ≤ stackReach params locals := Nat.le_add_right _ _
  have at0 : Within (stackBottom params locals s) 8 (stackBottom params locals s)
      (stackReach params locals) := by
    have h := within_of_offset (a := stackBottom params locals s) (d := 0) (k := 8)
      (show 0 + 8 ≤ stackReach params locals by omega) fits
    rwa [show stackBottom params locals s + BitVec.ofNat 64 0 = stackBottom params locals s from
      BitVec.add_zero _] at h
  have at8 : Within (stackBottom params locals s + 8) 8 (stackBottom params locals s)
      (stackReach params locals) :=
    within_of_offset (d := 8) (show 8 + 8 ≤ stackReach params locals by omega) fits
  have untouched : ∀ a, Within a 8 (stackBottom params locals s) (stackReach params locals) →
      read 64 (marked params locals base n s).mem a 8 =
        read 64 (calling params locals s).mem a 8 := by
    intro a within
    rw [markedMem]
    exact read_congr (by decide) (puts_apart _ (by
      rw [base19]
      exact (apart.symm.mono within (within_refl _ _))))
  have distinct : Apart (stackBottom params locals s) 8 (stackBottom params locals s + 8) 8 := by
    have h := apart_of_offsets (a := stackBottom params locals s) (d := 0) (n := 8) (e := 8)
      (k := 8)
      (Or.inl (by decide)) ⟨by decide, by decide⟩
    rwa [show stackBottom params locals s + BitVec.ofNat 64 0 = stackBottom params locals s from
      BitVec.add_zero _] at h
  refine ⟨?_, ?_, ?_⟩
  · rw [x29, ← stackBottom, untouched _ at0, callingMem, ← stackBottom,
      read_write_apart (by decide) distinct]
    exact read_write_same _ _ (n := 8) (by decide) _
  · rw [x30, ← stackBottom, untouched _ at8, callingMem, ← stackBottom]
    exact read_write_same _ _ (n := 8) (by decide) _
  · rw [mem, markedMem, ← base19]
    exact holds_puts _ _

end EntryRun
