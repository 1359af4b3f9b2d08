import TinyWasm.EntryRun

/-!
# From the body of a function to its return

A body that goes through leaves the return code zero; a trap goes over `longjmp`
back behind the call of `setjmp`, finds its `x0` not zero, and leaves the return
code one. Both end with the epilogue, which pops the results and returns.
-/

namespace ExitRun

open HexText Wasm ArmInstruction ByteMemory StepRuns ArmMachine BlockEffects LabelledCode SourceBody
open Opcode EncoderCorrectness CodeItems FrameSpec StructuredRun CodeLayout BodyFrame FrameEffects
open CallStubs EntryRun

/-! ### A trap -/

def prepareBlock : List Instr := [mov 14 30, movSp 15 31, mov 0 19]

def raiseBlock : List Instr := [mov 30 14, movSp 31 15] ++ returnCode 1

/-- The states of a trap: in front of `longjmp`, with the area loaded, at its return, behind the
test, and with the return code stored. -/
def prepared (t : State) : State := execAll prepareBlock t

def taken (t : State) : State := execAll longjmpLoads (prepared t)

def jumped (t : State) : State := execAll longjmpRest (taken t)

def retested (t : State) : State := execAll [cmpZero .x 0] (jumped t)

def raised (t : State) : State := execAll raiseBlock (retested t)

theorem prepared_eq (t : State) :
    (prepared t).x 14 = t.x 30 ∧ (prepared t).x 15 = t.sp ∧ (prepared t).x 0 = t.x 19 ∧
      (prepared t).sp = t.sp ∧ (prepared t).mem = t.mem := by
  rw [prepared, prepareBlock, execAll_cons, exec_mov (by decide) (by decide), execAll_cons,
    exec_movFromSp (by decide), execAll_cons, exec_mov (by decide) (by decide), execAll_nil]
  simp only [Function.update_self, and_self, and_true]
  refine ⟨?_, ?_, ?_⟩
  · rw [Function.update_of_ne (by decide), Function.update_of_ne (by decide), Function.update_self]
  · rw [Function.update_of_ne (by decide), Function.update_self]
  · rw [Function.update_of_ne (by decide), Function.update_of_ne (by decide)]

section
variable {t h : State} (holds : Holds (t.x 19) t.mem h)
include holds

theorem taken_restored : Restored (prepared t) h (taken t) := by
  obtain ⟨-, -, x0, -, mem⟩ := prepared_eq t
  exact exec_longjmpLoads (by rwa [x0, mem])

/-- At the return of `longjmp`: the kept registers and the stack pointer are back, and `x0` is
not zero. -/
theorem jumped_eq :
    (∀ k < 12, (jumped t).x (saved k) = h.x (saved k)) ∧ (jumped t).x 14 = t.x 30 ∧
      (jumped t).x 15 = t.sp ∧ (jumped t).x 0 ≠ 0 ∧ (jumped t).sp = h.sp ∧
      (jumped t).mem = t.mem := by
  obtain ⟨x14, x15, -, -, mem⟩ := prepared_eq t
  have restored := taken_restored holds
  obtain ⟨sp, x0, others, mem'⟩ := exec_longjmpRest (taken t)
  refine ⟨fun k hk => ?_, ?_, ?_, x0, ?_, ?_⟩
  · rw [jumped, others _ (ne_saved (by decide) hk).symm, restored.kept k hk]
  · rw [jumped, others _ (by decide),
      restored.others _ (by decide) (fun k hk => ne_saved (by decide) hk), x14]
  · rw [jumped, others _ (by decide),
      restored.others _ (by decide) (fun k hk => ne_saved (by decide) hk), x15]
  · rw [jumped, sp, restored.stack]
  · rw [jumped, mem', restored.mem, mem]

theorem retested_eq : (retested t).x = (jumped t).x ∧ (retested t).sp = (jumped t).sp ∧
    (retested t).mem = (jumped t).mem ∧ (retested t).flags.z = false := by
  obtain ⟨x, sp, mem⟩ := cmpZero_keeps .x 0 (jumped t)
  rw [retested, execAll_cons, execAll_nil]
  refine ⟨x, sp, mem, ?_⟩
  rw [exec_cmpZero .x (by decide)]
  exact decide_eq_false (jumped_eq holds).2.2.2.1

/-- In front of the epilogue: the link register and the stack pointer of the trap are back, and
the return code is stored to the buffer. -/
theorem raised_eq :
    (∀ k < 11, (raised t).x (saved k) = h.x (saved k)) ∧ (raised t).x 30 = t.x 30 ∧
      (raised t).sp = t.sp ∧ (raised t).mem = write t.mem (h.x 19) 8 (1 : BitVec 64) := by
  obtain ⟨kept, x14, x15, -, -, mem⟩ := jumped_eq holds
  obtain ⟨x, -, mem', -⟩ := retested_eq holds
  have code : raiseBlock = [mov 30 14, movSp 31 15, .movWide .movz .x 11 1 0,
    .ldrStrImm false .x .unsignedOffset 11 19 0] := rfl
  have buffer : (jumped t).x 19 = h.x 19 := kept 0 (by decide)
  rw [raised, code, execAll_cons, exec_mov (by decide) (by decide), execAll_cons,
    exec_movToSp (by decide), execAll_cons, exec_movz .x (by decide), execAll_cons,
    exec_storeWord (by decide) (by decide), execAll_nil]
  simp only [x, mem', mem, Function.update_self]
  refine ⟨fun k hk => ?_, ?_, ?_, ?_⟩
  · have link : saved k ≠ 30 := by
      intro same
      have number := congrArg BitVec.toNat same
      rw [saved_toNat (by omega), show (30 : Reg).toNat = 30 from rfl] at number
      omega
    rw [Function.update_of_ne (ne_saved (by decide) (by omega)).symm, Function.update_of_ne link,
      kept k (by omega)]
  · rw [Function.update_of_ne (by decide), Function.update_self, x14]
  · rw [Function.update_of_ne (by decide), x15]
  · rw [Function.update_of_ne (by decide), Function.update_of_ne (by decide), buffer,
      show h.x 19 + BitVec.ofInt 64 0 = h.x 19 from BitVec.add_zero _]
    rfl

end

/-- The steps from `preparelongjmp` to the epilogue. -/
def trapTrace (params locals : List wasm_type) (base : BitVec 64) (n : Nat) (t : State) :
    List Config :=
  blockTrace base (n + 11) prepareBlock t ++ [⟨addr base (n + 14), prepared t⟩] ++
    blockTrace base (n + 15) longjmpLoads (prepared t) ++
    blockTrace base (n + 22) longjmpRest (taken t) ++ [⟨addr base (n + 26), jumped t⟩] ++
    branchTrace base (n + wrapperStart params locals + 3) [cmpZero .x 0] (jumped t) ++
    blockTrace base (n + 27) raiseBlock (retested t) ++ [⟨addr base (n + 31), raised t⟩]

theorem trapTrace_steps (params locals : List wasm_type) (base : BitVec 64) (n : Nat) (t : State) :
    StepsIn base (fun k => (n + 11 ≤ k ∧ k < n + 32) ∨
      (n + wrapperStart params locals + 3 ≤ k ∧ k < n + bodyStart params locals))
      (trapTrace params locals base n t) := by
  have start : bodyStart params locals = wrapperStart params locals + 6 := rfl
  have lengths : prepareBlock.length = 3 ∧ longjmpLoads.length = 7 ∧ longjmpRest.length = 4 ∧
      raiseBlock.length = 4 ∧ [cmpZero .x 0].length = 1 := ⟨rfl, rfl, rfl, rfl, rfl⟩
  refine ((((((((stepsIn_block ?_ t).append (stepsIn_one ?_ _)).append (stepsIn_block ?_ _)).append
    (stepsIn_block ?_ _)).append (stepsIn_one ?_ _)).append (stepsIn_branch ?_ _)).append
    (stepsIn_block ?_ _)).append (stepsIn_one ?_ _)) <;>
  · intros
    omega

theorem trapTrace_sp {P : BitVec 64 → Prop} (params locals : List wasm_type) (base : BitVec 64)
    (n : Nat) {t h : State} (holds : Holds (t.x 19) t.mem h) (here : P t.sp) (there : P h.sp) :
    SpIn P (trapTrace params locals base n t) := by
  obtain ⟨-, -, -, preparedSp, -⟩ := prepared_eq t
  obtain ⟨-, -, x15, -, jumpedSp, -⟩ := jumped_eq holds
  obtain ⟨x, retestedSp, -, -⟩ := retested_eq holds
  obtain ⟨-, -, raisedSp, -⟩ := raised_eq holds
  have taken15 : (taken t).x 5 = h.sp := (taken_restored holds).stack
  have prepare : SpIn P (blockTrace base (n + 11) prepareBlock t) :=
    spIn_block (by simp [prepareBlock, mov, movSp, movesSp]) here
  have toLongjmp : SpIn P [⟨addr base (n + 14), prepared t⟩] :=
    spIn_one (by rw [preparedSp]; exact here)
  have loads : SpIn P (blockTrace base (n + 15) longjmpLoads (prepared t)) :=
    spIn_block (by simp [longjmpLoads, saveRegs, movesSp]) (by rw [preparedSp]; exact here)
  have rest : SpIn P (blockTrace base (n + 22) longjmpRest (taken t)) := by
    refine spIn_move (by simp [cmpZero, movesSp]) ?_ ?_
    · rw [(taken_restored holds).sp, preparedSp]
      exact here
    · rw [exec_movToSp (by decide), taken15]
      exact there
  have back : SpIn P [⟨addr base (n + 26), jumped t⟩] := spIn_one (by rw [jumpedSp]; exact there)
  have test : SpIn P (branchTrace base (n + wrapperStart params locals + 3) [cmpZero .x 0]
      (jumped t)) := spIn_branch (by simp [cmpZero, movesSp]) (by rw [jumpedSp]; exact there)
  have raise : SpIn P (blockTrace base (n + 27) raiseBlock (retested t)) := by
    have between : (retested t).sp = h.sp := retestedSp.trans jumpedSp
    rw [show raiseBlock = [mov 30 14] ++ (movSp 31 15 :: returnCode 1) from rfl, blockTrace_append]
    refine (spIn_block (by simp [mov, movesSp]) (by rw [between]; exact there)).append
      (spIn_move (by simp [returnCode, movesSp]) ?_ ?_)
    · rw [execAll_cons, execAll_nil, exec_mov (by decide) (by decide), between]
      exact there
    · rw [execAll_cons, execAll_nil, exec_movToSp (by decide), exec_mov (by decide) (by decide), x]
      simp only
      rw [Function.update_of_ne (by decide), x15]
      exact here
  have last : SpIn P [⟨addr base (n + 31), raised t⟩] := spIn_one (by rw [raisedSp]; exact here)
  exact ((((((prepare.append toLongjmp).append loads).append rest).append back).append test).append
    raise).append last

/-! ### The epilogue -/

def returned (t : State) : State := execAll (returnCode 0) t

theorem returned_eq (t : State) :
    (∀ r, r ≠ 11 → (returned t).x r = t.x r) ∧ (returned t).sp = t.sp ∧
      (returned t).mem = write t.mem (t.x 19) 8 (0 : BitVec 64) := by
  rw [returned, returnCode, execAll_cons, exec_movz .x (by decide), execAll_cons,
    exec_storeWord (by decide) (by decide), execAll_nil]
  simp only [Function.update_self]
  refine ⟨fun r hr => Function.update_of_ne hr _ _, trivial, ?_⟩
  rw [Function.update_of_ne (by decide), show t.x 19 + BitVec.ofInt 64 0 = t.x 19 from
    BitVec.add_zero _]
  rfl

/-- The registers the results are popped to. -/
def resultRegs (i : Nat) (results : List wasm_type) : List Reg :=
  (List.range' i results.length).map (BitVec.ofNat 5)

theorem uses_results (i : Nat) (results : List wasm_type) :
    Uses (21 :: resultRegs i results) (resultsBlock i results) := by
  induction results generalizing i with
  | nil => exact fun i hi => absurd hi List.not_mem_nil
  | cons v results ih =>
    have later : ∀ r ∈ 21 :: resultRegs (i + 1) results, r ∈ 21 :: resultRegs i (v :: results) := by
      intro r hr
      rw [resultRegs, List.length_cons, List.range'_succ, List.map_cons]
      simp only [List.mem_cons] at hr ⊢
      exact hr.imp id Or.inr
    have here : BitVec.ofNat 5 i ∈ 21 :: resultRegs i (v :: results) := by
      rw [resultRegs, List.length_cons, List.range'_succ, List.map_cons]
      simp
    refine Uses.append (fun j hj => ?_) fun j hj => ?_
    · simp only [popBlock, List.mem_cons, List.not_mem_nil, or_false] at hj
      rcases hj with rfl | rfl
      · exact ⟨rfl, rfl, by simp [writes]⟩
      · exact ⟨rfl, rfl, by simpa [writes] using here⟩
    · obtain ⟨straight, still, written⟩ := ih (i + 1) j hj
      exact ⟨straight, still, fun r hr => later r (written r hr)⟩

theorem leaveBlock_plain (params locals results : List wasm_type) :
    ∀ i ∈ leaveBlock params locals results, plain i = true := by
  intro i hi
  rcases List.mem_append.mp hi with hi | hi
  · exact (uses_results 0 results i hi).1
  · rw [List.mem_singleton] at hi
    subst hi
    rfl

theorem quiet_results (i : Nat) (results : List wasm_type) :
    ∀ j ∈ resultsBlock i results, isStore j = false := by
  induction results generalizing i with
  | nil => exact fun j hj => absurd hj List.not_mem_nil
  | cons v results ih => exact quiet_append (quiet_pop _ _) (ih (i + 1))

def left (params locals results : List wasm_type) (u : State) : State :=
  execAll (leaveBlock params locals results) u

/-- The epilogue gives back the frame, and writes only the registers of the results. -/
theorem left_eq {params locals : List wasm_type} (small : frameSize params locals ≤ 4080)
    (results : List wasm_type) (u : State) :
    (left params locals results u).x = (execAll (resultsBlock 0 results) u).x ∧
      (left params locals results u).sp = u.sp + sizeBytes params locals ∧
      (left params locals results u).mem = u.mem := by
  rw [left, leaveBlock, execAll_append, execAll_cons, execAll_nil, exec_addSp small,
    execAll_mem (quiet_results 0 results), (keeps_of_uses (uses_results 0 results) u).sp]
  exact ⟨rfl, rfl, rfl⟩

theorem left_keeps {params locals : List wasm_type} (small : frameSize params locals ≤ 4080)
    {results : List wasm_type} (few : results.length ≤ 29) (u : State) {r : Reg}
    (link : r = 29 ∨ r = 30) : (left params locals results u).x r = u.x r := by
  rw [(left_eq small results u).1]
  refine (keeps_of_uses (uses_results 0 results) u).x r fun inside => ?_
  rcases List.mem_cons.mp inside with rfl | popped
  · rcases link with h | h <;> exact absurd h (by decide)
  · obtain ⟨k, hk, rfl⟩ := List.mem_map.mp popped
    rw [List.mem_range'_1] at hk
    have number : (BitVec.ofNat 5 k).toNat = 29 ∨ (BitVec.ofNat 5 k).toNat = 30 := by
      rcases link with h | h <;> rw [h]
      · exact Or.inl rfl
      · exact Or.inr rfl
    rw [BitVec.toNat_ofNat] at number
    omega

/-- The steps of the epilogue, with its return. -/
def leaveTrace (params locals results : List wasm_type) (base : BitVec 64) (p : Nat) (u : State) :
    List Config :=
  blockTrace base p (leaveBlock params locals results) u ++
    [⟨addr base (p + (leaveBlock params locals results).length), left params locals results u⟩]

theorem leaveTrace_sp {P : BitVec 64 → Prop} {params locals : List wasm_type}
    (small : frameSize params locals ≤ 4080) (results : List wasm_type) (base : BitVec 64)
    (p : Nat) {u : State} (here : P u.sp) (top : P (u.sp + sizeBytes params locals)) :
    SpIn P (leaveTrace params locals results base p u) := by
  have pops : ∀ i ∈ resultsBlock 0 results, movesSp i = false :=
    fun i hi => (uses_results 0 results i hi).2.1
  have end_ : SpIn P [⟨addr base (p + (leaveBlock params locals results).length),
      left params locals results u⟩] :=
    spIn_one (by rw [(left_eq small results u).2.1]; exact top)
  rw [leaveTrace, leaveBlock, blockTrace_append]
  refine SpIn.append ((spIn_block pops here).append (spIn_one ?_)) end_
  rw [(keeps_of_uses (uses_results 0 results) u).sp]
  exact here

end ExitRun
