import TinyWasm.ControlFlow

/-!
# The two exits of a function

A call comes back through one `ret`, from the end of its body or by way of
`preparelongjmp` and the second return of `setjmp`. On both ways it gives the
caller its stack pointer, its frame record and the return code that tells which
way it was, as long as no result is returned in the registers of the frame
record.
-/

namespace SoundExits

open HexText Wasm Emit ArmInstruction ByteMemory StepRuns ArmMachine BlockEffects LabelledCode
open LocalDeclarations SourceBody CodeItems FrameSpec StructuredRun CodeLayout BodyFrame
open OperandStack EncoderCorrectness EntryRun ExitRun FunctionRun FunctionCall CallRun SourceSites
open EarlyReturn Validation FrameEffects CallStubs

/-! ### The stack pointer -/

def Aligned (a : BitVec 64) : Prop := a.toNat % 16 = 0

instance (a : BitVec 64) : Decidable (Aligned a) := inferInstanceAs (Decidable (_ = _))

theorem aligned_sub {a b : BitVec 64} (ha : Aligned a) (hb : Aligned b) : Aligned (a - b) := by
  rw [Aligned] at *
  rw [BitVec.toNat_sub]
  omega

theorem aligned_add {a b : BitVec 64} (ha : Aligned a) (hb : Aligned b) : Aligned (a + b) := by
  rw [Aligned] at *
  rw [BitVec.toNat_add]
  omega

theorem aligned_size (params locals : List wasm_type) :
    Aligned (sizeBytes params locals) := by
  have positive := frameSize_nonneg params locals
  obtain ⟨-, -, round⟩ := frameSize_bounds params locals
  rw [Aligned, sizeBytes, BitVec.toNat_ofInt]
  omega

section
variable {code : List Word} {instrs : List Instr} {target : String → Int}
  {params locals results : List wasm_type} {body : Seq}
  (callable : Callable code instrs target params locals results body)
  (few : params.length ≤ 19) (ints : ∀ v ∈ params, isFloat v = false) {lo hi : Int}
  {base : BitVec 64} {s : State} (arranged : Arranged code base params locals lo hi s)
  (kept : Kept ((atEntry params s).x 19) areaSize
    (entered params locals base (functionStart params) (atEntry params s))
    (callWalk params locals body base s))
include callable few ints arranged kept

/-- The stack pointer is aligned at every step of a call. -/
theorem callTrace_aligned (aligned : Aligned s.sp) :
    SpIn Aligned (callTrace params locals results body base s) := by
  let n := functionStart params
  let w := callWalk params locals body base s
  have machine := (bufferApart_of_arranged few ints arranged).stack
  obtain ⟨-, -, -, -, -, -, entrySp, -⟩ := atEntry_eq few ints s
  obtain ⟨buffer, -, -, walkSp, area⟩ := bodyWalk_eq callable.small machine kept
  obtain ⟨-, -, exitSp, -⟩ := exitState_eq callable.small machine kept
  obtain ⟨-, -, calledSp, -⟩ := called_eq params locals base n (atEntry params s)
  obtain ⟨-, -, callingSp, -⟩ := calling_eq callable.small (atEntry params s)
  have top : Aligned (atEntry params s).sp := by rwa [entrySp]
  have bottom := aligned_sub top (aligned_size params locals)
  have saved : Aligned ((atEntry params s).sp - sizeBytes params locals - 32) :=
    aligned_sub bottom (by decide)
  have loads : SpIn Aligned (blockTrace base 0 (argumentBlock params) s) :=
    spIn_block (fun i hi => (argumentBlock_plain params i hi).2) aligned
  have entry := entryTrace_sp callable.small base n top bottom saved
  have inside : SpIn Aligned w.trace := by
    intro c hc
    obtain ⟨-, -, -, enteredSp, -⟩ := entered_eq callable.small base n (atEntry params s)
    rw [(kept.trace c hc).sp, enteredSp]
    exact bottom
  have exit : SpIn Aligned (exitTrace params locals body base n w) := by
    rw [exitTrace]
    split_ifs with trapped
    · refine trapTrace_sp params locals base n (buffer.symm ▸ area) ?_ ?_
      · exact walkSp.symm ▸ bottom
      · rw [calledSp, callingSp]
        exact saved
    · exact spIn_block (by simp [returnCode, movesSp]) (walkSp.symm ▸ bottom)
  have leave : SpIn Aligned (leaveTrace params locals results base
      (n + finalizeStart params locals body) (exitState w)) := by
    refine leaveTrace_sp callable.small results base _ (exitSp.symm ▸ bottom) ?_
    exact aligned_add (exitSp.symm ▸ bottom) (aligned_size params locals)
  exact loads.append (((entry.append inside).append exit).append leave)

end

/-! ### Both exits -/

/-- What holds of a run of a call that has come to its end: it ends with the `ret`, which leads back
to the caller; the caller finds its stack pointer and its frame record, and the return code tells
whether the run has passed `preparelongjmp`. -/
structure Sound (params locals results : List wasm_type) (body : Seq) (code : List Word)
    (base : BitVec 64) (s : State) (trace : List Config) (c : Config) : Prop where
  ret : ∃ front u, trace = front ++ [⟨addr base (returnPlace params locals results body), u⟩]
  target : c.pc = s.x 30
  stack : c.state.sp = s.sp
  frame : c.state.x 29 = s.x 29
  trapped : Passes base (trapStart params) trace → read 64 c.state.mem (s.x 0) 8 = 1
  through : ¬ Passes base (trapStart params) trace → read 64 c.state.mem (s.x 0) 8 = 0
  throws : Throws code base s ↔ Passes base (trapStart params) trace

theorem callTrace_ret (params locals results : List wasm_type) (body : Seq) (base : BitVec 64)
    (s : State) : ∃ front u, callTrace params locals results body base s =
      front ++ [⟨addr base (returnPlace params locals results body), u⟩] := by
  rw [callTrace, functionTrace, leaveTrace, ← List.append_assoc, ← List.append_assoc]
  exact ⟨_, _, rfl⟩

/-- Every call with its memory apart comes back, and soundly. -/
theorem exits_sound {params results : List wasm_type} {groups : List Group} {body : Seq}
    {order : WasmFunction.VisitOrder} {g : WasmFunction} (few : params.length ≤ 19)
    (narrow : results.length ≤ 29) (size_byte : BranchFixup.bodySize groups body ≤ 255)
    (once : body.divisions ≤ 1)
    (done : funcSingleProcess (delivered params results groups body) order = .ok g) :
    ∃ code, loadWords (full_instructions g) = .ok code ∧ ∀ base lo hi s, Aligned s.sp →
      StoresIn lo hi body 0 (fun _ => True) →
      Arranged code base params (groups.flatMap groupLocals) lo hi s →
      (∃ trace c, Complete (step code base) ⟨base, s⟩ trace c) ∧
      (∀ trace c, Complete (step code base) ⟨base, s⟩ trace c →
        Sound params (groups.flatMap groupLocals) results body code base s trace c) ∧
      ∀ trace c, Run (step code base) ⟨base, s⟩ trace c → SpIn Aligned trace := by
  obtain ⟨code, instrs, target, loads, callable, ints, -⟩ :=
    callable_of_funcSingleProcess size_byte once done
  refine ⟨code, loads, fun base lo hi s aligned inside arranged => ?_⟩
  have kept := callWalk_kept callable few ints inside arranged
  have complete := complete_call callable few ints arranged kept narrow
  obtain ⟨frame, -, stack, returned⟩ := callEnd_eq callable few ints arranged kept narrow
  have passes := trapped_iff callable base s
  have throws := throws_iff callable few ints arranged kept narrow
  refine ⟨⟨_, _, complete⟩, fun trace c ended => ?_, fun trace c run => ?_⟩
  · obtain ⟨rfl, rfl⟩ := ended.unique complete
    refine ⟨callTrace_ret params _ results body base s, rfl, stack, frame, fun way => ?_,
      fun way => ?_, throws.trans passes.symm⟩
    · exact returned.trans (if_pos (passes.mp way))
    · exact returned.trans (if_neg fun trap => way (passes.mpr trap))
  · exact forall_of_complete complete
      (callTrace_aligned callable few ints arranged kept aligned) run

/-- `i32.const 1; i32.const 0; i32.div_s`. -/
def dividesByZero : Seq := .op (.i32const 1) (.op (.i32const 0) (.div .w true .nil))

theorem exits_sound_division : ∃ g code,
    funcSingleProcess (delivered [] [.i32 0] [] dividesByZero) BranchFixup.inOrder = .ok g ∧
      loadWords (full_instructions g) = .ok code ∧ ∀ trace c,
        Complete (step code 0x100000) ⟨0x100000, sampleCall⟩ trace c →
          Sound [] [] [.i32 0] dividesByZero code 0x100000 sampleCall trace c := by
  obtain ⟨g, done⟩ := BranchFixup.ok_of_isOk (show (funcSingleProcess
    (delivered [] [.i32 0] [] dividesByZero) BranchFixup.inOrder).isOk = true by decide +kernel)
  obtain ⟨code', instrs, target, loads', callable, -⟩ :=
    callable_of_funcSingleProcess (by decide) (by decide) done
  obtain ⟨code, loads, sound⟩ := exits_sound (by decide) (by decide) (by decide) (by decide) done
  cases loads'.symm.trans loads
  have arranged := sampleCall_arranged callable.small callable.placed.loaded.short
    (s := sampleCall) ⟨rfl, rfl, rfl⟩ rfl
  exact ⟨g, _, done, loads, (sound _ 0 1024 _ (by decide)
    (by simp [dividesByZero, StoresIn, Op.pushes, Op.effect]) arranged).2.1⟩

/-! ### Thirty results -/

/-- `i32.const 1`, as often as it says. -/
def consts : Nat → Seq
  | 0 => .nil
  | n + 1 => .op (.i32const 1) (consts n)

theorem typed_consts (vars results ts : List ValType) (n : Nat) :
    Typed vars results (consts n) ts (List.replicate n .i32 ++ ts) := by
  induction n generalizing ts with
  | zero => exact .nil
  | succ n ih =>
    rw [List.replicate_succ', List.append_assoc]
    exact .i32const (ih (.i32 :: ts))

theorem storesIn_consts (n : Nat) {lo hi h : Int} (low : lo ≤ h) (high : h + n ≤ hi) :
    StoresIn lo hi (consts n) h fun _ => True := by
  induction n generalizing h with
  | zero => trivial
  | succ n ih =>
    constructor
    · intro _
      simp only [Op.effect]
      omega
    · refine ih ?_ ?_
      · simp only [Op.effect]
        omega
      · simp only [Op.effect]
        omega

theorem consts_divisions (n : Nat) : (consts n).divisions = 0 := by
  induction n with
  | zero => rfl
  | succ n ih => exact ih

theorem resultsBlock_append (i : Nat) (front later : List wasm_type) :
    resultsBlock i (front ++ later) =
      resultsBlock i front ++ resultsBlock (i + front.length) later := by
  induction front generalizing i with
  | nil => rfl
  | cons v front ih =>
    rw [List.cons_append, resultsBlock, resultsBlock, ih, List.append_assoc, List.length_cons,
      Nat.add_assoc, Nat.add_comm 1]

/-- The thirtieth result is popped to `x29`. -/
theorem left_frame {params locals front : List wasm_type} (small : frameSize params locals ≤ 4080)
    (many : front.length = 29) (v : BitVec 32) (u : State) :
    ((left params locals (front ++ [.i32 v]) u).x 29).toNat < 2 ^ 32 := by
  rw [(left_eq small _ u).1, resultsBlock_append, execAll_append, many]
  change ((execAll (popBlock .w 29) _).x 29).toNat < _
  rw [exec_pop .w (by decide), popped_value]
  rw [BitVec.toNat_setWidth]
  exact Nat.lt_of_le_of_lt (Nat.mod_le _ _) (BitVec.isLt _)

/-- A call that finds more than 32 bits in `x29`. -/
def framedCall : State := { sampleCall with x := Function.update sampleCall.x 29 0x100000000 }

/-- A function with thirty results does not give its caller's frame record back. -/
theorem thirtieth_result_overwrites :
    Valid [] [] (List.replicate 30 (.i32 0)) (consts 30) ∧ ∃ g code,
      funcSingleProcess (delivered [] (List.replicate 30 (.i32 0)) [] (consts 30))
        BranchFixup.inOrder = .ok g ∧
      loadWords (full_instructions g) = .ok code ∧
      Arranged code 0x100000 [] [] 0 1024 framedCall ∧ Aligned framedCall.sp ∧
      StoresIn 0 1024 (consts 30) 0 (fun _ => True) ∧
      ∃ trace u, Run (step code 0x100000) ⟨0x100000, framedCall⟩ trace
          ⟨addr 0x100000 (returnPlace [] [] (List.replicate 30 (.i32 0)) (consts 30)), u⟩ ∧
        u.x 29 ≠ framedCall.x 29 := by
  obtain ⟨g, done⟩ := BranchFixup.ok_of_isOk (show (funcSingleProcess
    (delivered [] (List.replicate 30 (.i32 0)) [] (consts 30)) BranchFixup.inOrder).isOk = true by
      decide +kernel)
  obtain ⟨code, instrs, loads, emitted, -⟩ :=
    emitted_of_funcSingleProcess (by decide +kernel) done
  have none := consts_divisions 30
  have valid : Valid [] [] (List.replicate 30 (.i32 0)) (consts 30) := by
    have typed := typed_consts [] (List.replicate 30 .i32) [] 30
    rw [List.append_nil] at typed
    rwa [Valid, List.map_replicate, List.reverse_replicate]
  have through := walk_through (frameOf [] []) 0x100000 none 0 0
    (functionStart [] + bodyStart [] [])
    (entered [] [] 0x100000 (functionStart []) (atEntry [] framedCall))
  have small := left_frame emitted.small (show (List.replicate 29 (.i32 0)).length = 29 from rfl) 0
    (returned (callWalk [] [] (consts 30) 0x100000 framedCall).state)
  refine ⟨valid, g, code, done, loads, sampleCall_arranged emitted.small emitted.loaded.short
    ⟨rfl, rfl, rfl⟩ rfl, by decide, storesIn_consts 30 (by decide) (by decide), _, _,
    ControlFlow.run_through emitted none _ _ through, fun same => ?_⟩
  have large : (framedCall.x 29).toNat = 2 ^ 32 := by decide +kernel
  rw [← large, ← same] at small
  exact Nat.lt_irrefl _ small

end SoundExits
