import TinyWasm.StackSafety
import TinyWasm.BranchFixup

/-!
# The footprint of a call

A call of valid code writes its buffer, the `wasm_stack` and the machine stack it
takes, and nothing else. It steps forward through its code, but for the way back
from a trap, and takes at most as many steps as the code has instructions.
-/

namespace CallFootprint

open HexText Wasm Emit ArmInstruction ByteMemory StepRuns ArmMachine BlockEffects LocalDeclarations
open SourceBody EncoderCorrectness CodeItems LabelledCode FrameSpec StructuredRun CodeLayout
open BodyFrame FrameEffects CallStubs EntryRun ExitRun FunctionRun FunctionCall CallRun
open StackAccesses OperandSupply StackSafety Validation EarlyReturn

/-! ### What a call writes -/

section
variable {code : List Word} {instrs : List Instr} {target : String → Int}
  {params locals results : List wasm_type} {body : Seq}
  (callable : Callable code instrs target params locals results body)
  (few : params.length ≤ 19) (ints : ∀ v ∈ params, isFloat v = false)
  {base : BitVec 64} {s : State} (arranged : Arranged code base params locals 0 1024 s)
  (valid : Valid params locals results body) (free : ReturnFree body)
  (short : body.bytes.length ≤ 255)
include callable few ints arranged valid free short

theorem call_kept : Kept ((atEntry params s).x 19) areaSize (bodyState params locals base s)
    (callWalk params locals body base s) := by
  have charts := body_charts callable few ints arranged short
  have supplied : Supplied (frameOf params locals) body (bodyState params locals base s)
      (Enough results.length) := supplied_of_valid callable few ints valid free short
  exact charts.kept ((charts.fed_iff _).mp supplied).1

end

/-! ### How long it takes -/

theorem blockTrace_length (base : BitVec 64) (p : Nat) (block : List Instr) (s : State) :
    (blockTrace base p block s).length = block.length := by
  induction block generalizing p s with
  | nil => rfl
  | cons i block ih => rw [blockTrace, List.length_cons, List.length_cons, ih]

theorem length_of_increasing {ks : List Nat} {p q : Nat} (order : ks.Pairwise (· < ·))
    (bounds : ∀ k ∈ ks, p ≤ k ∧ k < q) : ks.length ≤ q - p := by
  induction ks generalizing p with
  | nil => exact Nat.zero_le _
  | cons k ks ih =>
    obtain ⟨later, rest⟩ := List.pairwise_cons.mp order
    have here := bounds k (List.mem_cons_self ..)
    have others := ih rest (p := k + 1) fun l hl => ⟨later l hl, (bounds l (by simp [hl])).2⟩
    rw [List.length_cons]
    omega

/-- A trace that goes forward has no more steps than there are positions. -/
theorem ascends_length_le {base : BitVec 64} {p q : Nat} {trace : List Config}
    (h : Ascends base p q trace) : trace.length ≤ q - p := by
  obtain ⟨ks, places, order, bounds⟩ := h
  have lengths := congrArg List.length places
  rw [List.length_map, List.length_map] at lengths
  rw [lengths]
  exact length_of_increasing order bounds

/-- The steps of the entry: the stubs it passes, the frame and the wrapper. -/
theorem entryTrace_length (params locals : List wasm_type) (base : BitVec 64) (n : Nat)
    (s : State) :
    (entryTrace params locals base n s).length = 18 + params.length + locals.length := by
  have frame := frameBlock_length params locals
  have lengths : saveBlock.length = 2 ∧ setjmpBody.length = 9 ∧ restoreBlock.length = 1 ∧
      [cmpZero .x 0].length = 1 := ⟨rfl, rfl, rfl, rfl⟩
  simp only [entryTrace, branchTrace, List.length_append, blockTrace_length, frame, lengths,
    List.length_singleton]
  omega

theorem exitTrace_length_le (params locals : List wasm_type) (body : Seq) (base : BitVec 64)
    (n : Nat) (w : Walk) : (exitTrace params locals body base n w).length ≤ 23 := by
  have lengths : prepareBlock.length = 3 ∧ longjmpLoads.length = 7 ∧ longjmpRest.length = 4 ∧
      raiseBlock.length = 4 ∧ [cmpZero .x 0].length = 1 := ⟨rfl, rfl, rfl, rfl, rfl⟩
  rw [exitTrace]
  by_cases trapped : w.trapped = true
  · rw [if_pos trapped]
    simp only [trapTrace, branchTrace, List.length_append, blockTrace_length, lengths,
      List.length_singleton]
    omega
  · rw [if_neg trapped, blockTrace_length]
    decide

/-- The code behind the return is not reached, so the position of the return bounds the steps. -/
theorem callTrace_length_le (params locals results : List wasm_type) (body : Seq)
    (base : BitVec 64) (s : State) : (callTrace params locals results body base s).length ≤
      functionStart params + finalizeStart params locals body +
        (leaveBlock params locals results).length + 1 := by
  have bodySteps := ascends_length_le (walk_ascends (frameOf params locals) base body 0 0
    (functionStart params + bodyStart params locals)
    (entered params locals base (functionStart params) (atEntry params s)))
  have exit := exitTrace_length_le params locals body base (functionStart params)
    (callWalk params locals body base s)
  have finish : finalizeStart params locals body = bodyEnd params locals body + 2 := rfl
  have ends : bodyEnd params locals body =
      bodyStart params locals + size (bodyItems (frameOf params locals) 0 body) := rfl
  have start : bodyStart params locals = 32 + (1 + params.length + locals.length) + 6 := rfl
  have loads : (argumentBlock params).length = functionStart params := rfl
  rw [callTrace, functionTrace, leaveTrace]
  simp only [List.length_append, blockTrace_length, entryTrace_length, List.length_singleton]
  rw [← callWalk, loads]
  change (callWalk params locals body base s).trace.length ≤ _ at bodySteps
  omega

/-! ### Compiled functions -/

theorem body_short {groups : List Group} {body : Seq}
    (size_byte : BranchFixup.bodySize groups body ≤ 255) : body.bytes.length ≤ 255 := by
  rw [BranchFixup.bodySize] at size_byte
  omega

/-- Every compiled function can be called from the sample state. -/
theorem sampleCall_of_compiled {params results : List wasm_type} {groups : List Group} {body : Seq}
    {order : WasmFunction.VisitOrder} {g : WasmFunction} (once : body.divisions ≤ 1)
    (size_byte : BranchFixup.bodySize groups body ≤ 255)
    (done : funcSingleProcess (delivered params results groups body) order = .ok g) :
    ∃ code, loadWords (full_instructions g) = .ok code ∧
      Arranged code 0x100000 params (groups.flatMap groupLocals) 0 1024 sampleCall := by
  obtain ⟨code, instrs, target, loads, callable, -⟩ :=
    callable_of_funcSingleProcess size_byte once done
  exact ⟨code, loads, sampleCall_arranged callable.small callable.placed.loaded.short
    (s := sampleCall) ⟨rfl, rfl, rfl⟩ rfl⟩

section
variable {params results : List wasm_type} {groups : List Group} {body : Seq}
  {order : WasmFunction.VisitOrder} {g : WasmFunction} (few : params.length ≤ 19)
  (narrow : results.length ≤ 29)
  (valid : Valid params (groups.flatMap groupLocals) results body) (free : ReturnFree body)
  (once : body.divisions ≤ 1) (size_byte : BranchFixup.bodySize groups body ≤ 255)
  (done : funcSingleProcess (delivered params results groups body) order = .ok g)
include few narrow valid free once size_byte done

/-- A call takes at most as many steps as its code has instructions. -/
theorem call_steps_le : ∃ code, loadWords (full_instructions g) = .ok code ∧
    ∀ base s, Arranged code base params (groups.flatMap groupLocals) 0 1024 s →
      ∃ trace u, Complete (step code base) ⟨base, s⟩ trace ⟨s.x 30, u⟩ ∧
        trace.length ≤ code.length := by
  obtain ⟨code, instrs, target, loads, callable, ints, -⟩ :=
    callable_of_funcSingleProcess size_byte once done
  have short := body_short size_byte
  refine ⟨code, loads, fun base s arranged => ?_⟩
  have kept := call_kept callable few ints arranged valid free short
  have steps := callTrace_length_le params (groups.flatMap groupLocals) results body base s
  have ret := (layout_of_placed callable.placed).ret
  have here := (List.getElem?_eq_some_iff.mp ret).1
  have lengths := congrArg List.length callable.placed.loaded.decoded
  have start : functionStart params = (argumentBlock params).length := rfl
  simp only [List.length_map] at lengths
  exact ⟨_, _, complete_call callable few ints arranged kept narrow, by omega⟩

end

theorem guardedDivision_valid : Valid [.i32 1] ([(1, 0x7f)].flatMap groupLocals) [.i32 0]
    BranchFixup.guardedDivision :=
  .get rfl (.ifElse (.i32const (.get rfl (.div .nil))) (.i32const .nil) .nil)

theorem guardedDivision_called : ∃ g code,
    funcSingleProcess (delivered [.i32 1] [.i32 0] [(1, 0x7f)] BranchFixup.guardedDivision)
        BranchFixup.inOrder = .ok g ∧
      loadWords (full_instructions g) = .ok code ∧
      Arranged code 0x100000 [.i32 1] ([(1, 0x7f)].flatMap groupLocals) 0 1024 sampleCall := by
  obtain ⟨g, done⟩ := BranchFixup.ok_of_isOk (show (funcSingleProcess
    (delivered [.i32 1] [.i32 0] [(1, 0x7f)] BranchFixup.guardedDivision)
      BranchFixup.inOrder).isOk = true by decide +kernel)
  obtain ⟨code, loads, arranged⟩ := sampleCall_of_compiled (by decide) (by decide) done
  exact ⟨g, code, done, loads, arranged⟩

theorem call_steps_le_guarded : ∃ g code trace u,
    funcSingleProcess (delivered [.i32 1] [.i32 0] [(1, 0x7f)] BranchFixup.guardedDivision)
        BranchFixup.inOrder = .ok g ∧
      loadWords (full_instructions g) = .ok code ∧
      Complete (step code 0x100000) ⟨0x100000, sampleCall⟩ trace ⟨0x80000, u⟩ ∧
      trace.length ≤ code.length := by
  obtain ⟨g, code, done, loads, arranged⟩ := guardedDivision_called
  obtain ⟨code', loads', bound⟩ := call_steps_le (by decide) (by decide) guardedDivision_valid
    (by simp [ReturnFree, BranchFixup.guardedDivision]) (by decide) (by decide) done
  cases loads.symm.trans loads'
  obtain ⟨trace, u, complete, steps⟩ := bound _ _ arranged
  exact ⟨g, _, trace, u, done, loads, complete, steps⟩

end CallFootprint
