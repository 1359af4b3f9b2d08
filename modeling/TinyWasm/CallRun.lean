import TinyWasm.FunctionCall

/-!
# A run of a call

The argument loads, the function and its return are the one run from the start
of the code. It passes `preparelongjmp` exactly when the body traps, and comes
back with the return code that says so.
-/

namespace CallRun

open HexText Wasm ArmInstruction ByteMemory StepRuns ArmMachine BlockEffects LabelledCode SourceBody
open Opcode EncoderCorrectness CodeItems FrameSpec StructuredRun CodeLayout BodyFrame FrameEffects
open CallStubs EntryRun ExitRun FunctionRun FunctionCall

/-- What `executeWasmInstr` calls the code with: the buffer in `x0`, the slots `lo, …, hi - 1` of
the operand stack in `x1` and the machine stack are apart, and the code returns out of itself. -/
structure Arranged (code : List Word) (base : BitVec 64) (params locals : List wasm_type)
    (lo hi : Int) (s : State) : Prop where
  buffer : Apart (s.x 0) areaSize (s.x 1 + depth lo) (8 * (hi - lo)).toNat
  machine : Apart (s.x 0) areaSize (stackBottom params locals s) (stackReach params locals)
  operands : Apart (s.x 1 + depth lo) (8 * (hi - lo)).toNat (stackBottom params locals s)
    (stackReach params locals)
  outside : 4 * code.length ≤ (s.x 30 - base).toNat

/-- A call with its memory spread out, from code far above. -/
def sampleCall : State :=
  { x := fun r =>
      if r = 0 then 0x10000 else if r = 1 then 0x20000 else if r = 30 then 0x80000 else 0
    sp := 0x40000
    flags := {}
    mem := fun _ => 0 }

theorem sampleCall_arranged {code : List Word} {params locals : List wasm_type}
    (small : frameSize params locals ≤ 4080) (short : code.length ≤ 2 ^ 61) {s : State}
    (like : s.x 0 = sampleCall.x 0 ∧ s.x 1 = sampleCall.x 1 ∧ s.x 30 = sampleCall.x 30)
    (stack : s.sp = sampleCall.sp) :
    Arranged code 0x100000 params locals 0 1024 s := by
  have low := frameSize_nonneg params locals
  have reach : stackReach params locals = 32 + ((frameSize params locals).toNat + 8) := rfl
  have bottom : stackBottom params locals s =
      BitVec.ofNat 64 (0x40000 - (frameSize params locals).toNat - 32) := by
    apply BitVec.eq_of_toNat_eq
    have top : sampleCall.sp.toNat = 0x40000 := rfl
    have record : (32 : BitVec 64).toNat = 32 := rfl
    rw [stackBottom, stack, sizeBytes, BitVec.toNat_sub, BitVec.toNat_sub, BitVec.toNat_ofInt,
      BitVec.toNat_ofNat, top, record]
    omega
  obtain ⟨x0, x1, x30⟩ := like
  have operands : s.x 1 + depth 0 = BitVec.ofNat 64 0x20000 := by
    rw [x1]
    exact BitVec.add_zero _
  have size : (8 * ((1024 : Int) - 0)).toNat = 8192 := rfl
  refine ⟨?_, ?_, ?_, ?_⟩
  · rw [x0, operands, size]
    exact apart_of_lt (d := 0x10000) (Or.inl (by decide)) ⟨by decide, by decide⟩
  · rw [x0, bottom]
    exact apart_of_lt (d := 0x10000) (Or.inl (by rw [areaSize]; omega))
      ⟨by decide, by omega⟩
  · rw [operands, size, bottom]
    exact apart_of_lt (Or.inl (by omega)) ⟨by decide, by omega⟩
  · have far : ((0x80000 : BitVec 64) - 0x100000).toNat = 2 ^ 64 - 0x80000 := by decide
    rw [x30, show sampleCall.x 30 = 0x80000 from rfl, far]
    omega

section
variable (params locals results : List wasm_type) (body : Seq) (base : BitVec 64)

/-- Where the function begins, behind its argument loads. -/
def functionStart : Nat := (argumentBlock params).length

/-- The walk through the body of a call. -/
def callWalk (s : State) : Walk :=
  bodyWalk params locals body base (functionStart params) (atEntry params s)

def callTrace (s : State) : List Config :=
  blockTrace base 0 (argumentBlock params) s ++
    functionTrace params locals results body base (functionStart params) (atEntry params s)

/-- The state a call returns with. -/
def callEnd (s : State) : State :=
  finalState params locals results body base (functionStart params) (atEntry params s)

end

theorem bufferApart_of_arranged {code : List Word} {base : BitVec 64}
    {params locals : List wasm_type} {lo hi : Int} {s : State} (few : params.length ≤ 19)
    (ints : ∀ v ∈ params, isFloat v = false) (arranged : Arranged code base params locals lo hi s) :
    BufferApart params locals lo hi (atEntry params s) := by
  obtain ⟨buffer, stack, -, -, -, -, sp, -⟩ := atEntry_eq few ints s
  constructor
  · rw [buffer, stackBottom, sp]
    exact arranged.machine
  · rw [buffer, stack]
    exact arranged.buffer

/-! ### Addresses -/

theorem addr_injective {base : BitVec 64} {i j : Nat} (hi : i < 2 ^ 62) (hj : j < 2 ^ 62)
    (same : addr base i = addr base j) : i = j := by
  have offsets := congrArg (fun a => (a - base).toNat) same
  simp only [addr, BitVec.add_comm base, BitVec.add_sub_cancel, BitVec.toNat_ofNat] at offsets
  omega

theorem leaveTrace_steps (params locals results : List wasm_type) (base : BitVec 64) (p : Nat)
    (u : State) : StepsIn base
      (fun k => p ≤ k ∧ k ≤ p + (leaveBlock params locals results).length)
      (leaveTrace params locals results base p u) :=
  (stepsIn_block (fun k low high => ⟨low, by omega⟩) u).append
    (stepsIn_one ⟨by omega, Nat.le_refl _⟩ _)

/-! ### The return code -/

/-- `executeWasmInstr` throws: the call comes back and the return code at the start of its buffer
is not zero. -/
def Throws (code : List Word) (base : BitVec 64) (s : State) : Prop :=
  ∃ trace t, Complete (step code base) ⟨base, s⟩ trace ⟨s.x 30, t⟩ ∧ read 16 t.mem (s.x 0) 2 ≠ 0

theorem read_low (mem : Memory 64) (a : BitVec 64) :
    read 16 mem a 2 = (read 64 mem a 8).setWidth 16 := by
  apply BitVec.eq_of_getLsbD_eq
  intro i hi
  rw [getLsbD_read, BitVec.getLsbD_setWidth, getLsbD_read]
  have wide : i < 64 := by omega
  simp [hi, wide]

/-! ### The whole run -/

/-- A body that stores in the slots of the operand stack only keeps the buffer. -/
theorem callWalk_kept {code : List Word} {instrs : List Instr} {target : String → Int}
    {params locals results : List wasm_type} {body : Seq}
    (callable : Callable code instrs target params locals results body)
    (few : params.length ≤ 19) (ints : ∀ v ∈ params, isFloat v = false) {lo hi : Int}
    (inside : StoresIn lo hi body 0 fun _ => True) {base : BitVec 64} {s : State}
    (arranged : Arranged code base params locals lo hi s) :
    Kept ((atEntry params s).x 19) areaSize
      (entered params locals base (functionStart params) (atEntry params s))
      (callWalk params locals body base s) :=
  bodyWalk_kept callable.small callable.uses inside (atEntry_eq few ints s).2.2.1 base _
    (bufferApart_of_arranged few ints arranged)

section
variable {code : List Word} {instrs : List Instr} {target : String → Int}
  {params locals results : List wasm_type} {body : Seq}
  (callable : Callable code instrs target params locals results body) {base : BitVec 64} {s : State}
  (machine : Apart ((atEntry params s).x 19) areaSize (stackBottom params locals (atEntry params s))
    (stackReach params locals))
  (kept : Kept ((atEntry params s).x 19) areaSize
    (entered params locals base (functionStart params) (atEntry params s))
    (callWalk params locals body base s))
include callable machine kept

theorem run_call : Run (step code base) ⟨base, s⟩ (callTrace params locals results body base s)
    ⟨(callEnd params locals results body base s).x 30,
      callEnd params locals results body base s⟩ := by
  have loads := run_block callable.placed.loaded base callable.loads
    (fun i hi => (argumentBlock_plain params i hi).1) s
  rw [addr_zero, Nat.zero_add] at loads
  exact loads.append (run_function callable.placed.loaded base (layout_of_placed callable.placed)
    (trap_area callable.small machine kept) callable.small)

/-- A function with few results returns to where the link register leads. -/
theorem callEnd_link (narrow : results.length ≤ 29) :
    (callEnd params locals results body base s).x 30 = (atEntry params s).x 30 :=
  (left_keeps callable.small narrow _ (Or.inr rfl)).trans
    (exitState_eq callable.small machine kept).2.1

end

section
variable {code : List Word} {instrs : List Instr} {target : String → Int}
  {params locals results : List wasm_type} {body : Seq}
  (callable : Callable code instrs target params locals results body)
  (few : params.length ≤ 19) (ints : ∀ v ∈ params, isFloat v = false) {lo hi : Int}
  {base : BitVec 64} {s : State} (arranged : Arranged code base params locals lo hi s)
  (kept : Kept ((atEntry params s).x 19) areaSize
    (entered params locals base (functionStart params) (atEntry params s))
    (callWalk params locals body base s))
include callable few ints arranged kept

/-- What the caller finds: its stack pointer and frame record, and the return code. -/
theorem callEnd_eq (narrow : results.length ≤ 29) :
    (callEnd params locals results body base s).x 29 = s.x 29 ∧
      (callEnd params locals results body base s).x 30 = s.x 30 ∧
      (callEnd params locals results body base s).sp = s.sp ∧
      read 64 (callEnd params locals results body base s).mem (s.x 0) 8 =
        if (callWalk params locals body base s).trapped then 1 else 0 := by
  have machine := (bufferApart_of_arranged few ints arranged).stack
  obtain ⟨buffer, -, -, -, entry29, entry30, entrySp, -⟩ := atEntry_eq few ints s
  obtain ⟨x29, -, sp, mem⟩ := exitState_eq callable.small machine kept
  obtain ⟨-, leftSp, leftMem⟩ := left_eq callable.small results
    (exitState (callWalk params locals body base s))
  have frame := left_keeps callable.small narrow (exitState (callWalk params locals body base s))
    (Or.inl rfl)
  refine ⟨frame.trans (x29.trans entry29),
    (callEnd_link callable machine kept narrow).trans entry30,
    ?_, ?_⟩
  all_goals rw [callEnd, finalState]
  · refine leftSp.trans ?_
    rw [callWalk, sp, entrySp, BitVec.sub_add_cancel]
  · refine (congrArg (read 64 · (s.x 0) 8) leftMem).trans ?_
    rw [callWalk, ← buffer]
    exact mem

theorem complete_call (narrow : results.length ≤ 29) :
    Complete (step code base) ⟨base, s⟩ (callTrace params locals results body base s)
      ⟨s.x 30, callEnd params locals results body base s⟩ := by
  have run := run_call callable (bufferApart_of_arranged few ints arranged).stack kept
  rw [(callEnd_eq callable few ints arranged kept narrow).2.1] at run
  exact ⟨run, step_outside arranged.outside⟩

/-- `executeWasmInstr` throws exactly when the body traps. -/
theorem throws_iff (narrow : results.length ≤ 29) :
    Throws code base s ↔ (callWalk params locals body base s).trapped = true := by
  have complete := complete_call callable few ints arranged kept narrow
  have code := (callEnd_eq callable few ints arranged kept narrow).2.2.2
  constructor
  · rintro ⟨trace, t, other, throws⟩
    obtain ⟨-, same⟩ := complete.unique other
    cases same
    rw [read_low, code] at throws
    by_contra through
    rw [if_neg through] at throws
    exact throws rfl
  · intro trapped
    refine ⟨_, _, complete, ?_⟩
    rw [read_low, code, if_pos trapped]
    decide

end

/-! ### The way to the trap -/

/-- The steps pass the code at position `j`. -/
def Passes (base : BitVec 64) (j : Nat) (trace : List Config) : Prop :=
  ∃ c ∈ trace, c.pc = addr base j

theorem passes_append {base : BitVec 64} {j : Nat} {first second : List Config} :
    Passes base j (first ++ second) ↔ Passes base j first ∨ Passes base j second := by
  constructor
  · rintro ⟨c, hc, here⟩
    rcases List.mem_append.mp hc with hc | hc
    · exact Or.inl ⟨c, hc, here⟩
    · exact Or.inr ⟨c, hc, here⟩
  · rintro (⟨c, hc, here⟩ | ⟨c, hc, here⟩)
    · exact ⟨c, List.mem_append_left _ hc, here⟩
    · exact ⟨c, List.mem_append_right _ hc, here⟩

theorem not_passes {base : BitVec 64} {P : Nat → Prop} {trace : List Config}
    (h : StepsIn base P trace) {j : Nat} (small : ∀ k, P k → k < 2 ^ 62) (hj : j < 2 ^ 62)
    (outside : ¬ P j) : ¬ Passes base j trace := by
  rintro ⟨c, hc, here⟩
  obtain ⟨k, hk, place⟩ := h c hc
  rw [here] at place
  exact outside (addr_injective (small k hk) hj place.symm ▸ hk)

/-- Where `preparelongjmp` stands. -/
def trapStart (params : List wasm_type) : Nat := functionStart params + 11

/-- The end of the code is not far. -/
theorem finalize_small {code : List Word} {instrs : List Instr} {target : String → Int}
    {params locals results : List wasm_type} {body : Seq}
    (callable : Callable code instrs target params locals results body) :
    functionStart params + finalizeStart params locals body +
      (leaveBlock params locals results).length < 2 ^ 61 := by
  have ret := (layout_of_placed callable.placed).ret
  have here := (List.getElem?_eq_some_iff.mp ret).1
  have lengths := congrArg List.length callable.placed.loaded.decoded
  have short := callable.placed.loaded.short
  simp only [List.length_map] at lengths
  rw [functionStart]
  omega

/-- A run of a call passes `preparelongjmp` exactly when the body traps. -/
theorem trapped_iff {code : List Word} {instrs : List Instr} {target : String → Int}
    {params locals results : List wasm_type} {body : Seq}
    (callable : Callable code instrs target params locals results body) (base : BitVec 64)
    (s : State) : Passes base (trapStart params) (callTrace params locals results body base s) ↔
      (callWalk params locals body base s).trapped = true := by
  let n := functionStart params
  let w := callWalk params locals body base s
  have far := finalize_small callable
  have finish : finalizeStart params locals body = bodyEnd params locals body + 2 := rfl
  have ended : bodyEnd params locals body =
      bodyStart params locals + size (bodyItems (frameOf params locals) 0 body) := rfl
  have start : bodyStart params locals = wrapperStart params locals + 6 := rfl
  have wrapper : wrapperStart params locals = 32 + (1 + params.length + locals.length) := rfl
  have trap : trapStart params = n + 11 := rfl
  have loads : ¬ Passes base (trapStart params) (blockTrace base 0 (argumentBlock params) s) :=
    not_passes (stepsIn_block (P := (· < n)) (fun k _ high => by rwa [Nat.zero_add] at high) s)
      (fun k hk => by omega) (by omega) (by omega)
  have entry :
      ¬ Passes base (trapStart params) (entryTrace params locals base n (atEntry params s)) :=
    not_passes (entryTrace_steps params locals base n _) (fun k hk => by omega) (by omega)
      (by omega)
  have walked : ¬ Passes base (trapStart params) w.trace :=
    not_passes
      (walk_ascends (frameOf params locals) base body 0 0 (n + bodyStart params locals) _).steps
      (fun k hk => by omega) (by omega) (by omega)
  have leave : ¬ Passes base (trapStart params) (leaveTrace params locals results base
      (n + finalizeStart params locals body) (exitState w)) :=
    not_passes (leaveTrace_steps params locals results base _ _) (fun k hk => by omega) (by omega)
      (by omega)
  rw [callTrace, functionTrace, passes_append, passes_append, passes_append, passes_append,
    or_iff_right loads]
  refine Iff.trans ((or_iff_left leave).trans (or_iff_right (not_or.mpr ⟨entry, walked⟩))) ?_
  rw [exitTrace]
  split_ifs with trapped
  · refine iff_of_true ⟨⟨addr base (n + 11), w.state⟩, ?_, rfl⟩ trapped
    simp only [trapTrace, List.append_assoc]
    exact List.mem_append_left _ List.mem_cons_self
  · refine iff_of_false (not_passes
      (stepsIn_block (P := fun k => n + bodyEnd params locals body ≤ k ∧
      k < n + finalizeStart params locals body) (fun k low high => ⟨low, ?_⟩) _)
      (fun k hk => by omega) (by omega) (by omega)) trapped
    have code : (returnCode 0).length = 2 := rfl
    omega

end CallRun
