import TinyWasm.ExitRun

/-!
# A whole run of a function

The entry, the walk through the body, the trap if there is one, and the
epilogue are one run of the machine. Where the buffer is apart from the machine
stack and from the slots of the operand stack, the run comes back to the caller
with its stack pointer and frame record, and the return code tells how.
-/

namespace FunctionRun

open HexText Wasm ArmInstruction ByteMemory StepRuns ArmMachine BlockEffects LabelledCode SourceBody
open Opcode EncoderCorrectness CodeItems FrameSpec StructuredRun CodeLayout BodyFrame FrameEffects
open CallStubs EntryRun ExitRun

/-! ### Where a walk steps -/

/-- The trace steps from positions that increase, from `p` on and below `q`. -/
def Ascends (base : BitVec 64) (p q : Nat) (trace : List Config) : Prop :=
  ∃ ks : List Nat, trace.map Config.pc = ks.map (addr base) ∧ ks.Pairwise (· < ·) ∧
    ∀ k ∈ ks, p ≤ k ∧ k < q

theorem ascends_nil (base : BitVec 64) (p q : Nat) : Ascends base p q [] :=
  ⟨[], rfl, .nil, fun _ hk => absurd hk List.not_mem_nil⟩

theorem Ascends.mono {base : BitVec 64} {p p' q q' : Nat} {trace : List Config}
    (h : Ascends base p q trace) (low : p' ≤ p) (high : q ≤ q') : Ascends base p' q' trace := by
  obtain ⟨ks, places, order, bounds⟩ := h
  refine ⟨ks, places, order, fun k hk => ?_⟩
  have := bounds k hk
  omega

theorem Ascends.append {base : BitVec 64} {p q r : Nat} {first second : List Config}
    (h : Ascends base p q first) (h' : Ascends base q r second) (le : p ≤ q ∧ q ≤ r) :
    Ascends base p r (first ++ second) := by
  obtain ⟨ks, places, order, bounds⟩ := h
  obtain ⟨ls, places', order', bounds'⟩ := h'
  refine ⟨ks ++ ls, by rw [List.map_append, places, places', List.map_append],
    List.pairwise_append.mpr ⟨order, order', fun k hk l hl => ?_⟩, fun k hk => ?_⟩
  · have := bounds k hk
    have := bounds' l hl
    omega
  · rcases List.mem_append.mp hk with hk | hk
    · have := bounds k hk
      omega
    · have := bounds' k hk
      omega

theorem Ascends.front {base : BitVec 64} {p q : Nat} {trace rest : List Config}
    (h : Ascends base p q (trace ++ rest)) : Ascends base p q trace := by
  obtain ⟨ks, places, order, bounds⟩ := h
  rw [List.map_append] at places
  obtain ⟨front, back, rfl, here, -⟩ := List.map_eq_append_iff.mp places.symm
  exact ⟨front, here.symm, (List.pairwise_append.mp order).1,
    fun k hk => bounds k (List.mem_append_left _ hk)⟩

theorem ascends_one (base : BitVec 64) (p : Nat) (s : State) :
    Ascends base p (p + 1) [⟨addr base p, s⟩] :=
  ⟨[p], rfl, List.pairwise_singleton _ _, fun k hk => by
    rw [List.mem_singleton] at hk
    omega⟩

theorem ascends_block (base : BitVec 64) (p : Nat) (block : List Instr) (s : State) :
    Ascends base p (p + block.length) (blockTrace base p block s) := by
  induction block generalizing p s with
  | nil => exact ascends_nil _ _ _
  | cons i block ih =>
    have later := ih (p + 1) (exec i s)
    rw [List.length_cons]
    exact ((ascends_one base p s).append later (by omega)).mono (Nat.le_refl _) (by omega)

theorem ascends_branch (base : BitVec 64) (p : Nat) (block : List Instr) (s : State) :
    Ascends base p (p + block.length + 1) (branchTrace base p block s) :=
  (ascends_block base p block s).append (ascends_one base _ _) (by omega)

theorem Ascends.steps {base : BitVec 64} {p q : Nat} {trace : List Config}
    (h : Ascends base p q trace) : StepsIn base (fun k => p ≤ k ∧ k < q) trace := by
  obtain ⟨ks, places, -, bounds⟩ := h
  intro c hc
  have inside : c.pc ∈ ks.map (addr base) := places ▸ List.mem_map_of_mem hc
  obtain ⟨k, hk, place⟩ := List.mem_map.mp inside
  exact ⟨k, bounds k hk, place.symm⟩

theorem ascends_once {base : BitVec 64} {p q : Nat} {v : Visit} {s : State}
    (h : Ascends base p q v.trace) : Ascends base p q (Walk.once v s).trace := by
  rwa [Walk.once, Walk.trace, List.flatMap_singleton]

theorem ascends_andThen {base : BitVec 64} {p q r : Nat} {w : Walk} {next : State → Walk}
    (first : Ascends base p q w.trace) (second : Ascends base q r (next w.state).trace)
    (le : p ≤ q ∧ q ≤ r) : Ascends base p r (w.andThen next).trace := by
  cases hw : w.trapped with
  | true =>
    rw [Walk.andThen, if_pos hw]
    exact first.mono (Nat.le_refl _) le.2
  | false =>
    rw [(Walk.trace_andThen hw next).1]
    exact first.append second le

theorem div_ascends (base : BitVec 64) (width : Width) (signed : Bool) (offset : Nat)
    (height : Int) (p : Nat) (s : State) :
    Ascends base p (p + size (divItems width signed))
      (divWalk base width signed offset height p s).trace := by
  have len : size (divItems width signed) = (zeroCheck width).length + 1 +
      ((minusOneCheck width).length + 1) + ((minimumCheck width).length + 1) + 1 +
      (quotient width signed).length := by
    rw [divItems_split]
    simp [CodeItems.ins]
    omega
  let p₁ := p + (zeroCheck width).length + 1
  let p₂ := p₁ + (minusOneCheck width).length + 1
  let p₃ := p₂ + (minimumCheck width).length + 1
  have zero := ascends_branch base p (zeroCheck width)
  have minusOne := ascends_branch base p₁ (minusOneCheck width)
  have minimum := ascends_branch base p₂ (minimumCheck width)
  have last : ∀ t, Ascends base p₃ (p + size (divItems width signed))
      (blockTrace base (p₃ + 1) (quotient width signed) t) := fun t =>
    (ascends_block base (p₃ + 1) (quotient width signed) t).mono (by omega) (by omega)
  rw [divWalk]
  split_ifs
  · exact ascends_once (s := s) ((zero s).mono (Nat.le_refl _) (by omega))
  · exact ascends_once (((zero _).append (minusOne _) (by omega)).append
      ((last _).mono (by omega) (Nat.le_refl _)) (by omega))
  · exact ascends_once ((((zero _).append (minusOne _) (by omega)).append (minimum _)
      (by omega)).append (last _) (by omega))
  · exact ascends_once (s := s) ((((zero _).append (minusOne _) (by omega)).append (minimum _)
      (by omega)).append ((ascends_one base p₃ _).mono (Nat.le_refl _) (by omega)) (by omega))

/-- A walk steps through the code of its sequence only, and forward. -/
theorem walk_ascends (frame : Frame) (base : BitVec 64) (seq : Seq) (offset : Nat) (height : Int)
    (p : Nat) (s : State) :
    Ascends base p (p + size (bodyItems frame 0 seq))
      (walk frame base seq offset height p s).trace := by
  induction seq generalizing offset height p s with
  | nil => exact ascends_nil _ _ _
  | op o rest ih =>
    have len : size (bodyItems frame 0 (.op o rest)) =
        (opBlock frame o).length + size (bodyItems frame 0 rest) := by
      simp [bodyItems, CodeItems.ins]
    rw [len, ← Nat.add_assoc]
    exact ascends_andThen (ascends_once (ascends_block base p _ s)) (ih _ _ _ _) (by omega)
  | div width signed rest ih =>
    have len : size (bodyItems frame 0 (.div width signed rest)) =
        size (divItems width signed) + size (bodyItems frame 0 rest) := by
      simp [bodyItems]
    rw [len, ← Nat.add_assoc]
    exact ascends_andThen (div_ascends base width signed offset height p s) (ih _ _ _ _) (by omega)
  | ifThen block thn rest ihThn ihRest =>
    have len : p + size (bodyItems frame 0 (.ifThen block thn rest)) = p + testBlock.length + 1 +
        size (bodyItems frame 0 thn) + size (bodyItems frame 0 rest) := by
      simp [bodyItems, ifItems, testBlock, CodeItems.ins, bodyItems_size_eq frame _ 0]
      omega
    rw [walk, len]
    refine ascends_andThen (ascends_once (ascends_branch base p _ s))
      (ascends_andThen ?_ (ihRest _ _ _ _) (by omega)) (by omega)
    split_ifs
    · exact ascends_nil _ _ _
    · exact ascends_andThen (ihThn _ _ _ _) (ascends_once (ascends_nil _ _ _)) (by omega)
  | ifElse block thn els rest ihThn ihEls ihRest =>
    have len : p + size (bodyItems frame 0 (.ifElse block thn els rest)) =
        p + testBlock.length + 1 + size (bodyItems frame 0 thn) + 1 + size (bodyItems frame 0 els) +
        size (bodyItems frame 0 rest) := by
      simp [bodyItems, ifItems, testBlock, CodeItems.ins, bodyItems_size_eq frame _ 0]
      omega
    rw [walk, len]
    refine ascends_andThen (ascends_once (ascends_branch base p _ s))
      (ascends_andThen ?_ (ihRest _ _ _ _) (by omega)) (by omega)
    split_ifs
    · exact (ascends_andThen (ihEls _ _ _ _) (ascends_once (ascends_nil _ _ _))
        ⟨Nat.le_add_right _ _, Nat.le_refl _⟩).mono (by omega) (Nat.le_refl _)
    · exact (ascends_andThen (ihThn _ _ _ _) (ascends_once (ascends_one base _ _))
        (by omega)).mono (Nat.le_refl _) (by omega)

/-! ### The run -/

section
variable (params locals results : List wasm_type) (body : Seq) (base : BitVec 64) (n : Nat)

/-- The walk through the body, from where the entry leaves off. -/
def bodyWalk (s : State) : Walk :=
  walk (frameOf params locals) base body 0 0 (n + bodyStart params locals)
    (entered params locals base n s)

/-- The steps from the end of the walk to the epilogue, and the state there. -/
def exitTrace (w : Walk) : List Config :=
  if w.trapped then trapTrace params locals base n w.state
  else blockTrace base (n + bodyEnd params locals body) (returnCode 0) w.state

def exitState (w : Walk) : State := if w.trapped then raised w.state else returned w.state

def functionTrace (s : State) : List Config :=
  entryTrace params locals base n s ++ (bodyWalk params locals body base n s).trace ++
    exitTrace params locals body base n (bodyWalk params locals body base n s) ++
    leaveTrace params locals results base (n + finalizeStart params locals body)
      (exitState (bodyWalk params locals body base n s))

/-- The state the function returns with. -/
def finalState (s : State) : State :=
  left params locals results (exitState (bodyWalk params locals body base n s))

end

section
variable {code : List Word} {instrs : List Instr} {target : String → Int} {n : Nat}
  {params locals results : List wasm_type} {body : Seq} (loaded : Loaded code instrs)
  (base : BitVec 64) (layout : Layout instrs target n params locals results body)
include loaded layout

theorem run_trap {t h : State} (holds : Holds (t.x 19) t.mem h)
    (back : h.x 30 = returnAddress params locals base n) :
    Run (step code base) ⟨addr base (n + 11), t⟩ (trapTrace params locals base n t)
      ⟨addr base (n + finalizeStart params locals body), raised t⟩ := by
  obtain ⟨d₁, b₁, t₁⟩ := layout.toLongjmp
  obtain ⟨d₂, b₂, t₂⟩ := layout.toRaise
  obtain ⟨d₃, b₃, t₃⟩ := layout.toFinalize
  obtain ⟨loads, behind⟩ := stands_append.mp (longjmpBlock_eq ▸ layout.longjmp)
  obtain ⟨rest, br⟩ := stands_append.mp behind
  obtain ⟨kept, -⟩ := jumped_eq holds
  have prepare : Run (step code base) ⟨addr base (n + 11), t⟩
      (blockTrace base (n + 11) prepareBlock t) ⟨addr base (n + 14), prepared t⟩ :=
    run_block loaded base layout.prepare (by simp [plain, mov, movSp]) t
  have toLongjmp : step code base ⟨addr base (n + 14), prepared t⟩ =
      some ⟨addr base (n + 15), prepared t⟩ := step_b loaded base b₁ t₁ _
  have load : Run (step code base) ⟨addr base (n + 15), prepared t⟩
      (blockTrace base (n + 15) longjmpLoads (prepared t)) ⟨addr base (n + 22), taken t⟩ :=
    run_block loaded base loads (by simp [longjmpLoads, saveRegs, plain]) (prepared t)
  have select : Run (step code base) ⟨addr base (n + 22), taken t⟩
      (blockTrace base (n + 22) longjmpRest (taken t)) ⟨addr base (n + 26), jumped t⟩ :=
    run_block loaded base rest (by simp [longjmpRest, plain, movSp, cmpZero]) (taken t)
  have jump : step code base ⟨addr base (n + 26), jumped t⟩ =
      some ⟨returnAddress params locals base n, jumped t⟩ := by
    have link : (jumped t).x 30 = returnAddress params locals base n :=
      (kept 11 (by decide)).trans back
    have h := step_br loaded base (br 0 _ rfl) (jumped t)
    rw [reg_of_ne (by decide), link] at h
    exact h
  have test : Run (step code base) ⟨returnAddress params locals base n, jumped t⟩
      (branchTrace base (n + wrapperStart params locals + 3) [cmpZero .x 0] (jumped t))
      ⟨addr base (n + 27), retested t⟩ := by
    have h := run_branch loaded base layout.test (uses_cmp .x 0 0).1 b₂ t₂ (jumped t)
    have flag : (execAll [cmpZero .x 0] (jumped t)).flags.z = false := (retested_eq holds).2.2.2
    rw [holds_ne, flag, Bool.not_false, if_pos rfl] at h
    exact h
  have raise : Run (step code base) ⟨addr base (n + 27), retested t⟩
      (blockTrace base (n + 27) raiseBlock (retested t)) ⟨addr base (n + 31), raised t⟩ :=
    run_block loaded base layout.raise (by simp [returnCode, plain, mov, movSp]) (retested t)
  have toFinalize : step code base ⟨addr base (n + 31), raised t⟩ =
      some ⟨addr base (n + finalizeStart params locals body), raised t⟩ :=
    step_b loaded base b₃ t₃ _
  exact (((((((prepare.append (.one toLongjmp)).append load).append select).append
    (.one jump)).append test).append raise).append (.one toFinalize))

/-- The epilogue up to the `ret` of the function. -/
theorem run_epilogue (u : State) :
    Run (step code base) ⟨addr base (n + finalizeStart params locals body), u⟩
      (blockTrace base (n + finalizeStart params locals body) (leaveBlock params locals results) u)
      ⟨addr base (n + finalizeStart params locals body +
        (leaveBlock params locals results).length), left params locals results u⟩ :=
  run_block loaded base layout.leave (leaveBlock_plain params locals results) u

theorem run_leave (u : State) :
    Run (step code base) ⟨addr base (n + finalizeStart params locals body), u⟩
      (leaveTrace params locals results base (n + finalizeStart params locals body) u)
      ⟨(left params locals results u).x 30, left params locals results u⟩ :=
  (run_epilogue loaded base layout u).append (.one (step_ret loaded base layout.ret _))

/-- The machine enters the body and runs through it. -/
theorem run_body (small : frameSize params locals ≤ 4080) (s : State) :
    Run (step code base) ⟨addr base n, s⟩
      (entryTrace params locals base n s ++ (bodyWalk params locals body base n s).trace)
      ⟨addr base (if (bodyWalk params locals body base n s).trapped then n + 11
        else n + bodyEnd params locals body), (bodyWalk params locals body base n s).state⟩ := by
  have entry := run_entry loaded base layout small s
  have through : Run (step code base) _ _ _ :=
    walk_follows loaded base layout.trap (frameOf params locals) body layout.linked
      layout.labelled 0 0 (entered params locals base n s)
  rw [Nat.add_assoc] at through
  exact entry.append through

section
variable {s : State} (area : (bodyWalk params locals body base n s).trapped = true →
  ∃ h, Holds ((bodyWalk params locals body base n s).state.x 19)
    (bodyWalk params locals body base n s).state.mem h ∧
    h.x 30 = returnAddress params locals base n)
include area

/-- The way from the body to the epilogue, provided that a trap finds in the area what `setjmp`
has left there. -/
theorem run_exit : Run (step code base)
    ⟨addr base (if (bodyWalk params locals body base n s).trapped then n + 11
      else n + bodyEnd params locals body), (bodyWalk params locals body base n s).state⟩
    (exitTrace params locals body base n (bodyWalk params locals body base n s))
    ⟨addr base (n + finalizeStart params locals body),
      exitState (bodyWalk params locals body base n s)⟩ := by
  cases trapped : (bodyWalk params locals body base n s).trapped with
  | true =>
    obtain ⟨h, holds, back⟩ := area trapped
    rw [exitTrace, exitState, if_pos trapped, if_pos trapped, if_pos rfl]
    exact run_trap loaded base layout holds back
  | false =>
    have through : ¬ (bodyWalk params locals body base n s).trapped = true := by simp [trapped]
    rw [exitTrace, exitState, if_neg through, if_neg through, if_neg Bool.false_ne_true]
    exact run_block loaded base layout.returned (by simp [returnCode, plain]) _

/-- The machine runs through the function. -/
theorem run_function (small : frameSize params locals ≤ 4080) :
    Run (step code base) ⟨addr base n, s⟩ (functionTrace params locals results body base n s)
      ⟨(finalState params locals results body base n s).x 30,
        finalState params locals results body base n s⟩ :=
  ((run_body loaded base layout small s).append (run_exit loaded base layout area)).append
    (run_leave loaded base layout _)

end

end

/-! ### What the caller gets back -/

/-- The buffer is apart from the machine stack the function works in, and from the slots
`lo, …, hi - 1` of the operand stack. -/
structure BufferApart (params locals : List wasm_type) (lo hi : Int) (s : State) : Prop where
  stack : Apart (s.x 19) areaSize (stackBottom params locals s) (stackReach params locals)
  slots : Apart (s.x 19) areaSize (s.x 20 + depth lo) (8 * (hi - lo)).toNat

theorem depth_offset (stack : BitVec 64) {lo k : Int} (h : lo ≤ k) :
    stack + depth k = stack + depth lo + BitVec.ofNat 64 (8 * (k - lo)).toNat := by
  rw [BitVec.add_assoc]
  congr 1
  rw [depth, depth, ← BitVec.ofInt_natCast, ← BitVec.ofInt_add]
  congr 1
  omega

/-- The slots of the operand stack are inside its memory. -/
theorem slot_inside {stack : BitVec 64} {lo hi k : Int} (low : lo ≤ k) (high : k < hi)
    (fits : (8 * (hi - lo)).toNat ≤ 2 ^ 64) (width : Width) :
    Within (stack + depth k) width.bytes (stack + depth lo) (8 * (hi - lo)).toNat := by
  rw [depth_offset stack low]
  refine within_of_offset ?_ fits
  rcases bytes_le width with h | h <;> rw [h] <;> omega

/-- A range apart from another does not leave the other a whole round of the addresses. -/
theorem fits_of_apart {a b : BitVec 64} {n k : Nat} (apart : Apart a n b k) (some : 0 < n) :
    k ≤ 2 ^ 64 := by
  by_contra large
  refine apart a ?_ ?_
  · rw [Inside, BitVec.sub_self]
    exact some
  · have := (a - b).isLt
    rw [Inside]
    omega

theorem stack_split (params locals : List wasm_type) (s : State) :
    s.sp - sizeBytes params locals = stackBottom params locals s + BitVec.ofNat 64 32 :=
  (BitVec.sub_add_cancel _ _).symm

/-- The frame is inside the machine stack the function works in. -/
theorem frame_inside {params locals : List wasm_type} (small : frameSize params locals ≤ 4080)
    (s : State) : Within (s.sp - sizeBytes params locals) (frameReach params locals)
      (stackBottom params locals s) (stackReach params locals) := by
  have reach : stackReach params locals = 32 + ((frameSize params locals).toNat + 8) := rfl
  have reach' : frameReach params locals = (frameSize params locals).toNat + 8 := rfl
  rw [stack_split]
  exact within_of_offset (by omega) (by omega)

/-- Room for a range apart from the slots of the operand stack and from the machine stack. -/
theorem room_of_areas {params locals : List wasm_type} (small : frameSize params locals ≤ 4080)
    {a : BitVec 64} {n : Nat} {lo hi : Int} {s : State}
    (slots : Apart a n (s.x 20 + depth lo) (8 * (hi - lo)).toNat)
    (fits : (8 * (hi - lo)).toNat ≤ 2 ^ 64)
    (machine : Apart a n (stackBottom params locals s) (stackReach params locals)) :
    Room a n (s.x 20) (s.sp - sizeBytes params locals) lo hi (frameOf params locals) := by
  refine ⟨fun k low high width => ?_, fun slot hs => ?_⟩
  · exact slots.mono (within_refl _ _) (slot_inside low high fits width)
  · exact machine.mono (within_refl _ _)
      ((slot_within small _ slot hs).trans (frame_inside small s))

theorem room_of_apart {params locals : List wasm_type} (small : frameSize params locals ≤ 4080)
    {lo hi : Int} {s : State} (apart : BufferApart params locals lo hi s) :
    Room (s.x 19) areaSize (s.x 20) (s.sp - sizeBytes params locals) lo hi
      (frameOf params locals) :=
  room_of_areas small apart.slots (fits_of_apart apart.slots (by decide)) apart.stack

section
variable {params locals : List wasm_type} (small : frameSize params locals ≤ 4080) {body : Seq}
  (uses : body.UsesBelow (frameOf params locals).length) {lo hi : Int}
  (inside : StoresIn lo hi body 0 fun _ => True) {s : State} (empty : s.x 21 = 0)
  (base : BitVec 64) (n : Nat)
include small uses inside empty

/-- The body keeps what it has room for, and leaves the kept registers alone. -/
theorem bodyWalk_room {a : BitVec 64} {k : Nat}
    (room : Room a k (s.x 20) (s.sp - sizeBytes params locals) lo hi (frameOf params locals)) :
    Kept a k (entered params locals base n s) (bodyWalk params locals body base n s) := by
  obtain ⟨others, -, -, sp, -⟩ := entered_eq small base n s
  exact (walk_settles room base body uses inside
    (others 20 (by decide) (by decide) (by decide) (by decide))
    ((others 21 (by decide) (by decide) (by decide) (by decide)).trans empty) sp 0 0
    (n + bodyStart params locals)).kept

/-- It keeps the buffer. -/
theorem bodyWalk_kept (apart : BufferApart params locals lo hi s) :
    Kept (s.x 19) areaSize (entered params locals base n s)
      (bodyWalk params locals body base n s) :=
  bodyWalk_room small uses inside empty base n (room_of_apart small apart)

end

/-- The entry writes variables, the frame record and the area of `setjmp`. -/
theorem entered_elsewhere {params locals : List wasm_type} (small : frameSize params locals ≤ 4080)
    (base : BitVec 64) (k : Nat) {s : State} {a : BitVec 64} {n : Nat}
    (area : Apart a n (s.x 19) areaSize)
    (machine : Apart a n (stackBottom params locals s) (stackReach params locals)) :
    SameOn a n (entered params locals base k s).mem s.mem := by
  obtain ⟨-, -, -, -, mem⟩ := entered_eq small base k s
  obtain ⟨-, -, -, -, markedMem⟩ := marked_eq small base k s
  obtain ⟨-, callingArea, -, callingMem⟩ := calling_eq small s
  obtain ⟨-, others, -, calledMem⟩ := called_eq params locals base k s
  obtain ⟨-, -, framedMem⟩ := framed_eq small s
  have size := frameSize_nonneg params locals
  have reach : stackReach params locals = 32 + ((frameSize params locals).toNat + 8) := rfl
  have laidOut : SameOn a n (framed params locals s).mem s.mem := by
    rw [framedMem]
    refine putAll_apart _ fun p hp => ?_
    exact machine.mono (within_refl _ _)
      ((framePuts_within small _ p hp).trans (frame_inside small s))
  have record : ∀ d, d + 8 ≤ 32 →
      Apart a n (stackBottom params locals s + BitVec.ofNat 64 d) 8 := by
    intro d low
    exact machine.mono (within_refl _ _) (within_of_offset (by omega) (by omega))
  have saved : SameOn a n (calling params locals s).mem (framed params locals s).mem := by
    rw [callingMem]
    have first := record 0 (by decide)
    rw [show stackBottom params locals s + BitVec.ofNat 64 0 = stackBottom params locals s from
      BitVec.add_zero _] at first
    exact (write_apart _ _ (record 8 (by decide))).trans (write_apart _ _ first)
  have marked : SameOn a n (marked params locals base k s).mem (calling params locals s).mem := by
    rw [markedMem]
    refine puts_apart _ ?_
    rw [others 0 (by decide), callingArea]
    exact area
  rw [mem]
  exact marked.trans (saved.trans laidOut)

/-- The way out writes the return code. -/
theorem exit_elsewhere {w : Walk} {a : BitVec 64} {n : Nat} {h : State}
    (area : Apart a n (w.state.x 19) areaSize) (buffer : h.x 19 = w.state.x 19)
    (holds : w.trapped = true → Holds (w.state.x 19) w.state.mem h) :
    SameOn a n (exitState w).mem w.state.mem := by
  have code : Apart a n (w.state.x 19) 8 := by
    have first := within_of_offset (a := w.state.x 19) (n := areaSize) (d := 0) (k := 8) (by decide)
      (by decide)
    rw [show w.state.x 19 + BitVec.ofNat 64 0 = w.state.x 19 from BitVec.add_zero _] at first
    exact area.mono (within_refl _ _) first
  cases trapped : w.trapped with
  | true =>
    obtain ⟨-, -, -, mem⟩ := raised_eq (holds trapped)
    rw [exitState, if_pos trapped, mem, buffer]
    exact write_apart _ _ code
  | false =>
    obtain ⟨-, -, mem⟩ := returned_eq w.state
    rw [exitState, if_neg (by simp [trapped]), mem]
    exact write_apart _ _ code

section
variable {params locals : List wasm_type} (small : frameSize params locals ≤ 4080) {body : Seq}
  {s : State} (machine : Apart (s.x 19) areaSize (stackBottom params locals s)
    (stackReach params locals)) {base : BitVec 64} {n : Nat}
  (kept : Kept (s.x 19) areaSize (entered params locals base n s)
    (bodyWalk params locals body base n s))
include small machine kept

/-- The state the walk ends in, as far as the way back to the caller depends on it. -/
theorem bodyWalk_eq :
    (bodyWalk params locals body base n s).state.x 19 = s.x 19 ∧
      (bodyWalk params locals body base n s).state.x 29 = s.x 29 ∧
      (bodyWalk params locals body base n s).state.x 30 = s.x 30 ∧
      (bodyWalk params locals body base n s).state.sp = s.sp - sizeBytes params locals ∧
      Holds (s.x 19) (bodyWalk params locals body base n s).state.mem
        (called params locals base n s) := by
  obtain ⟨keeps, -, mem⟩ := kept
  obtain ⟨others, -, -, sp, -⟩ := entered_eq small base n s
  obtain ⟨x29, x30, holds⟩ := entered_memory small base n machine
  exact ⟨(keeps.x 19 (by decide)).trans
      (others 19 (by decide) (by decide) (by decide) (by decide)),
    (keeps.x 29 (by decide)).trans x29, (keeps.x 30 (by decide)).trans x30, keeps.sp.trans sp,
    holds.congr mem⟩

theorem trap_area (_ : (bodyWalk params locals body base n s).trapped = true) :
    ∃ h, Holds ((bodyWalk params locals body base n s).state.x 19)
      (bodyWalk params locals body base n s).state.mem h ∧
      h.x 30 = returnAddress params locals base n := by
  obtain ⟨buffer, -, -, -, holds⟩ := bodyWalk_eq small machine kept
  exact ⟨called params locals base n s, by rwa [buffer],
    (called_eq params locals base n s).1⟩

/-- In front of the epilogue, on both ways. -/
theorem exitState_eq :
    (exitState (bodyWalk params locals body base n s)).x 29 = s.x 29 ∧
      (exitState (bodyWalk params locals body base n s)).x 30 = s.x 30 ∧
      (exitState (bodyWalk params locals body base n s)).sp = s.sp - sizeBytes params locals ∧
      read 64 (exitState (bodyWalk params locals body base n s)).mem (s.x 19) 8 =
        if (bodyWalk params locals body base n s).trapped then 1 else 0 := by
  obtain ⟨buffer, x29, x30, sp, holds⟩ := bodyWalk_eq small machine kept
  have code : ∀ (mem : Memory 64) (v : BitVec 64),
      read 64 (write mem (s.x 19) 8 v) (s.x 19) 8 = v :=
    fun mem v => read_write_same mem _ (n := 8) (by decide) v
  cases trapped : (bodyWalk params locals body base n s).trapped with
  | true =>
    obtain ⟨-, calledX, -⟩ := called_eq params locals base n s
    obtain ⟨callingX, -⟩ := calling_eq small s
    obtain ⟨kept, link, stack, mem⟩ := raised_eq (by rw [buffer]; exact holds)
    have buffer' : (called params locals base n s).x 19 = s.x 19 :=
      (calledX 19 (by decide)).trans (callingX 19 (by decide))
    rw [exitState, if_pos trapped, mem, buffer', if_pos rfl]
    exact ⟨(kept 10 (by decide)).trans ((calledX 29 (by decide)).trans (callingX 29 (by decide))),
      link.trans x30, stack.trans sp, code _ _⟩
  | false =>
    have through : ¬ (bodyWalk params locals body base n s).trapped = true := by simp [trapped]
    obtain ⟨others, stack, mem⟩ := returned_eq (bodyWalk params locals body base n s).state
    rw [exitState, if_neg through, mem, buffer, if_neg Bool.false_ne_true]
    exact ⟨(others 29 (by decide)).trans x29, (others 30 (by decide)).trans x30, stack.trans sp,
      code _ _⟩

/-- The function keeps what is apart from the area and the machine stack, if its body does. -/
theorem finalState_elsewhere (results : List wasm_type) {a : BitVec 64} {k : Nat}
    (area : Apart a k (s.x 19) areaSize)
    (stack : Apart a k (stackBottom params locals s) (stackReach params locals))
    (through : SameOn a k (bodyWalk params locals body base n s).state.mem
      (entered params locals base n s).mem) :
    SameOn a k (finalState params locals results body base n s).mem s.mem := by
  obtain ⟨buffer, -, -, -, holds⟩ := bodyWalk_eq small machine kept
  obtain ⟨-, calledX, -⟩ := called_eq params locals base n s
  have same : (called params locals base n s).x 19 = s.x 19 :=
    (calledX 19 (by decide)).trans ((calling_eq small s).1 19 (by decide))
  have exit : SameOn a k (exitState (bodyWalk params locals body base n s)).mem
      (bodyWalk params locals body base n s).state.mem :=
    exit_elsewhere (by rwa [buffer]) (same.trans buffer.symm) fun _ => by rwa [buffer]
  rw [finalState, (left_eq small results _).2.2]
  exact exit.trans (through.trans (entered_elsewhere small base n area stack))

end

end FunctionRun
