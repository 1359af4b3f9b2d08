import TinyWasm.ControlFlow

/-!
# The height of the operand stack

The pointer in `x21` counts the entries of the operand stack. The test of an
`if` reads its condition and leaves it where it is, so at each boundary between
source instructions the pointer is one slot too high for every `if` that has
been executed.
-/

namespace StackHeight

open HexText Wasm Emit ArmInstruction ByteMemory StepRuns ArmMachine BlockEffects LabelledCode
open LocalDeclarations SourceBody CodeItems StructuredRun CodeLayout BodyFrame
open EntryRun ExitRun FunctionRun FunctionCall CallRun SourceSites EarlyReturn Validation
open ControlFlow

/-! ### Heights -/

/-- The height WebAssembly gives the operand stack in front of each instruction, by its offset. -/
def heights : Seq → (offset : Nat) → (height : Int) → List (Nat × Int)
  | .nil, _, _ => []
  | .op o rest, offset, h => (offset, h) :: heights rest (offset + o.bytes.length) (h + Op.effect o)
  | .div _ _ rest, offset, h => (offset, h) :: heights rest (offset + 1) (h - 1)
  | .ifThen block thn rest, offset, h =>
    let after := offset + 2 + thn.bytes.length
    let h' := h - 1 + BlockType.arity block
    (offset, h) :: (heights thn (offset + 2) (h - 1) ++ (after, h') :: heights rest (after + 1) h')
  | .ifElse block thn els rest, offset, h =>
    let middle := offset + 2 + thn.bytes.length
    let after := middle + 1 + els.bytes.length
    let h' := h - 1 + BlockType.arity block
    (offset, h) :: (heights thn (offset + 2) (h - 1) ++ (middle, h') ::
      (heights els (middle + 1) (h - 1) ++ (after, h') :: heights rest (after + 1) h'))

/-- In a valid sequence the heights are the lengths of the typed stacks. -/
theorem typed_op {vars results ts us : List ValType} {o : Op} {rest : Seq} (stays : o ≠ .ret)
    (typed : Typed vars results (.op o rest) ts us) :
    ∃ ts', Typed vars results rest ts' us ∧ (ts'.length : Int) = ts.length + Op.effect o := by
  cases typed with
  | ret later => exact absurd rfl stays
  | nop later | get known later | set known later | tee known later | i32const later
  | i64const later | compare later | arith later =>
    refine ⟨_, later, ?_⟩
    simp only [List.length_cons, Op.effect]
    omega

theorem types_length (block : BlockType) :
    ((BlockType.types block).length : Int) = BlockType.arity block := by
  cases block <;> rfl

/-! ### `if`s that have been executed -/

def isIf : Source → Bool
  | .ifOp _ => true
  | _ => false

/-- Number of `if`s among the executed instructions. -/
def ifs (es : List Executed) : Nat := es.countP fun e => isIf e.site.source

@[simp] theorem ifs_nil : ifs [] = 0 := rfl

@[simp] theorem ifs_cons (e : Executed) (es : List Executed) :
    ifs (e :: es) = ifs es + if isIf e.site.source then 1 else 0 := List.countP_cons

@[simp] theorem ifs_append (es es' : List Executed) : ifs (es ++ es') = ifs es + ifs es' :=
  List.countP_append

/-- Number of `if`s of a sequence, and of those that stand in no arm. -/
def allIfs : Seq → Nat
  | .nil => 0
  | .op _ rest | .div _ _ rest => allIfs rest
  | .ifThen _ thn rest => 1 + allIfs thn + allIfs rest
  | .ifElse _ thn els rest => 1 + allIfs thn + allIfs els + allIfs rest

def outerIfs : Seq → Nat
  | .nil => 0
  | .op _ rest | .div _ _ rest => outerIfs rest
  | .ifThen _ _ rest | .ifElse _ _ _ rest => 1 + outerIfs rest

/-! ### From boundary to boundary -/

/-- The machine goes from `c` through the executed instructions to another configuration. In front
of each of them `x21` is `start` plus its height and one slot for every `if` executed so far, `n` of
them in front of `c`. -/
inductive Tracks (code : List Word) (base : BitVec 64) (l : List Site) (hs : List (Nat × Int))
    (start : BitVec 64) : Nat → Config → List Executed → Config → Prop where
  | nil {n : Nat} {c : Config} : Tracks code base l hs start n c [] c
  | cons {n : Nat} {h : Int} {t : State} {d c : Config} {e : Executed} {es : List Executed}
      (listed : e.site ∈ l) (height : (e.site.offset, h) ∈ hs)
      (pointer : t.x 21 = start + depth (h + n)) (whole : e.Whole base)
      (run : Run (step code base) ⟨addr base e.site.place, t⟩ e.steps d)
      (later : Tracks code base l hs start (n + if isIf e.site.source then 1 else 0) d es c) :
      Tracks code base l hs start n ⟨addr base e.site.place, t⟩ (e :: es) c

section
variable {code : List Word} {base : BitVec 64} {l l' : List Site} {hs hs' : List (Nat × Int)}
  {start : BitVec 64} {n : Nat} {c d f : Config} {es es' : List Executed}

theorem Tracks.mono (h : Tracks code base l hs start n c es d) (sub : ∀ x ∈ l, x ∈ l')
    (sub' : ∀ x ∈ hs, x ∈ hs') : Tracks code base l' hs' start n c es d := by
  induction h with
  | nil => exact .nil
  | cons listed height pointer whole run _ ih =>
    exact .cons (sub _ listed) (sub' _ height) pointer whole run ih

theorem Tracks.append (h : Tracks code base l hs start n c es d)
    (h' : Tracks code base l hs start (n + ifs es) d es' f) :
    Tracks code base l hs start n c (es ++ es') f := by
  induction h with
  | nil => exact h'
  | cons listed height pointer whole run _ ih =>
    rw [ifs_cons, Nat.add_comm (ifs _), ← Nat.add_assoc] at h'
    exact .cons listed height pointer whole run (ih h')

theorem Tracks.run (h : Tracks code base l hs start n c es d) :
    Run (step code base) c (es.flatMap Executed.steps) d := by
  induction h with
  | nil => exact .nil _
  | cons _ _ _ _ run _ ih =>
    rw [List.flatMap_cons]
    exact run.append ih

theorem Tracks.whole (h : Tracks code base l hs start n c es d) :
    ∀ e ∈ es, e.site ∈ l ∧ e.Whole base := by
  induction h with
  | nil => exact fun e he => absurd he List.not_mem_nil
  | cons listed _ _ whole _ _ ih => exact List.forall_mem_cons.mpr ⟨⟨listed, whole⟩, ih⟩

/-- A test, an arm, the instruction that ends it, and what follows. -/
theorem Tracks.pieces {test closing : Executed} {s u : State} {h h' : Int}
    (isTest : isIf test.site.source = true) (isClosing : isIf closing.site.source = false)
    (listed : test.site ∈ l ∧ closing.site ∈ l)
    (known : (test.site.offset, h) ∈ hs ∧ (closing.site.offset, h') ∈ hs)
    (pointer : s.x 21 = start + depth (h + n)) (whole : test.Whole base)
    (run : Run (step code base) ⟨addr base test.site.place, s⟩ test.steps c)
    (arm : Tracks code base l hs start (n + 1) c es ⟨addr base closing.site.place, u⟩)
    (pointer' : u.x 21 = start + depth (h' + (n + 1 + ifs es : Nat))) (whole' : closing.Whole base)
    (run' : Run (step code base) ⟨addr base closing.site.place, u⟩ closing.steps d)
    (later : Tracks code base l hs start (n + 1 + ifs es) d es' f) :
    Tracks code base l hs start n ⟨addr base test.site.place, s⟩
      (test :: (es ++ closing :: es')) f := by
  refine .cons listed.1 known.1 pointer whole run ?_
  rw [if_pos isTest]
  refine arm.append (.cons listed.2 known.2 pointer' whole' run' ?_)
  rwa [isClosing, if_neg Bool.false_ne_true, Nat.add_zero]

/-- The boundary in front of any of the executed instructions. -/
theorem Tracks.boundary {pre post : List Executed} {e : Executed}
    (h : Tracks code base l hs start n c (pre ++ e :: post) d) :
    ∃ u height, Run (step code base) c (pre.flatMap Executed.steps) ⟨addr base e.site.place, u⟩ ∧
      (e.site.offset, height) ∈ hs ∧ u.x 21 = start + depth (height + (n + ifs pre : Nat)) := by
  induction pre generalizing n c with
  | nil =>
    cases h with
    | cons _ height pointer _ _ _ => exact ⟨_, _, .nil _, height, pointer⟩
  | cons first pre ih =>
    cases h with
    | cons _ _ _ _ run later =>
      obtain ⟨u, height, through, here, pointer⟩ := ih later
      rw [Nat.add_assoc, Nat.add_comm _ (ifs pre), ← ifs_cons] at pointer
      exact ⟨u, height, run.append through, here, pointer⟩

end

theorem moves_test : Moves 0 testBlock :=
  ((moves_tee .w (by decide) (by decide)).append
    (moves_one (i := cmpZero .w 11) (by simp [cmpZero, writes]))).count rfl

/-- The condition is still there behind the test. -/
theorem test_pointer {start : BitVec 64} {h : Int} {n : Nat} {s : State}
    (pointer : s.x 21 = start + depth (h + n)) :
    (execAll testBlock s).x 21 = start + depth (h - 1 + (n + 1 : Nat)) := by
  refine (moves_test s).trans ((BitVec.add_zero _).trans (pointer.trans ?_))
  congr 2
  omega

/-- The instructions of `arm` are among those of `seq`, at the same places and heights. -/
structure Among (frame : Frame) (arm : Seq) (q middle : Nat) (h : Int) (seq : Seq)
    (p offset : Nat) (h' : Int) : Prop where
  sites : ∀ x ∈ sites frame arm middle q, x ∈ sites frame seq offset p
  heights : ∀ x ∈ heights arm middle h, x ∈ heights seq offset h'

section
variable (frame : Frame) (block : BlockType) (thn els rest : Seq) (p offset : Nat) (h : Int)

theorem among_thn : Among frame thn (p + testBlock.length + 1) (offset + 2) (h - 1)
    (.ifThen block thn rest) p offset h :=
  ⟨fun _ hx => List.mem_cons_of_mem _ (List.mem_append_left _ hx),
    fun _ hx => List.mem_cons_of_mem _ (List.mem_append_left _ hx)⟩

theorem among_rest : Among frame rest
    (p + testBlock.length + 1 + size (bodyItems frame 0 thn)) (offset + 2 + thn.bytes.length + 1)
    (h - 1 + BlockType.arity block) (.ifThen block thn rest) p offset h :=
  ⟨fun _ hx => List.mem_cons_of_mem _ (List.mem_append_right _ (List.mem_cons_of_mem _ hx)),
    fun _ hx => List.mem_cons_of_mem _ (List.mem_append_right _ (List.mem_cons_of_mem _ hx))⟩

theorem among_first : Among frame thn (p + testBlock.length + 1) (offset + 2) (h - 1)
    (.ifElse block thn els rest) p offset h :=
  ⟨fun _ hx => List.mem_cons_of_mem _ (List.mem_append_left _ hx),
    fun _ hx => List.mem_cons_of_mem _ (List.mem_append_left _ hx)⟩

theorem among_second : Among frame els
    (p + testBlock.length + 1 + size (bodyItems frame 0 thn) + 1)
    (offset + 2 + thn.bytes.length + 1) (h - 1) (.ifElse block thn els rest) p offset h :=
  ⟨fun _ hx => List.mem_cons_of_mem _ (List.mem_append_right _ (List.mem_cons_of_mem _
      (List.mem_append_left _ hx))),
    fun _ hx => List.mem_cons_of_mem _ (List.mem_append_right _ (List.mem_cons_of_mem _
      (List.mem_append_left _ hx)))⟩

theorem among_both : Among frame rest
    (p + testBlock.length + 1 + size (bodyItems frame 0 thn) + 1 + size (bodyItems frame 0 els))
    (offset + 2 + thn.bytes.length + 1 + els.bytes.length + 1) (h - 1 + BlockType.arity block)
    (.ifElse block thn els rest) p offset h :=
  ⟨fun _ hx => List.mem_cons_of_mem _ (List.mem_append_right _ (List.mem_cons_of_mem _
      (List.mem_append_right _ (List.mem_cons_of_mem _ hx)))),
    fun _ hx => List.mem_cons_of_mem _ (List.mem_append_right _ (List.mem_cons_of_mem _
      (List.mem_append_right _ (List.mem_cons_of_mem _ hx))))⟩

end

/-- From `s` the run goes through the sequence at `p` and tracks its heights, from `h` to `h'`. -/
def Tracked (code : List Word) (base start : BitVec 64) (frame : Frame) (seq : Seq)
    (p offset : Nat) (h h' : Int) (n : Nat) (s : State) : Prop :=
  ∃ es t, Tracks code base (sites frame seq offset p) (heights seq offset h) start n
      ⟨addr base p, s⟩ es ⟨addr base (p + size (bodyItems frame 0 seq)), t⟩ ∧
    t.x 21 = start + depth (h' + (n + ifs es : Nat)) ∧
    outerIfs seq ≤ ifs es ∧ ifs es ≤ allIfs seq

section
variable {code : List Word} {base start : BitVec 64} {frame : Frame} {p offset n : Nat}
  {h h' : Int} {s : State}

theorem tracked_nil (pointer : s.x 21 = start + depth (h + n)) :
    Tracked code base start frame .nil p offset h h n s :=
  ⟨[], s, .nil, pointer, Nat.le_refl 0, Nat.le_refl 0⟩

theorem tracked_op {o : Op} {rest : Seq} {instrs : List Instr} (loaded : Loaded code instrs)
    (pointer : s.x 21 = start + depth (h + n)) (stands : Stands instrs p (opBlock frame o))
    (later : Tracked code base start frame rest (p + (opBlock frame o).length)
      (offset + o.bytes.length) (h + Op.effect o) h' n (execAll (opBlock frame o) s)) :
    Tracked code base start frame (.op o rest) p offset h h' n s := by
  obtain ⟨es, t, tracks, finish, outer, all⟩ := later
  have count : ifs (opOf frame base o offset p s :: es) = ifs es := by simp [opOf, isIf]
  refine ⟨opOf frame base o offset p s :: es, t, ?_, ?_, ?_, ?_⟩
  · rw [bodyItems, size_append, CodeItems.ins, size_map_ins, ← Nat.add_assoc]
    exact .cons (e := opOf frame base o offset p s) List.mem_cons_self List.mem_cons_self pointer
      (opOf_whole frame base o offset p s) (run_uses loaded base stands (uses_opBlock frame o) s)
      (tracks.mono (fun x => List.mem_cons_of_mem _) fun x => List.mem_cons_of_mem _)
  · rw [finish, count]
  · rw [count]
    exact outer
  · rw [count]
    exact all

/-- The test branches over the arm. -/
theorem tracked_skip {block : BlockType} {thn rest : Seq} {t : State}
    (pointer : s.x 21 = start + depth (h + n))
    (run : Run (step code base) ⟨addr base p, s⟩ (branchTrace base p testBlock s)
      ⟨addr base (p + testBlock.length + 1 + size (bodyItems frame 0 thn)), t⟩)
    (later : Tracked code base start frame rest
      (p + testBlock.length + 1 + size (bodyItems frame 0 thn)) (offset + 2 + thn.bytes.length + 1)
      (h - 1 + BlockType.arity block) h' (n + 1) t) :
    Tracked code base start frame (.ifThen block thn rest) p offset h h' n s := by
  obtain ⟨es, u, tracks, finish, outer, all⟩ := later
  have inside := among_rest frame block thn rest p offset h
  have count : ifs (testOf base block offset p s :: es) = ifs es + 1 := by simp [testOf, isIf]
  refine ⟨testOf base block offset p s :: es, u, ?_, ?_, ?_, ?_⟩
  · rw [size_ifThen, show p + (testBlock.length + 1 + size (bodyItems frame 0 thn) +
      size (bodyItems frame 0 rest)) = p + testBlock.length + 1 + size (bodyItems frame 0 thn) +
      size (bodyItems frame 0 rest) by omega]
    exact .cons (e := testOf base block offset p s) List.mem_cons_self List.mem_cons_self pointer
      (testOf_whole base block offset p s) run (tracks.mono inside.sites inside.heights)
  · rw [finish, count, Nat.add_assoc, Nat.add_comm 1]
  · simp only [outerIfs]
    omega
  · simp only [allIfs]
    omega

/-- The run goes through one arm of an `if`, past the instruction that ends it, and on. -/
theorem tracked_arm (closing : Site) (steps : State → List Config) {block : BlockType}
    {seq arm rest : Seq} {q r middle after : Nat} {k h₁ : Int} {t : State}
    (pointer : s.x 21 = start + depth (h + n))
    (isTest : (testOf base block offset p s).site ∈ sites frame seq offset p ∧
      (offset, h) ∈ heights seq offset h)
    (run : Run (step code base) ⟨addr base p, s⟩ (branchTrace base p testBlock s) ⟨addr base q, t⟩)
    (part : Among frame arm q middle k seq p offset h)
    (taken : Tracked code base start frame arm q middle k h₁ (n + 1) t)
    (place : closing.place = q + size (bodyItems frame 0 arm))
    (listed : closing ∈ sites frame seq offset p ∧ (closing.offset, h₁) ∈ heights seq offset h)
    (closes : isIf closing.source = false)
    (whole : ∀ u, Executed.Whole base ⟨closing, steps u⟩)
    (closed : ∀ u, Run (step code base) ⟨addr base closing.place, u⟩ (steps u) ⟨addr base r, u⟩)
    (part' : Among frame rest r after h₁ seq p offset h)
    (later : ∀ (m : Nat) (u : State), u.x 21 = start + depth (h₁ + m) →
      Tracked code base start frame rest r after h₁ h' m u)
    (room : r + size (bodyItems frame 0 rest) = p + size (bodyItems frame 0 seq))
    (outer : outerIfs seq = 1 + outerIfs rest) (all : 1 + allIfs arm + allIfs rest ≤ allIfs seq) :
    Tracked code base start frame seq p offset h h' n s := by
  obtain ⟨es, u, tracks, finish, -, most⟩ := taken
  obtain ⟨es', u', tracks', finish', outer', most'⟩ := later (n + 1 + ifs es) u finish
  have count : ifs (testOf base block offset p s :: (es ++ ⟨closing, steps u⟩ :: es')) =
      ifs es + ifs es' + 1 := by
    have tests : isIf (testOf base block offset p s).site.source = true := rfl
    simp only [ifs_cons, ifs_append, closes, tests, if_true, Bool.false_eq_true, if_false]
    omega
  rw [← place] at tracks
  rw [room] at tracks'
  refine ⟨testOf base block offset p s :: (es ++ ⟨closing, steps u⟩ :: es'), u', ?_, ?_, ?_, ?_⟩
  · exact Tracks.pieces rfl closes ⟨isTest.1, listed.1⟩ ⟨isTest.2, listed.2⟩ pointer
      (testOf_whole base block offset p s) run (tracks.mono part.sites part.heights) finish
      (whole u) (closed u) (tracks'.mono part'.sites part'.heights)
  · rw [finish', count]
    congr 2
    omega
  · omega
  · omega

end

section
variable {code : List Word} {instrs : List Instr} (loaded : Loaded code instrs)
  {base start : BitVec 64} {target : String → Int} {frame : Frame} {c p offset n : Nat}
  {h h' : Int} {s : State}
include loaded

theorem tracked_ifThen {block : BlockType} {thn rest : Seq}
    (pointer : s.x 21 = start + depth (h + n))
    (parts : IfThenAt instrs target frame p c thn rest)
    (arm : ∀ (m : Nat) (u : State), u.x 21 = start + depth (h - 1 + m) → Tracked code base start
      frame thn (p + testBlock.length + 1) (offset + 2) (h - 1) (h - 1 + BlockType.arity block) m u)
    (later : ∀ (m : Nat) (u : State), u.x 21 = start + depth (h - 1 + BlockType.arity block + m) →
      Tracked code base start frame rest (p + testBlock.length + 1 + size (bodyItems frame 0 thn))
        (offset + 2 + thn.bytes.length + 1) (h - 1 + BlockType.arity block) h' m u)
    (none : BlockType.arity block = 0) :
    Tracked code base start frame (.ifThen block thn rest) p offset h h' n s := by
  obtain ⟨disp, branch, goal⟩ := parts.branch
  have decided := test_branch loaded base parts.test branch goal s
  have tested := test_pointer pointer
  by_cases zero : ((execAll testBlock s).x 11).setWidth 32 = 0
  · rw [if_pos zero] at decided
    exact tracked_skip pointer decided (later _ _ (by rw [none, Int.add_zero]; exact tested))
  · rw [if_neg zero] at decided
    exact tracked_arm
      ⟨offset + 2 + thn.bytes.length, .endOp,
        p + testBlock.length + 1 + size (bodyItems frame 0 thn), 0⟩ (fun _ => [])
      pointer ⟨List.mem_cons_self, List.mem_cons_self⟩ decided (among_thn ..) (arm _ _ tested) rfl
      ⟨List.mem_cons_of_mem _ (List.mem_append_right _ List.mem_cons_self),
        List.mem_cons_of_mem _ (List.mem_append_right _ List.mem_cons_self)⟩
      rfl (fun _ => rfl) (fun _ => .nil _) (among_rest ..) later
      (by simp only [size_ifThen]; omega) rfl (Nat.le_refl _)

theorem tracked_ifElse {block : BlockType} {thn els rest : Seq}
    (pointer : s.x 21 = start + depth (h + n))
    (parts : IfElseAt instrs target frame p c thn els rest)
    (first : ∀ (m : Nat) (u : State), u.x 21 = start + depth (h - 1 + m) → Tracked code base start
      frame thn (p + testBlock.length + 1) (offset + 2) (h - 1) (h - 1 + BlockType.arity block) m u)
    (second : ∀ (m : Nat) (u : State), u.x 21 = start + depth (h - 1 + m) → Tracked code base start
      frame els (p + testBlock.length + 1 + size (bodyItems frame 0 thn) + 1)
      (offset + 2 + thn.bytes.length + 1) (h - 1) (h - 1 + BlockType.arity block) m u)
    (later : ∀ (m : Nat) (u : State), u.x 21 = start + depth (h - 1 + BlockType.arity block + m) →
      Tracked code base start frame rest (p + testBlock.length + 1 + size (bodyItems frame 0 thn) +
        1 + size (bodyItems frame 0 els)) (offset + 2 + thn.bytes.length + 1 + els.bytes.length + 1)
        (h - 1 + BlockType.arity block) h' m u) :
    Tracked code base start frame (.ifElse block thn els rest) p offset h h' n s := by
  obtain ⟨disp, branch, goal⟩ := parts.branch
  obtain ⟨disp', skip, goal'⟩ := parts.skip
  have decided := test_branch loaded base parts.test branch goal s
  have tested := test_pointer pointer
  by_cases zero : ((execAll testBlock s).x 11).setWidth 32 = 0
  · rw [if_pos zero] at decided
    exact tracked_arm
      ⟨offset + 2 + thn.bytes.length + 1 + els.bytes.length, .endOp,
        p + testBlock.length + 1 + size (bodyItems frame 0 thn) + 1 + size (bodyItems frame 0 els),
        0⟩ (fun _ => [])
      pointer ⟨List.mem_cons_self, List.mem_cons_self⟩ decided (among_second ..) (second _ _ tested)
      rfl ⟨List.mem_cons_of_mem _ (List.mem_append_right _ (List.mem_cons_of_mem _
          (List.mem_append_right _ List.mem_cons_self))),
        List.mem_cons_of_mem _ (List.mem_append_right _ (List.mem_cons_of_mem _
          (List.mem_append_right _ List.mem_cons_self)))⟩
      rfl (fun _ => rfl) (fun _ => .nil _) (among_both ..) later
      (by simp only [size_ifElse]; omega) rfl
      (by simp only [allIfs]; omega)
  · rw [if_neg zero] at decided
    exact tracked_arm
      ⟨offset + 2 + thn.bytes.length, .elseOp,
        p + testBlock.length + 1 + size (bodyItems frame 0 thn), 1⟩
      (fun u => [⟨addr base (p + testBlock.length + 1 + size (bodyItems frame 0 thn)), u⟩])
      pointer ⟨List.mem_cons_self, List.mem_cons_self⟩ decided (among_first ..) (first _ _ tested)
      rfl ⟨List.mem_cons_of_mem _ (List.mem_append_right _ List.mem_cons_self),
        List.mem_cons_of_mem _ (List.mem_append_right _ List.mem_cons_self)⟩
      rfl (fun _ => rfl) (fun u => .one (step_b loaded base skip goal' u)) (among_both ..) later
      (by simp only [size_ifElse]; omega) rfl (by simp only [allIfs]; omega)

/-- The run through a valid sequence, by its structure: an arm begins one slot too high. -/
theorem seq_tracked (seq : Seq) (none : seq.divisions = 0) (free : ReturnFree seq)
    (uses : seq.UsesBelow frame.length) {vars results ts us : List ValType}
    (typed : Typed vars results seq ts us)
    (linked : Linked link target instrs p (bodyItems frame c seq))
    (labelled : Labelled target p (bodyItems frame c seq))
    (net : h' = h + us.length - ts.length) (pointer : s.x 21 = start + depth (h + n)) :
    Tracked code base start frame seq p offset h h' n s := by
  induction seq generalizing c p offset h h' n s ts us with
  | nil =>
    cases typed
    rw [net, Int.add_sub_cancel]
    exact tracked_nil pointer
  | op o rest ih =>
    obtain ⟨stays, free⟩ := free
    obtain ⟨ts', typed, count⟩ := typed_op stays typed
    rw [bodyItems, linked_append, CodeItems.ins, linked_map_ins, size_map_ins] at linked
    rw [bodyItems, labelled_append, CodeItems.ins, size_map_ins] at labelled
    refine tracked_op loaded pointer linked.1
      (ih none free uses.2 typed linked.2 labelled.2 (by omega) ?_)
    rw [moves_op uses.1 s, pointer, BitVec.add_assoc, ← depth_add]
    congr 2
    omega
  | div width signed rest ih =>
    rw [Seq.divisions] at none
    omega
  | ifThen block thn rest ihThn ihRest =>
    rw [Seq.divisions, Nat.add_eq_zero_iff] at none
    cases typed with
    | ifThen typedThn typedRest =>
    have parts := ifThenAt_of_linked linked labelled
    refine tracked_ifThen loaded pointer parts (fun m u => ?_) (fun m u => ?_) rfl
    · exact ihThn none.1 free.1 uses.1 typedThn parts.inThen parts.thenLabels
        (by simp [BlockType.arity])
    · refine ihRest none.2 free.2 uses.2 typedRest parts.inRest parts.restLabels ?_
      rw [net, List.length_cons, BlockType.arity]
      omega
  | ifElse block thn els rest ihThn ihEls ihRest =>
    rw [Seq.divisions, Nat.add_eq_zero_iff, Nat.add_eq_zero_iff] at none
    cases typed with
    | ifElse typedThn typedEls typedRest =>
    have parts := ifElseAt_of_linked linked labelled
    have arity := types_length block
    refine tracked_ifElse loaded pointer parts (fun m u => ?_) (fun m u => ?_) fun m u => ?_
    · refine ihThn none.1.1 free.1 uses.1 typedThn parts.inThen parts.thenLabels ?_
      simp only [List.length_nil]
      omega
    · refine ihEls none.1.2 free.2.1 uses.2.1 typedEls parts.inElse parts.elseLabels ?_
      simp only [List.length_nil]
      omega
    · refine ihRest none.2 free.2.2 uses.2.2 typedRest parts.inRest parts.restLabels ?_
      rw [net, List.length_cons]
      simp only [List.length_append]
      omega

end

/-! ### The pointer in a call -/

/-- What `x21` holds where the body begins: zero, or the argument that is loaded there. -/
def startPointer (params : List wasm_type) : BitVec 64 :=
  match params[21]? with
  | some v => argValue v
  | none => 0

theorem entered_pointer {params locals : List wasm_type} (small : frameSize params locals ≤ 4080)
    (few : params.length ≤ 32) (ints : ∀ v ∈ params, isFloat v = false) (base : BitVec 64) (n : Nat)
    (s : State) : (entered params locals base n (atEntry params s)).x 21 = startPointer params := by
  obtain ⟨others, -⟩ := entered_eq small base n (atEntry params s)
  obtain ⟨values, roles, -⟩ := atEntry_registers few ints s
  rw [others 21 (by decide) (by decide) (by decide) (by decide), startPointer]
  cases known : params[21]? with
  | some v => exact values 21 v known (by decide)
  | none =>
    rw [roles 21 (Or.inl (List.getElem?_eq_none_iff.mp known))]
    exact (withRoles_x s).2.2.1

/-- The slots left by the executed `if`s and the value `x21` starts with cancel. -/
def Balanced (params : List wasm_type) (es : List Executed) : Prop :=
  startPointer params + depth (ifs es) = 0

theorem pointer_eq_iff (start : BitVec 64) (h k : Int) :
    start + depth (h + k) = depth h ↔ start + depth k = 0 := by
  rw [depth_add, add_left_comm]
  exact add_eq_left

/-- Where no argument is loaded to `x21`, they cancel exactly when no `if` has been executed. -/
theorem balanced_iff {params : List wasm_type} (few : params.length ≤ 21) {es : List Executed}
    (short : ifs es < 2 ^ 60) : Balanced params es ↔ ifs es = 0 := by
  have none : startPointer params = 0 := by
    rw [startPointer, List.getElem?_eq_none few]
  rw [Balanced, none, show (0 : BitVec 64) + depth (ifs es) = depth (ifs es) from
    BitVec.zero_add _]
  constructor
  · intro cancel
    have value := congrArg BitVec.toNat cancel
    rw [depth, BitVec.toNat_ofInt] at value
    change _ = 0 at value
    omega
  · intro zero
    rw [zero]
    rfl

/-- Every run from `s` is a part of one that passes whole instructions of the body, or goes on from
it behind the body. At each boundary of that one, the final `end` included, `x21` counts the
operands WebAssembly has there exactly when the instructions executed so far are balanced. -/
def ExactWhenBalanced (params locals results : List wasm_type) (body : Seq) (code : List Word)
    (base : BitVec 64) (s : State) : Prop :=
  ∃ (entry : List Config) (es : List Executed) (t : State),
    Run (step code base) ⟨base, s⟩ (entry ++ es.flatMap Executed.steps)
        ⟨addr base (functionStart params + bodyEnd params locals body), t⟩ ∧
      StepsIn base (fun k => k < functionStart params + bodyStart params locals) entry ∧
      (∀ e ∈ es, e.site ∈ bodySites params locals body ∧ e.Whole base) ∧
      (∀ trace c, Run (step code base) ⟨base, s⟩ trace c →
        trace <+: entry ++ es.flatMap Executed.steps ∨
          entry ++ es.flatMap Executed.steps <+: trace) ∧
      (∀ pre e post, es = pre ++ e :: post → ∃ u h,
        Run (step code base) ⟨base, s⟩ (entry ++ pre.flatMap Executed.steps)
            ⟨addr base e.site.place, u⟩ ∧
          (e.site.offset, h) ∈ heights body 0 0 ∧ (u.x 21 = depth h ↔ Balanced params pre)) ∧
      (t.x 21 = depth results.length ↔ Balanced params es) ∧
      outerIfs body ≤ ifs es ∧ ifs es ≤ allIfs body

theorem exact_of_emitted {code : List Word} {instrs : List Instr}
    {params locals results : List wasm_type} {body : Seq}
    (emitted : Emitted code instrs params locals results body) (few : params.length ≤ 32)
    (ints : ∀ v ∈ params, isFloat v = false) (none : body.divisions = 0) (free : ReturnFree body)
    (valid : Valid params locals results body) (base : BitVec 64) (s : State) :
    ExactWhenBalanced params locals results body code base s := by
  have placed := (emitted.callable (by omega)).placed
  have layout := layout_of_placed placed
  have loads := run_block placed.loaded base emitted.loads
    (fun i hi => (argumentBlock_plain params i hi).1) s
  rw [addr_zero, Nat.zero_add] at loads
  have through := run_entry placed.loaded base layout emitted.small (atEntry params s)
  have entry := entryTrace_steps params locals base (functionStart params) (atEntry params s)
  have start : bodyStart params locals = 32 + (1 + params.length + locals.length) + 6 := rfl
  have behind : functionStart params = (argumentBlock params).length := rfl
  have pointer := entered_pointer emitted.small few ints base (functionStart params) s
  obtain ⟨es, t, tracks, finish, outer, all⟩ := seq_tracked (h := 0) (n := 0) placed.loaded body
    none free emitted.uses valid layout.linked layout.labelled rfl
    (pointer.trans (BitVec.add_zero _).symm)
  rw [Nat.add_assoc] at tracks
  have run := (loads.append through).append tracks.run
  refine ⟨_, es, t, run, ?_, tracks.whole, fun _ _ h => h.comparable run, ?_, ?_, outer, all⟩
  · exact (stepsIn_block (fun k _ high => by omega) s).append (entry.mono fun k hk => by omega)
  · intro pre e post split
    subst split
    obtain ⟨u, h, reached, known, here⟩ := tracks.boundary
    refine ⟨u, h, (loads.append through).append reached, known, ?_⟩
    rw [here, Nat.zero_add]
    exact pointer_eq_iff _ _ _
  · rw [finish, Nat.zero_add, List.length_nil, List.length_reverse, List.length_map, Nat.cast_zero,
      Int.zero_add, Int.sub_zero]
    exact pointer_eq_iff _ _ _

/-- At the boundaries of a run `x21` is right exactly where the executed instructions are
balanced. -/
theorem pointer_exact_iff {params results : List wasm_type} {groups : List Group} {body : Seq}
    {order : WasmFunction.VisitOrder} {g : WasmFunction}
    (size_byte : BranchFixup.bodySize groups body ≤ 255) (none : body.divisions = 0)
    (free : ReturnFree body) (valid : Valid params (groups.flatMap groupLocals) results body)
    (done : funcSingleProcess (delivered params results groups body) order = .ok g) :
    ∃ code, loadWords (full_instructions g) = .ok code ∧ ∀ base s,
      ExactWhenBalanced params (groups.flatMap groupLocals) results body code base s := by
  obtain ⟨code, instrs, loads, emitted, ints, -⟩ := emitted_of_funcSingleProcess size_byte done
  obtain ⟨f, prepared, -⟩ := HexText.ok_of_bind done
  obtain ⟨-, -, -, -, few⟩ := prepareParams_ok prepared
  exact ⟨code, loads, exact_of_emitted emitted few ints none free valid⟩

/-- `i32.const 1; if nop end`. -/
def testsOne (rest : Seq) : Seq := .op (.i32const 1) (.ifThen .void (.op .nop .nil) rest)

theorem pointer_exact_tested : ∃ g code,
    funcSingleProcess (delivered [] [] [] (testsOne .nil)) BranchFixup.inOrder = .ok g ∧
      loadWords (full_instructions g) = .ok code ∧
      ∀ base s, ExactWhenBalanced [] [] [] (testsOne .nil) code base s := by
  obtain ⟨g, done⟩ := BranchFixup.ok_of_isOk (show (funcSingleProcess
    (delivered [] [] [] (testsOne .nil)) BranchFixup.inOrder).isOk = true by decide +kernel)
  obtain ⟨code, loads, pointers⟩ := pointer_exact_iff (by decide) rfl
    (by simp [ReturnFree]) (.i32const (.ifThen (.nop .nil) .nil)) done
  exact ⟨g, code, done, loads, pointers⟩

/-- `i32.const 5; i32.const 1; if nop end; i32.const 3; i32.add`. -/
def keepsBelow : Seq :=
  .op (.i32const 5) (testsOne (.op (.i32const 3) (.op (.arith .w .add) .nil)))

/-- At the final `end` the pointer does not count the one result: the condition is below it. -/
theorem condition_left_behind : Valid [] [] [.i32 0] keepsBelow ∧
    ∃ g code, funcSingleProcess (delivered [] [.i32 0] [] keepsBelow) BranchFixup.inOrder = .ok g ∧
      loadWords (full_instructions g) = .ok code ∧
      ∀ base s, ∃ trace t, Run (step code base) ⟨base, s⟩ trace
          ⟨addr base (functionStart [] + bodyEnd [] [] keepsBelow), t⟩ ∧ t.x 21 ≠ depth 1 := by
  obtain ⟨g, done⟩ := BranchFixup.ok_of_isOk (show (funcSingleProcess
    (delivered [] [.i32 0] [] keepsBelow) BranchFixup.inOrder).isOk = true by decide +kernel)
  obtain ⟨code, instrs, loads, emitted, -⟩ := emitted_of_funcSingleProcess (by decide) done
  have valid : Valid [] [] [.i32 0] keepsBelow :=
    .i32const (.i32const (.ifThen (.nop .nil) (.i32const (.arith .nil))))
  refine ⟨valid, g, code, done, loads, fun base s => ?_⟩
  obtain ⟨entry, es, t, run, -, -, -, -, ended, outer, all⟩ := exact_of_emitted emitted (by decide)
    (by simp) rfl (by simp [keepsBelow, testsOne, ReturnFree]) valid base s
  refine ⟨_, t, run, fun same => ?_⟩
  have one : outerIfs keepsBelow = 1 ∧ allIfs keepsBelow = 1 := ⟨rfl, rfl⟩
  have balanced := (balanced_iff (by decide) (by omega)).mp (ended.mp same)
  omega

end StackHeight
