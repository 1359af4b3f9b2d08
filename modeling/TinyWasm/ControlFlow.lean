import TinyWasm.EarlyReturn

/-!
# Structured control flow

Which source instructions a body executes, given the words its tests find: an
`if` takes its first arm exactly when the word is not zero. The run of the
compiled function executes the code of these instructions, each as a whole and
in that order, with the words its tests load.
-/

namespace ControlFlow

open HexText Wasm Emit ArmInstruction ByteMemory StepRuns ArmMachine BlockEffects LabelledCode
open LocalDeclarations SourceBody CodeItems StructuredRun CodeLayout BodyFrame
open EntryRun ExitRun FunctionRun FunctionCall CallRun SourceSites EarlyReturn Validation

/-! ### The selected instructions -/

/-- `Selects frame seq offset place ws l`: with the words `ws` found by the tests, in order, the
sequence at `offset` executes the instructions `l`. -/
inductive Selects (frame : Frame) : Seq → Nat → Nat → List (BitVec 32) → List Site → Prop where
  | nil {offset place : Nat} : Selects frame .nil offset place [] []
  | op {o : Op} {rest : Seq} {offset place : Nat} {ws : List (BitVec 32)} {l : List Site}
      (stays : o ≠ .ret)
      (later : Selects frame rest (offset + o.bytes.length) (place + (opBlock frame o).length) ws
        l) :
      Selects frame (.op o rest) offset place ws
        (⟨offset, .op o, place, (opBlock frame o).length⟩ :: l)
  | skip {block : BlockType} {thn rest : Seq} {offset place : Nat} {ws : List (BitVec 32)}
      {l : List Site}
      (later : Selects frame rest (offset + 2 + thn.bytes.length + 1)
        (place + (testBlock.length + 1) + size (bodyItems frame 0 thn)) ws l) :
      Selects frame (.ifThen block thn rest) offset place (0 :: ws)
        (⟨offset, .ifOp block, place, testBlock.length + 1⟩ :: l)
  | enter {block : BlockType} {thn rest : Seq} {offset place : Nat} {w : BitVec 32}
      {ws ws' : List (BitVec 32)} {l l' : List Site} (nonzero : w ≠ 0)
      (arm : Selects frame thn (offset + 2) (place + (testBlock.length + 1)) ws l)
      (later : Selects frame rest (offset + 2 + thn.bytes.length + 1)
        (place + (testBlock.length + 1) + size (bodyItems frame 0 thn)) ws' l') :
      Selects frame (.ifThen block thn rest) offset place (w :: (ws ++ ws'))
        (⟨offset, .ifOp block, place, testBlock.length + 1⟩ :: (l ++
          ⟨offset + 2 + thn.bytes.length, .endOp,
            place + (testBlock.length + 1) + size (bodyItems frame 0 thn), 0⟩ :: l'))
  | first {block : BlockType} {thn els rest : Seq} {offset place : Nat} {w : BitVec 32}
      {ws ws' : List (BitVec 32)} {l l' : List Site} (nonzero : w ≠ 0)
      (arm : Selects frame thn (offset + 2) (place + (testBlock.length + 1)) ws l)
      (later : Selects frame rest
        (offset + 2 + thn.bytes.length + 1 + els.bytes.length + 1)
        (place + (testBlock.length + 1) + size (bodyItems frame 0 thn) + 1 +
          size (bodyItems frame 0 els)) ws' l') :
      Selects frame (.ifElse block thn els rest) offset place (w :: (ws ++ ws'))
        (⟨offset, .ifOp block, place, testBlock.length + 1⟩ :: (l ++
          ⟨offset + 2 + thn.bytes.length, .elseOp,
            place + (testBlock.length + 1) + size (bodyItems frame 0 thn), 1⟩ :: l'))
  | second {block : BlockType} {thn els rest : Seq} {offset place : Nat}
      {ws ws' : List (BitVec 32)} {l l' : List Site}
      (arm : Selects frame els (offset + 2 + thn.bytes.length + 1)
        (place + (testBlock.length + 1) + size (bodyItems frame 0 thn) + 1) ws l)
      (later : Selects frame rest
        (offset + 2 + thn.bytes.length + 1 + els.bytes.length + 1)
        (place + (testBlock.length + 1) + size (bodyItems frame 0 thn) + 1 +
          size (bodyItems frame 0 els)) ws' l') :
      Selects frame (.ifElse block thn els rest) offset place (0 :: (ws ++ ws'))
        (⟨offset, .ifOp block, place, testBlock.length + 1⟩ :: (l ++
          ⟨offset + 2 + thn.bytes.length + 1 + els.bytes.length, .endOp,
            place + (testBlock.length + 1) + size (bodyItems frame 0 thn) + 1 +
              size (bodyItems frame 0 els), 0⟩ :: l'))

/-- The words decide what is selected, and how many of them are used. -/
theorem Selects.unique {frame : Frame} {seq : Seq} {offset place : Nat}
    {ws ws' r r' : List (BitVec 32)} {l l' : List Site}
    (h : Selects frame seq offset place ws l) (h' : Selects frame seq offset place ws' l')
    (same : ws ++ r = ws' ++ r') : ws = ws' ∧ l = l' := by
  induction h generalizing ws' r r' l' with
  | nil =>
    cases h'
    exact ⟨rfl, rfl⟩
  | op _ _ ih =>
    cases h' with
    | op _ later =>
      obtain ⟨rfl, rfl⟩ := ih later same
      exact ⟨rfl, rfl⟩
  | skip _ ih =>
    cases h' with
    | skip later =>
      obtain ⟨rfl, rfl⟩ := ih later (List.cons.inj same).2
      exact ⟨rfl, rfl⟩
    | enter nonzero _ _ => exact absurd (List.cons.inj same).1.symm nonzero
  | enter nonzero _ _ ihArm ihLater =>
    cases h' with
    | skip _ => exact absurd (List.cons.inj same).1 nonzero
    | enter _ arm later =>
      rw [List.cons_append, List.cons_append, List.append_assoc, List.append_assoc] at same
      obtain ⟨rfl, others⟩ := List.cons.inj same
      obtain ⟨rfl, rfl⟩ := ihArm arm others
      obtain ⟨rfl, rfl⟩ := ihLater later (List.append_cancel_left others)
      exact ⟨rfl, rfl⟩
  | first nonzero _ _ ihArm ihLater =>
    cases h' with
    | first _ arm later =>
      rw [List.cons_append, List.cons_append, List.append_assoc, List.append_assoc] at same
      obtain ⟨rfl, others⟩ := List.cons.inj same
      obtain ⟨rfl, rfl⟩ := ihArm arm others
      obtain ⟨rfl, rfl⟩ := ihLater later (List.append_cancel_left others)
      exact ⟨rfl, rfl⟩
    | second _ _ => exact absurd (List.cons.inj same).1 nonzero
  | second _ _ ihArm ihLater =>
    cases h' with
    | first nonzero _ _ => exact absurd (List.cons.inj same).1.symm nonzero
    | second arm later =>
      rw [List.cons_append, List.cons_append, List.append_assoc, List.append_assoc] at same
      have others := (List.cons.inj same).2
      obtain ⟨rfl, rfl⟩ := ihArm arm others
      obtain ⟨rfl, rfl⟩ := ihLater later (List.append_cancel_left others)
      exact ⟨rfl, rfl⟩

/-! ### The arms of an `if` -/

/-- The offsets at which the first arm of an `if` begins, its `else` stands, and its `end`
stands. -/
structure Arms where
  first : Nat
  middle : Nat
  last : Nat

/-- The arms of each `if` that has two. -/
def arms : Seq → (offset : Nat) → List Arms
  | .nil, _ => []
  | .op o rest, offset => arms rest (offset + o.bytes.length)
  | .div _ _ rest, offset => arms rest (offset + 1)
  | .ifThen _ thn rest, offset =>
    arms thn (offset + 2) ++ arms rest (offset + 2 + thn.bytes.length + 1)
  | .ifElse _ thn els rest, offset =>
    let middle := offset + 2 + thn.bytes.length
    let after := middle + 1 + els.bytes.length
    ⟨offset + 2, middle, after⟩ :: (arms thn (offset + 2) ++ (arms els (middle + 1) ++
      arms rest (after + 1)))

/-- Instructions of both arms are listed. -/
def Arms.Both (a : Arms) (l : List Site) : Prop :=
  (∃ site ∈ l, a.first ≤ site.offset ∧ site.offset < a.middle) ∧
    ∃ site ∈ l, a.middle < site.offset ∧ site.offset < a.last

theorem arms_bounds {seq : Seq} {offset : Nat} {a : Arms} (h : a ∈ arms seq offset) :
    offset ≤ a.first ∧ a.first ≤ a.middle ∧ a.middle < a.last ∧
      a.last < offset + seq.bytes.length := by
  induction seq generalizing offset with
  | nil => exact absurd h List.not_mem_nil
  | op o rest ih =>
    have later := ih h
    rw [Seq.bytes, List.length_append]
    omega
  | div width signed rest ih =>
    have later := ih h
    rw [Seq.bytes, List.length_cons]
    omega
  | ifThen block thn rest ihThn ihRest =>
    simp only [Seq.bytes, List.length_cons, List.length_append]
    rcases List.mem_append.mp h with h | h
    · have := ihThn h
      omega
    · have := ihRest h
      omega
  | ifElse block thn els rest ihThn ihEls ihRest =>
    simp only [Seq.bytes, List.length_cons, List.length_append]
    rcases List.mem_cons.mp h with rfl | h
    · simp only
      omega
    rcases List.mem_append.mp h with h | h
    · have := ihThn h
      omega
    rcases List.mem_append.mp h with h | h
    · have := ihEls h
      omega
    · have := ihRest h
      omega

/-- Whether both arms are entered is decided by the instructions between them. -/
theorem Arms.Both.part {a : Arms} {l l' : List Site} (both : a.Both l)
    (part : ∀ site ∈ l, a.first ≤ site.offset → site.offset < a.last → site ∈ l')
    (order : a.first ≤ a.middle ∧ a.middle < a.last) : a.Both l' := by
  obtain ⟨⟨s, hs, low, high⟩, t, ht, low', high'⟩ := both
  constructor
  · exact ⟨s, part s hs low (by omega), low, high⟩
  · exact ⟨t, part t ht (by omega) high', low', high'⟩

theorem Arms.not_both_nil (a : Arms) : ¬ a.Both [] := by
  rintro ⟨⟨s, hs, -⟩, -⟩
  exact absurd hs List.not_mem_nil

/-- Where the instructions of a selection stand: a test, an arm, the end of the arm, and what
follows. -/
theorem mem_pieces {source source' : Source} {l l' : List Site}
    {n p q m r z place place' length length' : Nat}
    (arm : ∀ s ∈ l, p ≤ s.offset ∧ s.offset < q) (later : ∀ s ∈ l', r ≤ s.offset ∧ s.offset < z) :
    ∀ site ∈ ⟨n, source, place, length⟩ :: (l ++ ⟨m, source', place', length'⟩ :: l'),
      site.offset = n ∨ (site ∈ l ∧ p ≤ site.offset ∧ site.offset < q) ∨ site.offset = m ∨
        (site ∈ l' ∧ r ≤ site.offset ∧ site.offset < z) := by
  intro site hs
  rcases List.mem_cons.mp hs with rfl | hs
  · exact Or.inl rfl
  rcases List.mem_append.mp hs with hs | hs
  · exact Or.inr (Or.inl ⟨hs, arm site hs⟩)
  rcases List.mem_cons.mp hs with rfl | hs
  · exact Or.inr (Or.inr (Or.inl rfl))
  · exact Or.inr (Or.inr (Or.inr ⟨hs, later site hs⟩))

/-- The instructions listed are of the sequence, and none of its `if`s has both arms among them. -/
structure OneArmed (seq : Seq) (offset : Nat) (l : List Site) : Prop where
  bounds : ∀ site ∈ l, offset ≤ site.offset ∧ site.offset < offset + seq.bytes.length
  one : ∀ a ∈ arms seq offset, ¬ a.Both l

theorem oneArmed_nil (offset : Nat) : OneArmed .nil offset [] :=
  ⟨fun _ hs => absurd hs List.not_mem_nil, fun _ ha => absurd ha List.not_mem_nil⟩

section
variable {offset place place' length length' : Nat} {l l' : List Site} {source source' : Source}

theorem oneArmed_op {o : Op} {rest : Seq} (later : OneArmed rest (offset + o.bytes.length) l) :
    OneArmed (.op o rest) offset (⟨offset, source, place, length⟩ :: l) := by
  have some := o.bytes_pos
  constructor
  · intro site hs
    rw [Seq.bytes, List.length_append]
    rcases List.mem_cons.mp hs with rfl | hs
    · simp only
      omega
    · have := later.bounds site hs
      omega
  · intro a ha both
    have order := arms_bounds (show a ∈ arms rest (offset + o.bytes.length) from ha)
    refine later.one a ha (both.part (fun site hs low high => ?_) (by omega))
    rcases List.mem_cons.mp hs with rfl | hs
    · simp only at low
      omega
    · exact hs

variable {block : BlockType} {thn els rest : Seq}

theorem oneArmed_skip (later : OneArmed rest (offset + 2 + thn.bytes.length + 1) l) :
    OneArmed (.ifThen block thn rest) offset (⟨offset, source, place, length⟩ :: l) := by
  constructor
  · intro site hs
    simp only [Seq.bytes, List.length_cons, List.length_append]
    rcases List.mem_cons.mp hs with rfl | hs
    · simp only
      omega
    · have := later.bounds site hs
      omega
  · intro a ha both
    rcases List.mem_append.mp ha with ha | ha
    · have order := arms_bounds ha
      refine a.not_both_nil (both.part (fun site hs low high => ?_) (by omega))
      rcases List.mem_cons.mp hs with rfl | hs
      · simp only at low
        omega
      · have := later.bounds site hs
        omega
    · have order := arms_bounds ha
      refine later.one a ha (both.part (fun site hs low high => ?_) (by omega))
      rcases List.mem_cons.mp hs with rfl | hs
      · simp only at low
        omega
      · exact hs

theorem oneArmed_enter (arm : OneArmed thn (offset + 2) l)
    (later : OneArmed rest (offset + 2 + thn.bytes.length + 1) l') :
    OneArmed (.ifThen block thn rest) offset (⟨offset, source, place, length⟩ :: (l ++
      ⟨offset + 2 + thn.bytes.length, source', place', length'⟩ :: l')) := by
  constructor
  · intro site hs
    have := mem_pieces arm.bounds later.bounds site hs
    simp only [Seq.bytes, List.length_cons, List.length_append]
    omega
  · intro a ha both
    rcases List.mem_append.mp ha with ha | ha
    · have order := arms_bounds ha
      refine arm.one a ha (both.part (fun site hs low high => ?_) (by omega))
      rcases mem_pieces arm.bounds later.bounds site hs with h | h | h | h
      any_goals omega
      exact h.1
    · have order := arms_bounds ha
      refine later.one a ha (both.part (fun site hs low high => ?_) (by omega))
      rcases mem_pieces arm.bounds later.bounds site hs with h | h | h | h
      any_goals omega
      exact h.1

theorem oneArmed_first (arm : OneArmed thn (offset + 2) l)
    (later : OneArmed rest (offset + 2 + thn.bytes.length + 1 + els.bytes.length + 1) l') :
    OneArmed (.ifElse block thn els rest) offset (⟨offset, source, place, length⟩ :: (l ++
      ⟨offset + 2 + thn.bytes.length, source', place', length'⟩ :: l')) := by
  constructor
  · intro site hs
    have := mem_pieces arm.bounds later.bounds site hs
    simp only [Seq.bytes, List.length_cons, List.length_append]
    omega
  · intro a ha both
    rcases List.mem_cons.mp ha with rfl | ha
    · -- Nothing of the second arm is listed.
      obtain ⟨-, site, hs, low, high⟩ := both
      have := mem_pieces arm.bounds later.bounds site hs
      simp only at low high
      omega
    rcases List.mem_append.mp ha with ha | ha
    · have order := arms_bounds ha
      refine arm.one a ha (both.part (fun site hs low high => ?_) (by omega))
      rcases mem_pieces arm.bounds later.bounds site hs with h | h | h | h
      any_goals omega
      exact h.1
    rcases List.mem_append.mp ha with ha | ha
    · have order := arms_bounds ha
      refine a.not_both_nil (both.part (fun site hs low high => ?_) (by omega))
      have := mem_pieces arm.bounds later.bounds site hs
      omega
    · have order := arms_bounds ha
      refine later.one a ha (both.part (fun site hs low high => ?_) (by omega))
      rcases mem_pieces arm.bounds later.bounds site hs with h | h | h | h
      any_goals omega
      exact h.1

theorem oneArmed_second (arm : OneArmed els (offset + 2 + thn.bytes.length + 1) l)
    (later : OneArmed rest (offset + 2 + thn.bytes.length + 1 + els.bytes.length + 1) l') :
    OneArmed (.ifElse block thn els rest) offset (⟨offset, source, place, length⟩ :: (l ++
      ⟨offset + 2 + thn.bytes.length + 1 + els.bytes.length, source', place', length'⟩ :: l')) := by
  constructor
  · intro site hs
    have := mem_pieces arm.bounds later.bounds site hs
    simp only [Seq.bytes, List.length_cons, List.length_append]
    omega
  · intro a ha both
    rcases List.mem_cons.mp ha with rfl | ha
    · -- Nothing of the first arm is listed.
      obtain ⟨⟨site, hs, low, high⟩, -⟩ := both
      have := mem_pieces arm.bounds later.bounds site hs
      simp only at low high
      omega
    rcases List.mem_append.mp ha with ha | ha
    · have order := arms_bounds ha
      refine a.not_both_nil (both.part (fun site hs low high => ?_) (by omega))
      have := mem_pieces arm.bounds later.bounds site hs
      omega
    rcases List.mem_append.mp ha with ha | ha
    · have order := arms_bounds ha
      refine arm.one a ha (both.part (fun site hs low high => ?_) (by omega))
      rcases mem_pieces arm.bounds later.bounds site hs with h | h | h | h
      any_goals omega
      exact h.1
    · have order := arms_bounds ha
      refine later.one a ha (both.part (fun site hs low high => ?_) (by omega))
      rcases mem_pieces arm.bounds later.bounds site hs with h | h | h | h
      any_goals omega
      exact h.1

end

theorem Selects.oneArmed {frame : Frame} {seq : Seq} {offset place : Nat} {ws : List (BitVec 32)}
    {l : List Site} (h : Selects frame seq offset place ws l) : OneArmed seq offset l := by
  induction h with
  | nil => exact oneArmed_nil _
  | op _ _ ih => exact oneArmed_op ih
  | skip _ ih => exact oneArmed_skip ih
  | enter _ _ _ ihArm ihLater => exact oneArmed_enter ihArm ihLater
  | first _ _ _ ihArm ihLater => exact oneArmed_first ihArm ihLater
  | second _ _ ihArm ihLater => exact oneArmed_second ihArm ihLater

/-! ### The executed code -/

/-- An instruction with the machine's steps through its code. -/
structure Executed where
  site : Site
  steps : List Config

/-- The steps go through the code of the instruction, from its first word to its last. -/
def Executed.Whole (base : BitVec 64) (e : Executed) : Prop :=
  e.steps.map Config.pc = (List.range' e.site.place e.site.length).map (addr base)

/-- The word in `w11` when an `if` branches. -/
def Executed.word (e : Executed) : Option (BitVec 32) :=
  match e.site.source with
  | .ifOp _ => e.steps.getLast?.map fun c => (c.state.x 11).setWidth 32
  | _ => none

/-- The steps are those of the selected instructions, one after the other. -/
def Realises (frame : Frame) (base : BitVec 64) (seq : Seq) (offset place : Nat)
    (trace : List Config) : Prop :=
  ∃ es : List Executed, trace = es.flatMap Executed.steps ∧ (∀ e ∈ es, e.Whole base) ∧
    Selects frame seq offset place (es.filterMap Executed.word) (es.map Executed.site)

theorem pcs_block (base : BitVec 64) (p : Nat) (block : List Instr) (s : State) :
    (blockTrace base p block s).map Config.pc = (List.range' p block.length).map (addr base) := by
  induction block generalizing p s with
  | nil => rfl
  | cons i block ih =>
    have later := ih (p + 1) (exec i s)
    rw [List.length_cons, List.range'_succ, List.map_cons, ← later]
    rfl

theorem pcs_branch (base : BitVec 64) (p : Nat) (block : List Instr) (s : State) :
    (branchTrace base p block s).map Config.pc =
      (List.range' p (block.length + 1)).map (addr base) := by
  rw [branchTrace, List.map_append, pcs_block, List.range'_concat, List.map_append, Nat.one_mul]
  rfl

theorem trace_once (v : Visit) (t : State) (next : State → Walk) :
    ((Walk.once v t).andThen next).trace = v.trace ++ (next t).trace ∧
      ((Walk.once v t).andThen next).state = (next t).state ∧
      ((Walk.once v t).andThen next).trapped = (next t).trapped := by
  have parts := Walk.trace_andThen (w := Walk.once v t) rfl next
  rwa [show (Walk.once v t).trace = v.trace from List.append_nil _] at parts

/-- An arm of an `if`, the instruction that ends it, and what follows. -/
theorem trace_arm {w : Walk} (through : w.trapped = false) (v : State → Visit)
    (next : State → Walk) :
    ((w.andThen fun u => .once (v u) u).andThen next).trace =
        w.trace ++ ((v w.state).trace ++ (next w.state).trace) ∧
      ((w.andThen fun u => .once (v u) u).andThen next).trapped = (next w.state).trapped := by
  obtain ⟨steps, state, trapped⟩ := Walk.trace_andThen through fun u => .once (v u) u
  obtain ⟨steps', -, trapped'⟩ := Walk.trace_andThen (trapped.trans rfl) next
  rw [steps', trapped', steps, state]
  refine ⟨?_, rfl⟩
  rw [show (Walk.once (v w.state) w.state).trace = (v w.state).trace from List.append_nil _,
    List.append_assoc]
  rfl

/-- An instruction without control flow. -/
def opOf (frame : Frame) (base : BitVec 64) (o : Op) (offset p : Nat) (s : State) : Executed :=
  ⟨⟨offset, .op o, p, (opBlock frame o).length⟩, blockTrace base p (opBlock frame o) s⟩

theorem opOf_whole (frame : Frame) (base : BitVec 64) (o : Op) (offset p : Nat) (s : State) :
    (opOf frame base o offset p s).Whole base := pcs_block base p _ s

/-- The test of an `if`. -/
def testOf (base : BitVec 64) (block : BlockType) (offset p : Nat) (s : State) : Executed :=
  ⟨⟨offset, .ifOp block, p, testBlock.length + 1⟩, branchTrace base p testBlock s⟩

theorem testOf_whole (base : BitVec 64) (block : BlockType) (offset p : Nat) (s : State) :
    (testOf base block offset p s).Whole base := pcs_branch base p testBlock s

theorem word_testOf (base : BitVec 64) (block : BlockType) (offset p : Nat) (s : State)
    (es : List Executed) : (testOf base block offset p s :: es).filterMap Executed.word =
      ((execAll testBlock s).x 11).setWidth 32 :: es.filterMap Executed.word := by
  apply List.filterMap_cons_some
  rw [testOf, Executed.word, branchTrace, List.getLast?_concat]
  rfl

/-- The test, an arm, what ends it, and what follows. -/
theorem whole_pieces {base : BitVec 64} {first closing : Executed} {es es' : List Executed}
    (test : first.Whole base) (arm : ∀ e ∈ es, e.Whole base) (closed : closing.Whole base)
    (later : ∀ e ∈ es', e.Whole base) : ∀ e ∈ first :: (es ++ closing :: es'), e.Whole base := by
  refine List.forall_mem_cons.mpr ⟨test, fun e he => ?_⟩
  rcases List.mem_append.mp he with he | he
  · exact arm e he
  · exact List.forall_mem_cons.mpr ⟨closed, later⟩ e he

section
variable {frame : Frame} {base : BitVec 64} {block : BlockType} {thn els rest : Seq}
  {offset p : Nat} {s : State} {arm later : List Config}

theorem realises_nil : Realises frame base .nil offset p [] :=
  ⟨[], rfl, fun _ h => absurd h List.not_mem_nil, .nil⟩

theorem realises_op {o : Op} (stays : o ≠ .ret)
    (rests : Realises frame base rest (offset + o.bytes.length) (p + (opBlock frame o).length)
      later) :
    Realises frame base (.op o rest) offset p (blockTrace base p (opBlock frame o) s ++ later) := by
  obtain ⟨es, rfl, whole, selects⟩ := rests
  refine ⟨opOf frame base o offset p s :: es, rfl, ?_, .op stays selects⟩
  exact List.forall_mem_cons.mpr ⟨opOf_whole frame base o offset p s, whole⟩

theorem realises_skip (zero : ((execAll testBlock s).x 11).setWidth 32 = 0)
    (rests : Realises frame base rest (offset + 2 + thn.bytes.length + 1)
      (p + (testBlock.length + 1) + size (bodyItems frame 0 thn)) later) :
    Realises frame base (.ifThen block thn rest) offset p
      (branchTrace base p testBlock s ++ later) := by
  obtain ⟨es, rfl, whole, selects⟩ := rests
  refine ⟨testOf base block offset p s :: es, rfl, ?_, ?_⟩
  · exact List.forall_mem_cons.mpr ⟨testOf_whole base block offset p s, whole⟩
  · rw [word_testOf, zero]
    exact .skip selects

/-- The steps of a test, of an arm, of the instruction that ends it, and of what follows. -/
theorem realises_arm (closing : Executed) {seq armSeq : Seq} {middle q after r : Nat}
    (closes : closing.word = none) (closed : closing.Whole base)
    (arms : Realises frame base armSeq middle q arm)
    (rests : Realises frame base rest after r later)
    (selects : ∀ {ws ws' l l'}, Selects frame armSeq middle q ws l →
      Selects frame rest after r ws' l' →
      Selects frame seq offset p (((execAll testBlock s).x 11).setWidth 32 :: (ws ++ ws'))
        ((testOf base block offset p s).site :: (l ++ closing.site :: l'))) :
    Realises frame base seq offset p
      (branchTrace base p testBlock s ++ (arm ++ (closing.steps ++ later))) := by
  obtain ⟨es, rfl, whole, inArm⟩ := arms
  obtain ⟨es', rfl, whole', inRest⟩ := rests
  refine ⟨testOf base block offset p s :: (es ++ closing :: es'), ?_, ?_, ?_⟩
  · rw [List.flatMap_cons, List.flatMap_append, List.flatMap_cons]
    rfl
  · exact whole_pieces (testOf_whole base block offset p s) whole closed whole'
  · rw [word_testOf, List.filterMap_append, List.filterMap_cons_none closes, List.map_cons,
      List.map_append, List.map_cons]
    exact selects inArm inRest

theorem realises_enter (nonzero : ((execAll testBlock s).x 11).setWidth 32 ≠ 0)
    (arms : Realises frame base thn (offset + 2) (p + (testBlock.length + 1)) arm)
    (rests : Realises frame base rest (offset + 2 + thn.bytes.length + 1)
      (p + (testBlock.length + 1) + size (bodyItems frame 0 thn)) later) :
    Realises frame base (.ifThen block thn rest) offset p
      (branchTrace base p testBlock s ++ (arm ++ later)) :=
  realises_arm ⟨⟨offset + 2 + thn.bytes.length, .endOp,
      p + (testBlock.length + 1) + size (bodyItems frame 0 thn), 0⟩, []⟩
    rfl rfl arms rests (.enter nonzero)

theorem realises_first (nonzero : ((execAll testBlock s).x 11).setWidth 32 ≠ 0) (u : State)
    (arms : Realises frame base thn (offset + 2) (p + (testBlock.length + 1)) arm)
    (rests : Realises frame base rest (offset + 2 + thn.bytes.length + 1 + els.bytes.length + 1)
      (p + (testBlock.length + 1) + size (bodyItems frame 0 thn) + 1 + size (bodyItems frame 0 els))
      later) :
    Realises frame base (.ifElse block thn els rest) offset p (branchTrace base p testBlock s ++
      (arm ++
        (⟨addr base (p + (testBlock.length + 1) + size (bodyItems frame 0 thn)), u⟩ :: later))) :=
  realises_arm ⟨⟨offset + 2 + thn.bytes.length, .elseOp,
      p + (testBlock.length + 1) + size (bodyItems frame 0 thn), 1⟩,
      [⟨addr base (p + (testBlock.length + 1) + size (bodyItems frame 0 thn)), u⟩]⟩
    rfl rfl arms rests (.first nonzero)

theorem realises_second (zero : ((execAll testBlock s).x 11).setWidth 32 = 0)
    (arms : Realises frame base els (offset + 2 + thn.bytes.length + 1)
      (p + (testBlock.length + 1) + size (bodyItems frame 0 thn) + 1) arm)
    (rests : Realises frame base rest (offset + 2 + thn.bytes.length + 1 + els.bytes.length + 1)
      (p + (testBlock.length + 1) + size (bodyItems frame 0 thn) + 1 + size (bodyItems frame 0 els))
      later) :
    Realises frame base (.ifElse block thn els rest) offset p
      (branchTrace base p testBlock s ++ (arm ++ later)) :=
  realises_arm ⟨⟨offset + 2 + thn.bytes.length + 1 + els.bytes.length, .endOp,
      p + (testBlock.length + 1) + size (bodyItems frame 0 thn) + 1 + size (bodyItems frame 0 els),
      0⟩, []⟩
    rfl rfl arms rests fun inArm inRest => by
      rw [zero]
      exact .second inArm inRest

end

/-- Without divisions a walk steps through the selected instructions. -/
theorem walk_realises (frame : Frame) (base : BitVec 64) (seq : Seq) (none : seq.divisions = 0)
    (free : ReturnFree seq) (offset : Nat) (height : Int) (p : Nat) (s : State) :
    Realises frame base seq offset p (walk frame base seq offset height p s).trace := by
  induction seq generalizing offset height p s with
  | nil => exact realises_nil
  | op o rest ih =>
    rw [walk, (trace_once _ _ _).1]
    exact realises_op free.1 (ih none free.2 _ _ _ _)
  | div width signed rest ih =>
    rw [Seq.divisions] at none
    omega
  | ifThen block thn rest ihThn ihRest =>
    obtain ⟨noneThn, noneRest⟩ := Nat.add_eq_zero_iff.mp none
    rw [walk, (trace_once _ _ _).1]
    by_cases zero : ((execAll testBlock s).x 11).setWidth 32 = 0
    · rw [if_pos zero]
      exact realises_skip zero (ihRest noneRest free.2 _ _ _ _)
    · rw [if_neg zero, (trace_arm (walk_through frame base noneThn _ _ _ _) _ _).1]
      exact realises_enter zero (ihThn noneThn free.1 _ _ _ _) (ihRest noneRest free.2 _ _ _ _)
  | ifElse block thn els rest ihThn ihEls ihRest =>
    obtain ⟨noneArms, noneRest⟩ := Nat.add_eq_zero_iff.mp none
    obtain ⟨noneThn, noneEls⟩ := Nat.add_eq_zero_iff.mp noneArms
    rw [walk, (trace_once _ _ _).1]
    by_cases zero : ((execAll testBlock s).x 11).setWidth 32 = 0
    · rw [if_pos zero, (trace_arm (walk_through frame base noneEls _ _ _ _) _ _).1]
      exact realises_second zero (ihEls noneEls free.2.1 _ _ _ _) (ihRest noneRest free.2.2 _ _ _ _)
    · rw [if_neg zero, (trace_arm (walk_through frame base noneThn _ _ _ _) _ _).1]
      exact realises_first zero _ (ihThn noneThn free.1 _ _ _ _) (ihRest noneRest free.2.2 _ _ _ _)

/-! ### The whole function -/

/-- What a call executes, up to the `ret`: code in front of the body, the code of the instructions
selected by the words its tests find, and code behind the body. Every run is a part of this one or
goes on from it. -/
def Controlled (params locals results : List wasm_type) (body : Seq) (code : List Word)
    (base : BitVec 64) (s : State) : Prop :=
  ∃ (entry exit : List Config) (es : List Executed) (t : State),
    Run (step code base) ⟨base, s⟩ (entry ++ es.flatMap Executed.steps ++ exit)
        ⟨addr base (returnPlace params locals results body), t⟩ ∧
      StepsIn base (fun k => k < functionStart params + bodyStart params locals) entry ∧
      StepsIn base (fun k => functionStart params + bodyEnd params locals body ≤ k ∧
        k < returnPlace params locals results body) exit ∧
      (∀ e ∈ es, e.Whole base) ∧
      (∀ l, Selects (frameOf params locals) body 0 (functionStart params + bodyStart params locals)
        (es.filterMap Executed.word) l ↔ l = es.map Executed.site) ∧
      (∀ a ∈ arms body 0, ¬ a.Both (es.map Executed.site)) ∧
      ∀ trace c, Run (step code base) ⟨base, s⟩ trace c →
        trace <+: entry ++ es.flatMap Executed.steps ++ exit ∨
          entry ++ es.flatMap Executed.steps ++ exit <+: trace

section
variable {code : List Word} {instrs : List Instr} {params locals results : List wasm_type}
  {body : Seq} (emitted : Emitted code instrs params locals results body)
  (none : body.divisions = 0)
include emitted none

/-- The run of a call whose body goes through, up to the `ret`. -/
theorem run_through (base : BitVec 64) (s : State)
    (through : (callWalk params locals body base s).trapped = false) :
    Run (step code base) ⟨base, s⟩
      (blockTrace base 0 (argumentBlock params) s ++
          entryTrace params locals base (functionStart params) (atEntry params s) ++
          (callWalk params locals body base s).trace ++
        (blockTrace base (functionStart params + bodyEnd params locals body) (returnCode 0)
            (callWalk params locals body base s).state ++
          blockTrace base (functionStart params + finalizeStart params locals body)
            (leaveBlock params locals results)
            (returned (callWalk params locals body base s).state)))
      ⟨addr base (returnPlace params locals results body),
        left params locals results (returned (callWalk params locals body base s).state)⟩ := by
  have placed := (emitted.callable (by omega)).placed
  have loads := run_block placed.loaded base emitted.loads
    (fun i hi => (argumentBlock_plain params i hi).1) s
  rw [addr_zero, Nat.zero_add] at loads
  have run := run_body placed.loaded base (layout_of_placed placed) emitted.small
    (atEntry params s)
  rw [← functionStart, ← callWalk, if_neg (by simp [through])] at run
  rw [List.append_assoc (blockTrace base 0 (argumentBlock params) s)]
  exact (loads.append run).append (run_out emitted base _)

theorem controlled_of_emitted (free : ReturnFree body) (base : BitVec 64) (s : State) :
    Controlled params locals results body code base s := by
  obtain ⟨es, trace, whole, selects⟩ : Realises (frameOf params locals) base body 0
      (functionStart params + bodyStart params locals) (callWalk params locals body base s).trace :=
    walk_realises (frameOf params locals) base body none free 0 0 _ _
  have run := run_through emitted none base s (walk_through _ base none 0 0 _ _)
  rw [trace] at run
  have entry := entryTrace_steps params locals base (functionStart params) (atEntry params s)
  have start : bodyStart params locals = 32 + (1 + params.length + locals.length) + 6 := rfl
  have finish : finalizeStart params locals body = bodyEnd params locals body + 2 := rfl
  have ret : returnPlace params locals results body =
      functionStart params + finalizeStart params locals body +
        (leaveBlock params locals results).length := rfl
  have codeLength : (returnCode 0).length = 2 := rfl
  have behind : functionStart params = (argumentBlock params).length := rfl
  refine ⟨_, _, es, _, run, ?_, ?_, whole, ?_, selects.oneArmed.one, fun _ _ h => h.comparable run⟩
  · exact (stepsIn_block (fun k _ high => by omega) s).append
      (entry.mono fun k hk => by omega)
  · exact (stepsIn_block (fun k low high => by omega) _).append
      (stepsIn_block (fun k low high => by omega) _)
  · intro l
    constructor
    · intro other
      exact (other.unique selects (rfl : es.filterMap Executed.word ++ [] = _)).2
    · rintro rfl
      exact selects

end

/-- The emitted branches realise the structured control flow. -/
theorem control_flow_realised {params results : List wasm_type} {groups : List Group} {body : Seq}
    {order : WasmFunction.VisitOrder} {g : WasmFunction}
    (size_byte : BranchFixup.bodySize groups body ≤ 255) (none : body.divisions = 0)
    (free : ReturnFree body)
    (done : funcSingleProcess (delivered params results groups body) order = .ok g) :
    (∃ pre f, generate (delivered params results groups body pre) = .ok f ∧
        f.fixUpfakeBranch order = .ok g ∧ f.control_flow_stack = []) ∧
      ∃ code, loadWords (full_instructions g) = .ok code ∧
        ∀ base s, Controlled params (groups.flatMap groupLocals) results body code base s := by
  obtain ⟨code, instrs, loads, emitted, -⟩ := emitted_of_funcSingleProcess size_byte done
  refine ⟨?_, code, loads, controlled_of_emitted emitted none free⟩
  obtain ⟨f, prepared, done⟩ := HexText.ok_of_bind done
  obtain ⟨ws, rfl, -⟩ := prepareParams_ok prepared
  obtain ⟨h, -, generated, known, -, fixed, -⟩ := BranchFixup.processCodeVec_ok size_byte
    (show processCodeVec (delivered params results groups body ([] ++ ws.flatMap wordText)) order =
      .ok g from done)
  exact ⟨_, h, generated, fixed order, known.control_flow_stack⟩

/-- `i32.const 1; if i32.const 2; set 0 else nop end`. -/
def branchesOnce : Seq :=
  .op (.i32const 1) (.ifElse .void (.op (.i32const 2) (.op (.localVar .set 0) .nil))
    (.op .nop .nil) .nil)

theorem control_flow_realised_once : ∃ g code,
    funcSingleProcess (delivered [.i32 0] [] [] branchesOnce) BranchFixup.inOrder = .ok g ∧
      loadWords (full_instructions g) = .ok code ∧
      ∀ base s, Controlled [.i32 0] [] [] branchesOnce code base s := by
  obtain ⟨g, done⟩ := BranchFixup.ok_of_isOk (show (funcSingleProcess
    (delivered [.i32 0] [] [] branchesOnce) BranchFixup.inOrder).isOk = true by decide +kernel)
  obtain ⟨-, code, loads, controlled⟩ := control_flow_realised (by decide) rfl
    (by simp [branchesOnce, ReturnFree]) done
  exact ⟨g, code, done, loads, controlled⟩

end ControlFlow
