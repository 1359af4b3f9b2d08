import TinyWasm.OperandSupply
import TinyWasm.SourceSites

/-!
# The instructions a run executes

Which source instructions a body executes from a state on, one after the other,
and how many entries each takes from the operand stack and leaves there. Every
instruction finds its operands exactly when the counts along this path allow it.
Those of valid code do, up to the first `return` on the path.
-/

namespace ExecutedPath

open ArmInstruction ArmMachine BlockEffects SourceBody Emit CodeItems StructuredRun BodyFrame
open StackAccesses OperandSupply SourceSites Validation

/-! ### Counting entries -/

/-- The entries an instruction takes from the operand stack, or looks at. -/
def takes : Source → Nat
  | .op o => Op.takes o
  | .div _ _ => 2
  | .ifOp _ => 1
  | .elseOp | .endOp => 0

/-- What it adds to their number. The test of an `if` leaves the word it looks at. -/
def effect : Source → Int
  | .op o => Op.effect o
  | .div _ _ => -1
  | .ifOp _ | .elseOp | .endOp => 0

def grown (l : List Source) : Int := (l.map effect).sum

/-- From `h` entries on, every instruction finds as many as it takes. -/
def Finds : Int → List Source → Prop
  | _, [] => True
  | h, i :: l => (takes i : Int) ≤ h ∧ Finds (h + effect i) l

/-- Every instruction up to the first `return` finds as many entries as it takes. -/
def FindsFirst : Int → List Source → Prop
  | _, [] => True
  | h, i :: l => i ≠ .op .ret → (takes i : Int) ≤ h ∧ FindsFirst (h + effect i) l

@[simp] theorem grown_nil : grown [] = 0 := rfl

@[simp] theorem grown_cons (i : Source) (l : List Source) :
    grown (i :: l) = effect i + grown l := rfl

theorem grown_append (l m : List Source) : grown (l ++ m) = grown l + grown m := by
  rw [grown, List.map_append, List.sum_append]
  rfl

theorem effect_bounds (i : Source) :
    -(takes i : Int) ≤ effect i ∧ -1 ≤ effect i ∧ effect i ≤ 1 := by
  cases i with
  | op o => cases o with
    | localVar opType index => cases opType <;> simp [takes, effect, Op.takes, Op.effect]
    | nop | ret | i32const | i64const | compare | arith =>
      simp [takes, effect, Op.takes, Op.effect]
  | div | ifOp | elseOp | endOp => simp [takes, effect]

theorem grown_bounds (l : List Source) : -(l.length : Int) ≤ grown l ∧ grown l ≤ l.length := by
  induction l with
  | nil => simp
  | cons i l ih =>
    have here := effect_bounds i
    rw [grown_cons, List.length_cons]
    omega

theorem finds_append {h : Int} {l m : List Source} :
    Finds h (l ++ m) ↔ Finds h l ∧ Finds (h + grown l) m := by
  induction l generalizing h with
  | nil => simp [Finds]
  | cons i l ih => rw [List.cons_append, Finds, ih, Finds, grown_cons, and_assoc, Int.add_assoc]

theorem findsFirst_append {h : Int} {l m : List Source} : FindsFirst h (l ++ m) ↔
    FindsFirst h l ∧ (.op .ret ∉ l → FindsFirst (h + grown l) m) := by
  induction l generalizing h with
  | nil => simp [FindsFirst]
  | cons i l ih =>
    rw [List.cons_append, FindsFirst, ih, FindsFirst, grown_cons, Int.add_assoc]
    by_cases isRet : i = .op .ret
    · simp [isRet]
    · simp [isRet, Ne.symm isRet, and_assoc]

/-- All instructions find their entries when those up to the first `return` do and those behind
every `return` do. -/
theorem finds_iff {h : Int} (low : 0 ≤ h) {l : List Source} : Finds h l ↔ FindsFirst h l ∧
    ∀ front behind, l = front ++ .op .ret :: behind → Finds (h + grown front) behind := by
  constructor
  · intro finds
    refine ⟨?_, ?_⟩
    · induction l generalizing h with
      | nil => trivial
      | cons i l ih =>
        have here := effect_bounds i
        exact fun _ => ⟨finds.1, ih (by have := finds.1; omega) finds.2⟩
    · rintro front behind rfl
      have later := (finds_append.mp finds).2.2
      rwa [show effect (.op .ret) = 0 from rfl, Int.add_zero] at later
  · rintro ⟨first, later⟩
    induction l generalizing h with
    | nil => trivial
    | cons i l ih =>
      by_cases isRet : i = .op .ret
      · subst isRet
        have behind := later [] l rfl
        exact ⟨low, behind⟩
      · obtain ⟨here, first⟩ := first isRet
        have bounds := effect_bounds i
        refine ⟨here, ih (by omega) first fun front behind split => ?_⟩
        have := later (i :: front) behind (by rw [split, List.cons_append])
        rwa [grown_cons, ← Int.add_assoc] at this

/-! ### The path -/

/-- The source instructions executed, and how the execution ends. -/
structure Path where
  sources : List Source
  trapped : Bool
  state : State

/-- One path after the other, unless the first traps. -/
def Path.andThen (p : Path) (next : State → Path) : Path :=
  if p.trapped then p
  else { next p.state with sources := p.sources ++ (next p.state).sources }

theorem Path.andThen_trapped {p : Path} (h : p.trapped = true) (next : State → Path) :
    p.andThen next = p := if_pos h

theorem Path.andThen_through {p : Path} (h : p.trapped = false) (next : State → Path) :
    p.andThen next = ⟨p.sources ++ (next p.state).sources, (next p.state).trapped,
      (next p.state).state⟩ := if_neg (by simp [h])

/-- The instructions the sequence executes from `s` on: an `if` goes by the word its test loads, and
a division that traps is the last. -/
def executed (frame : Frame) : Seq → State → Path
  | .nil, s => ⟨[], false, s⟩
  | .op o rest, s =>
    Path.andThen ⟨[.op o], false, execAll (opBlock frame o) s⟩ (executed frame rest)
  | .div width signed rest, s =>
    Path.andThen ⟨[.div width signed], (divided width signed s).trapped,
      (divided width signed s).state⟩ (executed frame rest)
  | .ifThen block thn rest, s =>
    Path.andThen ⟨[.ifOp block], false, execAll testBlock s⟩ fun t =>
      (if (t.x 11).setWidth 32 = 0 then ⟨[], false, t⟩ else executed frame thn t).andThen
        (executed frame rest)
  | .ifElse block thn els rest, s =>
    Path.andThen ⟨[.ifOp block], false, execAll testBlock s⟩ fun t =>
      (if (t.x 11).setWidth 32 = 0 then executed frame els t else executed frame thn t).andThen
        (executed frame rest)

theorem Path.andThen_length (p : Path) (next : State → Path) :
    (p.andThen next).sources.length ≤ p.sources.length + (next p.state).sources.length := by
  cases trapped : p.trapped with
  | true =>
    rw [p.andThen_trapped trapped]
    omega
  | false => rw [p.andThen_through trapped, List.length_append]

theorem executed_length (frame : Frame) (seq : Seq) (s : State) :
    (executed frame seq s).sources.length ≤ seq.bytes.length := by
  induction seq generalizing s with
  | nil => exact Nat.le_refl 0
  | op o rest ih =>
    have some := o.bytes_pos
    refine (Path.andThen_length _ _).trans ?_
    rw [Seq.bytes, List.length_append, List.length_singleton]
    exact Nat.add_le_add some (ih _)
  | div width signed rest ih =>
    refine (Path.andThen_length _ _).trans ?_
    have := ih (divided width signed s).state
    simp only [Seq.bytes, List.length_cons, List.length_nil]
    omega
  | ifThen block thn rest ihThn ihRest =>
    refine (Path.andThen_length _ _).trans ?_
    refine (Nat.add_le_add_left (Path.andThen_length _ _) _).trans ?_
    simp only [Seq.bytes, List.length_cons, List.length_append, List.length_nil]
    split_ifs
    · have := ihRest (execAll testBlock s)
      simp only [List.length_nil]
      omega
    · have := ihThn (execAll testBlock s)
      have := ihRest (executed frame thn (execAll testBlock s)).state
      omega
  | ifElse block thn els rest ihThn ihEls ihRest =>
    refine (Path.andThen_length _ _).trans ?_
    refine (Nat.add_le_add_left (Path.andThen_length _ _) _).trans ?_
    simp only [Seq.bytes, List.length_cons, List.length_append, List.length_nil]
    split_ifs
    · have := ihEls (execAll testBlock s)
      have := ihRest (executed frame els (execAll testBlock s)).state
      omega
    · have := ihThn (execAll testBlock s)
      have := ihRest (executed frame thn (execAll testBlock s)).state
      omega

/-- A path that goes through leaves the pointer where the counts put it. -/
def Path.Counts (h : Int) (p : Path) : Prop :=
  p.trapped = false → p.state.x 21 = depth (h + grown p.sources)

theorem Path.Counts.andThen {h : Int} {p : Path} {next : State → Path} (first : p.Counts h)
    (second : p.state.x 21 = depth (h + grown p.sources) →
      (next p.state).Counts (h + grown p.sources)) : (p.andThen next).Counts h := by
  cases trapped : p.trapped with
  | true => rwa [p.andThen_trapped trapped]
  | false =>
    rw [p.andThen_through trapped, Path.Counts, grown_append, ← Int.add_assoc]
    exact second (first trapped)

theorem test_counts (block : BlockType) {s : State} {h : Int} (pointer : s.x 21 = depth h) :
    Path.Counts h ⟨[.ifOp block], false, execAll testBlock s⟩ := by
  intro _
  rw [testBlock_pointer pointer, grown_cons, grown_nil]
  simp [effect]

theorem op_counts {frame : Frame} {o : Op} (uses : o.UsesBelow frame.length) {s : State} {h : Int}
    (pointer : s.x 21 = depth h) : Path.Counts h ⟨[.op o], false, execAll (opBlock frame o) s⟩ := by
  intro _
  rw [moves_op uses s, pointer, ← depth_add, grown_cons, grown_nil, Int.add_zero]
  rfl

theorem div_counts (width : Width) (signed : Bool) {s : State} {h : Int}
    (pointer : s.x 21 = depth h) : Path.Counts h ⟨[.div width signed],
      (divided width signed s).trapped, (divided width signed s).state⟩ :=
  fun through => divided_pointer pointer through

theorem executed_counts {frame : Frame} {seq : Seq} (uses : seq.UsesBelow frame.length)
    {s : State} {h : Int} (pointer : s.x 21 = depth h) : (executed frame seq s).Counts h := by
  induction seq generalizing s h with
  | nil => exact fun _ => by simpa [executed] using pointer
  | op o rest ih =>
    exact (op_counts uses.1 pointer).andThen (ih uses.2)
  | div width signed rest ih =>
    exact (div_counts width signed pointer).andThen (ih uses)
  | ifThen block thn rest ihThn ihRest =>
    refine (test_counts block pointer).andThen fun pointer => ?_
    refine Path.Counts.andThen ?_ (ihRest uses.2)
    split_ifs
    · exact fun _ => by simpa using pointer
    · exact ihThn uses.1 pointer
  | ifElse block thn els rest ihThn ihEls ihRest =>
    refine (test_counts block pointer).andThen fun pointer => ?_
    refine Path.Counts.andThen ?_ (ihRest uses.2.2)
    split_ifs
    · exact ihEls uses.2.1 pointer
    · exact ihThn uses.1 pointer

/-! ### Operands along the path -/

/-- Every instruction of the path finds its entries, and if it goes through its last state satisfies
`post`. -/
def Path.Feeds (h : Int) (post : State → Prop) (p : Path) : Prop :=
  Finds h p.sources ∧ (p.trapped = false → post p.state)

theorem Path.feeds_andThen {h : Int} {post : State → Prop} {p : Path} {next : State → Path} :
    (p.andThen next).Feeds h post ↔
      p.Feeds h fun u => (next u).Feeds (h + grown p.sources) post := by
  cases trapped : p.trapped with
  | true => simp [p.andThen_trapped trapped, Path.Feeds, trapped]
  | false => simp [p.andThen_through trapped, Path.Feeds, trapped, finds_append, and_assoc]

/-- What is asked behind a path may be read at the counts it leaves. -/
theorem Path.Counts.feeds {h : Int} {p : Path} (counts : p.Counts h) (supply : State → Prop)
    {post : State → Prop} {next : State → Path}
    (later : p.state.x 21 = depth (h + grown p.sources) →
      (supply p.state ↔ (next p.state).Feeds (h + grown p.sources) post)) :
    p.Feeds h supply ↔ (p.andThen next).Feeds h post := by
  rw [Path.feeds_andThen]
  exact and_congr_right fun _ => imp_congr_right fun through => later (counts through)

/-- The path of one instruction, and that of none. -/
theorem feeds_one {i : Source} {trapped : Bool} {s t : State} {h : Int} {post : State → Prop}
    (pointer : s.x 21 = depth h) (low : -2 ^ 59 < h) (high : h < 2 ^ 59) :
    (⟨[i], trapped, t⟩ : Path).Feeds h post ↔ Enough (takes i) s ∧ (trapped = false → post t) := by
  simp [Path.Feeds, Finds, enough_iff pointer low high]

theorem feeds_step {i : Source} {s t : State} {h : Int} {post : State → Prop}
    (pointer : s.x 21 = depth h) (low : -2 ^ 59 < h) (high : h < 2 ^ 59) :
    (⟨[i], false, t⟩ : Path).Feeds h post ↔ Enough (takes i) s ∧ post t := by
  simp [feeds_one pointer low high]

theorem feeds_empty {t : State} {h : Int} {post : State → Prop} :
    (⟨[], false, t⟩ : Path).Feeds h post ↔ post t := by
  simp [Path.Feeds, Finds]

/-- The path of an arm changes the number of entries by at most its bytes. -/
theorem executed_grown (frame : Frame) (seq : Seq) (s : State) :
    -(seq.bytes.length : Int) ≤ grown (executed frame seq s).sources ∧
      grown (executed frame seq s).sources ≤ seq.bytes.length := by
  have bounds := grown_bounds (executed frame seq s).sources
  have short := executed_length frame seq s
  omega

/-- What the recursion of `Supplied` asks is what the counts along the path allow. -/
theorem supplied_iff {frame : Frame} {seq : Seq} (uses : seq.UsesBelow frame.length) {s : State}
    {h : Int} (pointer : s.x 21 = depth h) (low : -2 ^ 59 + seq.bytes.length < h)
    (high : h + seq.bytes.length < 2 ^ 59) {post : State → Prop} :
    Supplied frame seq s post ↔ (executed frame seq s).Feeds h post := by
  induction seq generalizing s h post with
  | nil => exact feeds_empty.symm
  | op o rest ih =>
    have some := o.bytes_pos
    have len : (Seq.op o rest).bytes.length = o.bytes.length + rest.bytes.length :=
      List.length_append
    have moved := grown_bounds [.op o]
    rw [List.length_singleton] at moved
    rw [len] at low high
    refine Iff.trans ?_
      ((op_counts uses.1 pointer).feeds (Supplied frame rest · post) fun pointer =>
      ih uses.2 pointer (by simp only; omega) (by simp only; omega))
    rw [Supplied, feeds_step pointer (by omega) (by omega)]
    rfl
  | div width signed rest ih =>
    have len : (Seq.div width signed rest).bytes.length = rest.bytes.length + 1 := rfl
    have moved := grown_bounds [.div width signed]
    rw [List.length_singleton] at moved
    rw [len] at low high
    refine Iff.trans ?_ ((div_counts width signed pointer).feeds (Supplied frame rest · post)
      fun pointer => ih uses pointer (by simp only; omega) (by simp only; omega))
    rw [Supplied, feeds_one pointer (by omega) (by omega)]
    rfl
  | ifThen block thn rest ihThn ihRest =>
    have len : (Seq.ifThen block thn rest).bytes.length =
        thn.bytes.length + rest.bytes.length + 3 := by
      simp [Seq.bytes]
      omega
    have moved := executed_grown frame thn (execAll testBlock s)
    rw [len] at low high
    refine Iff.trans ?_ ((test_counts block pointer).feeds (fun t =>
      if (t.x 11).setWidth 32 = 0 then Supplied frame rest t post
      else Supplied frame thn t fun u => Supplied frame rest u post) fun pointer => ?_)
    · rw [Supplied, feeds_step pointer (by omega) (by omega)]
      rfl
    simp only [grown_cons, grown_nil, effect, Int.add_zero] at pointer ⊢
    split_ifs
    · rw [Path.feeds_andThen, feeds_empty]
      simp only [grown_nil, Int.add_zero]
      exact ihRest uses.2 pointer (by omega) (by omega)
    · exact (ihThn uses.1 pointer (by omega) (by omega)).trans
        ((executed_counts uses.1 pointer).feeds (Supplied frame rest · post) fun pointer =>
          ihRest uses.2 pointer (by omega) (by omega))
  | ifElse block thn els rest ihThn ihEls ihRest =>
    have len : (Seq.ifElse block thn els rest).bytes.length =
        thn.bytes.length + els.bytes.length + rest.bytes.length + 4 := by
      simp [Seq.bytes]
      omega
    have movedThn := executed_grown frame thn (execAll testBlock s)
    have movedEls := executed_grown frame els (execAll testBlock s)
    rw [len] at low high
    refine Iff.trans ?_ ((test_counts block pointer).feeds (fun t =>
      if (t.x 11).setWidth 32 = 0 then Supplied frame els t fun u => Supplied frame rest u post
      else Supplied frame thn t fun u => Supplied frame rest u post) fun pointer => ?_)
    · rw [Supplied, feeds_step pointer (by omega) (by omega)]
      rfl
    simp only [grown_cons, grown_nil, effect, Int.add_zero] at pointer ⊢
    split_ifs
    · exact (ihEls uses.2.1 pointer (by omega) (by omega)).trans
        ((executed_counts uses.2.1 pointer).feeds (Supplied frame rest · post) fun pointer =>
          ihRest uses.2.2 pointer (by omega) (by omega))
    · exact (ihThn uses.1 pointer (by omega) (by omega)).trans
        ((executed_counts uses.1 pointer).feeds (Supplied frame rest · post) fun pointer =>
          ihRest uses.2.2 pointer (by omega) (by omega))

/-! ### Valid code -/

/-- From `h` entries on the path finds its entries up to its first `return`; without one it leaves
at least `k`, if it goes through. -/
structure Path.Fits (h k : Int) (p : Path) : Prop where
  first : FindsFirst h p.sources
  leaves : .op .ret ∉ p.sources → p.trapped = false → k ≤ h + grown p.sources

theorem Path.Fits.andThen {h k m : Int} {p : Path} {next : State → Path} (here : p.Fits h k)
    (later : ∀ h', k ≤ h' → (next p.state).Fits h' m) : (p.andThen next).Fits h m := by
  cases trapped : p.trapped with
  | true =>
    rw [p.andThen_trapped trapped]
    exact ⟨here.first, fun _ through => by rw [trapped] at through; cases through⟩
  | false =>
    rw [p.andThen_through trapped]
    refine ⟨findsFirst_append.mpr ⟨here.first, fun free => ?_⟩, fun free through => ?_⟩
    · exact (later _ (here.leaves free trapped)).first
    · rw [List.mem_append, not_or] at free
      rw [grown_append, ← Int.add_assoc]
      exact (later _ (here.leaves free.1 trapped)).leaves free.2 through

theorem fits_empty {h k : Int} (enough : k ≤ h) (s : State) : Path.Fits h k ⟨[], false, s⟩ :=
  ⟨trivial, fun _ _ => by simpa using enough⟩

theorem fits_one {i : Source} {h k : Int} (enough : (takes i : Int) ≤ h) (left : k ≤ h + effect i)
    (trapped : Bool) (s : State) : Path.Fits h k ⟨[i], trapped, s⟩ :=
  ⟨fun _ => ⟨enough, trivial⟩, fun _ _ => by simpa using left⟩

/-- The path of a valid sequence: by induction on its typing, the stack has at least the entries
WebAssembly gives it, above `b` others. -/
theorem typed_fits {vars results ts us : List ValType} {seq : Seq}
    (typed : Typed vars results seq ts us) (frame : Frame) {h : Int} {b : Nat}
    (enough : ((b + ts.length : Nat) : Int) ≤ h) (s : State) :
    (executed frame seq s).Fits h (b + us.length : Nat) := by
  induction typed generalizing h b s with
  | nil => exact fits_empty enough s
  | ret =>
    refine ⟨fun other => absurd rfl other, fun free => ?_⟩
    rw [executed, Path.andThen_through rfl] at free
    exact absurd List.mem_cons_self free
  | nop _ ih | i32const _ ih | i64const _ ih | compare _ ih | arith _ ih | div _ ih =>
    refine (fits_one ?_ ?_ _ _).andThen fun h' more => ih more _
    all_goals
      simp only [List.length_cons, takes, effect, Op.takes, Op.effect] at enough ⊢
      omega
  | get _ _ ih | set _ _ ih | tee _ _ ih =>
    refine (fits_one ?_ ?_ _ _).andThen fun h' more => ih more _
    all_goals
      simp only [List.length_cons, takes, effect, Op.takes, Op.effect] at enough ⊢
      omega
  | @ifThen thn rest ts us _ _ ihThn ihRest =>
    rw [List.length_cons] at enough
    refine (fits_one (k := (b + ts.length : Nat)) ?_ ?_ _ _).andThen fun h' more =>
      Path.Fits.andThen (k := (b + ts.length : Nat)) ?_ fun h'' more => ihRest more _
    · simp only [takes]
      omega
    · simp only [effect]
      omega
    split_ifs
    · exact fits_empty more _
    · have arm := ihThn (b := b + ts.length) (h := h') (by simpa using more) (execAll testBlock s)
      simpa using arm
  | @ifElse block thn els rest ts us _ _ _ ihThn ihEls ihRest =>
    rw [List.length_cons] at enough
    have join : ((b + (BlockType.types block ++ ts).length : Nat) : Int) =
        (b + ts.length + (BlockType.types block).length : Nat) := by
      rw [List.length_append]
      omega
    refine (fits_one (k := (b + ts.length : Nat)) ?_ ?_ _ _).andThen fun h' more =>
      Path.Fits.andThen (k := (b + ts.length + (BlockType.types block).length : Nat)) ?_
        fun h'' more => ihRest (by rwa [join]) _
    · simp only [takes]
      omega
    · simp only [effect]
      omega
    split_ifs
    · exact ihEls (by simpa using more) _
    · exact ihThn (by simpa using more) _

theorem Path.notMem_andThen {i : Source} {p : Path} {next : State → Path} (first : i ∉ p.sources)
    (later : i ∉ (next p.state).sources) : i ∉ (p.andThen next).sources := by
  cases trapped : p.trapped with
  | true => rwa [p.andThen_trapped trapped]
  | false =>
    rw [p.andThen_through trapped, List.mem_append, not_or]
    exact ⟨first, later⟩

theorem executed_returnFree {frame : Frame} {seq : Seq} (free : ReturnFree seq) (s : State) :
    .op .ret ∉ (executed frame seq s).sources := by
  induction seq generalizing s with
  | nil => exact List.not_mem_nil
  | op o rest ih =>
    exact Path.notMem_andThen (by simpa using Ne.symm free.1) (ih free.2 _)
  | div width signed rest ih => exact Path.notMem_andThen (by simp) (ih free _)
  | ifThen block thn rest ihThn ihRest =>
    refine Path.notMem_andThen (by simp) (Path.notMem_andThen ?_ (ihRest free.2 _))
    split_ifs
    · exact List.not_mem_nil
    · exact ihThn free.1 _
  | ifElse block thn els rest ihThn ihEls ihRest =>
    refine Path.notMem_andThen (by simp) (Path.notMem_andThen ?_ (ihRest free.2.2 _))
    split_ifs
    · exact ihEls free.2.1 _
    · exact ihThn free.1 _

/-- Behind every `return` on the path there are as many entries as the instructions take, and `n` at
the end if it goes through. -/
def FedBehindReturns (n : Nat) (p : Path) : Prop :=
  ∀ front behind, p.sources = front ++ .op .ret :: behind →
    Finds (grown front) behind ∧ (p.trapped = false → (n : Int) ≤ grown p.sources)

theorem fed_of_free {n : Nat} {p : Path} (free : .op .ret ∉ p.sources) : FedBehindReturns n p := by
  intro front behind split
  rw [split] at free
  exact absurd (List.mem_append_right _ List.mem_cons_self) free

/-- A valid body finds its operands and leaves its results exactly when it does so behind the
returns it executes. -/
theorem supplied_of_typed_iff {vars results us : List ValType} {seq : Seq}
    (typed : Typed vars results seq [] us) {frame : Frame} (uses : seq.UsesBelow frame.length)
    (short : seq.bytes.length ≤ 2 ^ 58) {s : State} (empty : s.x 21 = depth 0) :
    Supplied frame seq s (Enough us.length) ↔
      FedBehindReturns us.length (executed frame seq s) := by
  have fits := typed_fits typed frame (h := 0) (b := 0) (by simp) s
  have counts := executed_counts uses empty
  have bounds := executed_grown frame seq s
  have left : (executed frame seq s).trapped = false →
      (Enough us.length (executed frame seq s).state ↔
        (us.length : Int) ≤ grown (executed frame seq s).sources) := by
    intro through
    rw [enough_iff (counts through) (by omega) (by omega), Int.zero_add]
  rw [supplied_iff uses empty (by omega) (by omega), Path.Feeds, finds_iff (le_refl 0),
    FedBehindReturns]
  simp only [Int.zero_add]
  constructor
  · rintro ⟨⟨-, behind⟩, enough⟩ front rest split
    exact ⟨behind front rest split, fun through => (left through).mp (enough through)⟩
  · intro fed
    refine ⟨⟨fits.first, fun front rest split => (fed front rest split).1⟩, fun through => ?_⟩
    rw [left through]
    by_cases free : .op .ret ∈ (executed frame seq s).sources
    · obtain ⟨front, rest, split⟩ := List.append_of_mem free
      exact (fed front rest split).2 through
    · simpa using fits.leaves free through

end ExecutedPath
