import TinyWasm.CallRun
import TinyWasm.BodySimulation
import TinyWasm.SourceSites
import TinyWasm.Validation

/-!
# Returns in the body

A `return` is compiled to nothing, so the machine goes on with the code behind
it. That does no harm where there is none: in front of the epilogue, which
delivers the value on top of the operand stack.
-/

namespace EarlyReturn

open HexText Wasm Emit ArmInstruction ByteMemory StepRuns ArmMachine BlockEffects LabelledCode
open LocalDeclarations SourceBody CodeItems StructuredRun CodeLayout BodyFrame OperandStack
open EncoderCorrectness EntryRun ExitRun FunctionRun FunctionCall CallRun SourceSites Validation
open BodySimulation

/-! ### The epilogue delivers the top of the stack -/

theorem returned_operand {t : State} (apart : Apart (t.x 19) 8 (entryAddr t 0) 8) (width : Width) :
    operand (returned t) width 0 = operand t width 0 := by
  obtain ⟨others, -, mem⟩ := returned_eq t
  have place : entryAddr (returned t) 0 = entryAddr t 0 := by
    rw [entryAddr, entryAddr, top, top, others 20 (by decide), others 21 (by decide)]
  have small := bytes_small width
  have within := within_of_offset (a := entryAddr t 0) (d := 0) (n := 8) (k := width.bytes)
    (by omega) (by decide)
  rw [show entryAddr t 0 + BitVec.ofNat 64 0 = entryAddr t 0 from BitVec.add_zero _] at within
  rw [operand, operand, place, mem]
  exact read_write_apart (by omega) (apart.symm.mono within (within_refl _ _))

/-- The first result is popped to `x0`, and no further one is. -/
theorem left_result {params locals rest : List wasm_type} {v : wasm_type}
    (small : frameSize params locals ≤ 4080) (few : rest.length < 32) (u : State) :
    (left params locals (v :: rest) u).x 0 =
      (operand u (widthOf (varRegType v)) 0).setWidth 64 := by
  rw [(left_eq small _ u).1, resultsBlock, execAll_append]
  have later : (0 : Reg) ∉ 21 :: resultRegs 1 rest := by
    intro inside
    rcases List.mem_cons.mp inside with same | popped
    · exact absurd same (by decide)
    · obtain ⟨k, hk, same⟩ := List.mem_map.mp popped
      rw [List.mem_range'_1] at hk
      have number := congrArg BitVec.toNat same
      rw [BitVec.toNat_ofNat] at number
      change k % 2 ^ 5 = 0 at number
      omega
  refine ((keeps_of_uses (uses_results 1 rest) _).x 0 later).trans ?_
  rw [exec_pop _ (by decide)]
  exact popped_value u _ 0

/-! ### Reaching an instruction -/

section
variable (base : BitVec 64)

/-- How control comes to what stands behind the `len` words at `place`: from the last of them, or
as it comes to the words, where there are none. -/
def Onward (place len : Nat) (enters : Config → Prop) (c : Config) : Prop :=
  if len = 0 then enters c else c.pc = addr base (place + len - 1)

/-- The step from `c` is the branch of the test at `place`, with the flag as it is given. -/
def TestBranch (place : Nat) (zero : Bool) (c : Config) : Prop :=
  c.pc = addr base (place + testBlock.length) ∧ c.state.flags.z = zero

variable (frame : Frame)

/-- With the step from `c` control goes on behind the sequence at `place`, if it comes to its first
instruction as `enters` says. -/
def Passed : Seq → (place : Nat) → (enters : Config → Prop) → Config → Prop
  | .nil, _, enters => enters
  | .op o rest, place, enters =>
    Passed rest (place + (opBlock frame o).length)
      (Onward base place (opBlock frame o).length enters)
  | .div width signed rest, place, enters =>
    Passed rest (place + size (divItems width signed))
      (Onward base place (size (divItems width signed)) enters)
  | .ifThen _ thn rest, place, _ =>
    let q := place + (testBlock.length + 1)
    Passed rest (q + size (bodyItems frame 0 thn)) fun c =>
      TestBranch base place true c ∨ Passed thn q (TestBranch base place false) c
  | .ifElse _ thn els rest, place, _ =>
    let q := place + (testBlock.length + 1)
    let e := q + size (bodyItems frame 0 thn)
    -- The first arm is left by the branch at its end.
    Passed rest (e + 1 + size (bodyItems frame 0 els)) fun c =>
      c.pc = addr base e ∨ Passed els (e + 1) (TestBranch base place true) c

/-- With the step from `c` control comes to the instruction whose first byte is at `k`, in the
sequence whose first byte is at `offset` and whose code is at `place`. -/
def Reached (k : Nat) : Seq → (offset place : Nat) → (enters : Config → Prop) → Config → Prop
  | .nil, _, _, _, _ => False
  | .op o rest, offset, place, enters, c =>
    (k = offset ∧ enters c) ∨ Reached k rest (offset + o.bytes.length)
      (place + (opBlock frame o).length) (Onward base place (opBlock frame o).length enters) c
  | .div width signed rest, offset, place, enters, c =>
    (k = offset ∧ enters c) ∨ Reached k rest (offset + 1) (place + size (divItems width signed))
      (Onward base place (size (divItems width signed)) enters) c
  | .ifThen _ thn rest, offset, place, enters, c =>
    let q := place + (testBlock.length + 1)
    let after := offset + 2 + thn.bytes.length
    (k = offset ∧ enters c) ∨ Reached k thn (offset + 2) q (TestBranch base place false) c ∨
      (k = after ∧ Passed base frame thn q (TestBranch base place false) c) ∨
      Reached k rest (after + 1) (q + size (bodyItems frame 0 thn))
        (fun c => TestBranch base place true c ∨
          Passed base frame thn q (TestBranch base place false) c) c
  | .ifElse _ thn els rest, offset, place, enters, c =>
    let q := place + (testBlock.length + 1)
    let e := q + size (bodyItems frame 0 thn)
    let middle := offset + 2 + thn.bytes.length
    let after := middle + 1 + els.bytes.length
    (k = offset ∧ enters c) ∨ Reached k thn (offset + 2) q (TestBranch base place false) c ∨
      (k = middle ∧ Passed base frame thn q (TestBranch base place false) c) ∨
      Reached k els (middle + 1) (e + 1) (TestBranch base place true) c ∨
      (k = after ∧ Passed base frame els (e + 1) (TestBranch base place true) c) ∨
      Reached k rest (after + 1) (e + 1 + size (bodyItems frame 0 els))
        (fun c => c.pc = addr base e ∨
          Passed base frame els (e + 1) (TestBranch base place true) c) c

end

/-! ### The walk reaches what it visits -/

theorem getLastD_append {l m : List Config} (c : Config) :
    (l ++ m).getLastD c = m.getLastD (l.getLastD c) := by
  induction l generalizing c with
  | nil => rfl
  | cons d l ih => rw [List.cons_append, List.getLastD_cons, ih, List.getLastD_cons]

/-- From the step `c` on, the walk comes to each of its visits by a step that `reach` tells, and to
its end by one that `pass` tells. -/
structure Comes (w : Walk) (c : Config) (reach : Nat → Config → Prop) (pass : Config → Prop) :
    Prop where
  visits : ∀ front v behind, w.visits = front ++ v :: behind →
    reach v.offset ((front.flatMap Visit.trace).getLastD c)
  passed : w.trapped = false → pass (w.trace.getLastD c)

section
variable {w : Walk} {c : Config} {reach reach' : Nat → Config → Prop} {pass pass' : Config → Prop}

theorem comes_nil {s : State} (here : pass c) : Comes ⟨[], false, s⟩ c reach pass :=
  ⟨fun _ _ _ split => absurd split.symm (by simp), fun _ => here⟩

theorem trace_single (v : Visit) (trapped : Bool) (s : State) :
    (Walk.mk [v] trapped s).trace = v.trace := List.flatMap_singleton _ _

theorem comes_single {v : Visit} (one : w.visits = [v]) (here : reach v.offset c)
    (behind : w.trapped = false → pass (w.trace.getLastD c)) : Comes w c reach pass := by
  refine ⟨fun front other later split => ?_, behind⟩
  rw [one] at split
  cases front with
  | nil =>
    cases split
    exact here
  | cons first front =>
    have short := congrArg List.length split
    simp at short

theorem Comes.mono (h : Comes w c reach pass) (more : ∀ k d, reach k d → reach' k d) :
    Comes w c reach' pass :=
  ⟨fun front v behind split => more _ _ (h.visits front v behind split), h.passed⟩

theorem Comes.andThen {next : State → Walk} (pass : Config → Prop) (first : Comes w c reach pass)
    (second : ∀ d, pass d → Comes (next w.state) d reach pass') :
    Comes (w.andThen next) c reach pass' := by
  cases trapped : w.trapped with
  | true =>
    have whole : w.andThen next = w := if_pos trapped
    rw [whole]
    refine ⟨first.visits, fun through => ?_⟩
    rw [trapped] at through
    cases through
  | false =>
    have later := second _ (first.passed trapped)
    obtain ⟨trace, -, ended⟩ := Walk.trace_andThen trapped next
    have visits : (w.andThen next).visits = w.visits ++ (next w.state).visits := by
      rw [Walk.andThen, trapped, if_neg Bool.false_ne_true]
    refine ⟨fun front v behind split => ?_, fun through => ?_⟩
    · rw [visits] at split
      rcases List.append_eq_append_iff.mp split with ⟨rest, rfl, mine⟩ | ⟨rest, mine, others⟩
      · rw [List.flatMap_append, getLastD_append]
        exact later.visits rest v behind mine
      · cases rest with
        | nil =>
          rw [List.append_nil] at mine
          rw [← mine]
          exact later.visits [] v behind others.symm
        | cons other rest =>
          obtain ⟨rfl, -⟩ := List.cons.inj others
          exact first.visits front _ rest mine
    · rw [ended] at through
      rw [trace, getLastD_append]
      exact later.passed through

end

section
variable (base : BitVec 64)

theorem blockTrace_last (p : Nat) {block : List Instr} (some : block ≠ []) (s : State) :
    ∃ front c, blockTrace base p block s = front ++ [c] ∧
      c.pc = addr base (p + block.length - 1) := by
  induction block generalizing p s with
  | nil => exact absurd rfl some
  | cons i block ih =>
    cases block with
    | nil => exact ⟨[], _, rfl, rfl⟩
    | cons j block =>
      obtain ⟨front, c, split, place⟩ := ih (p + 1) (List.cons_ne_nil _ _) (exec i s)
      refine ⟨⟨addr base p, s⟩ :: front, c, ?_, ?_⟩
      · rw [blockTrace, split, List.cons_append]
      · rw [place, List.length_cons (a := i), Nat.add_right_comm p, Nat.add_assoc]

theorem onward_block {place : Nat} {block : List Instr} {enters : Config → Prop} {c : Config}
    (here : enters c) (s : State) :
    Onward base place block.length enters ((blockTrace base place block s).getLastD c) := by
  by_cases empty : block = []
  · rw [empty]
    exact here
  · obtain ⟨front, d, split, last⟩ := blockTrace_last base place empty s
    rw [Onward, if_neg (fun none => empty (List.length_eq_zero_iff.mp none)), split,
      List.getLastD_concat]
    exact last

/-- A division is left from its last instruction. -/
theorem onward_div (width : Width) (signed : Bool) (place : Nat) (front : List Config) (t : State)
    (enters : Config → Prop) (c : Config) :
    Onward base place (size (divItems width signed)) enters
      ((front ++ blockTrace base (place + (zeroCheck width).length + 1 +
        (minusOneCheck width).length + 1 + (minimumCheck width).length + 1 + 1)
        (quotient width signed) t).getLastD c) := by
  obtain ⟨others, d, split, ended⟩ := blockTrace_last base (place + (zeroCheck width).length + 1 +
    (minusOneCheck width).length + 1 + (minimumCheck width).length + 1 + 1)
    (show quotient width signed ≠ [] from List.cons_ne_nil _ _) t
  have long := size_divItems width signed
  rw [Onward, if_neg (by omega), split, ← List.append_assoc, List.getLastD_concat, ended]
  congr 1
  omega

theorem div_visit (width : Width) (signed : Bool) {offset : Nat} (height : Int) (place : Nat)
    (s : State) {reach : Nat → Config → Prop} {c : Config} (here : reach offset c)
    (enters : Config → Prop) : Comes (divWalk base width signed offset height place s) c reach
      (Onward base place (size (divItems width signed)) enters) := by
  rw [divWalk]
  split_ifs with zero notMinusOne notMinimum
  · refine comes_single rfl here fun through => ?_
    cases through
  · refine comes_single rfl here fun _ => ?_
    rw [Walk.once, trace_single]
    exact onward_div base width signed place _ _ enters c
  · refine comes_single rfl here fun _ => ?_
    rw [Walk.once, trace_single]
    exact onward_div base width signed place _ _ enters c
  · refine comes_single rfl here fun through => ?_
    cases through

/-- The test of an `if` is left by its branch. -/
theorem test_visit {offset place : Nat} {height : Int} {reach : Nat → Config → Prop} {c : Config}
    (here : reach offset c) (s : State) :
    Comes (.once ⟨offset, height, s, branchTrace base place testBlock s⟩ (execAll testBlock s)) c
      reach (TestBranch base place
        (decide (((execAll testBlock s).x 11).setWidth 32 = 0))) := by
  refine comes_single rfl here fun _ => ?_
  rw [Walk.once, trace_single, branchTrace, List.getLastD_concat]
  exact ⟨rfl, test_flag s⟩

variable (frame : Frame)

/-- Every visit is reached by the last step in front of it, and a walk that goes through passes. -/
theorem walk_comes (seq : Seq) (offset : Nat) (height : Int) (place : Nat) (s : State)
    (enters : Config → Prop) {c : Config} (here : enters c) :
    Comes (walk frame base seq offset height place s) c
      (fun k => Reached base frame k seq offset place enters)
      (Passed base frame seq place enters) := by
  induction seq generalizing offset height place s enters c with
  | nil => exact comes_nil here
  | op o rest ih =>
    refine Comes.andThen (Onward base place (opBlock frame o).length enters) ?_ ?_
    · refine comes_single rfl (Or.inl ⟨rfl, here⟩) fun _ => ?_
      rw [Walk.once, trace_single]
      exact onward_block base here s
    · exact fun d passed => (ih _ _ _ _ _ passed).mono fun k d => Or.inr
  | div width signed rest ih =>
    refine Comes.andThen _ (div_visit base width signed height place s ?_ enters) fun d passed => ?_
    · exact Or.inl ⟨rfl, here⟩
    · exact (ih _ _ _ _ _ passed).mono fun k d => Or.inr
  | ifThen block thn rest ihThn ihRest =>
    rw [walk]
    refine Comes.andThen _ (test_visit base ?_ s) fun d left => ?_
    · exact Or.inl ⟨rfl, here⟩
    refine Comes.andThen (fun c => TestBranch base place true c ∨
      Passed base frame thn (place + (testBlock.length + 1)) (TestBranch base place false) c) ?_ ?_
    · by_cases zero : ((execAll testBlock s).x 11).setWidth 32 = 0
      · rw [decide_eq_true zero] at left
        exact (if_pos zero).symm ▸ comes_nil (Or.inl left)
      · rw [decide_eq_false zero] at left
        have arm := (ihThn (offset + 2) (height - 1) (place + (testBlock.length + 1))
          (execAll testBlock s) _ left)
        refine (if_neg zero).symm ▸ Comes.andThen _ (arm.mono fun k d h => Or.inr (Or.inl h)) ?_
        exact fun d passed => comes_single rfl (Or.inr (Or.inr (Or.inl ⟨rfl, passed⟩)))
          fun _ => Or.inr passed
    · exact fun d passed => (ihRest _ _ _ _ _ passed).mono fun k d h => Or.inr (Or.inr (Or.inr h))
  | ifElse block thn els rest ihThn ihEls ihRest =>
    let q := place + (testBlock.length + 1)
    let e := q + size (bodyItems frame 0 thn)
    rw [walk]
    refine Comes.andThen _ (test_visit base ?_ s) fun d left => ?_
    · exact Or.inl ⟨rfl, here⟩
    refine Comes.andThen (fun c => c.pc = addr base e ∨
      Passed base frame els (e + 1) (TestBranch base place true) c) ?_ ?_
    · by_cases zero : ((execAll testBlock s).x 11).setWidth 32 = 0
      · rw [decide_eq_true zero] at left
        have arm := ihEls (offset + 2 + thn.bytes.length + 1) (height - 1) (e + 1)
          (execAll testBlock s) _ left
        refine (if_pos zero).symm ▸ Comes.andThen _
          (arm.mono fun k d h => Or.inr (Or.inr (Or.inr (Or.inl h)))) fun d passed => ?_
        exact comes_single rfl (Or.inr (Or.inr (Or.inr (Or.inr (Or.inl ⟨rfl, passed⟩)))))
          fun _ => Or.inr passed
      · rw [decide_eq_false zero] at left
        have arm := ihThn (offset + 2) (height - 1) q (execAll testBlock s) _ left
        refine (if_neg zero).symm ▸ Comes.andThen _ (arm.mono fun k d h => Or.inr (Or.inl h))
          fun d passed => ?_
        exact comes_single rfl (Or.inr (Or.inr (Or.inl ⟨rfl, passed⟩))) fun _ => Or.inl rfl
    · exact fun d passed => (ihRest _ _ _ _ _ passed).mono fun k d h =>
        Or.inr (Or.inr (Or.inr (Or.inr (Or.inr h))))

end

/-! ### Leaving at a return -/

section
variable (params locals results : List wasm_type) (body : Seq)

/-- The sites of a function's body, behind the loads of its arguments. -/
def bodySites : List Site :=
  sites (frameOf params locals) body 0 (functionStart params + bodyStart params locals)

/-- Where the function's `ret` stands. -/
def returnPlace : Nat :=
  functionStart params + finalizeStart params locals body +
    (leaveBlock params locals results).length

/-- From the place of a `return` on, no code of a later source instruction is executed, and the
function returns the value on top of the operand stack, if that is not where the return code is
stored. -/
structure Leaves (code : List Word) (base : BitVec 64) (site : Site) (t : State) : Prop where
  nothing : ∀ trace d, Run (step code base) ⟨addr base site.place, t⟩ trace d → ∀ c ∈ trace,
    ∀ later ∈ bodySites params locals body, site.offset < later.offset → ∀ k, later.Holds k →
      c.pc ≠ addr base k
  result : ∀ v rest, results = v :: rest → Apart (t.x 19) 8 (entryAddr t 0) 8 →
    ∃ trace u, Run (step code base) ⟨addr base site.place, t⟩ trace
        ⟨addr base (returnPlace params locals results body), u⟩ ∧
      u.x 0 = (operand t (widthOf (varRegType v)) 0).setWidth 64

/-- With the step from `c` a run comes to the instruction: from the last code in front of it, or by
the branch that selects its arm. -/
def Reaches (base : BitVec 64) (site : Site) (c : Config) : Prop :=
  let start := functionStart params + bodyStart params locals
  Reached base (frameOf params locals) site.offset body 0 start
    (fun c => c.pc = addr base (start - 1)) c

/-- Only returns and the ends of blocks stand behind the instruction. -/
def NothingBehind (site : Site) : Prop :=
  ∀ later ∈ bodySites params locals body, site.offset < later.offset → later.source.Codeless

instance (site : Site) : Decidable (NothingBehind params locals body site) :=
  inferInstanceAs (Decidable (∀ later ∈ _, _ → _))

end

section
variable {code : List Word} {instrs : List Instr} {params locals results : List wasm_type}
  {body : Seq} (emitted : Emitted code instrs params locals results body) (base : BitVec 64)
include emitted

/-- Behind the body the machine reaches the `ret`. -/
theorem run_out (t : State) : Run (step code base)
    ⟨addr base (functionStart params + bodyEnd params locals body), t⟩
    (blockTrace base (functionStart params + bodyEnd params locals body) (returnCode 0) t ++
      blockTrace base (functionStart params + finalizeStart params locals body)
        (leaveBlock params locals results) (returned t))
    ⟨addr base (returnPlace params locals results body),
      left params locals results (returned t)⟩ := by
  obtain ⟨-, stores, leaves, -⟩ := body_of_linked emitted.linked
  have first := run_block emitted.loaded base stores (by simp [returnCode, plain]) t
  exact first.append (run_block emitted.loaded base leaves (leaveBlock_plain params locals results)
    (returned t))

/-- The first result is in `x0` there. -/
theorem result_delivered {v : wasm_type} {rest : List wasm_type} (some : results = v :: rest)
    (few : results.length ≤ 32) {t : State} (apart : Apart (t.x 19) 8 (entryAddr t 0) 8) :
    ∃ trace u, Run (step code base)
        ⟨addr base (functionStart params + bodyEnd params locals body), t⟩ trace
        ⟨addr base (returnPlace params locals results body), u⟩ ∧
      u.x 0 = (operand t (widthOf (varRegType v)) 0).setWidth 64 := by
  refine ⟨_, left params locals results (returned t), run_out emitted base t, ?_⟩
  subst some
  rw [List.length_cons] at few
  rw [left_result emitted.small (by omega), returned_operand apart]

/-- The machine executes whatever stands in front of the end of the body. -/
theorem steps_in_body {k : Nat} (high : k < functionStart params + bodyEnd params locals body)
    (t : State) : ∃ d, step code base ⟨addr base k, t⟩ = some d := by
  obtain ⟨-, stores, -⟩ := body_of_linked emitted.linked
  have inside : k < instrs.length := by
    have last := (List.getElem?_eq_some_iff.mp (stores 0 _ rfl)).1
    rw [functionStart] at high
    omega
  exact ⟨_, step_at emitted.loaded base (List.getElem?_eq_getElem inside) t⟩

omit base in
/-- What stands behind a return begins at the place of the return. -/
theorem tiles_behind {site : Site} (hs : site ∈ bodySites params locals body)
    (isRet : site.source = .op .ret) :
    ∃ second, (∀ later, later ∈ bodySites params locals body ∧ site.offset < later.offset ↔
        later ∈ second) ∧
      Tiles second site.place (functionStart params + bodyEnd params locals body) := by
  obtain ⟨first, second, split⟩ := List.append_of_mem hs
  have tiles := sites_tile (frameOf params locals) body 0
    (functionStart params + bodyStart params locals)
  have none : site.length = 0 :=
    (site_length_eq_zero emitted.uses hs).mpr (isRet ▸ Or.inl rfl)
  rw [show sites _ body 0 _ = _ from split] at tiles
  have rest := tiles.split.2
  rw [none, Nat.add_zero, Nat.add_assoc] at rest
  exact ⟨second, fun later => mem_behind split, rest⟩

/-- Code behind the return is executed at once. -/
theorem nothing_iff {site : Site} (hs : site ∈ bodySites params locals body)
    (isRet : site.source = .op .ret) (t : State) :
    (∀ trace d, Run (step code base) ⟨addr base site.place, t⟩ trace d → ∀ c ∈ trace,
      ∀ later ∈ bodySites params locals body, site.offset < later.offset → ∀ k, later.Holds k →
        c.pc ≠ addr base k) ↔ NothingBehind params locals body site := by
  obtain ⟨second, listed, rest⟩ := tiles_behind emitted hs isRet
  constructor
  · intro never later inside behind
    by_contra code
    have some : later.length ≠ 0 := fun h => code ((site_length_eq_zero emitted.uses inside).mp h)
    have bounds := rest.bounds ((listed later).mp ⟨inside, behind⟩)
    obtain ⟨next, inSecond, holds⟩ := rest.cover (Nat.le_refl site.place) (by omega)
    obtain ⟨isSite, after⟩ := (listed next).mpr inSecond
    obtain ⟨d, moves⟩ := steps_in_body emitted base (k := site.place) (by omega) t
    exact never _ _ (.one moves) _ List.mem_cons_self next isSite after _ holds rfl
  · intro last trace d run c hc later inside behind k holds
    have empty := (site_length_eq_zero emitted.uses inside).mpr (last later inside behind)
    rw [Site.Holds, empty] at holds
    omega

omit base in
/-- A return with nothing behind it stands in front of the epilogue. -/
theorem place_eq {site : Site} (hs : site ∈ bodySites params locals body)
    (isRet : site.source = .op .ret) (last : NothingBehind params locals body site) :
    site.place = functionStart params + bodyEnd params locals body := by
  obtain ⟨second, listed, rest⟩ := tiles_behind emitted hs isRet
  refine rest.eq_of_empty fun later inSecond => ?_
  obtain ⟨inside, behind⟩ := (listed later).mpr inSecond
  exact (site_length_eq_zero emitted.uses inside).mpr (last later inside behind)

end

/-- A run that reaches a `return` leaves the function there exactly when only returns and the ends
of blocks stand behind it. -/
theorem return_leaves_iff {params results : List wasm_type} {groups : List Group} {body : Seq}
    {order : WasmFunction.VisitOrder} {g : WasmFunction}
    (size_byte : BranchFixup.bodySize groups body ≤ 255)
    (done : funcSingleProcess (delivered params results groups body) order = .ok g) :
    ∃ code, loadWords (full_instructions g) = .ok code ∧
      ∀ base s trace c t, ∀ site ∈ bodySites params (groups.flatMap groupLocals) body,
        site.source = .op .ret →
        Run (step code base) ⟨base, s⟩ (trace ++ [c]) ⟨addr base site.place, t⟩ →
        Reaches params (groups.flatMap groupLocals) body base site c →
        (Leaves params (groups.flatMap groupLocals) results body code base site t ↔
          NothingBehind params (groups.flatMap groupLocals) body site) := by
  obtain ⟨code, instrs, loads, emitted, -, -, few⟩ := emitted_of_funcSingleProcess size_byte done
  refine ⟨code, loads, fun base s trace c t site hs isRet _ _ => ?_⟩
  constructor
  · intro leaves
    exact (nothing_iff emitted base hs isRet t).mp leaves.nothing
  · intro last
    refine ⟨(nothing_iff emitted base hs isRet t).mpr last, fun v rest some apart => ?_⟩
    rw [place_eq emitted hs isRet last]
    exact result_delivered emitted base some few apart

/-- `i32.const 1; return`, and what follows. -/
def returnsOne (rest : Seq) : Seq := .op (.i32const 1) (.op .ret rest)

/-- The place of its return. -/
def onePlace : Nat := functionStart [] + bodyStart [] [] + 4

theorem const_pushed (value : Byte) (s : State) :
    Replaces 0 .w (value.setWidth 32) s (execAll (opBlock (frameOf [] []) (.i32const value)) s) :=
  load_replaces (exec_mov32 (by decide) (value.setWidth 32) s)

/-- The return is reached with one on the stack. -/
theorem reaches_return {code : List Word} {instrs : List Instr} {results : List wasm_type}
    {rest : Seq} (emitted : Emitted code instrs [] [] results (returnsOne rest))
    (once : rest.divisions ≤ 1) (base : BitVec 64) :
    ∃ trace c t, Run (step code base) ⟨base, sampleCall⟩ (trace ++ [c]) ⟨addr base onePlace, t⟩ ∧
      Reaches [] [] (returnsOne rest) base ⟨2, .op .ret, onePlace, 0⟩ c ∧
      operand t .w 0 = 1 ∧ t.x 19 = 0x10000 ∧ t.x 20 = 0x20000 ∧ t.x 21 = 8 := by
  have placed := (emitted.callable once).placed
  let n := functionStart []
  let e := entered [] [] base n (atEntry [] sampleCall)
  have load := run_block placed.loaded base emitted.loads
    (fun i hi => (argumentBlock_plain [] i hi).1) sampleCall
  rw [addr_zero, Nat.zero_add] at load
  have entry := run_entry placed.loaded base (layout_of_placed placed) emitted.small
    (atEntry [] sampleCall)
  have linked := (body_of_linked emitted.linked).1
  simp only [returnsOne, bodyItems, linked_append, CodeItems.ins, linked_map_ins] at linked
  have first :
      Run (step code base) ⟨addr base (n + bodyStart [] []), e⟩ _ ⟨addr base onePlace, _⟩ :=
    run_uses placed.loaded base linked.1 (uses_opBlock _ _) e
  obtain ⟨front, c, split, -⟩ := blockTrace_last base (n + bodyStart [] [])
    (show opBlock (frameOf [] []) (.i32const 1) ≠ [] from List.cons_ne_nil _ _) e
  have run : Run (step code base) ⟨base, sampleCall⟩
      (_ ++ blockTrace base (n + bodyStart [] []) _ e)
      ⟨addr base onePlace, _⟩ := (load.append entry).append first
  rw [split, ← List.append_assoc] at run
  obtain ⟨others, -⟩ := entered_eq emitted.small base n (atEntry [] sampleCall)
  obtain ⟨x19, x20, x21, -⟩ := atEntry_eq (show ([] : List wasm_type).length ≤ 19 by decide)
    (by simp) sampleCall
  -- The return is the second visit of the walk.
  have visited := walk_comes base (frameOf [] []) (returnsOne rest) 0 0 (n + bodyStart [] []) e
    (fun c => c.pc = addr base (n + bodyStart [] [] - 1)) (c := ⟨_, e⟩) rfl
  have reached := visited.visits [_] _ _ rfl
  rw [List.flatMap_singleton, split, List.getLastD_concat] at reached
  have pushed := const_pushed 1 e
  have keeps := keeps_of_uses (uses_opBlock (frameOf [] []) (.i32const 1)) e
  refine ⟨_, c, _, run, reached, pushed.value, ?_, ?_, ?_⟩
  · exact (keeps.x 19 (by decide)).trans
      ((others 19 (by decide) (by decide) (by decide) (by decide)).trans x19)
  · exact pushed.stack.trans
      ((others 20 (by decide) (by decide) (by decide) (by decide)).trans x20)
  · rw [pushed.pointer, others 21 (by decide) (by decide) (by decide) (by decide), x21]
    rfl

/-- `i32.const 1; return`. -/
theorem return_leaves_last : ∃ g code trace c t,
    funcSingleProcess (delivered [] [.i32 0] [] (returnsOne .nil)) BranchFixup.inOrder = .ok g ∧
      loadWords (full_instructions g) = .ok code ∧
      Run (step code 0x100000) ⟨0x100000, sampleCall⟩ (trace ++ [c]) ⟨addr 0x100000 onePlace, t⟩ ∧
      Reaches [] [] (returnsOne .nil) 0x100000 ⟨2, .op .ret, onePlace, 0⟩ c ∧
      Leaves [] [] [.i32 0] (returnsOne .nil) code 0x100000 ⟨2, .op .ret, onePlace, 0⟩ t := by
  obtain ⟨g, done⟩ := BranchFixup.ok_of_isOk (show (funcSingleProcess
    (delivered [] [.i32 0] [] (returnsOne .nil)) BranchFixup.inOrder).isOk = true by decide +kernel)
  obtain ⟨code, instrs, loads, emitted, -⟩ := emitted_of_funcSingleProcess (by decide) done
  obtain ⟨code', loads', leaves⟩ := return_leaves_iff (by decide) done
  cases loads.symm.trans loads'
  obtain ⟨trace, c, t, run, reached, -⟩ := reaches_return emitted (by decide) 0x100000
  refine ⟨g, code, trace, c, t, done, loads, run, reached,
    (leaves _ _ _ _ _ _ (by decide) rfl run reached).mpr ?_⟩
  decide

/-- `i32.const 1; return; i32.const 2`. -/
def returnsEarly : Seq := returnsOne (.op (.i32const 2) .nil)

/-- Two is returned, where the return is reached with one on the stack. -/
theorem code_behind_return_runs : Valid [] [] [.i32 0] returnsEarly ∧
    ∃ g code site trace c t trace' u, funcSingleProcess (delivered [] [.i32 0] [] returnsEarly)
        BranchFixup.inOrder = .ok g ∧
      loadWords (full_instructions g) = .ok code ∧
      site ∈ bodySites [] [] returnsEarly ∧ site.source = .op .ret ∧
      Run (step code 0x100000) ⟨0x100000, sampleCall⟩ (trace ++ [c])
        ⟨addr 0x100000 site.place, t⟩ ∧
      Reaches [] [] returnsEarly 0x100000 site c ∧ operand t .w 0 = 1 ∧
      Run (step code 0x100000) ⟨addr 0x100000 site.place, t⟩ trace'
        ⟨addr 0x100000 (returnPlace [] [] [.i32 0] returnsEarly), u⟩ ∧ u.x 0 = 2 ∧
      ¬ Leaves [] [] [.i32 0] returnsEarly code 0x100000 site t := by
  obtain ⟨g, done⟩ := BranchFixup.ok_of_isOk (show (funcSingleProcess
    (delivered [] [.i32 0] [] returnsEarly) BranchFixup.inOrder).isOk = true by decide +kernel)
  obtain ⟨code, instrs, loads, emitted, -, -, few⟩ := emitted_of_funcSingleProcess (by decide) done
  change Emitted code instrs [] [] [.i32 0] returnsEarly at emitted
  obtain ⟨trace, c, t, run, reached, isOne, x19, x20, x21⟩ :=
    reaches_return emitted (by decide) 0x100000
  let t' := execAll (opBlock (frameOf [] []) (.i32const 2)) t
  have linked := (body_of_linked emitted.linked).1
  simp only [returnsEarly, returnsOne, bodyItems, linked_append, CodeItems.ins,
    linked_map_ins] at linked
  have second : Run (step code 0x100000) ⟨addr 0x100000 onePlace, t⟩ _
      ⟨addr 0x100000 (onePlace + 4), t'⟩ :=
    run_uses emitted.loaded 0x100000 linked.2.2.1 (uses_opBlock _ _) t
  have isTwo := const_pushed 2 t
  have keeps := keeps_of_uses (uses_opBlock (frameOf [] []) (.i32const 2)) t
  have apart : Apart (t'.x 19) 8 (entryAddr t' 0) 8 := by
    have place : entryAddr t' 0 = 0x20008 := by
      rw [entryAddr, top, isTwo.stack, isTwo.pointer, x20, x21]
      rfl
    rw [keeps.x 19 (by decide), x19, place]
    exact apart_of_lt (w := 64) (d := 0x10000) (e := 0x20008) (Or.inl (by decide)) (by decide)
  obtain ⟨trace', u, finish, delivered⟩ := result_delivered emitted 0x100000 rfl few apart
  have value : operand t' .w 0 = 2 := isTwo.value
  refine ⟨.i32const (.ret (.i32const .nil)), g, code, ⟨2, .op .ret, onePlace, 0⟩, trace, c, t,
    _, u, done, loads, by decide, rfl, run, reached, isOne, second.append finish, ?_, ?_⟩
  · rw [delivered]
    exact congrArg (BitVec.setWidth 64) value
  · intro leaves
    have last := (nothing_iff emitted 0x100000
      (show (⟨2, .op .ret, onePlace, 0⟩ : Site) ∈ _ by decide) rfl t).mp leaves.nothing
    have codeless := last ⟨3, .op (.i32const 2), onePlace, 4⟩ (by decide) (by decide)
    exact absurd codeless (by simp [Source.Codeless])

end EarlyReturn
