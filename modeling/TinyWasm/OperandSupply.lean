import TinyWasm.StackAccesses
import TinyWasm.Validation

/-!
# Operands for every instruction

A body stays in the `wasm_stack` exactly when every instruction it reaches finds
its operands on the stack. A valid body without `return` always does: the stack
the emitted code works on is at least as high as WebAssembly's.
-/

namespace OperandSupply

open ArmInstruction ByteMemory ArmMachine BlockEffects LabelledCode SourceBody Emit CodeItems
open StructuredRun BodyFrame StackAccesses Validation

/-- A division, wherever its code stands. -/
def divided (width : Width) (signed : Bool) (s : State) : Walk := divWalk 0 width signed 0 0 0 s

theorem divWalk_divided (base : BitVec 64) (width : Width) (signed : Bool) (offset : Nat)
    (height : Int) (p : Nat) (s : State) :
    (divWalk base width signed offset height p s).trapped = (divided width signed s).trapped ∧
      (divWalk base width signed offset height p s).state = (divided width signed s).state := by
  rw [divided, divWalk, divWalk]
  split_ifs <;> exact ⟨rfl, rfl⟩

/-- From `s` every instruction the sequence reaches finds its operands on the stack, and if it goes
through the last state satisfies `post`. -/
def Supplied (frame : Frame) : Seq → State → (State → Prop) → Prop
  | .nil, s, post => post s
  | .op o rest, s, post =>
    Enough (Op.takes o) s ∧ Supplied frame rest (execAll (opBlock frame o) s) post
  | .div width signed rest, s, post =>
    Enough 2 s ∧ ((divided width signed s).trapped = false →
      Supplied frame rest (divided width signed s).state post)
  | .ifThen _ thn rest, s, post =>
    Enough 1 s ∧ if ((execAll testBlock s).x 11).setWidth 32 = 0 then
        Supplied frame rest (execAll testBlock s) post
      else Supplied frame thn (execAll testBlock s) fun u => Supplied frame rest u post
  | .ifElse _ thn els rest, s, post =>
    Enough 1 s ∧ if ((execAll testBlock s).x 11).setWidth 32 = 0 then
        Supplied frame els (execAll testBlock s) fun u => Supplied frame rest u post
      else Supplied frame thn (execAll testBlock s) fun u => Supplied frame rest u post

/-! ### A body stays in the allocation -/

/-- The walk from `s` stays in the `wasm_stack` at `stack` and ends in a state of `post` exactly
when `fed` says so; then it keeps the `n` bytes from `a` on, and ends at most `limit` entries up. -/
structure Charts (code : List Word) (base stack a : BitVec 64) (n : Nat) (limit : Int) (s : State)
    (w : Walk) (fed : (State → Prop) → Prop) : Prop where
  fed_iff : ∀ post, fed post ↔
    (∀ c ∈ w.trace, StaysIn code base stack c) ∧ (w.trapped = false → post w.state)
  kept : (∀ c ∈ w.trace, StaysIn code base stack c) → Kept a n s w
  pointer : (∀ c ∈ w.trace, StaysIn code base stack c) → w.trapped = false →
    ∃ k, 0 ≤ k ∧ k ≤ limit ∧ w.state.x 21 = depth k

section
variable {code : List Word} {base stack a : BitVec 64} {n : Nat}

theorem charts_nil {s : State} {k : Int} (low : 0 ≤ k) (pointer : s.x 21 = depth k) :
    Charts code base stack a n k s ⟨[], false, s⟩ fun post => post s :=
  ⟨fun _ => ⟨fun h => ⟨fun _ hc => absurd hc List.not_mem_nil, fun _ => h⟩, fun h => h.2 rfl⟩,
    fun _ => kept_nil a n s, fun _ _ => ⟨k, low, le_refl k, pointer⟩⟩

theorem Charts.mono {limit limit' : Int} {s : State} {w : Walk} {fed : (State → Prop) → Prop}
    (h : Charts code base stack a n limit s w fed) (more : limit ≤ limit') :
    Charts code base stack a n limit' s w fed := by
  refine ⟨h.fed_iff, h.kept, fun inside through => ?_⟩
  obtain ⟨k, low, high, pointer⟩ := h.pointer inside through
  exact ⟨k, low, by omega, pointer⟩

theorem Charts.andThen {l m : Int} {s : State} {w : Walk} {next : State → Walk}
    {f : (State → Prop) → Prop} {g : State → (State → Prop) → Prop}
    (first : Charts code base stack a n l s w f)
    (second : ∀ k, 0 ≤ k → k ≤ l → Keeps workRegs s w.state → w.state.x 21 = depth k →
      Charts code base stack a n m w.state (next w.state) (g w.state)) :
    Charts code base stack a n m s (w.andThen next) fun post => f fun t => g t post := by
  cases hw : w.trapped with
  | true =>
    have whole : w.andThen next = w := if_pos hw
    rw [whole]
    have never : ∀ {P : Prop}, w.trapped = false → P := fun through => by
      rw [hw] at through
      exact nomatch through
    exact ⟨fun post => (first.fed_iff _).trans
        (and_congr_right fun _ => ⟨fun _ => never, fun _ => never⟩),
      first.kept, fun _ => never⟩
  | false =>
    obtain ⟨trace, state, trapped⟩ := Walk.trace_andThen hw next
    have later : (∀ c ∈ w.trace, StaysIn code base stack c) →
        Charts code base stack a n m w.state (next w.state) (g w.state) := by
      intro inside
      obtain ⟨k, low, high, pointer⟩ := first.pointer inside hw
      exact second k low high (first.kept inside).keeps pointer
    refine ⟨fun post => ?_, fun inside => ?_, fun inside through => ?_⟩
    · rw [first.fed_iff, trace, state, trapped, List.forall_mem_append, and_assoc]
      refine and_congr_right fun inside => ?_
      rw [← (later inside).fed_iff post]
      exact ⟨fun h => h hw, fun h _ => h⟩
    · rw [trace, List.forall_mem_append] at inside
      exact (first.kept inside.1).andThen fun _ => (later inside.1).kept inside.2
    · rw [trace, List.forall_mem_append] at inside
      rw [trapped] at through
      rw [state]
      exact (later inside.1).pointer inside.2 through

/-- A visit that takes no step, or one that only branches. -/
theorem charts_pass {v : Visit} {s : State} {k : Int} (low : 0 ≤ k) (pointer : s.x 21 = depth k)
    (still : ∀ c ∈ v.trace, c.state = s) (inside : ∀ c ∈ v.trace, StaysIn code base stack c) :
    Charts code base stack a n k s (.once v s) fun post => post s := by
  have trace : (Walk.once v s).trace = v.trace := List.flatMap_singleton _ _
  refine ⟨fun post => ?_, fun _ => ⟨.refl _ s, fun c hc => ?_, .refl a n _⟩,
    fun _ _ => ⟨k, low, le_refl k, pointer⟩⟩
  · rw [trace]
    exact ⟨fun h => ⟨inside, fun _ => h⟩, fun h => h.2 rfl⟩
  · rw [trace] at hc
    rw [still c hc]
    exact .refl _ s

/-- A walk that stays in the `wasm_stack` when there are `m` entries to begin with. -/
theorem charts_enough {s : State} {w : Walk} {m : Nat} {h limit : Int} (pointer : s.x 21 = depth h)
    (low : 0 ≤ h) (high : h ≤ 1000)
    (inside : (∀ c ∈ w.trace, StaysIn code base stack c) ↔ (m : Int) ≤ h)
    (kept : (m : Int) ≤ h → Kept a n s w)
    (moved : (m : Int) ≤ h → w.trapped = false → ∃ k, 0 ≤ k ∧ k ≤ limit ∧ w.state.x 21 = depth k) :
    Charts code base stack a n limit s w
      fun post => Enough m s ∧ (w.trapped = false → post w.state) := by
  refine ⟨fun post => ?_, fun stays => kept (inside.mp stays),
    fun stays => moved (inside.mp stays)⟩
  rw [inside, enough_iff pointer (by omega) (by omega) m]

theorem Charts.congr {limit : Int} {s : State} {w : Walk} {fed fed' : (State → Prop) → Prop}
    (h : Charts code base stack a n limit s w fed) (same : ∀ post, fed' post ↔ fed post) :
    Charts code base stack a n limit s w fed' :=
  ⟨fun post => (same post).trans (h.fed_iff post), h.kept, h.pointer⟩

end

theorem op_effect_bounds (o : Op) : -(Op.takes o : Int) ≤ Op.effect o ∧
    Op.effect o ≤ o.bytes.length := by
  cases o with
  | localVar opType index => cases opType <;> simp [Op.takes, Op.effect, Op.bytes]
  | compare width c => cases width <;> simp [Op.takes, Op.effect, Op.bytes]
  | nop | ret | i32const | i64const | arith => simp [Op.takes, Op.effect, Op.bytes]

/-- A push goes to a slot that the operands were in, or to the one above them. -/
theorem op_pushes (o : Op) : Op.pushes o = true →
    Op.effect o - 1 = -(Op.takes o : Int) := by
  intro pushes
  cases o with
  | localVar opType index =>
    cases opType with
    | get => rfl
    | set | tee => exact nomatch pushes
  | nop | ret => exact nomatch pushes
  | i32const | i64const | compare | arith => rfl

/-- `Supplied` charts the walk of the sequence, wherever its code stands; each byte of the sequence
pushes at most one entry. -/
def Charted (code : List Word) (instrs : List Instr) (base stack sp a : BitVec 64) (n : Nat)
    (frame : Frame) (target : String → Int) (seq : Seq) : Prop :=
  ∀ {c p : Nat}, Linked link target instrs p (bodyItems frame c seq) →
    Labelled target p (bodyItems frame c seq) → ∀ {s : State} {h : Int}, s.x 20 = stack →
    s.x 21 = depth h → s.sp = sp → 0 ≤ h → h + seq.bytes.length ≤ 1000 →
    ∀ (offset : Nat) (height : Int), Charts code base stack a n (h + seq.bytes.length) s
      (walk frame base seq offset height p s) (Supplied frame seq s)

section
variable {code : List Word} {instrs : List Instr} (loaded : Loaded code instrs)
  (base : BitVec 64) {stack sp a : BitVec 64} {n : Nat} {frame : Frame}
  (room : Room a n stack sp 0 1024 frame)
include loaded room

theorem op_charts {o : Op} (uses : o.UsesBelow frame.length) {p : Nat}
    (stands : Stands instrs p (opBlock frame o)) {s : State} {h : Int} (hstack : s.x 20 = stack)
    (hpointer : s.x 21 = depth h) (hsp : s.sp = sp) (low : 0 ≤ h) (high : h ≤ 1000) (offset : Nat)
    (height : Int) :
    Charts code base stack a n (h + o.bytes.length) s
      (.once ⟨offset, height, s, blockTrace base p (opBlock frame o) s⟩
        (execAll (opBlock frame o) s))
      fun post => Enough (Op.takes o) s ∧ (false = false → post (execAll (opBlock frame o) s)) := by
  have moved : (execAll (opBlock frame o) s).x 21 = depth (h + Op.effect o) := by
    rw [moves_op uses s, hpointer, ← depth_add]
  obtain ⟨down, up⟩ := op_effect_bounds o
  refine charts_enough hpointer low high ?_
    (fun enough => op_kept room uses (fun pushes => ?_) hstack
    hpointer hsp base offset height p) fun enough _ => ⟨_, by omega, by omega, moved⟩
  · rw [Walk.once, Walk.trace, List.flatMap_singleton, staysIn_block loaded base stack stands,
      ← hstack]
    exact op_needs uses s h hpointer low high
  · have slot := op_pushes o pushes
    omega

omit room in
theorem test_charts {p : Nat} (stands : Stands instrs p testBlock) {cond : BitVec 4} {disp : Int}
    (branch : instrs[p + testBlock.length]? = some (.bCond cond disp)) {s : State} {h : Int}
    (hstack : s.x 20 = stack) (hpointer : s.x 21 = depth h) (low : 0 ≤ h) (high : h ≤ 1000)
    (offset : Nat) (height : Int) :
    Charts code base stack a n h s
      (.once ⟨offset, height, s, branchTrace base p testBlock s⟩ (execAll testBlock s))
      fun post => Enough 1 s ∧ (false = false → post (execAll testBlock s)) := by
  have settles := test_settles a n hpointer base offset height p
  have needs : Needs (1 : Nat) testBlock :=
    ((needs_tee .w (r := 11) (by decide) (by decide) (by decide)).append
      (moves_tee .w (by decide) (by decide)) (uses_tee .w (by decide)) (by decide) (by decide)
      (needs_silent
        (show ∀ i ∈ [cmpZero .w 11], silent i = true by simp [cmpZero, silent]))).count rfl
  refine charts_enough hpointer low high ?_ (fun _ => settles.kept) fun enough through => ?_
  · rw [Walk.once, Walk.trace, List.flatMap_singleton,
      staysIn_branch loaded base stack stands branch rfl, ← hstack]
    exact needs s h hpointer low high
  · obtain ⟨k, rfl, moved⟩ := settles.pointer through
    exact ⟨k, low, le_refl k, moved⟩

variable {trap : Nat}

omit loaded room in
theorem needs_quotient (width : Width) (signed : Bool) : Needs 0 (quotient width signed) :=
  ((needs_silent
    (show ∀ i ∈ [.div signed width 11 12 11], silent i = true by simp [silent])).append
    (moves_one (by simp [writes])) (uses_one rfl rfl (by simp [writes, workRegs])) (by decide)
    (by decide) (needs_push width 11)).count rfl

omit loaded room in
/-- The checks behind the first one look at no slot. -/
theorem silent_check (width : Width) (value : BitVec 64) (r : Reg) :
    ∀ i ∈ movConst width 5 value ++ [cmp width r 5], silent i = true := by
  intro i hi
  rcases List.mem_append.mp hi with hi | hi
  · exact silent_movConst width 5 _ i hi
  · rw [List.mem_singleton.mp hi]
    rfl

omit loaded room in
theorem checks_keep (width : Width) {s : State} (hstack : s.x 20 = stack) :
    (execAll (minusOneCheck width) (execAll (zeroCheck width) s)).x 20 = stack ∧
      (execAll (minimumCheck width) (execAll (minusOneCheck width)
        (execAll (zeroCheck width) s))).x 20 = stack := by
  have first := ((keeps_of_uses (uses_zeroCheck width) s).x 20 (by decide)).trans hstack
  have second := ((keeps_of_uses (uses_minusOneCheck width) _).x 20 (by decide)).trans first
  exact ⟨second, ((keeps_of_uses (uses_minimumCheck width) _).x 20 (by decide)).trans second⟩

theorem div_charts {width : Width} {signed : Bool} {p : Nat}
    (parts : DivAt instrs trap p width signed) {s : State} {h : Int} (hstack : s.x 20 = stack)
    (hpointer : s.x 21 = depth h) (low : 0 ≤ h) (high : h ≤ 1000) (offset : Nat) (height : Int) :
    Charts code base stack a n h s (divWalk base width signed offset height p s)
      fun post => Enough 2 s ∧ ((divWalk base width signed offset height p s).trapped = false →
        post (divWalk base width signed offset height p s).state) := by
  obtain ⟨d₁, toTrap, -⟩ := parts.toTrap
  obtain ⟨d₂, toQuotient, -⟩ := parts.toQuotient
  obtain ⟨d₃, toQuotient', -⟩ := parts.toQuotient'
  obtain ⟨d₄, toTrap', -⟩ := parts.toTrap'
  obtain ⟨-, pointer₂, pointer₃⟩ := checks_pointer width hpointer
  obtain ⟨stack₂, stack₃⟩ := checks_keep width hstack
  have first : (∀ c ∈ branchTrace base p (zeroCheck width) s, StaysIn code base stack c) ↔
      ((2 : Nat) : Int) ≤ h := by
    rw [staysIn_branch loaded base stack parts.zero toTrap rfl, ← hstack]
    exact needs_two width (by decide) (by decide) (by simp [cmpZero, silent]) s h hpointer low high
  have second := fun t => (staysIn_branch loaded base stack parts.minusOne toQuotient rfl t).mpr
    (allIn_silent (silent_check width _ _) t)
  have third := fun t => (staysIn_branch loaded base stack parts.minimum toQuotient' rfl t).mpr
    (allIn_silent (silent_check width _ _) t)
  have fourth := staysIn_silent loaded base stack toTrap' rfl
  have last : ∀ t, t.x 20 = stack → t.x 21 = depth (h - 2) → ((2 : Nat) : Int) ≤ h →
      ∀ c ∈ blockTrace base (p + (zeroCheck width).length + 1 + (minusOneCheck width).length + 1 +
        (minimumCheck width).length + 2) (quotient width signed) t, StaysIn code base stack c := by
    intro t here pointer enough
    rw [staysIn_block loaded base stack parts.quotient, ← here]
    exact (needs_quotient width signed t (h - 2) pointer (by omega) (by omega)).mpr (by omega)
  have kept := fun enough : ((2 : Nat) : Int) ≤ h => div_kept room
    (show 0 ≤ h - 2 ∧ h - 2 < 1024 by omega) hstack hpointer width signed base offset height p
  refine charts_enough hpointer low high ?_ (fun enough => (kept enough).1) fun enough through =>
    ⟨h - 1, by omega, by omega, (kept enough).2 through⟩
  rw [divWalk]
  split_ifs
  · rw [Walk.trace, List.flatMap_singleton]
    exact first
  · rw [Walk.once, Walk.trace, List.flatMap_singleton]
    simp only [List.forall_mem_append]
    rw [first]
    exact ⟨fun h => h.1.1, fun enough => ⟨⟨enough, second _⟩, last _ stack₂ pointer₂ enough⟩⟩
  · rw [Walk.once, Walk.trace, List.flatMap_singleton]
    simp only [List.forall_mem_append]
    rw [first]
    exact ⟨fun h => h.1.1.1, fun enough =>
      ⟨⟨⟨enough, second _⟩, third _⟩, last _ stack₃ pointer₃ enough⟩⟩
  · rw [Walk.trace, List.flatMap_singleton]
    simp only [List.forall_mem_append, List.forall_mem_singleton]
    rw [first]
    exact ⟨fun h => h.1.1.1, fun enough => ⟨⟨⟨enough, second _⟩, third _⟩, fourth _⟩⟩

variable {target : String → Int}

theorem charted_op {o : Op} {rest : Seq} (uses : o.UsesBelow frame.length)
    (later : Charted code instrs base stack sp a n frame target rest) :
    Charted code instrs base stack sp a n frame target (.op o rest) := by
  intro c p linked labelled s h hstack hpointer hsp low high offset height
  have len : (Seq.op o rest).bytes.length = o.bytes.length + rest.bytes.length :=
    List.length_append
  rw [len] at high
  rw [bodyItems, linked_append, CodeItems.ins, linked_map_ins, size_map_ins] at linked
  rw [bodyItems, labelled_append, CodeItems.ins, size_map_ins] at labelled
  have first := op_charts loaded base room uses linked.1 hstack hpointer hsp low (by omega) offset
    height
  refine (first.andThen (m := h + (Seq.op o rest).bytes.length)
    (g := Supplied frame rest) fun k low' high' keeps pointer => ?_).congr fun post => ?_
  · obtain ⟨stack', sp'⟩ := carry hstack hsp keeps
    exact (later linked.2 labelled.2 stack' pointer sp' low' (by omega) _ _).mono (by omega)
  · rw [Supplied]
    exact and_congr_right fun _ => ⟨fun h _ => h, fun h => h rfl⟩

theorem charted_div (htrap : target "preparelongjmp" = trap) (width : Width) (signed : Bool)
    {rest : Seq} (later : Charted code instrs base stack sp a n frame target rest) :
    Charted code instrs base stack sp a n frame target (.div width signed rest) := by
  intro c p linked labelled s h hstack hpointer hsp low high offset height
  have len : (Seq.div width signed rest).bytes.length = rest.bytes.length + 1 := rfl
  rw [len] at high
  rw [bodyItems, linked_append] at linked
  rw [bodyItems, labelled_append] at labelled
  have first := div_charts loaded base room (divAt_of_linked htrap linked.1 labelled.1) hstack
    hpointer low (by omega) offset height
  refine (first.andThen (m := h + (Seq.div width signed rest).bytes.length)
    (g := Supplied frame rest) fun k low' high' keeps pointer => ?_).congr fun post => ?_
  · obtain ⟨stack', sp'⟩ := carry hstack hsp keeps
    exact (later linked.2 labelled.2 stack' pointer sp' low' (by omega) _ _).mono (by omega)
  · obtain ⟨trapped, state⟩ := divWalk_divided base width signed offset height p s
    rw [Supplied, trapped, state]

omit loaded room in
/-- An arm of an `if`, with the step of the instruction that ends it. -/
theorem charted_arm {arm : Seq} (inArm : Charted code instrs base stack sp a n frame target arm)
    {c p : Nat} (linked : Linked link target instrs p (bodyItems frame c arm))
    (labelled : Labelled target p (bodyItems frame c arm)) {t : State} {k limit : Int}
    (hstack : t.x 20 = stack) (hpointer : t.x 21 = depth k) (hsp : t.sp = sp) (low : 0 ≤ k)
    (high : k + arm.bytes.length ≤ limit) (few : limit ≤ 1000) (offset : Nat) (height : Int)
    (v : State → Visit) (still : ∀ u, ∀ c ∈ (v u).trace, c.state = u)
    (inside : ∀ u, ∀ c ∈ (v u).trace, StaysIn code base stack c) :
    Charts code base stack a n limit t
      ((walk frame base arm offset height p t).andThen fun u => .once (v u) u)
      (Supplied frame arm t) := by
  refine (inArm linked labelled hstack hpointer hsp low (by omega) offset height).andThen
    (g := fun u post => post u) fun k' low' high' _ pointer => ?_
  exact (charts_pass low' pointer (still _) (inside _)).mono (by omega)

omit room in
theorem charted_ifThen (block : BlockType) {thn rest : Seq}
    (inThen : Charted code instrs base stack sp a n frame target thn)
    (later : Charted code instrs base stack sp a n frame target rest) :
    Charted code instrs base stack sp a n frame target (.ifThen block thn rest) := by
  intro c p linked labelled s h hstack hpointer hsp low high offset height
  have len : (Seq.ifThen block thn rest).bytes.length =
      thn.bytes.length + rest.bytes.length + 3 := by
    simp [Seq.bytes]
    omega
  rw [len] at high ⊢
  have parts := ifThenAt_of_linked linked labelled
  obtain ⟨disp, branch, -⟩ := parts.branch
  have first := test_charts (a := a) (n := n) loaded base parts.test branch hstack hpointer low
    (by omega) offset height
  rw [walk]
  refine (first.andThen (m := h + (thn.bytes.length + rest.bytes.length + 3))
    (g := fun t post => if (t.x 11).setWidth 32 = 0 then Supplied frame rest t post
      else Supplied frame thn t fun u => Supplied frame rest u post)
    fun k low' high' keeps pointer => ?_).congr fun post => ?_
  · obtain ⟨stack', sp'⟩ := carry hstack hsp keeps
    generalize (Walk.once _ (execAll testBlock s)).state = t at stack' sp' pointer ⊢
    refine (Charts.andThen (l := h + thn.bytes.length)
      (f := fun post => if (t.x 11).setWidth 32 = 0 then post t else Supplied frame thn t post)
      (g := Supplied frame rest) ?_ fun k' low'' high'' keeps' pointer' => ?_).congr
      fun post => ?_
    · by_cases zero : (t.x 11).setWidth 32 = 0
      · simp only [if_pos zero]
        exact (charts_nil low' pointer).mono (by omega)
      · simp only [if_neg zero]
        exact charted_arm base inThen parts.inThen parts.thenLabels stack' pointer sp' low'
          (by omega) (by omega) _ _ _ (by simp) (by simp)
    · obtain ⟨stack'', sp''⟩ := carry stack' sp' keeps'
      exact (later parts.inRest parts.restLabels stack'' pointer' sp'' low'' (by omega) _
        _).mono (by omega)
    · split_ifs <;> rfl
  · rw [Supplied]
    exact and_congr_right fun _ => ⟨fun h _ => h, fun h => h rfl⟩

omit room in
theorem charted_ifElse (block : BlockType) {thn els rest : Seq}
    (inThen : Charted code instrs base stack sp a n frame target thn)
    (inElse : Charted code instrs base stack sp a n frame target els)
    (later : Charted code instrs base stack sp a n frame target rest) :
    Charted code instrs base stack sp a n frame target (.ifElse block thn els rest) := by
  intro c p linked labelled s h hstack hpointer hsp low high offset height
  have len : (Seq.ifElse block thn els rest).bytes.length =
      thn.bytes.length + els.bytes.length + rest.bytes.length + 4 := by
    simp [Seq.bytes]
    omega
  rw [len] at high ⊢
  have parts := ifElseAt_of_linked linked labelled
  obtain ⟨disp, branch, -⟩ := parts.branch
  obtain ⟨disp', skip, -⟩ := parts.skip
  have first := test_charts (a := a) (n := n) loaded base parts.test branch hstack hpointer low
    (by omega) offset height
  rw [walk]
  refine (first.andThen
    (m := h + (thn.bytes.length + els.bytes.length + rest.bytes.length + 4))
    (g := fun t post => if (t.x 11).setWidth 32 = 0 then
        Supplied frame els t fun u => Supplied frame rest u post
      else Supplied frame thn t fun u => Supplied frame rest u post)
    fun k low' high' keeps pointer => ?_).congr fun post => ?_
  · obtain ⟨stack', sp'⟩ := carry hstack hsp keeps
    generalize (Walk.once _ (execAll testBlock s)).state = t at stack' sp' pointer ⊢
    refine (Charts.andThen (l := h + (thn.bytes.length + els.bytes.length))
      (f := fun post => if (t.x 11).setWidth 32 = 0 then Supplied frame els t post
        else Supplied frame thn t post)
      (g := Supplied frame rest) ?_ fun k' low'' high'' keeps' pointer' => ?_).congr
      fun post => ?_
    · by_cases zero : (t.x 11).setWidth 32 = 0
      · simp only [if_pos zero]
        exact charted_arm base inElse parts.inElse parts.elseLabels stack' pointer sp' low'
          (by omega) (by omega) _ _ _ (by simp) (by simp)
      · simp only [if_neg zero]
        refine charted_arm base inThen parts.inThen parts.thenLabels stack' pointer sp' low'
          (by omega) (by omega) _ _ _ (by simp) fun u c hc => ?_
        rw [List.mem_singleton] at hc
        subst hc
        exact staysIn_silent loaded base stack skip rfl _
    · obtain ⟨stack'', sp''⟩ := carry stack' sp' keeps'
      exact (later parts.inRest parts.restLabels stack'' pointer' sp'' low'' (by omega) _
        _).mono (by omega)
    · split_ifs <;> rfl
  · rw [Supplied]
    exact and_congr_right fun _ => ⟨fun h _ => h, fun h => h rfl⟩

/-- The induction follows `walk`. -/
theorem walk_charts (htrap : target "preparelongjmp" = trap) (seq : Seq)
    (uses : seq.UsesBelow frame.length) :
    Charted code instrs base stack sp a n frame target seq := by
  induction seq with
  | nil =>
    intro c p _ _ s h _ pointer _ low _ _ _
    exact (charts_nil low pointer).mono (by simp [Seq.bytes])
  | op o rest ih => exact charted_op loaded base room uses.1 (ih uses.2)
  | div width signed rest ih => exact charted_div loaded base room htrap width signed (ih uses)
  | ifThen block thn rest ihThn ihRest =>
    exact charted_ifThen loaded base block (ihThn uses.1) (ihRest uses.2)
  | ifElse block thn els rest ihThn ihEls ihRest =>
    exact charted_ifElse loaded base block (ihThn uses.1) (ihEls uses.2.1) (ihRest uses.2.2)

end

/-! ### The pointer -/

theorem testBlock_pointer {s : State} {h : Int} (pointer : s.x 21 = depth h) :
    (execAll testBlock s).x 21 = depth h := by
  obtain ⟨k, rfl, moved⟩ := (test_settles 0 0 pointer 0 0 0 0).pointer rfl
  exact moved

theorem divided_pointer {width : Width} {signed : Bool} {s : State} {h : Int}
    (pointer : s.x 21 = depth h) (through : (divided width signed s).trapped = false) :
    (divided width signed s).state.x 21 = depth (h - 1) := by
  have nothing : ∀ (b : BitVec 64) (k : Nat), Apart (0 : BitVec 64) 0 b k :=
    fun b k c inside => absurd inside (Nat.not_lt_zero _)
  have room : Room 0 0 (s.x 20) s.sp (h - 2) (h - 1) [] :=
    ⟨fun _ _ _ _ => nothing _ _, fun _ hs => absurd hs List.not_mem_nil⟩
  exact (div_kept room ⟨le_refl _, by omega⟩ rfl pointer width signed 0 0 0 0).2 through

end OperandSupply
