import TinyWasm.EarlyReturn

/-!
# Where the guards of a division lead

The guards of every division branch to one label, and only the first place it is
recorded at counts. With one division the branches of a body lead forward, but
for those to `preparelongjmp`, so a run passes each instruction at most once. Of
two divisions one has guards that lead to the other.
-/

namespace DivisionTargets

open HexText Wasm Emit ArmInstruction ByteMemory StepRuns ArmMachine BlockEffects LabelledCode
open LocalDeclarations SourceBody CodeItems StructuredRun CodeLayout BodyFrame CallStubs
open EntryRun ExitRun FunctionRun FunctionCall CallRun SourceSites EarlyReturn
open Validation

/-! ### The branches of a body -/

/-- Where an instruction at position `k` branches to, if it branches over a distance. -/
def branchTarget : Instr → Nat → Option Int
  | .b _ disp, k | .bCond _ disp, k => some (k + disp)
  | _, _ => none

theorem branchTarget_plain {i : Instr} (straight : plain i = true) (k : Nat) :
    branchTarget i k = none := by
  cases i with
  | b | bCond | br | ret | adr => cases straight
  | ldpStp | ldrStrImm | ldrStrReg | addSubImm | addSubShift | orrShift | movWide | csel | madd
  | div | nop => rfl

theorem branchTarget_link (kind : BranchKind) (disp : Int) (k : Nat) :
    branchTarget (link kind disp) k = some (k + disp) := by
  cases kind <;> rfl

theorem mem_ins {block : List Instr} {i : Instr} (h : .ins i ∈ CodeItems.ins block) :
    i ∈ block := by
  obtain ⟨j, inside, same⟩ := List.mem_map.mp h
  cases same
  exact inside

theorem plain_of_uses {rs : List Reg} {block : List Instr} (uses : Uses rs block) {i : Instr}
    (h : .ins i ∈ CodeItems.ins block) : plain i = true := (uses i (mem_ins h)).1

theorem div_plain {width : Width} {signed : Bool} {i : Instr}
    (h : .ins i ∈ divItems width signed) : plain i = true := by
  rw [divItems_split] at h
  simp only [List.mem_append, List.mem_cons, reduceCtorEq, false_or] at h
  rcases h with h | h | h | h
  · exact plain_of_uses (uses_zeroCheck width) h
  · exact plain_of_uses (uses_minusOneCheck width) h
  · exact plain_of_uses (uses_minimumCheck width) h
  · exact plain_of_uses (uses_quotient width signed) h

/-- Only jumps branch in the code of a body. -/
theorem body_plain {frame : Frame} {c : Nat} {seq : Seq} {i : Instr}
    (h : .ins i ∈ bodyItems frame c seq) : plain i = true := by
  have test : ∀ label, .ins i ∈ ifItems label → plain i = true := by
    intro label h
    rw [ifItems, List.mem_append] at h
    rcases h with h | h
    · exact plain_of_uses uses_testBlock h
    · simp at h
  induction seq generalizing c with
  | nil => exact absurd h List.not_mem_nil
  | op o rest ih =>
    rcases List.mem_append.mp h with h | h
    · exact plain_of_uses (uses_opBlock frame o) h
    · exact ih h
  | div width signed rest ih =>
    rcases List.mem_append.mp h with h | h
    · exact div_plain h
    · exact ih h
  | ifThen block thn rest ihThn ihRest =>
    simp only [bodyItems, List.mem_append, List.mem_cons, List.not_mem_nil, reduceCtorEq,
      or_false] at h
    rcases h with (h | h) | h
    · exact test _ h
    · exact ihThn h
    · exact ihRest h
  | ifElse block thn els rest ihThn ihEls ihRest =>
    simp only [bodyItems, List.mem_append, List.mem_cons, List.not_mem_nil, reduceCtorEq,
      or_false] at h
    rcases h with ((h | h) | h) | h
    · exact test _ h
    · exact ihThn h
    · exact ihEls h
    · exact ihRest h

/-- Where the guards of a division whose code is at `p` stand, and the division itself. -/
def firstGuard (width : Width) (p : Nat) : Nat :=
  p + (zeroCheck width).length + 1 + (minusOneCheck width).length

def secondGuard (width : Width) (p : Nat) : Nat :=
  firstGuard width p + 1 + (minimumCheck width).length

def quotientPlace (width : Width) (p : Nat) : Nat := secondGuard width p + 2

theorem div_jumps (width : Width) (signed : Bool) (p : Nat) :
    jumps p (divItems width signed) =
      [("preparelongjmp", p + (zeroCheck width).length, .beq),
        ("normal_div", firstGuard width p, .bne), ("normal_div", secondGuard width p, .bne),
        ("preparelongjmp", secondGuard width p + 1, .b)] := by
  rw [divItems_split]
  simp only [jumps_append, jumps, CodeItems.ins, jumps_map_ins, size_map_ins, List.nil_append]
  rfl

theorem div_labels (width : Width) (signed : Bool) (p : Nat) :
    labels p (divItems width signed) = [("normal_div", quotientPlace width p)] := by
  rw [divItems_split]
  simp only [labels_append, labels, CodeItems.ins, labels_map_ins, size_map_ins, List.nil_append]
  rfl

theorem div_places (width : Width) (signed : Bool) (p : Nat) :
    p ≤ firstGuard width p ∧ secondGuard width p < quotientPlace width p ∧
      quotientPlace width p < p + size (divItems width signed) ∧
      firstGuard width p < secondGuard width p := by
  have some : 0 < (quotient width signed).length := by simp [quotient]
  rw [size_divItems, quotientPlace, secondGuard, firstGuard]
  omega

section
variable {target : String → Int}

theorem div_forward {width : Width} {signed : Bool} {p : Nat}
    (labelled : Labelled target p (divItems width signed)) {l : String} {k : Nat}
    {kind : BranchKind} (h : (l, k, kind) ∈ jumps p (divItems width signed)) :
    l = "preparelongjmp" ∨ (k : Int) < target l := by
  have here : target "normal_div" = quotientPlace width p :=
    (labelled_iff target).mp labelled _ _ (by rw [div_labels]; exact List.mem_singleton.mpr rfl)
  obtain ⟨-, behind, -, order⟩ := div_places width signed p
  rw [div_jumps] at h
  simp only [List.mem_cons, Prod.mk.injEq, List.not_mem_nil, or_false] at h
  rcases h with ⟨rfl, -⟩ | ⟨rfl, rfl, -⟩ | ⟨rfl, rfl, -⟩ | ⟨rfl, -⟩
  · exact Or.inl rfl
  · refine Or.inr ?_
    omega
  · refine Or.inr ?_
    omega
  · exact Or.inl rfl

/-- With every label where it stands, the branches lead forward, but for those to the trap. -/
theorem jumps_forward {frame : Frame} {c p : Nat} {seq : Seq}
    (labelled : Labelled target p (bodyItems frame c seq)) {l : String} {k : Nat}
    {kind : BranchKind} (h : (l, k, kind) ∈ jumps p (bodyItems frame c seq)) :
    l = "preparelongjmp" ∨ (k : Int) < target l := by
  induction seq generalizing c p with
  | nil => exact absurd h List.not_mem_nil
  | op o rest ih =>
    rw [bodyItems, labelled_append] at labelled
    rw [bodyItems, jumps_append, CodeItems.ins, jumps_map_ins, List.nil_append] at h
    exact ih labelled.2 h
  | div width signed rest ih =>
    rw [bodyItems, labelled_append] at labelled
    rw [bodyItems, jumps_append, List.mem_append] at h
    rcases h with h | h
    · exact div_forward labelled.1 h
    · exact ih labelled.2 h
  | ifThen block thn rest ihThn ihRest =>
    rw [items_ifThen] at labelled h
    simp only [labelled_append, Labelled, CodeItems.ins, size_map_ins] at labelled
    simp only [jumps_append, jumps, CodeItems.ins, jumps_map_ins, size_map_ins, List.nil_append,
      List.mem_cons, List.mem_append, Prod.mk.injEq] at h
    obtain ⟨-, thenLabels, here, restLabels⟩ := labelled
    rcases h with ⟨rfl, rfl, -⟩ | h | h
    · refine Or.inr ?_
      omega
    · exact ihThn thenLabels h
    · exact ihRest restLabels h
  | ifElse block thn els rest ihThn ihEls ihRest =>
    rw [items_ifElse] at labelled h
    simp only [labelled_append, Labelled, CodeItems.ins, size_map_ins] at labelled
    simp only [jumps_append, jumps, CodeItems.ins, jumps_map_ins, size_map_ins, List.nil_append,
      List.mem_cons, List.mem_append, Prod.mk.injEq] at h
    obtain ⟨-, thenLabels, elseHere, elseLabels, endHere, restLabels⟩ := labelled
    rcases h with ⟨rfl, rfl, -⟩ | h | ⟨rfl, rfl, -⟩ | h | h
    · refine Or.inr ?_
      omega
    · exact ihThn thenLabels h
    · refine Or.inr ?_
      omega
    · exact ihEls elseLabels h
    · exact ihRest restLabels h

end

/-! ### The divisions of a body -/

/-- The piece is part of the items, whose code begins at `p`, and stands at position `k`. -/
def PartAt (piece : List CodeItem) (k p : Nat) (items : List CodeItem) : Prop :=
  ∃ before after, items = before ++ (piece ++ after) ∧ p + size before = k

section
variable {piece items : List CodeItem} {k p q : Nat}

theorem PartAt.behind {front : List CodeItem} (h : PartAt piece k q items)
    (here : p + size front = q) : PartAt piece k p (front ++ items) := by
  obtain ⟨before, after, split, place⟩ := h
  refine ⟨front ++ before, after, ?_, ?_⟩
  · rw [split, List.append_assoc]
  · rw [size_append, ← Nat.add_assoc, here, place]

theorem PartAt.ahead (h : PartAt piece k p items) (later : List CodeItem) :
    PartAt piece k p (items ++ later) := by
  obtain ⟨before, after, split, place⟩ := h
  exact ⟨before, after ++ later, by simp only [split, List.append_assoc], place⟩

theorem PartAt.linked {target : String → Int} {instrs : List Instr} (h : PartAt piece k p items)
    (linked : Linked link target instrs p items) : Linked link target instrs k piece := by
  obtain ⟨before, after, split, place⟩ := h
  rw [split, linked_append, linked_append, place] at linked
  exact linked.2.1

theorem PartAt.labelled {target : String → Int} (h : PartAt piece k p items)
    (labelled : Labelled target p items) : Labelled target k piece := by
  obtain ⟨before, after, split, place⟩ := h
  rw [split, labelled_append, labelled_append, place] at labelled
  exact labelled.2.1

end

/-- The code of a division stands where its site is. -/
theorem site_items {frame : Frame} {seq : Seq} {c offset place : Nat} {site : Site} {width : Width}
    {signed : Bool} (hs : site ∈ sites frame seq offset place)
    (isDiv : site.source = .div width signed) :
    site.length = size (divItems width signed) ∧
      PartAt (divItems width signed) site.place place (bodyItems frame c seq) := by
  have test : ∀ label, size (ifItems label) = testBlock.length + 1 := fun _ => rfl
  induction seq generalizing c offset place with
  | nil => exact absurd hs List.not_mem_nil
  | op o rest ih =>
    rcases List.mem_cons.mp hs with rfl | hs
    · cases isDiv
    · obtain ⟨len, part⟩ := ih (c := c) hs
      exact ⟨len, part.behind (by rw [CodeItems.ins, size_map_ins])⟩
  | div width' signed' rest ih =>
    rcases List.mem_cons.mp hs with rfl | hs
    · cases isDiv
      exact ⟨rfl, [], bodyItems frame c rest, rfl, rfl⟩
    · obtain ⟨len, part⟩ := ih (c := c) hs
      exact ⟨len, part.behind rfl⟩
  | ifThen block thn rest ihThn ihRest =>
    have same := bodyItems_size_eq frame (c + 1) 0 thn
    rcases List.mem_cons.mp hs with rfl | hs
    · cases isDiv
    rcases List.mem_append.mp hs with hs | hs
    · obtain ⟨len, part⟩ := ihThn (c := c + 1) hs
      exact ⟨len, ((part.behind (by rw [test])).ahead _).ahead _⟩
    rcases List.mem_cons.mp hs with rfl | hs
    · cases isDiv
    · obtain ⟨len, part⟩ := ihRest (c := c + 1 + thn.labelsUsed) hs
      refine ⟨len, part.behind ?_⟩
      simp only [size_append, test, same, size_cons, size_nil, Item.size_label]
      omega
  | ifElse block thn els rest ihThn ihEls ihRest =>
    have sameThen := bodyItems_size_eq frame (c + 1) 0 thn
    have sameElse := bodyItems_size_eq frame (c + 2 + thn.labelsUsed) 0 els
    rcases List.mem_cons.mp hs with rfl | hs
    · cases isDiv
    rcases List.mem_append.mp hs with hs | hs
    · obtain ⟨len, part⟩ := ihThn (c := c + 1) hs
      exact ⟨len, ((((part.behind (by rw [test])).ahead _).ahead _).ahead _).ahead _⟩
    rcases List.mem_cons.mp hs with rfl | hs
    · cases isDiv
    rcases List.mem_append.mp hs with hs | hs
    · obtain ⟨len, part⟩ := ihEls (c := c + 2 + thn.labelsUsed) hs
      refine ⟨len, ((part.behind ?_).ahead _).ahead _⟩
      simp only [size_append, test, sameThen, size_cons, size_nil, Item.size_label, Item.size_jump]
      omega
    rcases List.mem_cons.mp hs with rfl | hs
    · cases isDiv
    · obtain ⟨len, part⟩ := ihRest (c := c + 2 + thn.labelsUsed + els.labelsUsed) hs
      refine ⟨len, part.behind ?_⟩
      simp only [size_append, test, sameThen, sameElse, size_cons, size_nil, Item.size_label,
        Item.size_jump]
      omega

/-- The source instruction is a division. -/
def isDivision : Source → Bool
  | .div _ _ => true
  | _ => false

@[simp] theorem isDivision_op (o : Op) : isDivision (.op o) = false := rfl
@[simp] theorem isDivision_div (width : Width) (signed : Bool) :
    isDivision (.div width signed) = true := rfl
@[simp] theorem isDivision_ifOp (block : BlockType) : isDivision (.ifOp block) = false := rfl
@[simp] theorem isDivision_elseOp : isDivision .elseOp = false := rfl
@[simp] theorem isDivision_endOp : isDivision .endOp = false := rfl

theorem divisions_eq (frame : Frame) (seq : Seq) (offset place : Nat) :
    ((sites frame seq offset place).filter fun site => isDivision site.source).length =
      seq.divisions := by
  induction seq generalizing offset place with
  | nil => rfl
  | op o rest ih => simp [sites, Seq.divisions, ih]
  | div width signed rest ih =>
    rw [sites, List.filter_cons_of_pos (by rfl), List.length_cons, ih, Seq.divisions, Nat.add_comm]
  | ifThen block thn rest ihThn ihRest =>
    simp [sites, Seq.divisions, List.filter_append, ihThn, ihRest]
  | ifElse block thn els rest ihThn ihEls ihRest =>
    simp [sites, Seq.divisions, List.filter_append, ihThn, ihEls, ihRest, Nat.add_assoc]

theorem tiles_ordered {l : List Site} {p q : Nat} (h : Tiles l p q) :
    l.Pairwise fun a b => a.place + a.length ≤ b.place := by
  induction h with
  | nil => exact .nil
  | cons site later ih => exact .cons (fun other inside => (later.bounds inside).1) ih

/-- Where a body has two divisions, they have sites of their own. -/
theorem two_sites {frame : Frame} {seq : Seq} {place : Nat} (two : 2 ≤ seq.divisions) :
    ∃ first second, first ∈ sites frame seq 0 place ∧ second ∈ sites frame seq 0 place ∧
      isDivision first.source = true ∧ isDivision second.source = true ∧
      first.place + first.length ≤ second.place := by
  have ordered := tiles_ordered (sites_tile frame seq 0 place)
  have count := divisions_eq frame seq 0 place
  have kept := ordered.filter fun site => isDivision site.source
  rcases hl : (sites frame seq 0 place).filter fun site => isDivision site.source with
    _ | ⟨first, _ | ⟨second, others⟩⟩
  · rw [hl, List.length_nil] at count
    omega
  · rw [hl, List.length_singleton] at count
    omega
  · have isFirst : first ∈ (sites frame seq 0 place).filter _ := hl ▸ List.mem_cons_self
    have isSecond : second ∈ (sites frame seq 0 place).filter _ :=
      hl ▸ List.mem_cons_of_mem _ List.mem_cons_self
    rw [List.mem_filter] at isFirst isSecond
    rw [hl] at kept
    exact ⟨first, second, isFirst.1, isSecond.1, isFirst.2, isSecond.2,
      List.rel_of_pairwise_cons kept List.mem_cons_self⟩

theorem isDivision_iff {source : Source} :
    isDivision source = true ↔ ∃ width signed, source = .div width signed := by
  cases source <;> simp [isDivision]

/-! ### The guards in the code -/

def instrAt (code : List Word) (k : Nat) : Option Instr := code[k]?.bind decode

theorem instrAt_eq {code : List Word} {instrs : List Instr} (loaded : Loaded code instrs)
    (k : Nat) : instrAt code k = instrs[k]? := by
  have both : (code.map decode)[k]? = (instrs.map some)[k]? := by rw [loaded.decoded]
  rw [List.getElem?_map, List.getElem?_map] at both
  rw [instrAt]
  cases hc : code[k]? with
  | none =>
    rw [hc, Option.map_none] at both
    exact (Option.map_eq_none_iff.mp both.symm).symm
  | some w =>
    rw [hc, Option.map_some] at both
    obtain ⟨i, here, same⟩ := Option.map_eq_some_iff.mp both.symm
    rw [here]
    exact same.symm

section
variable (params locals results : List wasm_type) (body : Seq)

/-- The code of the body stands at position `k`. -/
def InBody (k : Nat) : Prop :=
  functionStart params + bodyStart params locals ≤ k ∧
    k < functionStart params + bodyEnd params locals body

/-- Each guard leads to its own division; the branches of the body lead forward, but for those to
`preparelongjmp`; and a run passes the code of the body forward and leaves it. -/
structure KeepsTargets (code : List Word) : Prop where
  own : ∀ site ∈ bodySites params locals body, ∀ width signed, site.source = .div width signed →
    ∀ k disp, site.Holds k → instrAt code k = some (.bCond 0b0001 disp) →
      ∃ q : Nat, (k : Int) + disp = q ∧ site.Holds q ∧
        instrAt code q = some (.div signed width 11 12 11)
  forward : ∀ k i q, InBody params locals body k → instrAt code k = some i →
    branchTarget i k = some q → (k : Int) < q ∨ q = trapStart params
  ascends : ∀ base s trace c,
    Run (step code base) ⟨addr base (functionStart params + bodyStart params locals), s⟩ trace c →
      StepsIn base (InBody params locals body) trace →
      Ascends base (functionStart params + bodyStart params locals)
        (functionStart params + bodyEnd params locals body) trace
  leaves : ∀ base s, ∃ trace q t,
    Run (step code base) ⟨addr base (functionStart params + bodyStart params locals), s⟩ trace
      ⟨addr base q, t⟩ ∧
      (q = functionStart params + bodyEnd params locals body ∨ q = trapStart params)

/-- A call comes to the `ret` of its function, and passes no code of the body twice on its way. -/
structure RunsOnce (code : List Word) (base : BitVec 64) (s : State) : Prop where
  ends : ∃ trace t, Run (step code base) ⟨base, s⟩ trace
    ⟨addr base (returnPlace params locals results body), t⟩
  once : ∀ trace c, Run (step code base) ⟨base, s⟩ trace c →
    ¬ Passes base (returnPlace params locals results body) trace →
    ∀ k, InBody params locals body k → (trace.map Config.pc).count (addr base k) ≤ 1

/-- The body has no division, or what `setjmp` saves at the buffer register is apart from what the
function writes, with the registers as the argument loads leave them. -/
def Undisturbed (s : State) : Prop :=
  body.divisions = 0 ∨ ∃ lo hi, StoresIn lo hi body 0 (fun _ => True) ∧
    (atEntry params s).x 21 = 0 ∧ BufferApart params locals lo hi (atEntry params s)

end

section
variable {code : List Word} {instrs : List Instr} {params locals results : List wasm_type}
  {body : Seq} (emitted : Emitted code instrs params locals results body)
include emitted

theorem site_linked {site : Site} (hs : site ∈ bodySites params locals body) {width : Width}
    {signed : Bool} (isDiv : site.source = .div width signed) :
    site.length = size (divItems width signed) ∧
      Linked link (labelTarget params locals results body) instrs site.place
        (divItems width signed) := by
  obtain ⟨len, part⟩ := site_items (c := 0) hs isDiv
  exact ⟨len, part.linked (body_of_linked emitted.linked).1⟩

/-- The first guard of a division leads wherever the label is taken to be. -/
theorem first_guard {site : Site} (hs : site ∈ bodySites params locals body) {width : Width}
    {signed : Bool} (isDiv : site.source = .div width signed) :
    site.Holds (firstGuard width site.place) ∧
      instrAt code (firstGuard width site.place) = some (.bCond 0b0001
        (labelTarget params locals results body "normal_div" - firstGuard width site.place)) := by
  obtain ⟨len, linked⟩ := site_linked emitted hs isDiv
  obtain ⟨low, -, high, order⟩ := div_places width signed site.place
  refine ⟨⟨low, ?_⟩, ?_⟩
  · rw [len]
    rw [quotientPlace] at high
    omega
  · rw [instrAt_eq emitted.loaded]
    have isJump : ("normal_div", firstGuard width site.place, BranchKind.bne) ∈
        jumps site.place (divItems width signed) := by simp [div_jumps]
    exact linked_jump link _ linked isJump

/-- Of two divisions one has a guard that leads to the other. -/
theorem once_of_own
    (own : ∀ site ∈ bodySites params locals body, ∀ width signed, site.source = .div width signed →
      ∀ k disp, site.Holds k → instrAt code k = some (.bCond 0b0001 disp) →
        ∃ q : Nat, (k : Int) + disp = q ∧ site.Holds q ∧
          instrAt code q = some (.div signed width 11 12 11)) : body.divisions ≤ 1 := by
  by_contra many
  obtain ⟨first, second, hf, hs, isFirst, isSecond, apart⟩ : ∃ first second,
      first ∈ bodySites params locals body ∧ second ∈ bodySites params locals body ∧ _ :=
    two_sites (Nat.lt_of_not_le many)
  obtain ⟨w₁, sg₁, isFirst⟩ := isDivision_iff.mp isFirst
  obtain ⟨w₂, sg₂, isSecond⟩ := isDivision_iff.mp isSecond
  obtain ⟨holds₁, guard₁⟩ := first_guard emitted hf isFirst
  obtain ⟨holds₂, guard₂⟩ := first_guard emitted hs isSecond
  obtain ⟨q₁, target₁, in₁, -⟩ := own first hf w₁ sg₁ isFirst _ _ holds₁ guard₁
  obtain ⟨q₂, target₂, in₂, -⟩ := own second hs w₂ sg₂ isSecond _ _ holds₂ guard₂
  obtain ⟨low₁, high₁⟩ := in₁
  obtain ⟨low₂, high₂⟩ := in₂
  omega

section
variable (once : body.divisions ≤ 1)
include once

/-- With one division, its guards lead to it. -/
theorem own_of_once {site : Site} (hs : site ∈ bodySites params locals body) {width : Width}
    {signed : Bool} (isDiv : site.source = .div width signed) {k : Nat} {disp : Int}
    (holds : site.Holds k) (guard : instrAt code k = some (.bCond 0b0001 disp)) :
    ∃ q : Nat, (k : Int) + disp = q ∧ site.Holds q ∧
      instrAt code q = some (.div signed width 11 12 11) := by
  have layout := layout_of_placed (emitted.callable once).placed
  obtain ⟨len, linked⟩ := site_linked emitted hs isDiv
  have labelled := (site_items (c := 0) hs isDiv).2.labelled layout.labelled
  have here :
      labelTarget params locals results body "normal_div" = quotientPlace width site.place :=
    (labelled_iff _).mp labelled _ _ (by rw [div_labels]; exact List.mem_singleton.mpr rfl)
  have quotient := (divAt_of_linked layout.trap linked labelled).quotient 0 _ rfl
  obtain ⟨start, behind, inside, order⟩ := div_places width signed site.place
  obtain ⟨low, high⟩ := holds
  rw [instrAt_eq emitted.loaded] at guard
  have target : (k : Int) + disp = quotientPlace width site.place := by
    rcases linked_at link _ linked low (by rwa [← len]) with ⟨i, isIns, found⟩ | ⟨l, kind, isJump⟩
    · rw [guard] at found
      cases found
      exact absurd (div_plain isIns) Bool.false_ne_true
    · have found := linked_jump link _ linked isJump
      rw [guard] at found
      simp only [div_jumps, List.mem_cons, Prod.mk.injEq, List.not_mem_nil, or_false] at isJump
      rcases isJump with ⟨rfl, -, rfl⟩ | ⟨rfl, -, rfl⟩ | ⟨rfl, -, rfl⟩ | ⟨rfl, -, rfl⟩
      · cases found
      · cases found
        omega
      · cases found
        omega
      · cases found
  refine ⟨_, target, ⟨?_, ?_⟩, ?_⟩
  · omega
  · omega
  · rw [instrAt_eq emitted.loaded]
    exact quotient

theorem forward_of_once {k : Nat} {i : Instr} {q : Int} (holds : InBody params locals body k)
    (here : instrAt code k = some i) (branch : branchTarget i k = some q) :
    (k : Int) < q ∨ q = trapStart params := by
  have layout := layout_of_placed (emitted.callable once).placed
  rw [instrAt_eq emitted.loaded] at here
  obtain ⟨low, high⟩ := holds
  have ended : bodyEnd params locals body =
      bodyStart params locals + size (bodyItems (frameOf params locals) 0 body) := rfl
  rcases linked_at link _ layout.linked low (by rw [functionStart] at high; omega) with
    ⟨j, isIns, found⟩ | ⟨l, kind, isJump⟩
  · cases here.symm.trans found
    rw [branchTarget_plain (body_plain isIns)] at branch
    cases branch
  · have found := linked_jump link _ layout.linked isJump
    cases here.symm.trans found
    rw [branchTarget_link] at branch
    cases branch
    rcases jumps_forward layout.labelled isJump with rfl | forward
    · rw [layout.trap]
      refine Or.inr ?_
      rw [trapStart, functionStart]
      omega
    · refine Or.inl ?_
      omega

/-- The run through the body, from any state. -/
theorem run_walk (base : BitVec 64) (s : State) : ∃ w : Walk,
    Run (step code base) ⟨addr base (functionStart params + bodyStart params locals), s⟩ w.trace
        ⟨addr base (if w.trapped then trapStart params
          else functionStart params + bodyEnd params locals body), w.state⟩ ∧
      Ascends base (functionStart params + bodyStart params locals)
        (functionStart params + bodyEnd params locals body) w.trace := by
  have layout := layout_of_placed (emitted.callable once).placed
  have run :=
    walk_follows emitted.loaded base layout.trap _ body layout.linked layout.labelled 0 0 s
  have ascends := walk_ascends (frameOf params locals) base body 0 0
    (functionStart params + bodyStart params locals) s
  have ended : functionStart params + bodyEnd params locals body =
      functionStart params + bodyStart params locals +
        size (bodyItems (frameOf params locals) 0 body) := (Nat.add_assoc _ _ _).symm
  rw [ended]
  exact ⟨_, run, ascends⟩

theorem ascends_of_once {base : BitVec 64} {s : State} {trace : List Config} {c : Config}
    (run : Run (step code base)
      ⟨addr base (functionStart params + bodyStart params locals), s⟩ trace c)
    (inside : StepsIn base (InBody params locals body) trace) :
    Ascends base (functionStart params + bodyStart params locals)
      (functionStart params + bodyEnd params locals body) trace := by
  obtain ⟨w, whole, ascends⟩ := run_walk emitted once base s
  have far := finalize_small (emitted.callable once)
  have finish : finalizeStart params locals body = bodyEnd params locals body + 2 := rfl
  have start : bodyStart params locals = 32 + (1 + params.length + locals.length) + 6 := rfl
  have outside : ¬ ∃ k, InBody params locals body k ∧ addr base (if w.trapped then trapStart params
      else functionStart params + bodyEnd params locals body) = addr base k := by
    rintro ⟨k, ⟨low, high⟩, same⟩
    split_ifs at same
    · have := addr_injective (by rw [trapStart]; omega) (by omega) same
      rw [trapStart] at this
      omega
    · have := addr_injective (by omega) (by omega) same
      omega
  obtain ⟨rest, split⟩ := run.part_of_exit
    (P := fun d : Config => ∃ k, InBody params locals body k ∧ d.pc = addr base k) inside whole
    outside
  rw [split] at ascends
  exact ascends.front

theorem keeps_of_once : KeepsTargets params locals body code := by
  constructor
  · intro site hs width signed isDiv k disp holds guard
    exact own_of_once emitted once hs isDiv holds guard
  · intro k i q holds here branch
    exact forward_of_once emitted once holds here branch
  · intro base s trace c run inside
    exact ascends_of_once emitted once run inside
  · intro base s
    obtain ⟨w, run, -⟩ := run_walk emitted once base s
    refine ⟨_, _, _, run, ?_⟩
    split_ifs
    · exact Or.inr rfl
    · exact Or.inl rfl

end

end

/-! ### A whole call -/

theorem ascends_count {base : BitVec 64} {p q k : Nat} {trace : List Config}
    (h : Ascends base p q trace) (far : q ≤ 2 ^ 62) :
    (trace.map Config.pc).count (addr base k) ≤ 1 := by
  obtain ⟨ks, places, order, bounds⟩ := h
  have distinct : (ks.map (addr base)).Nodup := by
    refine List.pairwise_map.mpr (order.imp_of_mem fun {i j} hi hj less same => ?_)
    have := bounds i hi
    have := bounds j hj
    have := addr_injective (by omega) (by omega) same
    omega
  rw [places]
  exact List.nodup_iff_count_le_one.mp distinct _

theorem count_outside {base : BitVec 64} {P : Nat → Prop} {trace : List Config} {j : Nat}
    (h : StepsIn base P trace) (small : ∀ k, P k → k < 2 ^ 62) (hj : j < 2 ^ 62)
    (outside : ¬ P j) : (trace.map Config.pc).count (addr base j) = 0 := by
  refine List.count_eq_zero.mpr fun inside => ?_
  obtain ⟨c, hc, here⟩ := List.mem_map.mp inside
  exact not_passes h small hj outside ⟨c, hc, here⟩

theorem count_block (base : BitVec 64) (block : List Instr) {p j : Nat} (s : State)
    (far : p + block.length ≤ 2 ^ 62) (hj : j < 2 ^ 62) (outside : j < p ∨ p + block.length ≤ j) :
    ((blockTrace base p block s).map Config.pc).count (addr base j) = 0 :=
  count_outside (ascends_block base p block s).steps (fun k hk => by omega) hj (by omega)

section
variable {code : List Word} {instrs : List Instr} {target : String → Int}
  {params locals results : List wasm_type} {body : Seq}
  (callable : Callable code instrs target params locals results body) (base : BitVec 64) (s : State)

/-- The steps of a call up to its `ret`. -/
def wayOut (params locals results : List wasm_type) (body : Seq) (base : BitVec 64) (s : State) :
    List Config :=
  blockTrace base 0 (argumentBlock params) s ++
    (entryTrace params locals base (functionStart params) (atEntry params s) ++
      (callWalk params locals body base s).trace ++
      exitTrace params locals body base (functionStart params)
          (callWalk params locals body base s) ++
      blockTrace base (functionStart params + finalizeStart params locals body)
        (leaveBlock params locals results) (exitState (callWalk params locals body base s)))

include callable

/-- Only the walk through the body passes its code. -/
theorem wayOut_count {k : Nat} (inside : InBody params locals body k) :
    ((wayOut params locals results body base s).map Config.pc).count (addr base k) ≤ 1 := by
  have far := finalize_small callable
  have finish : finalizeStart params locals body = bodyEnd params locals body + 2 := rfl
  have ended : bodyEnd params locals body =
      bodyStart params locals + size (bodyItems (frameOf params locals) 0 body) := rfl
  have start : bodyStart params locals = wrapperStart params locals + 6 := rfl
  have wrapper : wrapperStart params locals = 32 + (1 + params.length + locals.length) := rfl
  obtain ⟨low, high⟩ := inside
  have loads := count_block base (argumentBlock params) (p := 0) (j := k) s
    (by rw [← functionStart]; omega) (by omega) (Or.inr (by rw [← functionStart]; omega))
  have entry := count_outside (entryTrace_steps params locals base (functionStart params)
    (atEntry params s)) (j := k) (fun k hk => by omega) (by omega) (by omega)
  have walked : ((callWalk params locals body base s).trace.map Config.pc).count (addr base k) ≤
      1 := ascends_count (walk_ascends (frameOf params locals) base body 0 0
        (functionStart params + bodyStart params locals) _) (by omega)
  have exit : ((exitTrace params locals body base (functionStart params)
      (callWalk params locals body base s)).map Config.pc).count (addr base k) = 0 := by
    rw [exitTrace]
    split_ifs
    · exact count_outside (trapTrace_steps params locals base _ _) (fun k hk => by omega)
        (by omega) (by omega)
    · have two : (returnCode 0).length = 2 := rfl
      exact count_block base _ _ (by omega) (by omega) (Or.inl (by omega))
  have leave := count_block base (leaveBlock params locals results)
    (p := functionStart params + finalizeStart params locals body) (j := k)
    (exitState (callWalk params locals body base s)) (by omega) (by omega) (Or.inl (by omega))
  simp only [wayOut, List.map_append, List.count_append]
  omega

variable (area : (callWalk params locals body base s).trapped = true →
  ∃ h, Holds ((callWalk params locals body base s).state.x 19)
    (callWalk params locals body base s).state.mem h ∧
    h.x 30 = returnAddress params locals base (functionStart params))
include area

theorem run_wayOut : ∃ t, Run (step code base) ⟨base, s⟩
    (wayOut params locals results body base s)
    ⟨addr base (returnPlace params locals results body), t⟩ := by
  have loaded := callable.placed.loaded
  have layout := layout_of_placed callable.placed
  have loads := run_block loaded base callable.loads
    (fun i hi => (argumentBlock_plain params i hi).1) s
  rw [addr_zero, Nat.zero_add] at loads
  have body := (run_body loaded base layout callable.small (atEntry params s)).append
    (run_exit loaded base layout area)
  exact ⟨_, loads.append (body.append (run_epilogue loaded base layout _))⟩

/-- Every run up to the `ret` is a part of the one that comes to it. -/
theorem runsOnce : RunsOnce params locals results body code base s := by
  obtain ⟨t, whole⟩ := run_wayOut callable base s area
  refine ⟨⟨_, t, whole⟩, fun trace c run outside k inside => ?_⟩
  obtain ⟨rest, split⟩ := run.part_of_exit
    (P := fun d : Config => d.pc ≠ addr base (returnPlace params locals results body))
    (fun d hd here => outside ⟨d, hd, here⟩) whole fun other => other rfl
  have count := wayOut_count callable base s inside
  rw [split, List.map_append, List.count_append] at count
  omega

end

section
variable {code : List Word} {instrs : List Instr} {target : String → Int}
  {params locals results : List wasm_type} {body : Seq}
  (callable : Callable code instrs target params locals results body)

include callable

theorem runsOnce_of_undisturbed (base : BitVec 64) {s : State}
    (undisturbed : Undisturbed params locals body s) :
    RunsOnce params locals results body code base s := by
  refine runsOnce callable base s fun trapped => ?_
  rcases undisturbed with none | ⟨lo, hi, inside, empty, apart⟩
  · rw [callWalk, bodyWalk, walk_through _ base none] at trapped
    cases trapped
  · have kept := bodyWalk_kept callable.small callable.uses inside empty base
      (functionStart params) apart
    exact trap_area callable.small apart.stack kept trapped

end

/-- The guards of a body lead where they should exactly when it has at most one division; then a
call whose memory is apart passes the body once. -/
theorem keepsTargets_iff {params results : List wasm_type} {groups : List Group} {body : Seq}
    {order : WasmFunction.VisitOrder} {g : WasmFunction}
    (size_byte : BranchFixup.bodySize groups body ≤ 255)
    (done : funcSingleProcess (delivered params results groups body) order = .ok g) :
    ∃ code, loadWords (full_instructions g) = .ok code ∧
      let locals := groups.flatMap groupLocals
      (KeepsTargets params locals body code ↔ body.divisions ≤ 1) ∧
      (params.length ≤ 19 →
        ((KeepsTargets params locals body code ∧ ∀ base lo hi s,
          StoresIn lo hi body 0 (fun _ => True) → Arranged code base params locals lo hi s →
            RunsOnce params locals results body code base s) ↔ body.divisions ≤ 1)) ∧
      (body.divisions ≤ 1 → ∀ base s, Undisturbed params locals body s →
        RunsOnce params locals results body code base s) := by
  obtain ⟨code, instrs, loads, emitted, ints, -⟩ := emitted_of_funcSingleProcess size_byte done
  refine ⟨code, loads, ?_⟩
  intro locals
  have static : KeepsTargets params locals body code ↔ body.divisions ≤ 1 :=
    ⟨fun keeps => once_of_own emitted keeps.own, fun once => keeps_of_once emitted once⟩
  refine ⟨static, fun few => ⟨fun both => static.mp both.1, fun once => ⟨static.mpr once, ?_⟩⟩,
    fun once base s => runsOnce_of_undisturbed (emitted.callable once) base⟩
  intro base lo hi s inside arranged
  exact runsOnce_of_undisturbed (emitted.callable once) base
    (Or.inr ⟨lo, hi, inside, (atEntry_eq few ints s).2.2.1,
      bufferApart_of_arranged few ints arranged⟩)

/-- `i32.const 1; i32.const 1`, and what follows. -/
def twoOnes (rest : Seq) : Seq := .op (.i32const 1) (.op (.i32const 1) rest)

/-- A division of ones, called with its memory spread out. -/
theorem keepsTargets_single : ∃ g code,
    funcSingleProcess (delivered [] [.i32 0] [] (twoOnes (.div .w true .nil)))
        BranchFixup.inOrder = .ok g ∧ loadWords (full_instructions g) = .ok code ∧
      KeepsTargets [] [] (twoOnes (.div .w true .nil)) code ∧
      RunsOnce [] [] [.i32 0] (twoOnes (.div .w true .nil)) code 0x100000 sampleCall := by
  obtain ⟨g, done⟩ := BranchFixup.ok_of_isOk (show (funcSingleProcess
    (delivered [] [.i32 0] [] (twoOnes (.div .w true .nil))) BranchFixup.inOrder).isOk = true by
      decide +kernel)
  obtain ⟨code', instrs, target, loads', callable, -⟩ :=
    callable_of_funcSingleProcess (by decide) (by decide) done
  obtain ⟨code, loads, -, runs, -⟩ := keepsTargets_iff (by decide) done
  cases loads'.symm.trans loads
  have arranged := sampleCall_arranged callable.small callable.placed.loaded.short
    (s := sampleCall) ⟨rfl, rfl, rfl⟩ rfl
  obtain ⟨keeps, once⟩ := (runs (by decide)).mpr (by decide)
  refine ⟨g, _, done, loads, keeps, once _ 0 1024 _ ?_ arranged⟩
  simp [twoOnes, StoresIn, Op.pushes, Op.effect]

/-- `i32.const 1; i32.const 1; i32.div_s; i32.const 1; i32.div_s`. -/
def twoDivisions : Seq := twoOnes (.div .w true (.op (.i32const 1) (.div .w true .nil)))

/-- Where the code of its second division begins. -/
def secondPlace : Nat :=
  functionStart [] + bodyStart [] [] + 12 + size (divItems .w true)

/-- The first guard of the second division leads back to the first. -/
theorem second_guard_leads_back : Valid [] [] [.i32 0] twoDivisions ∧
    ∃ g code, funcSingleProcess (delivered [] [.i32 0] [] twoDivisions) BranchFixup.inOrder =
        .ok g ∧
      loadWords (full_instructions g) = .ok code ∧
      ⟨4, .div .w true, functionStart [] + bodyStart [] [] + 8, size (divItems .w true)⟩ ∈
        bodySites [] [] twoDivisions ∧
      ⟨7, .div .w true, secondPlace, size (divItems .w true)⟩ ∈ bodySites [] [] twoDivisions ∧
      (∃ disp, instrAt code (firstGuard .w secondPlace) = some (.bCond 0b0001 disp) ∧
        firstGuard .w secondPlace + disp =
          quotientPlace .w (functionStart [] + bodyStart [] [] + 8)) ∧
      ¬ KeepsTargets [] [] twoDivisions code := by
  obtain ⟨g, done⟩ := BranchFixup.ok_of_isOk (show (funcSingleProcess
    (delivered [] [.i32 0] [] twoDivisions) BranchFixup.inOrder).isOk = true by decide +kernel)
  obtain ⟨code, instrs, loads, emitted, -⟩ := emitted_of_funcSingleProcess (by decide) done
  have second : (⟨7, .div .w true, secondPlace, size (divItems .w true)⟩ : Site) ∈
      bodySites [] [] twoDivisions := by decide +kernel
  refine ⟨.i32const (.i32const (.div (.i32const (.div .nil)))), g, code, done, loads,
    by decide +kernel, second, ⟨_, (first_guard emitted second rfl).2, ?_⟩, fun keeps => ?_⟩
  · have target : labelTarget [] [] [.i32 0] twoDivisions "normal_div" =
        quotientPlace .w (functionStart [] + bodyStart [] [] + 8) := by decide +kernel
    exact (add_sub_cancel _ _).trans target
  · have once := once_of_own emitted keeps.own
    exact absurd once (by decide)

end DivisionTargets
