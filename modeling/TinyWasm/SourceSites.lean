import TinyWasm.StructuredRun

/-!
# The code of each source instruction

A site is a source instruction with the stretch of code that is emitted for it.
The sites of a body stand one after the other, in the order of its bytes, and
cover its code. A `return` and the `end` of a block have no code.
-/

namespace SourceSites

open ArmInstruction LabelledCode SourceBody CodeItems StructuredRun

inductive Source where
  | op (o : Op)
  | div (width : Width) (signed : Bool)
  | ifOp (block : BlockType)
  | elseOp
  | endOp
  deriving DecidableEq, Repr

/-- A source instruction: the offset of its first byte, and where its code stands. -/
structure Site where
  offset : Nat
  source : Source
  place : Nat
  length : Nat
  deriving DecidableEq, Repr

/-- The code at position `k` is emitted for the instruction. -/
def Site.Holds (site : Site) (k : Nat) : Prop := site.place ≤ k ∧ k < site.place + site.length

/-- The sites of a sequence whose first byte is at `offset` and whose code is at `place`. -/
def sites (frame : Frame) : Seq → (offset place : Nat) → List Site
  | .nil, _, _ => []
  | .op o rest, offset, place =>
    ⟨offset, .op o, place, (opBlock frame o).length⟩ ::
      sites frame rest (offset + o.bytes.length) (place + (opBlock frame o).length)
  | .div width signed rest, offset, place =>
    ⟨offset, .div width signed, place, size (divItems width signed)⟩ ::
      sites frame rest (offset + 1) (place + size (divItems width signed))
  | .ifThen block thn rest, offset, place =>
    let q := place + (testBlock.length + 1)
    let e := q + size (bodyItems frame 0 thn)
    let after := offset + 2 + thn.bytes.length
    ⟨offset, .ifOp block, place, testBlock.length + 1⟩ ::
      (sites frame thn (offset + 2) q ++ ⟨after, .endOp, e, 0⟩ :: sites frame rest (after + 1) e)
  | .ifElse block thn els rest, offset, place =>
    let q := place + (testBlock.length + 1)
    let e := q + size (bodyItems frame 0 thn)
    let e' := e + 1 + size (bodyItems frame 0 els)
    let middle := offset + 2 + thn.bytes.length
    let after := middle + 1 + els.bytes.length
    ⟨offset, .ifOp block, place, testBlock.length + 1⟩ ::
      (sites frame thn (offset + 2) q ++ ⟨middle, .elseOp, e, 1⟩ ::
        (sites frame els (middle + 1) (e + 1) ++ ⟨after, .endOp, e', 0⟩ ::
          sites frame rest (after + 1) e'))

/-! ### Sites one after the other -/

/-- The sites cover the positions from `p` to `q`, each beginning where the one before ends. -/
inductive Tiles : List Site → Nat → Nat → Prop where
  | nil {p : Nat} : Tiles [] p p
  | cons (site : Site) {rest : List Site} {q : Nat}
      (later : Tiles rest (site.place + site.length) q) : Tiles (site :: rest) site.place q

theorem Tiles.append {first second : List Site} {p q r : Nat} (h : Tiles first p q)
    (h' : Tiles second q r) : Tiles (first ++ second) p r := by
  induction h with
  | nil => exact h'
  | cons site later ih => exact .cons site (ih h')

theorem Tiles.le {l : List Site} {p q : Nat} (h : Tiles l p q) : p ≤ q := by
  induction h with
  | nil => exact Nat.le_refl _
  | cons site later ih => omega

/-- A tiling is cut at each of its sites. -/
theorem Tiles.split {first second : List Site} {site : Site} {p q : Nat}
    (h : Tiles (first ++ site :: second) p q) :
    Tiles first p site.place ∧ Tiles second (site.place + site.length) q := by
  induction first generalizing p with
  | nil =>
    cases h with
    | cons _ later => exact ⟨.nil, later⟩
  | cons other first ih =>
    cases h with
    | cons _ later =>
      obtain ⟨front, back⟩ := ih later
      exact ⟨.cons other front, back⟩

theorem Tiles.bounds {l : List Site} {site : Site} {p q : Nat} (h : Tiles l p q) (hs : site ∈ l) :
    p ≤ site.place ∧ site.place + site.length ≤ q := by
  obtain ⟨first, second, rfl⟩ := List.append_of_mem hs
  obtain ⟨front, back⟩ := h.split
  exact ⟨front.le, back.le⟩

/-- Every position belongs to a site. -/
theorem Tiles.cover {l : List Site} {p q k : Nat} (h : Tiles l p q) (low : p ≤ k) (high : k < q) :
    ∃ site ∈ l, site.Holds k := by
  induction h with
  | nil => omega
  | cons site later ih =>
    by_cases here : k < site.place + site.length
    · exact ⟨site, List.mem_cons_self, low, here⟩
    · obtain ⟨other, inside, holds⟩ := ih (by omega) high
      exact ⟨other, List.mem_cons_of_mem _ inside, holds⟩

/-- Sites that have no code take no room. -/
theorem Tiles.eq_of_empty {l : List Site} {p q : Nat} (h : Tiles l p q)
    (empty : ∀ site ∈ l, site.length = 0) : p = q := by
  induction h with
  | nil => rfl
  | cons site later ih =>
    have none := empty site List.mem_cons_self
    have others := ih fun other inside => empty other (List.mem_cons_of_mem _ inside)
    omega

theorem size_ifThen (frame : Frame) (c : Nat) (block : BlockType) (thn rest : Seq) :
    size (bodyItems frame c (.ifThen block thn rest)) =
      testBlock.length + 1 + size (bodyItems frame 0 thn) + size (bodyItems frame 0 rest) := by
  simp only [bodyItems, ifItems, size_append, CodeItems.ins, size_map_ins, size_cons, size_nil,
    Item.size_jump, Item.size_label, bodyItems_size_eq frame _ 0 thn,
    bodyItems_size_eq frame _ 0 rest]
  rfl

theorem size_ifElse (frame : Frame) (c : Nat) (block : BlockType) (thn els rest : Seq) :
    size (bodyItems frame c (.ifElse block thn els rest)) =
      testBlock.length + 1 + size (bodyItems frame 0 thn) + 1 + size (bodyItems frame 0 els) +
        size (bodyItems frame 0 rest) := by
  simp only [bodyItems, ifItems, size_append, CodeItems.ins, size_map_ins, size_cons, size_nil,
    Item.size_jump, Item.size_label, bodyItems_size_eq frame _ 0 thn,
    bodyItems_size_eq frame _ 0 els, bodyItems_size_eq frame _ 0 rest]
  rfl

theorem sites_tile (frame : Frame) (seq : Seq) (offset place : Nat) :
    Tiles (sites frame seq offset place) place (place + size (bodyItems frame 0 seq)) := by
  induction seq generalizing offset place with
  | nil => exact .nil
  | op o rest ih =>
    have later := ih (offset + o.bytes.length) (place + (opBlock frame o).length)
    rw [bodyItems, size_append, CodeItems.ins, size_map_ins, ← Nat.add_assoc]
    exact .cons ⟨_, _, place, _⟩ later
  | div width signed rest ih =>
    have later := ih (offset + 1) (place + size (divItems width signed))
    rw [bodyItems, size_append, ← Nat.add_assoc]
    exact .cons ⟨_, _, place, _⟩ later
  | ifThen block thn rest ihThn ihRest =>
    have len : place + size (bodyItems frame 0 (.ifThen block thn rest)) =
        place + (testBlock.length + 1) + size (bodyItems frame 0 thn) +
          size (bodyItems frame 0 rest) := by
      rw [size_ifThen]
      omega
    rw [len]
    exact .cons ⟨_, _, place, _⟩
      ((ihThn _ _).append (.cons ⟨_, _, _, 0⟩ (ihRest _ _)))
  | ifElse block thn els rest ihThn ihEls ihRest =>
    have len : place + size (bodyItems frame 0 (.ifElse block thn els rest)) =
        place + (testBlock.length + 1) + size (bodyItems frame 0 thn) + 1 +
          size (bodyItems frame 0 els) + size (bodyItems frame 0 rest) := by
      rw [size_ifElse]
      omega
    rw [len]
    exact .cons ⟨_, _, place, _⟩ ((ihThn _ _).append
      (.cons ⟨_, _, _, 1⟩ ((ihEls _ _).append (.cons ⟨_, _, _, 0⟩ (ihRest _ _)))))

/-! ### The order of the bytes -/

/-- The sites begin in order at bytes from `a` up to `b`. -/
inductive Spans : List Site → Nat → Nat → Prop where
  | nil {a : Nat} : Spans [] a a
  | cons (site : Site) {rest : List Site} {b c : Nat} (behind : site.offset < b)
      (later : Spans rest b c) : Spans (site :: rest) site.offset c

theorem Spans.append {first second : List Site} {a b c : Nat} (h : Spans first a b)
    (h' : Spans second b c) : Spans (first ++ second) a c := by
  induction h with
  | nil => exact h'
  | cons site behind later ih => exact .cons site behind (ih h')

theorem Spans.bound {l : List Site} {site : Site} {a b : Nat} (h : Spans l a b) (hs : site ∈ l) :
    a ≤ site.offset := by
  induction h with
  | nil => exact absurd hs List.not_mem_nil
  | cons other behind later ih =>
    rcases List.mem_cons.mp hs with rfl | hs
    · exact Nat.le_refl _
    · exact behind.le.trans (ih hs)

theorem Spans.ordered {l : List Site} {a b : Nat} (h : Spans l a b) :
    l.Pairwise fun site later => site.offset < later.offset := by
  induction h with
  | nil => exact .nil
  | cons site behind later ih =>
    exact .cons (fun other hs => Nat.lt_of_lt_of_le behind (later.bound hs)) ih

theorem sites_span (frame : Frame) (seq : Seq) (offset place : Nat) :
    Spans (sites frame seq offset place) offset (offset + seq.bytes.length) := by
  induction seq generalizing offset place with
  | nil => exact .nil
  | op o rest ih =>
    have some := o.bytes_pos
    rw [Seq.bytes, List.length_append, ← Nat.add_assoc]
    exact .cons ⟨offset, _, place, _⟩ (Nat.lt_add_of_pos_right some) (ih _ _)
  | div width signed rest ih =>
    rw [Seq.bytes, List.length_cons, Nat.add_comm _ 1, ← Nat.add_assoc]
    exact .cons ⟨offset, _, place, _⟩ (Nat.lt_succ_self _) (ih _ _)
  | ifThen block thn rest ihThn ihRest =>
    have long : offset + (Seq.ifThen block thn rest).bytes.length =
        offset + 2 + thn.bytes.length + 1 + rest.bytes.length := by
      simp only [Seq.bytes, List.length_cons, List.length_append]
      omega
    rw [long]
    exact .cons ⟨offset, _, place, _⟩ (Nat.lt_add_of_pos_right Nat.two_pos)
      ((ihThn _ _).append (.cons ⟨_, _, _, 0⟩ (Nat.lt_succ_self _) (ihRest _ _)))
  | ifElse block thn els rest ihThn ihEls ihRest =>
    have long : offset + (Seq.ifElse block thn els rest).bytes.length =
        offset + 2 + thn.bytes.length + 1 + els.bytes.length + 1 + rest.bytes.length := by
      simp only [Seq.bytes, List.length_cons, List.length_append]
      omega
    rw [long]
    exact .cons ⟨offset, _, place, _⟩ (Nat.lt_add_of_pos_right Nat.two_pos)
      ((ihThn _ _).append (.cons ⟨_, _, _, 1⟩ (Nat.lt_succ_self _)
        ((ihEls _ _).append (.cons ⟨_, _, _, 0⟩ (Nat.lt_succ_self _) (ihRest _ _)))))

/-- The sites are listed in the order of their bytes. -/
theorem sites_ordered (frame : Frame) (seq : Seq) (offset place : Nat) :
    (sites frame seq offset place).Pairwise fun a b => a.offset < b.offset :=
  (sites_span frame seq offset place).ordered

/-- What stands behind a site is listed behind it. -/
theorem mem_behind {frame : Frame} {seq : Seq} {offset place : Nat} {first second : List Site}
    {site later : Site} (split : sites frame seq offset place = first ++ site :: second) :
    later ∈ sites frame seq offset place ∧ site.offset < later.offset ↔ later ∈ second := by
  have ordered := sites_ordered frame seq offset place
  rw [split] at ordered ⊢
  obtain ⟨-, behind, before⟩ := List.pairwise_append.mp ordered
  constructor
  · rintro ⟨inside, after⟩
    rcases List.mem_append.mp inside with front | back
    · have := before later front site List.mem_cons_self
      omega
    rcases List.mem_cons.mp back with rfl | back
    · omega
    · exact back
  · intro back
    exact ⟨List.mem_append_right _ (List.mem_cons_of_mem _ back),
      List.rel_of_pairwise_cons behind back⟩

/-! ### Instructions without code -/

/-- A `return` or the `end` of a block. -/
def Source.Codeless (source : Source) : Prop := source = .op .ret ∨ source = .endOp

instance : DecidablePred Source.Codeless := fun _ => inferInstanceAs (Decidable (_ ∨ _))

theorem opBlock_length_eq_zero {frame : Frame} {o : Op} (uses : o.UsesBelow frame.length) :
    (opBlock frame o).length = 0 ↔ o = .ret := by
  cases o with
  | ret => simp [opBlock]
  | localVar opType index =>
    have known : frame[index.toNat]? = some frame[index.toNat] := List.getElem?_eq_getElem uses
    cases opType <;> simp [opBlock, known, localBlock, popBlock, teeBlock]
  | nop | i32const | i64const | compare | arith =>
    simp [opBlock, mov32, mov64, popBlock, pushBlock]

theorem site_length_eq_zero {frame : Frame} {seq : Seq} (uses : seq.UsesBelow frame.length)
    {offset place : Nat} {site : Site} (hs : site ∈ sites frame seq offset place) :
    site.length = 0 ↔ site.source.Codeless := by
  have test : ∀ block, testBlock.length + 1 = 0 ↔ Source.Codeless (.ifOp block) := by
    simp [Source.Codeless]
  induction seq generalizing offset place with
  | nil => exact absurd hs List.not_mem_nil
  | op o rest ih =>
    rcases List.mem_cons.mp hs with rfl | hs
    · simpa [Source.Codeless] using opBlock_length_eq_zero uses.1
    · exact ih uses.2 hs
  | div width signed rest ih =>
    rcases List.mem_cons.mp hs with rfl | hs
    · simp [Source.Codeless, divItems, guardItems, CodeItems.ins]
    · exact ih uses hs
  | ifThen block thn rest ihThn ihRest =>
    rcases List.mem_cons.mp hs with rfl | hs
    · exact test block
    rcases List.mem_append.mp hs with hs | hs
    · exact ihThn uses.1 hs
    rcases List.mem_cons.mp hs with rfl | hs
    · simp [Source.Codeless]
    · exact ihRest uses.2 hs
  | ifElse block thn els rest ihThn ihEls ihRest =>
    rcases List.mem_cons.mp hs with rfl | hs
    · exact test block
    rcases List.mem_append.mp hs with hs | hs
    · exact ihThn uses.1 hs
    rcases List.mem_cons.mp hs with rfl | hs
    · simp [Source.Codeless]
    rcases List.mem_append.mp hs with hs | hs
    · exact ihEls uses.2.1 hs
    rcases List.mem_cons.mp hs with rfl | hs
    · simp [Source.Codeless]
    · exact ihRest uses.2.2 hs

end SourceSites
