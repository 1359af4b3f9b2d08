import TinyWasm.WholeFunction

/-!
# The fix-up of the branches

The text is a list of eight-character words, and fixing one branch replaces one
of them. Each visit leaves the other words alone, so the order of the visits
does not matter. Every label a branch names is recorded, and the code of a body
of at most 255 bytes is short enough for every displacement.
-/

namespace BranchFixup

open BitFields HexText Opcode Wasm Emit ArmInstruction EncoderCorrectness LabelledCode
open LocalDeclarations SourceBody CodeItems EmissionSpec GenerationSpec FrameSpec WholeFunction

/-! ### Words of the text -/

/-- The `i`-th eight-character word of the text. -/
def wordAt (text : Text) (i : Nat) : Text := (text.drop (8 * i)).take 8

theorem drop_words (ws : List Word) (i : Nat) :
    (ws.flatMap wordText).drop (8 * i) = (ws.drop i).flatMap wordText := by
  induction ws generalizing i with
  | nil => simp
  | cons w ws ih =>
    cases i with
    | zero => rfl
    | succ i =>
      rw [List.flatMap_cons, List.drop_succ_cons, ← ih i, Nat.mul_add, Nat.add_comm,
        ← List.drop_drop]
      exact congrArg (List.drop (8 * i)) (List.drop_left' (wordText_length w))

theorem take_words (ws : List Word) (i : Nat) :
    (ws.flatMap wordText).take (8 * i) = (ws.take i).flatMap wordText := by
  induction ws generalizing i with
  | nil => simp
  | cons w ws ih =>
    cases i with
    | zero => rfl
    | succ i =>
      have split : 8 * (i + 1) = (wordText w).length + 8 * i := by
        rw [wordText_length]
        omega
      rw [List.flatMap_cons, List.take_succ_cons, List.flatMap_cons, ← ih i, split,
        List.take_length_add_append]

theorem wordAt_words {ws : List Word} {i : Nat} {w : Word} (h : ws[i]? = some w) :
    wordAt (ws.flatMap wordText) i = wordText w := by
  obtain ⟨inside, rfl⟩ := List.getElem?_eq_some_iff.mp h
  rw [wordAt, drop_words, List.drop_eq_getElem_cons inside, List.flatMap_cons,
    List.take_left' (wordText_length _)]

theorem wordAt_behind {ws : List Word} {i : Nat} (h : ws.length ≤ i) :
    wordAt (ws.flatMap wordText) i = [] := by
  rw [wordAt, drop_words, List.drop_eq_nil_of_le h]
  rfl

theorem replace_word {ws : List Word} {i : Nat} (w : Word) (inside : i < ws.length) :
    replace (ws.flatMap wordText) (8 * i) 8 (wordText w) =
      .ok ((ws.set i w).flatMap wordText) := by
  have within : ¬ (ws.flatMap wordText).length < 8 * i := by
    rw [flatMap_wordText_length]
    omega
  rw [replace, if_neg within, take_words, show 8 * i + 8 = 8 * (i + 1) by omega, drop_words,
    List.set_eq_take_append_cons_drop, if_pos inside, List.flatMap_append, List.flatMap_cons,
    List.append_assoc]

/-! ### One branch -/

/-- The word is the branch the entry asks for, and it leads to the recorded label. -/
def Leads (label_map : List (String × Nat)) (x : FakeBranch) (w : Word) : Prop :=
  ∃ (location : Nat) (kind : BranchKind) (disp : Int),
    label_map.lookup x.1 = some location ∧ x.2.2 = kind.text ∧
    WasmFunction.encodeFixed x.2.2 location x.2.1 = .ok (wordText w) ∧
    decode w = some (link kind disp) ∧ (x.2.1 : Int) + 8 * disp = location

theorem encodeFixed_yields (kind : BranchKind) {target origin : Nat} (ht : target < 2 ^ 18)
    (ho : origin < 2 ^ 18) :
    Yields (WasmFunction.encodeFixed kind.text (8 * target) (8 * origin))
      (link kind ((target : Int) - origin)) := by
  have offset : (BitVec.ofInt 32 ((((8 * target : Nat) : Int) - (8 * origin : Nat)).tdiv 8)).toInt =
      (target : Int) - origin := by
    have exact_div : (((8 * target : Nat) : Int) - (8 * origin : Nat)).tdiv 8 =
        (target : Int) - origin := by
      rw [show ((8 * target : Nat) : Int) - (8 * origin : Nat) = 8 * ((target : Int) - origin) by
        omega]
      exact Int.mul_tdiv_cancel_left _ (by decide)
    rw [exact_div, BitVec.toInt_ofInt, Int.bmod_def]
    omega
  generalize hd : BitVec.ofInt 32 ((((8 * target : Nat) : Int) - (8 * origin : Nat)).tdiv 8) = d
    at offset
  cases kind with
  | b =>
    have h := encodeBranch_yields d false (by omega) (by omega)
    rw [offset] at h
    rw [WasmFunction.encodeFixed, if_pos (by rfl), hd]
    exact h
  | bl =>
    have h := encodeBranch_yields d true (by omega) (by omega)
    rw [offset] at h
    rw [WasmFunction.encodeFixed, if_neg (by decide), if_pos (by rfl), hd]
    exact h
  | beq =>
    have known : condAt (BranchKind.beq.text.drop 1).toString = .ok 0 := by decide
    have h := encodeBranchCondition_yields d 0 (by omega) (by omega)
      (by decide)
    rw [offset] at h
    rw [WasmFunction.encodeFixed, if_neg (by decide), if_neg (by decide), known, ok_bind, hd]
    exact h
  | bne =>
    have known : condAt (BranchKind.bne.text.drop 1).toString = .ok 1 := by decide
    have h := encodeBranchCondition_yields d 1 (by omega) (by omega)
      (by decide)
    rw [offset] at h
    rw [WasmFunction.encodeFixed, if_neg (by decide), if_neg (by decide), known, ok_bind, hd]
    exact h

/-- A recorded branch of the text can be fixed: its place is a word, and its word is known. -/
def Fixable (label_map : List (String × Nat)) (n : Nat) (x : FakeBranch) : Prop :=
  ∃ (i : Nat) (w : Word), x.2.1 = 8 * i ∧ i < n ∧ Leads label_map x w

theorem fixOne_word {f : WasmFunction} {ws : List Word} {x : FakeBranch} {i : Nat} {w : Word}
    (text : f.wasm_instructions = ws.flatMap wordText) (place : x.2.1 = 8 * i)
    (inside : i < ws.length) (leads : Leads f.label_map x w) :
    f.fixOne x = .ok { f with wasm_instructions := (ws.set i w).flatMap wordText } := by
  obtain ⟨location, kind, disp, recorded, -, encoded, -, -⟩ := leads
  obtain ⟨label, origin, branch⟩ := x
  simp only at place recorded encoded
  subst place
  simp only [WasmFunction.fixOne, recorded, Option.getD_some, encoded, ok_bind, text,
    replace_word w inside]
  rfl

/-- After the visits every visited place holds its branch and every other word is as before. -/
theorem fix_all {xs : List FakeBranch} {f : WasmFunction} {ws : List Word}
    (text : f.wasm_instructions = ws.flatMap wordText)
    (fixable : ∀ x ∈ xs, Fixable f.label_map ws.length x)
    (apart : (xs.map fun x => x.2.1).Nodup) :
    ∃ vs : List Word, xs.foldlM WasmFunction.fixOne f =
        .ok { f with wasm_instructions := vs.flatMap wordText } ∧ vs.length = ws.length ∧
      (∀ i, (∀ x ∈ xs, x.2.1 ≠ 8 * i) → vs[i]? = ws[i]?) ∧
      ∀ x ∈ xs, ∃ i w, x.2.1 = 8 * i ∧ vs[i]? = some w ∧ Leads f.label_map x w := by
  induction xs generalizing f ws with
  | nil => exact ⟨ws, by rw [← text]; rfl, rfl, fun _ _ => rfl, by simp⟩
  | cons x xs ih =>
    obtain ⟨i, w, place, inside, leads⟩ := fixable x (by simp)
    rw [List.map_cons, List.nodup_cons] at apart
    obtain ⟨vs, run, length, others, visited⟩ :=
      ih (f := { f with wasm_instructions := (ws.set i w).flatMap wordText })
        (show _ = (ws.set i w).flatMap wordText from rfl) (fun y hy => by
          rw [List.length_set]
          exact fixable y (List.mem_cons_of_mem _ hy)) apart.2
    have alone : ∀ y ∈ xs, y.2.1 ≠ 8 * i := by
      intro y hy same
      exact apart.1 (List.mem_map.mpr ⟨y, hy, same.trans place.symm⟩)
    refine ⟨vs, ?_, by rw [length, List.length_set], fun j clear => ?_, fun y hy => ?_⟩
    · rw [List.foldlM_cons, fixOne_word text place inside leads, ok_bind, run]
    · have distinct : i ≠ j := by
        rintro rfl
        exact clear x (by simp) place
      rw [others j fun y hy => clear y (List.mem_cons_of_mem _ hy), List.getElem?_set_ne distinct]
    · rcases List.mem_cons.mp hy with rfl | later
      · exact ⟨i, w, place, by rw [others i alone, List.getElem?_set_self inside], leads⟩
      · exact visited y later

/-! ### All branches -/

/-- What the fix-up makes of a generated function: the words are those of before but for
the recorded branches, each of which now leads to the recorded place of its label. -/
structure FixedUp (f g : WasmFunction) : Prop where
  named : ∀ x ∈ f.fake_insert_map, (f.label_map.lookup x.1).isSome
  length : g.wasm_instructions.length = f.wasm_instructions.length
  others : ∀ i, (∀ x ∈ f.fake_insert_map, x.2.1 ≠ 8 * i) →
    wordAt g.wasm_instructions i = wordAt f.wasm_instructions i
  complete : ∀ i, wordAt g.wasm_instructions i ≠ "FFFFFFFF".toList
  branches : ∀ x ∈ f.fake_insert_map, ∃ (i : Nat) (w : Word) (kind : BranchKind) (disp : Int)
    (location : Nat), x.2.1 = 8 * i ∧ wordAt f.wasm_instructions i = "FFFFFFFF".toList ∧
    wordAt g.wasm_instructions i = wordText w ∧ x.2.2 = kind.text ∧
    decode w = some (link kind disp) ∧ f.label_map.lookup x.1 = some location ∧
    (x.2.1 : Int) + 8 * disp = location ∧ location < g.wasm_instructions.length

theorem wordText_injective {v w : Word} (h : wordText v = wordText w) : v = w := by
  have loaded := loadWords_flatMap [v]
  rw [List.flatMap_singleton, h, ← List.flatMap_singleton wordText w, loadWords_flatMap] at loaded
  simpa using loaded.symm

/-- A carried word is a placeholder exactly where a jump stands. -/
theorem carried_word {xs : List CodeItem} {ws : List Word} (h : Carries xs ws) {p i : Nat}
    {w : Word} (hw : ws[i]? = some w) :
    (∃ l k, (l, p + i, k) ∈ jumps p xs ∧ w = placeholder) ∨
      ((∀ j ∈ jumps p xs, j.2.1 ≠ p + i) ∧ w ≠ placeholder) := by
  induction h generalizing p i with
  | nil => simp at hw
  | @ins instr v xs ws word rest ih =>
    cases i with
    | zero =>
      refine Or.inr ⟨fun j hj => ?_, ?_⟩
      · have later : j ∈ jumps (p + 1) xs := hj
        exact Nat.ne_of_gt (jump_bounds later).1
      · rintro rfl
        cases hw
        rw [decode_placeholder] at word
        exact nomatch word
    | succ i =>
      rw [show p + (i + 1) = p + 1 + i by omega]
      exact ih hw
  | @jump l k xs ws rest ih =>
    cases i with
    | zero => exact Or.inl ⟨l, k, List.mem_cons_self, (Option.some.inj hw).symm⟩
    | succ i =>
      rw [show p + (i + 1) = p + 1 + i by omega]
      rcases ih (p := p + 1) hw with ⟨l', k', here, same⟩ | ⟨clear, other⟩
      · exact Or.inl ⟨l', k', List.mem_cons_of_mem _ here, same⟩
      · refine Or.inr ⟨fun j hj => ?_, other⟩
        rcases List.mem_cons.mp hj with rfl | later
        · simp only
          omega
        · exact clear j later
  | label rest ih => exact ih hw

/-- Words that keep the instructions and hold the branches are the linked code. -/
theorem decode_linked {xs : List CodeItem} {ws : List Word} (h : Carries xs ws)
    (target : String → Int)
    {p : Nat} {vs : List Word} (length : vs.length = ws.length)
    (others : ∀ i, (∀ j ∈ jumps p xs, j.2.1 ≠ p + i) → vs[i]? = ws[i]?)
    (branches : ∀ j ∈ jumps p xs, ∃ i w, j.2.1 = p + i ∧ vs[i]? = some w ∧
      decode w = some (link j.2.2 (target j.1 - j.2.1))) :
    vs.map decode = (resolve link target p xs).map some := by
  induction h generalizing p vs with
  | nil =>
    rw [List.length_nil, List.length_eq_zero_iff] at length
    rw [length]
    rfl
  | @ins instr v xs ws word rest ih =>
    cases vs with
    | nil => simp at length
    | cons w vs =>
      have head := others 0 fun j hj => by
        have later : j ∈ jumps (p + 1) xs := hj
        exact Nat.ne_of_gt (jump_bounds later).1
      have tail := ih (p := p + 1) (show vs.length = ws.length by simpa using length)
        (fun i clear => others (i + 1) fun j hj => by
          rw [show p + (i + 1) = p + 1 + i by omega]
          exact clear j hj)
        (fun j hj => by
          obtain ⟨i, u, place, hu, hd⟩ := branches j hj
          have := (jump_bounds (show j ∈ jumps (p + 1) xs from hj)).1
          obtain ⟨i, rfl⟩ := Nat.exists_eq_succ_of_ne_zero (show i ≠ 0 by omega)
          exact ⟨i, u, by omega, hu, hd⟩)
      rw [List.map_cons, tail, show w = v by simpa using head, word]
      rfl
  | @jump l k xs ws rest ih =>
    cases vs with
    | nil => simp at length
    | cons w vs =>
      obtain ⟨i, u, place, hu, hd⟩ := branches (l, p, k) List.mem_cons_self
      have start : i = 0 := by
        simp only at place
        omega
      subst start
      have tail := ih (p := p + 1) (show vs.length = ws.length by simpa using length)
        (fun i clear => others (i + 1) fun j hj => by
          rw [show p + (i + 1) = p + 1 + i by omega]
          rcases List.mem_cons.mp hj with rfl | later
          · simp only
            omega
          · exact clear j later)
        (fun j hj => by
          obtain ⟨i, u, place, hu, hd⟩ := branches j (List.mem_cons_of_mem _ hj)
          have := (jump_bounds hj).1
          obtain ⟨i, rfl⟩ := Nat.exists_eq_succ_of_ne_zero (show i ≠ 0 by omega)
          exact ⟨i, u, by omega, hu, hd⟩)
      rw [List.map_cons, tail, show w = u by simpa using hu, hd]
      rfl
  | label rest ih => exact ih length others branches

theorem jumps_apart (p : Nat) (xs : List CodeItem) : ((jumps p xs).map fun j => j.2.1).Nodup := by
  induction xs generalizing p with
  | nil => exact List.nodup_nil
  | cons x xs ih =>
    cases x with
    | ins i => exact ih (p + 1)
    | jump l k =>
      rw [LabelledCode.jumps, List.map_cons, List.nodup_cons]
      refine ⟨fun again => ?_, ih (p + 1)⟩
      obtain ⟨j, hj, same⟩ := List.mem_map.mp again
      have := (jump_bounds hj).1
      simp only at same
      omega
    | label n => exact ih p

/-- Every branch names a label, and up to its last label and branch the code is short. -/
structure Linkable (items : List CodeItem) : Prop where
  named : ∀ l ∈ jumpNames items, l ∈ labelNames items
  labels : ∀ e ∈ labels 0 items, e.2 < 2 ^ 18 ∧ e.2 < size items
  jumps : ∀ j ∈ jumps 0 items, j.2.1 < 2 ^ 18

theorem jump_fixable {f : WasmFunction} {items : List CodeItem} (hf : Represents f items)
    (linkable : Linkable items) {j : String × Nat × BranchKind} (hj : j ∈ jumps 0 items) :
    ∃ (target : Nat) (w : Word), firstPosition items j.1 = target ∧ target < size items ∧
      f.label_map.lookup j.1 = some (8 * target) ∧
      WasmFunction.encodeFixed j.2.2.text (8 * target) (8 * j.2.1) = .ok (wordText w) ∧
      decode w = some (link j.2.2 ((target : Int) - j.2.1)) := by
  have name : j.1 ∈ jumpNames items := by
    rw [← map_fst_jumps 0]
    exact List.mem_map.mpr ⟨j, hj, rfl⟩
  obtain ⟨target, found, first⟩ := firstPosition_mem (linkable.named j.1 name)
  have entered : (j.1, target) ∈ labels 0 items := by
    obtain ⟨before, after, split, -⟩ := List.lookup_eq_some_iff.mp found
    rw [split]
    simp
  obtain ⟨short, before⟩ := linkable.labels _ entered
  obtain ⟨w, encoded, decoded⟩ := encodeFixed_yields j.2.2 short (linkable.jumps j hj)
  exact ⟨target, w, first, before, by rw [hf.labels, found]; rfl, encoded, decoded⟩

theorem fixable_of_represents {f : WasmFunction} {items : List CodeItem} (hf : Represents f items)
    (linkable : Linkable items) :
    (∀ x ∈ f.fake_insert_map, Fixable f.label_map (size items) x) ∧
      (f.fake_insert_map.map fun x => x.2.1).Nodup := by
  constructor
  · intro x hx
    rw [hf.jumps] at hx
    obtain ⟨j, hj, rfl⟩ := List.mem_map.mp hx
    obtain ⟨target, w, -, -, recorded, encoded, decoded⟩ := jump_fixable hf linkable hj
    have inside := (jump_bounds hj).2
    rw [Nat.zero_add] at inside
    refine ⟨j.2.1, w, rfl, inside, 8 * target, j.2.2, _, recorded, rfl, encoded, decoded, ?_⟩
    simp only [entry]
    omega
  · rw [hf.jumps, List.map_map]
    have places := (jumps_apart 0 items).map (f := fun q => 8 * q) fun a b same => by
      simp only at same
      omega
    rwa [List.map_map] at places

/-- Two orders of the same visits leave the same text. -/
theorem visits_agree {xs ys : List FakeBranch} (perm : xs.Perm ys) {f : WasmFunction}
    {ws : List Word} (text : f.wasm_instructions = ws.flatMap wordText)
    (fixable : ∀ x ∈ xs, Fixable f.label_map ws.length x)
    (apart : (xs.map fun x => x.2.1).Nodup) :
    xs.foldlM WasmFunction.fixOne f = ys.foldlM WasmFunction.fixOne f := by
  obtain ⟨vs, run, -, others, visited⟩ := fix_all text fixable apart
  obtain ⟨us, run', -, others', visited'⟩ := fix_all text
    (fun y hy => fixable y (perm.mem_iff.mpr hy)) ((perm.map _).nodup_iff.mp apart)
  have same : vs = us := by
    refine List.ext_getElem? fun i => ?_
    by_cases hit : ∃ x ∈ xs, x.2.1 = 8 * i
    · obtain ⟨x, hx, place⟩ := hit
      obtain ⟨k, w, hk, hw, location, -, -, found, -, encoded, -, -⟩ := visited x hx
      obtain ⟨k', w', hk', hw', location', -, -, found', -, encoded', -, -⟩ :=
        visited' x (perm.mem_iff.mp hx)
      obtain rfl : k = i := by omega
      obtain rfl : k' = k := by omega
      rw [Option.some.inj (found.symm.trans found'), encoded'] at encoded
      rw [hw, hw', wordText_injective (Except.ok.inj encoded)]
    · have clear : ∀ x ∈ xs, x.2.1 ≠ 8 * i := fun x hx place => hit ⟨x, hx, place⟩
      rw [others i clear, others' i fun y hy => clear y (perm.mem_iff.mpr hy)]
  rw [run, run', same]

/-- What the words `ws` of the code become: a word at a branch leads to the first position of its
label, where a placeholder was, and the others are kept. -/
structure Relinked (f : WasmFunction) (items : List CodeItem) (ws vs : List Word) : Prop where
  carries : Carries items ws
  text : f.wasm_instructions = ws.flatMap wordText
  length : vs.length = ws.length
  keeps : ∀ i, (∀ j ∈ jumps 0 items, j.2.1 ≠ i) → vs[i]? = ws[i]?
  leads : ∀ j ∈ jumps 0 items, ∃ (w : Word) (target : Nat), vs[j.2.1]? = some w ∧
    ws[j.2.1]? = some placeholder ∧ f.label_map.lookup j.1 = some (8 * target) ∧
    firstPosition items j.1 = target ∧ target < size items ∧
    decode w = some (link j.2.2 ((target : Int) - j.2.1))

/-- The visits leave the same relinked words in every order. -/
theorem fixUp_relinks {f : WasmFunction} {items : List CodeItem} (hf : Represents f items)
    (linkable : Linkable items) : ∃ ws vs, Relinked f items ws vs ∧
      ∀ order, f.fixUpfakeBranch order =
        .ok { f with wasm_instructions := vs.flatMap wordText } := by
  obtain ⟨ws, carries, text⟩ := hf.words
  obtain ⟨ready, apart⟩ := fixable_of_represents hf linkable
  rw [← carries.length] at ready
  obtain ⟨vs, run, length, others, visited⟩ := fix_all text ready apart
  refine ⟨ws, vs, ⟨carries, text, length, fun i clear => ?_, fun j hj => ?_⟩, fun order =>
    (visits_agree (order.perm _).symm text ready apart).symm.trans run⟩
  · refine others i fun x hx => ?_
    rw [hf.jumps] at hx
    obtain ⟨j, hj, rfl⟩ := List.mem_map.mp hx
    have := clear j hj
    simp only [entry]
    omega
  · have visit : entry j ∈ f.fake_insert_map := by
      rw [hf.jumps]
      exact List.mem_map.mpr ⟨j, hj, rfl⟩
    obtain ⟨i, w, place, hw, location, kind, disp, recorded', -, encoded', -, -⟩ := visited _ visit
    obtain ⟨target, u, first, before, recorded, encoded, decoded⟩ := jump_fixable hf linkable hj
    have here : i = j.2.1 := by
      simp only [entry] at place
      omega
    rw [Option.some.inj (recorded'.symm.trans recorded)] at encoded'
    have word : w = u := wordText_injective (Except.ok.inj (encoded'.symm.trans encoded))
    refine ⟨w, target, by rw [← here, hw], ?_, recorded, first, before, by rw [word, decoded]⟩
    obtain ⟨v, hv⟩ : ∃ v, ws[j.2.1]? = some v := by
      refine ⟨_, List.getElem?_eq_getElem ?_⟩
      have := (jump_bounds hj).2
      rw [carries.length]
      omega
    rcases carried_word carries (p := 0) hv with ⟨-, -, -, kept⟩ | ⟨clear, -⟩
    · rw [hv, kept]
    · exact absurd (Nat.zero_add _).symm (clear j hj)

section
variable {f : WasmFunction} {items : List CodeItem} {ws vs : List Word}

/-- Where no branch stands the word is the one of before. -/
theorem Relinked.other_words (h : Relinked f items ws vs) {i : Nat}
    (clear : ∀ j ∈ jumps 0 items, j.2.1 ≠ i) :
    wordAt (vs.flatMap wordText) i = wordAt f.wasm_instructions i := by
  have same := h.keeps i clear
  rw [h.text]
  cases hw : ws[i]? with
  | none =>
    have behind := List.getElem?_eq_none_iff.mp hw
    rw [wordAt_behind behind, wordAt_behind (by rwa [h.length])]
  | some w => rw [wordAt_words hw, wordAt_words (same.trans hw)]

theorem Relinked.no_placeholder (h : Relinked f items ws vs) (i : Nat) :
    vs[i]? ≠ some placeholder := by
  intro hv
  have inside : i < ws.length := by
    rw [← h.length]
    exact (List.getElem?_eq_some_iff.mp hv).1
  rcases carried_word h.carries (p := 0) (List.getElem?_eq_getElem inside) with
    ⟨l, k, here, -⟩ | ⟨clear, other⟩
  · rw [Nat.zero_add] at here
    obtain ⟨w, _, hw, -, -, -, -, decoded⟩ := h.leads _ here
    rw [hv] at hw
    rw [← Option.some.inj hw, decode_placeholder] at decoded
    cases decoded
  · rw [h.keeps i fun j hj => by simpa using clear j hj, List.getElem?_eq_getElem inside] at hv
    exact other (Option.some.inj hv)

theorem Relinked.complete (h : Relinked f items ws vs) (i : Nat) :
    wordAt (vs.flatMap wordText) i ≠ "FFFFFFFF".toList := by
  rw [placeholder_text]
  cases hv : vs[i]? with
  | none =>
    rw [wordAt_behind (List.getElem?_eq_none_iff.mp hv)]
    decide
  | some v =>
    rw [wordAt_words hv]
    intro same
    rw [wordText_injective same] at hv
    exact h.no_placeholder i hv

theorem Relinked.fixedUp (h : Relinked f items ws vs) (hf : Represents f items) :
    FixedUp f { f with wasm_instructions := vs.flatMap wordText } := by
  refine ⟨fun x hx => ?_, ?_, fun i clear => ?_, h.complete, fun x hx => ?_⟩
  · rw [hf.jumps] at hx
    obtain ⟨j, hj, rfl⟩ := List.mem_map.mp hx
    obtain ⟨_, target, -, -, recorded, -⟩ := h.leads j hj
    exact Option.isSome_iff_exists.mpr ⟨_, recorded⟩
  · rw [h.text, flatMap_wordText_length, flatMap_wordText_length, h.length]
  · refine h.other_words fun j hj place => clear (entry j) ?_ (congrArg (8 * ·) place)
    rw [hf.jumps]
    exact List.mem_map.mpr ⟨j, hj, rfl⟩
  · rw [hf.jumps] at hx
    obtain ⟨j, hj, rfl⟩ := List.mem_map.mp hx
    obtain ⟨w, target, hw, hold, recorded, -, before, decoded⟩ := h.leads j hj
    refine ⟨j.2.1, w, j.2.2, _, 8 * target, rfl, ?_, wordAt_words hw, rfl, decoded, recorded,
      ?_, ?_⟩
    · rw [h.text, wordAt_words hold, placeholder_text]
    · simp only [entry]
      omega
    · rw [flatMap_wordText_length, h.length, h.carries.length]
      omega

theorem Relinked.decodes (h : Relinked f items ws vs) :
    vs.map decode = (resolve link (firstPosition items) 0 items).map some := by
  refine decode_linked h.carries (firstPosition items) h.length
    (fun i clear => h.keeps i fun j hj => by simpa using clear j hj) fun j hj => ?_
  obtain ⟨w, target, hw, -, -, first, -, decoded⟩ := h.leads j hj
  exact ⟨j.2.1, w, (Nat.zero_add _).symm, hw, by rw [first, decoded]⟩

end

/-- Linkable code is fixed up completely, in any order. -/
theorem fixUp_represents {f : WasmFunction} {items : List CodeItem} (hf : Represents f items)
    (linkable : Linkable items) :
    ∃ vs : List Word, (∀ order, f.fixUpfakeBranch order =
        .ok { f with wasm_instructions := vs.flatMap wordText }) ∧
      FixedUp f { f with wasm_instructions := vs.flatMap wordText } ∧
      vs.map decode = (resolve link (firstPosition items) 0 items).map some := by
  obtain ⟨ws, vs, relinked, anyOrder⟩ := fixUp_relinks hf linkable
  exact ⟨vs, anyOrder, relinked.fixedUp hf, relinked.decodes⟩

/-! ### The code of a function -/

theorem jumps_named (frame : Frame) (seq : Seq) (c : Nat) :
    ∀ l ∈ jumpNames (bodyItems frame c seq),
      l ∈ labelNames (bodyItems frame c seq) ∨ l = "preparelongjmp" := by
  induction seq generalizing c with
  | nil => simp [bodyItems, jumpNames]
  | op o rest ih =>
    simpa [bodyItems, CodeItems.ins] using ih c
  | div width signed rest ih =>
    intro l hl
    have := ih c l
    simp only [bodyItems, divItems, guardItems, CodeItems.ins, jumpNames_append,
      jumpNames_map_ins, labelNames_append, labelNames_map_ins, jumpNames, labelNames,
      List.mem_append, List.mem_cons, List.not_mem_nil, or_false, false_or] at hl ⊢
    tauto
  | ifThen block thn rest ihThn ihRest =>
    intro l hl
    have := ihThn (c + 1) l
    have := ihRest (c + 1 + thn.labelsUsed) l
    simp only [bodyItems, ifItems, CodeItems.ins, jumpNames_append,
      jumpNames_map_ins, labelNames_append, labelNames_map_ins, jumpNames, labelNames,
      List.mem_append, List.mem_cons, List.not_mem_nil, or_false, false_or] at hl ⊢
    tauto
  | ifElse block thn els rest ihThn ihEls ihRest =>
    intro l hl
    have := ihThn (c + 1) l
    have := ihEls (c + 2 + thn.labelsUsed) l
    have := ihRest (c + 2 + thn.labelsUsed + els.labelsUsed) l
    simp only [bodyItems, ifItems, CodeItems.ins, jumpNames_append,
      jumpNames_map_ins, labelNames_append, labelNames_map_ins, jumpNames, labelNames,
      List.mem_append, List.mem_cons, List.not_mem_nil, or_false, false_or] at hl ⊢
    tauto

theorem opBlock_length (frame : Frame) (o : Op) : (opBlock frame o).length ≤ 10 := by
  cases o with
  | localVar opType index =>
    rw [opBlock]
    cases frame[index.toNat]? with
    | none => exact Nat.zero_le _
    | some slot => cases opType <;> simp [localBlock, pushBlock, popBlock, teeBlock]
  | nop | ret => simp [opBlock]
  | i32const | i64const => simp [opBlock, mov32, mov64, pushBlock]
  | compare | arith => simp [opBlock, popBlock, pushBlock]

theorem divItems_size (width : Width) (signed : Bool) : size (divItems width signed) ≤ 22 := by
  cases width <;>
    simp [divItems, guardItems, CodeItems.ins, popBlock, pushBlock, movConst, mov32, mov64]

/-- A byte of code becomes at most twenty-two instructions. -/
theorem bodyItems_size (frame : Frame) (seq : Seq) (c : Nat) :
    size (bodyItems frame c seq) ≤ 22 * seq.bytes.length := by
  induction seq generalizing c with
  | nil => simp [bodyItems]
  | op o rest ih =>
    have := ih c
    have := opBlock_length frame o
    have := o.bytes_pos
    simp only [bodyItems, CodeItems.ins, size_append, size_map_ins, Seq.bytes, List.length_append]
    omega
  | div width signed rest ih =>
    have := ih c
    have := divItems_size width signed
    simp only [bodyItems, size_append, Seq.bytes, List.length_cons]
    omega
  | ifThen block thn rest ihThn ihRest =>
    have := ihThn (c + 1)
    have := ihRest (c + 1 + thn.labelsUsed)
    simp only [bodyItems, ifItems, CodeItems.ins, size_append, size_map_ins, size_cons, size_nil,
      Item.size_jump, Item.size_label, Seq.bytes, List.length_cons, List.length_append, teeBlock,
      popBlock, List.length_nil]
    omega
  | ifElse block thn els rest ihThn ihEls ihRest =>
    have := ihThn (c + 1)
    have := ihEls (c + 2 + thn.labelsUsed)
    have := ihRest (c + 2 + thn.labelsUsed + els.labelsUsed)
    simp only [bodyItems, ifItems, CodeItems.ins, size_append, size_map_ins, size_cons, size_nil,
      Item.size_jump, Item.size_label, Seq.bytes, List.length_cons, List.length_append, teeBlock,
      popBlock, List.length_nil]
    omega

theorem storesBlock_length (offset : Int) (stores : List Store) :
    (storesBlock offset stores).length = stores.length := by
  induction stores generalizing offset with
  | nil => rfl
  | cons st rest ih => rw [storesBlock, List.length_cons, ih, List.length_cons]

theorem paramStores_length (fp gp : Nat) (vs : List wasm_type) :
    (paramStores fp gp vs).length = vs.length := by
  rw [← List.length_map (f := Store.value), paramStores_values]

theorem length_le_totalSize (vs : List wasm_type) : 4 * (vs.length : Int) ≤ totalSize vs := by
  induction vs with
  | nil => simp
  | cons v vs ih =>
    have := slotSize_bounds v
    rw [totalSize_cons, List.length_cons]
    omega

/-- The code of a function up to its epilogue. -/
def mainItems (params locals : List wasm_type) (body : Seq) : List CodeItem :=
  stubItems ++ [.label "entry"] ++ frameItems params locals ++ wrapperItems ++
    bodyItems (frameOf params locals) 0 body ++ [.label "end"] ++ CodeItems.ins (returnCode 0) ++
    [.label "finalize"]

theorem wholeItems_split (params locals results : List wasm_type) (body : Seq) :
    wholeItems params locals results body =
      mainItems params locals body ++ CodeItems.ins (epilogueBlock params locals results) := rfl

theorem mainItems_size {params locals : List wasm_type} (small : frameSize params locals ≤ 4080)
    (body : Seq) : size (mainItems params locals body) ≤ 1060 + 22 * body.bytes.length := by
  have fits := (frameSize_bounds params locals).1
  have := bodyItems_size (frameOf params locals) body 0
  have := length_le_totalSize params
  have := length_le_totalSize locals
  have ends : localEnd params locals = totalSize params + 8 + totalSize locals := rfl
  have stubs : size stubItems = 32 := rfl
  have wrapper : size wrapperItems = 6 := rfl
  have code : (returnCode 0).length = 2 := rfl
  have stores : (localStores locals).length = locals.length := List.length_map _
  simp only [mainItems, frameItems, CodeItems.ins, size_append, size_map_ins, size_cons, size_nil,
    Item.size_label, List.length_cons, List.length_append, storesBlock_length, paramStores_length,
    stubs, wrapper, code, stores]
  omega

theorem wholeItems_named (params locals results : List wasm_type) (body : Seq) :
    ∀ l ∈ jumpNames (wholeItems params locals results body),
      l ∈ labelNames (wholeItems params locals results body) := by
  intro l hl
  have inside := jumps_named (frameOf params locals) body 0 l
  simp only [wholeItems, stubItems, wrapperItems, frameItems, CodeItems.ins, jumpNames_append,
    jumpNames_map_ins, labelNames_append, labelNames_map_ins, jumpNames, labelNames,
    List.mem_append, List.mem_cons, List.not_mem_nil, or_false, false_or] at hl ⊢
  tauto

/-- The number of bytes of a body as its size field counts them. -/
def bodySize (groups : List Group) (body : Seq) : Nat :=
  1 + 2 * groups.length + body.bytes.length + 1

theorem linkable_wholeItems {params locals : List wasm_type}
    (small : frameSize params locals ≤ 4080)
    (results : List wasm_type) {body : Seq} (short : body.bytes.length ≤ 255) :
    Linkable (wholeItems params locals results body) := by
  have bound := mainItems_size small body
  refine ⟨wholeItems_named params locals results body, fun e he => ?_, fun j hj => ?_⟩
  · rw [wholeItems_split, labels_append, CodeItems.ins, labels_map_ins, List.append_nil] at he
    have := label_bounds he
    have behind : 2 ≤ (epilogueBlock params locals results).length := by
      simp [epilogueBlock]
    rw [wholeItems_split, size_append, CodeItems.ins, size_map_ins]
    omega
  · rw [wholeItems_split, jumps_append, CodeItems.ins, jumps_map_ins, List.append_nil] at hj
    have := jump_bounds hj
    omega

/-- What a completed compilation went through: generation, and then the fix-up. -/
theorem processCodeVec_ok {params results : List wasm_type} {groups : List Group} {body : Seq}
    {pre : Text} {order : WasmFunction.VisitOrder} {g : WasmFunction}
    (size_byte : bodySize groups body ≤ 255)
    (done : processCodeVec (delivered params results groups body pre) order = .ok g) :
    ∃ (f : WasmFunction) (vs : List Word),
      generate (delivered params results groups body pre) = .ok f ∧
      Generated params (groups.flatMap groupLocals) results body f ∧
      g.pre_instructions_for_param_loading = pre ∧
      (∀ other, f.fixUpfakeBranch other = .ok g) ∧ FixedUp f g ∧
      g.wasm_instructions = vs.flatMap wordText ∧
      vs.map decode =
        (resolve link
          (firstPosition (wholeItems params (groups.flatMap groupLocals) results body)) 0
          (wholeItems params (groups.flatMap groupLocals) results body)).map some := by
  obtain ⟨f, generated, fixed⟩ := ok_of_bind done
  obtain ⟨known, prepared⟩ := generate_ok generated
  have short : body.bytes.length ≤ 255 := by
    rw [bodySize] at size_byte
    omega
  obtain ⟨vs, anyOrder, exactly, linked⟩ :=
    fixUp_represents known.represents (linkable_wholeItems known.small results short)
  rw [anyOrder order] at fixed
  cases fixed
  exact ⟨f, vs, generated, known, prepared, anyOrder, exactly, rfl, linked⟩

/-- Whenever a function of at most 255 bytes is compiled, its branches are all fixed, and
every other order of the visits gives the same function. -/
theorem branch_fixup_exact {params results : List wasm_type} {groups : List Group} {body : Seq}
    {pre : Text} (size_byte : bodySize groups body ≤ 255) {order : WasmFunction.VisitOrder}
    {g : WasmFunction}
    (done : processCodeVec (delivered params results groups body pre) order = .ok g) :
    ∃ f, generate (delivered params results groups body pre) = .ok f ∧ FixedUp f g ∧
      ∀ other, processCodeVec (delivered params results groups body pre) other = .ok g := by
  obtain ⟨f, vs, generated, -, -, anyOrder, exactly, -⟩ := processCodeVec_ok size_byte done
  refine ⟨f, generated, exactly, fun other => ?_⟩
  rw [processCodeVec, generated, ok_bind, anyOrder other]

/-- The order of insertion. -/
def inOrder : WasmFunction.VisitOrder := ⟨id, fun _ => .refl _⟩

theorem ok_of_isOk {ε α : Type} {x : Except ε α} (h : x.isOk = true) : ∃ a, x = .ok a := by
  cases x with
  | ok a => exact ⟨a, rfl⟩
  | error e => exact nomatch h

/-- A division under an `if`, with a local of its own. -/
def guardedDivision : Seq :=
  .op (.localVar .get 0) (.ifElse .i32 (.op (.i32const 7) (.op (.localVar .get 1)
    (.div .w true .nil))) (.op (.i32const 1) .nil) .nil)

theorem branch_fixup_exact_sample : ∃ f g,
    generate (delivered [.i32 1] [.i32 0] [(1, 0x7f)] guardedDivision) = .ok f ∧ FixedUp f g ∧
      ∀ other, processCodeVec (delivered [.i32 1] [.i32 0] [(1, 0x7f)] guardedDivision) other =
        .ok g := by
  obtain ⟨g, done⟩ := ok_of_isOk (show (processCodeVec
    (delivered [.i32 1] [.i32 0] [(1, 0x7f)] guardedDivision) inOrder).isOk = true by
      decide +kernel)
  obtain ⟨f, generated, exactly, other⟩ := branch_fixup_exact (by decide) done
  exact ⟨f, g, generated, exactly, other⟩

end BranchFixup
