import TinyWasm.CompilerFrame
import TinyWasm.BranchFixup

/-!
# The text of any function

Bytes that need not be a body are compiled to whole words as well. Every branch
that waits for the fix-up keeps a placeholder of its own, and the fix-up changes
no other word.
-/

namespace CodeText

open HexText Opcode Wasm Emit ArmInstruction CodeGrowth CompilerFrame LabelledCode CodeItems
open EmissionSpec EncoderCorrectness FrameSpec WholeFunction BranchFixup

/-- The words of the text, with a placeholder for each branch that is not placed yet. -/
structure Holds (f : WasmFunction) (ws : List Word) : Prop where
  text : f.wasm_instructions = ws.flatMap wordText
  pending : ∀ x ∈ f.fake_insert_map, ∃ k, x.2.1 = 8 * k ∧ ws[k]? = some placeholder
  apart : (f.fake_insert_map.map fun x => x.2.1).Nodup

/-- Words go behind the text; branches and labels are only added. -/
structure Grows (f g : WasmFunction) : Prop where
  stack_size : g.stack_size = f.stack_size
  branches : ∀ x ∈ f.fake_insert_map, x ∈ g.fake_insert_map
  labels : ∀ name place, f.label_map.lookup name = some place →
    g.label_map.lookup name = some place
  code : ∀ ws, Holds f ws → ∃ vs, Holds g (ws ++ vs)

theorem Grows.refl (f : WasmFunction) : Grows f f where
  stack_size := rfl
  branches := fun _ member => member
  labels := fun _ _ recorded => recorded
  code := fun ws holds => ⟨[], by rwa [List.append_nil]⟩

theorem Grows.trans {f g h : WasmFunction} (first : Grows f g) (second : Grows g h) :
    Grows f h where
  stack_size := second.stack_size.trans first.stack_size
  branches := fun x member => second.branches x (first.branches x member)
  labels := fun name place recorded => second.labels name place (first.labels name place recorded)
  code := by
    intro ws holds
    obtain ⟨us, between⟩ := first.code ws holds
    obtain ⟨vs, after⟩ := second.code (ws ++ us) between
    exact ⟨us ++ vs, by rwa [← List.append_assoc]⟩

theorem holds_append {f : WasmFunction} {ws : List Word} (holds : Holds f ws) (vs : List Word) :
    Holds (f.constructFullinstr (vs.flatMap wordText)) (ws ++ vs) := by
  refine ⟨?_, ?_, holds.apart⟩
  · rw [WasmFunction.constructFullinstr, holds.text, List.flatMap_append]
  · intro x member
    obtain ⟨k, place, waits⟩ := holds.pending x member
    obtain ⟨inside, -⟩ := List.getElem?_eq_some_iff.mp waits
    exact ⟨k, place, by rwa [List.getElem?_append_left inside]⟩

theorem grows_append (f : WasmFunction) {text : Text} (words : Words text) :
    Grows f (f.constructFullinstr text) where
  stack_size := rfl
  branches := fun _ member => member
  labels := fun _ _ recorded => recorded
  code := by
    intro ws holds
    obtain ⟨vs, rfl⟩ := words
    exact ⟨vs, holds_append holds vs⟩

theorem grows_branch (f : WasmFunction) (label kind : String) :
    Grows f (f.fakeInsertBranch label kind) where
  stack_size := rfl
  branches := fun _ member => List.mem_append_left _ member
  labels := fun _ _ recorded => recorded
  code := by
    intro ws holds
    have length : f.wasm_instructions.length = 8 * ws.length := by
      rw [holds.text, flatMap_wordText_length]
    refine ⟨[placeholder], ?_, ?_, ?_⟩
    · rw [WasmFunction.fakeInsertBranch, WasmFunction.constructFullinstr, holds.text,
        placeholder_text, List.flatMap_append, List.flatMap_singleton]
    · intro x member
      rcases List.mem_append.mp member with earlier | here
      · obtain ⟨k, place, waits⟩ := holds.pending x earlier
        obtain ⟨inside, -⟩ := List.getElem?_eq_some_iff.mp waits
        exact ⟨k, place, by rwa [List.getElem?_append_left inside]⟩
      · obtain rfl := List.mem_singleton.mp here
        refine ⟨ws.length, length, ?_⟩
        rw [List.getElem?_append_right (Nat.le_refl _), Nat.sub_self]
        rfl
    · have fresh : f.wasm_instructions.length ∉ f.fake_insert_map.map fun x => x.2.1 := by
        intro member
        obtain ⟨x, earlier, same⟩ := List.mem_map.mp member
        obtain ⟨k, place, waits⟩ := holds.pending x earlier
        obtain ⟨inside, -⟩ := List.getElem?_eq_some_iff.mp waits
        omega
      rw [WasmFunction.fakeInsertBranch, List.map_append, List.map_singleton]
      refine List.nodup_append.mpr ⟨holds.apart, List.nodup_singleton _, ?_⟩
      rintro a earlier b here rfl
      obtain rfl : a = f.wasm_instructions.length := List.mem_singleton.mp here
      exact fresh earlier

theorem grows_label (f : WasmFunction) (label : String) : Grows f (f.insertLabel label) := by
  rw [WasmFunction.insertLabel]
  split
  · exact .refl f
  · refine ⟨rfl, fun _ member => member, ?_, ?_⟩
    · intro name place recorded
      rw [List.lookup_append, recorded]
      rfl
    · intro ws holds
      refine ⟨[], ?_⟩
      rw [List.append_nil]
      exact ⟨holds.text, holds.pending, holds.apart⟩

theorem grows_growth : Growth Grows where
  refl := .refl
  trans := .trans
  append := grows_append
  branch := grows_branch
  label := grows_label
  control := fun _ _ _ => ⟨rfl, fun _ member => member, fun _ _ recorded => recorded,
    fun ws holds => ⟨[], by rw [List.append_nil]; exact ⟨holds.text, holds.pending, holds.apart⟩⟩⟩

/-- Text that carries items holds their words. -/
theorem holds_of_represents {f : WasmFunction} {items : List CodeItem}
    (represents : Represents f items) :
    ∃ ws, Carries items ws ∧ Holds f ws := by
  obtain ⟨ws, carries, text⟩ := represents.words
  refine ⟨ws, carries, text, ?_, ?_⟩
  · intro x member
    rw [represents.jumps] at member
    obtain ⟨j, jump, rfl⟩ := List.mem_map.mp member
    have inside : j.2.1 < ws.length := by
      rw [carries.length]
      simpa using (jump_bounds jump).2
    refine ⟨j.2.1, rfl, ?_⟩
    have here := List.getElem?_eq_getElem inside
    rcases carried_word (p := 0) carries here with ⟨l, k, -, same⟩ | ⟨clear, -⟩
    · rw [here, same]
    · exact absurd (Nat.zero_add _).symm (clear j jump)
  · have places : (fun x : FakeBranch => x.2.1) ∘ entry = (8 * ·) ∘ fun j => j.2.1 := rfl
    rw [represents.jumps, List.map_map, places, ← List.map_map]
    exact (jumps_apart 0 items).map fun a b same => Nat.eq_of_mul_eq_mul_left (by decide) same

/-! ### The fix-up -/

theorem word_encodeFixed (kind : String) (location origin : Nat) :
    Completes (WasmFunction.encodeFixed kind location origin) IsWord := by
  rw [WasmFunction.encodeFixed]
  split_ifs
  · exact word_encodeBranch _ _
  · exact word_encodeBranch _ _
  · exact completes_after fun _ => word_encodeBranchCondition _ _

/-- The word at `k` is the branch `x` to the place its label is recorded at. -/
def Placed (label_map : List (String × Nat)) (ws : List Word) (x : FakeBranch) : Prop :=
  ∃ k w, x.2.1 = 8 * k ∧ ws[k]? = some w ∧ ∀ location, label_map.lookup x.1 = some location →
    WasmFunction.encodeFixed x.2.2 location x.2.1 = .ok (wordText w)

/-- `label_map[label]` records a label that is missing. -/
def reading (f : WasmFunction) (label : String) : WasmFunction :=
  match f.label_map.lookup label with
  | some _ => f
  | none => { f with label_map := f.label_map ++ [(label, 0)] }

theorem reading_grows (f : WasmFunction) (label : String) :
    (reading f label).wasm_instructions = f.wasm_instructions ∧
      (reading f label).stack_size = f.stack_size ∧
      ∀ name location, f.label_map.lookup name = some location →
        (reading f label).label_map.lookup name = some location := by
  rw [reading]
  cases f.label_map.lookup label with
  | some _ => exact ⟨rfl, rfl, fun _ _ recorded => recorded⟩
  | none =>
    refine ⟨rfl, rfl, ?_⟩
    intro name location recorded
    rw [List.lookup_append, recorded]
    rfl

/-- A visit replaces the word it is about, and forgets no label. -/
theorem fixOne_ok {f g : WasmFunction} {ws : List Word} {x : FakeBranch} {k : Nat}
    (text : f.wasm_instructions = ws.flatMap wordText) (place : x.2.1 = 8 * k)
    (inside : k < ws.length) (done : f.fixOne x = .ok g) :
    ∃ w, g.wasm_instructions = (ws.set k w).flatMap wordText ∧
      (∀ name location, f.label_map.lookup name = some location →
        g.label_map.lookup name = some location) ∧
      (∀ location, f.label_map.lookup x.1 = some location →
        WasmFunction.encodeFixed x.2.2 location x.2.1 = .ok (wordText w)) ∧
      g.stack_size = f.stack_size := by
  obtain ⟨label, origin, kind⟩ := x
  simp only at place
  subst place
  have unfolded : (do
      let instr ← WasmFunction.encodeFixed kind
        (((reading f label).label_map.lookup label).getD 0) (8 * k)
      let fixed ← replace (reading f label).wasm_instructions (8 * k) 8 instr
      return { reading f label with wasm_instructions := fixed }) = .ok g := done
  obtain ⟨same, size, labels⟩ := reading_grows f label
  obtain ⟨instr, encoded, unfolded⟩ := ok_of_bind unfolded
  obtain ⟨fixed, replaced, unfolded⟩ := ok_of_bind unfolded
  obtain ⟨w, rfl⟩ := word_encodeFixed _ _ _ _ encoded
  rw [same, text, replace_word w inside] at replaced
  cases replaced
  cases unfolded
  refine ⟨w, rfl, labels, ?_, size⟩
  intro location recorded
  rw [labels _ _ recorded] at encoded
  exact encoded

/-- The visits change the words of the branches and no others. -/
theorem visits_ok {xs : List FakeBranch} {f g : WasmFunction} {ws : List Word}
    (text : f.wasm_instructions = ws.flatMap wordText)
    (inside : ∀ x ∈ xs, ∃ k, x.2.1 = 8 * k ∧ k < ws.length)
    (apart : (xs.map fun x => x.2.1).Nodup) (done : xs.foldlM WasmFunction.fixOne f = .ok g) :
    ∃ vs : List Word, g.wasm_instructions = vs.flatMap wordText ∧ vs.length = ws.length ∧
      (∀ k, (∀ x ∈ xs, x.2.1 ≠ 8 * k) → vs[k]? = ws[k]?) ∧
      (∀ x ∈ xs, Placed f.label_map vs x) ∧
      (∀ name location, f.label_map.lookup name = some location →
        g.label_map.lookup name = some location) ∧ g.stack_size = f.stack_size := by
  induction xs generalizing f ws with
  | nil =>
    cases done
    exact ⟨ws, text, rfl, fun _ _ => rfl, fun x none => absurd none List.not_mem_nil,
      fun _ _ recorded => recorded, rfl⟩
  | cons x xs ih =>
    rw [List.foldlM_cons] at done
    obtain ⟨h, visit, done⟩ := ok_of_bind done
    obtain ⟨k, place, within⟩ := inside x List.mem_cons_self
    rw [List.map_cons, List.nodup_cons] at apart
    obtain ⟨w, text', labels, encoded, size⟩ := fixOne_ok text place within visit
    obtain ⟨vs, final, length, others, visited, labels', size'⟩ := ih text'
      (fun y later => by
        rw [List.length_set]
        exact inside y (List.mem_cons_of_mem _ later)) apart.2 done
    have alone : ∀ y ∈ xs, y.2.1 ≠ 8 * k := by
      intro y later same
      exact apart.1 (List.mem_map.mpr ⟨y, later, same.trans place.symm⟩)
    refine ⟨vs, final, by rw [length, List.length_set], ?_, ?_,
      fun name location recorded => labels' _ _ (labels _ _ recorded), size'.trans size⟩
    · intro j clear
      have distinct : k ≠ j := by
        rintro rfl
        exact clear x List.mem_cons_self place
      rw [others j fun y later => clear y (List.mem_cons_of_mem _ later),
        List.getElem?_set_ne distinct]
    · intro y member
      rcases List.mem_cons.mp member with rfl | later
      · exact ⟨k, w, place, by rw [others k alone, List.getElem?_set_self within], encoded⟩
      · obtain ⟨j, v, at_j, here, branch⟩ := visited y later
        exact ⟨j, v, at_j, here, fun location recorded =>
          branch location (labels _ _ recorded)⟩

/-- The fix-up keeps every word that is no placeholder. -/
theorem fixUp_ok {f g : WasmFunction} {ws : List Word} (holds : Holds f ws)
    {order : WasmFunction.VisitOrder} (done : f.fixUpfakeBranch order = .ok g) :
    ∃ vs : List Word, g.wasm_instructions = vs.flatMap wordText ∧ vs.length = ws.length ∧
      (∀ (k : Nat) (w : Word), ws[k]? = some w → w ≠ placeholder → vs[k]? = some w) ∧
      (∀ x ∈ f.fake_insert_map, Placed f.label_map vs x) ∧
      (∀ name location, f.label_map.lookup name = some location →
        g.label_map.lookup name = some location) ∧ g.stack_size = f.stack_size := by
  have perm := order.perm f.fake_insert_map
  obtain ⟨vs, text, length, others, visited, labels, size⟩ := visits_ok holds.text
    (fun x member => by
      obtain ⟨k, place, waits⟩ := holds.pending x (perm.mem_iff.mp member)
      exact ⟨k, place, (List.getElem?_eq_some_iff.mp waits).1⟩)
    ((perm.map fun x => x.2.1).nodup_iff.mpr holds.apart) done
  refine ⟨vs, text, length, ?_, fun x member => visited x (perm.mem_iff.mpr member), labels, size⟩
  intro k w here other
  rw [others k, here]
  intro x member same
  obtain ⟨j, place, waits⟩ := holds.pending x (perm.mem_iff.mp member)
  obtain rfl : j = k := by omega
  exact other (Option.some.inj (here.symm.trans waits))

/-! ### The whole function -/

/-- No code has been generated yet. -/
structure Unwritten (f : WasmFunction) : Prop where
  text : f.wasm_instructions = []
  branches : f.fake_insert_map = []
  labels : f.label_map = []

/-- A function as it is parsed, with the types of its type index, whatever its bytes are. -/
def parsed (params results : List wasm_type) (declares : Nat) (code : List Text) : WasmFunction :=
  { param_data := params, result_data := results, local_var_declare_count := declares
    code_vec := code }

theorem parsed_unwritten (params results : List wasm_type) (declares : Nat) (code : List Text) :
    Unwritten (parsed params results declares code) := ⟨rfl, rfl, rfl⟩

/-- `sub sp, sp, #size` and `add sp, sp, #size`. -/
def moveSp (isSub : Bool) (size : Int) : Instr :=
  .addSubImm isSub false .x 31 31 (BitVec.ofInt 12 size) false

/-- What is known of generated code, whatever bytes it is generated from. -/
structure Compiled (params locals : List wasm_type) (f : WasmFunction) (ws : List Word) : Prop where
  holds : Holds f ws
  stack_size : f.stack_size = frameSize params locals
  small : frameSize params locals ≤ 4080
  stored : Stored (paramEnd params) (paramStores 0 0 params)
  branch : ("entry", 0, "b") ∈ f.fake_insert_map
  entry : f.label_map.lookup "entry" = some (8 * size stubItems)
  enters : ∃ w, ws[size stubItems]? = some w ∧
    decode w = some (moveSp true (frameSize params locals))
  leaves : ∃ us w r, ws = us ++ [w, r] ∧
    decode w = some (moveSp false (frameSize params locals)) ∧ decode r = some (.ret 30)

/-- The word of an instruction stands where the items in front of it end. -/
theorem carried_ins {xs ys : List CodeItem} {i : Instr} {ws : List Word}
    (h : Carries (xs ++ .ins i :: ys) ws) : ∃ w, ws[size xs]? = some w ∧ decode w = some i := by
  induction xs generalizing ws with
  | nil =>
    cases h with
    | ins word rest => exact ⟨_, rfl, word⟩
  | cons x xs ih =>
    cases h with
    | ins word rest =>
      obtain ⟨w, here, known⟩ := ih rest
      refine ⟨w, ?_, known⟩
      rw [size_cons, Nat.add_comm]
      exact here
    | jump rest =>
      obtain ⟨w, here, known⟩ := ih rest
      refine ⟨w, ?_, known⟩
      rw [size_cons, Nat.add_comm]
      exact here
    | label rest =>
      obtain ⟨w, here, known⟩ := ih rest
      refine ⟨w, ?_, known⟩
      rw [size_cons, Item.size_label, Nat.zero_add]
      exact here

/-- The epilogue ends in the release of the frame and the return. -/
theorem finalize_holds {f g : WasmFunction} {ws : List Word} (holds : Holds f ws)
    (done : main_entry_finalize f = .ok g) :
    ∃ vs w r, Holds g (ws ++ (vs ++ [w, r])) ∧ decode w = some (moveSp false f.stack_size) ∧
      decode r = some (.ret 30) := by
  obtain ⟨h, restored, ret⟩ := ok_of_bind done
  obtain ⟨results, popped, restored⟩ := ok_of_bind restored
  obtain ⟨restore, call, restored⟩ := ok_of_bind restored
  cases restored
  obtain ⟨vs, rfl⟩ := words_popResults _ _ _ popped
  obtain ⟨w, printed, add⟩ := addSubSp_yields false (encodeAddSubImm_ok call)
  obtain ⟨r, back, leave⟩ := encodeReturn_yields (isReg 30)
  obtain rfl : restore = wordText w := Except.ok.inj (call.symm.trans printed)
  refine ⟨vs, w, r, ?_, add, leave⟩
  have whole := holds_append holds (vs ++ [w, r])
  have emitted : emitRet (f.constructFullinstr (vs.flatMap wordText ++ wordText w)) =
      .ok ((f.constructFullinstr (vs.flatMap wordText ++ wordText w)).constructFullinstr
        (wordText r)) := by
    have plain : encodeReturn = .ok (wordText r) := back
    rw [emitRet, WasmFunction.emit, plain]
    rfl
  obtain rfl : g = _ := Except.ok.inj (ret.symm.trans emitted)
  have text : f.wasm_instructions ++ (vs.flatMap wordText ++ wordText w) ++ wordText r =
      f.wasm_instructions ++ (vs ++ [w, r]).flatMap wordText := by
    simp
  exact ⟨text.trans whole.text, whole.pending, whole.apart⟩

theorem stubs_entry : (labels 0 stubItems).lookup "entry" = none := by decide

theorem generate_compiled {f g : WasmFunction} (unwritten : Unwritten f)
    (done : generate f = .ok g) :
    ∃ ws, Compiled f.param_data
      (f.local_data ++ declared f.code_vec f.local_var_declare_count 0) g ws := by
  obtain ⟨⟨f₀, offset⟩, read, done⟩ := ok_of_bind done
  have start := readLocals_eq read
  obtain ⟨f₁, stubs, done⟩ := ok_of_bind done
  obtain ⟨f₂, frame, done⟩ := ok_of_bind done
  obtain ⟨f₃, wrapper, done⟩ := ok_of_bind done
  obtain ⟨f₄, loop, done⟩ := ok_of_bind done
  obtain ⟨f₅, code, done⟩ := ok_of_bind done
  obtain ⟨f₆, store, done⟩ := ok_of_bind done
  obtain ⟨stubStep, -, -⟩ := extends_of_emits (emitStubs_emits f₀) stubs
  obtain ⟨entryStep, -, -⟩ := extends_of_emits (emits_insertLabel f₁ "entry") rfl
  have before := stubStep.trans entryStep
  have empty : Represents f₀ [] := by
    rw [start]
    exact represents_empty unwritten.text unwritten.branches unwritten.labels
  have entered := before.code [] empty
  rw [List.nil_append] at entered
  have untouched : (f₁.insertLabel "entry").param_data = f.param_data ∧
      (f₁.insertLabel "entry").local_data =
        f.local_data ++ declared f.code_vec f.local_var_declare_count 0 := by
    rw [before.rest, start]
    exact ⟨rfl, rfl⟩
  obtain ⟨enters, stored, small, -, -, -⟩ := main_entry_initialize_ok frame
  have framed := enters.code _ entered
  have sizeHere := enters.stack_size
  rw [untouched.1, untouched.2] at framed sizeHere small
  rw [untouched.1] at stored
  generalize f.local_data ++ declared f.code_vec f.local_var_declare_count 0 = locals at *
  have grown : Grows f₂ (f₆.insertLabel "finalize") := by
    refine (grows_growth.wrapper_setjmp f₂ _ wrapper).trans ?_
    refine (grows_growth.jiting_wasm_code f₃ _ _ loop).trans ?_
    refine (grows_growth.emitWord f₄ (word_encodeMovWide _ _ _ _ _) _ code).trans ?_
    refine (grows_growth.emitWord f₅ (word_encodeLoadStoreImm _ _ _ _ _) _ store).trans ?_
    exact grows_label f₆ "finalize"
  obtain ⟨us, carries, holds⟩ := holds_of_represents framed
  obtain ⟨vs, before_end⟩ := grown.code us holds
  obtain ⟨rs, w, r, whole, add, ret⟩ := finalize_holds before_end done
  have last : Grows (f₆.insertLabel "finalize") g := grows_growth.main_entry_finalize _ _ done
  have sized : (f₆.insertLabel "finalize").stack_size = frameSize f.param_data locals :=
    grown.stack_size.trans sizeHere
  refine ⟨us ++ vs ++ (rs ++ [w, r]), whole, last.stack_size.trans sized, small, stored, ?_, ?_, ?_,
    ?_⟩
  · apply last.branches
    apply grown.branches
    rw [framed.jumps]
    exact List.mem_map.mpr ⟨("entry", 0, .b), List.mem_cons_self, rfl⟩
  · apply last.labels
    apply grown.labels
    rw [framed.labels, labels_append, labels_append, lookup_append, lookup_append, stubs_entry]
    rfl
  · rw [frameItems, CodeItems.ins, List.map_cons] at carries
    obtain ⟨word, here, known⟩ := carried_ins carries
    refine ⟨word, ?_, known⟩
    rw [List.append_assoc, List.getElem?_append_left]
    · simpa using here
    · simpa using (List.getElem?_eq_some_iff.mp here).1
  · exact ⟨us ++ vs ++ rs, w, r, (List.append_assoc ..).symm, sized ▸ add, ret⟩

/-- The words of a compiled function. The first one leads to the entry. -/
structure Finished (params locals : List wasm_type) (g : WasmFunction) (ws : List Word) : Prop where
  text : g.wasm_instructions = ws.flatMap wordText
  stack_size : g.stack_size = frameSize params locals
  small : frameSize params locals ≤ 4080
  stored : Stored (paramEnd params) (paramStores 0 0 params)
  entry : g.label_map.lookup "entry" = some (8 * size stubItems)
  first : ∃ w, ws[0]? = some w ∧ decode w = some (link .b (size stubItems))
  enters : ∃ w, ws[size stubItems]? = some w ∧
    decode w = some (moveSp true (frameSize params locals))
  leaves : ∃ us w r, ws = us ++ [w, r] ∧
    decode w = some (moveSp false (frameSize params locals)) ∧ decode r = some (.ret 30)

theorem ne_placeholder {w : Word} {i : Instr} (h : decode w = some i) : w ≠ placeholder := by
  rintro rfl
  rw [decode_placeholder] at h
  exact nomatch h

/-- The fix-up leaves the entry and the exit of the function as they are. -/
theorem fixUp_finished {params locals : List wasm_type} {f g : WasmFunction} {ws : List Word}
    (compiled : Compiled params locals f ws) {order : WasmFunction.VisitOrder}
    (done : f.fixUpfakeBranch order = .ok g) : ∃ vs, Finished params locals g vs := by
  obtain ⟨vs, text, length, others, visited, labels, size⟩ := fixUp_ok compiled.holds done
  refine ⟨vs, text, size.trans compiled.stack_size, compiled.small, compiled.stored,
    labels _ _ compiled.entry, ?_, ?_, ?_⟩
  · obtain ⟨k, w, place, here, encoded⟩ := visited _ compiled.branch
    have printed := encoded _ compiled.entry
    obtain ⟨v, yields, known⟩ := encodeFixed_yields .b
      (show LabelledCode.size stubItems < 2 ^ 18 by decide) (show 0 < 2 ^ 18 by decide)
    obtain rfl : k = 0 := by
      simp only at place
      omega
    obtain rfl := wordText_injective (Except.ok.inj (printed.symm.trans yields))
    exact ⟨w, here, known⟩
  · obtain ⟨w, here, known⟩ := compiled.enters
    exact ⟨w, others _ w here (ne_placeholder known), known⟩
  · obtain ⟨us, w, r, split, add, ret⟩ := compiled.leaves
    have at_w : ws[us.length]? = some w := by simp [split]
    have at_r : ws[us.length + 1]? = some r := by simp [split]
    have w_stays := others _ w at_w (ne_placeholder add)
    have r_stays := others _ r at_r (ne_placeholder ret)
    have count : vs.length = us.length + 2 := by
      rw [length, split, List.length_append]
      rfl
    have cut : vs.drop us.length = [w, r] := by
      apply List.ext_getElem?
      intro i
      rw [List.getElem?_drop]
      match i with
      | 0 => exact w_stays
      | 1 => exact r_stays
      | i + 2 =>
        rw [List.getElem?_eq_none (by omega)]
        rfl
    refine ⟨vs.take us.length, w, r, ?_, add, ret⟩
    rw [← cut, List.take_append_drop]

/-- Whatever bytes a function has, its compilation is words that enter and leave one frame. -/
theorem processCodeVec_finished {f g : WasmFunction} {order : WasmFunction.VisitOrder}
    (unwritten : Unwritten f) (done : processCodeVec f order = .ok g) :
    ∃ ws, Finished f.param_data
      (f.local_data ++ declared f.code_vec f.local_var_declare_count 0) g ws := by
  obtain ⟨h, generated, done⟩ := ok_of_bind done
  obtain ⟨ws, compiled⟩ := generate_compiled unwritten generated
  exact fixUp_finished compiled done

end CodeText
