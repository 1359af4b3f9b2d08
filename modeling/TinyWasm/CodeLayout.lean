import Mathlib
import TinyWasm.BranchFixup
import TinyWasm.StructuredRun

/-!
# Where the code of a function stands

The counter behind `if` and `else` names every label once, so with at most one
division no label is recorded twice and each stands where its branches lead.
This holds behind any words in front of the function, such as those that load
its arguments.
-/

namespace CodeLayout

open HexText ArmInstruction ArmMachine LabelledCode LocalDeclarations SourceBody Wasm Emit
open CodeItems WholeFunction BranchFixup StructuredRun

/-! ### Labels of a body -/

theorem ifLabel_injective {j k : Nat} (h : ifLabel j = ifLabel k) : j = k :=
  Nat.repr_inj.mp ((String.append_right_inj _).mp h)

theorem elseLabel_injective {j k : Nat} (h : elseLabel j = elseLabel k) : j = k :=
  Nat.repr_inj.mp ((String.append_right_inj _).mp h)

theorem ifLabel_ne_elseLabel (j k : Nat) : ifLabel j ≠ elseLabel k := by
  intro h
  have letters := congrArg (fun s => s.toList[1]?) h
  simp [ifLabel, elseLabel] at letters

/-- A label the counter gives out between `c` and `d`. -/
def Numbered (c d : Nat) (l : String) : Prop :=
  ∃ k, c ≤ k ∧ k < d ∧ (l = ifLabel k ∨ l = elseLabel k)

theorem Numbered.mono {c c' d d' : Nat} {l : String} (h : Numbered c d l) (low : c' ≤ c)
    (high : d ≤ d') : Numbered c' d' l := by
  obtain ⟨k, hc, hd, name⟩ := h
  exact ⟨k, by omega, by omega, name⟩

/-- Labels numbered apart are different. -/
theorem Numbered.ne {c d c' d' : Nat} {l l' : String} (h : Numbered c d l)
    (h' : Numbered c' d' l') (apart : d ≤ c' ∨ d' ≤ c) : l ≠ l' := by
  obtain ⟨j, hc, hd, name⟩ := h
  obtain ⟨k, hc', hd', name'⟩ := h'
  have distinct : j ≠ k := by omega
  rintro rfl
  rcases name with rfl | rfl <;> rcases name' with same | same
  · exact distinct (ifLabel_injective same)
  · exact ifLabel_ne_elseLabel j k same
  · exact ifLabel_ne_elseLabel k j same.symm
  · exact distinct (elseLabel_injective same)

/-- A name that is not one of the counter's. -/
def Fixed (l : String) : Prop := ∀ k, l ≠ ifLabel k ∧ l ≠ elseLabel k

theorem Numbered.ne_fixed {c d : Nat} {l l' : String} (h : Numbered c d l) (h' : Fixed l') :
    l ≠ l' := by
  obtain ⟨k, -, -, name⟩ := h
  rintro rfl
  rcases name with name | name
  · exact (h' k).1 name
  · exact (h' k).2 name

/-- The counter's names begin with a capital. -/
theorem fixed_of_front {l : String} (h : l.toList[0]? ≠ some 'E') : Fixed l := by
  intro k
  constructor
  · rintro rfl
    exact h (by simp [ifLabel])
  · rintro rfl
    exact h (by simp [elseLabel])

/-- The labels of a body come from the counter, but for the one of its divisions. -/
theorem labelNames_body (frame : Frame) (seq : Seq) (c : Nat) :
    ∀ l ∈ labelNames (bodyItems frame c seq),
      Numbered c (c + seq.labelsUsed) l ∨ (l = "normal_div" ∧ 0 < seq.divisions) := by
  induction seq generalizing c with
  | nil => simp [bodyItems, labelNames]
  | op o rest ih => simpa [bodyItems, CodeItems.ins, Seq.labelsUsed, Seq.divisions] using ih c
  | div width signed rest ih =>
    intro l hl
    simp only [bodyItems, divItems, guardItems, CodeItems.ins, labelNames_append,
      labelNames_map_ins, labelNames, List.mem_append, List.mem_cons, List.not_mem_nil, or_false,
      List.nil_append, List.append_nil] at hl
    simp only [Seq.labelsUsed, Seq.divisions]
    rcases hl with rfl | hl
    · exact Or.inr ⟨rfl, by omega⟩
    · exact (ih c l hl).imp id fun h => ⟨h.1, by omega⟩
  | ifThen block thn rest ihThn ihRest =>
    intro l hl
    simp only [bodyItems, ifItems, CodeItems.ins, labelNames_append, labelNames_map_ins,
      labelNames, List.mem_append, List.mem_cons, List.not_mem_nil, or_false,
      List.nil_append] at hl
    simp only [Seq.labelsUsed, Seq.divisions]
    rcases hl with (hl | rfl) | hl
    · exact (ihThn _ l hl).imp (·.mono (by omega) (by omega)) fun h => ⟨h.1, by omega⟩
    · exact Or.inl ⟨c, by omega, by omega, Or.inl rfl⟩
    · exact (ihRest _ l hl).imp (·.mono (by omega) (by omega)) fun h => ⟨h.1, by omega⟩
  | ifElse block thn els rest ihThn ihEls ihRest =>
    intro l hl
    simp only [bodyItems, ifItems, CodeItems.ins, labelNames_append, labelNames_map_ins,
      labelNames, List.mem_append, List.mem_cons, List.not_mem_nil, or_false,
      List.nil_append] at hl
    simp only [Seq.labelsUsed, Seq.divisions]
    rcases hl with (((hl | rfl) | hl) | rfl) | hl
    · exact (ihThn _ l hl).imp (·.mono (by omega) (by omega)) fun h => ⟨h.1, by omega⟩
    · exact Or.inl ⟨c, by omega, by omega, Or.inl rfl⟩
    · exact (ihEls _ l hl).imp (·.mono (by omega) (by omega)) fun h => ⟨h.1, by omega⟩
    · exact Or.inl ⟨_, by omega, by omega, Or.inr rfl⟩
    · exact (ihRest _ l hl).imp (·.mono (by omega) (by omega)) fun h => ⟨h.1, by omega⟩

theorem fixed_normal_div : Fixed "normal_div" := fixed_of_front (by decide)

theorem labelNames_div (width : Width) (signed : Bool) :
    labelNames (divItems width signed) = ["normal_div"] := by
  simp [divItems, guardItems, CodeItems.ins, labelNames]

/-- Two stretches of a body, numbered apart, at most one of which divides. -/
theorem body_apart {frame : Frame} {first second : Seq} {c d : Nat}
    (numbered : c + first.labelsUsed ≤ d ∨ d + second.labelsUsed ≤ c)
    (once : first.divisions + second.divisions ≤ 1) :
    ∀ l ∈ labelNames (bodyItems frame c first), ∀ l' ∈ labelNames (bodyItems frame d second),
      l ≠ l' := by
  intro l hl l' hl'
  rcases labelNames_body frame first c l hl with own | ⟨rfl, divides⟩ <;>
    rcases labelNames_body frame second d l' hl' with own' | ⟨rfl, divides'⟩
  · exact own.ne own' numbered
  · exact own.ne_fixed fixed_normal_div
  · exact (own'.ne_fixed fixed_normal_div).symm
  · omega

/-- A label of the counter outside the numbers of a body is none of its labels. -/
theorem label_not_mem {frame : Frame} {seq : Seq} {c k : Nat} {l : String}
    (name : l = ifLabel k ∨ l = elseLabel k) (outside : k < c ∨ c + seq.labelsUsed ≤ k) :
    l ∉ labelNames (bodyItems frame c seq) := by
  intro hl
  have numbered : Numbered k (k + 1) l := ⟨k, by omega, by omega, name⟩
  rcases labelNames_body frame seq c l hl with own | ⟨rfl, -⟩
  · exact own.ne numbered (by omega) rfl
  · exact numbered.ne_fixed fixed_normal_div rfl

/-- With at most one division no label of a body is recorded twice. -/
theorem labelNames_body_nodup (frame : Frame) {seq : Seq} (once : seq.divisions ≤ 1) (c : Nat) :
    (labelNames (bodyItems frame c seq)).Nodup := by
  induction seq generalizing c with
  | nil => exact List.nodup_nil
  | op o rest ih =>
    rw [bodyItems, labelNames_append, CodeItems.ins, labelNames_map_ins]
    exact ih once c
  | div width signed rest ih =>
    rw [Seq.divisions] at once
    rw [bodyItems, labelNames_append, labelNames_div, List.singleton_append, List.nodup_cons]
    refine ⟨fun again => ?_, ih (by omega) c⟩
    rcases labelNames_body frame rest c _ again with own | ⟨-, divides⟩
    · exact own.ne_fixed fixed_normal_div rfl
    · omega
  | ifThen block thn rest ihThn ihRest =>
    rw [Seq.divisions] at once
    have items : labelNames (bodyItems frame c (.ifThen block thn rest)) =
        labelNames (bodyItems frame (c + 1) thn) ++
          ifLabel c :: labelNames (bodyItems frame (c + 1 + thn.labelsUsed) rest) := by
      simp [bodyItems, ifItems, CodeItems.ins, labelNames]
    rw [items, List.nodup_append, List.nodup_cons]
    refine ⟨ihThn (by omega) _, ⟨label_not_mem (Or.inl rfl) (Or.inl (by omega)),
      ihRest (by omega) _⟩, fun l hl l' hl' => ?_⟩
    rcases List.mem_cons.mp hl' with rfl | later
    · rintro rfl
      exact label_not_mem (Or.inl rfl) (Or.inl (by omega)) hl
    · exact body_apart (Or.inl (by omega)) (by omega) l hl l' later
  | ifElse block thn els rest ihThn ihEls ihRest =>
    rw [Seq.divisions] at once
    have items : labelNames (bodyItems frame c (.ifElse block thn els rest)) =
        labelNames (bodyItems frame (c + 1) thn) ++ ifLabel c ::
          (labelNames (bodyItems frame (c + 2 + thn.labelsUsed) els) ++
            elseLabel (c + 1 + thn.labelsUsed) ::
              labelNames (bodyItems frame (c + 2 + thn.labelsUsed + els.labelsUsed) rest)) := by
      simp [bodyItems, ifItems, CodeItems.ins, labelNames]
    rw [items]
    simp only [List.nodup_append, List.nodup_cons, List.mem_append, List.mem_cons, not_or]
    refine ⟨ihThn (by omega) _, ⟨⟨label_not_mem (Or.inl rfl) (Or.inl (by omega)),
      ifLabel_ne_elseLabel _ _, label_not_mem (Or.inl rfl) (Or.inl (by omega))⟩,
      ihEls (by omega) _, ⟨label_not_mem (Or.inr rfl) (Or.inl (by omega)), ihRest (by omega) _⟩,
      fun l hl l' hl' => ?_⟩, fun l hl l' hl' => ?_⟩
    · rcases hl' with rfl | later
      · rintro rfl
        exact label_not_mem (Or.inr rfl) (Or.inl (by omega)) hl
      · exact body_apart (Or.inl (by omega)) (by omega) l hl l' later
    · rcases hl' with rfl | inElse | rfl | later
      · rintro rfl
        exact label_not_mem (Or.inl rfl) (Or.inl (by omega)) hl
      · exact body_apart (Or.inl (by omega)) (by omega) l hl l' inElse
      · rintro rfl
        exact label_not_mem (Or.inr rfl) (Or.inr (by omega)) hl
      · exact body_apart (Or.inl (by omega)) (by omega) l hl l' later

/-! ### Labels of a function -/

theorem labelNames_whole (params locals results : List wasm_type) (body : Seq) :
    labelNames (wholeItems params locals results body) =
      ["setjmp", "preparelongjmp", "longjmp", "raiseException", "entry"] ++
        (labelNames (bodyItems (frameOf params locals) 0 body) ++ ["end", "finalize"]) := by
  simp [wholeItems, stubItems, frameItems, wrapperItems, CodeItems.ins, labelNames]

theorem labelNames_nodup (params locals results : List wasm_type) {body : Seq}
    (once : body.divisions ≤ 1) :
    (labelNames (wholeItems params locals results body)).Nodup := by
  have outside : ∀ l ∈ ["setjmp", "preparelongjmp", "longjmp", "raiseException", "entry", "end",
      "finalize"], l ∉ labelNames (bodyItems (frameOf params locals) 0 body) := by
    intro l hl inside
    have named : Fixed l ∧ l ≠ "normal_div" := by
      simp only [List.mem_cons, List.not_mem_nil, or_false] at hl
      rcases hl with rfl | rfl | rfl | rfl | rfl | rfl | rfl <;>
        exact ⟨fixed_of_front (by decide), by decide⟩
    rcases labelNames_body (frameOf params locals) body 0 l inside with own | ⟨own, -⟩
    · exact own.ne_fixed named.1 rfl
    · exact named.2 own
  rw [labelNames_whole, List.nodup_append, List.nodup_append]
  refine ⟨by decide, ⟨labelNames_body_nodup _ once 0, by decide, ?_⟩, ?_⟩
  · rintro l hl l' hl' rfl
    exact outside l (by simp only [List.mem_cons] at hl' ⊢; tauto) hl
  · rintro l hl l' hl' rfl
    rcases List.mem_append.mp hl' with inside | behind
    · exact outside l (by simp only [List.mem_cons] at hl ⊢; tauto) inside
    · simp only [List.mem_cons, List.not_mem_nil, or_false] at hl behind
      rcases behind with rfl | rfl <;> simp at hl

/-! ### Positions -/

/-- The items stand at `n` in code whose words decode to `instrs`, with every branch linked
and every label where its branches lead. -/
structure Placed (code : List Word) (instrs : List Instr) (target : String → Int) (n : Nat)
    (items : List CodeItem) : Prop where
  loaded : Loaded code instrs
  linked : Linked link target instrs n items
  labelled : Labelled target n items

/-- The instructions in front of the epilogue's `ret`. -/
def leaveBlock (params locals results : List wasm_type) : List Instr :=
  resultsBlock 0 results ++
    [.addSubImm false false .x 31 31 (BitVec.ofInt 12 (frameSize params locals)) false]

def frameBlock (params locals : List wasm_type) : List Instr :=
  .addSubImm true false .x 31 31 (BitVec.ofInt 12 (frameSize params locals)) false ::
    (storesBlock (paramEnd params) (paramStores 0 0 params) ++
      storesBlock (localEnd params locals) (localStores locals))

theorem frameBlock_length (params locals : List wasm_type) :
    (frameBlock params locals).length = 1 + params.length + locals.length := by
  simp only [frameBlock, List.length_cons, List.length_append, storesBlock_length,
    paramStores_length]
  rw [show (localStores locals).length = locals.length from List.length_map _]
  omega

/-- Where the call of `setjmp` begins, counted from the start of the function. -/
def wrapperStart (params locals : List wasm_type) : Nat :=
  32 + (1 + params.length + locals.length)

def bodyStart (params locals : List wasm_type) : Nat := wrapperStart params locals + 6

def bodyEnd (params locals : List wasm_type) (body : Seq) : Nat :=
  bodyStart params locals + size (bodyItems (frameOf params locals) 0 body)

/-- The epilogue, which both ways through the function end with. -/
def finalizeStart (params locals : List wasm_type) (body : Seq) : Nat :=
  bodyEnd params locals body + 2

/-- A branch at `p` that leads to `q`. -/
def BranchAt (instrs : List Instr) (p : Nat) (kind : BranchKind) (q : Nat) : Prop :=
  ∃ disp : Int, instrs[p]? = some (link kind disp) ∧ (p : Int) + disp = q

/-- Where the parts of a function stand. -/
structure Layout (instrs : List Instr) (target : String → Int) (n : Nat)
    (params locals results : List wasm_type) (body : Seq) : Prop where
  toEntry : BranchAt instrs n .b (n + 32)
  setjmp : Stands instrs (n + 1) setjmpBlock
  prepare : Stands instrs (n + 11) [mov 14 30, movSp 15 31, mov 0 19]
  toLongjmp : BranchAt instrs (n + 14) .b (n + 15)
  longjmp : Stands instrs (n + 15) longjmpBlock
  raise : Stands instrs (n + 27) ([mov 30 14, movSp 31 15] ++ returnCode 1)
  toFinalize : BranchAt instrs (n + 31) .b (n + finalizeStart params locals body)
  frame : Stands instrs (n + 32) (frameBlock params locals)
  save : Stands instrs (n + wrapperStart params locals)
    [.ldpStp false .x .preIndex 29 30 31 (-32), mov 0 19]
  call : BranchAt instrs (n + wrapperStart params locals + 2) .bl (n + 1)
  test : Stands instrs (n + wrapperStart params locals + 3) [cmpZero .x 0]
  toRaise : BranchAt instrs (n + wrapperStart params locals + 4) .bne (n + 27)
  restore : Stands instrs (n + wrapperStart params locals + 5)
    [.ldpStp true .x .postIndex 29 30 31 32]
  linked : Linked link target instrs (n + bodyStart params locals)
    (bodyItems (frameOf params locals) 0 body)
  labelled : Labelled target (n + bodyStart params locals)
    (bodyItems (frameOf params locals) 0 body)
  trap : target "preparelongjmp" = (n + 11 : Nat)
  returned : Stands instrs (n + bodyEnd params locals body) (returnCode 0)
  leave : Stands instrs (n + finalizeStart params locals body) (leaveBlock params locals results)
  ret : instrs[n + finalizeStart params locals body + (leaveBlock params locals results).length]? =
    some (.ret 30)

theorem stands_append {instrs first second : List Instr} {p : Nat} :
    Stands instrs p (first ++ second) ↔
      Stands instrs p first ∧ Stands instrs (p + first.length) second := by
  constructor
  · intro h
    refine ⟨fun n i hi => h n i ?_, fun n i hi => ?_⟩
    · rw [List.getElem?_append_left (List.getElem?_eq_some_iff.mp hi).1, hi]
    · have later := h (first.length + n) i (by
        rw [List.getElem?_append_right (Nat.le_add_right _ _), Nat.add_sub_cancel_left, hi])
      rwa [← Nat.add_assoc] at later
  · rintro ⟨front, back⟩ n i hi
    by_cases before : n < first.length
    · rw [List.getElem?_append_left before] at hi
      exact front n i hi
    · rw [List.getElem?_append_right (by omega)] at hi
      have later := back (n - first.length) i hi
      rwa [show p + first.length + (n - first.length) = p + n by omega] at later

theorem layout_of_placed {code : List Word} {instrs : List Instr} {target : String → Int} {n : Nat}
    {params locals results : List wasm_type} {body : Seq}
    (placed : Placed code instrs target n (wholeItems params locals results body)) :
    Layout instrs target n params locals results body := by
  obtain ⟨-, linked, labelled⟩ := placed
  have epilogue : epilogueBlock params locals results =
      leaveBlock params locals results ++ [.ret 30] := by
    rw [epilogueBlock, leaveBlock, List.append_assoc]
    rfl
  have frames : frameItems params locals = CodeItems.ins (frameBlock params locals) := rfl
  have sizes : size stubItems = 32 ∧ size wrapperItems = 6 := ⟨rfl, rfl⟩
  have frameSize : size (CodeItems.ins (frameBlock params locals)) =
      1 + params.length + locals.length := by
    rw [CodeItems.ins, size_map_ins, frameBlock_length]
  have lengths : setjmpBlock.length = 10 ∧ longjmpBlock.length = 12 ∧
      (returnCode 1).length = 2 ∧ (returnCode 0).length = 2 := ⟨rfl, rfl, rfl, rfl⟩
  rw [wholeItems, epilogue, frames] at linked labelled
  simp only [linked_append, labelled_append, size_append, sizes, frameSize] at linked labelled
  simp only [stubItems, wrapperItems, CodeItems.ins, linked_append, labelled_append,
    linked_map_ins, size_map_ins, size_append, Linked, Labelled, size_cons, size_nil,
    Item.size_jump, Item.size_label, List.length_append, List.length_cons, List.length_nil, lengths,
    Nat.reduceAdd, Nat.add_zero, and_true, and_assoc] at linked labelled
  obtain ⟨toEntry, setjmp, prepare, toLongjmp, longjmp, raise, toFinalize, frame, save, call, test,
    toRaise, restore, bodyLinked, returned, epilogueStands⟩ := linked
  obtain ⟨atSetjmp, -, atPrepare, -, atLongjmp, -, atRaise, -, atEntry, -, -, -, -, bodyLabelled,
    -, -, atFinalize, -⟩ := labelled
  obtain ⟨leave, ret⟩ := stands_append.mp epilogueStands
  refine
    { setjmp, prepare, longjmp, raise, frame, save, test, restore, returned, leave
      toEntry := ⟨_, toEntry, by omega⟩
      toLongjmp := ⟨_, toLongjmp, by omega⟩
      toFinalize := ⟨_, toFinalize, ?_⟩
      call := ⟨_, call, ?_⟩
      toRaise := ⟨_, toRaise, ?_⟩
      linked := bodyLinked
      labelled := bodyLabelled
      trap := atPrepare
      ret := ret 0 _ rfl }
  · rw [finalizeStart, bodyEnd, bodyStart, wrapperStart]
    omega
  · rw [wrapperStart]
    omega
  · rw [wrapperStart]
    omega

/-- The words of a compiled function, behind any other words, with its branches linked. -/
theorem linked_of_decode {before after : List Word} {pre : List Instr} {items : List CodeItem}
    (known : before.map decode = pre.map some)
    (decoded : after.map decode = (resolve link (firstPosition items) 0 items).map some)
    (short : before.length + size items ≤ 2 ^ 61) :
    Loaded (before ++ after) (pre ++ resolve link (firstPosition items) 0 items) ∧
      Linked link (fun l => before.length + firstPosition items l)
        (pre ++ resolve link (firstPosition items) 0 items) before.length items := by
  have lengths : pre.length = before.length ∧ after.length = size items := by
    have front := congrArg List.length known
    have back := congrArg List.length decoded
    simp only [List.length_map, resolve_length] at front back
    exact ⟨front.symm, back⟩
  refine ⟨⟨by rw [List.map_append, List.map_append, known, decoded], ?_⟩, ?_⟩
  · rw [List.length_append]
    omega
  · have linked := linked_resolve link (fun l => pre.length + firstPosition items l) pre [] items
    rw [List.append_nil] at linked
    have same := resolve_shift link (firstPosition items) pre.length 0 items
    rw [Nat.add_zero] at same
    rw [same, lengths.1] at linked
    exact linked

/-- A label that is recorded once stands where its branches lead. -/
theorem labelled_of_distinct {items : List CodeItem} (n : Nat)
    (distinct : (labelNames items).Nodup) :
    Labelled (fun l => n + firstPosition items l) n items := by
  have labelled := labelled_shift (firstPosition items) n 0 items (labelled_firstPosition distinct)
  rwa [Nat.add_zero] at labelled

/-- The body, and what stands behind it, whatever its labels are. -/
theorem body_of_linked {instrs : List Instr} {target : String → Int} {n : Nat}
    {params locals results : List wasm_type} {body : Seq}
    (linked : Linked link target instrs n (wholeItems params locals results body)) :
    Linked link target instrs (n + bodyStart params locals)
        (bodyItems (frameOf params locals) 0 body) ∧
      Stands instrs (n + bodyEnd params locals body) (returnCode 0) ∧
      Stands instrs (n + finalizeStart params locals body) (leaveBlock params locals results) ∧
      instrs[n + finalizeStart params locals body +
        (leaveBlock params locals results).length]? = some (.ret 30) := by
  have epilogue : epilogueBlock params locals results =
      leaveBlock params locals results ++ [.ret 30] := by
    rw [epilogueBlock, leaveBlock, List.append_assoc]
    rfl
  have front : size (stubItems ++ [.label "entry"] ++ frameItems params locals ++ wrapperItems) =
      bodyStart params locals := by
    have frames : size (frameItems params locals) = 1 + params.length + locals.length := by
      rw [show frameItems params locals = CodeItems.ins (frameBlock params locals) from rfl,
        CodeItems.ins, size_map_ins, frameBlock_length]
    have sizes : size stubItems = 32 ∧ size wrapperItems = 6 := ⟨rfl, rfl⟩
    simp only [size_append, frames, sizes, size_cons, size_nil, Item.size_label]
    rw [bodyStart, wrapperStart]
  have code : (returnCode 0).length = 2 := rfl
  rw [wholeItems, epilogue] at linked
  generalize stubItems ++ [.label "entry"] ++ frameItems params locals ++ wrapperItems = entry
    at front linked
  simp only [linked_append, size_append, front, CodeItems.ins, size_map_ins, linked_map_ins,
    size_cons, size_nil, Item.size_label, code, Nat.add_zero, and_assoc] at linked
  obtain ⟨-, inBody, -, returned, -, last⟩ := linked
  have ended : bodyStart params locals + size (bodyItems (frameOf params locals) 0 body) =
      bodyEnd params locals body := rfl
  rw [ended] at returned last
  obtain ⟨leave, ret⟩ := stands_append.mp last
  exact ⟨inBody, returned, leave, ret 0 _ rfl⟩

theorem wholeItems_size {params locals results : List wasm_type} {body : Seq}
    (small : frameSize params locals ≤ 4080) (few : results.length ≤ 32)
    (short : body.bytes.length ≤ 255) :
    size (wholeItems params locals results body) ≤ 2 ^ 14 := by
  have main := mainItems_size small body
  have pops : ∀ i, (resultsBlock i results).length = 2 * results.length := by
    induction results with
    | nil => exact fun _ => rfl
    | cons v results ih =>
      intro i
      have rest := ih (by rw [List.length_cons] at few; omega) (i + 1)
      rw [resultsBlock, List.length_append, rest, List.length_cons]
      simp only [popBlock, List.length_cons, List.length_nil]
      omega
  rw [wholeItems_split, size_append, CodeItems.ins, size_map_ins, epilogueBlock,
    List.length_append, pops]
  simp only [List.length_cons, List.length_nil]
  omega

end CodeLayout
