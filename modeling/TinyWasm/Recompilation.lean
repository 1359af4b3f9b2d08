import TinyWasm.CodeLayout
import TinyWasm.CompilerFrame

/-!
# Compiling a function again

A later compilation of the same bytes starts from what the earlier ones left: the
label counter is ahead, and the control stack need not be empty. It is followed
step by step beside the first one. Their texts agree, and their labels differ by
a renumbering.
-/

namespace Recompilation

open HexText Opcode Wasm Emit EmissionSpec FrameSpec CodeItems CodeLayout

/-! ### Renumbered labels -/

open Classical in
/-- The labels of the counter, `d` later; every other label is kept. -/
noncomputable def renumber (d : Nat) (l : String) : String :=
  if h : ∃ n, l = ifLabel n then ifLabel (h.choose + d)
  else if h : ∃ n, l = elseLabel n then elseLabel (h.choose + d)
  else l

theorem renumber_ifLabel (d n : Nat) : renumber d (ifLabel n) = ifLabel (n + d) := by
  have named : ∃ m, ifLabel n = ifLabel m := ⟨n, rfl⟩
  rw [renumber, dif_pos named, ← ifLabel_injective named.choose_spec]

theorem renumber_elseLabel (d n : Nat) : renumber d (elseLabel n) = elseLabel (n + d) := by
  have other : ¬ ∃ m, elseLabel n = ifLabel m := by
    rintro ⟨m, same⟩
    exact ifLabel_ne_elseLabel m n same.symm
  have named : ∃ m, elseLabel n = elseLabel m := ⟨n, rfl⟩
  rw [renumber, dif_neg other, dif_pos named, ← elseLabel_injective named.choose_spec]

theorem renumber_fixed (d : Nat) {l : String} (h : Fixed l) : renumber d l = l := by
  rw [renumber, dif_neg, dif_neg]
  · rintro ⟨n, same⟩
    exact (h n).2 same
  · rintro ⟨n, same⟩
    exact (h n).1 same

/-- A name the compiler spells out is kept. -/
theorem kept (d : Nat) {l : String} (front : l.toList[0]? ≠ some 'E') : l = renumber d l :=
  (renumber_fixed d (fixed_of_front front)).symm

/-- A label is one of the counter's or fixed. -/
theorem label_cases (l : String) : (∃ n, l = ifLabel n) ∨ (∃ n, l = elseLabel n) ∨ Fixed l := by
  by_cases first : ∃ n, l = ifLabel n
  · exact Or.inl first
  · by_cases second : ∃ n, l = elseLabel n
    · exact Or.inr (Or.inl second)
    · exact Or.inr (Or.inr fun n => ⟨fun h => first ⟨n, h⟩, fun h => second ⟨n, h⟩⟩)

theorem renumber_injective (d : Nat) : Function.Injective (renumber d) := by
  intro l l' same
  rcases label_cases l with ⟨n, rfl⟩ | ⟨n, rfl⟩ | fixed
  · rw [renumber_ifLabel] at same
    rcases label_cases l' with ⟨m, rfl⟩ | ⟨m, rfl⟩ | fixed'
    · rw [renumber_ifLabel] at same
      rw [Nat.add_right_cancel (ifLabel_injective same)]
    · rw [renumber_elseLabel] at same
      exact absurd same (ifLabel_ne_elseLabel _ _)
    · rw [renumber_fixed d fixed'] at same
      exact absurd same.symm (fixed' _).1
  · rw [renumber_elseLabel] at same
    rcases label_cases l' with ⟨m, rfl⟩ | ⟨m, rfl⟩ | fixed'
    · rw [renumber_ifLabel] at same
      exact absurd same.symm (ifLabel_ne_elseLabel _ _)
    · rw [renumber_elseLabel] at same
      rw [Nat.add_right_cancel (elseLabel_injective same)]
    · rw [renumber_fixed d fixed'] at same
      exact absurd same.symm (fixed' _).2
  · rw [renumber_fixed d fixed] at same
    rcases label_cases l' with ⟨m, rfl⟩ | ⟨m, rfl⟩ | fixed'
    · rw [renumber_ifLabel] at same
      exact absurd same (fixed _).1
    · rw [renumber_elseLabel] at same
      exact absurd same (fixed _).2
    · rwa [renumber_fixed d fixed'] at same

theorem lookup_renumber (d : Nat) (l : String) (entries : List (String × Nat)) :
    (entries.map fun e => (renumber d e.1, e.2)).lookup (renumber d l) = entries.lookup l := by
  induction entries with
  | nil => rfl
  | cons e entries ih =>
    rw [List.map_cons, List.lookup_cons, List.lookup_cons, ih]
    by_cases here : l = e.1
    · rw [here, beq_self_eq_true, beq_self_eq_true]
    · rw [beq_false_of_ne here, beq_false_of_ne fun same => here (renumber_injective d same)]

/-! ### A compilation and a later one -/

/-- The places of the pending branches are words of the text, none over another. -/
structure Spaced (f : WasmFunction) : Prop where
  inside : ∀ x ∈ f.fake_insert_map, x.2.1 + 8 ≤ f.wasm_instructions.length
  apart : f.fake_insert_map.Pairwise fun x y => x.2.1 + 8 ≤ y.2.1

noncomputable def relabel (d : Nat) (x : FakeBranch) : FakeBranch := (renumber d x.1, x.2)

noncomputable def relabelled (d : Nat) (element : controlFlowElement) : controlFlowElement :=
  { element with label := renumber d element.label }

/-- `f'` is `f` in a later compilation: the counter is `d` ahead, and the control stack stands
on `rest`. Once they are `framed`, the variables are at the same places too. -/
structure Shadow (framed : Prop) (d : Nat) (rest : List controlFlowElement)
    (f f' : WasmFunction) : Prop where
  text : f'.wasm_instructions = f.wasm_instructions
  branches : f'.fake_insert_map = f.fake_insert_map.map (relabel d)
  labels : f'.label_map = f.label_map.map fun e => (renumber d e.1, e.2)
  counter : f'.if_label = f.if_label + d
  control : f'.control_flow_stack = f.control_flow_stack.map (relabelled d) ++ rest
  params : f'.param_data = f.param_data
  locals : f'.local_data = f.local_data
  results : f'.result_data = f.result_data
  code : f'.code_vec = f.code_vec
  frame : framed → f'.stack_size = f.stack_size ∧
    ∀ index < f.param_data.length + f.local_data.length, varAccess f' index = varAccess f index
  spaced : Spaced f

/-- Whenever the first call completes, the second does too, with related results. -/
def Follows (S : WasmFunction → WasmFunction → Prop)
    (call call' : Except CppError WasmFunction) : Prop :=
  ∀ g, call = .ok g → ∃ g', call' = .ok g' ∧ S g g'

variable {framed : Prop} {d : Nat} {rest : List controlFlowElement} {f f' : WasmFunction}
  {S : WasmFunction → WasmFunction → Prop}

theorem follows_ok (h : S f f') : Follows S (.ok f) (.ok f') := by
  rintro _ ⟨⟩
  exact ⟨f', rfl, h⟩

theorem follows_error (e : CppError) (call : Except CppError WasmFunction) :
    Follows S (.error e) call := fun _ done => nomatch done

theorem follows_bind {call call' : Except CppError WasmFunction}
    {next next' : WasmFunction → Except CppError WasmFunction}
    {S' : WasmFunction → WasmFunction → Prop} (first : Follows S call call')
    (second : ∀ g g', S g g' → Follows S' (next g) (next' g')) :
    Follows S' (call >>= next) (call' >>= next') := by
  intro h done
  obtain ⟨g, hg, done⟩ := ok_of_bind done
  obtain ⟨g', hg', related⟩ := first g hg
  rw [hg', ok_bind]
  exact second g g' related h done

/-- The same text is made first. -/
theorem follows_text {α : Type} {call : Except CppError α}
    {next next' : α → Except CppError WasmFunction}
    (h : ∀ a, Follows S (next a) (next' a)) : Follows S (call >>= next) (call >>= next') := by
  cases call with
  | error e => exact fun _ done => nomatch done
  | ok a => exact h a

/-! ### What the code is built with -/

theorem Spaced.grow (h : Spaced f) (text : Text) : Spaced (f.constructFullinstr text) := by
  refine ⟨fun x hx => ?_, h.apart⟩
  have := h.inside x hx
  simp only [WasmFunction.constructFullinstr, List.length_append]
  omega

theorem Shadow.append (h : Shadow framed d rest f f') (text : Text) :
    Shadow framed d rest (f.constructFullinstr text) (f'.constructFullinstr text) :=
  { h with
    text := by rw [WasmFunction.constructFullinstr, h.text]; rfl
    spaced := h.spaced.grow text }

theorem Shadow.branch (h : Shadow framed d rest f f') {l l' : String} (same : l' = renumber d l)
    (kind : String) :
    Shadow framed d rest (f.fakeInsertBranch l kind) (f'.fakeInsertBranch l' kind) := by
  have grown := h.append "FFFFFFFF".toList
  refine { grown with branches := ?_, spaced := ⟨?_, ?_⟩ }
  · rw [WasmFunction.fakeInsertBranch, WasmFunction.fakeInsertBranch, h.branches, h.text, same,
      List.map_append]
    rfl
  · intro x hx
    rcases List.mem_append.mp hx with earlier | here
    · exact grown.spaced.inside x earlier
    · rw [List.mem_singleton.mp here]
      simp [WasmFunction.fakeInsertBranch, WasmFunction.constructFullinstr]
  · refine List.pairwise_append.mpr ⟨h.spaced.apart, List.pairwise_singleton _ _, ?_⟩
    intro x hx y hy
    rw [List.mem_singleton.mp hy]
    exact h.spaced.inside x hx

theorem Shadow.label (h : Shadow framed d rest f f') {l l' : String} (same : l' = renumber d l) :
    Shadow framed d rest (f.insertLabel l) (f'.insertLabel l') := by
  have known : f'.label_map.lookup l' = f.label_map.lookup l := by
    rw [h.labels, same, lookup_renumber]
  rw [WasmFunction.insertLabel, WasmFunction.insertLabel, known]
  split
  · exact h
  · refine { h with labels := ?_, spaced := ⟨h.spaced.inside, h.spaced.apart⟩ }
    rw [h.labels, h.text, same, List.map_append]
    rfl

/-- The counter and the control stack move on together. -/
theorem Shadow.opened (h : Shadow framed d rest f f') (n : Nat)
    (control : List controlFlowElement) :
    Shadow framed d rest { f with if_label := n, control_flow_stack := control }
      { f' with
        if_label := n + d, control_flow_stack := control.map (relabelled d) ++ rest } :=
  { h with
    counter := rfl
    control := rfl
    spaced := ⟨h.spaced.inside, h.spaced.apart⟩ }

theorem follows_emit (h : Shadow framed d rest f f') (call : Except CppError Text) :
    Follows (Shadow framed d rest) (f.emit call) (f'.emit call) := by
  cases call with
  | error e => exact follows_error e _
  | ok text => exact follows_ok (h.append text)

/-! ### The opcodes -/

theorem follows_localOp (h : Shadow True d rest f f') (i : Nat) (opType : LocalOp) :
    Follows (Shadow True d rest) (commonLocalOp f i opType) (commonLocalOp f' i opType) := by
  have read : f'.codeAt (i + 1) = f.codeAt (i + 1) := by
    rw [WasmFunction.codeAt, WasmFunction.codeAt, h.code]
  cases hcode : f.codeAt (i + 1) with
  | error e =>
    rw [commonLocalOp, commonLocalOp, read, hcode]
    exact follows_error e _
  | ok code => ?_
  cases value : stoul code with
  | error e =>
    rw [commonLocalOp, commonLocalOp, read, hcode, ok_bind, ok_bind, value]
    exact follows_error e _
  | ok index => ?_
  have known' : f'.param_data.length + f'.local_data.length =
      f.param_data.length + f.local_data.length := by rw [h.params, h.locals]
  by_cases known : index < f.param_data.length + f.local_data.length
  · rw [commonLocalOp_known opType hcode value known,
      commonLocalOp_known opType (read.trans hcode) value (known'.symm ▸ known)]
    have place : varOf f' index = varOf f index := by rw [varOf, varOf, h.params]
    have access := (h.frame trivial).2 index known
    rw [varAccess, varAccess, place, Prod.mk.injEq] at access
    obtain ⟨sized, offset⟩ := access
    cases opType with
    | get =>
      simp only [emitLocal, place, emitGet, sized, offset]
      exact follows_text fun _ => follows_text fun _ => follows_ok (h.append _)
    | set =>
      simp only [emitLocal, place, emitSet, sized, offset]
      exact follows_text fun _ => follows_text fun _ => follows_ok (h.append _)
    | tee =>
      simp only [emitLocal, place, emitSet, sized, offset]
      exact follows_text fun _ => follows_text fun _ => follows_ok (h.append _)
  · rw [commonLocalOp, commonLocalOp, read, hcode, ok_bind, ok_bind, value, ok_bind, ok_bind,
      known', if_neg known, if_neg known]
    exact follows_error _ _

theorem follows_emitConst (h : Shadow framed d rest f f') (elem : wasm_type) :
    Follows (Shadow framed d rest) (emitConst f elem) (emitConst f' elem) := by
  cases elem with
  | i32 value => exact follows_text fun _ => follows_text fun _ => follows_ok (h.append _)
  | i64 value => exact follows_text fun _ => follows_text fun _ => follows_ok (h.append _)
  | f32 bits => exact follows_error _ _
  | f64 bits => exact follows_error _ _

theorem follows_emitCompareOp (h : Shadow framed d rest f f') (regtype : RegType)
    (condStr : String) :
    Follows (Shadow framed d rest) (emitCompareOp f regtype condStr)
      (emitCompareOp f' regtype condStr) := by
  rw [emitCompareOp, emitCompareOp]
  split
  · exact follows_error _ _
  · exact follows_bind (follows_emit h _) fun _ _ h => follows_bind (follows_emit h _) fun _ _ h =>
      follows_text fun _ => follows_text fun _ => follows_bind (follows_emit (h.append _) _)
        fun _ _ h => follows_bind (follows_emit h _) fun _ _ h => follows_emit h _

theorem follows_emitOverflowChecks (h : Shadow framed d rest f f') (regtype : RegType) :
    Follows (Shadow framed d rest) (emitOverflowChecks f regtype)
      (emitOverflowChecks f' regtype) := by
  rw [emitOverflowChecks, emitOverflowChecks]
  split
  · exact follows_bind (follows_emit h _) fun _ _ h => follows_bind (follows_emit h _)
      fun _ _ h => follows_bind (follows_emit (h.branch (kept d (by decide)) _) _) fun _ _ h =>
        follows_bind (follows_emit h _) fun _ _ h => follows_ok (h.branch (kept d (by decide)) _)
  · exact follows_bind (follows_emit h _) fun _ _ h => follows_bind (follows_emit h _)
      fun _ _ h => follows_bind (follows_emit (h.branch (kept d (by decide)) _) _) fun _ _ h =>
        follows_bind (follows_emit h _) fun _ _ h => follows_ok (h.branch (kept d (by decide)) _)

theorem follows_emitDivGuards (h : Shadow framed d rest f f') (regtype : RegType) :
    Follows (Shadow framed d rest) (emitDivGuards f regtype) (emitDivGuards f' regtype) :=
  follows_bind (follows_emit h _) fun _ _ h =>
    follows_bind (follows_emitOverflowChecks (h.branch (kept d (by decide)) _) regtype) fun _ _ h =>
      follows_ok ((h.branch (kept d (by decide)) _).label (kept d (by decide)))

theorem follows_emitArithInstr (h : Shadow framed d rest f f') (regtype : RegType) (opType : Char)
    (isSigned : Bool) :
    Follows (Shadow framed d rest) (emitArithInstr f regtype opType isSigned)
      (emitArithInstr f' regtype opType isSigned) := by
  rw [emitArithInstr, emitArithInstr]
  split_ifs
  · exact follows_emit h _
  · exact follows_emit h _
  · exact follows_emit h _
  · exact follows_bind (follows_emitDivGuards h regtype) fun _ _ h => follows_emit h _

theorem follows_emitArithOp (h : Shadow framed d rest f f') (typeInfo opType : Char)
    (isSigned : Bool) :
    Follows (Shadow framed d rest) (emitArithOp f typeInfo opType isSigned)
      (emitArithOp f' typeInfo opType isSigned) := by
  rw [emitArithOp, emitArithOp]
  split
  · exact follows_error _ _
  · exact follows_text fun regtype => follows_text fun _ => follows_text fun _ =>
      follows_bind (follows_emitArithInstr (h.append _) regtype opType isSigned)
        fun _ _ h => follows_emit h _

theorem follows_emitIfOp (h : Shadow framed d rest f f') (i : Nat) :
    Follows (Shadow framed d rest) (emitIfOp f i) (emitIfOp f' i) := by
  have read : f'.codeAt i = f.codeAt i := by
    rw [WasmFunction.codeAt, WasmFunction.codeAt, h.code]
  rw [emitIfOp, emitIfOp, read]
  refine follows_text fun _ => follows_text fun signature => ?_
  have label : ifLabel f'.if_label = renumber d (ifLabel f.if_label) := by
    rw [renumber_ifLabel, h.counter]
  have opened := h.opened (f.if_label + 1)
    ({ label := ifLabel f.if_label, signature } :: f.control_flow_stack)
  have same : ({ f' with
      if_label := f'.if_label + 1
      control_flow_stack :=
        { label := ifLabel f'.if_label, signature } :: f'.control_flow_stack } : WasmFunction) =
      { f' with
        if_label := f.if_label + 1 + d
        control_flow_stack := ({ label := ifLabel f.if_label, signature } ::
          f.control_flow_stack : List controlFlowElement).map (relabelled d) ++ rest } := by
    rw [label, h.control, h.counter, Nat.add_right_comm]
    rfl
  rw [← same] at opened
  exact follows_bind (follows_emit opened _) fun _ _ h => follows_bind (follows_emit h _)
    fun _ _ h => follows_ok (h.branch label _)

theorem follows_emitElseOp (h : Shadow framed d rest f f') :
    Follows (Shadow framed d rest) (emitElseOp f) (emitElseOp f') := by
  cases control : f.control_flow_stack with
  | nil =>
    rw [emitElseOp, control]
    exact follows_error _ _
  | cons element outer =>
    have control' : f'.control_flow_stack =
        relabelled d element :: (outer.map (relabelled d) ++ rest) := by
      rw [h.control, control]
      rfl
    rw [emitElseOp, emitElseOp, control, control']
    have label : elseLabel f'.if_label = renumber d (elseLabel f.if_label) := by
      rw [renumber_elseLabel, h.counter]
    have opened :=
      h.opened (f.if_label + 1) ({ element with label := elseLabel f.if_label } :: outer)
    have same : ({ f' with
        if_label := f'.if_label + 1
        control_flow_stack := { relabelled d element with label := elseLabel f'.if_label } ::
          (outer.map (relabelled d) ++ rest) } : WasmFunction) =
        { f' with
          if_label := f.if_label + 1 + d
          control_flow_stack := ({ element with label := elseLabel f.if_label } :: outer :
            List controlFlowElement).map (relabelled d) ++ rest } := by
      rw [label, h.counter, Nat.add_right_comm]
      rfl
    rw [← same] at opened
    exact follows_ok ((opened.branch label _).label rfl)

theorem follows_emitEndOp (h : Shadow framed d rest f f') :
    Follows (Shadow framed d rest) (emitEndOp f) (emitEndOp f') := by
  cases control : f.control_flow_stack with
  | nil =>
    rw [emitEndOp, control]
    exact follows_error _ _
  | cons element outer =>
    have control' : f'.control_flow_stack =
        relabelled d element :: (outer.map (relabelled d) ++ rest) := by
      rw [h.control, control]
      rfl
    rw [emitEndOp, emitEndOp, control, control']
    have closed : Shadow framed d rest { f with control_flow_stack := outer }
        { f' with control_flow_stack := outer.map (relabelled d) ++ rest } :=
      { h with control := rfl, spaced := ⟨h.spaced.inside, h.spaced.apart⟩ }
    exact follows_ok (closed.label rfl)

/-! ### The loop -/

/-- A turn of the later compilation goes where the turn of the first one goes. -/
def FollowsTurn (S : WasmFunction → WasmFunction → Prop)
    (turn turn' : Except CppError (WasmFunction × Nat)) : Prop :=
  ∀ g j, turn = .ok (g, j) → ∃ g', turn' = .ok (g', j) ∧ S g g'

theorem turn_of_call {call call' : Except CppError WasmFunction} (h : Follows S call call')
    (n : Nat) : FollowsTurn S (do return (← call, n)) (do return (← call', n)) := by
  intro g j done
  obtain ⟨g, hg, done⟩ := ok_of_bind done
  obtain ⟨g', hg', related⟩ := h g hg
  cases done
  exact ⟨g', by rw [hg']; rfl, related⟩

theorem turn_text {α : Type} {call : Except CppError α}
    {next next' : α → Except CppError (WasmFunction × Nat)}
    (h : ∀ a, FollowsTurn S (next a) (next' a)) :
    FollowsTurn S (call >>= next) (call >>= next') := by
  cases call with
  | error e => exact fun _ _ done => nomatch done
  | ok a => exact h a

theorem follows_jitOne (h : Shadow True d rest f f') (i : Nat) :
    FollowsTurn (Shadow True d rest) (jitOne f i) (jitOne f' i) := by
  have read : ∀ j, f'.codeAt j = f.codeAt j := by
    intro j
    rw [WasmFunction.codeAt, WasmFunction.codeAt, h.code]
  rw [jitOne, jitOne, read]
  refine turn_text fun code => ?_
  cases opcodeOf code with
  | nop => exact turn_of_call (follows_emit h _) _
  | «if» => exact turn_of_call (follows_emitIfOp h _) _
  | «else» => exact turn_of_call (follows_emitElseOp h) _
  | ret => exact turn_of_call (follows_ok h) _
  | «end» => exact turn_of_call (follows_emitEndOp h) _
  | localOp opType => exact turn_of_call (follows_localOp h i opType) _
  | i32const =>
    rw [jitOpcode, jitOpcode, read]
    exact turn_text fun _ => turn_text fun _ => turn_of_call (follows_emitConst h _) _
  | i64const =>
    rw [jitOpcode, jitOpcode, read]
    exact turn_text fun _ => turn_text fun _ => turn_of_call (follows_emitConst h _) _
  | f32const =>
    rw [jitOpcode, jitOpcode, read]
    exact turn_text fun _ => turn_of_call (follows_emitConst h _) _
  | f64const =>
    rw [jitOpcode, jitOpcode, read]
    exact turn_text fun _ => turn_of_call (follows_emitConst h _) _
  | compare regtype condStr => exact turn_of_call (follows_emitCompareOp h regtype condStr) _
  | arith typeInfo opType isSigned =>
    exact turn_of_call (follows_emitArithOp h typeInfo opType isSigned) _
  | unknown => exact turn_of_call (follows_ok h) _

theorem follows_jitLoop (h : Shadow True d rest f f') (fuel i : Nat) :
    Follows (Shadow True d rest) (jitLoop fuel f i) (jitLoop fuel f' i) := by
  induction fuel generalizing f f' i with
  | zero =>
    rw [jitLoop, jitLoop, h.code]
    split
    · exact follows_error _ _
    · exact follows_ok h
  | succ fuel ih =>
    rw [jitLoop, jitLoop, h.code]
    split
    · intro g done
      obtain ⟨⟨next, j⟩, turn, done⟩ := ok_of_bind done
      obtain ⟨next', turn', later⟩ := follows_jitOne h i next j turn
      rw [turn', ok_bind]
      exact ih later j g done
    · exact follows_ok h

theorem follows_jiting_wasm_code (h : Shadow True d rest f f') (i : Nat) :
    Follows (Shadow True d rest) (jiting_wasm_code f i) (jiting_wasm_code f' i) := by
  have opened : Shadow True d rest
      { f with control_flow_stack :=
        { label := "end", signature := f.result_data } :: f.control_flow_stack }
      { f' with control_flow_stack :=
        { label := "end", signature := f'.result_data } :: f'.control_flow_stack } := by
    refine { h with control := ?_, spaced := ⟨h.spaced.inside, h.spaced.apart⟩ }
    rw [h.control, h.results, List.map_cons, relabelled, ← kept d (l := "end") (by decide)]
    rfl
  have turns : f'.code_vec.length = f.code_vec.length := by rw [h.code]
  change Follows _ (jitLoop f.code_vec.length _ i) (jitLoop f'.code_vec.length _ i)
  rw [turns]
  exact follows_jitLoop opened _ i

/-! ### Around the loop -/

theorem follows_emitStubs (h : Shadow framed d rest f f') :
    Follows (Shadow framed d rest) (emitStubs f) (emitStubs f') :=
  follows_bind (follows_emit ((h.branch (kept d (by decide)) _).label (kept d (by decide))) _)
    fun _ _ h => follows_bind (follows_emit (h.label (kept d (by decide))) _) fun _ _ h =>
    follows_bind (follows_emit h _) fun _ _ h => follows_bind (follows_emit h _) fun _ _ h =>
    follows_bind (follows_emit ((h.branch (kept d (by decide)) _).label (kept d (by decide))) _)
    fun _ _ h => follows_bind (follows_emit (h.label (kept d (by decide))) _) fun _ _ h =>
    follows_bind (follows_emit h _) fun _ _ h => follows_bind (follows_emit h _) fun _ _ h =>
    follows_bind (follows_emit h _) fun _ _ h => follows_ok (h.branch (kept d (by decide)) _)

theorem follows_wrapper_setjmp (h : Shadow framed d rest f f') :
    Follows (Shadow framed d rest) (wrapper_setjmp f) (wrapper_setjmp f') :=
  follows_bind (follows_emit h _) fun _ _ h => follows_bind (follows_emit h _) fun _ _ h =>
    follows_bind (follows_emit (h.branch (kept d (by decide)) _) _) fun _ _ h =>
    follows_emit (h.branch (kept d (by decide)) _) _

theorem follows_main_entry_finalize (h : Shadow True d rest f f') :
    Follows (Shadow True d rest) (main_entry_finalize f) (main_entry_finalize f') := by
  rw [main_entry_finalize, main_entry_finalize, WasmFunction.restoreSP, WasmFunction.restoreSP,
    h.results, (h.frame trivial).1]
  exact follows_bind (follows_text fun _ => follows_text fun _ => follows_ok (h.append _))
    fun _ _ h => follows_emit h _

/-! ### The frame -/

/-- While the frame is laid out, its size and its ends agree already. -/
structure Sized (d : Nat) (rest : List controlFlowElement) (f f' : WasmFunction) : Prop
    extends Shadow False d rest f f' where
  size : f'.stack_size = f.stack_size
  paramEnd : f'.param_stack_end_location = f.param_stack_end_location
  localEnd : f'.local_stack_end_location = f.local_stack_end_location

theorem follows_emit_sized (h : Sized d rest f f') (call : Except CppError Text) :
    Follows (Sized d rest) (f.emit call) (f'.emit call) := by
  cases call with
  | error e => exact follows_error e _
  | ok text => exact follows_ok ⟨h.toShadow.append text, h.size, h.paramEnd, h.localEnd⟩

theorem Sized.setVar (h : Sized d rest f f') (category : TypeCategory) (i : Nat) (offset : Int)
    (regType : RegType) :
    Sized d rest (f.setVar category i offset regType) (f'.setVar category i offset regType) :=
  ⟨{ h with frame := nofun, spaced := ⟨h.spaced.inside, h.spaced.apart⟩ }, h.size, h.paramEnd,
    h.localEnd⟩

theorem follows_storeAll (h : Sized d rest f f') (category : TypeCategory) (offset : Int) (i : Nat)
    (stores : List Store) :
    Follows (Sized d rest) (storeAll f category offset i stores)
      (storeAll f' category offset i stores) := by
  induction stores generalizing f f' offset i with
  | nil => exact follows_ok h
  | cons st stores ih =>
    exact follows_bind (follows_emit_sized (h.setVar category i offset _) _) fun _ _ h =>
      ih h _ _

theorem maps_agree {category : TypeCategory} {offset : Int} {i : Nat} {vs : List wasm_type}
    (h : Maps f category offset i vs) (h' : Maps f' category offset i vs) {k : Nat}
    (inside : k < vs.length) :
    f'.vecToStack category (i + k) = f.vecToStack category (i + k) ∧
      f'.regTypeGetter category (i + k) = f.regTypeGetter category (i + k) := by
  induction vs generalizing offset i k with
  | nil => exact absurd inside (Nat.not_lt_zero k)
  | cons v vs ih =>
    cases k with
    | zero => exact ⟨h'.1.trans h.1.symm, h'.2.1.trans h.2.1.symm⟩
    | succ k =>
      have later := ih h.2.2 h'.2.2 (Nat.lt_of_succ_lt_succ inside)
      rwa [Nat.add_assoc, Nat.add_comm 1 k] at later

theorem follows_mainEntry (h : Shadow False d rest f f') :
    Follows (Shadow True d rest) f.main_entry_initialize f'.main_entry_initialize := by
  intro g done
  have start : Sized d rest f.getStackPreallocateSize f'.getStackPreallocateSize := by
    rw [getStackPreallocateSize_eq, getStackPreallocateSize_eq, h.params, h.locals]
    exact ⟨{ h with
      params := rfl, locals := rfl, frame := nofun
      spaced := ⟨h.spaced.inside, h.spaced.apart⟩ }, rfl, rfl, rfl⟩
  have follows : Follows (Sized d rest) f.main_entry_initialize f'.main_entry_initialize := by
    rw [WasmFunction.main_entry_initialize, WasmFunction.main_entry_initialize,
      WasmFunction.prepareSp, WasmFunction.prepareSp, start.size]
    refine follows_bind (follows_emit_sized start _) fun a a' h => follows_bind ?_
      fun b b' (h : Sized d rest b b') => ?_
    · rw [WasmFunction.initParam, WasmFunction.initParam, storeParams_eq, storeParams_eq, h.params,
        h.paramEnd]
      exact follows_storeAll h _ _ _ _
    · rw [WasmFunction.initLocal, WasmFunction.initLocal, storeLocals_eq, storeLocals_eq, h.locals,
        h.localEnd]
      exact follows_storeAll h _ _ _ _
  obtain ⟨g', done', sized⟩ := follows g done
  obtain ⟨entered, -, -, -, params, locals⟩ := main_entry_initialize_ok done
  obtain ⟨entered', -, -, -, params', locals'⟩ := main_entry_initialize_ok done'
  rw [h.params] at params'
  rw [h.params, h.locals] at locals'
  refine ⟨g', done', { sized.toShadow with frame := fun _ => ⟨sized.size, fun index inside => ?_⟩ }⟩
  rw [entered.param_data, entered.local_data] at inside
  rw [varAccess, varAccess, varOf, varOf, entered.param_data, entered'.param_data, h.params]
  by_cases isParam : index < f.param_data.length
  · obtain ⟨offset, type⟩ := maps_agree params params' isParam
    rw [Nat.zero_add] at offset type
    rw [if_pos isParam, offset, type]
  · obtain ⟨offset, type⟩ := maps_agree locals locals'
      (show index - f.param_data.length < f.local_data.length by omega)
    rw [Nat.zero_add] at offset type
    rw [if_neg isParam, offset, type]

/-! ### Up to the fix-up -/

theorem follows_readLocals (h : Shadow False d rest f f') (n offset : Nat) :
    FollowsTurn (Shadow False d rest) (f.readLocals n offset) (f'.readLocals n offset) := by
  have read : ∀ {f f' : WasmFunction}, Shadow False d rest f f' → ∀ j,
      f'.codeAt j = f.codeAt j := by
    intro f f' h j
    rw [WasmFunction.codeAt, WasmFunction.codeAt, h.code]
  induction n generalizing f f' offset with
  | zero =>
    rintro _ _ ⟨⟩
    exact ⟨f', rfl, h⟩
  | succ n ih =>
    rw [WasmFunction.readLocals, WasmFunction.readLocals, read h, read h]
    refine turn_text fun first => turn_text fun count => turn_text fun type => ?_
    rw [CompilerFrame.add_locals, CompilerFrame.add_locals, h.locals]
    have step : ∀ added, Shadow False d rest { f with local_data := f.local_data ++ added }
        { f' with local_data := f.local_data ++ added } := by
      intro added
      exact { h with
        locals := rfl
        frame := fun never => never.elim
        spaced := ⟨h.spaced.inside, h.spaced.apart⟩ }
    exact ih (step _) _

theorem follows_generate (h : Shadow False d rest f f')
    (declares : f'.local_var_declare_count = f.local_var_declare_count) :
    Follows (Shadow True d rest) (generate f) (generate f') := by
  intro g done
  obtain ⟨⟨start, offset⟩, read, done⟩ := ok_of_bind done
  rw [WasmFunction.local_var_initialize] at read
  obtain ⟨start', read', h⟩ := follows_readLocals h _ _ _ _ read
  rw [generate, WasmFunction.local_var_initialize, declares, read', ok_bind]
  exact follows_bind (follows_emitStubs h) (fun _ _ h =>
    follows_bind (follows_mainEntry (h.label (kept d (by decide)))) fun _ _ h =>
    follows_bind (follows_wrapper_setjmp h) fun _ _ h =>
    follows_bind (follows_jiting_wasm_code h offset) fun _ _ h =>
    follows_bind (follows_emit h _) fun _ _ h => follows_bind (follows_emit h _) fun _ _ h =>
    follows_main_entry_finalize (h.label (kept d (by decide)))) g done

/-! ### The fix-up in any order -/

/-- `replace` within the text. -/
def overlay (text : Text) (x : Nat × Text) : Text :=
  text.mapIdx fun i c => if x.1 ≤ i ∧ i < x.1 + 8 then x.2.getD (i - x.1) c else c

@[simp] theorem overlay_length (text : Text) (x : Nat × Text) :
    (overlay text x).length = text.length := List.length_mapIdx

theorem getElem?_overlay (text : Text) (x : Nat × Text) (i : Nat) :
    (overlay text x)[i]? = text[i]?.map fun c =>
      if x.1 ≤ i ∧ i < x.1 + 8 then x.2.getD (i - x.1) c else c := List.getElem?_mapIdx

theorem replace_eq {text new : Text} {origin : Nat} (inside : origin + 8 ≤ text.length)
    (word : new.length = 8) : replace text origin 8 new = .ok (overlay text (origin, new)) := by
  rw [replace, if_neg (by omega)]
  congr 1
  refine List.ext_getElem? fun i => ?_
  rw [getElem?_overlay]
  by_cases before : i < origin
  · rw [List.append_assoc, List.getElem?_append_left (by simp; omega),
      List.getElem?_take_of_lt before]
    have clear : ¬ (origin ≤ i ∧ i < origin + 8) := by omega
    simp only [clear, if_false, Option.map_id']
  · by_cases within : i < origin + 8
    · rw [List.append_assoc, List.getElem?_append_right (by simp; omega),
        List.getElem?_append_left (by simp; omega), List.length_take,
        List.getElem?_eq_getElem (l := text) (by omega), Option.map_some,
        if_pos ⟨by omega, within⟩, Nat.min_eq_left (by omega), List.getD_eq_getElem?_getD,
        List.getElem?_eq_getElem (l := new) (by omega), Option.getD_some]
    · rw [List.getElem?_append_right (by simp; omega), List.getElem?_drop]
      have clear : ¬ (origin ≤ i ∧ i < origin + 8) := by omega
      simp only [clear, if_false, Option.map_id', List.length_append, List.length_take, word]
      congr 1
      omega

/-- Overlays of different words commute. -/
theorem overlay_comm (text : Text) {x y : Nat × Text} (apart : x.1 + 8 ≤ y.1 ∨ y.1 + 8 ≤ x.1) :
    overlay (overlay text x) y = overlay (overlay text y) x := by
  refine List.ext_getElem? fun i => ?_
  simp only [getElem?_overlay, Option.map_map]
  congr 1
  funext c
  simp only [Function.comp_apply]
  split_ifs
  · omega
  · rfl
  · rfl
  · rfl

theorem getInstruction_length (opcode : Arm64Opcode) : opcode.getInstruction.length = 8 := rfl

theorem encodeFixed_length {kind : String} {location origin : Nat} {text : Text}
    (h : WasmFunction.encodeFixed kind location origin = .ok text) : text.length = 8 := by
  have branch : ∀ {imm : BitVec 32} {withLink : Bool} {text : Text},
      encodeBranch imm withLink = .ok text → text.length = 8 := by
    intro imm withLink text h
    obtain ⟨_, -, h⟩ := ok_of_bind h
    obtain ⟨_, -, h⟩ := ok_of_bind h
    obtain ⟨_, -, h⟩ := ok_of_bind h
    cases h
    exact getInstruction_length _
  rw [WasmFunction.encodeFixed] at h
  split_ifs at h
  · exact branch h
  · exact branch h
  · obtain ⟨cond, -, h⟩ := ok_of_bind h
    obtain ⟨_, -, h⟩ := ok_of_bind h
    obtain ⟨_, -, h⟩ := ok_of_bind h
    obtain ⟨_, -, h⟩ := ok_of_bind h
    cases h
    exact getInstruction_length _

/-- The word of a pending branch. -/
def wordFor (label_map : List (String × Nat)) (x : FakeBranch) : Except CppError Text :=
  WasmFunction.encodeFixed x.2.2 ((label_map.lookup x.1).getD 0) x.2.1

/-- The word with its place. -/
def placed (label_map : List (String × Nat)) (x : FakeBranch) : Nat × Text :=
  (x.2.1, (wordFor label_map x).toOption.getD [])

/-- Only the text and the labels differ. -/
def Fixes (f g : WasmFunction) : Prop :=
  g = { f with wasm_instructions := g.wasm_instructions, label_map := g.label_map }

/-- Recording a missing label at zero changes no location. -/
theorem fixOne_eq (f : WasmFunction) (x : FakeBranch) : ∃ label_map,
    (∀ l, (label_map.lookup l).getD 0 = (f.label_map.lookup l).getD 0) ∧
      f.fixOne x = (do
        let instr ← wordFor f.label_map x
        let fixed ← replace f.wasm_instructions x.2.1 8 instr
        return { f with wasm_instructions := fixed, label_map }) := by
  obtain ⟨label, origin, kind⟩ := x
  cases known : f.label_map.lookup label with
  | some location =>
    refine ⟨f.label_map, fun _ => rfl, ?_⟩
    simp only [WasmFunction.fixOne, wordFor, known]
  | none =>
    have added : (f.label_map ++ [(label, 0)]).lookup label = some 0 := by
      rw [lookup_append, known]
      simp
    refine ⟨f.label_map ++ [(label, 0)], fun l => ?_, ?_⟩
    · rw [lookup_append]
      cases f.label_map.lookup l with
      | some location => rfl
      | none =>
        by_cases here : l = label
        · simp [here]
        · simp [List.lookup_cons, beq_false_of_ne here]
    · simp only [WasmFunction.fixOne, wordFor, known, added]
      rfl

theorem foldlM_fixOne (label_map : List (String × Nat)) (xs : List FakeBranch)
    (agree : ∀ l, (f.label_map.lookup l).getD 0 = (label_map.lookup l).getD 0)
    (inside : ∀ x ∈ xs, x.2.1 + 8 ≤ f.wasm_instructions.length) :
    (∀ g, xs.foldlM WasmFunction.fixOne f = .ok g → ∀ x ∈ xs, ∃ t, wordFor label_map x = .ok t) ∧
      ((∀ x ∈ xs, ∃ t, wordFor label_map x = .ok t) →
        ∃ g, xs.foldlM WasmFunction.fixOne f = .ok g ∧ Fixes f g ∧
          g.wasm_instructions = (xs.map (placed label_map)).foldl overlay f.wasm_instructions) := by
  induction xs generalizing f with
  | nil => exact ⟨by simp, fun _ => ⟨f, rfl, rfl, rfl⟩⟩
  | cons x xs ih =>
    obtain ⟨later, same, turn⟩ := fixOne_eq f x
    have word : wordFor f.label_map x = wordFor label_map x := by
      rw [wordFor, wordFor, agree]
    rw [word] at turn
    have step : ∀ t, wordFor label_map x = .ok t → f.fixOne x =
        .ok { f with
          wasm_instructions := overlay f.wasm_instructions (x.2.1, t), label_map := later } := by
      intro t ht
      rw [turn, ht, ok_bind, replace_eq (inside x (by simp)) (encodeFixed_length ht)]
      rfl
    have rest : ∀ t, _ := fun t => ih (f := { f with
        wasm_instructions := overlay f.wasm_instructions (x.2.1, t), label_map := later })
      (fun l => (same l).trans (agree l)) (fun y hy => by
        rw [overlay_length]
        exact inside y (List.mem_cons_of_mem x hy))
    refine ⟨?_, ?_⟩
    · intro g done
      rw [List.foldlM_cons] at done
      obtain ⟨next, first, done⟩ := ok_of_bind done
      rw [turn] at first
      obtain ⟨t, ht, -⟩ := ok_of_bind first
      rw [← turn, step t ht] at first
      cases first
      intro y hy
      rcases List.mem_cons.mp hy with rfl | hy
      · exact ⟨t, ht⟩
      · exact (rest t).1 g done y hy
    · intro words
      obtain ⟨t, ht⟩ := words x (by simp)
      obtain ⟨g, done, fixes, text⟩ := (rest t).2 fun y hy => words y (List.mem_cons_of_mem x hy)
      refine ⟨g, by rw [List.foldlM_cons, step t ht, ok_bind, done], ?_, ?_⟩
      · rw [Fixes] at fixes
        rw [Fixes, fixes]
      · rw [text, List.map_cons, List.foldl_cons, placed, ht]
        rfl

theorem placed_relabel (h : Shadow framed d rest f f') (x : FakeBranch) :
    wordFor f'.label_map (relabel d x) = wordFor f.label_map x := by
  rw [wordFor, wordFor, relabel, h.labels, lookup_renumber]

/-- The fix-up of a later compilation, in an order of its own, leaves the same text. -/
theorem fixUp_follows (h : Shadow framed d rest f f') {order : WasmFunction.VisitOrder}
    (order' : WasmFunction.VisitOrder) {g : WasmFunction} (done : f.fixUpfakeBranch order = .ok g) :
    Fixes f g ∧ ∃ g', f'.fixUpfakeBranch order' = .ok g' ∧ Fixes f' g' ∧
      g'.wasm_instructions = g.wasm_instructions := by
  have perm := order.perm f.fake_insert_map
  have perm' : (order'.visit f'.fake_insert_map).Perm (f.fake_insert_map.map (relabel d)) :=
    h.branches ▸ order'.perm f'.fake_insert_map
  have words := (foldlM_fixOne f.label_map (order.visit f.fake_insert_map)
    (fun _ => rfl) fun x hx => h.spaced.inside x (perm.mem_iff.mp hx)).1 g done
  obtain ⟨g₁, done₁, fixes, text⟩ := (foldlM_fixOne f.label_map
    (order.visit f.fake_insert_map) (fun _ => rfl)
    fun x hx => h.spaced.inside x (perm.mem_iff.mp hx)).2 words
  cases done.symm.trans done₁
  have entries : ∀ x ∈ order'.visit f'.fake_insert_map, ∃ y ∈ f.fake_insert_map, relabel d y = x :=
    fun x hx => List.mem_map.mp (perm'.mem_iff.mp hx)
  obtain ⟨g', done', fixes', text'⟩ := (foldlM_fixOne (f := f') f'.label_map
    (order'.visit f'.fake_insert_map) (fun _ => rfl) fun x hx => by
      obtain ⟨y, hy, rfl⟩ := entries x hx
      rw [h.text]
      exact h.spaced.inside y hy).2 fun x hx => by
      obtain ⟨y, hy, rfl⟩ := entries x hx
      rw [placed_relabel h]
      exact words y (perm.mem_iff.mpr hy)
  refine ⟨fixes, g', done', fixes', ?_⟩
  have same : ((order'.visit f'.fake_insert_map).map (placed f'.label_map)).Perm
      ((order.visit f.fake_insert_map).map (placed f.label_map)) := by
    have images : (f.fake_insert_map.map (relabel d)).map (placed f'.label_map) =
        f.fake_insert_map.map (placed f.label_map) := by
      rw [List.map_map]
      refine List.map_congr_left fun x _ => ?_
      rw [Function.comp_apply, placed, placed, placed_relabel h]
      rfl
    exact (images ▸ perm'.map (placed f'.label_map)).trans (perm.map _).symm
  have apart : ∀ x ∈ f.fake_insert_map, ∀ y ∈ f.fake_insert_map,
      x = y ∨ x.2.1 + 8 ≤ y.2.1 ∨ y.2.1 + 8 ≤ x.2.1 := fun x hx y hy =>
    List.Pairwise.forall_of_forall_of_flip
      (R := fun x y => x = y ∨ x.2.1 + 8 ≤ y.2.1 ∨ y.2.1 + 8 ≤ x.2.1) (fun _ _ => Or.inl rfl)
      (h.spaced.apart.imp fun before => Or.inr (Or.inl before))
      (h.spaced.apart.imp fun before => Or.inr (Or.inr before)) hx hy
  rw [text, text', h.text]
  refine (same.symm.foldl_eq' (fun a ha b hb text => ?_) _).symm
  obtain ⟨x, hx, rfl⟩ := List.mem_map.mp ha
  obtain ⟨y, hy, rfl⟩ := List.mem_map.mp hb
  rcases apart x (perm.mem_iff.mp hx) y (perm.mem_iff.mp hy) with rfl | before
  · rfl
  · exact overlay_comm text before

/-- A later compilation of the same bytes gives the same code. -/
theorem processCodeVec_follows (h : Shadow False d rest f f')
    (declares : f'.local_var_declare_count = f.local_var_declare_count)
    {order : WasmFunction.VisitOrder} (order' : WasmFunction.VisitOrder) {g : WasmFunction}
    (done : processCodeVec f order = .ok g) :
    ∃ g', processCodeVec f' order' = .ok g' ∧ g'.wasm_instructions = g.wasm_instructions ∧
      g'.stack_size = g.stack_size := by
  obtain ⟨whole, generated, fixed⟩ := ok_of_bind done
  obtain ⟨whole', generated', shadow⟩ := follows_generate h declares whole generated
  obtain ⟨fixes, g', fixed', fixes', text⟩ := fixUp_follows shadow order' fixed
  refine ⟨g', by rw [processCodeVec, generated', ok_bind, fixed'], text, ?_⟩
  rw [fixes, fixes']
  exact (shadow.frame trivial).1

end Recompilation
