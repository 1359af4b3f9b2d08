import TinyWasm.ExecutablePages

/-!
# Runs of a module

Between two calls of one function any others may be called. What is left in the
module is a matter of counting: each call leaves its locals behind, and since
all of them stand in the frame of the next call, their number is bounded.
-/

namespace ModuleRuns

open HexText Wasm Emit Parser CompilerFrame CodeItems FrameSpec FunctionCall RepeatedCalls
open WholeFunction LabelledCode

/-- A run of completed calls of the given functions, each with arguments of its own. -/
inductive Runs : State → List Nat → State → Prop where
  | nil (p : State) : Runs p [] p
  | call {p q r : State} {i : Nat} {is : List Nat} {args : Nat → Option wasm_type}
      {order : WasmFunction.VisitOrder} {g : WasmFunction}
      (first : call i args order p = .ok (g, q))
      (rest : Runs q is r) : Runs p (i :: is) r

theorem runs_snoc {p q r : State} {is : List Nat} {i : Nat} {args : Nat → Option wasm_type}
    {order : WasmFunction.VisitOrder} {g : WasmFunction} (runs : Runs p is q)
    (last : call i args order q = .ok (g, r)) : Runs p (is ++ [i]) r := by
  induction runs with
  | nil p => exact .call last (.nil r)
  | call first rest ih => exact .call first (ih last)

/-- The locals a function declares. -/
def own (f : WasmFunction) : List wasm_type := declared f.code_vec f.local_var_declare_count 0

/-- `f'` is what is left of `f` when it has completed `n` more calls. -/
structure CalledTimes (f : WasmFunction) (n : Nat) (f' : WasmFunction) : Prop where
  code : f'.code_vec = f.code_vec
  declares : f'.local_var_declare_count = f.local_var_declare_count
  locals : f'.local_data = f.local_data ++ (List.replicate n (own f)).flatten

theorem CalledTimes.refl (f : WasmFunction) : CalledTimes f 0 f :=
  ⟨rfl, rfl, (List.append_nil _).symm⟩

theorem CalledTimes.own_eq {f f' : WasmFunction} {n : Nat} (h : CalledTimes f n f') :
    own f' = own f := by
  rw [own, h.code, h.declares, own]

theorem CalledTimes.trans {f g h : WasmFunction} {m n : Nat} (first : CalledTimes f m g)
    (second : CalledTimes g n h) : CalledTimes f (m + n) h := by
  refine ⟨second.code.trans first.code, second.declares.trans first.declares, ?_⟩
  rw [second.locals, first.locals, first.own_eq, List.append_assoc, ← List.flatten_append,
    List.replicate_append_replicate]

/-- One call counts for its own function, and leaves the tables as they are. -/
theorem call_counts {p q : State} {i : Nat} {args : Nat → Option wasm_type}
    {order : WasmFunction.VisitOrder} {g : WasmFunction} (done : call i args order p = .ok (g, q)) :
    (q.wasmTypeVec = p.wasmTypeVec ∧ q.funcTypeVec = p.funcTypeVec ∧
      q.funcNameIndexMapper = p.funcNameIndexMapper) ∧
    ∀ j f, p.wasmFunctionVec[j]? = some f →
      ∃ f', q.wasmFunctionVec[j]? = some f' ∧ CalledTimes f (if i = j then 1 else 0) f' := by
  obtain ⟨f, t, type, function, -, -, compiled, rfl⟩ := call_ok done
  refine ⟨⟨rfl, rfl, rfl⟩, fun j f₀ here => ?_⟩
  by_cases same : i = j
  · subst same
    cases function.symm.trans here
    obtain ⟨locals, code, declares⟩ := compiled_locals compiled
    refine ⟨resetAfterExecution g, List.getElem?_set_self (List.getElem?_eq_some_iff.mp here).1, ?_⟩
    rw [if_pos rfl]
    refine ⟨code, declares, ?_⟩
    rw [List.replicate_one, List.flatten_singleton]
    exact locals
  · refine ⟨f₀, ?_, ?_⟩
    · exact (List.getElem?_set_ne same).trans here
    · rw [if_neg same]
      exact .refl f₀

/-- After any calls in any order, the module is the same but for the locals each function has
collected. -/
theorem runs_count {p q : State} {is : List Nat} (runs : Runs p is q) :
    (q.wasmTypeVec = p.wasmTypeVec ∧ q.funcTypeVec = p.funcTypeVec ∧
      q.funcNameIndexMapper = p.funcNameIndexMapper) ∧
    ∀ j f, p.wasmFunctionVec[j]? = some f →
      ∃ f', q.wasmFunctionVec[j]? = some f' ∧ CalledTimes f (is.count j) f' := by
  induction runs with
  | nil p => exact ⟨⟨rfl, rfl, rfl⟩, fun j f here => ⟨f, here, .refl f⟩⟩
  | @call p q r i is args order g first rest ih =>
    obtain ⟨⟨types, functions, names⟩, counts⟩ := call_counts first
    obtain ⟨⟨types', functions', names'⟩, counts'⟩ := ih
    refine ⟨⟨types'.trans types, functions'.trans functions, names'.trans names⟩,
      fun j f here => ?_⟩
    obtain ⟨f₁, here₁, once⟩ := counts j f here
    obtain ⟨f₂, here₂, others⟩ := counts' j f₁ here₁
    refine ⟨f₂, here₂, ?_⟩
    have count : (i :: is).count j = (if i = j then 1 else 0) + is.count j := by
      rw [List.count_cons, Nat.add_comm]
      congr 1
      simp
    rw [count]
    exact once.trans others

/-- All that is declared or left behind stands in the frame of a compiled function. -/
theorem frame_of_compiled {f g : WasmFunction} {order : WasmFunction.VisitOrder}
    (done : funcSingleProcess f order = .ok g) : frameSize g.param_data g.local_data ≤ 4080 := by
  obtain ⟨h, loaded, done⟩ := ok_of_bind done
  obtain ⟨k, generated, fixed⟩ := ok_of_bind done
  have same := leaves_fixUp k order g fixed
  rw [same.params, same.locals]
  obtain ⟨⟨f₀, offset⟩, read, generated⟩ := ok_of_bind generated
  obtain ⟨f₁, stubs, generated⟩ := ok_of_bind generated
  obtain ⟨f₂, entered, generated⟩ := ok_of_bind generated
  obtain ⟨-, -, small, -⟩ := main_entry_initialize_ok entered
  have kept : Untouched f₂ k := by
    refine (leaves_bind (untouched_growth.wrapper_setjmp f₂) fun g =>
      leaves_bind (untouched_growth.jiting_wasm_code g _) fun g => leaves_bind (leaves_emit g _)
      fun g => leaves_bind (leaves_emit g _) fun g => leaves_after (untouched_label g _)
        (untouched_growth.main_entry_finalize _)) k generated
  have first : Untouched (f₁.insertLabel "entry") f₂ := leaves_mainEntry _ f₂ entered
  rw [kept.params, kept.locals, first.params, first.locals]
  exact small

theorem totalSize_append (vs ws : List wasm_type) :
    totalSize (vs ++ ws) = totalSize vs + totalSize ws := by
  rw [totalSize, List.map_append, List.sum_append]
  rfl

theorem totalSize_replicate (n : Nat) (vs : List wasm_type) :
    totalSize (List.replicate n vs).flatten = n * totalSize vs := by
  induction n with
  | zero => simp [totalSize]
  | succ n ih =>
    rw [List.replicate_succ, List.flatten_cons, totalSize_append, ih]
    push_cast
    ring

theorem totalSize_length (vs : List wasm_type) : 4 * (vs.length : Int) ≤ totalSize vs := by
  induction vs with
  | nil => exact Int.le_refl 0
  | cons v rest ih =>
    have size := (slotSize_bounds v).1
    have split : totalSize (v :: rest) = slotSize v + totalSize rest := by simp [totalSize]
    rw [split, List.length_cons]
    push_cast
    omega

/-- What a function had and what its calls have added fit in one frame. -/
theorem locals_fit {p q : State} {is : List Nat} (runs : Runs p is q) {j : Nat} {f : WasmFunction}
    (here : p.wasmFunctionVec[j]? = some f) : is.count j = 0 ∨
      totalSize f.local_data + is.count j * totalSize (own f) ≤ 4072 := by
  induction runs generalizing f with
  | nil p => exact Or.inl rfl
  | @call p q r i is args order g first rest ih =>
    obtain ⟨-, counts⟩ := call_counts first
    obtain ⟨f', here', once⟩ := counts j f here
    have later := ih here'
    by_cases same : i = j
    · subst same
      rw [if_pos rfl] at once
      have collected : totalSize f'.local_data = totalSize f.local_data + totalSize (own f) := by
        rw [once.locals, totalSize_append, totalSize_replicate]
        ring
      have fits : totalSize f.local_data + totalSize (own f) ≤ 4072 := by
        obtain ⟨f₁, t, type, function, -, -, compiled, -⟩ := call_ok first
        cases function.symm.trans here
        have small := frame_of_compiled compiled
        have ends := (frameSize_bounds g.param_data g.local_data).1
        have split : localEnd g.param_data g.local_data =
            totalSize g.param_data + 8 + totalSize g.local_data := rfl
        have params := totalSize_nonneg g.param_data
        have locals : totalSize g.local_data = totalSize f.local_data + totalSize (own f) := by
          rw [(compiled_locals compiled).1, totalSize_append]
          rfl
        omega
      refine Or.inr ?_
      rw [List.count_cons_self]
      push_cast
      rcases later with none | more
      · rw [none]
        push_cast
        linarith
      · rw [collected, once.own_eq] at more
        linarith
    · rw [if_neg same] at once
      rw [List.count_cons_of_ne same]
      have kept : totalSize f'.local_data = totalSize f.local_data := by
        rw [once.locals, totalSize_append, totalSize_replicate]
        simp
      rwa [kept, once.own_eq] at later

/-- The locals of all its calls fit in one frame, so a function with locals of its own completes at
most 1018 calls, whatever is called in between. -/
theorem calls_bounded {p q : State} {is : List Nat} (runs : Runs p is q) {j : Nat}
    {f : WasmFunction} (here : p.wasmFunctionVec[j]? = some f) :
    is.count j * totalSize (own f) ≤ 4072 ∧ (own f ≠ [] → is.count j ≤ 1018) := by
  have before := totalSize_nonneg f.local_data
  have bound : is.count j * totalSize (own f) ≤ 4072 := by
    rcases locals_fit runs here with none | fits
    · rw [none]
      simp
    · omega
  refine ⟨bound, fun some => ?_⟩
  have size := totalSize_length (own f)
  have length := List.length_pos_of_ne_nil some
  by_contra many
  have enough : (1019 : Int) ≤ is.count j := by omega
  nlinarith

/-- `(func (result i32) (local i32) (i32.const 5))`, called twice. -/
theorem localModule_twice : ∃ p q f, parse (ofFile localModule) = .ok p ∧ Runs p [0, 0] q ∧
    p.wasmFunctionVec[0]? = some f ∧ f.local_data = [] ∧ own f = [.i32 0] := by
  obtain ⟨⟨h, q⟩, done⟩ := BranchFixup.ok_of_isOk (show (parse (ofFile localModule) >>= fun p =>
    call 0 (fun _ => none) BranchFixup.inOrder p >>= fun first =>
      call 0 (fun _ => none) BranchFixup.inOrder first.2).isOk = true by decide +kernel)
  obtain ⟨p, parsed, done⟩ := ok_of_bind done
  obtain ⟨⟨g, r⟩, first, second⟩ := ok_of_bind done
  have before : (parse (ofFile localModule)).toOption.bind (fun p =>
      p.wasmFunctionVec[0]?.map fun f => (f.local_data, own f)) = some ([], [.i32 0]) := by
    decide +kernel
  rw [parsed] at before
  obtain ⟨f, here, found⟩ := Option.map_eq_some_iff.mp
    (show p.wasmFunctionVec[0]?.map (fun f => (f.local_data, own f)) = some ([], [.i32 0]) from
      before)
  obtain ⟨locals, declares⟩ := Prod.mk.inj found
  exact ⟨p, q, f, parsed, .call first (.call second (.nil q)), here, locals, declares⟩

/-- Its local is there twice. -/
theorem runs_count_twice : ∃ p q f', parse (ofFile localModule) = .ok p ∧ Runs p [0, 0] q ∧
    q.wasmFunctionVec[0]? = some f' ∧ f'.local_data = [.i32 0, .i32 0] := by
  obtain ⟨p, q, f, parsed, runs, here, locals, declares⟩ := localModule_twice
  obtain ⟨f', here', counted⟩ := (runs_count runs).2 0 f here
  refine ⟨p, q, f', parsed, runs, here', ?_⟩
  rw [counted.locals, locals, declares]
  rfl

theorem calls_bounded_twice : ∃ p q f, parse (ofFile localModule) = .ok p ∧ Runs p [0, 0] q ∧
    p.wasmFunctionVec[0]? = some f ∧ own f = [.i32 0] ∧ [0, 0].count 0 * totalSize (own f) ≤ 4072 ∧
      [0, 0].count 0 ≤ 1018 := by
  obtain ⟨p, q, f, parsed, runs, here, locals, declares⟩ := localModule_twice
  obtain ⟨size, times⟩ := calls_bounded runs here
  exact ⟨p, q, f, parsed, runs, here, declares, size, times (by simp [declares])⟩

end ModuleRuns
