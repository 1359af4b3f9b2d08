import TinyWasm.CodeGrowth

/-!
# What compilation leaves alone

Whatever bytes a function has, generating its code leaves its params, results,
bytes and argument loads as they are, and adds to its locals only those it
declares.
-/

namespace CompilerFrame

open HexText Opcode Wasm Emit CodeGrowth

/-- The fields code generation only reads, if at all. -/
structure Untouched (f g : WasmFunction) : Prop where
  pre : g.pre_instructions_for_param_loading = f.pre_instructions_for_param_loading
  code : g.code_vec = f.code_vec
  declares : g.local_var_declare_count = f.local_var_declare_count
  locals : g.local_data = f.local_data
  params : g.param_data = f.param_data
  results : g.result_data = f.result_data

theorem Untouched.refl (f : WasmFunction) : Untouched f f := ⟨rfl, rfl, rfl, rfl, rfl, rfl⟩

theorem Untouched.trans {f g h : WasmFunction} (first : Untouched f g) (second : Untouched g h) :
    Untouched f h :=
  ⟨second.pre.trans first.pre, second.code.trans first.code,
    second.declares.trans first.declares, second.locals.trans first.locals,
    second.params.trans first.params, second.results.trans first.results⟩

/-- Whenever the call completes, it leaves the function untouched. -/
def Leaves (f : WasmFunction) (call : Except CppError WasmFunction) : Prop :=
  ∀ g, call = .ok g → Untouched f g

theorem leaves_ok {f g : WasmFunction} (h : Untouched f g) : Leaves f (.ok g) := by
  rintro _ ⟨⟩
  exact h

theorem leaves_bind {f : WasmFunction} {call : Except CppError WasmFunction}
    {next : WasmFunction → Except CppError WasmFunction} (first : Leaves f call)
    (second : ∀ g, Leaves g (next g)) : Leaves f (call >>= next) := by
  intro h done
  obtain ⟨g, hg, done⟩ := ok_of_bind done
  exact (first g hg).trans (second g h done)

/-- A text is made first. -/
theorem leaves_text {f : WasmFunction} {α : Type} {call : Except CppError α}
    {next : α → Except CppError WasmFunction} (h : ∀ text, Leaves f (next text)) :
    Leaves f (call >>= next) := by
  intro g done
  obtain ⟨text, -, done⟩ := ok_of_bind done
  exact h text g done

theorem leaves_after {f g : WasmFunction} {call : Except CppError WasmFunction}
    (first : Untouched f g) (second : Leaves g call) : Leaves f call :=
  fun h done => first.trans (second h done)

theorem untouched_append (f : WasmFunction) (text : Text) :
    Untouched f (f.constructFullinstr text) := ⟨rfl, rfl, rfl, rfl, rfl, rfl⟩

theorem untouched_branch (f : WasmFunction) (label kind : String) :
    Untouched f (f.fakeInsertBranch label kind) := ⟨rfl, rfl, rfl, rfl, rfl, rfl⟩

theorem untouched_label (f : WasmFunction) (label : String) :
    Untouched f (f.insertLabel label) := by
  rw [WasmFunction.insertLabel]
  split
  · exact .refl f
  · exact ⟨rfl, rfl, rfl, rfl, rfl, rfl⟩

theorem leaves_emit (f : WasmFunction) (call : Except CppError Text) : Leaves f (f.emit call) := by
  intro g done
  cases call with
  | error e => exact nomatch done
  | ok text =>
    cases done
    exact untouched_append f text

theorem untouched_growth : Growth Untouched where
  refl := .refl
  trans := .trans
  append := fun f _ _ => untouched_append f _
  branch := untouched_branch
  label := untouched_label
  control := fun _ _ _ => ⟨rfl, rfl, rfl, rfl, rfl, rfl⟩

/-! ### Around the loop -/

theorem leaves_storeParams (f : WasmFunction) (offset : Int) (fp gp i : Nat)
    (vs : List wasm_type) : Leaves f (f.storeParams offset fp gp i vs) := by
  induction vs generalizing f offset fp gp i with
  | nil => exact leaves_ok (.refl f)
  | cons v vs ih =>
    have set : ∀ regType, Untouched f (f.setVar .PARAM i offset regType) :=
      fun _ => ⟨rfl, rfl, rfl, rfl, rfl, rfl⟩
    cases v <;> exact leaves_after (set _) (leaves_bind (leaves_emit _ _) fun g => ih g _ _ _ _)

theorem leaves_storeLocals (f : WasmFunction) (offset : Int) (i : Nat) (vs : List wasm_type) :
    Leaves f (f.storeLocals offset i vs) := by
  induction vs generalizing f offset i with
  | nil => exact leaves_ok (.refl f)
  | cons v vs ih =>
    have set : ∀ regType, Untouched f (f.setVar .LOCAL i offset regType) :=
      fun _ => ⟨rfl, rfl, rfl, rfl, rfl, rfl⟩
    cases v <;> exact leaves_after (set _) (leaves_bind (leaves_emit _ _) fun g => ih g _ _)

theorem leaves_mainEntry (f : WasmFunction) : Leaves f f.main_entry_initialize := by
  have same : Untouched f f.getStackPreallocateSize := ⟨rfl, rfl, rfl, rfl, rfl, rfl⟩
  exact leaves_bind (leaves_after same (leaves_emit _ _)) fun g =>
    leaves_bind (leaves_storeParams g _ _ _ _ _) fun g => leaves_storeLocals g _ _ _

theorem leaves_fixUp (f : WasmFunction) (order : WasmFunction.VisitOrder) :
    Leaves f (f.fixUpfakeBranch order) := by
  have turn : ∀ (f : WasmFunction) (x : FakeBranch), Leaves f (f.fixOne x) := by
    rintro f ⟨label, origin, kind⟩
    refine leaves_text fun instr => leaves_text fun text => leaves_ok ?_
    cases f.label_map.lookup label with
    | none => exact ⟨rfl, rfl, rfl, rfl, rfl, rfl⟩
    | some _ => exact ⟨rfl, rfl, rfl, rfl, rfl, rfl⟩
  rw [WasmFunction.fixUpfakeBranch]
  induction order.visit f.fake_insert_map generalizing f with
  | nil => exact leaves_ok (.refl f)
  | cons x xs ih => exact leaves_bind (turn f x) fun g => ih g

/-! ### The declarations -/

/-- The locals of `n` declarations from `offset` on. -/
def declared (code : List Text) : Nat → Nat → List wasm_type
  | 0, _ => []
  | n + 1, offset =>
    (match code[offset]?.map stoul, code[offset + 1]?.map WasmFunction.typeOfCode with
      | some (.ok count), some (some data) => List.replicate count data
      | _, _ => []) ++ declared code n (offset + 2)

theorem add_locals (f : WasmFunction) (type : Text) (count : Nat) :
    (List.range count).foldl (fun f _ => f.add_data .LOCAL type) f =
      { f with local_data := f.local_data ++
          match WasmFunction.typeOfCode type with
          | some data => List.replicate count data
          | none => [] } := by
  induction count with
  | zero => cases WasmFunction.typeOfCode type <;> simp
  | succ n ih =>
    rw [List.range_succ, List.foldl_append, ih]
    cases h : WasmFunction.typeOfCode type with
    | none => simp [WasmFunction.add_data, h]
    | some data => simp [WasmFunction.add_data, h, List.replicate_succ']

theorem codeAt_ok {f : WasmFunction} {i : Nat} {code : Text} (h : f.codeAt i = .ok code) :
    f.code_vec[i]? = some code := by
  rw [WasmFunction.codeAt] at h
  cases here : f.code_vec[i]? with
  | none =>
    rw [here] at h
    exact nomatch h
  | some text =>
    rw [here] at h
    exact congrArg some (Except.ok.inj h)

/-- The declared locals are added to those already there. -/
theorem readLocals_eq {f g : WasmFunction} {n offset next : Nat}
    (done : f.readLocals n offset = .ok (g, next)) :
    g = { f with local_data := f.local_data ++ declared f.code_vec n offset } := by
  induction n generalizing f offset with
  | zero =>
    cases done
    rw [declared, List.append_nil]
  | succ n ih =>
    obtain ⟨first, hfirst, done⟩ := ok_of_bind done
    obtain ⟨count, hcount, done⟩ := ok_of_bind done
    obtain ⟨type, htype, done⟩ := ok_of_bind done
    rw [ih done, add_locals, declared, codeAt_ok hfirst, codeAt_ok htype, Option.map_some,
      Option.map_some, hcount]
    cases WasmFunction.typeOfCode type with
    | none => simp
    | some data => simp

/-- Generating the code of a function, whatever its bytes. -/
theorem generate_leaves {f g : WasmFunction} (done : generate f = .ok g) :
    Untouched { f with
      local_data := f.local_data ++ declared f.code_vec f.local_var_declare_count 0 } g := by
  obtain ⟨⟨h, offset⟩, read, done⟩ := ok_of_bind done
  have start := readLocals_eq read
  subst start
  exact (leaves_bind (untouched_growth.emitStubs _) fun g => leaves_after (untouched_label g _) <|
    leaves_bind (leaves_mainEntry _) fun g =>
    leaves_bind (untouched_growth.wrapper_setjmp g) fun g =>
    leaves_bind (untouched_growth.jiting_wasm_code g _) fun g => leaves_bind (leaves_emit g _)
    fun g => leaves_bind (leaves_emit g _) fun g => leaves_after (untouched_label g _)
      (untouched_growth.main_entry_finalize _)) g done

theorem processCodeVec_leaves {f g : WasmFunction} {order : WasmFunction.VisitOrder}
    (done : processCodeVec f order = .ok g) :
    Untouched { f with
      local_data := f.local_data ++ declared f.code_vec f.local_var_declare_count 0 } g := by
  obtain ⟨h, generated, done⟩ := ok_of_bind done
  exact (generate_leaves generated).trans (leaves_fixUp h order g done)

end CompilerFrame
