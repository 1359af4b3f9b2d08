import TinyWasm.DriverRuns

/-!
# The order of the fix-up cannot be observed

`fake_insert_map` is an `unordered_multimap`, so the library chooses the order
in which the fix-up visits it. Whatever bytes a function has, its code is the
same for every order. Only the labels that are read before they are recorded may
be recorded in another order, and execution clears the labels.
-/

namespace VisitOrders

open HexText Wasm Emit Parser CodeText Recompilation RepeatedCalls ExecutablePages TestDriver
open DriverRuns

variable {f g g' : WasmFunction} {order : WasmFunction.VisitOrder}

/-! ### One compilation -/

theorem renumber_zero (l : String) : renumber 0 l = l := by
  rcases label_cases l with ⟨n, rfl⟩ | ⟨n, rfl⟩ | fixed
  · exact renumber_ifLabel 0 n
  · exact renumber_elseLabel 0 n
  · exact renumber_fixed 0 fixed

/-- A compilation is its own later one. -/
theorem shadow_self (unwritten : Unwritten f) : Shadow False 0 [] f f where
  text := rfl
  branches := by
    rw [unwritten.branches]
    rfl
  labels := by
    rw [unwritten.labels]
    rfl
  counter := rfl
  control := by
    have kept : relabelled 0 = id := by
      funext element
      rw [relabelled, renumber_zero]
      rfl
    rw [kept, List.map_id, List.append_nil]
  params := rfl
  locals := rfl
  results := rfl
  code := rfl
  frame := fun never => never.elim
  spaced := by
    constructor
    · rw [unwritten.branches]
      exact fun x inside => absurd inside List.not_mem_nil
    · rw [unwritten.branches]
      exact List.Pairwise.nil

/-- The two functions differ in their labels only. -/
def UpToLabels (g g' : WasmFunction) : Prop := g' = { g with label_map := g'.label_map }

theorem UpToLabels.of_fixes (fixes : Fixes f g) (fixes' : Fixes f g')
    (text : g'.wasm_instructions = g.wasm_instructions) : UpToLabels g g' := by
  rw [Fixes, text] at fixes'
  rw [UpToLabels, fixes']
  rw [Fixes] at fixes
  rw [fixes]

theorem processCodeVec_order (unwritten : Unwritten f) (done : processCodeVec f order = .ok g)
    (order' : WasmFunction.VisitOrder) :
    ∃ g', processCodeVec f order' = .ok g' ∧ UpToLabels g g' := by
  obtain ⟨whole, generated, fixed⟩ := ok_of_bind done
  obtain ⟨again, generated', shadow⟩ :=
    follows_generate (shadow_self unwritten) rfl whole generated
  cases generated.symm.trans generated'
  obtain ⟨fixes, g', fixed', fixes', text⟩ := fixUp_follows shadow order' fixed
  refine ⟨g', ?_, .of_fixes fixes fixes' text⟩
  rw [processCodeVec, generated, ok_bind, fixed']

theorem funcSingleProcess_order (unwritten : Unwritten f)
    (done : funcSingleProcess f order = .ok g) (order' : WasmFunction.VisitOrder) :
    ∃ g', funcSingleProcess f order' = .ok g' ∧ UpToLabels g g' := by
  obtain ⟨h, loaded, done⟩ := ok_of_bind done
  obtain ⟨same, -⟩ := @prepareParams_again f f h rfl rfl loaded
  have unwritten' : Unwritten h := by
    rw [same]
    exact ⟨unwritten.text, unwritten.branches, unwritten.labels⟩
  obtain ⟨g', compiled, upToLabels⟩ := processCodeVec_order unwritten' done order'
  refine ⟨g', ?_, upToLabels⟩
  rw [funcSingleProcess, loaded, ok_bind, compiled]

/-- Execution does not look at the labels. -/
theorem UpToLabels.executes (same : UpToLabels g g') (sys : System) :
    executeWasmInstr sys g' = executeWasmInstr sys g ∧ g'.result_data = g.result_data := by
  rw [UpToLabels] at same
  rw [same]
  exact ⟨rfl, rfl⟩

/-! ### The driver -/

/-- A command goes through under every order or under none. -/
theorem runCommand_order {sys : System} {command : Command} {p q : State}
    (clear : ∀ f ∈ p.wasmFunctionVec, Unwritten f)
    (done : runCommand sys order command p = .ok q) (order' : WasmFunction.VisitOrder) :
    runCommand sys order' command p = .ok q := by
  obtain ⟨f, t, type, params, g, e, function, typeIndex, signature, reads, compiled, executed,
    verdict, rfl⟩ := runCommand_ok_iff.mp done
  have unwritten : Unwritten { f with param_data := params, result_data := type.result_data } := by
    obtain ⟨text, branches, labels⟩ := clear f (List.mem_of_getElem? function)
    exact ⟨text, branches, labels⟩
  obtain ⟨g', compiled', same⟩ := funcSingleProcess_order unwritten compiled order'
  obtain ⟨execution, results⟩ := same.executes sys
  exact runCommand_ok_iff.mpr ⟨f, t, type, params, g', e, function, typeIndex, signature, reads,
    compiled', execution.trans executed, results ▸ verdict, rfl⟩

/-- No function of the modules has code of its own. -/
def Clear (parser_map : List (List Byte × State)) : Prop :=
  ∀ name p, parser_map.lookup name = some p → ∀ f ∈ p.wasmFunctionVec, Unwritten f

section
variable {sys : System} {name : List Byte} {command : Command}
  {parser_map after : List (List Byte × State)} (clear : Clear parser_map)
  (done : test sys order name command parser_map = .ok after)
include clear done

theorem test_clear : Clear after := by
  obtain ⟨p, q, here, run, rfl⟩ := test_ok done
  obtain ⟨-, args, g, q', called, same⟩ := runCommand_calls run
  obtain ⟨-, -, -, -, -, -, -, rfl⟩ := call_ok called
  intro other r found
  by_cases mine : other = name
  · subst mine
    cases lookup_assign_self.symm.trans found
    rw [same.functions]
    intro f inside
    rcases List.mem_or_eq_of_mem_set inside with earlier | rfl
    · exact clear other p here f earlier
    · exact ⟨rfl, rfl, rfl⟩
  · exact clear other r ((lookup_assign_of_ne mine).symm.trans found)

theorem test_order (order' : WasmFunction.VisitOrder) :
    test sys order' name command parser_map = .ok after := by
  obtain ⟨p, q, here, run, rfl⟩ := test_ok done
  rw [test_eq, atKey_of_lookup here, runCommand_order (clear name p here) run order']
  rfl

end

theorem testAll_order {sys : System} {orders : Nat → WasmFunction.VisitOrder}
    {command_map : List (List Byte × Command)} {parser_map after : List (List Byte × State)}
    (clear : Clear parser_map) (done : testAll sys orders command_map parser_map = .ok after)
    (orders' : Nat → WasmFunction.VisitOrder) :
    testAll sys orders' command_map parser_map = .ok after :=
  @FallibleLoop.foldlM_follows _ _ _ _ (fun _ maps => Clear maps) _
    (fun _ _ _ _ clear turn => test_clear clear turn)
    (fun v _ _ _ clear turn => test_order clear turn (orders' v.2)) _ _ _ clear done

theorem test_chapter_order {sys : System} {files : List Byte → List Byte} {entries : List Entry}
    {orders : Nat → WasmFunction.VisitOrder} {after : List (List Byte × State)}
    (done : test_chapter sys files orders entries = .ok after)
    (orders' : Nat → WasmFunction.VisitOrder) :
    test_chapter sys files orders' entries = .ok after := by
  obtain ⟨tables, collected, done⟩ := ok_of_bind done
  have clear : Clear tables.parser_map := by
    intro name p here f inside
    have fresh := parse_fresh ((collect_parsed collected).1 name p here) f inside
    exact ⟨fresh.later.text, fresh.later.branches, fresh.later.labels⟩
  rw [test_chapter, collected, ok_bind, testAll_order clear done orders']

/-- A test file passes, and leaves the same modules, for all orders of the visits or for none. -/
theorem driver_any_order (sys : System) (files : List Byte → List Byte) (entries : List Entry)
    (orders orders' : Nat → WasmFunction.VisitOrder) (after : List (List Byte × State)) :
    test_chapter sys files orders entries = .ok after ↔
      test_chapter sys files orders' entries = .ok after := by
  constructor
  · intro done
    exact test_chapter_order done orders'
  · intro done
    exact test_chapter_order done orders

end VisitOrders
