import TinyWasm.CodeText
import TinyWasm.FunctionCall
import TinyWasm.RepeatedCalls
import Mathlib.Order.Interval.Finset.Nat

/-!
# The pages a call maps and unmaps

`getFunctionPointer` maps as many bytes as the code has. `executeWasmInstr`
unmaps as many bytes as the code has hex digits, which is twice that.
-/

namespace ExecutablePages

open HexText Wasm Emit Parser SourceBody LocalDeclarations CodeItems LabelledCode
open FunctionCall CodeText BranchFixup RepeatedCalls WholeFunction

/-! ### Execution -/

/-- A range of whole pages, as `mmap` and `munmap` round it: its first page, and its bytes. -/
structure Region where
  page : Nat
  length : Nat
  deriving DecidableEq, Repr

def Region.pages (region : Region) : Finset Nat :=
  Finset.Ico region.page (region.page + (region.length + 4095) / 4096)

/-- What is outside the program: `mmap` with the first page it gives, and the processor, with the
value and the return code that code leaves if it returns. -/
structure System where
  mmap : Nat → Option Nat
  run : List Byte → Option (BitVec 64 × BitVec 16)

/-- `getFunctionPointer`: the mapped region and what is copied into it. -/
def getFunctionPointer (sys : System) (full_instructions : Text) :
    Except CppError (Region × List Byte) := do
  let arraySize := full_instructions.length / 2
  let bytes ← charArray full_instructions
  match sys.mmap arraySize with
  | none => throw (.thrown "exit(1)")
  | some page => return (⟨page, arraySize⟩, bytes)

/-- An execution: the regions it maps and unmaps, the function after it, and the value returned or
the string thrown. -/
structure Execution where
  mapped : Region
  unmapped : Region
  function : WasmFunction
  outcome : Except String (BitVec 64)

/-- `executeWasmInstr`; the two zeroed buffers are part of the run. -/
def executeWasmInstr (sys : System) (f : WasmFunction) : Except CppError Execution := do
  let (mapped, bytes) ← getFunctionPointer sys (full_instructions f)
  match sys.run bytes with
  | none => throw (.divergence "instruction_set")
  | some (ans, return_code) =>
    return {
      mapped
      unmapped := ⟨mapped.page, (full_instructions f).length⟩
      function := resetAfterExecution f
      outcome := if return_code = 0 then .ok ans else .error "Wasm trapped" }

theorem executeWasmInstr_ok {sys : System} {f : WasmFunction} {e : Execution}
    (done : executeWasmInstr sys f = .ok e) :
    ∃ page, sys.mmap ((full_instructions f).length / 2) = some page ∧
      e.mapped = ⟨page, (full_instructions f).length / 2⟩ ∧
      e.unmapped = ⟨page, (full_instructions f).length⟩ ∧ e.function = resetAfterExecution f := by
  obtain ⟨⟨mapped, bytes⟩, loaded, done⟩ := ok_of_bind done
  obtain ⟨bytes', -, loaded⟩ := ok_of_bind loaded
  cases given : sys.mmap ((full_instructions f).length / 2) with
  | none =>
    rw [given] at loaded
    exact nomatch loaded
  | some page =>
    rw [given] at loaded
    cases loaded
    cases returned : sys.run bytes with
    | none =>
      simp only [returned] at done
      exact nomatch done
    | some result =>
      simp only [returned] at done
      cases done
      exact ⟨page, rfl, rfl, rfl, rfl⟩

/-! ### Whole pages -/

theorem pages_subset_iff {page m n : Nat} :
    Region.pages ⟨page, m⟩ ⊆ Region.pages ⟨page, n⟩ ↔ (m + 4095) / 4096 ≤ (n + 4095) / 4096 := by
  constructor
  · intro inside
    by_contra more
    have last : page + (n + 4095) / 4096 ∈ Region.pages ⟨page, m⟩ :=
      Finset.mem_Ico.mpr ⟨Nat.le_add_right .., by simp only; omega⟩
    have := (Finset.mem_Ico.mp (inside last)).2
    simp only at this
    omega
  · intro fewer
    apply Finset.Ico_subset_Ico le_rfl
    simp only
    omega

/-- Half as many bytes are fewer pages as soon as they are more than half a page. -/
theorem half_pages {n : Nat} (even : 2 ∣ n) :
    (n + 4095) / 4096 ≤ (n / 2 + 4095) / 4096 ↔ n ≤ 4096 := by
  omega

/-! ### What the program can execute -/

/-- The states of a module: parsed, and after any calls of its functions. -/
inductive Reached (file : List Byte) : State → Prop where
  | parsed {p : State} (done : parse (ofFile file) = .ok p) : Reached file p
  | called {p q : State} {i : Nat} {args : Nat → Option wasm_type}
      {order : WasmFunction.VisitOrder} {g : WasmFunction} (reached : Reached file p)
      (done : call i args order p = .ok (g, q)) : Reached file q

/-- Nothing of a compilation is left in the function. -/
structure Cleared (f : WasmFunction) : Prop where
  unwritten : Unwritten f
  pre : f.pre_instructions_for_param_loading = []

theorem reached_cleared {file : List Byte} {p : State} (reached : Reached file p) :
    ∀ f ∈ p.wasmFunctionVec, Cleared f := by
  induction reached with
  | parsed done =>
    intro f inside
    obtain ⟨code, declares, rfl⟩ := parse_fresh done f inside
    exact ⟨⟨rfl, rfl, rfl⟩, rfl⟩
  | called reached done cleared =>
    obtain ⟨f, t, type, function, typeIndex, signature, compiled, rfl⟩ := call_ok done
    intro h inside
    rcases List.mem_or_eq_of_mem_set inside with other | rfl
    · exact cleared h other
    · exact ⟨⟨rfl, rfl, rfl⟩, rfl⟩

/-- Whatever is executed is a sequence of instruction words. -/
theorem full_instructions_words {file : List Byte} {p q : State} (reached : Reached file p)
    {i : Nat} {args : Nat → Option wasm_type} {order : WasmFunction.VisitOrder} {g : WasmFunction}
    (called : call i args order p = .ok (g, q)) :
    ∃ ws : List (BitVec 32), full_instructions g = ws.flatMap wordText := by
  obtain ⟨f, t, type, function, -, -, compiled, -⟩ := call_ok called
  have cleared := reached_cleared reached f (List.mem_of_getElem? function)
  obtain ⟨h, loaded, compiled⟩ := ok_of_bind compiled
  obtain ⟨ps, same, -⟩ := prepareParams_ok loaded
  have unwritten : Unwritten h := by
    rw [same]
    exact ⟨cleared.unwritten.text, cleared.unwritten.branches, cleared.unwritten.labels⟩
  have pre : h.pre_instructions_for_param_loading = ps.flatMap wordText := by
    rw [same]
    change f.pre_instructions_for_param_loading ++ _ = _
    rw [cleared.pre, List.nil_append]
  have kept := (CompilerFrame.processCodeVec_leaves compiled).pre
  obtain ⟨vs, finished⟩ := processCodeVec_finished unwritten compiled
  refine ⟨ps ++ vs, ?_⟩
  rw [full_instructions, kept, pre, finished.text, List.flatMap_append]

/-- It is executed as soon as `mmap` gives memory and the code returns. -/
theorem execution_completes {sys : System} {f : WasmFunction} {ws : List (BitVec 32)}
    (text : full_instructions f = ws.flatMap wordText)
    (given : ∀ n, ∃ page, sys.mmap n = some page) (returned : ∀ code, ∃ r, sys.run code = some r) :
    ∃ e, executeWasmInstr sys f = .ok e := by
  have loaded := loadWords_flatMap ws
  rw [loadWords] at loaded
  cases read : charArray (ws.flatMap wordText) with
  | error error =>
    rw [read] at loaded
    cases loaded
  | ok bytes =>
    obtain ⟨page, mapped⟩ := given ((ws.flatMap wordText).length / 2)
    obtain ⟨r, back⟩ := returned bytes
    have pointer : getFunctionPointer sys (full_instructions f) =
        .ok (⟨page, (ws.flatMap wordText).length / 2⟩, bytes) := by
      rw [getFunctionPointer, text, read, ok_bind, mapped]
      rfl
    rw [executeWasmInstr, pointer, ok_bind]
    simp only [back]
    exact ⟨_, rfl⟩

/-- The pages unmapped after a run are those mapped for it, and none besides, exactly when the code
has at most 4096 hex digits. -/
theorem pages_released_iff {file : List Byte} {p q : State} (reached : Reached file p) {i : Nat}
    {args : Nat → Option wasm_type} {order : WasmFunction.VisitOrder} {g : WasmFunction}
    (called : call i args order p = .ok (g, q)) {sys : System} {e : Execution}
    (executed : executeWasmInstr sys g = .ok e) :
    (e.unmapped.pages = e.mapped.pages ↔ (full_instructions g).length ≤ 4096) ∧
      (e.unmapped.pages ⊆ e.mapped.pages ↔ (full_instructions g).length ≤ 4096) := by
  obtain ⟨page, -, mapped, unmapped, -⟩ := executeWasmInstr_ok executed
  obtain ⟨ws, text⟩ := full_instructions_words reached called
  have even : 2 ∣ (full_instructions g).length := by
    rw [text, EmissionSpec.flatMap_wordText_length]
    omega
  have within : e.unmapped.pages ⊆ e.mapped.pages ↔ (full_instructions g).length ≤ 4096 := by
    rw [mapped, unmapped, pages_subset_iff]
    exact half_pages even
  constructor
  · rw [← within]
    constructor
    · intro same
      exact same.subset
    · intro inside
      apply inside.antisymm
      rw [mapped, unmapped, pages_subset_iff]
      omega
  · exact within

/-- Generated code that is short enough is linked, and loads as one word for each item. -/
theorem compiled_length {params results : List wasm_type} {groups : List Group} {body : Seq}
    {f : WasmFunction} (short : body.bytes.length ≤ 255)
    (compiles : (delivered params results groups body).prepareParams >>= generate = .ok f)
    (order : WasmFunction.VisitOrder) :
    ∃ (g : WasmFunction) (ws : List (BitVec 32)),
      funcSingleProcess (delivered params results groups body) order = .ok g ∧
      full_instructions g = ws.flatMap wordText ∧
      ws.length = (argumentBlock params).length +
        size (wholeItems params (groups.flatMap groupLocals) results body) := by
  obtain ⟨loaded, prepares, generates⟩ := ok_of_bind compiles
  obtain ⟨ps, rfl, arguments, -⟩ := prepareParams_ok prepares
  change generate (delivered params results groups body (ps.flatMap wordText)) = .ok f at generates
  obtain ⟨known, pre⟩ := generate_ok generates
  obtain ⟨vs, anyOrder, -, linked⟩ := fixUp_represents known.represents
    (linkable_wholeItems known.small results short)
  refine ⟨{ f with wasm_instructions := vs.flatMap wordText }, ps ++ vs, ?_, ?_, ?_⟩
  · rw [funcSingleProcess, prepares, ok_bind]
    change processCodeVec (delivered params results groups body (ps.flatMap wordText)) order = _
    rw [processCodeVec, generates, ok_bind, anyOrder order]
  · rw [full_instructions, List.flatMap_append]
    exact congrArg (· ++ vs.flatMap wordText) pre
  · have loads := congrArg List.length arguments
    have words := congrArg List.length linked
    simp only [List.length_map, resolve_length] at loads words
    rw [List.length_append, loads, words]
    rfl

/-- Memory from page 7 on, and code that returns 5. -/
def someSystem : System := ⟨fun _ => some 7, fun _ => some (5, 0)⟩

theorem someSystem_executes {f : WasmFunction} {ws : List (BitVec 32)}
    (text : full_instructions f = ws.flatMap wordText) :
    ∃ e, executeWasmInstr someSystem f = .ok e :=
  execution_completes text (fun _ => ⟨7, rfl⟩) (fun _ => ⟨(5, 0), rfl⟩)

theorem pages_released_constant : ∃ p q g e, Reached constantModule p ∧
    call 0 (fun _ => none) inOrder p = .ok (g, q) ∧ executeWasmInstr someSystem g = .ok e ∧
    (e.unmapped.pages = e.mapped.pages ↔ (full_instructions g).length ≤ 4096) ∧
    (e.unmapped.pages ⊆ e.mapped.pages ↔ (full_instructions g).length ≤ 4096) := by
  obtain ⟨⟨g, q⟩, done⟩ := ok_of_isOk (show (parse (ofFile constantModule) >>=
    call 0 (fun _ => none) inOrder).isOk = true by decide +kernel)
  obtain ⟨p, parsed, called⟩ := ok_of_bind done
  have reached : Reached constantModule p := .parsed parsed
  obtain ⟨ws, text⟩ := full_instructions_words reached called
  obtain ⟨e, executed⟩ := someSystem_executes text
  exact ⟨p, q, g, e, reached, called, executed, pages_released_iff reached called executed⟩

/-- `(func (result i32) (local i32 …) (i32.const 5))` with five groups of 127 locals. -/
def manyLocalsModule : List Byte :=
  oneFunction ([0x05, 0x7f, 0x7f, 0x7f, 0x7f, 0x7f, 0x7f, 0x7f, 0x7f, 0x7f, 0x7f] ++
    [0x41, 0x05, 0x0b])

def manyLocals : List Group := List.replicate 5 (127, 0x7f)

/-- The function before its first call. -/
theorem manyLocals_parsed : ∃ p f, parse (ofFile manyLocalsModule) = .ok p ∧
    p.wasmFunctionVec[0]? = some f ∧ p.funcTypeVec[0]? = some 0 ∧
    p.wasmTypeVec[0]? = some ⟨[], [.i32 0]⟩ ∧
    prepared (fun _ => none) ⟨[], [.i32 0]⟩ f =
      delivered [] [.i32 0] manyLocals (.op (.i32const 5) .nil) := by
  obtain ⟨p, done⟩ := ok_of_isOk
    (show (parse (ofFile manyLocalsModule)).isOk = true by decide +kernel)
  have code : ((parse (ofFile manyLocalsModule)).toOption.bind fun p =>
      p.wasmFunctionVec[0]?.map fun f => f.code_vec) =
      some (delivered [] [.i32 0] manyLocals (.op (.i32const 5) .nil)).code_vec := by
    decide +kernel
  have declares : ((parse (ofFile manyLocalsModule)).toOption.bind fun p =>
      p.wasmFunctionVec[0]?.map fun f => f.local_var_declare_count) = some 5 := by
    decide +kernel
  have index : ((parse (ofFile manyLocalsModule)).toOption.bind fun p => p.funcTypeVec[0]?) =
      some 0 := by decide +kernel
  have type : ((parse (ofFile manyLocalsModule)).toOption.bind fun p => p.wasmTypeVec[0]?) =
      some ⟨[], [.i32 0]⟩ := by decide +kernel
  rw [done] at code declares index type
  obtain ⟨f, function, code⟩ := Option.map_eq_some_iff.mp
    (show p.wasmFunctionVec[0]?.map (fun f => f.code_vec) = some _ from code)
  have declares :
      p.wasmFunctionVec[0]?.map (fun f => f.local_var_declare_count) = some 5 := declares
  rw [function] at declares
  refine ⟨p, f, done, function, index, type, ?_⟩
  obtain ⟨code', declares', rfl⟩ := parse_fresh done f (List.mem_of_getElem? function)
  obtain rfl : code' = _ := code
  obtain rfl : declares' = 5 := Option.some.inj declares
  rfl

/-- Its code fills more than half a page, and a page is unmapped that was never mapped. -/
theorem long_code_unmaps_more : ∃ p q g e, Reached manyLocalsModule p ∧
    call 0 (fun _ => none) inOrder p = .ok (g, q) ∧ executeWasmInstr someSystem g = .ok e ∧
    e.unmapped.pages ≠ e.mapped.pages ∧ 8 ∈ e.unmapped.pages ∧ 8 ∉ e.mapped.pages := by
  obtain ⟨p, f, done, function, index, type, same⟩ := manyLocals_parsed
  obtain ⟨generated, compiles⟩ := ok_of_isOk
    (show ((delivered [] [.i32 0] manyLocals (.op (.i32const 5) .nil)).prepareParams >>=
      generate).isOk = true by decide +kernel)
  obtain ⟨g, ws, whole, text, count⟩ := compiled_length (by decide) compiles inOrder
  have called : call 0 (fun _ => none) inOrder p =
      .ok (g, { p with wasmFunctionVec := p.wasmFunctionVec.set 0 (resetAfterExecution g) }) := by
    rw [call_eq function index type, same, whole]
    rfl
  have words : ws.length = 687 := by
    rw [count]
    decide +kernel
  have length : (full_instructions g).length = 5496 := by
    rw [text, EmissionSpec.flatMap_wordText_length, words]
  obtain ⟨e, executed⟩ := someSystem_executes text
  obtain ⟨page, given, mapped, unmapped, -⟩ := executeWasmInstr_ok executed
  obtain rfl : 7 = page := Option.some.inj given
  rw [length] at mapped unmapped
  refine ⟨p, _, g, e, .parsed done, called, executed, ?_, ?_, ?_⟩
  · rw [mapped, unmapped]
    decide
  · rw [unmapped]
    decide
  · rw [mapped]
    decide

end ExecutablePages
