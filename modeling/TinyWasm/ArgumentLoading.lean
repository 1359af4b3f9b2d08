import TinyWasm.CallRun
import TinyWasm.FrameBounds

/-!
# Arguments in their registers

The constants of the argument loads are exact. The loads fill the registers from
`x0` on after the registers with a role are set, and there are enough params to
overwrite these.
-/

namespace ArgumentLoading

open BitFields HexText Opcode Wasm Emit ArmInstruction StepRuns ArmMachine BlockEffects
open LabelledCode CodeItems EmissionSpec FrameSpec BranchFixup CompilerFrame OpcodeLoop CodeText
open FrameBounds FunctionCall EntryRun CallRun

/-! ### Constants -/

/-- The call prints words that put the value into the register, from any state, and change
nothing else. -/
def Materialises (call : Except CppError Text) (rd : Reg) (value : BitVec 64) : Prop :=
  ∃ text ws, call = .ok text ∧ loadWords text = .ok ws ∧ ∀ base s, ∃ trace,
    Run (step ws base) ⟨base, s⟩ trace
      ⟨addr base ws.length, { s with x := Function.update s.x rd value }⟩

theorem materialises_of_yields {call : Except CppError Text} {block : List Instr} {rd : Reg}
    {value : BitVec 64} (yields : YieldsAll call block)
    (straight : ∀ i ∈ block, plain i = true) (short : block.length ≤ 4)
    (effect : ∀ s, execAll block s = { s with x := Function.update s.x rd value }) :
    Materialises call rd value := by
  obtain ⟨ws, printed, known⟩ := yields
  have length : ws.length = block.length := by
    have lengths := congrArg List.length known
    rwa [List.length_map, List.length_map] at lengths
  refine ⟨_, ws, printed, loadWords_flatMap ws, ?_⟩
  intro base s
  have loaded : Loaded ws block := ⟨known, by omega⟩
  have run := run_block loaded base (p := 0) (fun n i here => by rwa [Nat.zero_add]) straight s
  rw [effect, Nat.zero_add, ← length, addr_zero] at run
  exact ⟨_, run⟩

/-- Both constant loads are exact for every general register. -/
theorem constants_exact (rd : BitVec 8) (general : rd.toNat ≤ 30) :
    (∀ v : BitVec 32, Materialises (wrapperEncodeMovInt32 rd v) (rd.setWidth 5) (v.setWidth 64)) ∧
      ∀ w : BitVec 64, Materialises (wrapperEncodeMovInt64 rd w) (rd.setWidth 5) w := by
  have register : rd.setWidth 5 ≠ (31 : Reg) := by
    intro same
    have value := congrArg BitVec.toNat same
    rw [BitVec.toNat_setWidth] at value
    have last : (31 : Reg).toNat = 31 := rfl
    omega
  constructor
  · intro v
    apply materialises_of_yields (movConst32_yields v (by omega))
    · intro i member
      simp only [mov32, List.mem_cons, List.not_mem_nil, or_false] at member
      rcases member with rfl | rfl
      · rfl
      · rfl
    · exact show 2 ≤ 4 by decide
    · exact exec_mov32 register v
  · intro w
    apply materialises_of_yields (movConst64_yields w (by omega))
    · intro i member
      simp only [mov64, List.mem_cons, List.not_mem_nil, or_false] at member
      rcases member with rfl | rfl | rfl | rfl
      · rfl
      · rfl
      · rfl
      · rfl
    · exact Nat.le_refl 4
    · exact exec_mov64 register w

theorem constants_exact_scratch :
    (∀ v : BitVec 32, Materialises (wrapperEncodeMovInt32 11 v) 11 (v.setWidth 64)) ∧
      ∀ w : BitVec 64, Materialises (wrapperEncodeMovInt64 11 w) 11 w :=
  constants_exact 11 (by decide)

/-! ### The run to the entry -/

/-- Words behind the code do not change what its own words do. -/
theorem step_append {code tail : List Word} {base : BitVec 64} {c d : Config}
    (h : step code base c = some d) : step (code ++ tail) base c = some d := by
  rw [step, Option.map_eq_some_iff] at h ⊢
  obtain ⟨i, fetched, moved⟩ := h
  refine ⟨i, ?_, moved⟩
  rw [fetch] at fetched ⊢
  split at fetched
  · rename_i aligned
    rw [if_pos aligned]
    obtain ⟨w, here, known⟩ := Option.bind_eq_some_iff.mp fetched
    obtain ⟨inside, -⟩ := List.getElem?_eq_some_iff.mp here
    rw [List.getElem?_append_left inside, here]
    exact known
  · cases fetched

/-- The code `executeWasmInstr` loads, and the position of the label `entry` in it. -/
structure Executes (g : WasmFunction) (code : List Word) (entry : Nat) : Prop where
  loaded : loadWords (full_instructions g) = .ok code
  entry : ∃ place, g.label_map.lookup "entry" = some place ∧
    8 * entry = g.pre_instructions_for_param_loading.length + place

/-- The run comes to the position for the first time. -/
def Arrives (code : List Word) (base : BitVec 64) (p : Nat) (s t : State) : Prop :=
  ∃ trace, Run (step code base) ⟨base, s⟩ trace ⟨addr base p, t⟩ ∧ ¬ Passes base p trace

/-- The arguments are in their registers, and the caller's values where they belong. -/
structure Faithful (params : List wasm_type) (s t : State) : Prop where
  arguments : ∀ i v, params[i]? = some v → t.reg .x (BitVec.ofNat 5 i) = argValue v
  buffer : t.x 19 = s.x 0
  stack : t.x 20 = s.x 1
  pointer : t.x 21 = 0
  sp : t.sp = s.sp
  x29 : t.x 29 = s.x 29
  x30 : t.x 30 = s.x 30

/-- The run of the function reaches its entry, with everything in place. -/
def EntersFaithfully (g : WasmFunction) (params : List wasm_type) (base : BitVec 64) (s : State) :
    Prop :=
  ∃ code p t, Executes g code p ∧ Arrives code base p s t ∧ Faithful params s t

/-- Every param whose register has a role happens to have the value of that role. -/
structure RolesAgree (params : List wasm_type) (s : State) : Prop where
  buffer : ∀ v, params[19]? = some v → argValue v = s.x 0
  stack : ∀ v, params[20]? = some v → argValue v = s.x 1
  pointer : ∀ v, params[21]? = some v → argValue v = 0
  x29 : ∀ v, params[29]? = some v → argValue v = s.x 29
  x30 : ∀ v, params[30]? = some v → argValue v = s.x 30
  zero : ∀ v, params[31]? = some v → argValue v = 0

/-- The state at the entry is the one after the loads. -/
theorem faithful_atEntry_iff {params : List wasm_type} (few : params.length ≤ 32)
    (ints : ∀ v ∈ params, isFloat v = false) (s : State) :
    Faithful params s (atEntry params s) ↔ RolesAgree params s := by
  obtain ⟨values, others, sp, -⟩ := atEntry_registers few ints s
  obtain ⟨x19, x20, x21, x29, x30⟩ := withRoles_x s
  -- A register with a role holds its value exactly when no param with another value has it.
  have role : ∀ k < 31, ∀ a, (withRoles s).x (BitVec.ofNat 5 k) = a →
      ((atEntry params s).x (BitVec.ofNat 5 k) = a ↔
        ∀ v, params[k]? = some v → argValue v = a) := by
    intro k low a own
    have number : (BitVec.ofNat 5 k).toNat = k := by
      rw [BitVec.toNat_ofNat]
      omega
    cases here : params[k]? with
    | none =>
      have beyond := List.getElem?_eq_none_iff.mp here
      rw [others _ (Or.inl (by rw [number]; exact beyond)), own]
      simp
    | some v =>
      rw [values k v here low]
      simp
  have buffer := role 19 (by decide) _ x19
  have stack := role 20 (by decide) _ x20
  have pointer := role 21 (by decide) _ x21
  have frame := role 29 (by decide) _ x29
  have link := role 30 (by decide) _ x30
  constructor
  · intro faithful
    exact ⟨buffer.mp faithful.buffer, stack.mp faithful.stack, pointer.mp faithful.pointer,
      frame.mp faithful.x29, link.mp faithful.x30,
      fun v here => (faithful.arguments 31 v here).symm⟩
  · intro agree
    refine ⟨?_, buffer.mpr agree.buffer, stack.mpr agree.stack, pointer.mpr agree.pointer, sp,
      frame.mpr agree.x29, link.mpr agree.x30⟩
    intro i v here
    have inside := (List.getElem?_eq_some_iff.mp here).1
    by_cases last : i = 31
    · subst last
      exact (agree.zero v here).symm
    · have general : BitVec.ofNat 5 i ≠ 31 := by
        intro same
        have number := congrArg BitVec.toNat same
        rw [BitVec.toNat_ofNat] at number
        have top : (31 : Reg).toNat = 31 := rfl
        omega
      rw [State.reg, if_neg general]
      exact values i v here (by omega)

/-- Loads with the branch over the stubs behind them lead past the stubs. -/
theorem arrives_of_loads {params : List wasm_type} {pre : List Word} (few : params.length ≤ 32)
    (known : pre.map decode = (argumentBlock params).map some) {w : Word}
    (branch : decode w = some (.b false (size stubItems))) (rest : List Word)
    (base : BitVec 64) (s : State) :
    Arrives (pre ++ w :: rest) base (pre.length + size stubItems) s (atEntry params s) := by
  have count : pre.length = (argumentBlock params).length := by
    have lengths := congrArg List.length known
    rwa [List.length_map, List.length_map] at lengths
  have loads := argLoads_length 0 params
  have block : (argumentBlock params).length = 3 + (argLoads 0 params).length := by
    rw [argumentBlock, List.length_append]
    rfl
  have loaded : Loaded (pre ++ [w]) (argumentBlock params ++ [.b false (size stubItems)]) := by
    refine ⟨?_, by rw [List.length_append, List.length_singleton]; omega⟩
    rw [List.map_append, List.map_append, known, List.map_singleton, branch]
    rfl
  have stands : Stands (argumentBlock params ++ [.b false (size stubItems)]) 0
      (argumentBlock params) := by
    intro n i here
    rw [Nat.zero_add, List.getElem?_append_left (List.getElem?_eq_some_iff.mp here).1]
    exact here
  have block_run := run_block loaded base stands
    (fun i member => (argumentBlock_plain params i member).1) s
  have behind : (argumentBlock params ++ [.b false (size stubItems)])[0 +
      (argumentBlock params).length]? = some (.b false (size stubItems)) := by
    rw [Nat.zero_add, List.getElem?_append_right (Nat.le_refl _), Nat.sub_self]
    rfl
  have jump := step_b loaded base behind (q := pre.length + size stubItems)
    (by omega) (atEntry params s)
  have embed : ∀ c d, step (pre ++ [w]) base c = some d →
      step (pre ++ [w] ++ rest) base c = some d := fun _ _ moved => step_append moved
  have whole := (block_run.append (Run.one jump)).mono embed
  rw [addr_zero, List.append_assoc] at whole
  refine ⟨_, whole, ?_⟩
  -- Every step is from a load or from the branch behind them.
  have steps : StepsIn base (· ≤ pre.length) (blockTrace base 0 (argumentBlock params) s ++
      [⟨addr base (0 + (argumentBlock params).length), atEntry params s⟩]) :=
    (stepsIn_block (fun k _ high => by omega) s).append (stepsIn_one (by omega) _)
  have stubs : size stubItems = 32 := rfl
  exact not_passes steps (fun k low => by omega) (by omega) (by omega)

/-- The words of the loads and the branch behind them lead to the entry. -/
theorem arrives_entry {f g : WasmFunction} {order : WasmFunction.VisitOrder}
    (unwritten : Unwritten f) (fresh : f.pre_instructions_for_param_loading = [])
    (done : funcSingleProcess f order = .ok g) :
    (∀ v ∈ f.param_data, isFloat v = false) ∧ f.param_data.length ≤ 32 ∧
      ∃ code p, Executes g code p ∧ (∀ q, (∃ code', Executes g code' q) → q = p) ∧
        ∀ base s, Arrives code base p s (atEntry f.param_data s) := by
  obtain ⟨h, prepared, done⟩ := ok_of_bind done
  obtain ⟨pre, rfl, known, ints, few⟩ := prepareParams_ok prepared
  refine ⟨ints, few, ?_⟩
  obtain ⟨ws, finished⟩ := processCodeVec_finished
    (by exact ⟨unwritten.text, unwritten.branches, unwritten.labels⟩) done
  obtain ⟨w, first, branch⟩ := finished.first
  have kept : g.pre_instructions_for_param_loading = pre.flatMap wordText := by
    rw [(processCodeVec_leaves done).pre]
    simp only [fresh, List.nil_append]
  refine ⟨pre ++ ws, pre.length + size stubItems, ⟨?_, ?_⟩, ?_, ?_⟩
  · rw [full_instructions, kept, finished.text, ← List.flatMap_append, loadWords_flatMap]
  · refine ⟨_, finished.entry, ?_⟩
    rw [kept, flatMap_wordText_length, Nat.mul_add]
  · rintro q ⟨-, -, place, recorded, offset⟩
    obtain rfl : place = 8 * size stubItems := Option.some.inj (recorded.symm.trans finished.entry)
    rw [kept, flatMap_wordText_length] at offset
    omega
  · intro base s
    obtain ⟨rest, rfl⟩ : ∃ rest, ws = w :: rest := by
      cases ws with
      | nil => cases first
      | cons v rest => exact ⟨rest, by rw [Option.some.inj first]⟩
    exact arrives_of_loads few known branch rest base s

/-- More params than registers are refused. -/
theorem refuses_of_many {f : WasmFunction} (order : WasmFunction.VisitOrder)
    (many : 32 < f.param_data.length) : Refuses (funcSingleProcess f order) := by
  refine refuses_bind (raises_prepareParams f) fun g prepared => ?_
  obtain ⟨-, -, -, -, few⟩ := prepareParams_ok prepared
  omega

/-- The run to the entry is the only one, so it is faithful exactly when the roles agree. -/
theorem entersFaithfully_iff {f g : WasmFunction} {order : WasmFunction.VisitOrder}
    (unwritten : Unwritten f) (fresh : f.pre_instructions_for_param_loading = [])
    (done : funcSingleProcess f order = .ok g) (base : BitVec 64) (s : State) :
    EntersFaithfully g f.param_data base s ↔ RolesAgree f.param_data s := by
  obtain ⟨ints, few, code, p, executes, alone, arrives⟩ := arrives_entry unwritten fresh done
  rw [← faithful_atEntry_iff few ints]
  constructor
  · rintro ⟨code', p', t, executes', arrives', faithful⟩
    obtain rfl := alone p' ⟨code', executes'⟩
    obtain rfl : code' = code := Except.ok.inj (executes'.loaded.symm.trans executes.loaded)
    obtain ⟨trace, run, before⟩ := arrives base s
    obtain ⟨trace', run', before'⟩ := arrives'
    have same := run'.exit_unique (P := fun c => c.pc ≠ addr base p')
      (fun c member here => before' ⟨c, member, here⟩) (fun away => away rfl) run
      (fun c member here => before ⟨c, member, here⟩) fun away => away rfl
    obtain rfl : t = atEntry f.param_data s := congrArg Config.state same
    exact faithful
  · intro faithful
    exact ⟨code, p, _, executes, arrives base s, faithful⟩

/-- Lists of more than 32 params are refused; of any other list that is compiled, the arguments
and the caller's values arrive exactly when the roles agree with the params. -/
theorem arguments_faithful_iff (params results : List wasm_type) (declares : Nat)
    (code : List Text) (order : WasmFunction.VisitOrder) :
    (32 < params.length → Refuses (funcSingleProcess (parsed params results declares code) order)) ∧
      ∀ g, funcSingleProcess (parsed params results declares code) order = .ok g → ∀ base s,
        (EntersFaithfully g params base s ↔ RolesAgree params s) := by
  constructor
  · intro many
    exact refuses_of_many order many
  · intro g done base s
    exact entersFaithfully_iff (parsed_unwritten params results declares code) rfl done base s

/-- With fewer than twenty params there is nothing to agree on. -/
theorem rolesAgree_of_few {params : List wasm_type} (few : params.length ≤ 19) (s : State) :
    RolesAgree params s := by
  have none : ∀ k, 19 ≤ k → params[k]? = none := fun k _ => List.getElem?_eq_none (by omega)
  constructor
  · intro v here
    rw [none 19 (by decide)] at here
    exact nomatch here
  · intro v here
    rw [none 20 (by decide)] at here
    exact nomatch here
  · intro v here
    rw [none 21 (by decide)] at here
    exact nomatch here
  · intro v here
    rw [none 29 (by decide)] at here
    exact nomatch here
  · intro v here
    rw [none 30 (by decide)] at here
    exact nomatch here
  · intro v here
    rw [none 31 (by decide)] at here
    exact nomatch here

/-- Twenty params, the last of them in the place of the buffer pointer. -/
def twentyParams : List wasm_type := List.replicate 20 (.i32 0)

theorem twentieth_param_overwrites : ∃ g, funcSingleProcess
    (parsed twentyParams [] 0 ["0b".toList]) inOrder = .ok g ∧
      ¬ EntersFaithfully g twentyParams 0x100000 sampleCall := by
  obtain ⟨g, done⟩ := ok_of_isOk (show (funcSingleProcess
    (parsed twentyParams [] 0 ["0b".toList]) inOrder).isOk = true by decide +kernel)
  refine ⟨g, done, ?_⟩
  rw [show twentyParams = (parsed twentyParams [] 0 ["0b".toList]).param_data from rfl,
    entersFaithfully_iff (parsed_unwritten ..) rfl done]
  intro agree
  exact absurd (agree.buffer (.i32 0) rfl) (by decide)

end ArgumentLoading
