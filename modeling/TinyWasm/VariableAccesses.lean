import TinyWasm.FrameEffects
import TinyWasm.OpcodeLoop

/-!
# Accesses to variables

The instructions emitted for a param or a local: the store that initialises it,
and the load or store of each opcode on it. All of them address the variable's
slot. With integer variables a slot begins in one four-byte unit of the frame,
counted down from the params' end and from the locals' end.
-/

namespace VariableAccesses

open HexText Opcode Wasm Emit ArmInstruction ByteMemory ArmMachine EncoderCorrectness
open SourceBody CodeItems EmissionSpec FrameSpec BodyFrame FrameEffects BranchFixup

/-! ### Emitted text -/

/-- The text that `g` has behind the text of `f`. -/
def textSince (f g : WasmFunction) : Text := g.wasm_instructions.drop f.wasm_instructions.length

/-- The text is the code of the block. -/
def Spells (text : Text) (block : List Instr) : Prop :=
  ∃ ws, loadWords text = .ok ws ∧ ws.map decode = block.map some

theorem Spells.unique {text : Text} {first second : List Instr} (h : Spells text first)
    (h' : Spells text second) : first = second := by
  obtain ⟨ws, loads, known⟩ := h
  obtain ⟨vs, loads', known'⟩ := h'
  cases loads.symm.trans loads'
  exact List.map_injective_iff.mpr (Option.some_injective _) (known.symm.trans known')

/-- From `f` to `g` the code of the block is emitted. -/
def Appends (f g : WasmFunction) (block : List Instr) : Prop :=
  ∃ ws : List Word, g.wasm_instructions = f.wasm_instructions ++ ws.flatMap wordText ∧
    ws.map decode = block.map some

theorem Appends.refl (f : WasmFunction) : Appends f f [] := ⟨[], by simp, rfl⟩

theorem Appends.trans {f g h : WasmFunction} {first second : List Instr}
    (step : Appends f g first) (later : Appends g h second) : Appends f h (first ++ second) := by
  obtain ⟨ws, text, known⟩ := step
  obtain ⟨vs, text', known'⟩ := later
  refine ⟨ws ++ vs, ?_, by rw [List.map_append, known, known', List.map_append]⟩
  rw [text', text, List.flatMap_append, List.append_assoc]

theorem Appends.spells {f g : WasmFunction} {block : List Instr} (h : Appends f g block) :
    Spells (textSince f g) block := by
  obtain ⟨ws, text, known⟩ := h
  refine ⟨ws, ?_, known⟩
  rw [textSince, text, List.drop_left]
  exact loadWords_flatMap ws

theorem appends_constructFullinstr {f : WasmFunction} {ws : List Word} {block : List Instr}
    (known : ws.map decode = block.map some) :
    Appends f (f.constructFullinstr (ws.flatMap wordText)) block := ⟨ws, rfl, known⟩

theorem appends_two {f g : WasmFunction} {first second : Except CppError Text}
    {is js : List Instr} (h : YieldsAll first is) (h' : YieldsAll second js)
    (done : (do let a ← first; let b ← second; return f.constructFullinstr (a ++ b)) = .ok g) :
    Appends f g (is ++ js) := by
  obtain ⟨ws, rfl, known⟩ := h
  obtain ⟨vs, rfl, known'⟩ := h'
  cases done
  rw [← List.flatMap_append]
  exact appends_constructFullinstr (by rw [List.map_append, known, known', List.map_append])

theorem storeAll_appends {f g : WasmFunction} {category : TypeCategory} {offset : Int} {i : Nat}
    {stores : List Store} (done : storeAll f category offset i stores = .ok g) :
    Appends f g (storesBlock offset stores) := by
  induction stores generalizing f offset i with
  | nil =>
    cases done
    exact .refl _
  | cons st rest ih =>
    obtain ⟨g₁, turn, done⟩ := ok_of_bind done
    obtain ⟨text, call, rfl⟩ := emit_ok turn
    obtain ⟨register, reach⟩ := encodeLoadStoreImm_ok call
    have yields := variableAccess_yields .str register reach
    rw [BitVec.setWidth_ofNat_of_le (by decide), call] at yields
    obtain ⟨w, same, known⟩ := yields
    cases same
    have first : Appends f
        ((f.setVar category i offset (varRegType st.value)).constructFullinstr (wordText w))
        [storeVar (BitVec.ofNat 5 st.reg) (slotOf st.regType offset)] :=
      ⟨[w], by simp [WasmFunction.constructFullinstr, WasmFunction.setVar],
        by rw [List.map_singleton, known]; rfl⟩
    exact first.trans (ih done)

/-! ### The instructions of a variable -/

/-- The code is generated further with the frame as it was laid out. -/
structure SameFrame (g h : WasmFunction) : Prop where
  vecToStack : h.vecToStack = g.vecToStack
  regTypeGetter : h.regTypeGetter = g.regTypeGetter
  param_data : h.param_data = g.param_data
  local_data : h.local_data = g.local_data

/-- `i` is emitted for the variable with this index, by the initialisation that leads from `f` to
`g` or by an opcode behind it. -/
inductive EmittedFor (f g : WasmFunction) (index : Nat) (i : Instr) : Prop
  | initialised {f₁ : WasmFunction} {block : List Instr}
      (lowered : f.getStackPreallocateSize.prepareSp = .ok f₁)
      (text : Spells (textSince f₁ g) block) (here : block[index]? = some i)
  | accessed {h h' : WasmFunction} {opType : LocalOp} {p : Nat} {code : Text} {block : List Instr}
      (laidOut : SameFrame g h) (read : h.codeAt (p + 1) = .ok code)
      (value : stoul code = .ok index)
      (emitted : commonLocalOp h p opType = .ok h') (text : Spells (textSince h h') block)
      (here : i ∈ block)

/-- The bytes an instruction touches through the stack pointer: their first, and their number. -/
def throughSp : Instr → State → Option (BitVec 64 × Nat)
  | .ldpStp _ width mode _ _ rn offset, s =>
    if rn = 31 then
      some (if mode = .postIndex then s.sp else s.sp + BitVec.ofInt 64 offset, 2 * width.bytes)
    else none
  | .ldrStrImm _ width mode _ rn offset, s =>
    if rn = 31 then
      some (if mode = .postIndex then s.sp else s.sp + BitVec.ofInt 64 offset, width.bytes)
    else none
  | .ldrStrReg _ width _ rn rm extend scaled, s =>
    let amount := if scaled then (if width = .x then 3 else 2) else 0
    if rn = 31 then some (s.sp + extendValue extend (s.reg .x rm) <<< amount, width.bytes) else none
  | _, _ => none

/-- Some instruction emitted for the variable touches these bytes. -/
def Touches (f g : WasmFunction) (index : Nat) (s : State) (a : BitVec 64) (n : Nat) : Prop :=
  ∃ i, EmittedFor f g index i ∧ throughSp i s = some (a, n)

theorem throughSp_storeVar (reg : Reg) (slot : Slot) (s : State) :
    throughSp (storeVar reg slot) s = some (slotAddr s.sp slot, slot.width.bytes) := by
  rw [storeVar, throughSp, if_pos rfl, if_neg (by decide), BitVec.ofInt_natCast]
  rfl

theorem throughSp_loadVar (reg : Reg) (slot : Slot) (s : State) :
    throughSp (loadVar reg slot) s = some (slotAddr s.sp slot, slot.width.bytes) := by
  rw [loadVar, throughSp, if_pos rfl, if_neg (by decide), BitVec.ofInt_natCast]
  rfl

/-- The operand stack is not addressed through the stack pointer. -/
theorem throughSp_operand (load : Bool) (width : Width) (reg : Reg) (s : State) :
    throughSp (.ldrStrReg load width reg 20 21 .lsl false) s = none := by
  rw [throughSp]
  exact if_neg (by decide)

/-- An opcode on a variable touches the variable's slot only. -/
theorem throughSp_localBlock {slot : Slot} {opType : LocalOp} {i : Instr} {s : State}
    {a : BitVec 64} {n : Nat} (here : i ∈ localBlock slot opType)
    (touched : throughSp i s = some (a, n)) : a = slotAddr s.sp slot ∧ n = slot.width.bytes := by
  have answer : throughSp i s = some (slotAddr s.sp slot, slot.width.bytes) ∨
      throughSp i s = none := by
    cases opType with
    | get =>
      rcases List.mem_cons.mp here with rfl | pushed
      · exact Or.inl (throughSp_loadVar 11 slot s)
      · simp only [pushBlock, List.mem_cons, List.not_mem_nil, or_false] at pushed
        rcases pushed with rfl | rfl
        · exact Or.inr (throughSp_operand _ _ _ s)
        · exact Or.inr rfl
    | set =>
      simp only [localBlock, popBlock, List.mem_append, List.mem_cons, List.not_mem_nil,
        or_false] at here
      rcases here with (rfl | rfl) | rfl
      · exact Or.inr rfl
      · exact Or.inr (throughSp_operand _ _ _ s)
      · exact Or.inl (throughSp_storeVar 11 slot s)
    | tee =>
      simp only [localBlock, teeBlock, popBlock, List.mem_append, List.mem_cons, List.not_mem_nil,
        or_false] at here
      rcases here with ((rfl | rfl) | rfl) | rfl
      · exact Or.inr rfl
      · exact Or.inr (throughSp_operand _ _ _ s)
      · exact Or.inr rfl
      · exact Or.inl (throughSp_storeVar 11 slot s)
  rw [touched] at answer
  rcases answer with same | none
  · cases same
    exact ⟨rfl, rfl⟩
  · cases none

theorem commonLocalOp_appends {f g : WasmFunction} (opType : LocalOp) {index i : Nat} {code : Text}
    (hcode : f.codeAt (i + 1) = .ok code) (value : stoul code = .ok index)
    (known : index < f.param_data.length + f.local_data.length)
    (reach : Reachable (varAccess f index).1 (varAccess f index).2)
    (done : commonLocalOp f i opType = .ok g) :
    Appends f g (localBlock (slotOf (varAccess f index).1 (varAccess f index).2) opType) := by
  have load := variableAccess_yields .ldr (show (11 : BitVec 8).toNat < 32 by decide) reach
  have store := variableAccess_yields .str (show (11 : BitVec 8).toNat < 32 by decide) reach
  rw [commonLocalOp_known opType hcode value known] at done
  cases opType with
  | get => exact appends_two (yieldsAll_of_yields load) (push_yields _ (by decide)) done
  | set => exact appends_two (pop_yields _ (by decide)) (yieldsAll_of_yields store) done
  | tee => exact appends_two (tee_yields _ (by decide)) (yieldsAll_of_yields store) done

/-! ### The slots -/

/-- The stores of variables of these types go to their slots. -/
theorem storesBlock_zip {offset : Int} {stores : List Store}
    (own : ∀ st ∈ stores, st.regType = varRegType st.value) :
    storesBlock offset stores = List.zipWith storeVar
      (stores.map fun st => BitVec.ofNat 5 st.reg) (slots offset (stores.map Store.value)) := by
  induction stores generalizing offset with
  | nil => rfl
  | cons st rest ih =>
    obtain ⟨first, later⟩ := List.forall_mem_cons.mp own
    rw [storesBlock, ih later, first]
    rfl

theorem paramStores_own (fp gp : Nat) (vs : List wasm_type) :
    ∀ st ∈ paramStores fp gp vs, st.regType = varRegType st.value := by
  induction vs generalizing fp gp with
  | nil => exact fun _ inside => absurd inside List.not_mem_nil
  | cons v vs ih =>
    intro st inside
    rcases List.mem_cons.mp inside with rfl | later
    · rfl
    · exact ih _ _ st later

theorem zeroRegType_int {v : wasm_type} (int : isFloat v = false) :
    zeroRegType v = varRegType v := by
  cases v with
  | i32 _ | i64 _ => rfl
  | f32 _ | f64 _ => cases int

theorem localStores_own {vs : List wasm_type} (ints : ∀ v ∈ vs, isFloat v = false) :
    ∀ st ∈ localStores vs, st.regType = varRegType st.value := by
  intro st inside
  obtain ⟨v, hv, rfl⟩ := List.mem_map.mp inside
  exact zeroRegType_int (ints v hv)

/-- The stores of the initialisation. -/
def initBlock (params locals : List wasm_type) : List Instr :=
  storesBlock (paramEnd params) (paramStores 0 0 params) ++
    storesBlock (localEnd params locals) (localStores locals)

/-- The registers they store. -/
def initRegs (params locals : List wasm_type) : List Reg :=
  (paramStores 0 0 params ++ localStores locals).map fun st => BitVec.ofNat 5 st.reg

theorem initRegs_length (params locals : List wasm_type) :
    (initRegs params locals).length = params.length + locals.length := by
  rw [initRegs, List.length_map, List.length_append, paramStores_length, localStores,
    List.length_map]

/-- The store that initialises a variable goes to the variable's slot. -/
theorem initBlock_zip {params locals : List wasm_type} (ints : ∀ v ∈ locals, isFloat v = false) :
    initBlock params locals =
      List.zipWith storeVar (initRegs params locals) (frameOf params locals) := by
  rw [initBlock, storesBlock_zip (paramStores_own 0 0 params), paramStores_values,
    storesBlock_zip (localStores_own ints), localStores_values, initRegs, List.map_append, frameOf,
    List.zipWith_append]
  rw [List.length_map, paramStores_length, slots_length]

theorem initBlock_slot {params locals : List wasm_type} (ints : ∀ v ∈ locals, isFloat v = false)
    {index : Nat} {slot : Slot} (here : (frameOf params locals)[index]? = some slot) :
    ∃ reg, (initBlock params locals)[index]? = some (storeVar reg slot) := by
  have inside := (List.getElem?_eq_some_iff.mp here).1
  rw [frameOf_length, ← initRegs_length] at inside
  refine ⟨(initRegs params locals)[index], ?_⟩
  rw [initBlock_zip ints, List.getElem?_zipWith, here, List.getElem?_eq_getElem inside]

section
variable {f g : WasmFunction} (done : WasmFunction.main_entry_initialize f = .ok g)
include done

/-- The text behind the new stack pointer is that of the stores. -/
theorem spells_init {f₁ : WasmFunction} (lowered : f.getStackPreallocateSize.prepareSp = .ok f₁) :
    Spells (textSince f₁ g) (initBlock f.param_data f.local_data) := by
  obtain ⟨f₁', prepared, done⟩ := ok_of_bind done
  cases lowered.symm.trans prepared
  obtain ⟨f₂, params, locals⟩ := ok_of_bind done
  rw [getStackPreallocateSize_eq, WasmFunction.prepareSp] at lowered
  obtain ⟨text, -, rfl⟩ := emit_ok lowered
  rw [WasmFunction.initParam, storeParams_eq] at params
  have first := storeAll_appends params
  obtain ⟨-, lays⟩ := storeAll_lays params
  have rest := lays.rest
  have ends : f₂.local_stack_end_location = localEnd f.param_data f.local_data := by
    rw [rest]
    rfl
  have data : f₂.local_data = f.local_data := by
    rw [rest]
    rfl
  rw [WasmFunction.initLocal, storeLocals_eq, ends, data] at locals
  exact (first.trans (storeAll_appends locals)).spells

/-- The slot of a variable is the one the maps tell. -/
theorem slot_of_access {index : Nat} {slot : Slot}
    (here : (frameOf f.param_data f.local_data)[index]? = some slot) :
    Reachable (varAccess g index).1 (varAccess g index).2 ∧
      slotOf (varAccess g index).1 (varAccess g index).2 = slot := by
  obtain ⟨-, -, -, frame, -⟩ := main_entry_initialize_ok done
  obtain ⟨reach, same⟩ := frame.slot index slot here
  exact ⟨reach, same.symm⟩

/-- What an opcode on a variable emits. -/
theorem opcode_spells {index : Nat} {slot : Slot}
    (here : (frameOf f.param_data f.local_data)[index]? = some slot) {h h' : WasmFunction}
    {opType : LocalOp} {p : Nat} {code : Text} (laidOut : SameFrame g h)
    (read : h.codeAt (p + 1) = .ok code) (value : stoul code = .ok index)
    (emitted : commonLocalOp h p opType = .ok h') :
    Spells (textSince h h') (localBlock slot opType) := by
  obtain ⟨-, -, -, frame, -⟩ := main_entry_initialize_ok done
  obtain ⟨reach, isSlot⟩ := slot_of_access done here
  have known : index < h.param_data.length + h.local_data.length := by
    rw [laidOut.param_data, laidOut.local_data, ← frame.count]
    exact (List.getElem?_eq_some_iff.mp here).1
  have same : varAccess h index = varAccess g index := by
    rw [varAccess, varAccess, varOf, varOf, laidOut.vecToStack, laidOut.regTypeGetter,
      laidOut.param_data]
  have appends := commonLocalOp_appends opType read value known (by rwa [same]) emitted
  rw [same, isSlot] at appends
  exact appends.spells

variable (ints : ∀ v ∈ f.local_data, isFloat v = false)
include ints

/-- What is emitted for a variable touches exactly the variable's slot. -/
theorem touches_iff {index : Nat} {slot : Slot}
    (here : (frameOf f.param_data f.local_data)[index]? = some slot) (s : State) (a : BitVec 64)
    (n : Nat) :
    Touches f g index s a n ↔ a = slotAddr s.sp slot ∧ n = slot.width.bytes := by
  obtain ⟨reg, stored⟩ := initBlock_slot ints here
  constructor
  · rintro ⟨i, emitted, touched⟩
    cases emitted with
    | initialised lowered text first =>
      cases text.unique (spells_init done lowered)
      cases first.symm.trans stored
      rw [throughSp_storeVar] at touched
      cases touched
      exact ⟨rfl, rfl⟩
    | accessed laidOut read value emitted text inside =>
      cases text.unique (opcode_spells done here laidOut read value emitted)
      exact throughSp_localBlock inside touched
  · rintro ⟨rfl, rfl⟩
    obtain ⟨f₁, lowered, -⟩ := ok_of_bind done
    exact ⟨_, .initialised lowered (spells_init done lowered) stored, throughSp_storeVar reg slot s⟩

end

/-! ### Slots of integer variables -/

/-- The slot of an integer variable whose offset is `4 * u`: eight bytes begin at an even unit. -/
def unitSlot : Width → Nat → Slot
  | .w, u => ⟨.w, 4 * u⟩
  | .x, u => ⟨.x, 8 * (u / 2)⟩

@[simp] theorem unitSlot_width (width : Width) (u : Nat) : (unitSlot width u).width = width := by
  cases width <;> rfl

/-- The unit of a variable, with `n` params and `m` locals. -/
def unitOf (n m index : Nat) : Nat :=
  if index < n then n - index else n + m + 2 - (index - n)

theorem slotOf_unit {v : wasm_type} (int : isFloat v = false) {u : Nat} (small : u < 8192) :
    slotOf (varRegType v) (4 * (u : Int)) = unitSlot (widthOf (varRegType v)) u := by
  have scaled : scaledOffset (varRegType v) (4 * (u : Int)) = _ :=
    scaledOffset_eq (by omega) (by omega)
  rw [slotOf, scaled, show (4 * (u : Int)).toNat = 4 * u by omega]
  cases v with
  | i32 v =>
    change Slot.mk .w (4 * u / 4 * 4) = Slot.mk .w (4 * u)
    congr 1
    omega
  | i64 v =>
    change Slot.mk .x (4 * u / 8 * 8) = Slot.mk .x (8 * (u / 2))
    congr 1
    omega
  | f32 _ | f64 _ => cases int

theorem slots_unit {vs : List wasm_type} (ints : ∀ v ∈ vs, isFloat v = false) {u : Nat}
    (enough : vs.length ≤ u) (small : u < 8192) (k : Nat) :
    (slots (4 * (u : Int)) vs)[k]? =
      vs[k]?.map fun v => unitSlot (widthOf (varRegType v)) (u - k) := by
  induction vs generalizing u k with
  | nil => rfl
  | cons v vs ih =>
    obtain ⟨int, later⟩ := List.forall_mem_cons.mp ints
    rw [List.length_cons] at enough
    have size : slotSize v = 4 := by
      cases v with
      | i32 _ | i64 _ => rfl
      | f32 _ | f64 _ => cases int
    rw [slots, size, slotOf_unit int small,
      show 4 * (u : Int) - 4 = 4 * ((u - 1 : Nat) : Int) by omega]
    cases k with
    | zero => rfl
    | succ k =>
      rw [List.getElem?_cons_succ, ih later (by omega) (by omega),
        show u - 1 - k = u - (k + 1) by omega]
      rfl

theorem totalSize_ints {vs : List wasm_type} (ints : ∀ v ∈ vs, isFloat v = false) :
    totalSize vs = 4 * (vs.length : Int) := by
  induction vs with
  | nil => rfl
  | cons v vs ih =>
    obtain ⟨int, later⟩ := List.forall_mem_cons.mp ints
    have size : slotSize v = 4 := by
      cases v with
      | i32 _ | i64 _ => rfl
      | f32 _ | f64 _ => cases int
    rw [totalSize_cons, ih later, size, List.length_cons]
    omega

section
variable {params locals : List wasm_type} (paramInts : ∀ v ∈ params, isFloat v = false)
  (localInts : ∀ v ∈ locals, isFloat v = false)
include paramInts localInts

theorem localEnd_ints : localEnd params locals =
    4 * ((params.length + locals.length + 2 : Nat) : Int) := by
  rw [localEnd, totalSize_ints paramInts, totalSize_ints localInts]
  omega

/-- The units of a small frame. -/
theorem units_small (small : frameSize params locals ≤ 4080) :
    params.length + locals.length + 2 ≤ 1020 := by
  have fits := (frameSize_bounds params locals).1
  rw [localEnd_ints paramInts localInts] at fits
  omega

theorem frameOf_unit (small : frameSize params locals ≤ 4080) (index : Nat) :
    (frameOf params locals)[index]? = (params ++ locals)[index]?.map fun v =>
      unitSlot (widthOf (varRegType v)) (unitOf params.length locals.length index) := by
  have few := units_small paramInts localInts small
  have paramsEnd : paramEnd params = 4 * (params.length : Int) := totalSize_ints paramInts
  rw [frameOf, paramsEnd, localEnd_ints paramInts localInts]
  by_cases isParam : index < params.length
  · rw [List.getElem?_append_left (by rwa [slots_length]), List.getElem?_append_left isParam,
      slots_unit paramInts (Nat.le_refl _) (by omega), unitOf, if_pos isParam]
  · rw [List.getElem?_append_right (by rw [slots_length]; omega), slots_length,
      List.getElem?_append_right (by omega), slots_unit localInts (by omega) (by omega), unitOf,
      if_neg isParam]

end

end VariableAccesses
