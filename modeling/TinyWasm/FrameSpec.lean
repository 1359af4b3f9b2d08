import TinyWasm.EmissionSpec

/-!
# The frame of the variables

`initParam` and `initLocal` run the same loop over a list of stores. When it
completes, every store was within reach of its encoder, and from that the frame
is small: offsets that descend by at most eight bytes cannot jump over the
offsets that are negative as an `int16_t`.
-/

namespace FrameSpec

open BitFields HexText Opcode Wasm Emit ArmInstruction EncoderCorrectness LabelledCode
open SourceBody CodeItems EmissionSpec

/-! ### What a completed encoder call says -/

theorem setField_ok {opcode r : Arm64Opcode} {val : Int} {offset len : Nat}
    (h : opcode.setField val offset len = .ok r) : val ≤ 2 ^ len - 1 := by
  rw [Arm64Opcode.setField] at h
  by_contra large
  rw [if_pos (by omega)] at h
  cases h

theorem encodeAddSubImm_ok {regType : RegType} {isSub : Bool} {rd rn : BitVec 8}
    {imm : BitVec 16} {text : Text} (h : encodeAddSubImm regType isSub rd rn imm = .ok text) :
    imm.toNat < 4096 := by
  obtain ⟨_, -, h⟩ := ok_of_bind h
  obtain ⟨_, -, h⟩ := ok_of_bind h
  obtain ⟨_, -, h⟩ := ok_of_bind h
  obtain ⟨_, -, h⟩ := ok_of_bind h
  obtain ⟨_, -, h⟩ := ok_of_bind h
  obtain ⟨_, written, -⟩ := ok_of_bind h
  have := setField_ok written
  omega

theorem encodeLoadStoreImm_ok {regType : RegType} {ldstType : LdStType} {rt rn : BitVec 8}
    {imm : BitVec 16} {text : Text}
    (h : encodeLoadStoreImm regType ldstType rt rn imm = .ok text) :
    rt.toNat < 32 ∧ (imm.sshiftRight (scale regType)).toNat < 4096 := by
  obtain ⟨_, -, h⟩ := ok_of_bind h
  obtain ⟨_, -, h⟩ := ok_of_bind h
  obtain ⟨_, -, h⟩ := ok_of_bind h
  obtain ⟨_, -, h⟩ := ok_of_bind h
  obtain ⟨_, -, h⟩ := ok_of_bind h
  obtain ⟨_, offset, h⟩ := ok_of_bind h
  obtain ⟨_, register, -⟩ := ok_of_bind h
  have small := setField_ok offset
  have known := setField_ok register
  refine ⟨by omega, ?_⟩
  change (((imm.sshiftRight (scale regType)).toNat : Nat) : Int) ≤ 2 ^ 12 - 1 at small
  omega

theorem emit_ok {f g : WasmFunction} {call : Except CppError Text} (h : f.emit call = .ok g) :
    ∃ text, call = .ok text ∧ g = f.constructFullinstr text := by
  cases call with
  | error e => exact nomatch h
  | ok text => exact ⟨text, rfl, (Except.ok.inj h).symm⟩

/-- An emission that completes and whose encoder yields the block emits the block. -/
theorem extends_of_emits {f g : WasmFunction} {xs : List CodeItem}
    {call : Except CppError WasmFunction} (h : Emits call f xs) (done : call = .ok g) :
    Extends f xs g ∧ g.if_label = f.if_label ∧ g.control_flow_stack = f.control_flow_stack := by
  obtain ⟨g', rfl, rest⟩ := h
  cases done
  exact rest

/-! ### Offsets within reach -/

theorem scaledOffset_eq {regType : RegType} {offset : Int} (low : 0 ≤ offset)
    (high : offset < 32768) : scaledOffset regType offset = offset.toNat / 2 ^ scale regType := by
  have value : (BitVec.ofInt 16 offset).toNat = offset.toNat := by
    rw [BitVec.toNat_ofInt]
    omega
  have positive : (BitVec.ofInt 16 offset).msb = false := by
    rw [BitVec.msb_eq_false_iff_two_mul_lt, value]
    omega
  rw [scaledOffset, BitVec.sshiftRight_eq_of_msb_false positive, BitVec.toNat_ushiftRight, value,
    Nat.shiftRight_eq_div_pow]

theorem reachable_of_small {regType : RegType} {offset : Int} (low : 0 ≤ offset)
    (high : offset < 16384) : Reachable regType offset := by
  rw [Reachable, scaledOffset_eq low (by omega)]
  apply (Nat.div_lt_iff_lt_mul (Nat.two_pow_pos _)).mpr
  have : 4 ≤ 2 ^ scale regType := by cases regType <;> decide
  omega

/-- An offset in the negative half of an `int16_t` is not within reach. -/
theorem not_reachable {regType : RegType} {offset : Int} (low : 32768 ≤ offset)
    (high : offset < 65536) : ¬ Reachable regType offset := by
  have value : (BitVec.ofInt 16 offset).toNat = offset.toNat := by
    rw [BitVec.toNat_ofInt]
    omega
  have negative : (BitVec.ofInt 16 offset).msb = true := by
    rw [BitVec.msb_eq_true_iff_two_mul_ge, value]
    omega
  have stays : ((BitVec.ofInt 16 offset).sshiftRight (scale regType)).msb = true := by
    rw [BitVec.msb_sshiftRight, negative]
  rw [BitVec.msb_eq_true_iff_two_mul_ge] at stays
  rw [Reachable, scaledOffset]
  omega

theorem slotSize_bounds (v : wasm_type) : 4 ≤ slotSize v ∧ slotSize v ≤ 8 := by
  cases v <;> simp [slotSize]

@[simp] theorem totalSize_cons (v : wasm_type) (vs : List wasm_type) :
    totalSize (v :: vs) = slotSize v + totalSize vs := rfl

@[simp] theorem totalSize_nil : totalSize [] = 0 := rfl

theorem totalSize_append (vs ws : List wasm_type) :
    totalSize (vs ++ ws) = totalSize vs + totalSize ws := by
  simp [totalSize]

theorem totalSize_nonneg (vs : List wasm_type) : 0 ≤ totalSize vs := by
  induction vs with
  | nil => simp
  | cons v vs ih =>
    have := slotSize_bounds v
    rw [totalSize_cons]
    omega

/-! ### The loop of stores -/

/-- The loop `initParam` and `initLocal` share. -/
def storeAll (f : WasmFunction) (category : TypeCategory) :
    Int → Nat → List Store → Except CppError WasmFunction
  | _, _, [] => .ok f
  | offset, i, st :: rest => do
    let f ← (f.setVar category i offset (varRegType st.value)).emit
      (encodeLoadStoreImm st.regType .str (BitVec.ofNat 8 st.reg) 31 (BitVec.ofInt 16 offset))
    storeAll f category (offset - slotSize st.value) (i + 1) rest

theorem storeParams_eq (f : WasmFunction) (offset : Int) (fp gp i : Nat) (vs : List wasm_type) :
    f.storeParams offset fp gp i vs = storeAll f .PARAM offset i (paramStores fp gp vs) := by
  induction vs generalizing f offset fp gp i with
  | nil => rfl
  | cons v vs ih =>
    cases v <;> exact congrArg _ (funext fun g => ih g _ _ _ _)

theorem storeLocals_eq (f : WasmFunction) (offset : Int) (i : Nat) (vs : List wasm_type) :
    f.storeLocals offset i vs = storeAll f .LOCAL offset i (localStores vs) := by
  induction vs generalizing f offset i with
  | nil => rfl
  | cons v vs ih =>
    cases v <;> exact congrArg _ (funext fun g => ih g _ _)

/-- Every store names a register and is within reach. -/
def Stored : Int → List Store → Prop
  | _, [] => True
  | offset, st :: rest => (BitVec.ofNat 8 st.reg).toNat < 32 ∧ Reachable st.regType offset ∧
      Stored (offset - slotSize st.value) rest

/-- From `f` to `g` the items are emitted, and only the text and the maps of the
variables are touched. -/
structure Lays (f : WasmFunction) (xs : List CodeItem) (g : WasmFunction) : Prop where
  code : ∀ items, Represents f items → Represents g (items ++ xs)
  rest : g = { f with
    wasm_instructions := g.wasm_instructions
    vecToStack := g.vecToStack
    regTypeGetter := g.regTypeGetter }

theorem Lays.trans {f g h : WasmFunction} {xs ys : List CodeItem} (first : Lays f xs g)
    (second : Lays g ys h) : Lays f (xs ++ ys) h := by
  refine ⟨fun items hi => ?_, ?_⟩
  · rw [← List.append_assoc]
    exact second.code _ (first.code _ hi)
  · obtain ⟨-, hg⟩ := first
    obtain ⟨-, hh⟩ := second
    rw [hg] at hh
    exact hh

/-- One store of the loop. -/
theorem lays_store {f g : WasmFunction} {category : TypeCategory} {i : Nat} {offset : Int}
    {st : Store}
    (done : (f.setVar category i offset (varRegType st.value)).emit
      (encodeLoadStoreImm st.regType .str (BitVec.ofNat 8 st.reg) 31
        (BitVec.ofInt 16 offset)) = .ok g) :
    (BitVec.ofNat 8 st.reg).toNat < 32 ∧ Reachable st.regType offset ∧
      Lays f (CodeItems.ins [storeVar (BitVec.ofNat 5 st.reg) (slotOf st.regType offset)]) g ∧
      g.vecToStack = (f.setVar category i offset (varRegType st.value)).vecToStack ∧
      g.regTypeGetter = (f.setVar category i offset (varRegType st.value)).regTypeGetter := by
  obtain ⟨text, call, rfl⟩ := emit_ok done
  obtain ⟨register, reach⟩ := encodeLoadStoreImm_ok call
  have yields := variableAccess_yields .str register reach
  rw [BitVec.setWidth_ofNat_of_le (by decide)] at yields
  obtain ⟨step, -, -⟩ := extends_of_emits (emits_emit (yieldsAll_of_yields yields)) done
  exact ⟨register, reach, ⟨fun items hi => step.code items ⟨hi.words, hi.jumps, hi.labels⟩, rfl⟩,
    rfl, rfl⟩

theorem storeAll_lays {f g : WasmFunction} {category : TypeCategory} {offset : Int} {i : Nat}
    {stores : List Store} (done : storeAll f category offset i stores = .ok g) :
    Stored offset stores ∧ Lays f (CodeItems.ins (storesBlock offset stores)) g := by
  induction stores generalizing f offset i with
  | nil =>
    cases done
    exact ⟨trivial, fun items hi => by rwa [storesBlock, CodeItems.ins, List.map_nil,
      List.append_nil], rfl⟩
  | cons st rest ih =>
    obtain ⟨g₁, turn, done⟩ := ok_of_bind done
    obtain ⟨register, reach, step, -, -⟩ := lays_store turn
    obtain ⟨stored, later⟩ := ih done
    exact ⟨⟨register, reach, stored⟩, step.trans later⟩

/-- What the maps say of the variables of one category from index `i` on. -/
def Maps (f : WasmFunction) (category : TypeCategory) : Int → Nat → List wasm_type → Prop
  | _, _, [] => True
  | offset, i, v :: vs => f.vecToStack category i = offset ∧
      f.regTypeGetter category i = varRegType v ∧
      Maps f category (offset - slotSize v) (i + 1) vs

/-- Entries of the maps that the loop from index `i` on does not touch. -/
def Keeps (f g : WasmFunction) (category : TypeCategory) (i : Nat) : Prop :=
  ∀ c j, c ≠ category ∨ j < i → g.vecToStack c j = f.vecToStack c j ∧
    g.regTypeGetter c j = f.regTypeGetter c j

theorem storeAll_maps {f g : WasmFunction} {category : TypeCategory} {offset : Int} {i : Nat}
    {stores : List Store} (done : storeAll f category offset i stores = .ok g) :
    Maps g category offset i (stores.map Store.value) ∧ Keeps f g category i := by
  induction stores generalizing f offset i with
  | nil =>
    cases done
    exact ⟨trivial, fun c j _ => ⟨rfl, rfl⟩⟩
  | cons st rest ih =>
    obtain ⟨g₁, turn, done⟩ := ok_of_bind done
    obtain ⟨-, -, -, offsets, types⟩ := lays_store turn
    obtain ⟨maps, keeps⟩ := ih done
    obtain ⟨offset_i, type_i⟩ := keeps category i (Or.inr (Nat.lt_succ_self i))
    refine ⟨⟨?_, ?_, maps⟩, fun c j other => ?_⟩
    · rw [offset_i, offsets]
      simp [WasmFunction.setVar]
    · rw [type_i, types]
      simp [WasmFunction.setVar]
    · have apart : ¬ (c = category ∧ j = i) := by
        rintro ⟨rfl, rfl⟩
        rcases other with other | other
        · exact other rfl
        · exact Nat.lt_irrefl _ other
      obtain ⟨offset_j, type_j⟩ := keeps c j (other.imp id Nat.lt_succ_of_lt)
      rw [offset_j, type_j, offsets, types]
      simp [WasmFunction.setVar, apart]

theorem Maps.transfer {f g : WasmFunction} {category : TypeCategory} {offset : Int} {i : Nat}
    {vs : List wasm_type} (h : Maps f category offset i vs)
    (same : ∀ j, g.vecToStack category j = f.vecToStack category j ∧
      g.regTypeGetter category j = f.regTypeGetter category j) : Maps g category offset i vs := by
  induction vs generalizing offset i with
  | nil => trivial
  | cons v vs ih => exact ⟨(same i).1.trans h.1, (same i).2.trans h.2.1, ih h.2.2⟩

theorem paramStores_values (fp gp : Nat) (vs : List wasm_type) :
    (paramStores fp gp vs).map Store.value = vs := by
  induction vs generalizing fp gp with
  | nil => rfl
  | cons v vs ih => rw [paramStores, List.map_cons, ih]

theorem localStores_values (vs : List wasm_type) : (localStores vs).map Store.value = vs := by
  rw [localStores, List.map_map]
  exact List.map_id vs

/-! ### The frame is small -/

/-- There are thirty-two registers of either kind for the params. -/
theorem totalSize_params {fp gp : Nat} (hf : fp ≤ 32) (hg : gp ≤ 32) {offset : Int}
    {vs : List wasm_type} (h : Stored offset (paramStores fp gp vs)) :
    totalSize vs ≤ 8 * (32 - fp) + 4 * (32 - gp) := by
  induction vs generalizing fp gp offset with
  | nil =>
    rw [totalSize_nil]
    omega
  | cons v vs ih =>
    obtain ⟨register, -, rest⟩ := h
    by_cases float : isFloat v
    · simp only [float, if_pos] at register rest
      rw [BitVec.toNat_ofNat] at register
      have := ih (by omega) hg rest
      have := slotSize_bounds v
      rw [totalSize_cons]
      omega
    · simp only [float, if_neg, Bool.false_eq_true, not_false_eq_true] at register rest
      rw [BitVec.toNat_ofNat] at register
      have := ih hf (by omega) rest
      have small : slotSize v = 4 := by
        cases v with
        | i32 _ | i64 _ => rfl
        | f32 _ | f64 _ => exact absurd rfl float
      rw [totalSize_cons]
      omega

/-- Stores within reach that end below the negative offsets start below them. -/
theorem offset_of_stored {offset : Int} {vs : List wasm_type}
    (h : Stored offset (localStores vs)) (low : offset - totalSize vs < 32768) :
    offset < 32768 := by
  induction vs generalizing offset with
  | nil => simpa using low
  | cons v vs ih =>
    obtain ⟨-, reach, rest⟩ : _ ∧ _ ∧ Stored (offset - slotSize v) (localStores vs) := h
    rw [totalSize_cons] at low
    have below := ih rest (by omega)
    have := slotSize_bounds v
    by_contra large
    exact not_reachable (by omega) (by omega) reach

theorem frameSize_bounds (params locals : List wasm_type) :
    localEnd params locals ≤ frameSize params locals ∧
      frameSize params locals < localEnd params locals + 16 ∧
      frameSize params locals % 16 = 0 := by
  have := totalSize_nonneg params
  have := totalSize_nonneg locals
  have positive : 0 ≤ localEnd params locals := by
    rw [localEnd]
    omega
  rw [frameSize, Int.tmod_eq_emod_of_nonneg positive, Int.tdiv_eq_ediv_of_nonneg positive]
  split <;> omega

/-- The frame of a completed initialisation is within the reach of a 12-bit immediate. -/
theorem frameSize_le {params locals : List wasm_type}
    (hparams : Stored (paramEnd params) (paramStores 0 0 params))
    (hlocals : Stored (localEnd params locals) (localStores locals))
    (sized : (BitVec.ofInt 16 (frameSize params locals)).toNat < 4096) :
    frameSize params locals ≤ 4080 := by
  have few := totalSize_params (Nat.zero_le 32) (Nat.zero_le 32) hparams
  have ends : localEnd params locals = totalSize params + 8 + totalSize locals := rfl
  have below := offset_of_stored hlocals (by omega)
  obtain ⟨low, high, round⟩ := frameSize_bounds params locals
  have := totalSize_nonneg params
  have := totalSize_nonneg locals
  rw [BitVec.toNat_ofInt] at sized
  omega

/-- The variables the maps describe have the slots of the frame. -/
theorem slot_of_maps {f : WasmFunction} {category : TypeCategory} {offset : Int} {i : Nat}
    {vs : List wasm_type} (h : Maps f category offset i vs) (low : totalSize vs ≤ offset)
    (high : offset < 16384) {k : Nat} {s : Slot} (hs : (slots offset vs)[k]? = some s) :
    Reachable (f.regTypeGetter category (i + k)) (f.vecToStack category (i + k)) ∧
      s = slotOf (f.regTypeGetter category (i + k)) (f.vecToStack category (i + k)) := by
  induction vs generalizing offset i k with
  | nil => simp [slots] at hs
  | cons v vs ih =>
    have := slotSize_bounds v
    have := totalSize_nonneg vs
    rw [totalSize_cons] at low
    cases k with
    | zero =>
      rw [Nat.add_zero, h.1, h.2.1]
      exact ⟨reachable_of_small (by omega) high, (Option.some.inj hs).symm⟩
    | succ k =>
      have later := ih h.2.2 (by omega) (by omega) hs
      rwa [Nat.add_assoc, Nat.add_comm 1 k] at later

theorem slots_length (offset : Int) (vs : List wasm_type) :
    (slots offset vs).length = vs.length := by
  induction vs generalizing offset with
  | nil => rfl
  | cons v vs ih => rw [slots, List.length_cons, ih, List.length_cons]

theorem frameOf_length (params locals : List wasm_type) :
    (frameOf params locals).length = params.length + locals.length := by
  rw [frameOf, List.length_append, slots_length, slots_length]

theorem hasFrame_of_maps {f : WasmFunction}
    (hparams : Maps f .PARAM (paramEnd f.param_data) 0 f.param_data)
    (hlocals : Maps f .LOCAL (localEnd f.param_data f.local_data) 0 f.local_data)
    (small : frameSize f.param_data f.local_data ≤ 4080) :
    HasFrame f (frameOf f.param_data f.local_data) := by
  have ends : localEnd f.param_data f.local_data =
      totalSize f.param_data + 8 + totalSize f.local_data := rfl
  have fits := (frameSize_bounds f.param_data f.local_data).1
  have := totalSize_nonneg f.param_data
  have := totalSize_nonneg f.local_data
  refine ⟨by rw [frameOf, List.length_append, slots_length, slots_length],
    fun index s hs => ?_⟩
  by_cases isParam : index < f.param_data.length
  · rw [frameOf, List.getElem?_append_left (by rwa [slots_length])] at hs
    have slot := slot_of_maps hparams (Int.le_refl _) (by rw [paramEnd]; omega) hs
    rw [Nat.zero_add] at slot
    rwa [varOf, if_pos isParam]
  · rw [frameOf, List.getElem?_append_right (by rw [slots_length]; omega), slots_length] at hs
    have slot := slot_of_maps hlocals (by omega) (by omega) hs
    rw [Nat.zero_add] at slot
    rwa [varOf, if_neg isParam]

/-! ### The entry of the function -/

theorem foldl_allocateVar (vs : List wasm_type) (start : Int) :
    vs.foldl (fun location c => WasmFunction.allocateVar c location) start =
      start + totalSize vs := by
  induction vs generalizing start with
  | nil => simp
  | cons v vs ih =>
    rw [List.foldl_cons, ih, totalSize_cons]
    cases v <;> simp [WasmFunction.allocateVar, slotSize] <;> omega

theorem getStackPreallocateSize_eq (f : WasmFunction) :
    f.getStackPreallocateSize = { f with
      stack_size := frameSize f.param_data f.local_data
      param_stack_start_location := 0
      param_stack_end_location := paramEnd f.param_data
      local_stack_start_location := paramEnd f.param_data + 8
      local_stack_end_location := localEnd f.param_data f.local_data } := by
  rw [WasmFunction.getStackPreallocateSize]
  simp only [foldl_allocateVar, Int.zero_add]
  rfl

/-- From `f` to `g` the entry is emitted; the frame is laid out and nothing else changes. -/
structure Enters (f : WasmFunction) (xs : List CodeItem) (g : WasmFunction) : Prop where
  code : ∀ items, Represents f items → Represents g (items ++ xs)
  stack_size : g.stack_size = frameSize f.param_data f.local_data
  if_label : g.if_label = f.if_label
  control_flow_stack : g.control_flow_stack = f.control_flow_stack
  code_vec : g.code_vec = f.code_vec
  param_data : g.param_data = f.param_data
  local_data : g.local_data = f.local_data
  result_data : g.result_data = f.result_data
  pre : g.pre_instructions_for_param_loading = f.pre_instructions_for_param_loading

theorem addSubSp_yields (isSub : Bool) {size : Int}
    (small : (BitVec.ofInt 16 size).toNat < 4096) :
    Yields (encodeAddSubImm .xReg isSub 31 31 (BitVec.ofInt 16 size))
      (.addSubImm isSub false .x 31 31 (BitVec.ofInt 12 size) false) := by
  have h := encodeAddSubImm_yields .xReg isSub false false (isReg 31) (isReg 31) small
    (show (0 : BitVec 8).toNat < 2 by decide)
  rwa [setWidth_ofInt size (by decide)] at h

/-- A completed initialisation lays out a small frame, whose variables the opcodes reach. -/
theorem main_entry_initialize_ok {f g : WasmFunction}
    (done : WasmFunction.main_entry_initialize f = .ok g) :
    Enters f (frameItems f.param_data f.local_data) g ∧
      Stored (paramEnd f.param_data) (paramStores 0 0 f.param_data) ∧
      frameSize f.param_data f.local_data ≤ 4080 ∧
      HasFrame g (frameOf f.param_data f.local_data) ∧
      Maps g .PARAM (paramEnd f.param_data) 0 f.param_data ∧
      Maps g .LOCAL (localEnd f.param_data f.local_data) 0 f.local_data := by
  obtain ⟨f₁, prepared, done⟩ := ok_of_bind done
  obtain ⟨f₂, params, locals⟩ := ok_of_bind done
  rw [getStackPreallocateSize_eq, WasmFunction.prepareSp] at prepared
  obtain ⟨text, call, rfl⟩ := emit_ok prepared
  have sized := encodeAddSubImm_ok call
  obtain ⟨step, -, -⟩ :=
    extends_of_emits (emits_emit (yieldsAll_of_yields (addSubSp_yields true sized))) prepared
  rw [WasmFunction.initParam, storeParams_eq] at params
  obtain ⟨storedParams, laysParams⟩ := storeAll_lays params
  obtain ⟨mapsParams, -⟩ := storeAll_maps params
  have rest₂ := laysParams.rest
  have ends : f₂.local_stack_end_location = localEnd f.param_data f.local_data := by
    rw [rest₂]
    rfl
  have localData : f₂.local_data = f.local_data := by
    rw [rest₂]
    rfl
  rw [WasmFunction.initLocal, storeLocals_eq, ends, localData] at locals
  obtain ⟨storedLocals, laysLocals⟩ := storeAll_lays locals
  obtain ⟨mapsLocals, keeps⟩ := storeAll_maps locals
  have small := frameSize_le storedParams storedLocals sized
  have rest := laysLocals.rest
  rw [rest₂] at rest
  rw [paramStores_values] at mapsParams
  rw [localStores_values] at mapsLocals
  have sameParams : g.param_data = f.param_data := by rw [rest]; rfl
  have sameLocals : g.local_data = f.local_data := by rw [rest]; rfl
  have mapsParams := mapsParams.transfer fun j => keeps .PARAM j (Or.inl (by decide))
  have frame := hasFrame_of_maps (f := g) (by rw [sameParams]; exact mapsParams)
    (by rw [sameParams, sameLocals]; exact mapsLocals)
    (by rw [sameParams, sameLocals]; exact small)
  rw [sameParams, sameLocals] at frame
  refine ⟨⟨fun items hi => ?_, by rw [rest]; rfl, by rw [rest]; rfl, by rw [rest]; rfl,
    by rw [rest]; rfl, sameParams, sameLocals, by rw [rest]; rfl, by rw [rest]; rfl⟩, storedParams,
    small, frame, mapsParams, mapsLocals⟩
  have entered := laysLocals.code _ (laysParams.code _ (step.code items
    ⟨hi.words, hi.jumps, hi.labels⟩))
  rw [List.append_assoc, List.append_assoc] at entered
  rw [frameItems, ← List.singleton_append, ins_append, ins_append]
  exact entered

end FrameSpec
