import TinyWasm.BranchFixup
import TinyWasm.BodySimulation
import TinyWasm.VariableAccesses

/-!
# Variables that share bytes

Every variable is given four bytes, and an eight-byte access takes the aligned
word its unit is in. Two variables share bytes when one of them is an `i64` and
the other has the second unit of its word. Without such a pair each variable
keeps what it was last given.
-/

namespace VariableAliasing

open HexText Wasm Emit ArmInstruction ByteMemory ArmMachine BlockEffects EncoderCorrectness
open SourceBody CodeItems EmissionSpec FrameSpec StructuredRun BodyFrame FrameEffects OperandStack
open BodySimulation BranchFixup VariableAccesses

/-! ### Slots that meet -/

/-- The slots of two variables are apart. -/
def SlotsApart (a b : Slot) : Prop :=
  a.offset + a.width.bytes ≤ b.offset ∨ b.offset + b.width.bytes ≤ a.offset

theorem unitSlots_apart_iff {width width' : Width} {u v : Nat} (distinct : u ≠ v) :
    SlotsApart (unitSlot width u) (unitSlot width' v) ↔
      u / 2 ≠ v / 2 ∨ width = .w ∧ width' = .w := by
  cases width with
  | w =>
    cases width' with
    | w =>
      change 4 * u + 4 ≤ 4 * v ∨ 4 * v + 4 ≤ 4 * u ↔ _
      simp only [and_self, or_true, iff_true]
      omega
    | x =>
      change 4 * u + 4 ≤ 8 * (v / 2) ∨ 8 * (v / 2) + 8 ≤ 4 * u ↔ _
      simp only [reduceCtorEq, and_false, or_false]
      omega
  | x =>
    cases width' with
    | w =>
      change 8 * (u / 2) + 8 ≤ 4 * v ∨ 4 * v + 4 ≤ 8 * (u / 2) ↔ _
      simp only [reduceCtorEq, false_and, or_false]
      omega
    | x =>
      change 8 * (u / 2) + 8 ≤ 8 * (v / 2) ∨ 8 * (v / 2) + 8 ≤ 8 * (u / 2) ↔ _
      simp only [reduceCtorEq, and_self, or_false]
      omega

/-- Two units of one aligned word belong to variables only when both of these are of four bytes. -/
def Unshared (params locals : List wasm_type) : Prop :=
  ∀ (i j : Nat) (v w : wasm_type), i ≠ j → (params ++ locals)[i]? = some v →
    (params ++ locals)[j]? = some w →
    unitOf params.length locals.length i / 2 = unitOf params.length locals.length j / 2 →
    widthOf (varRegType v) = .w ∧ widthOf (varRegType w) = .w

theorem unitOf_inj {n m i j : Nat} (hi : i < n + m) (hj : j < n + m) (distinct : i ≠ j) :
    unitOf n m i ≠ unitOf n m j := by
  rw [unitOf, unitOf]
  split <;> split <;> omega

section
variable {params locals : List wasm_type} (paramInts : ∀ v ∈ params, isFloat v = false)
  (localInts : ∀ v ∈ locals, isFloat v = false) (small : frameSize params locals ≤ 4080)
include paramInts localInts small

theorem frameOf_bound : ∀ slot ∈ frameOf params locals, slot.offset + slot.width.bytes ≤ 5000 := by
  intro slot inside
  obtain ⟨index, here⟩ := List.getElem?_of_mem inside
  rw [frameOf_unit paramInts localInts small] at here
  obtain ⟨v, found, rfl⟩ := Option.map_eq_some_iff.mp here
  have few := units_small paramInts localInts small
  have known := (List.getElem?_eq_some_iff.mp found).1
  rw [List.length_append] at known
  have unit : unitOf params.length locals.length index ≤ params.length + locals.length + 2 := by
    rw [unitOf]
    split <;> omega
  cases widthOf (varRegType v) with
  | w =>
    change 4 * unitOf params.length locals.length index + 4 ≤ 5000
    omega
  | x =>
    change 8 * (unitOf params.length locals.length index / 2) + 8 ≤ 5000
    omega

/-- The slots are apart exactly when no word is shared. -/
theorem apart_iff : (∀ (i j : Nat) (a b : Slot), i ≠ j → (frameOf params locals)[i]? = some a →
      (frameOf params locals)[j]? = some b → SlotsApart a b) ↔ Unshared params locals := by
  have units := frameOf_unit paramInts localInts small
  constructor
  · intro apart i j v w distinct hi hj same
    have known := (List.getElem?_eq_some_iff.mp hi).1
    have known' := (List.getElem?_eq_some_iff.mp hj).1
    rw [List.length_append] at known known'
    have slots := apart i j _ _ distinct (by rw [units, hi]; rfl) (by rw [units, hj]; rfl)
    rcases (unitSlots_apart_iff (unitOf_inj known known' distinct)).mp slots with other | narrow
    · exact absurd same other
    · exact narrow
  · intro unshared i j a b distinct hi hj
    rw [units] at hi hj
    obtain ⟨v, here, rfl⟩ := Option.map_eq_some_iff.mp hi
    obtain ⟨w, there, rfl⟩ := Option.map_eq_some_iff.mp hj
    have known := (List.getElem?_eq_some_iff.mp here).1
    have known' := (List.getElem?_eq_some_iff.mp there).1
    rw [List.length_append] at known known'
    apply (unitSlots_apart_iff (unitOf_inj known known' distinct)).mpr
    by_cases same : unitOf params.length locals.length i / 2 =
        unitOf params.length locals.length j / 2
    · exact Or.inr (unshared i j v w distinct here there same)
    · exact Or.inl same

theorem slotAddr_apart_iff {a b : Slot} (ha : a ∈ frameOf params locals)
    (hb : b ∈ frameOf params locals) (sp : BitVec 64) :
    Apart (slotAddr sp a) a.width.bytes (slotAddr sp b) b.width.bytes ↔ SlotsApart a b := by
  have first := frameOf_bound paramInts localInts small a ha
  have second := frameOf_bound paramInts localInts small b hb
  exact apart_offset_iff ⟨(bytes_small a.width).1, (bytes_small b.width).1⟩ (by omega)

/-- Slots of a frame without a shared word are apart in memory. -/
theorem vars_apart (unshared : Unshared params locals) (sp : BitVec 64) :
    (frameOf params locals).Pairwise fun a b =>
      Apart (slotAddr sp a) a.width.bytes (slotAddr sp b) b.width.bytes := by
  rw [List.pairwise_iff_getElem]
  intro i j hi hj less
  refine (slotAddr_apart_iff paramInts localInts small (List.getElem_mem hi) (List.getElem_mem hj)
    sp).mpr ?_
  exact (apart_iff paramInts localInts small).mpr unshared i j _ _ (by omega)
    (List.getElem?_eq_getElem hi) (List.getElem?_eq_getElem hj)

end

/-! ### The initial values -/

/-- What storing a register to a slot writes. -/
def slotPut (s : State) (r : Reg) (slot : Slot) : Put 64 64 :=
  ⟨slotAddr s.sp slot, slot.width.bytes, s.reg slot.width r⟩

theorem exec_zip (regs : List Reg) (frame : Frame) (s : State) :
    execAll (List.zipWith storeVar regs frame) s =
      { s with mem := putAll s.mem (List.zipWith (slotPut s) regs frame) } := by
  induction regs generalizing frame s with
  | nil => rfl
  | cons r regs ih =>
    cases frame with
    | nil => rfl
    | cons slot frame =>
      have same : slotPut (exec (storeVar r slot) s) = slotPut s := by
        rw [exec_storeVar]
        rfl
      rw [List.zipWith_cons_cons, execAll_cons, ih, same, exec_storeVar, List.zipWith_cons_cons]
      rfl

theorem zip_apart {s : State} {regs : List Reg} {frame : Frame}
    (apart : frame.Pairwise fun a b =>
      Apart (slotAddr s.sp a) a.width.bytes (slotAddr s.sp b) b.width.bytes) :
    (List.zipWith (slotPut s) regs frame).Pairwise fun p q =>
      Apart p.address p.bytes q.address q.bytes := by
  rw [List.pairwise_iff_getElem] at apart ⊢
  intro i j hi hj less
  rw [List.length_zipWith] at hi hj
  rw [List.getElem_zipWith, List.getElem_zipWith]
  exact apart i j (by omega) (by omega) less

/-- Behind the stores of the initialisation each variable has what its register had. -/
theorem init_value {params locals : List wasm_type} (ints : ∀ v ∈ locals, isFloat v = false)
    {s : State} (apart : (frameOf params locals).Pairwise fun a b =>
      Apart (slotAddr s.sp a) a.width.bytes (slotAddr s.sp b) b.width.bytes)
    {index : Nat} {slot : Slot} {r : Reg} (here : (frameOf params locals)[index]? = some slot)
    (stored : (initRegs params locals)[index]? = some r) :
    valueOf (execAll (initBlock params locals) s) slot = (s.reg slot.width r).setWidth _ := by
  have small := bytes_small slot.width
  have inside : slotPut s r slot ∈
      List.zipWith (slotPut s) (initRegs params locals) (frameOf params locals) := by
    apply List.mem_of_getElem? (i := index)
    rw [List.getElem?_zipWith, here, stored]
  obtain ⟨mem, same⟩ := putAll_mem s.mem (zip_apart apart) inside
  rw [initBlock_zip ints, exec_zip]
  have fits : (slotPut s r slot).bytes ≤ 2 ^ 64 := small.2.trans (by decide)
  exact (read_congr fits same).trans (read_written _ _ (Nat.le_refl _) _)

/-- The registers of integer params, from register `k` on. -/
theorem paramStores_regs {vs : List wasm_type} (ints : ∀ v ∈ vs, isFloat v = false) (fp k : Nat) :
    (paramStores fp k vs).map (fun st => BitVec.ofNat 5 st.reg) =
      (List.range' k vs.length).map (BitVec.ofNat 5) := by
  induction vs generalizing k with
  | nil => rfl
  | cons v vs ih =>
    obtain ⟨int, later⟩ := List.forall_mem_cons.mp ints
    rw [paramStores, if_neg (by simp [int]), if_neg (by simp [int]), if_neg (by simp [int]),
      List.map_cons, ih later, List.length_cons, List.range'_succ, List.map_cons]

theorem initRegs_param {params locals : List wasm_type} (ints : ∀ v ∈ params, isFloat v = false)
    {index : Nat} (isParam : index < params.length) :
    (initRegs params locals)[index]? = some (BitVec.ofNat 5 index) := by
  rw [initRegs, List.map_append, paramStores_regs ints,
    List.getElem?_append_left (by simpa using isParam), List.getElem?_map,
    List.getElem?_range' isParam]
  simp

theorem initRegs_local {params locals : List wasm_type} {index : Nat}
    (isLocal : params.length ≤ index) (known : index < params.length + locals.length) :
    (initRegs params locals)[index]? = some 31 := by
  have inside : index - params.length < locals.length := by omega
  rw [initRegs, List.map_append, List.getElem?_append_right (by simpa [paramStores_length]),
    List.length_map, paramStores_length, localStores, List.map_map, List.getElem?_map,
    List.getElem?_eq_getElem inside]
  rfl

/-! ### What the variables are given -/

/-- Executing the text leads from `s` to `t`. -/
def Performs (text : Text) (s t : State) : Prop := ∃ block, Spells text block ∧ t = execAll block s

/-- Executing what an opcode on a variable emits leads from `s` to `t`. -/
def Accesses (g : WasmFunction) (opType : LocalOp) (index : Nat) (s t : State) : Prop :=
  ∃ h h' p code, SameFrame g h ∧ h.codeAt (p + 1) = .ok code ∧ stoul code = .ok index ∧
    commonLocalOp h p opType = .ok h' ∧ Performs (textSince h h') s t

/-- The value on top of the operand stack, read at the variable's width. -/
def onTop (g : WasmFunction) (index : Nat) (s : State) : BitVec 64 :=
  (operand s (widthOf (varAccess g index).1) 0).setWidth 64

/-- What the variables have been given behind an opcode that is executed from `s`. -/
def givenBehind (g : WasmFunction) (opType : LocalOp) (index : Nat) (s : State)
    (given : Nat → BitVec 64) : Nat → BitVec 64 :=
  if opType = .get then given else Function.update given index (onTop g index s)

/-- Along the opcodes, every `local.get` puts on the stack what its variable was given last. -/
def ReadsLast (g : WasmFunction) : List (LocalOp × Nat) → (Nat → BitVec 64) → State → Prop
  | [], _, _ => True
  | (opType, index) :: rest, given, s => ∀ t, Accesses g opType index s t →
      (opType = .get → onTop g index t = given index) ∧
        ReadsLast g rest (givenBehind g opType index s given) t

/-- From height `k` on, the opcodes find the operands they take and have room for those they put
there, with `n` slots in all. -/
def Fits (n : Nat) : List (LocalOp × Nat) → Nat → Prop
  | [], _ => True
  | (.get, _) :: rest, k => k < n ∧ Fits n rest (k + 1)
  | (.set, _) :: rest, k => 0 < k ∧ Fits n rest (k - 1)
  | (.tee, _) :: rest, k => 0 < k ∧ Fits n rest k

/-- The arguments in the registers, and zero for the locals. -/
def initial (f g : WasmFunction) (s : State) (index : Nat) : BitVec 64 :=
  if index < f.param_data.length then s.reg (widthOf (varAccess g index).1) (BitVec.ofNat 5 index)
  else 0

/-- Different variables have no byte in common, so a `local.get` yields what its variable was given
last: the value of the last `local.set` or `local.tee` of it, or its argument, or zero. -/
structure Separate (f g : WasmFunction) : Prop where
  apart : ∀ i < f.param_data.length + f.local_data.length,
    ∀ j < f.param_data.length + f.local_data.length, i ≠ j → ∀ s a n b m,
      Touches f g i s a n → Touches f g j s b m → Apart a n b m
  last : ∀ f₁ s t n k ops, f.getStackPreallocateSize.prepareSp = .ok f₁ →
    Performs (textSince f₁ g) s t → s.x 21 = depth (k : Nat) → 8 * n ≤ 2 ^ 64 →
    (∀ i < f.param_data.length + f.local_data.length, ∀ a m, Touches f g i t a m →
      Apart a m (t.x 20) (8 * n)) →
    (∀ op ∈ ops, op.2 < f.param_data.length + f.local_data.length) → Fits n ops k →
    ReadsLast g ops (initial f g s) t

/-! ### One opcode -/

/-- The slots of the frame have the values given. -/
def HasGiven (frame : Frame) (given : Nat → BitVec 64) (s : State) : Prop :=
  ∀ (index : Nat) (slot : Slot), frame[index]? = some slot →
    (valueOf s slot).setWidth 64 = given index

/-- The slots of the frame are apart from each other. -/
def FrameApart (frame : Frame) (sp : BitVec 64) : Prop :=
  frame.Pairwise fun a b => Apart (slotAddr sp a) a.width.bytes (slotAddr sp b) b.width.bytes

theorem HasGiven.assigned {frame : Frame} {given : Nat → BitVec 64} {t : State}
    (h : HasGiven frame given t) (apart : FrameApart frame t.sp) {index : Nat} {slot : Slot}
    (here : frame[index]? = some slot) (v : Value slot.width) :
    HasGiven frame (Function.update given index (v.setWidth 64)) (assigned t slot v) := by
  have spread : Spread frame 0 t.sp 0 := ⟨apart, fun _ _ _ none => absurd none (Nat.not_lt_zero _)⟩
  intro other slot' there
  by_cases same : other = index
  · subst same
    cases here.symm.trans there
    rw [Function.update_self, valueOf_assigned]
  · rw [Function.update_of_ne same,
      valueOf_assigned_of_apart v (spread.apart here there (Ne.symm same))]
    exact h other slot' there

section
variable {frame : Frame} {given : Nat → BitVec 64} {s : State} {index : Nat} {slot : Slot}
  (has : HasGiven frame given s) (here : frame[index]? = some slot)
include has here

theorem get_reads {k n : Nat} (pointer : s.x 21 = depth (k : Nat)) (room : k < n)
    (clear : ∀ other ∈ frame, ∀ k : Nat, k < n →
      Apart (slotAddr s.sp other) other.width.bytes (s.x 20 + depth k) 8) :
    let t := execAll (localBlock slot .get) s
    (operand t slot.width 0).setWidth 64 = given index ∧ HasGiven frame given t ∧
      t.x 20 = s.x 20 ∧ t.sp = s.sp ∧ t.x 21 = depth ((k + 1 : Nat) : Int) := by
  have loads : execAll [loadVar 11 slot] s =
      { s with x := Function.update s.x 11 ((valueOf s slot).setWidth 64) } := by
    rw [execAll_cons, execAll_nil, exec_loadVar (by decide), load_eq]
    rfl
  have replaces : Replaces 0 slot.width (valueOf s slot) s (execAll (localBlock slot .get) s) :=
    load_replaces loads
  have unmoved : s.x 21 - BitVec.ofNat 64 (8 * 0) = s.x 21 := BitVec.sub_zero _
  refine ⟨?_, fun other slot' there => ?_, replaces.stack, replaces.sp, ?_⟩
  · rw [replaces.value]
    exact has index slot here
  · rw [replaces.valueOf_eq]
    · exact has other slot' there
    · have place : top s - BitVec.ofNat 64 (8 * 0) = s.x 20 + depth k := by
        rw [← pointer]
        exact BitVec.sub_zero _
      rw [place]
      exact clear slot' (List.mem_of_getElem? there) k room
  · rw [replaces.pointer, unmoved, pointer, Nat.cast_succ, depth_add]
    rfl

theorem set_assigns (apart : FrameApart frame s.sp) {k : Nat} (some : 0 < k)
    (pointer : s.x 21 = depth (k : Nat)) :
    let t := execAll (localBlock slot .set) s
    HasGiven frame (Function.update given index ((operand s slot.width 0).setWidth 64)) t ∧
      t.x 20 = s.x 20 ∧ t.sp = s.sp ∧ t.x 21 = depth ((k - 1 : Nat) : Int) := by
  obtain ⟨stack, lower⟩ := popped_regs s slot.width (show (11 : Reg) ≠ 20 by decide)
    (show (11 : Reg) ≠ 21 by decide)
  have runs : execAll (localBlock slot .set) s =
      assigned (popped s slot.width 11) slot (operand s slot.width 0) := by
    simp only [localBlock]
    rw [execAll_append, exec_pop _ (by decide), execAll_cons, execAll_nil,
      exec_assign (popped_value s slot.width 11)]
  have kept : HasGiven frame given (popped s slot.width 11) := has
  rw [runs]
  refine ⟨kept.assigned apart here _, stack, rfl, ?_⟩
  have count : depth (k : Nat) - BitVec.ofNat 64 (8 * 1) = depth ((k - 1 : Nat) : Int) :=
    depth_lower some
  exact lower.trans ((congrArg (· - 8) pointer).trans count)

theorem tee_assigns (apart : FrameApart frame s.sp) :
    let t := execAll (localBlock slot .tee) s
    HasGiven frame (Function.update given index ((operand s slot.width 0).setWidth 64)) t ∧
      t.x 20 = s.x 20 ∧ t.sp = s.sp ∧ t.x 21 = s.x 21 := by
  have value : (peeked s slot.width 11).x 11 = (operand s slot.width 0).setWidth 64 := by
    rw [← popped_value s slot.width 11]
    rfl
  have runs : execAll (localBlock slot .tee) s =
      assigned (peeked s slot.width 11) slot (operand s slot.width 0) := by
    simp only [localBlock]
    rw [execAll_append, exec_peek _ (by decide) (by decide), execAll_cons, execAll_nil,
      exec_assign value]
  have kept : HasGiven frame given (peeked s slot.width 11) := has
  rw [runs]
  exact ⟨kept.assigned apart here _, rfl, rfl, rfl⟩

end

/-! ### Any sequence of opcodes -/

section
variable {f g : WasmFunction} (done : WasmFunction.main_entry_initialize f = .ok g)
include done

theorem onTop_eq {index : Nat} {slot : Slot}
    (here : (frameOf f.param_data f.local_data)[index]? = some slot) (s : State) :
    onTop g index s = (operand s slot.width 0).setWidth 64 := by
  obtain ⟨-, rfl⟩ := slot_of_access done here
  rfl

theorem accesses_eq {index : Nat} {slot : Slot} {opType : LocalOp}
    (here : (frameOf f.param_data f.local_data)[index]? = some slot) {s t : State}
    (runs : Accesses g opType index s t) : t = execAll (localBlock slot opType) s := by
  obtain ⟨h, h', p, code, laidOut, read, value, emitted, block, text, rfl⟩ := runs
  rw [text.unique (opcode_spells done here laidOut read value emitted)]

/-- By induction on the sequence: each opcode keeps the values of the other variables. -/
theorem readsLast_of_given {ops : List (LocalOp × Nat)} {given : Nat → BitVec 64} {s : State}
    {k n : Nat} (has : HasGiven (frameOf f.param_data f.local_data) given s)
    (apart : FrameApart (frameOf f.param_data f.local_data) s.sp)
    (pointer : s.x 21 = depth (k : Nat))
    (clear : ∀ other ∈ frameOf f.param_data f.local_data, ∀ k : Nat, k < n →
      Apart (slotAddr s.sp other) other.width.bytes (s.x 20 + depth k) 8)
    (known : ∀ op ∈ ops, op.2 < f.param_data.length + f.local_data.length) (fits : Fits n ops k) :
    ReadsLast g ops given s := by
  induction ops generalizing given s k with
  | nil => trivial
  | cons op ops ih =>
    obtain ⟨opType, index⟩ := op
    obtain ⟨inside, later⟩ := List.forall_mem_cons.mp known
    have here := List.getElem?_eq_getElem (l := frameOf f.param_data f.local_data) (i := index)
      (by rwa [frameOf_length])
    intro t runs
    rw [accesses_eq done here runs]
    cases opType with
    | get =>
      obtain ⟨room, rest⟩ := fits
      obtain ⟨reads, kept, stack, sp, lifted⟩ := get_reads has here pointer room clear
      refine ⟨fun _ => (onTop_eq done here _).trans reads, ?_⟩
      exact ih kept (by rwa [sp]) lifted (by rwa [sp, stack]) later rest
    | set =>
      obtain ⟨some, rest⟩ := fits
      obtain ⟨kept, stack, sp, lowered⟩ := set_assigns has here apart some pointer
      refine ⟨fun isGet => absurd isGet (by decide), ?_⟩
      rw [givenBehind, if_neg (by decide), onTop_eq done here]
      exact ih kept (by rwa [sp]) lowered (by rwa [sp, stack]) later rest
    | tee =>
      obtain ⟨-, rest⟩ := fits
      obtain ⟨kept, stack, sp, same⟩ := tee_assigns has here apart
      refine ⟨fun isGet => absurd isGet (by decide), ?_⟩
      rw [givenBehind, if_neg (by decide), onTop_eq done here]
      exact ih kept (by rwa [sp]) (same.trans pointer) (by rwa [sp, stack]) later rest

variable (paramInts : ∀ v ∈ f.param_data, isFloat v = false)
  (localInts : ∀ v ∈ f.local_data, isFloat v = false) (few : f.param_data.length ≤ 8)
include paramInts localInts few

/-- Behind the initialisation the variables have the arguments and zeros. -/
theorem initial_given {s : State}
    (apart : FrameApart (frameOf f.param_data f.local_data) s.sp) :
    HasGiven (frameOf f.param_data f.local_data) (initial f g s)
      (execAll (initBlock f.param_data f.local_data) s) := by
  intro index slot here
  have known := (List.getElem?_eq_some_iff.mp here).1
  rw [frameOf_length] at known
  obtain ⟨-, isSlot⟩ := slot_of_access done here
  have width : widthOf (varAccess g index).1 = slot.width := congrArg Slot.width isSlot
  rw [initial, width]
  by_cases isParam : index < f.param_data.length
  · rw [if_pos isParam, init_value localInts apart here (initRegs_param paramInts isParam)]
    have general : BitVec.ofNat 5 index ≠ 31 := by
      intro same
      have number := congrArg BitVec.toNat same
      rw [BitVec.toNat_ofNat] at number
      change index % 2 ^ 5 = 31 at number
      omega
    rw [reg_of_ne general]
    cases slot.width with
    | w => exact congrArg (BitVec.setWidth 64) (narrow_widen _)
    | x => exact whole _
  · rw [if_neg isParam, init_value localInts apart here
      (initRegs_local (Nat.le_of_not_lt isParam) known), State.reg, if_pos rfl]
    simp

/-- Variables are separate exactly when none of them shares an aligned word with an `i64`. -/
theorem separate_iff : Separate f g ↔ Unshared f.param_data f.local_data := by
  obtain ⟨-, -, small, -⟩ := main_entry_initialize_ok done
  have touches : ∀ {index : Nat} {slot : Slot} (_ : (frameOf f.param_data f.local_data)[index]? =
      some slot) (s : State) (a : BitVec 64) (n : Nat), Touches f g index s a n ↔ _ :=
    touches_iff done localInts
  constructor
  · intro separate
    refine (apart_iff paramInts localInts small).mp fun i j a b distinct hi hj => ?_
    have known := (List.getElem?_eq_some_iff.mp hi).1
    have known' := (List.getElem?_eq_some_iff.mp hj).1
    rw [frameOf_length] at known known'
    have apart := separate.apart i known j known' distinct ⟨fun _ => 0, 0, {}, fun _ => 0⟩ _ _ _ _
      ((touches hi _ _ _).mpr ⟨rfl, rfl⟩) ((touches hj _ _ _).mpr ⟨rfl, rfl⟩)
    exact (slotAddr_apart_iff paramInts localInts small (List.mem_of_getElem? hi)
      (List.mem_of_getElem? hj) _).mp apart
  · intro unshared
    have slots := (apart_iff paramInts localInts small).mpr unshared
    refine ⟨fun i hi j hj distinct s a n b m first second => ?_, ?_⟩
    · have here := List.getElem?_eq_getElem (l := frameOf f.param_data f.local_data) (i := i)
        (by rwa [frameOf_length])
      have there := List.getElem?_eq_getElem (l := frameOf f.param_data f.local_data) (i := j)
        (by rwa [frameOf_length])
      obtain ⟨rfl, rfl⟩ := (touches here _ _ _).mp first
      obtain ⟨rfl, rfl⟩ := (touches there _ _ _).mp second
      exact (slotAddr_apart_iff paramInts localInts small (List.mem_of_getElem? here)
        (List.mem_of_getElem? there) _).mpr (slots i j _ _ distinct here there)
    · intro f₁ s t k n ops lowered performs pointer fits clear known balanced
      obtain ⟨block, text, rfl⟩ := performs
      cases text.unique (spells_init done lowered)
      have stores := exec_zip (initRegs f.param_data f.local_data)
        (frameOf f.param_data f.local_data) s
      rw [← initBlock_zip localInts] at stores
      have sp : (execAll (initBlock f.param_data f.local_data) s).sp = s.sp := by rw [stores]
      have stack : (execAll (initBlock f.param_data f.local_data) s).x = s.x := by rw [stores]
      have apart : FrameApart (frameOf f.param_data f.local_data) s.sp :=
        vars_apart paramInts localInts small unshared s.sp
      refine readsLast_of_given done (initial_given done paramInts localInts few apart)
        (by rwa [sp]) (by rwa [stack]) ?_ known balanced
      intro slot inside k' room
      obtain ⟨index, here⟩ := List.getElem?_of_mem inside
      have place := (List.getElem?_eq_some_iff.mp here).1
      rw [frameOf_length] at place
      have region := clear index place _ _ ((touches here _ _ _).mpr ⟨rfl, rfl⟩)
      refine region.mono (within_refl _ _) ?_
      have offset : depth (k' : Nat) = BitVec.ofNat 64 (8 * k') := by
        rw [depth, ← BitVec.ofInt_natCast]
        rfl
      rw [offset]
      exact within_of_offset (by omega) fits

end

/-- A function with these params, and nothing else yet. -/
def takes (params : List wasm_type) : WasmFunction := { param_data := params }

/-- An `i32` and an `i64` param. -/
theorem separate_two : ∃ g, WasmFunction.main_entry_initialize (takes [.i32 0, .i64 0]) = .ok g ∧
    (Separate (takes [.i32 0, .i64 0]) g ↔ Unshared [.i32 0, .i64 0] []) := by
  obtain ⟨g, done⟩ := BranchFixup.ok_of_isOk (show (WasmFunction.main_entry_initialize
    (takes [.i32 0, .i64 0])).isOk = true by decide +kernel)
  exact ⟨g, done, separate_iff done (by decide) (by decide) (by decide)⟩

/-- Of three `i64` params the first two have the same eight bytes. -/
theorem params_share_bytes : ∃ g,
    WasmFunction.main_entry_initialize (takes [.i64 0, .i64 0, .i64 0]) = .ok g ∧
      (∀ s, Touches (takes [.i64 0, .i64 0, .i64 0]) g 0 s (s.sp + 8) 8 ∧
        Touches (takes [.i64 0, .i64 0, .i64 0]) g 1 s (s.sp + 8) 8) ∧
      ¬ Separate (takes [.i64 0, .i64 0, .i64 0]) g := by
  obtain ⟨g, done⟩ := BranchFixup.ok_of_isOk (show (WasmFunction.main_entry_initialize
    (takes [.i64 0, .i64 0, .i64 0])).isOk = true by decide +kernel)
  have here : (frameOf [.i64 0, .i64 0, .i64 0] [])[0]? = some ⟨.x, 8⟩ := by decide
  have there : (frameOf [.i64 0, .i64 0, .i64 0] [])[1]? = some ⟨.x, 8⟩ := by decide
  have first : ∀ s, Touches (takes [.i64 0, .i64 0, .i64 0]) g 0 s (s.sp + 8) 8 := fun s =>
    (touches_iff done (by decide) here s _ _).mpr ⟨rfl, rfl⟩
  have second : ∀ s, Touches (takes [.i64 0, .i64 0, .i64 0]) g 1 s (s.sp + 8) 8 := fun s =>
    (touches_iff done (by decide) there s _ _).mpr ⟨rfl, rfl⟩
  refine ⟨g, done, fun s => ⟨first s, second s⟩, fun separate => ?_⟩
  let s : State := ⟨fun _ => 0, 0, {}, fun _ => 0⟩
  have apart :=
    separate.apart 0 (by decide) 1 (by decide) (by decide) s _ _ _ _ (first s) (second s)
  have inside : Inside (s.sp + 8) 8 (s.sp + 8) := by
    rw [Inside, BitVec.sub_self]
    decide
  exact apart _ inside inside

end VariableAliasing
