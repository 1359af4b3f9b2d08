import TinyWasm.BodyFrame
import TinyWasm.CodeLayout

/-!
# What laying out the frame does

The stack pointer moves down by the frame size, and every param and local is
written to its slot. A slot begins inside the frame and reaches at most one word
beyond it.
-/

namespace FrameEffects

open HexText Opcode Wasm ArmInstruction ByteMemory ArmMachine BlockEffects EncoderCorrectness
open CodeItems FrameSpec CodeLayout BodyFrame

/-! ### Slots -/

theorem two_pow_scale (regType : RegType) : 2 ^ scale regType = (widthOf regType).bytes := by
  cases regType <;> rfl

theorem bytes_le (width : Width) : width.bytes = 4 ∨ width.bytes = 8 := by
  cases width with
  | w => exact Or.inl rfl
  | x => exact Or.inr rfl

/-- An offset is rounded down to a multiple of the width. -/
theorem slotOf_bounds {regType : RegType} {offset : Int} (low : 0 ≤ offset)
    (high : offset < 32768) :
    (slotOf regType offset).offset ≤ offset ∧
      offset < (slotOf regType offset).offset + (slotOf regType offset).width.bytes := by
  have rounded : scaledOffset regType offset = _ := scaledOffset_eq low high
  rw [two_pow_scale] at rounded
  have division := Nat.div_add_mod' offset.toNat (widthOf regType).bytes
  have rest := Nat.mod_lt offset.toNat (show 0 < (widthOf regType).bytes by
    cases widthOf regType <;> decide)
  simp only [slotOf, rounded]
  omega

/-! ### The stores -/

/-- What a list of stores writes: the value of each register to its slot. -/
def storePuts (s : State) : Int → List Store → List (Put 64 64)
  | _, [] => []
  | offset, st :: rest =>
    ⟨slotAddr s.sp (slotOf st.regType offset), (widthOf st.regType).bytes,
      s.reg (widthOf st.regType) (BitVec.ofNat 5 st.reg)⟩ ::
      storePuts s (offset - slotSize st.value) rest

/-- The writes only look at registers and the stack pointer. -/
theorem storePuts_mem (s : State) (mem : Memory 64) (offset : Int) (stores : List Store) :
    storePuts { s with mem } offset stores = storePuts s offset stores := by
  induction stores generalizing offset with
  | nil => rfl
  | cons st rest ih => rw [storePuts, storePuts, ih]; rfl

theorem exec_stores (s : State) (offset : Int) (stores : List Store) :
    execAll (storesBlock offset stores) s =
      { s with mem := putAll s.mem (storePuts s offset stores) } := by
  induction stores generalizing offset s with
  | nil => rfl
  | cons st rest ih =>
    rw [storesBlock, execAll_cons, exec_storeVar, ih, storePuts_mem]
    rfl

/-- Stores whose offsets start at `offset` write at most up to eight bytes above it. -/
theorem storePuts_within {s : State} {offset : Int} {stores : List Store}
    (low : totalSize (stores.map Store.value) ≤ offset) (high : offset < 32768) :
    ∀ p ∈ storePuts s offset stores, ∃ d : Nat,
      p.address = s.sp + BitVec.ofNat 64 d ∧ (d : Int) ≤ offset ∧ p.bytes ≤ 8 := by
  induction stores generalizing offset with
  | nil => simp [storePuts]
  | cons st rest ih =>
    rw [List.map_cons, totalSize_cons] at low
    have size := slotSize_bounds st.value
    have positive := totalSize_nonneg (rest.map Store.value)
    intro p hp
    rcases List.mem_cons.mp hp with rfl | later
    · obtain ⟨below, -⟩ := @slotOf_bounds st.regType offset (by omega) high
      refine ⟨(slotOf st.regType offset).offset, rfl, below, ?_⟩
      rcases bytes_le (widthOf st.regType) with h | h <;> simp only [h] <;> omega
    · obtain ⟨d, place, below, bytes⟩ := ih (by omega) (by omega) p later
      exact ⟨d, place, by omega, bytes⟩

/-! ### The whole frame -/

/-- The frame size as it is subtracted. -/
def sizeBytes (params locals : List wasm_type) : BitVec 64 :=
  BitVec.ofInt 64 (frameSize params locals)

theorem frameSize_nonneg (params locals : List wasm_type) : 0 ≤ frameSize params locals := by
  have fits := (frameSize_bounds params locals).1
  have := totalSize_nonneg params
  have := totalSize_nonneg locals
  rw [localEnd] at fits
  omega

theorem frameImm {params locals : List wasm_type} (small : frameSize params locals ≤ 4080) :
    (BitVec.ofInt 12 (frameSize params locals)).setWidth 64 = sizeBytes params locals := by
  have := frameSize_nonneg params locals
  apply BitVec.eq_of_toNat_eq
  rw [BitVec.toNat_setWidth, sizeBytes, BitVec.toNat_ofInt, BitVec.toNat_ofInt]
  omega

/-- What the frame's block writes from a state with the lowered stack pointer. -/
def framePuts (params locals : List wasm_type) (s : State) : List (Put 64 64) :=
  storePuts s (paramEnd params) (paramStores 0 0 params) ++
    storePuts s (localEnd params locals) (localStores locals)

/-- The state with the stack pointer at the bottom of the frame. -/
def sunk (params locals : List wasm_type) (s : State) : State :=
  { s with sp := s.sp - sizeBytes params locals }

theorem exec_subSp {params locals : List wasm_type} (small : frameSize params locals ≤ 4080)
    (s : State) :
    exec (.addSubImm true false .x 31 31 (BitVec.ofInt 12 (frameSize params locals)) false) s =
      sunk params locals s := by
  change s.setRegSp .x 31 (addSub .x true s.sp
    ((BitVec.ofInt 12 (frameSize params locals)).setWidth 64 <<< 0)).1 = _
  rw [BitVec.shiftLeft_zero, frameImm small, addSub_x_sub]
  rfl

theorem exec_addSp {params locals : List wasm_type} (small : frameSize params locals ≤ 4080)
    (s : State) :
    exec (.addSubImm false false .x 31 31 (BitVec.ofInt 12 (frameSize params locals)) false) s =
      { s with sp := s.sp + sizeBytes params locals } := by
  change s.setRegSp .x 31 (addSub .x false s.sp
    ((BitVec.ofInt 12 (frameSize params locals)).setWidth 64 <<< 0)).1 = _
  rw [BitVec.shiftLeft_zero, frameImm small, addSub_x_add]
  rfl

theorem exec_frame {params locals : List wasm_type} (small : frameSize params locals ≤ 4080)
    (s : State) :
    execAll (frameBlock params locals) s =
      { sunk params locals s with
        mem := putAll s.mem (framePuts params locals (sunk params locals s)) } := by
  have second := fun mem =>
    storePuts_mem (sunk params locals s) mem (localEnd params locals) (localStores locals)
  rw [frameBlock, execAll_cons, exec_subSp small, execAll_append, exec_stores, exec_stores, second,
    framePuts, putAll_append]
  rfl

/-- The frame as a range of memory: from its bottom up to one word above it. -/
def frameReach (params locals : List wasm_type) : Nat := (frameSize params locals).toNat + 8

theorem framePuts_within {params locals : List wasm_type}
    (small : frameSize params locals ≤ 4080) (s : State) :
    ∀ p ∈ framePuts params locals s,
      Within p.address p.bytes s.sp (frameReach params locals) := by
  have fits := (frameSize_bounds params locals).1
  have ends : localEnd params locals = totalSize params + 8 + totalSize locals := rfl
  have := totalSize_nonneg params
  have := totalSize_nonneg locals
  have bound : ∀ p : Put 64 64, (∃ d : Nat, p.address = s.sp + BitVec.ofNat 64 d ∧
      (d : Int) ≤ localEnd params locals ∧ p.bytes ≤ 8) →
      Within p.address p.bytes s.sp (frameReach params locals) := by
    rintro p ⟨d, place, below, bytes⟩
    rw [place]
    have reach : frameReach params locals = (frameSize params locals).toNat + 8 := rfl
    exact within_of_offset (by omega) (by omega)
  intro p hp
  apply bound
  rcases List.mem_append.mp hp with hp | hp
  · obtain ⟨d, place, below, bytes⟩ := storePuts_within
      (by rw [paramStores_values]; exact Int.le_refl _) (by rw [paramEnd]; omega) p hp
    exact ⟨d, place, by rw [paramEnd] at below; omega, bytes⟩
  · exact storePuts_within (by rw [localStores_values]; omega) (by omega) p hp

/-- Slots handed out downwards from `offset` begin at or below it. -/
theorem slots_below {offset : Int} {vs : List wasm_type} (low : totalSize vs ≤ offset)
    (high : offset < 32768) : ∀ slot ∈ slots offset vs, (slot.offset : Int) ≤ offset := by
  induction vs generalizing offset with
  | nil => simp [slots]
  | cons v vs ih =>
    rw [totalSize_cons] at low
    have size := slotSize_bounds v
    have positive := totalSize_nonneg vs
    intro slot hs
    rcases List.mem_cons.mp hs with rfl | later
    · exact (slotOf_bounds (by omega) high).1
    · have := ih (by omega) (by omega) slot later
      omega

/-- An access to a variable reaches at most one word beyond the frame. -/
theorem slot_within {params locals : List wasm_type} (small : frameSize params locals ≤ 4080)
    (sp : BitVec 64) : ∀ slot ∈ frameOf params locals,
      Within (slotAddr sp slot) slot.width.bytes sp (frameReach params locals) := by
  have fits := (frameSize_bounds params locals).1
  have ends : localEnd params locals = totalSize params + 8 + totalSize locals := rfl
  have := totalSize_nonneg params
  have := totalSize_nonneg locals
  intro slot hs
  have below : (slot.offset : Int) ≤ localEnd params locals := by
    rcases List.mem_append.mp hs with hs | hs
    · have h : (slot.offset : Int) ≤ totalSize params :=
        slots_below (Int.le_refl _) (by omega) slot hs
      omega
    · exact slots_below (by omega) (by omega) slot hs
  have reach : frameReach params locals = (frameSize params locals).toNat + 8 := rfl
  refine within_of_offset ?_ (by omega)
  rcases bytes_le slot.width with h | h <;> rw [h] <;> omega

end FrameEffects
