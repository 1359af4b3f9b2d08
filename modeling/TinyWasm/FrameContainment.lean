import TinyWasm.BranchFixup
import TinyWasm.VariableAccesses

/-!
# Variables inside the frame

The frame is sized for offsets below the locals' end, and the first local is
given the locals' end itself. It is inside only through the rounding of the
size, so not when nothing is rounded.
-/

namespace FrameContainment

open HexText Wasm Emit ArmInstruction ByteMemory ArmMachine EncoderCorrectness
open CodeItems FrameSpec BodyFrame FrameEffects VariableAccesses

/-- The frame is a multiple of sixteen bytes, and every access to a param or a local stays in it:
it touches no byte at or above the stack pointer of the caller. -/
structure Contained (f g : WasmFunction) : Prop where
  aligned : g.stack_size % 16 = 0
  inside : ∀ index < f.param_data.length + f.local_data.length, ∀ s a n,
    Touches f g index s a n → Within a n s.sp g.stack_size.toNat

/-- The bytes of a unit's slot end at the unit or the one behind it. -/
theorem unitSlot_bounds (width : Width) (u : Nat) :
    (unitSlot width u).offset ≤ 4 * u ∧ 4 * u < (unitSlot width u).offset + width.bytes ∧
      (unitSlot width u).offset % width.bytes = 0 := by
  cases width with
  | w =>
    change 4 * u ≤ 4 * u ∧ 4 * u < 4 * u + 4 ∧ 4 * u % 4 = 0
    omega
  | x =>
    change 8 * (u / 2) ≤ 4 * u ∧ 4 * u < 8 * (u / 2) + 8 ∧ 8 * (u / 2) % 8 = 0
    omega

/-- Slots end in front of a multiple of sixteen that their unit is in front of. -/
theorem unitSlot_end {width : Width} {u : Nat} {size : Nat} (round : size % 16 = 0)
    (below : 4 * u < size) : (unitSlot width u).offset + width.bytes ≤ size := by
  obtain ⟨low, -, whole⟩ := unitSlot_bounds width u
  cases width with
  | w =>
    change (unitSlot .w u).offset % 4 = 0 at whole
    change (unitSlot .w u).offset + 4 ≤ size
    omega
  | x =>
    change (unitSlot .x u).offset % 8 = 0 at whole
    change (unitSlot .x u).offset + 8 ≤ size
    omega

section
variable {f g : WasmFunction} (done : WasmFunction.main_entry_initialize f = .ok g)
  (paramInts : ∀ v ∈ f.param_data, isFloat v = false)
  (localInts : ∀ v ∈ f.local_data, isFloat v = false)
include done paramInts localInts

/-- The variable with an index stays in the frame when its unit does. -/
theorem inside_iff {index : Nat} (known : index < f.param_data.length + f.local_data.length) :
    (∀ s a n, Touches f g index s a n → Within a n s.sp g.stack_size.toNat) ↔
      4 * unitOf f.param_data.length f.local_data.length index < g.stack_size.toNat := by
  obtain ⟨enters, -, small, -⟩ := main_entry_initialize_ok done
  obtain ⟨-, -, round⟩ := frameSize_bounds f.param_data f.local_data
  have positive := frameSize_nonneg f.param_data f.local_data
  have few := units_small paramInts localInts small
  have inside : index < (f.param_data ++ f.local_data).length := by rwa [List.length_append]
  have here := frameOf_unit paramInts localInts small index
  rw [List.getElem?_eq_getElem inside, Option.map_some] at here
  let u := unitOf f.param_data.length f.local_data.length index
  have unit : u ≤ f.param_data.length + f.local_data.length + 2 := by
    change unitOf _ _ _ ≤ _
    rw [unitOf]
    split <;> omega
  let width := widthOf (varRegType (f.param_data ++ f.local_data)[index])
  obtain ⟨low, high, -⟩ := unitSlot_bounds width u
  have bytes := bytes_le width
  have within : ∀ sp : BitVec 64, Within (slotAddr sp (unitSlot width u)) width.bytes sp
      g.stack_size.toNat ↔ (unitSlot width u).offset + width.bytes ≤ g.stack_size.toNat := by
    intro sp
    rw [enters.stack_size]
    exact within_offset_iff (by omega) (by omega) (by omega)
  constructor
  · intro inside
    have slot := inside ⟨fun _ => 0, 0, {}, fun _ => 0⟩ _ _
      ((touches_iff done localInts here _ _ _).mpr ⟨rfl, rfl⟩)
    rw [unitSlot_width, within] at slot
    omega
  · intro below s a n touched
    obtain ⟨rfl, rfl⟩ := (touches_iff done localInts here s a n).mp touched
    rw [unitSlot_width, within]
    refine unitSlot_end ?_ below
    rw [enters.stack_size]
    omega

/-- Every access stays in the frame unless there is a local and params, locals and the gap between
them fill the frame. -/
theorem contained_iff : Contained f g ↔ f.local_data = [] ∨
    (f.param_data.length + f.local_data.length + 2) % 4 ≠ 0 := by
  obtain ⟨enters, -, small, -⟩ := main_entry_initialize_ok done
  obtain ⟨fits, tight, round⟩ := frameSize_bounds f.param_data f.local_data
  have ends := localEnd_ints paramInts localInts
  rw [← enters.stack_size] at fits tight round
  rw [ends] at fits tight
  have count : f.local_data = [] ↔ f.local_data.length = 0 := List.length_eq_zero_iff.symm
  rw [count]
  constructor
  · intro contained
    by_contra full
    rw [not_or, not_not] at full
    have known : f.param_data.length < f.param_data.length + f.local_data.length := by omega
    have first := (inside_iff done paramInts localInts known).mp (contained.inside _ known)
    rw [unitOf, if_neg (by omega)] at first
    omega
  · intro free
    refine ⟨round, fun index known => (inside_iff done paramInts localInts known).mpr ?_⟩
    rw [unitOf]
    split <;> omega

end

/-- A function with these params and locals, and nothing else yet. -/
def declares (params locals : List wasm_type) : WasmFunction :=
  { param_data := params, local_data := locals }

/-- One param and one `i64` local. -/
theorem contained_one : ∃ g,
    WasmFunction.main_entry_initialize (declares [.i32 0] [.i64 0]) = .ok g ∧
      (Contained (declares [.i32 0] [.i64 0]) g ↔
        (declares [.i32 0] [.i64 0]).local_data = [] ∨
          ((declares [.i32 0] [.i64 0]).param_data.length +
            (declares [.i32 0] [.i64 0]).local_data.length + 2) % 4 ≠ 0) := by
  obtain ⟨g, done⟩ := BranchFixup.ok_of_isOk (show (WasmFunction.main_entry_initialize
    (declares [.i32 0] [.i64 0])).isOk = true by decide +kernel)
  exact ⟨g, done, contained_iff done (by decide) (by decide)⟩

/-- Two locals fill a frame of sixteen bytes, and the first is stored above it. -/
theorem first_local_above_frame : ∃ g,
    WasmFunction.main_entry_initialize (declares [] [.i32 0, .i32 0]) = .ok g ∧
      g.stack_size = 16 ∧
      (∀ s, Touches (declares [] [.i32 0, .i32 0]) g 0 s (s.sp + 16) 4) ∧
      ¬ Contained (declares [] [.i32 0, .i32 0]) g := by
  obtain ⟨g, done⟩ := BranchFixup.ok_of_isOk (show (WasmFunction.main_entry_initialize
    (declares [] [.i32 0, .i32 0])).isOk = true by decide +kernel)
  obtain ⟨enters, -⟩ := main_entry_initialize_ok done
  have size : g.stack_size = 16 := enters.stack_size
  have here : (frameOf [] [.i32 0, .i32 0])[0]? = some ⟨.w, 16⟩ := by decide
  have above : ∀ s, Touches (declares [] [.i32 0, .i32 0]) g 0 s (s.sp + 16) 4 := fun s =>
    (touches_iff done (by decide) here s _ _).mpr ⟨rfl, rfl⟩
  refine ⟨g, done, size, above, fun contained => ?_⟩
  have within := contained.inside 0 (by decide) ⟨fun _ => 0, 0, {}, fun _ => 0⟩ _ _ (above _)
  rw [size] at within
  have ends := (within_offset_iff (d := 16) (by decide) (by decide) (by decide)).mp within
  omega

end FrameContainment
