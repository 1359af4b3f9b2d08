import TinyWasm.BodyFrame

/-!
# Accesses through the operand-stack pointer

The loads and stores at `x20 + x21`, and the slots they stay in. A block that
takes entries from the operand stack stays above its bottom exactly when the
entries are there; the bottom is the only end a body can reach, as it pushes at
most one entry for each of its bytes.
-/

namespace StackAccesses

open ArmInstruction ByteMemory ArmMachine BlockEffects LabelledCode SourceBody Emit CodeItems
open StructuredRun BodyFrame

/-- The bytes an instruction touches through `x20 + x21`: their first, and their number. -/
def throughStack : Instr → State → Option (BitVec 64 × Nat)
  | .ldrStrReg _ width _ rn rm extend scaled, s =>
    let amount := if scaled then (if width = .x then 3 else 2) else 0
    if rn = 20 ∧ rm = 21 then
      some (s.regSp .x rn + extendValue extend (s.reg .x rm) <<< amount, width.bytes)
    else none
  | _, _ => none

/-- Bytes of the 2048 `int`s of `wasm_stack`. -/
def stackBytes : Nat := 8192

/-- What the instruction touches through `x20 + x21` is in the `wasm_stack` at `stack`. -/
def InAllocation (stack : BitVec 64) (i : Instr) (s : State) : Prop :=
  ∀ a n, throughStack i s = some (a, n) → Within a n stack stackBytes

/-- The step from a configuration stays in the `wasm_stack`. -/
def StaysIn (code : List Word) (base stack : BitVec 64) (c : Config) : Prop :=
  ∀ i, fetch code base c.pc = some i → InAllocation stack i c.state

/-- Every instruction of a block stays in the `wasm_stack`, when the block is executed from `s`. -/
def AllIn (stack : BitVec 64) : List Instr → State → Prop
  | [], _ => True
  | i :: block, s => InAllocation stack i s ∧ AllIn stack block (exec i s)

/-- The instruction does not address through two registers. -/
def silent : Instr → Bool
  | .ldrStrReg _ _ _ _ _ _ _ => false
  | _ => true

theorem inAllocation_silent {stack : BitVec 64} {i : Instr} (h : silent i = true) (s : State) :
    InAllocation stack i s := by
  intro a n touched
  cases i with
  | ldrStrReg => exact nomatch h
  | ldpStp | ldrStrImm | addSubImm | addSubShift | orrShift | movWide | csel | madd | div | b
  | bCond | br | ret | adr | nop => exact nomatch touched

theorem allIn_append {stack : BitVec 64} {first second : List Instr} {s : State} :
    AllIn stack (first ++ second) s ↔
      AllIn stack first s ∧ AllIn stack second (execAll first s) := by
  induction first generalizing s with
  | nil => exact (and_iff_right trivial).symm
  | cons i first ih =>
    rw [List.cons_append, AllIn, ih, AllIn, and_assoc]
    rfl

theorem allIn_silent {stack : BitVec 64} {block : List Instr}
    (h : ∀ i ∈ block, silent i = true) (s : State) : AllIn stack block s := by
  induction block generalizing s with
  | nil => trivial
  | cons i block ih =>
    exact ⟨inAllocation_silent (h i (by simp)) s,
      ih (fun j hj => h j (List.mem_cons_of_mem _ hj)) (exec i s)⟩

section
variable {code : List Word} {instrs : List Instr} (loaded : Loaded code instrs)
  (base stack : BitVec 64)
include loaded

theorem staysIn_at {p : Nat} {i : Instr} (here : instrs[p]? = some i) (s : State) :
    StaysIn code base stack ⟨addr base p, s⟩ ↔ InAllocation stack i s := by
  have fetched := fetch_addr loaded.decoded base here loaded.short
  constructor
  · intro h
    exact h i fetched
  · intro h j hj
    rw [show (Config.mk (addr base p) s).pc = addr base p from rfl, fetched] at hj
    cases hj
    exact h

theorem staysIn_silent {p : Nat} {i : Instr} (here : instrs[p]? = some i) (h : silent i = true)
    (s : State) : StaysIn code base stack ⟨addr base p, s⟩ :=
  (staysIn_at loaded base stack here s).mpr (inAllocation_silent h s)

/-- The steps through a block stay in the `wasm_stack` when its instructions do. -/
theorem staysIn_block {p : Nat} {block : List Instr} (stands : Stands instrs p block) (s : State) :
    (∀ c ∈ blockTrace base p block s, StaysIn code base stack c) ↔ AllIn stack block s := by
  induction block generalizing p s with
  | nil => exact iff_of_true (fun c hc => absurd hc List.not_mem_nil) trivial
  | cons i block ih =>
    have first := staysIn_at loaded base stack (show instrs[p]? = some i from stands 0 i rfl) s
    rw [blockTrace, List.forall_mem_cons, ih stands.tail, AllIn, first]

theorem staysIn_branch {p : Nat} {block : List Instr} (stands : Stands instrs p block)
    {i : Instr} (here : instrs[p + block.length]? = some i) (h : silent i = true) (s : State) :
    (∀ c ∈ branchTrace base p block s, StaysIn code base stack c) ↔ AllIn stack block s := by
  rw [branchTrace, List.forall_mem_append, staysIn_block loaded base stack stands,
    List.forall_mem_singleton]
  exact and_iff_left (staysIn_silent loaded base stack here h _)

end

/-! ### Slots -/

theorem depth_toNat {k : Int} (low : 0 ≤ k) (high : k < 2 ^ 60) :
    depth k = BitVec.ofNat 64 (8 * k.toNat) := by
  rw [depth, ← BitVec.ofInt_natCast]
  congr 1
  omega

/-- The slots of the `wasm_stack` are the first 1024 from its bottom up. -/
theorem slot_inside_iff (stack : BitVec 64) {k : Int} (low : -2 ^ 60 < k) (high : k < 2 ^ 60)
    (width : Width) : Within (stack + depth k) width.bytes stack stackBytes ↔ 0 ≤ k ∧ k < 1024 := by
  have bytes : 0 < width.bytes ∧ width.bytes ≤ 8 := by cases width <;> decide
  constructor
  · intro h
    have first : Inside (stack + depth k) width.bytes (stack + depth k) := by
      rw [Inside, BitVec.sub_self]
      exact bytes.1
    have place := h _ first
    rw [Inside, BitVec.add_comm, BitVec.add_sub_cancel, depth, BitVec.toNat_ofInt,
      stackBytes] at place
    omega
  · rintro ⟨bottom, top⟩
    rw [depth_toNat bottom high]
    exact within_of_offset (by rw [stackBytes]; omega) (by decide)

/-- The operand stack has at least `n` entries. -/
def Enough (n : Nat) (s : State) : Prop := (8 * n : Int) ≤ (s.x 21).toInt

instance (n : Nat) (s : State) : Decidable (Enough n s) := inferInstanceAs (Decidable (_ ≤ _))

theorem enough_iff {s : State} {h : Int} (pointer : s.x 21 = depth h) (low : -2 ^ 59 < h)
    (high : h < 2 ^ 59) (n : Nat) : Enough n s ↔ (n : Int) ≤ h := by
  have value : (depth h).toInt = 8 * h := by
    rw [depth, BitVec.toInt_ofInt, Int.bmod_eq_of_le (by omega) (by omega)]
  rw [Enough, pointer, value]
  omega

/-! ### Blocks -/

/-- The block stays in the `wasm_stack` exactly when there are `n` entries to begin with. -/
def Needs (n : Int) (block : List Instr) : Prop :=
  ∀ s h, s.x 21 = depth h → 0 ≤ h → h ≤ 1000 → (AllIn (s.x 20) block s ↔ n ≤ h)

theorem Needs.count {n m : Int} {block : List Instr} (h : Needs n block) (same : n = m) :
    Needs m block := same ▸ h

theorem needs_silent {block : List Instr} (h : ∀ i ∈ block, silent i = true) : Needs 0 block :=
  fun s _ _ low _ => iff_of_true (allIn_silent h s) low

/-- A block that leaves at most as many entries as it finds, and one behind it. -/
theorem Needs.append {n m d : Int} {first second : List Instr} (needs : Needs n first)
    (moves : Moves d first) (uses : Uses workRegs first) (low : -d ≤ n) (down : d ≤ 0)
    (later : Needs m second) : Needs (max n (m - d)) (first ++ second) := by
  intro s h pointer nonneg high
  have moved := moves s
  rw [pointer, ← depth_add] at moved
  have kept := (keeps_of_uses uses s).x 20 (by decide)
  rw [allIn_append, needs s h pointer nonneg high]
  by_cases enough : n ≤ h
  · have behind := later (execAll first s) (h + d) moved (by omega) (by omega)
    rw [kept] at behind
    rw [behind]
    omega
  · exact iff_of_false (fun both => enough both.1) (by omega)

theorem inAllocation_slot (load : Bool) (width : Width) (r : Reg) {s : State} {h : Int}
    (pointer : s.x 21 = depth h) (low : -2 ^ 60 < h) (high : h < 2 ^ 60) :
    InAllocation (s.x 20) (.ldrStrReg load width r 20 21 .lsl false) s ↔ 0 ≤ h ∧ h < 1024 := by
  have address : throughStack (.ldrStrReg load width r 20 21 .lsl false) s =
      some (s.x 20 + depth h, width.bytes) := by
    rw [← pointer]
    exact congrArg (fun a => some (a, width.bytes)) (slot_address s)
  rw [← slot_inside_iff (s.x 20) low high width]
  constructor
  · exact fun inside => inside _ _ address
  · intro inside a n touched
    rw [address] at touched
    cases touched
    exact inside

theorem needs_push (width : Width) (r : Reg) : Needs 0 (pushBlock width r) := by
  intro s h pointer low high
  have here := inAllocation_slot false width r pointer (by omega) (by omega)
  refine Iff.trans (and_iff_left (allIn_silent (by simp [silent]) _)) (here.trans ?_)
  omega

theorem needs_pop (width : Width) (r : Reg) : Needs 1 (popBlock width r) := by
  intro s h pointer low high
  let t := exec (.addSubImm true false .x 21 21 8 false) s
  have kept : t.x 20 = s.x 20 := exec_x (by simp [writes]) s
  have lowered : t.x 21 = depth (h - 1) := by
    change (exec (.addSubImm true false .x 21 21 8 false) s).x 21 = _
    rw [exec_pointer]
    simp only [if_true, Function.update_self]
    rw [pointer, sub_eight, ← depth_add]
    rfl
  have here := inAllocation_slot true width r lowered (by omega) (by omega)
  rw [kept] at here
  have first : InAllocation (s.x 20) (.addSubImm true false .x 21 21 8 false) s :=
    inAllocation_silent rfl s
  refine Iff.trans (and_iff_right first) (Iff.trans (and_iff_left trivial) (here.trans ?_))
  omega

theorem needs_tee (width : Width) {r : Reg} (hr : r ∈ workRegs) (zero : r ≠ 31) (apart : r ≠ 21) :
    Needs 1 (teeBlock width r) :=
  ((needs_pop width r).append (moves_pop width zero apart) (uses_pop width hr) (by decide)
    (by decide) (needs_silent (by simp [silent]))).count rfl

theorem silent_movConst (width : Width) (r : Reg) (value : BitVec 64) :
    ∀ i ∈ movConst width r value, silent i = true := by
  cases width <;> simp [movConst, mov32, mov64, silent]

theorem moves_two (width : Width) {r q : Reg} (hr : r ≠ 31 ∧ r ≠ 21) (hq : q ≠ 31 ∧ q ≠ 21) :
    Moves (-2) (popBlock width r ++ popBlock width q) :=
  ((moves_pop width hr.1 hr.2).append (moves_pop width hq.1 hq.2)).count rfl

/-- Two pops, and what works on the popped entries. -/
theorem needs_two (width : Width) {r q : Reg} (hr : r ∈ workRegs ∧ r ≠ 31 ∧ r ≠ 21)
    (hq : q ∈ workRegs ∧ q ≠ 31 ∧ q ≠ 21) {block : List Instr}
    (quiet : ∀ i ∈ block, silent i = true) :
    Needs 2 (popBlock width r ++ popBlock width q ++ block) := by
  have pops : Needs 2 (popBlock width r ++ popBlock width q) :=
    ((needs_pop width r).append (moves_pop width hr.2.1 hr.2.2) (uses_pop width hr.1) (by decide)
      (by decide) (needs_pop width q)).count rfl
  exact (pops.append (moves_two width hr.2 hq.2)
    ((uses_pop width hr.1).append (uses_pop width hq.1))
    (by decide) (by decide) (needs_silent quiet)).count rfl

/-- Entries an instruction takes from the operand stack, or looks at. -/
def Op.takes : Op → Nat
  | .nop | .ret | .localVar .get _ | .i32const _ | .i64const _ => 0
  | .localVar .set _ | .localVar .tee _ => 1
  | .compare _ _ | .arith _ _ => 2

theorem op_needs {frame : Frame} {o : Op} (uses : o.UsesBelow frame.length) :
    Needs (Op.takes o) (opBlock frame o) := by
  have mem11 : (11 : Reg) ∈ workRegs := by decide
  have load : ∀ {block : List Instr} (_ : ∀ i ∈ block, silent i = true) (_ : Moves 0 block)
      (_ : Uses workRegs block) (width : Width) (r : Reg),
      Needs (0 : Nat) (block ++ pushBlock width r) :=
    fun quiet moves uses width r => ((needs_silent quiet).append moves uses (by decide) (by decide)
      (needs_push width r)).count rfl
  cases o with
  | nop => exact needs_silent (by simp [opBlock, silent])
  | ret => exact needs_silent fun i hi => absurd hi List.not_mem_nil
  | localVar opType index =>
    have inside : index.toNat < frame.length := uses
    rw [opBlock, List.getElem?_eq_getElem inside]
    cases opType with
    | get =>
      exact load (show ∀ i ∈ [loadVar 11 frame[index.toNat]], silent i = true by
        simp [loadVar, silent])
        (moves_one (by simp [loadVar, writes]))
        (uses_one rfl (by simp [loadVar, movesSp]) (by simp [loadVar, writes, workRegs])) _ _
    | set =>
      exact ((needs_pop _ 11).append (moves_pop _ (by decide) (by decide)) (uses_pop _ mem11)
        (by decide) (by decide) (needs_silent (by simp [storeVar, silent]))).count rfl
    | tee =>
      exact ((needs_tee _ mem11 (by decide) (by decide)).append
        (moves_tee _ (by decide) (by decide)) (uses_tee _ mem11) (by decide) (by decide)
        (needs_silent (by simp [storeVar, silent]))).count rfl
  | i32const value =>
    exact load (show ∀ i ∈ mov32 11 (value.setWidth 32), silent i = true by simp [mov32, silent])
      (moves_mov32 (by decide) _) (uses_mov32 mem11 _) _ _
  | i64const value =>
    exact load (show ∀ i ∈ mov64 11 (value.setWidth 64), silent i = true by simp [mov64, silent])
      (moves_mov64 (by decide) _) (uses_mov64 mem11 _) _ _
  | compare width c =>
    have operands := needs_two width (r := 12) (q := 11) (by decide) (by decide)
      (show ∀ i ∈ [CodeItems.cmp width 11 12, .csel .x 0 3 4 (condOf c)], silent i = true by
        simp [CodeItems.cmp, silent])
    have zeroOne : Uses workRegs [.movWide .movz .x 3 1 0, .movWide .movz .x 4 0 0] :=
      (uses_one (i := .movWide .movz .x 3 1 0) rfl rfl (by simp [writes, workRegs])).append
        (uses_one (i := .movWide .movz .x 4 0 0) rfl rfl (by simp [writes, workRegs]))
    have still : Moves 0 [.movWide .movz .x 3 1 0, .movWide .movz .x 4 0 0] :=
      moves_of_writes fun i hi => by
        simp only [List.mem_cons, List.not_mem_nil, or_false] at hi
        rcases hi with rfl | rfl <;> simp [writes]
    have compared := ((needs_silent (by simp [silent])).append still zeroOne (by decide) (by decide)
      operands).count (m := 2) rfl
    simp only [← List.append_assoc] at compared
    have whole := compared.append (moves_compare width c) (uses_compare width c) (by decide)
      (by decide) (needs_push .x 0)
    exact whole.count rfl
  | arith width a =>
    have operation : ∀ i ∈ [arithInstr width a], silent i = true := by
      cases a <;> simp [arithInstr, silent]
    exact ((needs_two width (r := 11) (q := 12) (by decide) (by decide) operation).append
      (moves_arith width a) (uses_arith width a) (by decide) (by decide)
      (needs_push width 11)).count rfl

end StackAccesses
