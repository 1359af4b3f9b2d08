import TinyWasm.BlockEffects

/-!
# `setjmp` and `longjmp`

`setjmp` keeps `x19` to `x30` and the stack pointer in the area at `x0`, and
`longjmp` takes them back from there. It leaves something other than zero in
`x0`, whatever `x1` was.
-/

namespace CallStubs

open ArmInstruction ByteMemory ArmMachine BlockEffects CodeItems

/-! ### Single instructions -/

theorem exec_savePair {r q : Reg} (hr : r ≠ 31) (hq : q ≠ 31) (offset : Int) (s : State) :
    exec (.ldpStp false .x .signedOffset r q 0 offset) s =
      { s with
        mem := write (write s.mem (s.x 0 + BitVec.ofInt 64 offset) 8 (s.x r))
          (s.x 0 + BitVec.ofInt 64 offset + 8) 8 (s.x q) } := by
  change movePair s false .x r q (s.regSp .x 0 + BitVec.ofInt 64 offset) = _
  rw [movePair, if_neg Bool.false_ne_true, reg_of_ne hr, reg_of_ne hq]
  rfl

theorem exec_loadPair {r q : Reg} (hr : r ≠ 31) (hq : q ≠ 31) (offset : Int) (s : State) :
    exec (.ldpStp true .x .signedOffset r q 0 offset) s =
      { s with
        x := Function.update (Function.update s.x r
          (s.load .x (s.x 0 + BitVec.ofInt 64 offset))) q
          (s.load .x (s.x 0 + BitVec.ofInt 64 offset + 8)) } := by
  change movePair s true .x r q (s.regSp .x 0 + BitVec.ofInt 64 offset) = _
  have pair : ∀ a, movePair s true .x r q a =
      (s.setReg .x r (s.load .x a)).setReg .x q (s.load .x (a + 8)) := fun a => rfl
  rw [pair, setReg_of_ne hr, setReg_of_ne hq]
  rfl

theorem exec_mov {r q : Reg} (hr : r ≠ 31) (hq : q ≠ 31) (s : State) :
    exec (mov r q) s = { s with x := Function.update s.x r (s.x q) } := by
  change s.setReg .x r (s.reg .x 31 ||| shiftValue .lsl .x (s.reg .x q) 0) = _
  have whole : s.reg .x 31 ||| shiftValue .lsl .x (s.reg .x q) 0 = s.x q := by
    rw [reg_of_ne hq, State.reg, if_pos rfl]
    simp [shiftValue]
  rw [setReg_of_ne hr, whole]
  rfl

theorem exec_movFromSp {r : Reg} (hr : r ≠ 31) (s : State) :
    exec (movSp r 31) s = { s with x := Function.update s.x r s.sp } := by
  change s.setRegSp .x r (addSub .x false s.sp 0).1 = _
  rw [setRegSp_of_ne hr, addSub_x_add, show s.sp + 0 = s.sp from BitVec.add_zero s.sp]
  rfl

theorem exec_movToSp {r : Reg} (hr : r ≠ 31) (s : State) :
    exec (movSp 31 r) s = { s with sp := s.x r } := by
  change s.setRegSp .x 31 (addSub .x false (s.regSp .x r) 0).1 = _
  rw [State.setRegSp, if_pos rfl, addSub_x_add, regSp_of_ne hr,
    show truncate .x (s.x r) + 0 = s.x r from BitVec.add_zero (s.x r)]
  rfl

/-- A word stored at, or loaded from, an offset of a register. -/
theorem exec_storeWord {r q : Reg} (hr : r ≠ 31) (hq : q ≠ 31) (offset : Int) (s : State) :
    exec (.ldrStrImm false .x .unsignedOffset r q offset) s =
      { s with mem := write s.mem (s.x q + BitVec.ofInt 64 offset) 8 (s.x r) } := by
  change s.store .x (s.regSp .x q + BitVec.ofInt 64 offset) (s.reg .x r) = _
  rw [regSp_of_ne hq, reg_of_ne hr]
  rfl

theorem exec_loadWord {r q : Reg} (hr : r ≠ 31) (hq : q ≠ 31) (offset : Int) (s : State) :
    exec (.ldrStrImm true .x .unsignedOffset r q offset) s =
      { s with
        x := Function.update s.x r (read 64 s.mem (s.x q + BitVec.ofInt 64 offset) 8) } := by
  change s.setReg .x r (s.load .x (s.regSp .x q + BitVec.ofInt 64 offset)) = _
  rw [setReg_of_ne hr, regSp_of_ne hq]
  rfl

/-! ### The area -/

/-- The `k`-th word of the area at `a`. -/
def field (a : BitVec 64) (k : Nat) : BitVec 64 := a + BitVec.ofNat 64 (8 * k)

/-- The general registers the stubs keep, from `x19` on. -/
def saved (k : Nat) : Reg := BitVec.ofNat 5 (19 + k)

/-- The area at `a` holds the kept registers and the stack pointer of `s`. -/
structure Holds (a : BitVec 64) (mem : Memory 64) (s : State) : Prop where
  reg : ∀ k < 12, read 64 mem (field a k) 8 = s.x (saved k)
  sp : read 64 mem (field a 13) 8 = s.sp

/-- The bytes of the area. -/
def areaSize : Nat := 112

theorem within_area (a : BitVec 64) {k : Nat} (hk : k < 14) :
    Within (field a k) 8 a areaSize :=
  within_of_offset (show 8 * k + 8 ≤ 112 by omega) (by decide)

theorem Holds.congr {a : BitVec 64} {mem mem' : Memory 64} {s : State} (h : Holds a mem s)
    (same : SameOn a areaSize mem' mem) : Holds a mem' s := by
  refine ⟨fun k hk => ?_, ?_⟩
  · rw [read_congr (by decide) (same.mono (within_area a (by omega))), h.reg k hk]
  · rw [read_congr (by decide) (same.mono (within_area a (by decide))), h.sp]

/-- What `setjmp` writes. -/
def areaPuts (s : State) : List (Put 64 64) :=
  ((List.range 12).map fun k => ⟨field (s.x 0) k, 8, s.x (saved k)⟩) ++
    [⟨field (s.x 0) 13, 8, s.sp⟩]

theorem areaPuts_apart (s : State) :
    (areaPuts s).Pairwise fun p q => Apart p.address p.bytes q.address q.bytes := by
  have fields : ∀ i j, i < j → j < 14 → Apart (field (s.x 0) i) 8 (field (s.x 0) j) 8 :=
    fun i j before inside => apart_of_offsets (Or.inl (by omega)) ⟨by omega, by omega⟩
  rw [areaPuts, List.pairwise_append]
  refine ⟨?_, List.pairwise_singleton _ _, fun p hp q hq => ?_⟩
  · rw [List.pairwise_map]
    refine List.Pairwise.imp_of_mem (fun {i j} _ hj before => ?_) List.pairwise_lt_range
    rw [List.mem_range] at hj
    exact fields i j before (by omega)
  · obtain ⟨i, hi, rfl⟩ := List.mem_map.mp hp
    rw [List.mem_singleton] at hq
    subst hq
    rw [List.mem_range] at hi
    exact fields i 13 (by omega) (by decide)

theorem holds_puts (s : State) (mem : Memory 64) : Holds (s.x 0) (putAll mem (areaPuts s)) s := by
  have back : ∀ p ∈ areaPuts s, p.bytes = 8 →
      read 64 (putAll mem (areaPuts s)) p.address 8 = p.value := by
    intro p hp size
    obtain ⟨mem', same⟩ := putAll_mem mem (areaPuts_apart s) hp
    rw [size] at same
    rw [read_congr (by decide) same]
    exact read_write_same mem' p.address (n := 8) (by decide) p.value
  refine ⟨fun k hk => ?_, ?_⟩
  · exact back ⟨field (s.x 0) k, 8, s.x (saved k)⟩ (List.mem_append_left _
      (List.mem_map.mpr ⟨k, List.mem_range.mpr hk, rfl⟩)) rfl
  · exact back ⟨field (s.x 0) 13, 8, s.sp⟩ (by simp [areaPuts]) rfl

theorem puts_apart {a : BitVec 64} {n : Nat} {s : State} (mem : Memory 64)
    (apart : Apart a n (s.x 0) areaSize) : SameOn a n (putAll mem (areaPuts s)) mem := by
  refine putAll_apart mem fun p hp => ?_
  have inside : Within p.address p.bytes (s.x 0) areaSize := by
    rcases List.mem_append.mp hp with hp | hp
    · obtain ⟨k, hk, rfl⟩ := List.mem_map.mp hp
      rw [List.mem_range] at hk
      exact within_area _ (by omega)
    · rw [List.mem_singleton] at hp
      subst hp
      exact within_area _ (by decide)
  exact apart.mono (within_refl a n) inside

/-! ### `setjmp` -/

/-- `setjmp` up to its return. -/
def setjmpBody : List Instr :=
  saveRegs false ++
    [movSp 2 31, .ldrStrImm false .x .unsignedOffset 2 0 104, .movWide .movz .w 0 0 0]

theorem setjmpBlock_eq : setjmpBlock = setjmpBody ++ [.ret 30] := rfl

/-- The `k`-th pair of the kept registers moved to or from the area. -/
def pairAt (load : Bool) (k : Nat) : Instr :=
  .ldpStp load .x .signedOffset (saved (2 * k)) (saved (2 * k + 1)) 0 (16 * k)

theorem saveRegs_eq (load : Bool) : saveRegs load = (List.range 6).map (pairAt load) := rfl

theorem saved_toNat {k : Nat} (hk : k < 12) : (saved k).toNat = 19 + k := by
  rw [saved, BitVec.toNat_ofNat]
  omega

theorem saved_ne {k : Nat} (hk : k < 12) : saved k ≠ 31 := by
  intro h
  have number := congrArg BitVec.toNat h
  rw [saved_toNat hk, show (31 : Reg).toNat = 31 from rfl] at number
  omega

/-- The registers below `x19` are not kept. -/
theorem ne_saved {r : Reg} (small : r.toNat < 19) {k : Nat} (hk : k < 12) : r ≠ saved k := by
  rintro rfl
  rw [saved_toNat hk] at small
  omega

theorem pair_fields (a : BitVec 64) (k : Nat) :
    a + BitVec.ofInt 64 (16 * k) = field a (2 * k) ∧
      a + BitVec.ofInt 64 (16 * k) + 8 = field a (2 * k + 1) := by
  have first : BitVec.ofInt 64 (16 * k) = BitVec.ofNat 64 (8 * (2 * k)) := by
    rw [← BitVec.ofInt_natCast]
    congr 1
    omega
  refine ⟨by rw [first, field], ?_⟩
  rw [first, field, Nat.mul_add 8, BitVec.ofNat_add, ← BitVec.add_assoc]
  rfl

/-- The puts of the first `n` pairs. -/
theorem exec_saves (n : Nat) (few : n ≤ 6) (s : State) :
    execAll ((List.range n).map (pairAt false)) s =
      { s with
        mem := putAll s.mem ((List.range (2 * n)).map fun k =>
          ⟨field (s.x 0) k, 8, s.x (saved k)⟩) } := by
  induction n with
  | zero => rfl
  | succ n ih =>
    obtain ⟨first, second⟩ := pair_fields (s.x 0) n
    rw [List.range_succ, List.map_append, execAll_append, ih (by omega), List.map_singleton,
      execAll_cons, execAll_nil, pairAt, exec_savePair (saved_ne (by omega)) (saved_ne (by omega)),
      show 2 * (n + 1) = 2 * n + 1 + 1 by omega, List.range_succ, List.range_succ, List.map_append,
      List.map_append, putAll_append, putAll_append, second, first]
    rfl

theorem exec_setjmp (s : State) :
    execAll setjmpBody s =
      { s with
        x := Function.update (Function.update s.x 2 s.sp) 0 0
        mem := putAll s.mem (areaPuts s) } := by
  rw [setjmpBody, execAll_append, saveRegs_eq, exec_saves 6 (Nat.le_refl 6), execAll_cons,
    exec_movFromSp (by decide), execAll_cons, exec_storeWord (by decide) (by decide), execAll_cons,
    exec_movz .w (by decide), execAll_nil, areaPuts, putAll_append]
  rfl

/-! ### `longjmp` -/

/-- `longjmp` up to the stack pointer, and from there up to its return. -/
def longjmpLoads : List Instr :=
  saveRegs true ++ [.ldrStrImm true .x .unsignedOffset 5 0 104]

def longjmpRest : List Instr :=
  [movSp 31 5, cmpZero .x 1, .movWide .movz .x 0 1 0, .csel .x 0 1 0 0b0001]

theorem longjmpBlock_eq : longjmpBlock = longjmpLoads ++ (longjmpRest ++ [.br false 30]) := rfl

/-- The loads of the first `n` pairs, from an area that holds the registers of `t`. -/
theorem exec_loads (n : Nat) (few : n ≤ 6) {s t : State} (h : Holds (s.x 0) s.mem t) :
    (∀ k < 2 * n, (execAll ((List.range n).map (pairAt true)) s).x (saved k) = t.x (saved k)) ∧
      (∀ r, (∀ k < 12, r ≠ saved k) →
        (execAll ((List.range n).map (pairAt true)) s).x r = s.x r) ∧
      (execAll ((List.range n).map (pairAt true)) s).sp = s.sp ∧
      (execAll ((List.range n).map (pairAt true)) s).mem = s.mem := by
  induction n with
  | zero => exact ⟨fun k hk => absurd hk (Nat.not_lt_zero k), fun _ _ => rfl, rfl, rfl⟩
  | succ n ih =>
    obtain ⟨loaded, others, sp, mem⟩ := ih (by omega)
    obtain ⟨first, second⟩ := pair_fields (s.x 0) n
    have base : (execAll ((List.range n).map (pairAt true)) s).x 0 = s.x 0 :=
      others 0 fun k hk => ne_saved (by decide) hk
    have distinct : ∀ j k, j < 12 → k < 12 → j ≠ k → saved j ≠ saved k := by
      intro j k hj hk apart same
      have number := congrArg BitVec.toNat same
      rw [saved_toNat hj, saved_toNat hk] at number
      omega
    rw [List.range_succ, List.map_append, execAll_append, List.map_singleton, execAll_cons,
      execAll_nil, pairAt, exec_loadPair (saved_ne (by omega)) (saved_ne (by omega)), base, second,
      first]
    simp only [State.load, Width.bytes, mem]
    refine ⟨fun k hk => ?_, fun r hr => ?_, sp, trivial⟩
    · by_cases last : k = 2 * n + 1
      · subst last
        rw [Function.update_self, h.reg _ (by omega)]
      · rw [Function.update_of_ne (distinct _ _ (by omega) (by omega) last)]
        by_cases here : k = 2 * n
        · subst here
          rw [Function.update_self, h.reg _ (by omega)]
        · rw [Function.update_of_ne (distinct _ _ (by omega) (by omega) here)]
          exact loaded k (by omega)
    · rw [Function.update_of_ne (hr _ (by omega)), Function.update_of_ne (hr _ (by omega))]
      exact others r hr

/-- What `longjmp` has taken back before it moves the stack pointer. -/
structure Restored (s t u : State) : Prop where
  kept : ∀ k < 12, u.x (saved k) = t.x (saved k)
  stack : u.x 5 = t.sp
  others : ∀ r, r ≠ 5 → (∀ k < 12, r ≠ saved k) → u.x r = s.x r
  sp : u.sp = s.sp
  mem : u.mem = s.mem

theorem exec_longjmpLoads {s t : State} (h : Holds (s.x 0) s.mem t) :
    Restored s t (execAll longjmpLoads s) := by
  obtain ⟨loaded, others, sp, mem⟩ := exec_loads 6 (Nat.le_refl 6) h
  rw [longjmpLoads, execAll_append, execAll_cons, execAll_nil, saveRegs_eq,
    exec_loadWord (by decide) (by decide)]
  refine ⟨fun k hk => ?_, ?_, fun r hr hrs => ?_, sp, mem⟩
  · exact (Function.update_of_ne (Ne.symm (ne_saved (by decide) hk)) _ _).trans (loaded k hk)
  · simp only [Function.update_self]
    rw [mem, others 0 fun k hk => ne_saved (by decide) hk]
    exact h.sp
  · exact (Function.update_of_ne hr _ _).trans (others r hrs)

/-- The end of `longjmp`: whatever `x1` is, `x0` is not zero. -/
theorem exec_longjmpRest (s : State) :
    (execAll longjmpRest s).sp = s.x 5 ∧ (execAll longjmpRest s).x 0 ≠ 0 ∧
      (∀ r, r ≠ 0 → (execAll longjmpRest s).x r = s.x r) ∧
      (execAll longjmpRest s).mem = s.mem := by
  have select : ∀ u : State, u.flags.z = decide (s.x 1 = 0) → u.x 1 = s.x 1 → u.x 0 = 1 →
      exec (.csel .x 0 1 0 0b0001) u =
        { u with x := Function.update u.x 0 (if s.x 1 = 0 then 1 else s.x 1) } := by
    intro u flag one zero
    change u.setReg .x 0 (if holds 0b0001 u.flags then u.reg .x 1 else u.reg .x 0) = _
    rw [holds_ne, flag, setReg_of_ne (by decide), reg_of_ne (by decide), reg_of_ne (by decide), one,
      zero]
    by_cases h : s.x 1 = 0
    · rw [decide_eq_true h, if_pos h]
      rfl
    · rw [decide_eq_false h, if_neg h]
      rfl
  let v := exec (cmpZero .x 1) { s with sp := s.x 5 }
  have compared : v.flags.z = decide (s.x 1 = 0) :=
    exec_cmpZero .x (r := 1) (by decide) { s with sp := s.x 5 }
  have one : Function.update v.x (0 : Reg) 1 1 = s.x 1 := Function.update_of_ne (by decide) _ _
  have zero : Function.update v.x (0 : Reg) 1 0 = 1 := Function.update_self (0 : Reg) _ _
  have result : execAll longjmpRest s =
      { v with x := Function.update v.x 0 (if s.x 1 = 0 then 1 else s.x 1) } := by
    rw [longjmpRest, execAll_cons, exec_movToSp (by decide), execAll_cons, execAll_cons,
      exec_movz .x (by decide), execAll_cons, execAll_nil]
    refine (select { v with x := Function.update v.x 0 1 } compared one zero).trans ?_
    simp only [Function.update_idem]
  rw [result]
  refine ⟨rfl, ?_, fun r hr => Function.update_of_ne hr _ _, rfl⟩
  simp only [Function.update_self]
  split_ifs with h
  · decide
  · exact h

end CallStubs
