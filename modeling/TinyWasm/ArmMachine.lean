import TinyWasm.ArmInstruction
import TinyWasm.ByteMemory
import TinyWasm.StepRuns

/-!
# Execution of the A64 instructions

The machine state is the general registers, the stack pointer, the flags and a
byte-addressed memory. The code is not part of that memory: the words stand at
a base address, and a program counter outside them stops the machine.
-/

namespace ArmMachine

open ArmInstruction ByteMemory StepRuns

/-- The condition flags. -/
structure Flags where
  n : Bool := false
  z : Bool := false
  c : Bool := false
  v : Bool := false
  deriving DecidableEq, Repr

/-- `x 31` is never read: register 31 is the zero register or the stack pointer. -/
structure State where
  x : Reg → BitVec 64
  sp : BitVec 64
  flags : Flags
  mem : Memory 64

/-- The bits of a value a register of the width holds. -/
def truncate : Width → BitVec 64 → BitVec 64
  | .w, v => (v.setWidth 32).setWidth 64
  | .x, v => v

namespace State

/-- A general register, with 31 as the zero register. -/
def reg (s : State) (width : Width) (r : Reg) : BitVec 64 :=
  if r = 31 then 0 else truncate width (s.x r)

/-- A general register, with 31 as the stack pointer. -/
def regSp (s : State) (width : Width) (r : Reg) : BitVec 64 :=
  if r = 31 then truncate width s.sp else truncate width (s.x r)

def setReg (s : State) (width : Width) (r : Reg) (v : BitVec 64) : State :=
  if r = 31 then s else { s with x := Function.update s.x r (truncate width v) }

def setRegSp (s : State) (width : Width) (r : Reg) (v : BitVec 64) : State :=
  if r = 31 then { s with sp := truncate width v }
  else { s with x := Function.update s.x r (truncate width v) }

def load (s : State) (width : Width) (a : BitVec 64) : BitVec 64 := read 64 s.mem a width.bytes

def store (s : State) (width : Width) (a v : BitVec 64) : State :=
  { s with mem := write s.mem a width.bytes v }

end State

/-- `AddWithCarry` of the architecture. -/
def addWithCarry {k : Nat} (a b : BitVec k) (carry : Bool) : BitVec k × Flags :=
  let result := a + b + BitVec.ofNat k carry.toNat
  (result,
    { n := result.msb
      z := decide (result = 0)
      c := decide (2 ^ k ≤ a.toNat + b.toNat + carry.toNat)
      v := decide (result.toInt ≠ a.toInt + b.toInt + carry.toNat) })

/-- The sum or the difference of two operands, at a width. -/
def addSub (width : Width) (sub : Bool) (a b : BitVec 64) : BitVec 64 × Flags :=
  match width with
  | .w =>
    let (result, flags) := addWithCarry (a.setWidth 32)
      (if sub then ~~~ b.setWidth 32 else b.setWidth 32) sub
    (result.setWidth 64, flags)
  | .x => addWithCarry a (if sub then ~~~ b else b) sub

/-- `ConditionHolds` of the architecture. -/
def holds (cond : BitVec 4) (f : Flags) : Bool :=
  let base :=
    if BitFields.field 1 3 cond = 0 then f.z
    else if BitFields.field 1 3 cond = 1 then f.c
    else if BitFields.field 1 3 cond = 2 then f.n
    else if BitFields.field 1 3 cond = 3 then f.v
    else if BitFields.field 1 3 cond = 4 then f.c && !f.z
    else if BitFields.field 1 3 cond = 5 then f.n == f.v
    else if BitFields.field 1 3 cond = 6 then f.n == f.v && !f.z
    else true
  if cond.getLsbD 0 ∧ cond ≠ 0b1111 then !base else base

def shiftValue (kind : ShiftKind) (width : Width) (v : BitVec 64) (amount : Nat) : BitVec 64 :=
  match kind, width with
  | .lsl, _ => truncate width (v <<< amount)
  | .lsr, _ => v >>> amount
  | .asr, .w => ((v.setWidth 32).sshiftRight amount).setWidth 64
  | .asr, .x => v.sshiftRight amount

def extendValue (kind : Extend) (v : BitVec 64) : BitVec 64 :=
  match kind with
  | .uxtw => (v.setWidth 32).setWidth 64
  | .sxtw => (v.setWidth 32).signExtend 64
  | .lsl | .sxtx => v

/-- `sdiv` and `udiv`: a division by zero gives zero, and the overflow wraps. -/
def divide (signed : Bool) (width : Width) (a b : BitVec 64) : BitVec 64 :=
  match width, signed with
  | .w, true => ((a.setWidth 32).sdiv (b.setWidth 32)).setWidth 64
  | .w, false => ((a.setWidth 32).udiv (b.setWidth 32)).setWidth 64
  | .x, true => a.sdiv b
  | .x, false => a.udiv b

/-- One register pair moved to or from memory. -/
def movePair (s : State) (load : Bool) (width : Width) (rt rt2 : Reg) (a : BitVec 64) : State :=
  let a2 := a + BitVec.ofNat 64 width.bytes
  if load then
    let v1 := s.load width a
    let v2 := s.load width a2
    (s.setReg width rt v1).setReg width rt2 v2
  else (s.store width a (s.reg width rt)).store width a2 (s.reg width rt2)

def moveOne (s : State) (load : Bool) (width : Width) (rt : Reg) (a : BitVec 64) : State :=
  if load then s.setReg width rt (s.load width a) else s.store width a (s.reg width rt)

/-- What an instruction does to registers, flags and memory. Branches do nothing here. -/
def exec (i : Instr) (s : State) : State :=
  match i with
  | .ldpStp load width mode rt rt2 rn offset =>
    let base := s.regSp .x rn
    let moved := base + BitVec.ofInt 64 offset
    match mode with
    | .signedOffset => movePair s load width rt rt2 moved
    | .preIndex => (movePair s load width rt rt2 moved).setRegSp .x rn moved
    | .postIndex => (movePair s load width rt rt2 base).setRegSp .x rn moved
  | .ldrStrImm load width mode rt rn offset =>
    let base := s.regSp .x rn
    let moved := base + BitVec.ofInt 64 offset
    match mode with
    | .unsignedOffset => moveOne s load width rt moved
    | .preIndex => (moveOne s load width rt moved).setRegSp .x rn moved
    | .postIndex => (moveOne s load width rt base).setRegSp .x rn moved
  | .ldrStrReg load width rt rn rm extend scaled =>
    let amount := if scaled then (if width = .x then 3 else 2) else 0
    moveOne s load width rt (s.regSp .x rn + extendValue extend (s.reg .x rm) <<< amount)
  | .addSubImm sub setFlags width rd rn imm shift12 =>
    let operand : BitVec 64 := imm.setWidth 64 <<< (if shift12 then 12 else 0)
    let (result, flags) := addSub width sub (s.regSp width rn) operand
    if setFlags then { s.setReg width rd result with flags } else s.setRegSp width rd result
  | .addSubShift sub setFlags width rd rn rm shift amount =>
    let operand := shiftValue shift width (s.reg width rm) amount.toNat
    let (result, flags) := addSub width sub (s.reg width rn) operand
    if setFlags then { s.setReg width rd result with flags } else s.setReg width rd result
  | .orrShift width rd rn rm shift amount =>
    s.setReg width rd (s.reg width rn ||| shiftValue shift width (s.reg width rm) amount.toNat)
  | .movWide kind width rd imm hw =>
    let amount := 16 * hw.toNat
    let value : BitVec 64 := imm.setWidth 64 <<< amount
    match kind with
    | .movz => s.setReg width rd value
    | .movn => s.setReg width rd (~~~ value)
    | .movk =>
      let mask : BitVec 64 := 0xFFFF <<< amount
      s.setReg width rd (s.reg width rd &&& ~~~ mask ||| value)
  | .csel width rd rn rm cond =>
    s.setReg width rd (if holds cond s.flags then s.reg width rn else s.reg width rm)
  | .madd width rd rn rm ra =>
    s.setReg width rd (s.reg width ra + s.reg width rn * s.reg width rm)
  | .div signed width rd rn rm =>
    s.setReg width rd (divide signed width (s.reg width rn) (s.reg width rm))
  | .b _ _ | .bCond _ _ | .br _ _ | .ret _ | .adr _ _ | .nop => s

structure Config where
  pc : BitVec 64
  state : State

/-- The next program counter. -/
def nextPc (i : Instr) (c : Config) : BitVec 64 :=
  match i with
  | .b _ disp => c.pc + BitVec.ofInt 64 (4 * disp)
  | .bCond cond disp =>
    if holds cond c.state.flags then c.pc + BitVec.ofInt 64 (4 * disp) else c.pc + 4
  | .br _ rn | .ret rn => c.state.reg .x rn
  | _ => c.pc + 4

/-- `exec`, with the instructions that read the program counter. -/
def effect (i : Instr) (c : Config) : State :=
  match i with
  | .b true _ | .br true _ => c.state.setReg .x 30 (c.pc + 4)
  | .adr rd disp => c.state.setReg .x rd (c.pc + BitVec.ofInt 64 disp)
  | i => exec i c.state

/-- The instruction at a program counter. -/
def fetch (code : List Word) (base pc : BitVec 64) : Option Instr :=
  if (pc - base).toNat % 4 = 0 then code[(pc - base).toNat / 4]?.bind decode else none

def step (code : List Word) (base : BitVec 64) (c : Config) : Option Config :=
  (fetch code base c.pc).map fun i => { pc := nextPc i c, state := effect i c }

/-! ### Positions -/

/-- The address of the `i`-th word. -/
def addr (base : BitVec 64) (i : Nat) : BitVec 64 := base + BitVec.ofNat 64 (4 * i)

theorem addr_zero (base : BitVec 64) : addr base 0 = base := BitVec.add_zero base

theorem addr_succ (base : BitVec 64) (i : Nat) : addr base i + 4 = addr base (i + 1) := by
  rw [addr, addr, Nat.mul_add, BitVec.ofNat_add, ← BitVec.add_assoc]
  rfl

theorem addr_branch (base : BitVec 64) {i j : Nat} {disp : Int} (h : (i : Int) + disp = j) :
    addr base i + BitVec.ofInt 64 (4 * disp) = addr base j := by
  rw [addr, addr, BitVec.add_assoc, ← BitVec.ofInt_natCast, ← BitVec.ofInt_natCast,
    ← BitVec.ofInt_add]
  congr 2
  omega

theorem fetch_addr {code : List Word} {instrs : List Instr}
    (decoded : code.map decode = instrs.map some) (base : BitVec 64) {i : Nat} {instr : Instr}
    (h : instrs[i]? = some instr) (short : code.length ≤ 2 ^ 61) :
    fetch code base (addr base i) = some instr := by
  have here : (code[i]?).bind decode = some instr := by
    have both := congrArg (·[i]?) decoded
    simp only [List.getElem?_map, h, Option.map_some] at both
    cases hw : code[i]? with
    | none => simp [hw] at both
    | some w => simpa [hw] using both
  have inside : i < code.length := by
    by_contra outside
    rw [List.getElem?_eq_none (by omega)] at here
    exact nomatch here
  have offset : (addr base i - base).toNat = 4 * i := by
    rw [addr, BitVec.add_comm, BitVec.add_sub_cancel, BitVec.toNat_ofNat]
    omega
  rw [fetch, offset, if_pos (by omega), Nat.mul_div_cancel_left i (by decide), here]

/-- Outside the words there is nothing to fetch. -/
theorem step_outside {code : List Word} {base : BitVec 64} {c : Config}
    (h : 4 * code.length ≤ (c.pc - base).toNat) : step code base c = none := by
  have behind : code[(c.pc - base).toNat / 4]? = none := List.getElem?_eq_none (by omega)
  rw [step, fetch, behind]
  split <;> rfl

/-! ### Straight-line blocks -/

/-- The words decode to these instructions, and there are few of them. -/
structure Loaded (code : List Word) (instrs : List Instr) : Prop where
  decoded : code.map decode = instrs.map some
  short : code.length ≤ 2 ^ 61

/-- An instruction that goes on to the next and does not read the program counter. -/
def plain : Instr → Bool
  | .b _ _ | .bCond _ _ | .br _ _ | .ret _ | .adr _ _ => false
  | _ => true

def execAll (block : List Instr) (s : State) : State := block.foldl (fun s i => exec i s) s

@[simp] theorem execAll_nil (s : State) : execAll [] s = s := rfl

@[simp] theorem execAll_cons (i : Instr) (block : List Instr) (s : State) :
    execAll (i :: block) s = execAll block (exec i s) := rfl

theorem execAll_append (first second : List Instr) (s : State) :
    execAll (first ++ second) s = execAll second (execAll first s) := List.foldl_append

/-- The configurations a block is executed from. -/
def blockTrace (base : BitVec 64) : Nat → List Instr → State → List Config
  | _, [], _ => []
  | p, i :: block, s => ⟨addr base p, s⟩ :: blockTrace base (p + 1) block (exec i s)

theorem blockTrace_append (base : BitVec 64) (p : Nat) (first second : List Instr) (s : State) :
    blockTrace base p (first ++ second) s =
      blockTrace base p first s ++ blockTrace base (p + first.length) second (execAll first s) := by
  induction first generalizing p s with
  | nil => rfl
  | cons i first ih =>
    rw [List.cons_append, blockTrace, ih, blockTrace, execAll_cons, List.length_cons,
      Nat.add_assoc, Nat.add_comm 1]
    rfl

/-- The block stands in the code from position `p` on. -/
def Stands (instrs : List Instr) (p : Nat) (block : List Instr) : Prop :=
  ∀ n i, block[n]? = some i → instrs[p + n]? = some i

theorem Stands.tail {instrs block : List Instr} {p : Nat} {i : Instr}
    (h : Stands instrs p (i :: block)) : Stands instrs (p + 1) block := by
  intro n j hj
  have later := h (n + 1) j (by simpa using hj)
  rwa [Nat.add_assoc, Nat.add_comm 1 n]

section
variable {code : List Word} {instrs : List Instr} (loaded : Loaded code instrs)
  (base : BitVec 64)
include loaded

theorem step_at {p : Nat} {i : Instr} (here : instrs[p]? = some i) (s : State) :
    step code base ⟨addr base p, s⟩ =
      some ⟨nextPc i ⟨addr base p, s⟩, effect i ⟨addr base p, s⟩⟩ := by
  rw [step, fetch_addr loaded.decoded base here loaded.short]
  rfl

theorem step_plain {p : Nat} {i : Instr} (here : instrs[p]? = some i) (straight : plain i = true)
    (s : State) : step code base ⟨addr base p, s⟩ = some ⟨addr base (p + 1), exec i s⟩ := by
  rw [step_at loaded base here, ← addr_succ]
  cases i with
  | b | bCond | br | ret | adr => exact nomatch straight
  | ldpStp | ldrStrImm | ldrStrReg | addSubImm | addSubShift | orrShift | movWide | csel | madd
  | div | nop => rfl

/-- A block of plain instructions is executed from its first to its last. -/
theorem run_block {p : Nat} {block : List Instr} (stands : Stands instrs p block)
    (straight : ∀ i ∈ block, plain i = true) (s : State) :
    Run (step code base) ⟨addr base p, s⟩ (blockTrace base p block s)
      ⟨addr base (p + block.length), execAll block s⟩ := by
  induction block generalizing p s with
  | nil => exact .nil _
  | cons i block ih =>
    have first := step_plain loaded base (stands 0 i rfl) (straight i (by simp)) s
    have rest := ih stands.tail (fun j hj => straight j (List.mem_cons_of_mem _ hj)) (exec i s)
    rw [List.length_cons, Nat.add_comm block.length, ← Nat.add_assoc]
    exact .cons first rest

/-- A branch to a position. -/
theorem step_b {p q : Nat} {disp : Int} (here : instrs[p]? = some (.b false disp))
    (target : (p : Int) + disp = q) (s : State) :
    step code base ⟨addr base p, s⟩ = some ⟨addr base q, s⟩ := by
  rw [step_at loaded base here, ← addr_branch base target]
  rfl

theorem step_bl {p q : Nat} {disp : Int} (here : instrs[p]? = some (.b true disp))
    (target : (p : Int) + disp = q) (s : State) :
    step code base ⟨addr base p, s⟩ =
      some ⟨addr base q, s.setReg .x 30 (addr base (p + 1))⟩ := by
  rw [step_at loaded base here, ← addr_branch base target, ← addr_succ]
  rfl

theorem step_bCond {p q : Nat} {cond : BitVec 4} {disp : Int}
    (here : instrs[p]? = some (.bCond cond disp)) (target : (p : Int) + disp = q) (s : State) :
    step code base ⟨addr base p, s⟩ =
      some ⟨if holds cond s.flags then addr base q else addr base (p + 1), s⟩ := by
  rw [step_at loaded base here, ← addr_branch base target, ← addr_succ]
  rfl

theorem step_ret {p : Nat} {rn : Reg} (here : instrs[p]? = some (.ret rn)) (s : State) :
    step code base ⟨addr base p, s⟩ = some ⟨s.reg .x rn, s⟩ := by
  rw [step_at loaded base here]
  rfl

theorem step_br {p : Nat} {rn : Reg} (here : instrs[p]? = some (.br false rn)) (s : State) :
    step code base ⟨addr base p, s⟩ = some ⟨s.reg .x rn, s⟩ := by
  rw [step_at loaded base here]
  rfl

end

/-! ### What an instruction leaves alone -/

/-- The general registers an instruction can write. -/
def writes : Instr → List Reg
  | .ldpStp load _ mode rt rt2 rn _ =>
    (if load then [rt, rt2] else []) ++ (if mode = .signedOffset then [] else [rn])
  | .ldrStrImm load _ mode rt rn _ =>
    (if load then [rt] else []) ++ (if mode = .unsignedOffset then [] else [rn])
  | .ldrStrReg load _ rt _ _ _ _ => if load then [rt] else []
  | .addSubImm _ _ _ rd _ _ _ | .addSubShift _ _ _ rd _ _ _ _ | .orrShift _ rd _ _ _ _
  | .movWide _ _ rd _ _ | .csel _ rd _ _ _ | .madd _ rd _ _ _ | .div _ _ rd _ _ => [rd]
  | .b _ _ | .bCond _ _ | .br _ _ | .ret _ | .adr _ _ | .nop => []

/-- The instruction can move the stack pointer. -/
def movesSp : Instr → Bool
  | .ldpStp _ _ mode _ _ rn _ => mode ≠ .signedOffset && rn = 31
  | .ldrStrImm _ _ mode _ rn _ => mode ≠ .unsignedOffset && rn = 31
  | .addSubImm _ setFlags _ rd _ _ _ => !setFlags && rd = 31
  | _ => false

/-- The instruction writes to memory. -/
def isStore : Instr → Bool
  | .ldpStp load _ _ _ _ _ _ | .ldrStrImm load _ _ _ _ _ | .ldrStrReg load _ _ _ _ _ _ => !load
  | _ => false

theorem setReg_x_of_ne {s : State} {width : Width} {r q : Reg} {v : BitVec 64} (h : q ≠ r) :
    (s.setReg width r v).x q = s.x q := by
  rw [State.setReg]
  split
  · rfl
  · exact Function.update_of_ne h _ _

theorem setRegSp_x_of_ne {s : State} {width : Width} {r q : Reg} {v : BitVec 64} (h : q ≠ r) :
    (s.setRegSp width r v).x q = s.x q := by
  rw [State.setRegSp]
  split
  · rfl
  · exact Function.update_of_ne h _ _

@[simp] theorem setReg_sp (s : State) (width : Width) (r : Reg) (v : BitVec 64) :
    (s.setReg width r v).sp = s.sp := by
  rw [State.setReg]
  split <;> rfl

@[simp] theorem setReg_mem (s : State) (width : Width) (r : Reg) (v : BitVec 64) :
    (s.setReg width r v).mem = s.mem := by
  rw [State.setReg]
  split <;> rfl

@[simp] theorem setRegSp_mem (s : State) (width : Width) (r : Reg) (v : BitVec 64) :
    (s.setRegSp width r v).mem = s.mem := by
  rw [State.setRegSp]
  split <;> rfl

theorem setRegSp_sp_of_ne {s : State} {width : Width} {r : Reg} {v : BitVec 64} (h : r ≠ 31) :
    (s.setRegSp width r v).sp = s.sp := by
  rw [State.setRegSp, if_neg h]

@[simp] theorem store_x (s : State) (width : Width) (a v : BitVec 64) :
    (s.store width a v).x = s.x := rfl

@[simp] theorem store_sp (s : State) (width : Width) (a v : BitVec 64) :
    (s.store width a v).sp = s.sp := rfl

theorem moveOne_x {s : State} {load : Bool} {width : Width} {rt q : Reg} {a : BitVec 64}
    (h : q ∉ if load then [rt] else []) : (moveOne s load width rt a).x q = s.x q := by
  cases load with
  | false => rfl
  | true => exact setReg_x_of_ne (by simpa using h)

theorem movePair_x {s : State} {load : Bool} {width : Width} {rt rt2 q : Reg} {a : BitVec 64}
    (h : q ∉ if load then [rt, rt2] else []) : (movePair s load width rt rt2 a).x q = s.x q := by
  cases load with
  | false => rfl
  | true =>
    simp only [if_true, List.mem_cons, List.not_mem_nil, or_false, not_or] at h
    exact (setReg_x_of_ne h.2).trans (setReg_x_of_ne h.1)

@[simp] theorem moveOne_sp (s : State) (load : Bool) (width : Width) (rt : Reg) (a : BitVec 64) :
    (moveOne s load width rt a).sp = s.sp := by
  cases load <;> simp [moveOne]

@[simp] theorem movePair_sp (s : State) (load : Bool) (width : Width) (rt rt2 : Reg)
    (a : BitVec 64) : (movePair s load width rt rt2 a).sp = s.sp := by
  cases load <;> simp [movePair]

theorem exec_x {i : Instr} {q : Reg} (h : q ∉ writes i) (s : State) : (exec i s).x q = s.x q := by
  cases i with
  | ldpStp load width mode rt rt2 rn offset =>
    rw [writes, List.mem_append, not_or] at h
    cases mode with
    | signedOffset => exact movePair_x h.1
    | preIndex => exact (setRegSp_x_of_ne (by simpa using h.2)).trans (movePair_x h.1)
    | postIndex => exact (setRegSp_x_of_ne (by simpa using h.2)).trans (movePair_x h.1)
  | ldrStrImm load width mode rt rn offset =>
    rw [writes, List.mem_append, not_or] at h
    cases mode with
    | unsignedOffset => exact moveOne_x h.1
    | preIndex => exact (setRegSp_x_of_ne (by simpa using h.2)).trans (moveOne_x h.1)
    | postIndex => exact (setRegSp_x_of_ne (by simpa using h.2)).trans (moveOne_x h.1)
  | ldrStrReg load width rt rn rm extend scaled => exact moveOne_x h
  | addSubImm sub setFlags width rd rn imm shift12 =>
    cases setFlags with
    | false => exact setRegSp_x_of_ne (by simpa [writes] using h)
    | true => exact setReg_x_of_ne (by simpa [writes] using h)
  | addSubShift sub setFlags width rd rn rm shift amount =>
    cases setFlags <;> exact setReg_x_of_ne (by simpa [writes] using h)
  | movWide kind width rd imm hw =>
    cases kind <;> exact setReg_x_of_ne (by simpa [writes] using h)
  | orrShift | csel | madd | div => exact setReg_x_of_ne (by simpa [writes] using h)
  | b | bCond | br | ret | adr | nop => rfl

theorem exec_sp {i : Instr} (h : movesSp i = false) (s : State) : (exec i s).sp = s.sp := by
  cases i with
  | ldpStp load width mode rt rt2 rn offset =>
    cases mode with
    | signedOffset => exact movePair_sp ..
    | preIndex => exact (setRegSp_sp_of_ne (by simpa [movesSp] using h)).trans (movePair_sp ..)
    | postIndex => exact (setRegSp_sp_of_ne (by simpa [movesSp] using h)).trans (movePair_sp ..)
  | ldrStrImm load width mode rt rn offset =>
    cases mode with
    | unsignedOffset => exact moveOne_sp ..
    | preIndex => exact (setRegSp_sp_of_ne (by simpa [movesSp] using h)).trans (moveOne_sp ..)
    | postIndex => exact (setRegSp_sp_of_ne (by simpa [movesSp] using h)).trans (moveOne_sp ..)
  | ldrStrReg load width rt rn rm extend scaled => exact moveOne_sp ..
  | addSubImm sub setFlags width rd rn imm shift12 =>
    cases setFlags with
    | false => exact setRegSp_sp_of_ne (by simpa [movesSp] using h)
    | true => exact setReg_sp ..
  | addSubShift sub setFlags width rd rn rm shift amount => cases setFlags <;> exact setReg_sp ..
  | movWide kind width rd imm hw => cases kind <;> exact setReg_sp ..
  | orrShift | csel | madd | div => exact setReg_sp ..
  | b | bCond | br | ret | adr | nop => rfl

theorem exec_mem {i : Instr} (h : isStore i = false) (s : State) : (exec i s).mem = s.mem := by
  cases i with
  | ldpStp load width mode rt rt2 rn offset =>
    cases load with
    | false => exact nomatch h
    | true => cases mode <;> simp [exec, movePair]
  | ldrStrImm load width mode rt rn offset =>
    cases load with
    | false => exact nomatch h
    | true => cases mode <;> simp [exec, moveOne]
  | ldrStrReg load width rt rn rm extend scaled =>
    cases load with
    | false => exact nomatch h
    | true => exact setReg_mem ..
  | addSubImm sub setFlags width rd rn imm shift12 => cases setFlags <;> simp [exec]
  | addSubShift sub setFlags width rd rn rm shift amount => cases setFlags <;> simp [exec]
  | movWide kind width rd imm hw => cases kind <;> simp [exec]
  | orrShift | csel | madd | div => exact setReg_mem ..
  | b | bCond | br | ret | adr | nop => rfl

/-- Between the states only the registers `rs` may differ, with memory and flags. -/
structure Keeps (rs : List Reg) (s t : State) : Prop where
  x : ∀ r, r ∉ rs → t.x r = s.x r
  sp : t.sp = s.sp

theorem Keeps.refl (rs : List Reg) (s : State) : Keeps rs s s := ⟨fun _ _ => rfl, rfl⟩

theorem Keeps.trans {rs : List Reg} {s t u : State} (first : Keeps rs s t)
    (second : Keeps rs t u) : Keeps rs s u :=
  ⟨fun r hr => (second.x r hr).trans (first.x r hr), second.sp.trans first.sp⟩

theorem Keeps.mono {rs qs : List Reg} {s t : State} (h : Keeps rs s t)
    (more : ∀ r ∈ rs, r ∈ qs) : Keeps qs s t :=
  ⟨fun r hr => h.x r fun inside => hr (more r inside), h.sp⟩

/-- The block writes no general register but `rs`, and does not move the stack pointer. -/
def Uses (rs : List Reg) (block : List Instr) : Prop :=
  ∀ i ∈ block, plain i = true ∧ movesSp i = false ∧ ∀ r ∈ writes i, r ∈ rs

theorem Uses.append {rs : List Reg} {first second : List Instr} (h : Uses rs first)
    (h' : Uses rs second) : Uses rs (first ++ second) := by
  intro i hi
  rcases List.mem_append.mp hi with hi | hi
  · exact h i hi
  · exact h' i hi

theorem keeps_of_uses {rs : List Reg} {block : List Instr} (h : Uses rs block) (s : State) :
    Keeps rs s (execAll block s) := by
  induction block generalizing s with
  | nil => exact .refl rs s
  | cons i block ih =>
    obtain ⟨-, still, written⟩ := h i (by simp)
    have first : Keeps rs s (exec i s) :=
      ⟨fun r hr => exec_x (fun inside => hr (written r inside)) s, exec_sp still s⟩
    exact first.trans (ih (fun j hj => h j (List.mem_cons_of_mem _ hj)) (exec i s))

/-- Every state of a block keeps what the whole block keeps. -/
theorem blockTrace_keeps {rs : List Reg} {block : List Instr} (h : Uses rs block)
    (base : BitVec 64) (p : Nat) (s : State) :
    ∀ c ∈ blockTrace base p block s, Keeps rs s c.state := by
  induction block generalizing p s with
  | nil => simp [blockTrace]
  | cons i block ih =>
    obtain ⟨-, still, written⟩ := h i (by simp)
    have first : Keeps rs s (exec i s) :=
      ⟨fun r hr => exec_x (fun inside => hr (written r inside)) s, exec_sp still s⟩
    intro c hc
    rcases List.mem_cons.mp hc with rfl | later
    · exact .refl rs s
    · exact first.trans
        (ih (fun j hj => h j (List.mem_cons_of_mem _ hj)) (p + 1) (exec i s) c later)

theorem execAll_mem {block : List Instr} (h : ∀ i ∈ block, isStore i = false) (s : State) :
    (execAll block s).mem = s.mem := by
  induction block generalizing s with
  | nil => rfl
  | cons i block ih =>
    rw [execAll_cons, ih (fun j hj => h j (List.mem_cons_of_mem _ hj)),
      exec_mem (h i (by simp))]

end ArmMachine
