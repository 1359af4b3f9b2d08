import TinyWasm.EarlyReturn
import TinyWasm.StackSafety
import TinyWasm.VariableAliasing

/-!
# Straight-line code keeps its meaning

A valid straight-line body on `i32` variables has a meaning, and a call of its
code returns the result of it. From the entry on the machine represents the
values WebAssembly has: the arguments and zeros in the frame, and the operand
stack from the bottom up.
-/

namespace PreservedMeaning

open HexText Opcode Wasm Emit ArmInstruction ByteMemory StepRuns ArmMachine BlockEffects
open LocalDeclarations SourceBody EncoderCorrectness CodeItems FrameSpec StructuredRun CodeLayout
open BodyFrame FrameEffects OperandStack CallStubs EntryRun ExitRun FunctionRun FunctionCall CallRun
open StackAccesses OperandSupply StackSafety WasmSemantics BodySimulation StraightDivision
open Validation EarlyReturn VariableAccesses VariableAliasing

/-! ### Valid code has a meaning -/

def Val.type (v : Val) : ValType := ofWidth v.width

/-- The values have the types validation gives them. -/
structure HasTypes (m : Values) (vars ts : List ValType) : Prop where
  locals : m.locals.map Val.type = vars
  stack : m.stack.map Val.type = ts

theorem HasTypes.length {m : Values} {vars ts : List ValType} (typed : HasTypes m vars ts) :
    m.stack.length = ts.length := by
  rw [← typed.stack, List.length_map]

theorem ofWidth_inj {a b : Width} (same : ofWidth a = ofWidth b) : a = b := by
  cases a <;> cases b
  · rfl
  · cases same
  · cases same
  · rfl

theorem as_of_type {v : Val} {width : Width} (typed : Val.type v = ofWidth width) :
    ∃ a, v.as width = some a := by
  obtain ⟨own, value⟩ := v
  cases ofWidth_inj typed
  exact ⟨value, dif_pos rfl⟩

theorem takeTwo_of_types {width : Width} {stack : List Val} {ts : List ValType}
    (typed : stack.map Val.type = ofWidth width :: ofWidth width :: ts) :
    ∃ a b rest, takeTwo width stack = some (a, b, rest) ∧ rest.map Val.type = ts := by
  obtain ⟨second, others, rfl, isSecond, later⟩ := List.map_eq_cons_iff.mp typed
  obtain ⟨first, rest, rfl, isFirst, below⟩ := List.map_eq_cons_iff.mp later
  obtain ⟨b, hb⟩ := as_of_type isSecond
  obtain ⟨a, ha⟩ := as_of_type isFirst
  refine ⟨a, b, rest, ?_, below⟩
  rw [takeTwo, ha, hb]

section
variable {m : Values} {vars ts : List ValType} (typed : HasTypes m vars ts) {i : Nat} {t : ValType}
  (known : vars[i]? = some t)
include typed known

theorem HasTypes.get : ∃ v, m.locals[i]? = some v ∧ Val.type v = t := by
  rw [← typed.locals, List.getElem?_map] at known
  exact Option.map_eq_some_iff.mp known

/-- A variable keeps its type in an assignment. -/
theorem HasTypes.set {v : Val} (same : Val.type v = t) :
    (m.locals.set i v).map Val.type = vars := by
  obtain ⟨inside, rfl⟩ := List.getElem?_eq_some_iff.mp known
  rw [List.map_set, typed.locals, same]
  exact List.set_getElem_self inside

end

/-- A typed instruction has a meaning, and its operands are there. -/
theorem typed_evalOp {vars results ts us : List ValType} {o : Op} {rest : Seq} (stays : o ≠ .ret)
    (typed : Typed vars results (.op o rest) ts us) {m : Values} (has : HasTypes m vars ts) :
    Op.takes o ≤ ts.length ∧ ∃ m' ts', evalOp o m = some m' ∧ Typed vars results rest ts' us ∧
      HasTypes m' vars ts' := by
  obtain ⟨locals, stack⟩ := has
  cases typed with
  | ret later => exact absurd rfl stays
  | nop later => exact ⟨Nat.zero_le _, m, _, rfl, later, locals, stack⟩
  | get known later =>
    obtain ⟨v, here, isType⟩ := HasTypes.get ⟨locals, stack⟩ known
    refine ⟨Nat.zero_le _, { m with stack := v :: m.stack }, _, ?_, later, locals, ?_⟩
    · rw [evalOp, here]
      rfl
    · rw [List.map_cons, isType, stack]
  | set known later =>
    obtain ⟨old, here, oldType⟩ := HasTypes.get ⟨locals, stack⟩ known
    obtain ⟨v, rest, top, isType, below⟩ := List.map_eq_cons_iff.mp stack
    have same : v.width = old.width := ofWidth_inj (isType.trans oldType.symm)
    refine ⟨Nat.le_add_left _ _, ⟨m.locals.set _ v, rest⟩, _, ?_, later,
      HasTypes.set ⟨locals, stack⟩ known isType, below⟩
    rw [evalOp, top, here]
    exact if_pos same
  | tee known later =>
    obtain ⟨old, here, oldType⟩ := HasTypes.get ⟨locals, stack⟩ known
    obtain ⟨v, rest, top, isType, below⟩ := List.map_eq_cons_iff.mp stack
    have same : v.width = old.width := ofWidth_inj (isType.trans oldType.symm)
    refine ⟨Nat.le_add_left _ _, { m with locals := m.locals.set _ v }, _, ?_, later,
      HasTypes.set ⟨locals, stack⟩ known isType, stack⟩
    rw [evalOp, top, here]
    exact if_pos same
  | i32const later =>
    exact ⟨Nat.zero_le _, _, _, rfl, later, locals, by rw [List.map_cons, stack]; rfl⟩
  | i64const later =>
    exact ⟨Nat.zero_le _, _, _, rfl, later, locals, by rw [List.map_cons, stack]; rfl⟩
  | @compare width c _ _ _ later =>
    obtain ⟨a, b, rest, two, below⟩ := takeTwo_of_types stack
    let bit : Value .w := if compareBits c a b then 1 else 0
    refine ⟨Nat.le_add_left _ _, { m with stack := ⟨.w, bit⟩ :: rest }, _, ?_, later, locals, ?_⟩
    · rw [evalOp, two]
      rfl
    · rw [List.map_cons, below]
      rfl
  | @arith width c _ _ _ later =>
    obtain ⟨a, b, rest, two, below⟩ := takeTwo_of_types stack
    refine ⟨Nat.le_add_left _ _, { m with stack := ⟨width, arithBits c a b⟩ :: rest }, _, ?_, later,
      locals, ?_⟩
    · rw [evalOp, two]
      rfl
    · rw [List.map_cons, below]
      rfl

/-- A valid sequence without a `return` has a meaning, and stores in the slots from the height it
begins at on, at most one for each instruction. -/
theorem typed_evalOps {vars results : List ValType} {ops : List Op} {ts us : List ValType}
    (stays : ∀ o ∈ ops, o ≠ .ret) (typed : Typed vars results (before ops .nil) ts us) {m : Values}
    (has : HasTypes m vars ts) {n : Nat} (room : ts.length + ops.length ≤ n) :
    (∃ m', evalOps ops m = some m' ∧ HasTypes m' vars us) ∧
      StoresIn 0 n (before ops .nil) ts.length fun _ => True := by
  induction ops generalizing ts m with
  | nil =>
    cases typed
    exact ⟨⟨m, rfl, has⟩, trivial⟩
  | cons o ops ih =>
    obtain ⟨first, later⟩ := List.forall_mem_cons.mp stays
    obtain ⟨enough, middle, ts', runs, typed', has'⟩ := typed_evalOp first typed has
    have height := evalOp_height runs
    rw [has.length, has'.length] at height
    have small := effect_le_one o
    rw [List.length_cons] at room
    obtain ⟨⟨m', meaning, final⟩, stores⟩ := ih later typed' has' (by omega)
    refine ⟨⟨m', ?_, final⟩, fun pushes => ?_, ?_⟩
    · exact (congrArg (Option.bind · (evalOps ops)) runs).trans meaning
    · have := op_pushes o pushes
      omega
    · rwa [height] at stores

/-! ### The values at the start of the body -/

/-- What a param has: its argument. -/
def argument (v : wasm_type) : Val := ⟨widthOf (varRegType v), (argValue v).setWidth _⟩

/-- What a local has: zero. -/
def zero (v : wasm_type) : Val := ⟨widthOf (varRegType v), 0⟩

/-- The arguments and zeros, and an empty operand stack. -/
def start (params locals : List wasm_type) : Values :=
  ⟨params.map argument ++ locals.map zero, []⟩

theorem start_locals (params locals : List wasm_type) (i : Nat) :
    (start params locals).locals[i]? =
      (params ++ locals)[i]?.map (if i < params.length then argument else zero) := by
  rw [start]
  by_cases isParam : i < params.length
  · rw [if_pos isParam, List.getElem?_append_left (by rwa [List.length_map]),
      List.getElem?_append_left isParam, List.getElem?_map]
  · have behind := Nat.le_of_not_lt isParam
    rw [if_neg isParam, List.getElem?_append_right (by rwa [List.length_map]),
      List.getElem?_append_right behind, List.getElem?_map, List.length_map]

section
variable {params locals : List wasm_type} (small : frameSize params locals ≤ 4080)
  {base : BitVec 64} {n : Nat} {s : State}
include small

/-- The frame record and the marks of `setjmp` are apart from the variables. -/
theorem entered_value
    (apart : Apart (s.x 19) areaSize (stackBottom params locals s) (stackReach params locals))
    {slot : Slot} (hs : slot ∈ frameOf params locals) :
    valueOf (entered params locals base n s) slot = valueOf (framed params locals s) slot := by
  obtain ⟨-, -, -, sp, mem⟩ := entered_eq small base n s
  obtain ⟨-, framedSp, -⟩ := framed_eq small s
  obtain ⟨-, -, -, -, markedMem⟩ := marked_eq small base n s
  obtain ⟨-, area, -, callingMem⟩ := calling_eq small s
  obtain ⟨-, others, -, -⟩ := called_eq params locals base n s
  have buffer : (called params locals base n s).x 0 = s.x 19 := (others 0 (by decide)).trans area
  have within := slot_within small (s.sp - sizeBytes params locals) slot hs
  have reach : stackReach params locals = 32 + frameReach params locals := rfl
  have fits := fits_of_apart apart (by decide)
  have record : ∀ d : Nat, d + 8 ≤ 32 →
      Apart (slotAddr (s.sp - sizeBytes params locals) slot) slot.width.bytes
        (stackBottom params locals s + BitVec.ofNat 64 d) 8 := by
    intro d low
    have ranges := apart_of_offsets (a := stackBottom params locals s) (d := 32)
      (n := frameReach params locals) (e := d) (k := 8) (Or.inr low) (by omega)
    rw [← stack_split] at ranges
    exact ranges.mono within (within_refl _ _)
  have first := record 0 (by decide)
  rw [show stackBottom params locals s + BitVec.ofNat 64 0 = stackBottom params locals s from
    BitVec.add_zero _] at first
  have bytes := bytes_small slot.width
  rw [valueOf, valueOf, sp, framedSp, mem, markedMem]
  refine read_congr (by omega) (.trans (puts_apart _ ?_) ?_)
  · rw [buffer]
    exact apart.symm.mono (within.trans (frame_inside small s)) (within_refl _ _)
  · rw [callingMem]
    exact (write_apart _ _ (record 8 (by decide))).trans (write_apart _ _ first)

theorem framed_init (s : State) :
    framed params locals s = execAll (initBlock params locals) (sunk params locals s) := by
  rw [framed, frameBlock, execAll_cons, exec_subSp small]
  rfl

variable (paramInts : ∀ v ∈ params, isFloat v = false)
  (localInts : ∀ v ∈ locals, isFloat v = false) (unshared : Unshared params locals)
include paramInts localInts unshared

/-- Each variable has what its register had, or zero. -/
theorem framed_value {i : Nat} {v : wasm_type} {slot : Slot} {r : Reg}
    (here : (params ++ locals)[i]? = some v) (isSlot : (frameOf params locals)[i]? = some slot)
    (stored : (initRegs params locals)[i]? = some r) (s : State) :
    Val.mk slot.width (valueOf (framed params locals s) slot) =
      ⟨widthOf (varRegType v), (s.reg (widthOf (varRegType v)) r).setWidth _⟩ := by
  have width : slot.width = widthOf (varRegType v) := by
    rw [frameOf_unit paramInts localInts small, here] at isSlot
    cases isSlot
    exact unitSlot_width _ _
  have apart := vars_apart paramInts localInts small unshared (sunk params locals s).sp
  rw [framed_init small, init_value localInts apart isSlot stored, width]
  rfl

end

theorem int_type {v : wasm_type} (int : isFloat v = false) :
    ofWidth (widthOf (varRegType v)) = typeOf v := by
  cases v with
  | i32 _ | i64 _ => rfl
  | f32 _ | f64 _ => cases int

theorem int_types {params locals : List wasm_type} (ints : ∀ v ∈ params, isFloat v = false)
    (ints' : ∀ v ∈ locals, isFloat v = false) :
    HasTypes (start params locals) ((params ++ locals).map typeOf) [] := by
  refine ⟨?_, rfl⟩
  rw [start, List.map_append, List.map_append, List.map_map, List.map_map]
  congr 1
  · exact List.map_congr_left fun v hv => int_type (ints v hv)
  · exact List.map_congr_left fun v hv => int_type (ints' v hv)

/-! ### The entry of a call -/

section
variable {code : List Word} {instrs : List Instr} {target : String → Int}
  {params locals results : List wasm_type} {body : Seq}
  (callable : Callable code instrs target params locals results body)
  (few : params.length ≤ 19) (ints : ∀ v ∈ params, isFloat v = false)
  (ints' : ∀ v ∈ locals, isFloat v = false) (unshared : Unshared params locals)
  {base : BitVec 64} {hi : Int} {s : State} (arranged : Arranged code base params locals 0 hi s)
include callable few ints ints' unshared arranged

theorem unshared_represents :
    Represents (frameOf params locals) (start params locals) (bodyState params locals base s) := by
  obtain ⟨-, empty, -⟩ := bodyState_eq callable few ints base s
  obtain ⟨-, -, -, values, -⟩ := atEntry_eq few ints s
  have apart := (bufferApart_of_arranged few ints arranged).stack
  refine ⟨empty, fun k v hv => absurd hv (by simp [start]), ?_⟩
  apply List.ext_getElem?
  intro i
  rw [List.getElem?_map, start_locals]
  have units := frameOf_unit ints ints' callable.small i
  cases here : (params ++ locals)[i]? with
  | none =>
    rw [here] at units
    rw [units]
    rfl
  | some v =>
    rw [here] at units
    obtain ⟨slot, isSlot⟩ : ∃ slot, (frameOf params locals)[i]? = some slot := ⟨_, units⟩
    have kept : valueOf (bodyState params locals base s) slot =
        valueOf (framed params locals (atEntry params s)) slot :=
      entered_value callable.small apart (List.mem_of_getElem? isSlot)
    have value : ∀ r, (initRegs params locals)[i]? = some r → _ := fun r stored =>
      framed_value callable.small ints ints' unshared here isSlot stored (atEntry params s)
    rw [isSlot, Option.map_some, Option.map_some, kept]
    by_cases isParam : i < params.length
    · rw [value _ (initRegs_param ints isParam), if_pos isParam]
      rw [List.getElem?_append_left isParam] at here
      have general : BitVec.ofNat 5 i ≠ 31 := by
        intro same
        have number := congrArg BitVec.toNat same
        rw [BitVec.toNat_ofNat] at number
        change i % 2 ^ 5 = 31 at number
        omega
      rw [reg_of_ne general, values i v here, narrow_truncate (Nat.le_refl _)]
      rfl
    · have known := (List.getElem?_eq_some_iff.mp here).1
      rw [List.length_append] at known
      rw [value _ (initRegs_local (Nat.le_of_not_lt isParam) known), if_neg isParam, State.reg,
        if_pos rfl]
      exact congrArg (fun b => some (Val.mk _ b)) (BitVec.setWidth_zero _ _).symm

/-- The variables are apart from each other and from the operand stack. -/
theorem unshared_spread (n : Nat) (enough : n ≤ hi) :
    Spread (frameOf params locals) ((bodyState params locals base s).x 20)
      (bodyState params locals base s).sp n := by
  obtain ⟨stack, -, sp⟩ := bodyState_eq callable few ints base s
  have entrySp := (atEntry_registers (show params.length ≤ 32 by omega) ints s).2.2.1
  have bottom : stackBottom params locals (atEntry params s) = stackBottom params locals s := by
    rw [stackBottom, stackBottom, entrySp]
  rw [stack, sp]
  constructor
  · exact vars_apart ints ints' callable.small unshared _
  · intro slot hs k below
    have frame := (slot_within callable.small _ slot hs).trans
      (frame_inside callable.small (atEntry params s))
    rw [bottom] at frame
    have inside : Within (s.x 1 + depth k) 8 (s.x 1 + depth 0) (8 * (hi - 0)).toNat :=
      slot_inside (by omega) (by omega) (fits_of_apart arranged.buffer (by decide)) .x
    exact arranged.operands.symm.mono frame inside

end

/-! ### Variables of one type -/

def AllI32 (vs : List wasm_type) : Prop := ∀ v ∈ vs, typeOf v = .i32

instance (vs : List wasm_type) : Decidable (AllI32 vs) :=
  inferInstanceAs (Decidable (∀ v ∈ vs, typeOf v = .i32))

theorem AllI32.width {vs : List wasm_type} (all : AllI32 vs) {v : wasm_type} (hv : v ∈ vs) :
    widthOf (varRegType v) = .w := by
  have isI32 := all v hv
  cases v with
  | i32 v => rfl
  | i64 v | f32 v | f64 v => cases isI32

theorem AllI32.ints {vs : List wasm_type} (all : AllI32 vs) : ∀ v ∈ vs, isFloat v = false := by
  intro v hv
  have isI32 := all v hv
  cases v with
  | i32 v => rfl
  | i64 v | f32 v | f64 v => cases isI32

section
variable {params locals : List wasm_type} (allParams : AllI32 params) (allLocals : AllI32 locals)
include allParams allLocals

theorem allI32_append : AllI32 (params ++ locals) := by
  intro v hv
  rcases List.mem_append.mp hv with hv | hv
  · exact allParams v hv
  · exact allLocals v hv

theorem unshared_of_i32 : Unshared params locals := by
  intro i j v w _ hi hj _
  have all := allI32_append allParams allLocals
  exact ⟨all.width (List.mem_of_getElem? hi), all.width (List.mem_of_getElem? hj)⟩

theorem start_types : HasTypes (start params locals) ((params ++ locals).map typeOf) [] :=
  int_types allParams.ints allLocals.ints

end

/-! ### The call -/

section
variable {code : List Word} {instrs : List Instr} {target : String → Int}
  {params locals results : List wasm_type} {body : Seq}
  (callable : Callable code instrs target params locals results body)
  (few : params.length ≤ 8) (allParams : AllI32 params) (allLocals : AllI32 locals)
  {base : BitVec 64} {hi : Int} {s : State} (arranged : Arranged code base params locals 0 hi s)
include callable few allParams allLocals arranged

theorem entry_represents :
    Represents (frameOf params locals) (start params locals) (bodyState params locals base s) :=
  unshared_represents callable (by omega) allParams.ints allLocals.ints
    (unshared_of_i32 allParams allLocals) arranged

/-- The variables are apart from each other and from the operand stack. -/
theorem entry_spread (n : Nat) (enough : n ≤ hi) :
    Spread (frameOf params locals) ((bodyState params locals base s).x 20)
      (bodyState params locals base s).sp n :=
  unshared_spread callable (by omega) allParams.ints allLocals.ints
    (unshared_of_i32 allParams allLocals) arranged n enough

end

/-- The call comes back to its caller with the return code zero, and with the value on top of the
stack, if there is one, in `x0`. -/
def Returns (code : List Word) (base : BitVec 64) (s : State) (stack : List Val) : Prop :=
  ∃ trace u, Complete (step code base) ⟨base, s⟩ trace ⟨s.x 30, u⟩ ∧ u.sp = s.sp ∧
    read 64 u.mem (s.x 0) 8 = 0 ∧ ∀ v rest, stack = v :: rest → u.x 0 = v.value.setWidth 64

theorem width_of_type {r : wasm_type} (int : isFloat r = false) {v : Val}
    (typed : Val.type v = typeOf r) : widthOf (varRegType r) = v.width := by
  cases r with
  | i32 _ => exact ofWidth_inj (a := .w) typed.symm
  | i64 _ => exact ofWidth_inj (a := .x) typed.symm
  | f32 _ | f64 _ => cases int

section
variable {code : List Word} {instrs : List Instr} {target : String → Int}
  {params locals results : List wasm_type} {ops : List Op}
  (callable : Callable code instrs target params locals results (before ops .nil))
  (few : params.length ≤ 8) (allParams : AllI32 params) (allLocals : AllI32 locals)
  {base : BitVec 64} {hi : Int} {s : State} (arranged : Arranged code base params locals 0 hi s)
  (plain : ∀ o ∈ ops, Op.Plain o) (enough : ops.length ≤ hi) {m : Values}
  (runs : evalOps ops (start params locals) = some m)
include callable few allParams allLocals arranged plain enough runs

/-- At the end of the body the machine represents the values WebAssembly has. -/
theorem body_represents (short : ops.length ≤ 2 ^ 60) :
    (callWalk params locals (before ops .nil) base s).trapped = false ∧
      Represents (frameOf params locals) m
        (callWalk params locals (before ops .nil) base s).state := by
  obtain ⟨offset, height, through, state⟩ := walk_before (frameOf params locals) base ops .nil 0 0
    (functionStart params + bodyStart params locals) (bodyState params locals base s)
  refine ⟨through, ?_⟩
  rw [show (callWalk params locals (before ops .nil) base s).state = _ from state]
  exact ops_represents (entry_represents callable few allParams allLocals arranged)
    (entry_spread callable few allParams allLocals arranged ops.length enough) (by simp [start])
    short plain runs

/-- The epilogue pops the one entry that is left to `x0`. -/
theorem result_popped (short : ops.length ≤ 2 ^ 60) (some : 0 < hi)
    (kept : Kept ((atEntry params s).x 19) areaSize (bodyState params locals base s)
      (callWalk params locals (before ops .nil) base s)) {r : wasm_type} (single : results = [r])
    (int : isFloat r = false) {v : Val} (one : m.stack = [v]) (typed : Val.type v = typeOf r) :
    (callEnd params locals results (before ops .nil) base s).x 0 = v.value.setWidth 64 := by
  obtain ⟨through, represents⟩ :=
    body_represents callable few allParams allLocals arranged plain enough runs short
  let t := (callWalk params locals (before ops .nil) base s).state
  have ints := allParams.ints
  obtain ⟨buffer, -⟩ := atEntry_eq (show params.length ≤ 19 by omega) ints s
  have machine := (bufferApart_of_arranged (by omega) ints arranged).stack
  have area : t.x 19 = s.x 0 := (bodyWalk_eq callable.small machine kept).1.trans buffer
  have stack : t.x 20 = s.x 1 := (kept.keeps.x 20 (by decide)).trans
    (bodyState_eq callable (by omega) ints base s).1
  have place : entryAddr t 0 = s.x 1 + depth 0 := by
    have lower := lower_address represents.pointer (k := 1) (by rw [one]; exact Nat.le_refl 1)
    rw [one, stack] at lower
    exact lower
  have apart : Apart (t.x 19) 8 (entryAddr t 0) 8 := by
    rw [area, place]
    have first := within_of_offset (a := s.x 0) (n := areaSize) (d := 0) (k := 8) (by decide)
      (by decide)
    rw [show s.x 0 + BitVec.ofNat 64 0 = s.x 0 from BitVec.add_zero _] at first
    exact arranged.buffer.mono first
      (slot_inside (Int.le_refl 0) some (fits_of_apart arranged.buffer (by decide)) .x)
  rw [callEnd, finalState, exitState, ← callWalk, through, if_neg Bool.false_ne_true, single,
    left_result callable.small (by decide), returned_operand apart, width_of_type int typed,
    represents.stack 0 v (by rw [one]; rfl)]

end

theorem turns_before (ops : List Op) : (before ops .nil).turns = ops.length := by
  induction ops with
  | nil => rfl
  | cons o ops ih =>
    have first : (before (o :: ops) .nil).turns = 1 + (before ops .nil).turns := rfl
    rw [first, ih, List.length_cons, Nat.add_comm]

/-- Straight-line code on `i32` variables keeps its meaning: it has one, and every call returns its
result. -/
theorem meaning_preserved {params results : List wasm_type} {groups : List Group} {ops : List Op}
    {order : WasmFunction.VisitOrder} {g : WasmFunction} (few : params.length ≤ 8)
    (allParams : AllI32 params) (allLocals : AllI32 (groups.flatMap groupLocals))
    (single : results.length ≤ 1) (plain : ∀ o ∈ ops, o ≠ .ret ∧ Op.Plain o)
    (valid : Valid params (groups.flatMap groupLocals) results (before ops .nil))
    (size_byte : BranchFixup.bodySize groups (before ops .nil) ≤ 255)
    (done : funcSingleProcess (delivered params results groups (before ops .nil)) order = .ok g) :
    ∃ code m, loadWords (full_instructions g) = .ok code ∧
      evalOps ops (start params (groups.flatMap groupLocals)) = some m ∧
      m.stack.map Val.type = results.map typeOf ∧
      ∀ base s, Arranged code base params (groups.flatMap groupLocals) 0 1024 s →
        Returns code base s m.stack := by
  have short : ops.length ≤ 255 := by
    have turns := (before ops .nil).turns_le_bytes
    rw [turns_before] at turns
    rw [BranchFixup.bodySize] at size_byte
    omega
  have once : (before ops .nil).divisions ≤ 1 := by
    rw [divisions_before]
    exact Nat.zero_le 1
  obtain ⟨code, instrs, target, loads, callable, -, intResults⟩ :=
    callable_of_funcSingleProcess size_byte once done
  have types := start_types allParams allLocals
  obtain ⟨⟨m, runs, final⟩, inside⟩ := typed_evalOps (fun o ho => (plain o ho).1) valid types
    (n := 1024) (by rw [List.length_nil]; omega)
  have results_eq : m.stack.map Val.type = results.map typeOf := by
    rw [final.stack]
    rcases results with _ | ⟨r, _ | ⟨r', later⟩⟩
    · rfl
    · rfl
    · simp at single
  refine ⟨code, m, loads, runs, results_eq, fun base s arranged => ?_⟩
  have ints := allParams.ints
  have enough : (ops.length : Int) ≤ 1024 := by omega
  have plain' : ∀ o ∈ ops, Op.Plain o := fun o ho => (plain o ho).2
  have kept := callWalk_kept callable (by omega) ints inside arranged
  have narrow : results.length ≤ 29 := by omega
  obtain ⟨through, -⟩ :=
    body_represents callable few allParams allLocals arranged plain' enough runs
    (by omega)
  obtain ⟨-, -, sp, returnCode⟩ := callEnd_eq callable (by omega) ints arranged kept narrow
  rw [through, if_neg Bool.false_ne_true] at returnCode
  refine ⟨_, _, complete_call callable (by omega) ints arranged kept narrow, sp, returnCode, ?_⟩
  intro v rest top
  rw [top, List.map_cons] at results_eq
  obtain ⟨r, later, rfl, typed, below⟩ := List.map_eq_cons_iff.mp results_eq.symm
  rw [List.length_cons] at single
  obtain rfl : later = [] := List.length_eq_zero_iff.mp (by omega)
  obtain rfl : rest = [] := List.map_eq_nil_iff.mp below.symm
  exact result_popped callable few allParams allLocals arranged plain' enough runs (by omega)
    (by decide) kept rfl (intResults r (by simp)) top typed.symm

/-- `local.get 0; i32.const 3; i32.add; local.tee 1; local.get 1; i32.mul`. -/
def squares : List Op :=
  [.localVar .get 0, .i32const 3, .arith .w .add, .localVar .tee 1, .localVar .get 1,
    .arith .w .mul]

/-- Called with five it returns the square of eight. -/
theorem meaning_preserved_squares : ∃ g code,
    funcSingleProcess (delivered [.i32 5] [.i32 0] [(1, 0x7f)] (before squares .nil))
        BranchFixup.inOrder = .ok g ∧
      loadWords (full_instructions g) = .ok code ∧
      ∃ trace u, Complete (step code 0x100000) ⟨0x100000, sampleCall⟩ trace ⟨0x80000, u⟩ ∧
        read 64 u.mem 0x10000 8 = 0 ∧ u.x 0 = 64 := by
  obtain ⟨g, done⟩ := BranchFixup.ok_of_isOk (show (funcSingleProcess
    (delivered [.i32 5] [.i32 0] [(1, 0x7f)] (before squares .nil)) BranchFixup.inOrder).isOk =
      true by decide +kernel)
  obtain ⟨code, instrs, target, loads, callable, -⟩ :=
    callable_of_funcSingleProcess (by decide) (by decide) done
  have valid : Valid [.i32 5] ([(1, 0x7f)].flatMap groupLocals) [.i32 0] (before squares .nil) :=
    .get rfl (.i32const (.arith (.tee rfl (.get rfl (.arith .nil)))))
  obtain ⟨code', m, loads', runs, -, returns⟩ := meaning_preserved (by decide) (by decide)
    (by decide) (by decide) (by decide) valid (by decide) done
  cases loads.symm.trans loads'
  have arranged := sampleCall_arranged callable.small callable.placed.loaded.short
    (s := sampleCall) ⟨rfl, rfl, rfl⟩ rfl
  obtain ⟨trace, u, complete, -, returnCode, value⟩ := returns _ _ arranged
  refine ⟨g, _, done, loads, trace, u, complete, returnCode, ?_⟩
  have meaning : evalOps squares (start [.i32 5] [.i32 0]) =
      some ⟨[⟨.w, 5⟩, ⟨.w, 8⟩], [⟨.w, 64⟩]⟩ := by decide
  cases meaning.symm.trans runs
  exact value _ _ rfl

end PreservedMeaning
