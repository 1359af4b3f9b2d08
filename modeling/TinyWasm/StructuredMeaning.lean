import TinyWasm.BlockSemantics
import TinyWasm.CallFootprint
import TinyWasm.PreservedMeaning

/-!
# Structured code keeps its meaning

A call does what its body means under the rules of the compiler. Where every `if`
stands alone on the stack of its block, no division is unsigned and every
constant is below 64, these rules and those of WebAssembly agree on what is on
the stack of each block, so the call returns the result WebAssembly gives it.
-/

namespace StructuredMeaning

open HexText Opcode Wasm Emit ArmInstruction ByteMemory StepRuns ArmMachine BlockEffects
open LocalDeclarations SourceBody EncoderCorrectness CodeItems FrameSpec StructuredRun CodeLayout
open BodyFrame FrameEffects OperandStack CallStubs EntryRun ExitRun FunctionRun FunctionCall CallRun
open StackAccesses OperandSupply StackSafety DivisionRun WasmSemantics BodySimulation
open BlockSemantics Validation EarlyReturn VariableAliasing PreservedMeaning CallFootprint

/-! ### Where the rules agree -/

/-- From height `h` on its block's stack on, the sequence is one on which the rules of WebAssembly
and of the compiler agree. -/
def Agreeing : Seq → Int → Prop
  | .nil, _ => True
  | .op o rest, h => Op.Plain o ∧ Agreeing rest (h + Op.effect o)
  | .div _ signed rest, h => signed = true ∧ Agreeing rest (h - 1)
  | .ifThen block thn rest, h => h = 1 ∧ Agreeing thn 0 ∧ Agreeing rest (BlockType.arity block)
  | .ifElse block thn els rest, h =>
    h = 1 ∧ Agreeing thn 0 ∧ Agreeing els 0 ∧ Agreeing rest (BlockType.arity block)

/-- Two machines with the same variables and the same stack of the block they are in, on top of
whatever each has below. -/
def Shares (vars ts : List ValType) (below : List Val) (m m' : Values) : Prop :=
  ∃ own junk, HasTypes ⟨m.locals, own⟩ vars ts ∧ m.stack = own ++ below ∧
    m' = ⟨m.locals, own ++ junk⟩

theorem takeTwo_append {width : Width} {stack rest : List Val} {a b : Value width}
    (two : takeTwo width stack = some (a, b, rest)) (below : List Val) :
    takeTwo width (stack ++ below) = some (a, b, rest ++ below) := by
  rw [takeTwo_eq two]
  simp [takeTwo, Val.as]

/-- An instruction with a meaning does not look below its operands. -/
theorem evalOp_append {o : Op} {vars own vars' own' : List Val}
    (runs : evalOp o ⟨vars, own⟩ = some ⟨vars', own'⟩) (below : List Val) :
    evalOp o ⟨vars, own ++ below⟩ = some ⟨vars', own' ++ below⟩ := by
  cases o with
  | nop =>
    cases runs
    rfl
  | ret => cases runs
  | localVar opType index =>
    cases opType with
    | get =>
      rw [evalOp] at runs ⊢
      obtain ⟨v, here, grown⟩ := Option.bind_eq_some_iff.mp runs
      cases grown
      exact Option.bind_eq_some_iff.mpr ⟨v, here, rfl⟩
    | set | tee =>
      rw [evalOp] at runs
      split at runs
      · rename_i v rest old top here
        split_ifs at runs with typed
        cases runs
        cases top
        rw [evalOp]
        simp only [List.cons_append, here, if_pos typed]
      · cases runs
  | i32const value | i64const value =>
    cases runs
    rfl
  | compare width c | arith width c =>
    rw [evalOp] at runs ⊢
    obtain ⟨⟨a, b, rest⟩, two, grown⟩ := Option.bind_eq_some_iff.mp runs
    cases grown
    exact Option.bind_eq_some_iff.mpr ⟨_, takeTwo_append two below, rfl⟩

section
variable {vars results : List ValType} {below : List Val} {m m' : Values}

theorem op_agrees {ts us : List ValType} {o : Op} {rest : Seq} (stays : o ≠ .ret)
    (plain : Op.Plain o) (typed : Typed vars results (.op o rest) ts us)
    (shares : Shares vars ts below m m') :
    ∃ ts', Typed vars results rest ts' us ∧ (ts'.length : Int) = ts.length + Op.effect o ∧
      Outcome.Matches (Shares vars ts' below) (Outcome.ofOption (wasm.op o m))
        (Outcome.ofOption (compiled.op o m')) := by
  obtain ⟨own, junk, has, stack, rfl⟩ := shares
  obtain ⟨-, ⟨vars', own'⟩, ts', runs, typed', has'⟩ := typed_evalOp stays typed has
  have height := evalOp_height runs
  rw [has.length, has'.length] at height
  refine ⟨ts', typed', height, ?_⟩
  have whole : m = ⟨m.locals, own ++ below⟩ := by rw [← stack]
  rw [wasm_op, compiled_op plain, evalOp_append runs, whole, evalOp_append runs]
  exact .done ⟨own', junk, has', rfl, rfl⟩

theorem divide_agrees {ts : List ValType} {width : Width}
    (shares : Shares vars (ofWidth width :: ofWidth width :: ts) below m m') :
    Outcome.Matches (Shares vars (ofWidth width :: ts) below) (wasm.divide width true m)
      (compiled.divide width true m') := by
  obtain ⟨own, junk, has, stack, rfl⟩ := shares
  obtain ⟨a, b, rest, two, below'⟩ := takeTwo_of_types has.stack
  have refuses : wasm.refuses true a b = compiled.refuses true a b :=
    decide_eq_decide.mpr (or_congr Iff.rfl (and_iff_right rfl))
  rw [Rules.divide, Rules.divide, stack, takeTwo_append two, takeTwo_append two]
  simp only [refuses]
  by_cases refused : compiled.refuses true a b = true
  · rw [if_pos refused, if_pos refused]
    exact .trap
  · rw [if_neg refused, if_neg refused]
    refine .done ⟨⟨width, quotientOf true a b⟩ :: rest, junk, ⟨has.locals, ?_⟩, rfl, rfl⟩
    rw [List.map_cons, below']
    rfl

/-- With nothing else on the stack of the block, the condition WebAssembly takes off is what the
compiled code leaves behind. -/
theorem test_agrees (shares : Shares vars [.i32] below m m') :
    Outcome.Matches (fun taken taken' => taken.1 = taken'.1 ∧ Shares vars [] below taken.2 taken'.2)
      (wasm.test m) (compiled.test m') := by
  obtain ⟨own, junk, has, stack, rfl⟩ := shares
  obtain ⟨v, rest, rfl, isType, none⟩ := List.map_eq_cons_iff.mp has.stack
  obtain rfl := List.map_eq_nil_iff.mp none
  obtain ⟨c, value⟩ : ∃ c, v.as .w = some c := as_of_type isType
  rw [Rules.test, Rules.test, stack]
  simp only [List.cons_append, List.nil_append, value]
  exact .done ⟨rfl, [], v :: junk, ⟨has.locals, rfl⟩, rfl, rfl⟩

end

/-- Both rules give a valid sequence the same meaning, by induction on the sequence. -/
theorem eval_agrees {vars results ts us : List ValType} (seq : Seq)
    (typed : Typed vars results seq ts us) (free : ReturnFree seq)
    (agreeing : Agreeing seq ts.length) {below : List Val} {m m' : Values}
    (shares : Shares vars ts below m m') :
    Outcome.Matches (Shares vars us below) (wasm.eval seq m) (compiled.eval seq m') := by
  induction seq generalizing ts us m m' with
  | nil =>
    cases typed
    exact .done shares
  | op o rest ih =>
    obtain ⟨plain, later⟩ := agreeing
    obtain ⟨ts', typed', height, same⟩ := op_agrees free.1 plain typed shares
    rw [← height] at later
    exact same.andThen fun x y shares => ih typed' free.2 later shares
  | div width signed rest ih =>
    obtain ⟨rfl, later⟩ := agreeing
    cases typed with
    | div typed' =>
      refine (divide_agrees shares).andThen fun x y shares => ih typed' free ?_ shares
      simpa using later
  | ifThen block thn rest ihThn ihRest =>
    obtain ⟨alone, inThen, later⟩ := agreeing
    cases typed with
    | ifThen typedThen typedRest =>
      obtain rfl := List.length_eq_zero_iff.mp (show List.length _ = 0 by simpa using alone)
      refine (test_agrees shares).andThen ?_
      rintro ⟨taken, x⟩ ⟨-, y⟩ ⟨rfl, shares⟩
      refine Outcome.Matches.andThen (R := Shares vars [] below) ?_
        fun x y shares => ihRest typedRest free.2 later shares
      cases taken with
      | false => exact .done shares
      | true => exact ihThn typedThen free.1 inThen shares
  | ifElse block thn els rest ihThn ihEls ihRest =>
    obtain ⟨alone, inThen, inElse, later⟩ := agreeing
    cases typed with
    | ifElse typedThen typedElse typedRest =>
      obtain rfl := List.length_eq_zero_iff.mp (show List.length _ = 0 by simpa using alone)
      have arity : BlockType.arity block =
          (BlockType.types block ++ ([] : List ValType)).length := by
        cases block <;> rfl
      rw [arity] at later
      rw [List.append_nil] at typedRest later
      refine (test_agrees shares).andThen ?_
      rintro ⟨taken, x⟩ ⟨-, y⟩ ⟨rfl, shares⟩
      refine Outcome.Matches.andThen (R := Shares vars (BlockType.types block) below) ?_
        fun x y shares => ihRest typedRest free.2.2 later shares
      cases taken with
      | false => exact ihEls typedElse free.2.1 inElse shares
      | true => exact ihThn typedThen free.1 inThen shares

/-! ### The call -/

/-- What a call does when its body has this meaning: it throws, or it comes back to its caller with
the return code zero and the value on top of the stack in `x0`, read with the type of the result. -/
def Does (code : List Word) (base : BitVec 64) (s : State) (results : List wasm_type) :
    Outcome Values → Prop
  | .stuck => True
  | .trap => Throws code base s
  | .done m => ¬ Throws code base s ∧ ∃ trace u,
    Complete (step code base) ⟨base, s⟩ trace ⟨s.x 30, u⟩ ∧ u.sp = s.sp ∧
      read 64 u.mem (s.x 0) 8 = 0 ∧ ∀ r v rest, results = [r] → m.stack = v :: rest →
        Val.type v = typeOf r → u.x 0 = v.value.setWidth 64

section
variable {code : List Word} {instrs : List Instr} {target : String → Int}
  {params locals results : List wasm_type} {body : Seq}
  (callable : Callable code instrs target params locals results body)
  (few : params.length ≤ 19) (ints : ∀ v ∈ params, isFloat v = false)
  (ints' : ∀ v ∈ locals, isFloat v = false) (unshared : Unshared params locals)
  {base : BitVec 64} {s : State} (arranged : Arranged code base params locals 0 1024 s)
include callable few ints ints' unshared arranged

/-- The walk through the body does what the rules of the compiler say. -/
theorem body_simulates (short : body.bytes.length ≤ 255) :
    Outcome.Simulates (fun m u => Represents (frameOf params locals) m u ∧ m.stack.length ≤ 255)
      (compiled.eval body (start params locals))
      (outcomeOf (callWalk params locals body base s)) := by
  have represents := unshared_represents callable few ints ints' unshared arranged
  have spread := unshared_spread callable few ints ints' unshared arranged 255 (by decide)
  have room : (start params locals).stack.length + body.bytes.length ≤ 255 := by simpa [start]
  refine (walk_follows (by decide) body represents spread room 0 0
    (functionStart params + bodyStart params locals)).mono fun m u carries => ?_
  exact ⟨carries.represents, carries.height.trans room⟩

omit ints' unshared in
/-- The epilogue pops the entry on top to `x0`. -/
theorem top_popped (kept : Kept ((atEntry params s).x 19) areaSize (bodyState params locals base s)
      (callWalk params locals body base s))
    (through : (callWalk params locals body base s).trapped = false) {m : Values}
    (represents : Represents (frameOf params locals) m (callWalk params locals body base s).state)
    (low : m.stack.length ≤ 255) {r : wasm_type} (single : results = [r])
    (int : isFloat r = false) {v : Val} {rest : List Val} (top : m.stack = v :: rest)
    (typed : Val.type v = typeOf r) :
    (callEnd params locals results body base s).x 0 = v.value.setWidth 64 := by
  let t := (callWalk params locals body base s).state
  obtain ⟨buffer, -⟩ := atEntry_eq few ints s
  have machine := (bufferApart_of_arranged few ints arranged).stack
  have area : t.x 19 = s.x 0 := (bodyWalk_eq callable.small machine kept).1.trans buffer
  have stack : t.x 20 = s.x 1 := (kept.keeps.x 20 (by decide)).trans
    (bodyState_eq callable few ints base s).1
  have some : 1 ≤ m.stack.length := by
    rw [top]
    simp
  have place : entryAddr t 0 = s.x 1 + depth ((m.stack.length - 1 : Nat) : Int) := by
    have lower := lower_address represents.pointer (k := 1) some
    rw [stack] at lower
    exact lower
  have apart : Apart (t.x 19) 8 (entryAddr t 0) 8 := by
    rw [area, place]
    have first := within_of_offset (a := s.x 0) (n := areaSize) (d := 0) (k := 8) (by decide)
      (by decide)
    rw [show s.x 0 + BitVec.ofNat 64 0 = s.x 0 from BitVec.add_zero _] at first
    exact arranged.buffer.mono first
      (slot_inside (by omega) (by omega) (fits_of_apart arranged.buffer (by decide)) .x)
  rw [callEnd, finalState, exitState, ← callWalk, through, if_neg Bool.false_ne_true, single,
    left_result callable.small (by decide), returned_operand apart, width_of_type int typed,
    represents.stack 0 v (by rw [top]; rfl)]

/-- A call does what its body means under the rules of the compiler. -/
theorem call_does (valid : Valid params locals results body) (free : ReturnFree body)
    (short : body.bytes.length ≤ 255) (narrow : results.length ≤ 21)
    (intResults : ∀ r ∈ results, isFloat r = false) :
    Does code base s results (compiled.eval body (start params locals)) := by
  have kept := call_kept callable few ints arranged valid free short
  have simulates := body_simulates callable few ints ints' unshared arranged short
  have narrow' : results.length ≤ 29 := by omega
  have throws := throws_iff callable few ints arranged kept narrow'
  obtain ⟨-, -, sp, returnCode⟩ := callEnd_eq callable few ints arranged kept narrow'
  by_cases trapped : (callWalk params locals body base s).trapped = true
  · rw [outcomeOf, if_pos trapped] at simulates
    cases meaning : compiled.eval body (start params locals) with
    | stuck => trivial
    | trap => exact throws.mpr trapped
    | done m =>
      rw [meaning] at simulates
      cases simulates (by simp)
  · rw [outcomeOf, if_neg trapped] at simulates
    rw [if_neg trapped] at returnCode
    cases meaning : compiled.eval body (start params locals) with
    | stuck => trivial
    | trap =>
      rw [meaning] at simulates
      cases simulates (by simp)
    | done m =>
      rw [meaning] at simulates
      cases simulates (by simp) with
      | done related =>
        obtain ⟨represents, low⟩ := related
        refine ⟨fun thrown => trapped (throws.mp thrown), _, _,
          complete_call callable few ints arranged kept narrow', sp, returnCode, ?_⟩
        intro r v rest single top typed
        exact top_popped callable few ints arranged kept (Bool.not_eq_true _ ▸ trapped) represents
          low single (intResults r (by rw [single]; simp)) top typed

end

/-- The call finds the result on top, whatever lies below the stack of the body. -/
theorem Does.of_matches {code : List Word} {base : BitVec 64} {s : State} {results : List wasm_type}
    {vars us : List ValType} {a b : Outcome Values} (same : Outcome.Matches (Shares vars us []) a b)
    (does : Does code base s results b) : Does code base s results a := by
  cases same with
  | trap => exact does
  | done shares =>
    obtain ⟨own, junk, -, stack, rfl⟩ := shares
    obtain ⟨quiet, trace, u, complete, sp, returnCode, value⟩ := does
    refine ⟨quiet, trace, u, complete, sp, returnCode, ?_⟩
    intro r v rest single top typed
    refine value r v (rest ++ junk) single ?_ typed
    rw [stack, List.append_nil] at top
    rw [top]
    rfl

/-- What agrees with the rules of the compiler is not stuck, and leaves values of the right
types. -/
theorem typed_of_matches {vars us : List ValType} {a b : Outcome Values}
    (same : Outcome.Matches (Shares vars us []) a b) :
    a ≠ .stuck ∧ ∀ m, a = .done m → m.stack.map Val.type = us := by
  constructor
  · rintro rfl
    cases same
  · rintro m rfl
    obtain ⟨-, -, own, -, has, stack, -⟩ := same.of_done
    rw [stack, List.append_nil, has.stack]

theorem reverse_of_single {results : List wasm_type} (single : results.length ≤ 1) :
    (results.map typeOf).reverse = results.map typeOf := by
  rcases results with _ | ⟨r, _ | ⟨r', later⟩⟩
  · rfl
  · rfl
  · simp at single

/-! ### Compiled functions -/

section
variable {params results : List wasm_type} {groups : List Group} {body : Seq}
  {order : WasmFunction.VisitOrder} {g : WasmFunction} (few : params.length ≤ 19)
  (localInts : ∀ v ∈ groups.flatMap groupLocals, isFloat v = false)
  (unshared : Unshared params (groups.flatMap groupLocals))
  (valid : Valid params (groups.flatMap groupLocals) results body) (free : ReturnFree body)
  (once : body.divisions ≤ 1) (size_byte : BranchFixup.bodySize groups body ≤ 255)
  (done : funcSingleProcess (delivered params results groups body) order = .ok g)
include few localInts unshared valid free once size_byte done

/-- A call of valid code does what its body means under the rules of the compiler: it throws where
that traps, and otherwise returns what that leaves on top of the stack. -/
theorem compiled_meaning (narrow : results.length ≤ 21) :
    ∃ code, loadWords (full_instructions g) = .ok code ∧
      ∀ base s, Arranged code base params (groups.flatMap groupLocals) 0 1024 s →
        Does code base s results
          (compiled.eval body (start params (groups.flatMap groupLocals))) := by
  obtain ⟨code, instrs, target, loads, callable, ints, intResults⟩ :=
    callable_of_funcSingleProcess size_byte once done
  have short := body_short size_byte
  exact ⟨code, loads, fun base s arranged => call_does callable few ints localInts unshared arranged
    valid free short narrow intResults⟩

/-- Where the rules agree a call does what WebAssembly says: it throws exactly when the body traps,
and otherwise returns its result. -/
theorem structured_meaning_preserved (single : results.length ≤ 1) (agreeing : Agreeing body 0) :
    ∃ code, loadWords (full_instructions g) = .ok code ∧
      let meaning := wasm.eval body (start params (groups.flatMap groupLocals))
      meaning ≠ .stuck ∧
      (∀ m, meaning = .done m → m.stack.map Val.type = results.map typeOf) ∧
      ∀ base s, Arranged code base params (groups.flatMap groupLocals) 0 1024 s →
        Does code base s results meaning := by
  obtain ⟨code, instrs, target, loads, callable, ints, intResults⟩ :=
    callable_of_funcSingleProcess size_byte once done
  have short := body_short size_byte
  let m := start params (groups.flatMap groupLocals)
  have shares : Shares ((params ++ groups.flatMap groupLocals).map typeOf) [] [] m m :=
    ⟨[], [], int_types ints localInts, rfl, rfl⟩
  have same := eval_agrees body valid free agreeing shares
  obtain ⟨meant, typed⟩ := typed_of_matches same
  refine ⟨code, loads, meant, fun m' meaning => ?_, fun base s arranged =>
    .of_matches same (call_does callable few ints localInts unshared arranged valid free short
      (by omega) intResults)⟩
  exact (typed m' meaning).trans (reverse_of_single single)

end

/-- Seven, five and a condition; then the sum of what is on top. -/
def addsBehindIf : Seq :=
  .op (.i32const 7) (.op (.i32const 5) (.op (.i32const 1)
    (.ifThen .void (.op .nop .nil) (.op (.arith .w .add) .nil))))

/-- The call adds five to the condition, where WebAssembly adds it to seven. -/
theorem compiled_meaning_adds : ∃ g code,
    funcSingleProcess (delivered [] [.i32 0] [] addsBehindIf) BranchFixup.inOrder = .ok g ∧
      loadWords (full_instructions g) = .ok code ∧
      wasm.eval addsBehindIf (start [] []) = .done ⟨[], [⟨.w, 12⟩]⟩ ∧
      ∃ trace u, Complete (step code 0x100000) ⟨0x100000, sampleCall⟩ trace ⟨0x80000, u⟩ ∧
        u.x 0 = 6 := by
  obtain ⟨g, done⟩ := BranchFixup.ok_of_isOk (show (funcSingleProcess
    (delivered [] [.i32 0] [] addsBehindIf) BranchFixup.inOrder).isOk = true by decide +kernel)
  have valid : Valid [] [] [.i32 0] addsBehindIf :=
    .i32const (.i32const (.i32const (.ifThen (.nop .nil) (.arith .nil))))
  have free : ReturnFree addsBehindIf := by simp [ReturnFree, addsBehindIf]
  obtain ⟨code, loads, arranged⟩ := sampleCall_of_compiled (by decide) (by decide) done
  obtain ⟨code', loads', does⟩ := compiled_meaning (by decide) (by decide)
    (unshared_of_i32 (by decide) (by decide)) valid free (by decide) (by decide) done (by decide)
  cases loads.symm.trans loads'
  have meaning : compiled.eval addsBehindIf (start [] []) = .done ⟨[], [⟨.w, 6⟩, ⟨.w, 7⟩]⟩ := by
    decide
  have call := does _ _ arranged
  change Does _ _ _ _ (compiled.eval addsBehindIf (start [] [])) at call
  rw [meaning] at call
  obtain ⟨-, trace, u, complete, -, -, value⟩ := call
  exact ⟨g, _, done, loads, by decide, trace, u, complete, value _ ⟨.w, 6⟩ _ rfl rfl rfl⟩

/-- Half of the absolute value of the argument. -/
def halfDistance : Seq :=
  .op (.localVar .get 0) (.op (.i32const 0) (.op (.compare .w .lt_s)
    (.ifElse .i32
      (.op (.i32const 0) (.op (.localVar .get 0) (.op (.arith .w .sub) .nil)))
      (.op (.localVar .get 0) .nil)
      (.op (.i32const 2) (.div .w true .nil)))))

/-- Called with minus nine it returns four. -/
theorem structured_meaning_preserved_half : ∃ g code,
    funcSingleProcess (delivered [.i32 (-9)] [.i32 0] [] halfDistance) BranchFixup.inOrder =
        .ok g ∧
      loadWords (full_instructions g) = .ok code ∧
      ∃ trace u, Complete (step code 0x100000) ⟨0x100000, sampleCall⟩ trace ⟨0x80000, u⟩ ∧
        u.x 0 = 4 := by
  obtain ⟨g, done⟩ := BranchFixup.ok_of_isOk (show (funcSingleProcess
    (delivered [.i32 (-9)] [.i32 0] [] halfDistance) BranchFixup.inOrder).isOk = true by
      decide +kernel)
  have valid : Valid [.i32 (-9)] [] [.i32 0] halfDistance :=
    .get rfl (.i32const (.compare (.ifElse (.i32const (.get rfl (.arith .nil))) (.get rfl .nil)
      (.i32const (.div .nil)))))
  have free : ReturnFree halfDistance := by simp [ReturnFree, halfDistance]
  have agreeing : Agreeing halfDistance 0 := by
    simp [Agreeing, halfDistance, Op.Plain, Op.effect]
  obtain ⟨code, loads, arranged⟩ := sampleCall_of_compiled (by decide) (by decide) done
  obtain ⟨code', loads', -, -, does⟩ := structured_meaning_preserved (by decide) (by decide)
    (unshared_of_i32 (by decide) (by decide)) valid free (by decide) (by decide) done (by decide)
    agreeing
  cases loads.symm.trans loads'
  have meaning : wasm.eval halfDistance (start [.i32 (-9)] []) = .done ⟨[⟨.w, -9⟩], [⟨.w, 4⟩]⟩ := by
    decide
  have call := does _ _ arranged
  change Does _ _ _ _ (wasm.eval halfDistance (start [.i32 (-9)] [])) at call
  rw [meaning] at call
  obtain ⟨-, trace, u, complete, -, -, value⟩ := call
  exact ⟨g, _, done, loads, trace, u, complete, value _ ⟨.w, 4⟩ _ rfl rfl rfl⟩

end StructuredMeaning
