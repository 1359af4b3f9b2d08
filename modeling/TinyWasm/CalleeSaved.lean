import TinyWasm.CompilerFrame
import TinyWasm.CallRun

/-!
# The registers a call must keep

The first three instructions of every call write `x19`, `x20` and `x21` before
anything has saved them. From there on the run is the same whatever the caller
kept there, so it cannot give the caller's values back.
-/

namespace CalleeSaved

open HexText Opcode Wasm Emit ArmInstruction LabelledCode LocalDeclarations SourceBody CodeItems
open EncoderCorrectness EmissionSpec WholeFunction ByteMemory StepRuns ArmMachine BlockEffects
open CallStubs FrameSpec StructuredRun CodeLayout BodyFrame FunctionCall CompilerFrame CallRun

/-- `x19` to `x28`. -/
def IsSaved (r : Reg) : Prop := 19 ≤ r.toNat ∧ r.toNat ≤ 28

instance (r : Reg) : Decidable (IsSaved r) := inferInstanceAs (Decidable (_ ∧ _))

/-- `s` with what the caller keeps in these registers. -/
def withSaved (s : State) (kept : Reg → BitVec 64) : State :=
  { s with x := fun r => if IsSaved r then kept r else s.x r }

/-- A run of the code that comes back to its caller. -/
def Returns (code : List Word) (base : BitVec 64) (s t : State) : Prop :=
  ∃ trace, Complete (step code base) ⟨base, s⟩ trace ⟨s.x 30, t⟩

/-- Whatever the caller keeps in `x19` to `x28` is there when the call comes back. -/
def KeepsSaved (code : List Word) (base : BitVec 64) (s : State) : Prop :=
  ∀ kept t, Returns code base (withSaved s kept) t → ∀ r, IsSaved r → t.x r = kept r

/-! ### The first three instructions -/

theorem loadWords_word {w : Word} {rest : Text} {code : List Word}
    (h : loadWords (wordText w ++ rest) = .ok code) :
    ∃ ws, code = w :: ws ∧ loadWords rest = .ok ws := by
  cases bytes : charArray rest with
  | ok bs =>
    rw [loadWords, charArray_wordText bytes] at h
    refine ⟨littleEndianWords bs, ?_, by rw [loadWords, bytes]; rfl⟩
    cases h
    rw [littleEndianWords, word_of_bytes]
  | error e =>
    have fails : charArray (wordText w ++ rest) = .error e := by
      have pair : ∀ (a b : Char) {u v : Nat} {t : Text}, hexDigit? a = some u →
          hexDigit? b = some v → charArray t = .error e →
          charArray (a :: b :: t) = .error e := by
        intro a b u v t ha hb ht
        rw [charArray, stoul_pair ha hb, ok_bind, ht]
        rfl
      have digit := hexDigit?_upperDigit
      exact pair _ _ (digit _) (digit _) (pair _ _ (digit _) (digit _)
        (pair _ _ (digit _) (digit _) (pair _ _ (digit _) (digit _) bytes)))
    rw [loadWords, fails] at h
    cases h

/-- The code of a call begins with the moves to `x19`, `x20` and `x21`. -/
theorem code_begins {f g : WasmFunction} {order : WasmFunction.VisitOrder}
    (fresh : f.pre_instructions_for_param_loading = [])
    (done : funcSingleProcess f order = .ok g) {code : List Word}
    (loads : loadWords (full_instructions g) = .ok code) :
    ∃ w₁ w₂ w₃ rest, code = w₁ :: w₂ :: w₃ :: rest ∧ decode w₁ = some (mov 19 0) ∧
      decode w₂ = some (mov 20 1) ∧ decode w₃ = some (.movWide .movz .x 21 0 0) := by
  obtain ⟨h, prepared, processed⟩ := ok_of_bind done
  obtain ⟨buffer, hb, prepared⟩ := ok_of_bind prepared
  obtain ⟨stack, hs, prepared⟩ := ok_of_bind prepared
  obtain ⟨pointer, hp, prepared⟩ := ok_of_bind prepared
  obtain ⟨params, -, prepared⟩ := ok_of_bind prepared
  cases prepared
  obtain ⟨w₁, e₁, d₁⟩ := mov_yields (isReg 19) (isReg 0)
  obtain ⟨w₂, e₂, d₂⟩ := mov_yields (isReg 20) (isReg 1)
  obtain ⟨w₃, e₃, d₃⟩ := encodeMovWide_yields .movz .xReg 0 0 (isReg 21) (by decide)
  have t₁ : buffer = wordText w₁ := Except.ok.inj (hb.symm.trans e₁)
  have t₂ : stack = wordText w₂ := Except.ok.inj (hs.symm.trans e₂)
  have t₃ : pointer = wordText w₃ := Except.ok.inj (hp.symm.trans e₃)
  have text : full_instructions g =
      wordText w₁ ++ (wordText w₂ ++ (wordText w₃ ++ (params ++ g.wasm_instructions))) := by
    rw [full_instructions, (processCodeVec_leaves processed).pre, fresh, t₁, t₂, t₃]
    simp
  rw [text] at loads
  obtain ⟨ws₁, begins, loads₁⟩ := loadWords_word loads
  obtain ⟨ws₂, second, loads₂⟩ := loadWords_word loads₁
  obtain ⟨ws₃, third, -⟩ := loadWords_word loads₂
  exact ⟨w₁, w₂, w₃, ws₃, by rw [begins, second, third], d₁, d₂, d₃⟩

/-- The state behind them. -/
def based (s : State) : State :=
  { s with x := Function.update (Function.update (Function.update s.x 19 (s.x 0)) 20 (s.x 1)) 21 0 }

theorem step_word {code : List Word} (base : BitVec 64) {i : Nat} {w : Word} {instr : Instr}
    (here : code[i]? = some w) (decodes : decode w = some instr) (near : i < 2 ^ 61)
    (straight : plain instr = true) (s : State) :
    step code base ⟨addr base i, s⟩ = some ⟨addr base (i + 1), exec instr s⟩ := by
  have offset : (addr base i - base).toNat = 4 * i := by
    rw [addr, BitVec.add_comm, BitVec.add_sub_cancel, BitVec.toNat_ofNat]
    omega
  have fetched : fetch code base (addr base i) = some instr := by
    rw [fetch, offset, if_pos (by omega), Nat.mul_div_cancel_left i (by decide), here]
    exact decodes
  rw [step, fetched, Option.map_some, ← addr_succ]
  cases instr with
  | b | bCond | br | ret | adr => cases straight
  | ldpStp | ldrStrImm | ldrStrReg | addSubImm | addSubShift | orrShift | movWide | csel | madd
  | div | nop => rfl

theorem run_based {code : List Word} {w₁ w₂ w₃ : Word} {rest : List Word}
    (begins : code = w₁ :: w₂ :: w₃ :: rest) (d₁ : decode w₁ = some (mov 19 0))
    (d₂ : decode w₂ = some (mov 20 1)) (d₃ : decode w₃ = some (.movWide .movz .x 21 0 0))
    (base : BitVec 64) (s : State) :
    ∃ trace, Run (step code base) ⟨base, s⟩ trace ⟨addr base 3, based s⟩ := by
  subst begins
  let code := w₁ :: w₂ :: w₃ :: rest
  have first := step_word base (show code[0]? = some w₁ from rfl) d₁ (by decide) rfl s
  have second := step_word base (show code[1]? = some w₂ from rfl) d₂ (by decide) rfl
    (exec (mov 19 0) s)
  have third := step_word base (show code[2]? = some w₃ from rfl) d₃ (by decide) rfl
    (exec (mov 20 1) (exec (mov 19 0) s))
  have last : exec (.movWide .movz .x 21 0 0) (exec (mov 20 1) (exec (mov 19 0) s)) = based s := by
    rw [exec_mov (by decide) (by decide), exec_mov (by decide) (by decide),
      exec_movz .x (by decide)]
    simp only [Function.update_of_ne (show (1 : Reg) ≠ 19 by decide)]
    rfl
  rw [addr_zero] at first
  rw [last] at third
  exact ⟨_, .cons first (.cons second (.one third))⟩

/-- What the caller kept in `x19` is gone. -/
theorem based_withSaved (s : State) (kept : Reg → BitVec 64) (v : BitVec 64) :
    based (withSaved s (Function.update kept 19 v)) = based (withSaved s kept) := by
  have same : (based (withSaved s (Function.update kept 19 v))).x =
      (based (withSaved s kept)).x := by
    funext r
    by_cases first : r = 19
    · subst first
      simp [based, withSaved, IsSaved, Function.update]
    · have one : ¬ (1 : Reg) = 19 := by decide
      simp only [based, withSaved, Function.update_apply, one, first, if_false]
  exact congrArg (fun x => { s with x }) same

/-- A call that comes back comes back to the same state whatever `x19` was. -/
theorem returns_of_returns {code : List Word} {w₁ w₂ w₃ : Word} {rest : List Word}
    (begins : code = w₁ :: w₂ :: w₃ :: rest) (d₁ : decode w₁ = some (mov 19 0))
    (d₂ : decode w₂ = some (mov 20 1)) (d₃ : decode w₃ = some (.movWide .movz .x 21 0 0))
    {base : BitVec 64} {s t : State} {kept : Reg → BitVec 64}
    (h : Returns code base (withSaved s kept) t) (v : BitVec 64) :
    Returns code base (withSaved s (Function.update kept 19 v)) t := by
  obtain ⟨trace, complete⟩ := h
  obtain ⟨first, run⟩ := run_based begins d₁ d₂ d₃ base (withSaved s kept)
  obtain ⟨later, -, through⟩ := run.part_of complete
  obtain ⟨first', run'⟩ := run_based begins d₁ d₂ d₃ base
    (withSaved s (Function.update kept 19 v))
  rw [based_withSaved] at run'
  exact ⟨_, run'.complete through⟩

theorem not_keepsSaved {code : List Word} {w₁ w₂ w₃ : Word} {rest : List Word}
    (begins : code = w₁ :: w₂ :: w₃ :: rest) (d₁ : decode w₁ = some (mov 19 0))
    (d₂ : decode w₂ = some (mov 20 1)) (d₃ : decode w₃ = some (.movWide .movz .x 21 0 0))
    {base : BitVec 64} {s t : State} {kept : Reg → BitVec 64}
    (h : Returns code base (withSaved s kept) t) : ¬ KeepsSaved code base s := by
  intro keeps
  have other := returns_of_returns begins d₁ d₂ d₃ h (t.x 19 + 1)
  have same := keeps _ t other 19 (by decide)
  rw [Function.update_self] at same
  have shifted := congrArg (· - t.x 19) same
  simp only [BitVec.sub_self, BitVec.add_comm (t.x 19), BitVec.add_sub_cancel] at shifted
  exact absurd shifted (by decide)

/-- A compiled call keeps the registers only where it never comes back: as soon as one of its
runs returns, there are values of the caller that it loses. -/
theorem keepsSaved_iff {f g : WasmFunction} {order : WasmFunction.VisitOrder}
    (fresh : f.pre_instructions_for_param_loading = [])
    (done : funcSingleProcess f order = .ok g) {code : List Word}
    (loads : loadWords (full_instructions g) = .ok code) (base : BitVec 64) (s : State) :
    KeepsSaved code base s ↔ ¬ ∃ kept t, Returns code base (withSaved s kept) t := by
  obtain ⟨w₁, w₂, w₃, rest, begins, d₁, d₂, d₃⟩ := code_begins fresh done loads
  constructor
  · rintro keeps ⟨kept, t, returns⟩
    exact not_keepsSaved begins d₁ d₂ d₃ returns keeps
  · exact fun never kept t returns => absurd ⟨kept, t, returns⟩ never

/-! ### Calls that come back -/

/-- Every call that the buffer and the stacks are laid out for comes back, and loses what the
caller kept. -/
theorem call_loses_saved {params results : List wasm_type} {groups : List Group} {body : Seq}
    {order : WasmFunction.VisitOrder} {g : WasmFunction} (few : params.length ≤ 19)
    (narrow : results.length ≤ 29) (size_byte : BranchFixup.bodySize groups body ≤ 255)
    (once : body.divisions ≤ 1)
    (done : funcSingleProcess (delivered params results groups body) order = .ok g) {lo hi : Int}
    (inside : StoresIn lo hi body 0 fun _ => True) :
    ∃ code, loadWords (full_instructions g) = .ok code ∧ code.length ≤ 2 ^ 61 ∧
      frameSize params (groups.flatMap groupLocals) ≤ 4080 ∧
      ∀ base s, Arranged code base params (groups.flatMap groupLocals) lo hi s →
        ¬ KeepsSaved code base s := by
  obtain ⟨code, instrs, target, loads, callable, ints, -⟩ :=
    callable_of_funcSingleProcess size_byte once done
  refine ⟨code, loads, callable.placed.loaded.short, callable.small, fun base s arranged => ?_⟩
  obtain ⟨w₁, w₂, w₃, rest, begins, d₁, d₂, d₃⟩ := code_begins rfl done loads
  have same : withSaved s s.x = s := by
    have kept : (withSaved s s.x).x = s.x := funext fun r => ite_self _
    exact congrArg (fun x => { s with x }) kept
  have returns : Returns code base (withSaved s s.x)
      (callEnd params (groups.flatMap groupLocals) results body base s) := by
    rw [same]
    exact ⟨_, complete_call callable few ints arranged
      (callWalk_kept callable few ints inside arranged) narrow⟩
  exact not_keepsSaved begins d₁ d₂ d₃ returns

/-- The function without params, results, locals and instructions. -/
theorem nothing_loses_saved :
    ∃ g code, funcSingleProcess (delivered [] [] [] .nil) BranchFixup.inOrder = .ok g ∧
      loadWords (full_instructions g) = .ok code ∧ ¬ KeepsSaved code 0x100000 sampleCall := by
  obtain ⟨g, done⟩ := BranchFixup.ok_of_isOk (show (funcSingleProcess
    (delivered [] [] [] .nil) BranchFixup.inOrder).isOk = true by decide +kernel)
  obtain ⟨code, loads, short, small, loses⟩ := call_loses_saved (by decide) (by decide) (by decide)
    (by decide) done (show StoresIn 0 1024 .nil 0 fun _ => True from trivial)
  exact ⟨g, code, done, loads, loses _ _ (sampleCall_arranged small short ⟨rfl, rfl, rfl⟩ rfl)⟩

/-- `(local.get 0) / 2`, with a guarded division. -/
def halves : Seq := .op (.localVar .get 0) (.op (.i32const 2) (.div .w true .nil))

theorem keepsSaved_iff_halves : ∃ g code,
    funcSingleProcess (delivered [.i32 6] [.i32 0] [] halves) BranchFixup.inOrder = .ok g ∧
      loadWords (full_instructions g) = .ok code ∧
      (KeepsSaved code 0x100000 sampleCall ↔
        ¬ ∃ kept t, Returns code 0x100000 (withSaved sampleCall kept) t) ∧
      ∃ kept t, Returns code 0x100000 (withSaved sampleCall kept) t := by
  obtain ⟨g, done⟩ := BranchFixup.ok_of_isOk (show (funcSingleProcess
    (delivered [.i32 6] [.i32 0] [] halves) BranchFixup.inOrder).isOk = true by decide +kernel)
  obtain ⟨code, loads, short, small, loses⟩ := call_loses_saved (by decide) (by decide) (by decide)
    (by decide) done
    (show StoresIn 0 1024 halves 0 _ by simp [halves, StoresIn, Op.pushes, Op.effect])
  have arranged := sampleCall_arranged (s := sampleCall) small short ⟨rfl, rfl, rfl⟩ rfl
  have iff := keepsSaved_iff rfl done loads 0x100000 sampleCall
  exact ⟨g, code, done, loads, iff, not_not.mp (iff.not.mp (loses _ _ arranged))⟩

end CalleeSaved
