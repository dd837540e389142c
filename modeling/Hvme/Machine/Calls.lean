import Hvme.Machine.Activations
import Hvme.Machine.Progress

set_option autoImplicit false

namespace Hvme

def ArgsInside (inst : Inst) (m : Machine) : Prop :=
  m.prog.stack.base + inst.nargs.toNat ≤ m.prog.stack.sp

/-- A run within one activation: nested calls, with arguments of their own, have returned, from
machines that meet the condition. -/
inductive Body (cfg : Config) (Meets : Machine → Prop) : Machine → Machine → Prop
  | refl (m : Machine) : Body cfg Meets m m
  | step {m mid m' : Machine} {inst : Inst} (here : m.inst = some inst) (call : inst.code ≠ .call)
      (ret : inst.code ≠ .ret) (steps : Steps cfg m mid) (rest : Body cfg Meets mid m') : Body cfg Meets m m'
  | call {m entered last returned m' : Machine} {inst retInst : Inst} (here : m.inst = some inst)
      (code : inst.code = .call) (args : ArgsInside inst m) (enters : Steps cfg m entered)
      (body : Body cfg Meets entered last) (there : last.inst = some retInst) (ret : retInst.code = .ret)
      (meets : Meets last) (returns : Steps cfg last returned) (rest : Body cfg Meets returned m') :
      Body cfg Meets m m'

/-- `c` executes `inst`, a call, and `m` is the machine after the matching return from `last`. -/
structure CallRun (cfg : Config) (Meets : Machine → Prop) (inst : Inst) (c last m : Machine) : Prop where
  here : c.inst = some inst
  code : inst.code = .call
  args : ArgsInside inst c
  run : ∃ entered retInst, Steps cfg c entered ∧ Body cfg Meets entered last ∧
    last.inst = some retInst ∧ retInst.code = .ret ∧ Meets last ∧ Steps cfg last m

/-- What the caller `c`, having executed `inst`, finds when its callee has returned from `last`. -/
structure Resumed (inst : Inst) (c last m : Machine) : Prop where
  segments : m.prog.stack.segments = c.prog.stack.segments
  this : m.prog.heap.this = c.prog.heap.this
  that : m.prog.heap.that = c.prog.heap.that
  fi : m.prog.fi = c.prog.fi
  ei : m.ei = c.ei + 1
  code : m.code = c.code
  sp : m.prog.stack.sp + inst.nargs.toNat = c.prog.stack.sp + 1
  top : ∃ val, last.prog.stack.ops[last.prog.stack.sp - 1]? = some val ∧
    m.prog.stack.ops[m.prog.stack.sp - 1]? = some val
  below : ∀ i < c.prog.stack.sp - inst.nargs.toNat, m.prog.stack.ops[i]? = c.prog.stack.ops[i]?

def SmallFrame (m : Machine) : Prop := m.prog.stack.lcl < 2 ^ 16

section calls

variable {cfg : Config}

theorem Steps.called {m m' : Machine} {inst : Inst} (kept : m.Kept cfg) (here : m.inst = some inst)
    (code : inst.code = .call) (args : ArgsInside inst m) (steps : Steps cfg m m') :
    Activation m' m ∧ m'.prog.stack.base ≤ m'.prog.stack.sp ∧ m'.code = m.code ∧
      m'.prog.stack.argLen = inst.nargs.toNat := by
  obtain ⟨other, mid, same, effect, advances⟩ := steps.effect kept.valid
  cases here.symm.trans same
  have called : Called cfg inst m mid := by
    unfold Effect at effect
    rwa [code] at effect
  have after := advances.quiet called.valid
  have sound : mid.prog.stack.base ≤ mid.prog.stack.sp := called.sp.ge
  exact ⟨(called.activation args).quiet after sound, after.base_le sound, after.code.trans called.code,
    (congrArg Segments.argLen after.segments).trans called.argLen⟩

theorem Steps.quiet {m m' : Machine} {inst : Inst} (kept : m.Kept cfg) (here : m.inst = some inst)
    (call : inst.code ≠ .call) (ret : inst.code ≠ .ret) (steps : Steps cfg m m') : Quiet cfg m m' := by
  obtain ⟨other, mid, same, effect, advances⟩ := steps.effect kept.valid
  cases here.symm.trans same
  rcases effect.cases with ⟨code, -⟩ | ⟨code, -⟩ | ⟨-, -, quiet⟩
  · exact absurd code call
  · exact absurd code ret
  · exact quiet.trans (advances.quiet quiet.valid)

theorem Steps.returned {c m m' : Machine} {inst : Inst} (kept : m.Kept cfg) (here : m.inst = some inst)
    (code : inst.code = .ret) (active : Activation m c) (fit : c.Fit) (small : m.prog.stack.lcl < 2 ^ 16)
    (steps : Steps cfg m m') :
    ∃ mid, Returned cfg m mid ∧ Restored c m mid ∧ Advances mid m' := by
  obtain ⟨other, mid, same, effect, advances⟩ := steps.effect kept.valid
  cases here.symm.trans same
  have returned : Returned cfg m mid := by
    unfold Effect at effect
    rwa [code] at effect
  exact ⟨mid, returned, active.returned fit small returned, advances⟩

theorem Activation.round {c m m' : Machine} (active : Activation m c) (code : m.code = c.code)
    (returned : Returned cfg m m') (restored : Restored c m m') : Quiet cfg c m' where
  valid := returned.valid
  segments := restored.segments
  code := returned.code.trans code
  base_le := by
    intro _
    rw [Stack.base, restored.segments, returned.sp]
    exact le_trans active.own (Nat.le_succ _)
  cells := by
    intro _ i inside _
    have := lcl_le_base c.prog.stack
    have := active.own
    exact restored.below i (by omega)

theorem Body.quiet {m m' : Machine} (body : Body cfg SmallFrame m m') (kept : m.Kept cfg)
    (sound : m.prog.stack.base ≤ m.prog.stack.sp) : Quiet cfg m m' ∧ m'.Kept cfg := by
  induction body with
  | refl m => exact ⟨Quiet.refl kept.valid, kept⟩
  | step here call ret steps rest ih =>
    have first := steps.quiet kept here call ret
    obtain ⟨later, kept'⟩ := ih (steps.kept kept) (first.base_le sound)
    exact ⟨first.trans later, kept'⟩
  | call here code args enters body there ret small returns rest ihBody ihRest =>
    obtain ⟨active, sound', same, -⟩ := enters.called kept here code args
    obtain ⟨inner, last_kept⟩ := ihBody (enters.kept kept) sound'
    have active' := active.quiet inner sound'
    obtain ⟨mid, returned, restored, advances⟩ :=
      returns.returned last_kept there ret active' kept.fit small
    have round := active'.round (inner.code.trans same) returned restored
    have whole := round.trans (advances.quiet returned.valid)
    obtain ⟨later, kept'⟩ := ihRest (returns.kept last_kept) (whole.base_le sound)
    exact ⟨whole.trans later, kept'⟩

/-- A call whose returns find their frames is transparent if and only if the caller's indices fit
the words that they are saved in. -/
theorem callRun_transparent_iff {fuel : Nat} {srcs : List Source} {prog : Program}
    (made : makeProg cfg fuel srcs = .ok (some prog)) {stdin : List Byte} {c last m : Machine} {inst : Inst}
    (reaches : Reaches cfg (Machine.start prog stdin) c) (call : CallRun cfg SmallFrame inst c last m) :
    Resumed inst c last m ↔ c.ei.toNat < 2 ^ 16 ∧ c.prog.fi < 2 ^ 16 := by
  have kept := reaches.kept (start_kept (makeProg_stack made) stdin)
  obtain ⟨here, code, args, entered, retInst, enters, body, there, ret, small, returns⟩ := call
  obtain ⟨active, sound, same, nargs⟩ := enters.called kept here code args
  obtain ⟨inner, last_kept⟩ := body.quiet (enters.kept kept) sound
  have active' := active.quiet inner sound
  obtain ⟨mid, returned, restored, advances⟩ :=
    returns.returned last_kept there ret active' kept.fit small
  -- Only these two come from words of the frame; the rest is restored as it was.
  have ei : m.ei = c.ei.toUInt16.toUInt32 + 1 := by rw [advances.ei, restored.ei]
  have fi : m.prog.fi = c.prog.fi % 2 ^ 16 := by rw [advances.fi, restored.fi]
  have ei_word : c.ei.toUInt16.toUInt32.toNat = c.ei.toNat % 2 ^ 16 := by
    rw [UInt16.toNat_toUInt32, UInt32.toNat_toUInt16]
  constructor
  · intro resumed
    have ei_same : c.ei.toUInt16.toUInt32 = c.ei := by
      have sum := ei.symm.trans resumed.ei
      simpa using sum
    rw [ei_same] at ei_word
    have fi_same := fi.symm.trans resumed.fi
    omega
  · rintro ⟨ei_small, fi_small⟩
    have window := active'.arg
    have argLen : last.prog.stack.argLen = inst.nargs.toNat :=
      (congrArg Segments.argLen inner.segments).trans nargs
    have sp := returned.sp
    refine {
      segments := by rw [advances.stack, restored.segments]
      this := by rw [advances.heap, restored.this]
      that := by rw [advances.heap, restored.that]
      fi := by rw [fi, Nat.mod_eq_of_lt fi_small]
      ei := ?_
      code := advances.code.trans (returned.code.trans (inner.code.trans same))
      sp := by rw [advances.stack]; omega
      top := ?_
      below := ?_ }
    · rw [ei]
      congr 1
      apply UInt32.toNat_inj.mp
      rw [ei_word, Nat.mod_eq_of_lt ei_small]
    · have word := returned.word
      obtain ⟨val, top⟩ := last_kept.valid.cell (show last.prog.stack.sp - 1 < last.prog.stack.sp by omega)
      refine ⟨val, top, ?_⟩
      rw [advances.stack, sp, Nat.add_sub_cancel, returned.value, top]
    · intro i inside
      rw [advances.stack]
      exact restored.below i (by omega)

end calls

theorem Machine.after_one {cfg : Config} {m m' : Machine} (ran : m.after cfg 1 = some m') : Steps cfg m m' := by
  rw [Machine.after] at ran
  split at ran
  · next next step =>
    cases ran
    exact step
  · cases ran

theorem callRun_transparent_identity :
    ∃ prog c last m inst,
      makeProg .unitTests 9 [{ fn := "a.vm", content := some (ascii
        "function Sys.init 0\npush constant 5\ncall f 1\nfunction f 0\npush argument 0\nreturn\n") }] =
        .ok (some prog) ∧
      Reaches .unitTests (Machine.start prog []) c ∧ CallRun .unitTests SmallFrame inst c last m ∧
      Resumed inst c last m := by
  -- The run is evaluated once, and everything the theorem needs is read off it.
  have ran : (do
      let prog ← programOf .unitTests
        "function Sys.init 0\npush constant 5\ncall f 1\nfunction f 0\npush argument 0\nreturn\n"
      let c ← (Machine.start prog []).after .unitTests 3
      let entered ← c.after .unitTests 1
      let last ← entered.after .unitTests 1
      let m ← last.after .unitTests 1
      let inst ← c.inst
      let push ← entered.inst
      let ret ← last.inst
      some (inst.code == .call && inst.nargs == 1 && c.prog.stack.base == 9 && c.prog.stack.sp == 10 &&
        push.code == .push && ret.code == .ret && last.prog.stack.lcl == 18 && c.ei == 1 && c.prog.fi == 1)) =
      some true := by
    decide +kernel
  simp only [Option.bind_eq_bind, Option.bind_eq_some_iff, Option.some.injEq, Bool.and_eq_true, beq_iff_eq] at ran
  obtain ⟨prog, made, c, toC, entered, enters, last, toLast, m, returns, inst, here, push, pushAt, ret, retAt,
    ⟨⟨⟨⟨⟨⟨⟨⟨code, nargs⟩, base⟩, sp⟩, pushCode⟩, retCode⟩, lcl⟩, ei⟩, fi⟩⟩ := ran
  have reaches := Machine.after_reaches toC
  have body : Body .unitTests SmallFrame entered last :=
    .step pushAt (by rw [pushCode]; decide) (by rw [pushCode]; decide) (Machine.after_one toLast) (.refl last)
  have call : CallRun .unitTests SmallFrame inst c last m := by
    refine ⟨here, code, ?_, entered, ret, Machine.after_one enters, body, retAt, retCode, ?_, Machine.after_one returns⟩
    · rw [ArgsInside, nargs, base, sp]
      decide
    · rw [SmallFrame, lcl]
      decide
  have fits : c.ei.toNat < 2 ^ 16 ∧ c.prog.fi < 2 ^ 16 := by
    rw [ei, fi]
    decide
  exact ⟨prog, c, last, m, inst, programOf_made made, reaches, call,
    (callRun_transparent_iff (programOf_made made) reaches call).mpr fits⟩

def Machine.target (m : Machine) (key : SymKey) : Option (SymVal × Machine) :=
  match jumpTo key SymVal.junk m with
  | .ok (.ok, val) next => some (val, next)
  | _ => none

theorem Machine.target_some {m next : Machine} {key : SymKey} {val : SymVal}
    (found : m.target key = some (val, next)) : jumpTo key SymVal.junk m = .ok (.ok, val) next := by
  unfold Machine.target at found
  split at found
  · next run =>
    cases found
    exact run
  · cases found

/-- A function with 65535 locals, all of them zero, that is about to call `f`, which pushes a
constant and returns. -/
structure DeepCall (c : Machine) (file : File) (call push ret : Inst) : Prop where
  active : c.file = some file
  here : c.inst = some call
  code : call.code = .call
  nargs : call.nargs = 0
  found : getSt file.st (mkKey call.ident .func) SymVal.junk = .ok (.ok, { instAddr := 2, nlocals := 0 })
  pushAt : file.insts.cell[2]? = some push
  pushCode : push.code = .push
  seg : push.seg = .const
  retAt : file.insts.cell[3]? = some ret
  retCode : ret.code = .ret
  lcl : c.prog.stack.lcl = 9
  lclLen : c.prog.stack.lclLen = 65535
  sp : c.prog.stack.sp = 65544
  zeros : ∀ i, 9 ≤ i → i < 65544 → c.prog.stack.ops[i]? = some 0

theorem DeepCall.lost {cfg : Config} {c : Machine} {file : File} {call push ret : Inst}
    (deep : DeepCall c file call push ret) (kept : c.Kept cfg) :
    ∃ last m, CallRun cfg (fun _ => True) call c last m ∧ m.prog.stack.lcl = 0 := by
  have lcl := deep.lcl
  have lclLen := deep.lclLen
  have sp := deep.sp
  have args : ArgsInside call c := by
    rw [ArgsInside, deep.nargs, Stack.base, Segments.base, sp]
    change c.prog.stack.lcl + c.prog.stack.lclLen + 0 ≤ 65544
    omega
  obtain ⟨mid, entered, called, enters, stack, lclLen', active⟩ := Steps.call_found kept.valid deep.here deep.code
    (by rw [deep.nargs]; exact Nat.zero_le _) (jumpTo_active deep.active deep.found) (onFile_ei deep.active _)
  have entered_kept := enters.kept kept
  have pushAt : entered.inst = some push := by
    rw [Machine.inst, active]
    exact deep.pushAt
  obtain ⟨last, pushes, pushed, active⟩ := Steps.push_const entered_kept.valid pushAt deep.pushCode deep.seg active
  have last_kept := pushes.kept entered_kept
  have retAt : last.inst = some ret := by
    rw [Machine.inst, active]
    exact deep.retAt
  have top : entered.prog.stack.lcl = 65552 ∧ entered.prog.stack.arg = 65544 ∧ entered.prog.stack.sp = 65552 := by
    have arg := called.arg
    have entered_lcl := called.lcl
    have entered_sp := called.sp
    rw [deep.nargs] at arg
    rw [Stack.base, Segments.base] at entered_sp
    change mid.prog.stack.sp = mid.prog.stack.lcl + mid.prog.stack.lclLen at entered_sp
    change mid.prog.stack.lclLen = 0 at lclLen'
    change mid.prog.stack.arg + 0 = c.prog.stack.sp at arg
    rw [stack]
    omega
  obtain ⟨entered_lcl, entered_arg, entered_sp⟩ := top
  have last_lcl : last.prog.stack.lcl = 65552 := (congrArg Segments.lcl pushed.segments).trans entered_lcl
  have last_arg : last.prog.stack.arg = 65544 := (congrArg Segments.arg pushed.segments).trans entered_arg
  have last_sp : last.prog.stack.sp = 65553 := by rw [pushed.sp, entered_sp]
  -- 65552 does not fit a word: where the frame is looked for is among the locals.
  have frame : last.frame = 16 := by
    rw [Machine.frame, last_lcl]
    rfl
  have zero : ∀ i, 9 ≤ i → i < 65544 → last.prog.stack.ops[i]? = some 0 := by
    intro i above below
    rw [pushed.below i (by omega), stack, called.below i (by omega)]
    exact deep.zeros i above below
  -- The zero found for the file index is an index in range, so the return does not fault.
  have returnable : last.Returnable := by
    refine ⟨?_, by omega, by omega, fun fi fiAt => ?_⟩
    · have base : last.prog.stack.base = entered.prog.stack.base := congrArg Segments.base pushed.segments
      have sound : entered.prog.stack.base = entered.prog.stack.sp := by
        rw [stack]
        exact called.sp.symm
      omega
    · rw [frame, zero _ (by omega) (by omega)] at fiAt
      cases fiAt
      exact lt_of_le_of_lt (Nat.zero_le _) (List.getElem?_eq_some_iff.mp active).1
  obtain ⟨mid', m, returned, returns, stack'⟩ := Steps.ret_returnable last_kept.valid retAt deep.retCode returnable
  have body : Body cfg (fun _ => True) entered last :=
    .step pushAt (by rw [deep.pushCode]; decide) (by rw [deep.pushCode]; decide) pushes (.refl last)
  refine ⟨last, m, ⟨deep.here, deep.code, args, entered, ret, enters, body, retAt, deep.retCode, trivial, returns⟩, ?_⟩
  obtain ⟨lcl', _, _, _, lclAt, -, -, -, segments⟩ := returned.segments
  rw [frame, returned.below _ (by omega) (by omega), zero _ (by omega) (by omega)] at lclAt
  cases lclAt
  rw [stack']
  exact congrArg Segments.lcl segments

/-- `Sys.init` has 65535 local variables, so the frame pointer of the function it calls is cut off
when that returns. -/
theorem deep_frame_lost :
    ∃ prog c last m inst,
      makeProg .unitTests 9 [{ fn := "a.vm", content := some (ascii
        "function Sys.init 65535\ncall f 0\nreturn\nfunction f 0\npush constant 7\nreturn\n") }] =
        .ok (some prog) ∧
      Reaches .unitTests (Machine.start prog []) c ∧ CallRun .unitTests (fun _ => True) inst c last m ∧
      ¬Resumed inst c last m := by
  -- Only the first instruction is executed: the call would push 65535 locals, so what it does is
  -- taken from `Steps.call_found`.
  have ran : (do
      let prog ← programOf .unitTests
        "function Sys.init 65535\ncall f 0\nreturn\nfunction f 0\npush constant 7\nreturn\n"
      let first ← (Machine.start prog []).after .unitTests 1
      let init ← first.inst
      let entry ← first.target (mkKey init.ident .func)
      let file ← entry.2.file
      let call ← file.insts.cell[0]?
      let push ← file.insts.cell[2]?
      let ret ← file.insts.cell[3]?
      some (init.code == .call && init.nargs == 1 && first.prog.stack.sp == 1 && entry.1.nlocals == 65535 &&
        entry.1.ei + 1 == 0 && call.code == .call && call.nargs == 0 && push.code == .push && push.seg == .const &&
        ret.code == .ret && decide (getSt file.st (mkKey call.ident .func) SymVal.junk =
          .ok (.ok, { instAddr := 2, nlocals := 0 })))) = some true := by
    decide +kernel
  simp only [Option.bind_eq_bind, Option.bind_eq_some_iff, Option.some.injEq, Bool.and_eq_true, beq_iff_eq,
    decide_eq_true_eq] at ran
  obtain ⟨prog, made, first, toFirst, init, initAt, ⟨val, next⟩, entry, file, active, call, callAt, push, pushAt,
    ret, retAt, ⟨⟨⟨⟨⟨⟨⟨⟨⟨⟨initCode, initArgs⟩, initSp⟩, locals⟩, entryEi⟩, callCode⟩, callArgs⟩, pushCode⟩, pushSeg⟩,
    retCode⟩, found⟩⟩ := ran
  have kept := (Machine.after_reaches toFirst).kept (start_kept (makeProg_stack (programOf_made made)) [])
  obtain ⟨mid, c, called, enters, stack, lclLen, active⟩ := Steps.call_found kept.valid initAt initCode
    (by rw [initArgs, initSp]; decide) (Machine.target_some entry) active
  have here : c.inst = some call := by
    rw [Machine.inst, active, Option.bind_some]
    simp only [entryEi]
    exact callAt
  have lcl : mid.prog.stack.lcl = 9 := by rw [called.lcl, initSp]
  have lclLen : mid.prog.stack.lclLen = 65535 := by
    rw [lclLen, locals]
    rfl
  have base : mid.prog.stack.base = 65544 := by
    change mid.prog.stack.lcl + mid.prog.stack.lclLen = _
    rw [lcl, lclLen]
  have deep : DeepCall c _ call push ret := {
    active := active
    here := here
    code := callCode
    nargs := callArgs
    found := found
    pushAt := pushAt
    pushCode := pushCode
    seg := pushSeg
    retAt := retAt
    retCode := retCode
    lcl := by rw [stack, lcl]
    lclLen := by rw [stack, lclLen]
    sp := by rw [stack, called.sp, base]
    zeros := by
      rw [stack]
      exact fun i above below => called.locals i (by omega) (by omega) }
  obtain ⟨last, m, run, lost⟩ := deep.lost (enters.kept kept)
  refine ⟨prog, c, last, m, call, programOf_made made, (Machine.after_reaches toFirst).tail enters, run,
    fun resumed => ?_⟩
  have same : m.prog.stack.lcl = c.prog.stack.lcl := congrArg Segments.lcl resumed.segments
  rw [lost, deep.lcl] at same
  cases same

end Hvme
