import Hvme.Machine.Instructions
import Hvme.Machine.Frames
import Mathlib.Logic.Relation

set_option autoImplicit false

namespace Hvme

open Outcome

def Steps (cfg : Config) (m m' : Machine) : Prop := execRound cfg m = .ok true m'

def Reaches (cfg : Config) : Machine → Machine → Prop := Relation.ReflTransGen (Steps cfg)

def Machine.after (cfg : Config) : Nat → Machine → Option Machine
  | 0, m => some m
  | count + 1, m =>
    match execRound cfg m with
    | .ok true m => m.after cfg count
    | _ => none

theorem Machine.after_reaches {cfg : Config} {count : Nat} {m m' : Machine} (ran : m.after cfg count = some m') :
    Reaches cfg m m' := by
  induction count generalizing m with
  | zero =>
    cases ran
    exact .refl
  | succ count ih =>
    rw [Machine.after] at ran
    split at ran
    · next next step => exact .head step (ih ran)
    · cases ran

def Effect (cfg : Config) (inst : Inst) (m m' : Machine) : Prop :=
  match inst.code with
  | .call => Called cfg inst m m'
  | .ret => Returned cfg m m'
  | _ => Quiet cfg m m'

/-- An instruction that fails here does not leave the machine as it was. -/
def Spoils (cfg : Config) (code : InstCode) (m : Machine) : Prop :=
  match code with
  | .and | .or | .eq | .lt | .gt | .builtinPrintStr => m.OneWord
  | .add | .sub => m.OneWord ∨ m.Torn cfg
  | .builtinReadStr => m.prog.stack.base < m.prog.stack.sp
  | _ => False

section inst

variable {cfg : Config} {m : Machine} {inst : Inst}

theorem execInst_wp (valid : m.prog.stack.Valid cfg) (here : m.inst = some inst) :
    wp (execInst cfg) (fun _ m' => Effect cfg inst m m') (Stops (Spoils cfg inst.code m) m) m := by
  unfold execInst
  simp only [wp_bind, wp_activeInst, here, reduceCtorEq, false_implies, true_and, Option.some.injEq, forall_eq']
  -- One law for each instruction; only `call` and `return` have laws of their own shape.
  unfold Effect Spoils
  cases inst.code with
  | none =>
    simp only [wp_execErr]
    exact stops_withIo _ _
  | push => exact execPush_obeys valid inst
  | pop => exact execPop_obeys valid inst
  | add => exact execAdd_obeys valid inst.pos
  | sub => exact execSub_obeys valid inst.pos
  | neg => exact execUnary_obeys valid _ inst.pos
  | and => exact execBinary_obeys valid _ inst.pos
  | or => exact execBinary_obeys valid _ inst.pos
  | not => exact execUnary_obeys valid _ inst.pos
  | eq => exact execBinary_obeys valid _ inst.pos
  | gt => exact execBinary_obeys valid _ inst.pos
  | lt => exact execBinary_obeys valid _ inst.pos
  | goto => exact execGoto_obeys valid inst.pos
  | ifGoto => exact execIfGoto_obeys valid inst.pos
  | call => exact execCall_stops valid here inst.pos
  | ret => exact (execRet_stops valid inst.pos).mono (fun _ _ ret => ret) fun _ _ stop => stop.1
  | builtinPrintChar => exact execBuiltinPrintChar_obeys valid inst.pos
  | builtinPrintNum => exact execBuiltinPrintNum_obeys valid inst.pos
  | builtinPrintStr => exact execBuiltinPrintStr_obeys valid inst.pos
  | builtinReadChar => exact execBuiltinReadChar_obeys valid
  | builtinReadNum => exact execBuiltinReadNum_obeys valid inst.pos
  | builtinReadStr => exact execBuiltinReadStr_obeys valid inst.pos

theorem execInst_aborts (valid : m.prog.stack.Valid cfg) (here : m.inst = some inst)
    (code : inst.code = .call ∨ inst.code = .ret) :
    wp (execInst cfg) (fun _ m' => m'.prog.heap.mem = m.prog.heap.mem) (Aborts m) m := by
  unfold execInst
  simp only [wp_bind, wp_activeInst, here, reduceCtorEq, false_implies, true_and, Option.some.injEq, forall_eq']
  rcases code with code | code <;> rw [code]
  next =>
    have aborts := execCall_aborts valid here inst.pos
    exact aborts.mono (fun _ _ called => congrArg Heap.mem called.heap) fun _ _ => id
  next => exact execRet_aborts valid inst.pos

end inst

def Advances (m m' : Machine) : Prop :=
  ∃ ei, m.file.map File.ei = some ei ∧ m' = m.onFile fun file => { file with ei := ei + 1 }

section advances

variable {m m' : Machine}

theorem Advances.stack (advances : Advances m m') : m'.prog.stack = m.prog.stack := by
  obtain ⟨ei, -, rfl⟩ := advances
  rfl

theorem Advances.heap (advances : Advances m m') : m'.prog.heap = m.prog.heap := by
  obtain ⟨ei, -, rfl⟩ := advances
  rfl

theorem Advances.fi (advances : Advances m m') : m'.prog.fi = m.prog.fi := by
  obtain ⟨ei, -, rfl⟩ := advances
  rfl

theorem Advances.code (advances : Advances m m') : m'.code = m.code := by
  obtain ⟨ei, -, rfl⟩ := advances
  exact code_onFile m (fun file => { file with ei := ei + 1 }) fun _ => rfl

theorem Advances.ei (advances : Advances m m') : m'.ei = m.ei + 1 := by
  obtain ⟨ei, active, rfl⟩ := advances
  obtain ⟨file, here, rfl⟩ := Option.map_eq_some_iff.mp active
  simp [Machine.ei, here]

theorem Advances.quiet (advances : Advances m m') {cfg : Config} (valid : m.prog.stack.Valid cfg) :
    Quiet cfg m m' :=
  Quiet.of_stack valid advances.stack advances.code

end advances

theorem execRound_wp {cfg : Config} {m : Machine} (valid : m.prog.stack.Valid cfg) :
    wp (execRound cfg)
      (fun more m' => more = true → ∃ inst mid, m.inst = some inst ∧ Effect cfg inst m mid ∧ Advances mid m')
      (fun stop m' => ∀ inst, m.inst = some inst → Stops (Spoils cfg inst.code m) m stop m') m := by
  unfold execRound
  simp only [wp_bind, wp_activeFile, wp_ite, wp_pure, Bool.false_eq_true, false_implies, implies_true, and_true]
  refine ⟨fun _ _ _ => stops_fault _, fun file active inside => ?_⟩
  obtain ⟨inst, here⟩ : ∃ inst, m.inst = some inst :=
    ⟨_, by rw [Machine.inst, active]; exact List.getElem?_eq_getElem inside⟩
  refine (execInst_wp valid here).mono (fun _ mid effect => ?_) fun stop m' stops other same => ?_
  · simp only [incEi, wp_bind, wp_activeFile, wp_setEi]
    refine ⟨fun _ _ _ => stops_fault _, fun file active _ => ⟨inst, mid, here, effect, file.ei, ?_, rfl⟩⟩
    rw [active, Option.map_some]
  · cases here.symm.trans same
    exact stops

theorem execRound_inst {cfg : Config} {m : Machine} {inst : Inst} (here : m.inst = some inst) :
    wp (execRound cfg) (fun _ m' => ∃ mid, execInst cfg m = .ok () mid ∧ Advances mid m')
      (fun stop m' => ∀ diag, stop = .err diag → execInst cfg m = .error stop m') m := by
  obtain ⟨file, active⟩ := Machine.file_of_inst here
  have inside : file.ei.toNat < file.insts.cell.length := by
    rw [Machine.inst, active] at here
    exact (List.getElem?_eq_some_iff.mp here).1
  unfold execRound
  simp only [wp_bind, wp_activeFile, wp_ite, wp_pure, active, reduceCtorEq, false_implies, true_and,
    Option.some.injEq, forall_eq', inside, not_true_eq_false, forall_const, and_true]
  apply wp_iff.mpr
  constructor
  next =>
    intro _ mid run
    simp only [incEi, wp_bind, wp_activeFile, wp_setEi]
    constructor
    next => rintro _ _ ⟨⟩
    next =>
      intro file active
      exact ⟨mid, run, file.ei, by rw [active, Option.map_some], rfl⟩
  next => exact fun stop m' run _ _ => run

theorem Steps.ran {cfg : Config} {m m' : Machine} {inst : Inst} (steps : Steps cfg m m')
    (here : m.inst = some inst) : ∃ mid, execInst cfg m = .ok () mid ∧ Advances mid m' :=
  (execRound_inst here).returns steps

theorem execRound_failed {cfg : Config} {m m' : Machine} {inst : Inst} {diag : Diag} (here : m.inst = some inst)
    (failed : execRound cfg m = .error (.err diag) m') : execInst cfg m = .error (.err diag) m' :=
  (execRound_inst here).stops failed diag rfl

theorem Steps.effect {cfg : Config} {m m' : Machine} (steps : Steps cfg m m') (valid : m.prog.stack.Valid cfg) :
    ∃ inst mid, m.inst = some inst ∧ Effect cfg inst m mid ∧ Advances mid m' :=
  (execRound_wp valid).returns steps rfl

structure Machine.Fit (m : Machine) : Prop where
  argLen : m.prog.stack.argLen < 2 ^ 16
  lclLen : m.prog.stack.lclLen < 2 ^ 16
  arg : m.prog.stack.arg ≤ m.prog.stack.lcl ∨ m.prog.stack.arg < 2 ^ 16

section effect

variable {cfg : Config} {inst : Inst} {m m' : Machine}

theorem Effect.cases (effect : Effect cfg inst m m') :
    inst.code = .call ∧ Called cfg inst m m' ∨ inst.code = .ret ∧ Returned cfg m m' ∨
      inst.code ≠ .call ∧ inst.code ≠ .ret ∧ Quiet cfg m m' := by
  unfold Effect at effect
  split at effect
  · next code => exact .inl ⟨code, effect⟩
  · next code => exact .inr (.inl ⟨code, effect⟩)
  · next call ret => exact .inr (.inr ⟨call, ret, effect⟩)

theorem Quiet.fit (quiet : Quiet cfg m m') (fit : m.Fit) : m'.Fit where
  argLen := (congrArg Segments.argLen quiet.segments).trans_lt fit.argLen
  lclLen := (congrArg Segments.lclLen quiet.segments).trans_lt fit.lclLen
  arg := by
    have arg : m'.prog.stack.arg = m.prog.stack.arg := congrArg Segments.arg quiet.segments
    have lcl : m'.prog.stack.lcl = m.prog.stack.lcl := congrArg Segments.lcl quiet.segments
    rw [arg, lcl]
    exact fit.arg

theorem Called.fit (called : Called cfg inst m m') : m'.Fit where
  argLen := called.argLen ▸ UInt16.toNat_lt _
  lclLen := by
    obtain ⟨val, next, -, lclLen, -⟩ := called.jump
    exact lclLen ▸ UInt16.toNat_lt _
  arg := by
    have := called.arg
    have := called.lcl
    exact .inl (by omega)

theorem Returned.fit (returned : Returned cfg m m') : m'.Fit := by
  obtain ⟨lcl, lclLen, arg, argLen, -, -, -, -, segments⟩ := returned.segments
  refine ⟨?_, ?_, .inr ?_⟩
  · exact (congrArg Segments.argLen segments).trans_lt (UInt16.toNat_lt _)
  · exact (congrArg Segments.lclLen segments).trans_lt (UInt16.toNat_lt _)
  · exact (congrArg Segments.arg segments).trans_lt (UInt16.toNat_lt _)

end effect

structure Machine.Kept (cfg : Config) (m : Machine) : Prop where
  valid : m.prog.stack.Valid cfg
  fit : m.Fit

theorem Steps.valid {cfg : Config} {m m' : Machine} (steps : Steps cfg m m') (valid : m.prog.stack.Valid cfg) :
    m'.prog.stack.Valid cfg := by
  obtain ⟨inst, mid, _, effect, advances⟩ := steps.effect valid
  rw [advances.stack]
  rcases effect.cases with ⟨_, called⟩ | ⟨_, returned⟩ | ⟨_, _, quiet⟩
  next => exact called.valid
  next => exact returned.valid
  next => exact quiet.valid

theorem Steps.kept {cfg : Config} {m m' : Machine} (steps : Steps cfg m m') (kept : m.Kept cfg) :
    m'.Kept cfg := by
  obtain ⟨inst, mid, -, effect, advances⟩ := steps.effect kept.valid
  have mid_kept : mid.Kept cfg := by
    rcases effect.cases with ⟨-, called⟩ | ⟨-, returned⟩ | ⟨-, -, quiet⟩
    · exact ⟨called.valid, called.fit⟩
    · exact ⟨returned.valid, returned.fit⟩
    · exact ⟨quiet.valid, quiet.fit kept.fit⟩
  have last := advances.quiet mid_kept.valid
  exact ⟨last.valid, last.fit mid_kept.fit⟩

theorem Reaches.kept {cfg : Config} {m m' : Machine} (reaches : Reaches cfg m m') (kept : m.Kept cfg) :
    m'.Kept cfg := by
  induction reaches with
  | refl => exact kept
  | tail _ steps ih => exact steps.kept ih

theorem makeProg_fresh {cfg : Config} {fuel : Nat} {srcs : List Source} {prog : Program}
    (made : makeProg cfg fuel srcs = .ok (some prog)) : prog.stack = newStack cfg ∧ prog.heap = newHeap := by
  simp only [makeProg, bind, Except.bind] at made
  split at made
  · cases made
  · split at made
    · cases made
    · next result _ =>
      obtain ⟨statics, _ | files⟩ := result
      · cases made
      · cases made
        exact ⟨rfl, rfl⟩

theorem makeProg_stack {cfg : Config} {fuel : Nat} {srcs : List Source} {prog : Program}
    (made : makeProg cfg fuel srcs = .ok (some prog)) : prog.stack = newStack cfg := (makeProg_fresh made).1

theorem makeProg_size {cfg : Config} {fuel : Nat} {srcs : List Source} {prog : Program}
    (made : makeProg cfg fuel srcs = .ok (some prog)) : prog.heap.mem.length = memHeapSize := by
  rw [(makeProg_fresh made).2]
  exact List.length_replicate

def Stop.isErr : Stop → Bool
  | .err _ => true
  | .fault _ => false

theorem Stop.isErr_iff {stop : Stop} : stop.isErr = true ↔ ∃ diag, stop = .err diag := by
  cases stop <;> simp [Stop.isErr]

section results

variable {α : Type} {result : EStateM.Result Stop Machine α}

def returnsWith (look : α → Machine → Bool) : EStateM.Result Stop Machine α → Bool
  | .ok a m => look a m
  | .error _ _ => false

def stopsWith (look : Stop → Machine → Bool) : EStateM.Result Stop Machine α → Bool
  | .ok _ _ => false
  | .error stop m => look stop m

theorem of_returnsWith {look : α → Machine → Bool} (returns : returnsWith look result = true) :
    ∃ a m, result = .ok a m ∧ look a m = true := by
  cases result with
  | ok a m => exact ⟨a, m, rfl, returns⟩
  | error => cases returns

theorem of_stopsWith {look : Stop → Machine → Bool} (stops : stopsWith look result = true) :
    ∃ stop m, result = .error stop m ∧ look stop m = true := by
  cases result with
  | ok => cases stops
  | error stop m => exact ⟨stop, m, rfl, stops⟩

end results

def programOfAll (cfg : Config) (srcs : List Source) : Option Program := (makeProg cfg 9 srcs).toOption.join

theorem programOfAll_made {cfg : Config} {srcs : List Source} {prog : Program}
    (made : programOfAll cfg srcs = some prog) : makeProg cfg 9 srcs = .ok (some prog) := by
  unfold programOfAll at made
  cases run : makeProg cfg 9 srcs with
  | error fault =>
    rw [run] at made
    cases made
  | ok result =>
    rw [run] at made
    exact congrArg Except.ok made

def programOf (cfg : Config) (text : String) : Option Program :=
  programOfAll cfg [{ fn := "a.vm", content := some (ascii text) }]

theorem programOf_made {cfg : Config} {text : String} {prog : Program} (made : programOf cfg text = some prog) :
    makeProg cfg 9 [{ fn := "a.vm", content := some (ascii text) }] = .ok (some prog) :=
  programOfAll_made made

theorem start_kept {cfg : Config} {prog : Program} (stack : prog.stack = newStack cfg) (stdin : List Byte) :
    (Machine.start prog stdin).Kept cfg := by
  refine ⟨?_, ?_, ?_, ?_⟩ <;> simp only [Machine.start, stack]
  · exact newStack_valid cfg
  · exact Nat.two_pow_pos 16
  · exact Nat.two_pow_pos 16
  · exact .inl le_rfl

end Hvme
