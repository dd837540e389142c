import Hvme.Lib.Recording
import Hvme.Machine.Footprint
import Hvme.Machine.Layout

set_option autoImplicit false

namespace Hvme

open Outcome Recording

def Stores (inst : Inst) (m m' : Machine) (i : Nat) : Prop :=
  match inst.code with
  | .call => m.prog.stack.sp ≤ i ∧ i < m'.prog.stack.sp
  | .ret => i = m.prog.stack.arg
  | _ => Writes inst m i

abbrev CellLog := Nat → Option Word

open Classical in
noncomputable def logCells (m m' : Machine) (log : CellLog) : CellLog := fun i =>
  if ∃ inst, m.inst = some inst ∧ Stores inst m m' i then m'.prog.stack.ops[i]? else log i

/-- The allocation is whole blocks that cover the stack, each of whose cells holds the word last
stored to it. -/
structure Intact (cfg : Config) (m : Machine) (log : CellLog) : Prop where
  length_eq : m.prog.stack.ops.length = m.prog.stack.len
  blocks : ∃ blocks, 0 < blocks ∧ m.prog.stack.len = blocks * cfg.stackBlockSize
  sp_le : m.prog.stack.sp ≤ m.prog.stack.len
  cells : ∀ i < m.prog.stack.sp, ∃ word, log i = some word ∧ m.prog.stack.ops[i]? = some word

def Within (inst : Inst) (m : Machine) : Prop := inst.code = .ret → m.prog.stack.arg < m.prog.stack.sp

/-- A sum or a difference finds its operands on the border of a block. -/
def Split (cfg : Config) (inst : Inst) (m : Machine) : Prop :=
  (inst.code = .add ∨ inst.code = .sub) ∧ m.prog.stack.base + 2 ≤ m.prog.stack.sp ∧ m.Torn cfg

section intact

variable {cfg : Config} {inst : Inst} {m m' : Machine} {log : CellLog}

theorem Intact.valid (intact : Intact cfg m log) : m.prog.stack.Valid cfg :=
  ⟨intact.length_eq, intact.blocks, intact.sp_le⟩

theorem Intact.of_valid (valid : m.prog.stack.Valid cfg)
    (cells : ∀ i < m.prog.stack.sp, log i = m.prog.stack.ops[i]?) : Intact cfg m log where
  length_eq := valid.length_eq
  blocks := valid.blocks
  sp_le := valid.sp_le
  cells := by
    intro i inside
    obtain ⟨word, here⟩ := valid.cell inside
    exact ⟨word, (cells i inside).trans here, here⟩

theorem Intact.log_eq (intact : Intact cfg m log) {i : Nat} (inside : i < m.prog.stack.sp) :
    log i = m.prog.stack.ops[i]? := by
  obtain ⟨_, logged, here⟩ := intact.cells i inside
  exact logged.trans here.symm

theorem Intact.logged (intact : Intact cfg m log) (valid : m'.prog.stack.Valid cfg) (here : m.inst = some inst)
    (cells : ∀ i < m'.prog.stack.sp, ¬Stores inst m m' i →
      i < m.prog.stack.sp ∧ m'.prog.stack.ops[i]? = m.prog.stack.ops[i]?) :
    Intact cfg m' (logCells m m' log) := by
  apply Intact.of_valid valid
  intro i inside
  unfold logCells
  split
  next => rfl
  next unstored =>
    obtain ⟨below, same⟩ := cells i inside fun stored => unstored ⟨inst, here, stored⟩
    rw [intact.log_eq below, same]

theorem stores_of_writes (call : inst.code ≠ .call) (ret : inst.code ≠ .ret) (i : Nat) :
    Stores inst m m' i ↔ Writes inst m i := by
  unfold Stores
  split
  next code => exact absurd code call
  next code => exact absurd code ret
  next => rfl

theorem Effect.call (effect : Effect cfg inst m m') (code : inst.code = .call) : Called cfg inst m m' := by
  rw [Effect, code] at effect
  exact effect

theorem Effect.ret (effect : Effect cfg inst m m') (code : inst.code = .ret) : Returned cfg m m' := by
  rw [Effect, code] at effect
  exact effect

theorem Intact.steps (intact : Intact cfg m log) (steps : Guarded cfg Within m m') :
    Intact cfg m' (logCells m m' log) := by
  obtain ⟨⟨inst, mid, here, effect, advances⟩, meets⟩ := And.intro (steps.1.effect intact.valid) steps.2
  have stack := advances.stack
  have within := meets inst here
  -- `call` and `return` move the frame, so their effects are stated apart from the footprint.
  by_cases call : inst.code = .call
  · have called := effect.call call
    apply intact.logged (stack ▸ called.valid) here
    intro i inside unstored
    have below : i < m.prog.stack.sp := by
      simp only [Stores, call] at unstored
      omega
    exact ⟨below, stack ▸ called.below i below⟩
  · by_cases ret : inst.code = .ret
    · have returned := effect.ret ret
      have sp := returned.sp
      have arg := within ret
      apply intact.logged (stack ▸ returned.valid) here
      intro i inside unstored
      rw [stack] at inside
      have other : i ≠ m.prog.stack.arg := by simpa only [Stores, ret] using unstored
      have below : i < m.prog.stack.sp := by omega
      exact ⟨below, stack ▸ returned.below i below other⟩
    · obtain ⟨mid, run, advances⟩ := steps.1.ran here
      have stack := advances.stack
      have footprint := (execInst_treads intact.valid here call ret).returns run
      apply intact.logged (stack ▸ footprint.valid) here
      intro i inside unstored
      rw [stack] at inside ⊢
      exact footprint.cells i inside fun written => unstored ((stores_of_writes call ret i).mpr written)

theorem Undone.intact (undone : Undone cfg m.prog.stack m'.prog.stack) (intact : Intact cfg m log) :
    Intact cfg m' log := by
  apply Intact.of_valid (undone.valid intact.valid)
  intro i inside
  obtain ⟨below, kept⟩ := undone.cells inside
  rw [intact.log_eq below, kept]

theorem Retaken.intact_iff (retaken : Retaken cfg m.prog.stack m'.prog.stack) (intact : Intact cfg m log) :
    Intact cfg m' log ↔ ¬m.Torn cfg := by
  have restored : m'.prog.stack.sp = m.prog.stack.sp := retaken.sp
  obtain ⟨y, x, mid, last, word, first, word', second, same⟩ := retaken
  have sp := first.sp
  have sp' := second.sp
  have len := first.len
  have len' := second.len
  have positive := cfg.stack_pos
  have sp_le := intact.sp_le
  have last_len : m'.prog.stack.len = last.len := by rw [same]
  have last_ops : m'.prog.stack.ops = last.ops := by rw [same]
  -- The two pops give back a block that one of the operands was in just where the stack is torn.
  have lost : last.len < m.prog.stack.sp ↔ m.Torn cfg := by
    unfold Machine.Torn
    split at len <;> split at len' <;> omega
  rw [← lost, Nat.not_lt]
  constructor
  next =>
    intro kept
    exact last_len ▸ restored ▸ kept.sp_le
  next =>
    intro covered
    have valid : m'.prog.stack.Valid cfg := by
      rw [same]
      exact ⟨second.valid.length_eq, second.valid.blocks, by simp only; omega⟩
    apply Intact.of_valid valid
    intro i inside
    rw [restored] at inside
    have within : i < mid.len := by
      split at len' <;> omega
    rw [intact.log_eq inside, last_ops, second.kept i (by omega), first.kept i within]

theorem execInst_retakes (valid : m.prog.stack.Valid cfg) (two : m.prog.stack.base + 2 ≤ m.prog.stack.sp)
    (here : m.inst = some inst) (code : inst.code = .add ∨ inst.code = .sub) :
    wp (execInst cfg) (fun _ _ => True)
      (fun stop m' => ∀ diag, stop = .err diag → Retaken cfg m.prog.stack m'.prog.stack) m := by
  unfold execInst
  simp only [wp_bind, wp_activeInst, here, reduceCtorEq, false_implies, true_and, Option.some.injEq, forall_eq']
  rcases code with code | code
  next =>
    rw [code]
    apply wp_twoOperands valid two
    intro y x mid after word popped word' popped'
    simp only [wp_ite, wp_bind, wp_bumpSp, addOverflowError, wp_execErr]
    constructor
    next => exact fun _ => wp_execSpush (m := m.withStack after) popped'.valid _ fun _ _ => trivial
    next => exact fun _ _ _ => ⟨y, x, mid, after, word, popped, word', popped', rfl⟩
  next =>
    rw [code]
    apply wp_twoOperands valid two
    intro y x mid after word popped word' popped'
    simp only [wp_ite, wp_bind, wp_bumpSp, subUnderflowError, wp_execErr]
    constructor
    next => exact fun _ => wp_execSpush (m := m.withStack after) popped'.valid _ fun _ _ => trivial
    next => exact fun _ _ _ => ⟨y, x, mid, after, word, popped, word', popped', rfl⟩

theorem Intact.failed_iff (intact : Intact cfg m log) (here : m.inst = some inst) {diag : Diag}
    (failed : execRound cfg m = .error (.err diag) m') : Intact cfg m' log ↔ ¬Split cfg inst m := by
  have run := execRound_failed here failed
  by_cases sum : (inst.code = .add ∨ inst.code = .sub) ∧ m.prog.stack.base + 2 ≤ m.prog.stack.sp
  · have retaken := (execInst_retakes intact.valid sum.2 here sum.1).stops run diag rfl
    rw [retaken.intact_iff intact, Split, and_iff_right sum.1, and_iff_right sum.2]
  · have unsplit : ¬Split cfg inst m := fun split => sum ⟨split.1, split.2.1⟩
    apply iff_of_true _ unsplit
    apply Undone.intact _ intact
    by_cases frame : inst.code = .call ∨ inst.code = .ret
    · obtain ⟨io, same⟩ := (execInst_aborts intact.valid here frame).stops run diag rfl
      exact same ▸ .same
    · obtain ⟨call, ret⟩ := not_or.mp frame
      rcases ((execInst_treads intact.valid here call ret).stops run diag rfl).stack with undone | ⟨code, retaken⟩
      next => exact undone
      next => exact absurd ⟨code, retaken.two⟩ sum

end intact

/-- In every run whose returns store inside the stack, the stack is intact in every machine
reached, and an instruction that fails leaves it so unless its operands were split. -/
theorem stackIntact_iff {cfg : Config} {fuel : Nat} {srcs : List Source} {prog : Program}
    (made : makeProg cfg fuel srcs = .ok (some prog)) {stdin : List Byte} {m : Machine} {log : CellLog}
    (run : Recorded (Guarded cfg Within) logCells (Machine.start prog stdin) (fun _ => none) m log) :
    Intact cfg m log ∧ ∀ inst diag m', m.inst = some inst → execRound cfg m = .error (.err diag) m' →
      (Intact cfg m' log ↔ ¬Split cfg inst m) := by
  have kept := start_kept (makeProg_stack made) stdin
  have intact : Intact cfg m log := by
    apply run.invariant
    next =>
      apply Intact.of_valid kept.valid
      intro i inside
      rw [show (Machine.start prog stdin).prog.stack = newStack cfg from makeProg_stack made] at inside
      exact absurd inside (Nat.not_lt_zero i)
    next => exact fun _ _ _ _ steps intact => intact.steps steps
  exact ⟨intact, fun inst diag m' here failed => intact.failed_iff here failed⟩

instance (inst : Inst) (m : Machine) : Decidable (Within inst m) := inferInstanceAs (Decidable (_ → _))

theorem stackIntact_whole :
    ∃ prog m m' log diag,
      makeProg .unitTests 9 [{ fn := "a.vm", content := some (ascii
        "function Sys.init 0\npush constant 1\npush constant 65535\npush constant 1\nadd\n") }] =
        .ok (some prog) ∧
      Recorded (Guarded .unitTests Within) logCells (Machine.start prog []) (fun _ => none) m log ∧
      execRound .unitTests m = .error (.err diag) m' ∧ Intact .unitTests m' log := by
  have ran : ((programOf .unitTests
      "function Sys.init 0\npush constant 1\npush constant 65535\npush constant 1\nadd\n").bind fun prog =>
      follow .unitTests Within 5 (Machine.start prog []) []).map (fun result =>
        result.1.inst.isSome && decide (result.1.prog.stack.sp = 12 ∧ result.1.prog.stack.len = 12) &&
          stopsWith (fun stop _ => stop.isErr) (execRound .unitTests result.1)) = some true := by
    decide +kernel
  obtain ⟨⟨m, callers⟩, bound, ready⟩ := Option.map_eq_some_iff.mp ran
  obtain ⟨prog, made, followed⟩ := Option.bind_eq_some_iff.mp bound
  obtain ⟨log, run⟩ := exists_recorded logCells (fun _ => none) (Run.start.follow followed).guarded
  simp only [Bool.and_eq_true, Option.isSome_iff_exists, decide_eq_true_eq] at ready
  obtain ⟨⟨⟨inst, here⟩, sp, len⟩, stops⟩ := ready
  obtain ⟨stop, m', failed, err⟩ := of_stopsWith stops
  obtain ⟨diag, rfl⟩ := Stop.isErr_iff.mp err
  have iff_ := (stackIntact_iff (programOf_made made) run).2 inst diag m' here failed
  refine ⟨prog, m, m', log, diag, programOf_made made, run, failed, iff_.mpr ?_⟩
  rintro ⟨_, _, _, torn⟩
  rw [sp, len] at torn
  exact absurd torn (by decide)

/-- The second operand of a sum that overflows is alone in the last block: the block is given back,
and the stack put back reaches beyond its allocation. -/
theorem overflow_at_block_border :
    ∃ prog m m' log diag,
      makeProg .unitTests 9 [{ fn := "a.vm", content := some (ascii
        "function Sys.init 0\npush constant 65535\npush constant 1\nadd\n") }] = .ok (some prog) ∧
      Recorded (Guarded .unitTests Within) logCells (Machine.start prog []) (fun _ => none) m log ∧
      execRound .unitTests m = .error (.err diag) m' ∧ m'.prog.stack.len < m'.prog.stack.sp ∧
      ¬Intact .unitTests m' log := by
  have ran : ((programOf .unitTests "function Sys.init 0\npush constant 65535\npush constant 1\nadd\n").bind
      fun prog => follow .unitTests Within 4 (Machine.start prog []) []).map (fun result =>
        stopsWith (fun stop m' => stop.isErr && decide (m'.prog.stack.len < m'.prog.stack.sp))
          (execRound .unitTests result.1)) = some true := by
    decide +kernel
  obtain ⟨⟨m, callers⟩, bound, stops⟩ := Option.map_eq_some_iff.mp ran
  obtain ⟨prog, made, followed⟩ := Option.bind_eq_some_iff.mp bound
  obtain ⟨log, run⟩ := exists_recorded logCells (fun _ => none) (Run.start.follow followed).guarded
  obtain ⟨stop, m', failed, left⟩ := of_stopsWith stops
  obtain ⟨err, sizes⟩ := Bool.and_eq_true_iff.mp left
  obtain ⟨diag, rfl⟩ := Stop.isErr_iff.mp err
  have beyond := of_decide_eq_true sizes
  exact ⟨prog, m, m', log, diag, programOf_made made, run, failed, beyond,
    fun intact => absurd intact.sp_le (Nat.not_le.mpr beyond)⟩

end Hvme
