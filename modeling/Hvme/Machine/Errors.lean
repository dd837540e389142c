import Hvme.Machine.Steps

set_option autoImplicit false

namespace Hvme

/-- A failed instruction leaves the machine as it was if and only if it is none that spoils it. -/
theorem failed_unchanged_iff {cfg : Config} {fuel : Nat} {srcs : List Source} {prog : Program}
    (made : makeProg cfg fuel srcs = .ok (some prog)) {stdin : List Byte} {m m' : Machine} {inst : Inst}
    {diag : Diag} (reaches : Reaches cfg (Machine.start prog stdin) m) (here : m.inst = some inst)
    (failed : execRound cfg m = .error (.err diag) m') :
    Unchanged m m' ↔ ¬Spoils cfg inst.code m := by
  have kept := reaches.kept (start_kept (makeProg_stack made) stdin)
  exact (execRound_wp kept.valid).stops failed inst here diag rfl

theorem failed_unchanged_overflow :
    ∃ prog m m' diag,
      makeProg .unitTests 9 [{ fn := "a.vm", content := some (ascii
        "function Sys.init 0\npush constant 1\npush constant 65535\npush constant 1\nadd\n") }] =
        .ok (some prog) ∧
      Reaches .unitTests (Machine.start prog []) m ∧ execRound .unitTests m = .error (.err diag) m' ∧
      Unchanged m m' := by
  have ran : ((programOf .unitTests
      "function Sys.init 0\npush constant 1\npush constant 65535\npush constant 1\nadd\n").bind fun prog =>
      (Machine.start prog []).after .unitTests 5).map (fun m =>
        match execRound .unitTests m, m.inst with
        | .error (.err _) _, some inst => (inst.code, m.prog.stack.sp, m.prog.stack.base, m.prog.stack.len)
        | _, _ => (.none, 0, 0, 0)) = some (.add, 12, 9, 12) := by
    decide +kernel
  obtain ⟨m, bound, sizes⟩ := Option.map_eq_some_iff.mp ran
  obtain ⟨prog, made, after⟩ := Option.bind_eq_some_iff.mp bound
  split at sizes
  · next diag m' inst failed here =>
    simp only [Prod.mk.injEq] at sizes
    obtain ⟨code, sp, base, len⟩ := sizes
    have iff_ := failed_unchanged_iff (programOf_made made) (Machine.after_reaches after) here failed
    refine ⟨prog, m, m', diag, programOf_made made, Machine.after_reaches after, failed, iff_.mpr ?_⟩
    rw [code]
    simp only [Spoils, Machine.OneWord, Machine.Torn, sp, base, len, Config.unitTests]
    decide
  · cases sizes

theorem underflow_loses_operand :
    ∃ prog m m' diag,
      makeProg .unitTests 9 [{ fn := "a.vm", content := some (ascii "function Sys.init 0\npush constant 1\nadd\n") }] =
        .ok (some prog) ∧
      Reaches .unitTests (Machine.start prog []) m ∧ execRound .unitTests m = .error (.err diag) m' ∧
      ¬Unchanged m m' := by
  have ran : ((programOf .unitTests "function Sys.init 0\npush constant 1\nadd\n").bind fun prog =>
      (Machine.start prog []).after .unitTests 3).map (fun m =>
        match execRound .unitTests m with
        | .error (.err _) m' => (m.prog.stack.sp, m'.prog.stack.sp)
        | _ => (0, 0)) = some (10, 9) := by
    decide +kernel
  obtain ⟨m, bound, sizes⟩ := Option.map_eq_some_iff.mp ran
  obtain ⟨prog, made, after⟩ := Option.bind_eq_some_iff.mp bound
  split at sizes
  · next diag m' failed =>
    refine ⟨prog, m, m', diag, programOf_made made, Machine.after_reaches after, failed, fun unchanged => ?_⟩
    have same := unchanged.sp
    simp only [Prod.mk.injEq] at sizes
    omega
  · cases sizes

end Hvme
