import Hvme.Machine.Output
import Hvme.Vm.Natives

set_option autoImplicit false

namespace Hvme

open Execution

theorem move_goes {cfg : Config} {m m' : Machine} (goes : Goes (Machine.move cfg) m m') : Steps cfg m m' := by
  unfold Goes Machine.move at goes
  split at goes <;> cases goes
  assumption

theorem reaches_of_runs {cfg : Config} {m m' : Machine} (run : Runs (Machine.move cfg) m m') : Reaches cfg m m' :=
  Relation.ReflTransGen.mono (fun _ _ => move_goes) _ _ run

theorem ExecProg.finishes {cfg : Config} {prog : Program} {stdin : List Byte} {ending : Ending}
    (ends : ExecProg cfg prog stdin ending) :
    ∃ m, Reaches cfg (Machine.start prog stdin) m ∧
      match ending with
      | .halted io => Finishes cfg m (cleanStdout io)
      | .failed _ io => Finishes cfg m io
      | .fault _ => True := by
  obtain ⟨m, run, ended⟩ := ends
  refine ⟨m, reaches_of_runs run, ?_⟩
  unfold Machine.move at ended
  split at ended
  · cases ended
  · next round =>
    cases ended
    exact .done round
  · next round =>
    cases ended
    exact .failed round
  · cases ended
    trivial

namespace Vm

def End.exit : End → Option Exit
  | .halted io => some { status := 0, stdout := (cleanStdout io).stdout }
  | .failed _ io => some { status := execErrStatus, stdout := io.stdout }
  | .fault => none
  | .lost => none

/-- The process does with the files it is given what these say. -/
theorem runHvme_iff {cfg : Config} {fuel : Nat} {srcs : List Source} {files : List (List Line)} {prog : Program}
    (given : srcs ≠ []) (listed : Listed cfg fuel srcs files) (made : makeProg cfg fuel srcs = .ok (some prog))
    (small : Small files) (stdin : List Byte) (kept : ¬Yields (interpret files) (launch stdin) .lost) (exit : Exit) :
    RunHvme cfg fuel srcs stdin exit ↔ ∃ result, Yields (native files) (launch stdin) result ∧ result.exit = some exit := by
  have implements_ := (listed.runs made small stdin).natively
  have kept' : ¬Yields (native files) (launch stdin) .lost := fun lost => kept ((native_shortcut files).yields_iff.mp lost)
  constructor
  · intro run
    cases run with
    | noFiles => exact absurd rfl given
    | notMade _ _ failed => cases made.symm.trans failed
    | succeeded _ made' ends =>
      cases made.symm.trans made'
      exact ⟨_, (implements_.ends_iff kept' _).mp ⟨_, ends, rfl⟩, rfl⟩
    | failed _ made' ends =>
      cases made.symm.trans made'
      exact ⟨_, (implements_.ends_iff kept' _).mp ⟨_, ends, rfl⟩, rfl⟩
  · rintro ⟨result, yields, exits⟩
    obtain ⟨ending, ends, rfl⟩ := (implements_.ends_iff kept' result).mpr yields
    cases ending with
    | halted io =>
      cases exits
      exact .succeeded given made ends
    | failed diag io =>
      cases exits
      exact .failed given made ends
    | fault fault => cases exits

theorem runHvme_iff_sample :
    ∃ fuel, RunHvme .release fuel (sample.map Written.source) [] { status := 0, stdout := ascii "42\n" } := by
  obtain ⟨fuel, prog, made, listed⟩ := @good_listed .release sample (by decide +kernel)
  have yields := (native_shortcut (sample.map Written.lines)).yields_iff.mpr sample_ends
  exact ⟨fuel, (runHvme_iff (List.cons_ne_nil _ _) listed made sample_small [] sample_kept _).mpr
    ⟨_, yields, by decide⟩⟩

end Vm

end Hvme
