import Hvme.Lib.Execution

set_option autoImplicit false

namespace Execution

variable {σ ρ : Type} {step quick : σ → Move σ ρ}

section finish

variable {fuel : Nat} {s s' : σ} {r : ρ}

theorem finish_of_yields (yields : Yields step s r) : ∃ fuel, finish step fuel s = some r := by
  obtain ⟨last, run, ended⟩ := yields
  induction run using Relation.ReflTransGen.head_induction_on with
  | refl => exact ⟨1, by rw [finish, ended]⟩
  | head goes _ ih =>
    obtain ⟨fuel, finished⟩ := ih
    refine ⟨fuel + 1, ?_⟩
    rw [finish, show step _ = .goes _ from goes]
    exact finished

theorem finish_goes (finished : finish step fuel s = some r) (goes : Goes step s s') :
    ∃ less < fuel, finish step less s' = some r := by
  cases fuel with
  | zero => cases finished
  | succ less =>
    rw [finish, show step s = .goes s' from goes] at finished
    exact ⟨less, Nat.lt_succ_self less, finished⟩

theorem finish_later (finished : finish step fuel s = some r) (run : Relation.TransGen (Goes step) s s') :
    ∃ less < fuel, finish step less s' = some r := by
  induction run with
  | single goes => exact finish_goes finished goes
  | tail _ goes ih =>
    obtain ⟨less, below, finished'⟩ := ih
    obtain ⟨less', below', finished''⟩ := finish_goes finished' goes
    exact ⟨less', below'.trans below, finished''⟩

end finish

inductive Hastens (step : σ → Move σ ρ) (s : σ) : Move σ ρ → Prop
  | goes {s' : σ} (run : Relation.TransGen (Goes step) s s') : Hastens step s (.goes s')
  | ends {r : ρ} (yields : Yields step s r) : Hastens step s (.ends r)

/-- Each move of `quick` gets as far as some steps do. -/
def Shortcut (step quick : σ → Move σ ρ) : Prop := ∀ s, Hastens step s (quick s)

section shortcuts

variable {s s' : σ} {r : ρ}

theorem hastens_self (step : σ → Move σ ρ) (s : σ) : Hastens step s (step s) := by
  cases moved : step s with
  | goes s' => exact .goes (.single moved)
  | ends r => exact .ends ⟨s, .refl, moved⟩

theorem Shortcut.goes (shortcut : Shortcut step quick) (goes : Goes quick s s') : Relation.TransGen (Goes step) s s' := by
  have hastens := shortcut s
  rw [show quick s = .goes s' from goes] at hastens
  cases hastens with
  | goes run => exact run

theorem Shortcut.runs (shortcut : Shortcut step quick) (run : Runs quick s s') : Runs step s s' := by
  induction run with
  | refl => exact .refl
  | tail _ goes ih => exact ih.trans (shortcut.goes goes).to_reflTransGen

theorem Shortcut.yields_iff (shortcut : Shortcut step quick) : Yields quick s r ↔ Yields step s r := by
  constructor
  · rintro ⟨last, run, ended⟩
    have hastens := shortcut last
    rw [ended] at hastens
    cases hastens with
    | ends yields => exact (shortcut.runs run).yields_iff.mpr yields
  · intro yields
    obtain ⟨fuel, finished⟩ := finish_of_yields yields
    clear yields
    -- Induction on the steps that are left: a move of `quick` takes at least one of them.
    induction fuel using Nat.strong_induction_on generalizing s with
    | _ fuel ih =>
      have hastens := shortcut s
      cases moved : quick s with
      | goes s' =>
        obtain ⟨less, below, finished'⟩ := finish_later finished (shortcut.goes moved)
        obtain ⟨last, run, ended⟩ := ih less below finished'
        exact ⟨last, .head moved run, ended⟩
      | ends r' =>
        rw [moved] at hastens
        cases hastens with
        | ends yields =>
          rw [yields.unique (yields_of_finish finished)] at moved
          exact ⟨s, .refl, moved⟩

end shortcuts

end Execution
