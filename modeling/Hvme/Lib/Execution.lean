import Mathlib.Logic.Relation
import Mathlib.Tactic

set_option autoImplicit false

namespace Execution

variable {σ τ ρ π : Type}

inductive Move (σ ρ : Type)
  | goes (s : σ)
  | ends (r : ρ)
deriving DecidableEq, Repr

def Goes (step : σ → Move σ ρ) (s s' : σ) : Prop := step s = .goes s'

def Runs (step : σ → Move σ ρ) : σ → σ → Prop := Relation.ReflTransGen (Goes step)

def Yields (step : σ → Move σ ρ) (s : σ) (r : ρ) : Prop := ∃ last, Runs step s last ∧ step last = .ends r

def Diverges (step : σ → Move σ ρ) (s : σ) : Prop := ∀ s', Runs step s s' → ∃ s'', Goes step s' s''

section runs

variable {step : σ → Move σ ρ} {s s' : σ} {r r' : ρ}

theorem goes_unique : Relator.RightUnique (Goes step) := by
  intro s a b first second
  exact Move.goes.inj (first.symm.trans second)

theorem not_goes_of_ends (last : step s = .ends r) : ¬Goes step s s' := by
  intro goes
  cases last.symm.trans goes

theorem Runs.of_ended (run : Runs step s s') (last : step s = .ends r) : s' = s := by
  rcases run.cases_head with same | ⟨mid, goes, -⟩
  · exact same.symm
  · exact absurd goes (not_goes_of_ends last)

theorem Runs.yields_iff (run : Runs step s s') : Yields step s r ↔ Yields step s' r := by
  constructor
  · rintro ⟨last, whole, ended⟩
    rcases Relation.ReflTransGen.total_of_right_unique goes_unique whole run with back | more
    · obtain rfl := Runs.of_ended back ended
      exact ⟨s', .refl, ended⟩
    · exact ⟨last, more, ended⟩
  · rintro ⟨last, more, ended⟩
    exact ⟨last, run.trans more, ended⟩

theorem Yields.unique (ends : Yields step s r) (ends' : Yields step s r') : r = r' := by
  obtain ⟨last, run, ended⟩ := ends
  obtain ⟨last', run', ended'⟩ := run.yields_iff.mp ends'
  obtain rfl := Runs.of_ended run' ended
  exact Move.ends.inj (ended.symm.trans ended')

theorem Diverges.not_yields (diverges : Diverges step s) : ¬Yields step s r := by
  rintro ⟨last, run, ended⟩
  obtain ⟨next, goes⟩ := diverges last run
  exact not_goes_of_ends ended goes

theorem yields_or_diverges (step : σ → Move σ ρ) (s : σ) : (∃ r, Yields step s r) ∨ Diverges step s := by
  by_contra neither
  obtain ⟨endless, stops⟩ := not_or.mp neither
  -- Without a result no state that the run comes to is an end, so that each has a next one.
  refine stops fun s' run => ?_
  cases moved : step s' with
  | goes next => exact ⟨next, moved⟩
  | ends r => exact absurd ⟨r, s', run, moved⟩ endless

end runs

def finish (step : σ → Move σ ρ) : Nat → σ → Option ρ
  | 0, _ => none
  | fuel + 1, s =>
    match step s with
    | .goes s => finish step fuel s
    | .ends r => some r

theorem yields_of_finish {step : σ → Move σ ρ} {fuel : Nat} {s : σ} {r : ρ} (finished : finish step fuel s = some r) :
    Yields step s r := by
  induction fuel generalizing s with
  | zero => cases finished
  | succ fuel ih =>
    rw [finish] at finished
    split at finished
    · next next goes =>
      obtain ⟨last, run, ended⟩ := ih finished
      exact ⟨last, .head goes run, ended⟩
    · next ended =>
      cases finished
      exact ⟨s, .refl, ended⟩

/-- Moves of two systems that go together: to related states, to related results, or to a result
of the second system that says nothing about the first. -/
inductive Matched (R : σ → τ → Prop) (E : ρ → π → Prop) (Lost : π → Prop) : Move σ ρ → Move τ π → Prop
  | goes {s : σ} {t : τ} (related : R s t) : Matched R E Lost (.goes s) (.goes t)
  | ends {r : ρ} {p : π} (related : E r p) : Matched R E Lost (.ends r) (.ends p)
  | lost {move : Move σ ρ} {p : π} (lost : Lost p) : Matched R E Lost move (.ends p)

def Follows (step : σ → Move σ ρ) (step' : τ → Move τ π) (R : σ → τ → Prop) (E : ρ → π → Prop)
    (Lost : π → Prop) : Prop :=
  ∀ s t, R s t → Matched R E Lost (step s) (step' t)

section follows

variable {step : σ → Move σ ρ} {step' : τ → Move τ π} {R : σ → τ → Prop} {E : ρ → π → Prop} {Lost : π → Prop}
  {s s' : σ} {t t' : τ} {r : ρ} {p : π}

theorem Follows.goes (follows : Follows step step' R E Lost) (related : R s t) (goes : Goes step' t t') :
    ∃ s', Goes step s s' ∧ R s' t' := by
  have matched := follows s t related
  rw [show step' t = .goes t' from goes] at matched
  generalize moved : step s = move at matched
  cases matched with
  | goes related => exact ⟨_, moved, related⟩

theorem Follows.runs (follows : Follows step step' R E Lost) (related : R s t) (run : Runs step' t t') :
    ∃ s', Runs step s s' ∧ R s' t' := by
  induction run with
  | refl => exact ⟨s, .refl, related⟩
  | tail _ goes ih =>
    obtain ⟨mid, run, related⟩ := ih
    obtain ⟨next, goes, related⟩ := follows.goes related goes
    exact ⟨next, run.tail goes, related⟩

theorem Follows.yields (follows : Follows step step' R E Lost) (related : R s t) (ends : Yields step' t p)
    (kept : ¬Lost p) : ∃ r, Yields step s r ∧ E r p := by
  obtain ⟨last', run', ended'⟩ := ends
  obtain ⟨last, run, related⟩ := follows.runs related run'
  have matched := follows last last' related
  rw [ended'] at matched
  generalize moved : step last = move at matched
  cases matched with
  | ends related => exact ⟨_, ⟨last, run, moved⟩, related⟩
  | lost lost => exact absurd lost kept

theorem Follows.runs_back (follows : Follows step step' R E Lost) (related : R s t) (run : Runs step s s') :
    (∃ t', Runs step' t t' ∧ R s' t') ∨ ∃ p, Yields step' t p ∧ Lost p := by
  induction run with
  | refl => exact .inl ⟨t, .refl, related⟩
  | tail _ goes ih =>
    rcases ih with ⟨mid, run, related⟩ | lost
    -- A lost result ends the second run, whatever the first one goes on to do.
    · have matched := follows _ mid related
      rw [show step _ = .goes _ from goes] at matched
      generalize moved : step' mid = move at matched
      cases matched with
      | goes related => exact .inl ⟨_, run.tail moved, related⟩
      | lost lost => exact .inr ⟨_, ⟨mid, run, moved⟩, lost⟩
    · exact .inr lost

theorem Follows.yields_back (follows : Follows step step' R E Lost) (related : R s t) (ends : Yields step s r) :
    ∃ p, Yields step' t p ∧ (E r p ∨ Lost p) := by
  obtain ⟨last, run, ended⟩ := ends
  rcases follows.runs_back related run with ⟨last', run', related⟩ | ⟨p, ends', lost⟩
  · have matched := follows last last' related
    rw [ended] at matched
    generalize moved : step' last' = move at matched
    cases matched with
    | ends related => exact ⟨_, ⟨last', run', moved⟩, .inl related⟩
    | lost lost => exact ⟨_, ⟨last', run', moved⟩, .inr lost⟩
  · exact ⟨p, ends', .inr lost⟩

theorem Follows.diverges (follows : Follows step step' R E Lost) (related : R s t) (diverges : Diverges step' t) :
    Diverges step s := by
  intro s' run
  rcases follows.runs_back related run with ⟨t', run', related⟩ | ⟨p, ends, -⟩
  · obtain ⟨next', goes'⟩ := diverges t' run'
    obtain ⟨next, goes, -⟩ := follows.goes related goes'
    exact ⟨next, goes⟩
  · exact absurd ends diverges.not_yields

end follows

def Agree (step : σ → Move σ ρ) (step' : τ → Move τ ρ) (R : σ → τ → Prop) : Prop :=
  Follows step step' R Eq fun _ => False

theorem Agree.yields_iff {step : σ → Move σ ρ} {step' : τ → Move τ ρ} {R : σ → τ → Prop} {s : σ} {t : τ} {r : ρ}
    (agree : Agree step step' R) (related : R s t) : Yields step s r ↔ Yields step' t r := by
  constructor
  · intro ends
    obtain ⟨p, ends', rfl | lost⟩ := Follows.yields_back agree related ends
    · exact ends'
    · exact lost.elim
  · intro ends
    obtain ⟨r', ends', rfl⟩ := Follows.yields agree related ends not_false
    exact ends'

end Execution
