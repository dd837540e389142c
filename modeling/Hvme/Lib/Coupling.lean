import Hvme.Lib.Execution
import Hvme.Lib.Outcome

set_option autoImplicit false

namespace Coupling

open Outcome

variable {ε δ σ τ α β α' β' : Type}

/-- The two computations return related values or stop with related errors, in related states, or
the first is `Past` all that: with the error it stops with, if it does, and the state it leaves. -/
inductive Joint (Past : Option ε → σ → Prop) (V : α → β → Prop) (E : ε → δ → Prop) (R : σ → τ → Prop) :
    EStateM.Result ε σ α → EStateM.Result δ τ β → Prop
  | ok {a : α} {b : β} {s : σ} {t : τ} (values : V a b) (states : R s t) : Joint Past V E R (.ok a s) (.ok b t)
  | error {e : ε} {d : δ} {s : σ} {t : τ} (stops : E e d) (states : R s t) :
    Joint Past V E R (.error e s) (.error d t)
  | returnsPast {a : α} {s : σ} {other : EStateM.Result δ τ β} (past : Past none s) : Joint Past V E R (.ok a s) other
  | stopsPast {e : ε} {s : σ} {other : EStateM.Result δ τ β} (past : Past (some e) s) :
    Joint Past V E R (.error e s) other

def Coupled (Past : Option ε → σ → Prop) (V : α → β → Prop) (E : ε → δ → Prop) (R : σ → τ → Prop)
    (x : EStateM ε σ α) (y : EStateM δ τ β) : Prop :=
  ∀ s t, R s t → Joint Past V E R (x s) (y t)

def Keeps (Past : Option ε → σ → Prop) (x : EStateM ε σ α) : Prop :=
  ∀ s, Past none s → wp x (fun _ s => Past none s) (fun e s => Past (some e) s) s

def never (_ : Option ε) (_ : σ) : Prop := False

section rules

variable {Past : Option ε → σ → Prop} {V : α → β → Prop} {W : α' → β' → Prop} {E : ε → δ → Prop}
  {R : σ → τ → Prop} {x x' : EStateM ε σ α} {y y' : EStateM δ τ β}

theorem Coupled.of_never (coupled : Coupled never V E R x y) : Coupled Past V E R x y := by
  intro s t related
  have joint := coupled s t related
  generalize x s = result at joint ⊢
  generalize y t = other at joint ⊢
  cases joint with
  | ok same states => exact .ok same states
  | error stops states => exact .error stops states
  | returnsPast past => exact past.elim
  | stopsPast past => exact past.elim

theorem keeps_never (x : EStateM ε σ α) : Keeps never x := fun _ => False.elim

theorem coupled_of_past (past : ∀ s, wp x (fun _ s => Past none s) (fun e s => Past (some e) s) s) :
    Coupled Past V E R x y := by
  intro s t _
  have ended := past s
  unfold wp at ended
  generalize x s = result at ended ⊢
  cases result with
  | ok a s => exact .returnsPast ended
  | error e s => exact .stopsPast ended

theorem coupled_pure {a : α} {b : β} (values : V a b) : Coupled Past V E R (pure a) (pure b) := by
  intro s t related
  exact .ok values related

theorem coupled_throw {e : ε} {d : δ} (stops : E e d) : Coupled Past V E R (throw e) (throw d) := by
  intro s t related
  exact .error stops related

theorem coupled_get : Coupled Past R E R get get := by
  intro s t related
  exact .ok related related

theorem coupled_modify {f : σ → σ} {g : τ → τ} (states : ∀ s t, R s t → R (f s) (g t)) :
    Coupled Past Eq E R (modify f) (modify g) := by
  intro s t related
  exact .ok rfl (states s t related)

theorem coupled_bind {f : α → EStateM ε σ α'} {g : β → EStateM δ τ β'} (first : Coupled Past V E R x y)
    (next : ∀ a b, V a b → Coupled Past W E R (f a) (g b)) (keeps : ∀ a, Keeps Past (f a)) :
    Coupled Past W E R (x >>= f) (y >>= g) := by
  intro s t related
  have joint := first s t related
  simp only [bind, EStateM.bind]
  generalize x s = result at joint ⊢
  generalize y t = other at joint ⊢
  cases joint with
  | ok same states => exact next _ _ same _ _ states
  | error stops states => exact .error stops states
  | stopsPast past => exact .stopsPast past
  -- `x` has gone past the relation already, and the rest of the computation keeps that.
  | @returnsPast a s _ past =>
    have ended := keeps a s past
    unfold wp at ended
    generalize after : f a s = result at ended
    simp only [after]
    cases result with
    | ok a s => exact .returnsPast ended
    | error e s => exact .stopsPast ended

theorem coupled_bind_first {f : α → EStateM ε σ α'} {g : β → EStateM δ τ β'} (first : Coupled never V E R x y)
    (next : ∀ a b, V a b → Coupled Past W E R (f a) (g b)) : Coupled Past W E R (x >>= f) (y >>= g) := by
  intro s t related
  have joint := first s t related
  simp only [bind, EStateM.bind]
  generalize x s = result at joint ⊢
  generalize y t = other at joint ⊢
  cases joint with
  | ok same states => exact next _ _ same _ _ states
  | error stops states => exact .error stops states
  | returnsPast past => exact past.elim
  | stopsPast past => exact past.elim

theorem coupled_ite {cond cond' : Prop} [Decidable cond] [Decidable cond'] (same : cond ↔ cond')
    (yes : cond → cond' → Coupled Past V E R x y) (no : ¬cond → ¬cond' → Coupled Past V E R x' y') :
    Coupled Past V E R (if cond then x else x') (if cond' then y else y') := by
  by_cases holds : cond
  · have holds' := same.mp holds
    rw [if_pos holds, if_pos holds']
    exact yes holds holds'
  · have fails' := mt same.mpr holds
    rw [if_neg holds, if_neg fails']
    exact no holds fails'

end rules

section runs

open Execution

variable {ρ π : Type} {step : σ → Move σ ρ} {step' : τ → Move τ π} {R : σ → τ → Prop} {Past : σ → Prop}
  {s s' : σ} {t : τ}

theorem runs_coupled (moves : ∀ s t s', R s t → Goes step s s' → Past s' ∨ ∃ t', Goes step' t t' ∧ R s' t')
    (keeps : ∀ s s', Past s → Goes step s s' → Past s') (related : R s t) (run : Runs step s s') (fresh : ¬Past s') :
    ∃ t', Runs step' t t' ∧ R s' t' := by
  induction run with
  | refl => exact ⟨t, .refl, related⟩
  | tail _ goes ih =>
    -- The states before the last one have not gone past either, since `keeps` would carry it on.
    obtain ⟨mid, run', related'⟩ := ih fun past => fresh (keeps _ _ past goes)
    obtain past | ⟨next, goes', related'⟩ := moves _ _ _ related' goes
    · exact absurd past fresh
    · exact ⟨next, run'.tail goes', related'⟩

theorem diverges_coupled (moves : ∀ s t s', R s t → Goes step s s' → Past s' ∨ ∃ t', Goes step' t t' ∧ R s' t')
    (diverges : Diverges step s) (fresh : ∀ s', Runs step s s' → ¬Past s') (related : R s t) : Diverges step' t := by
  have forward (s' : σ) (t' : τ) (run : Runs step s s') (related : R s' t') :
      ∃ s'' t'', Runs step s s'' ∧ Goes step' t' t'' ∧ R s'' t'' := by
    obtain ⟨s'', goes⟩ := diverges s' run
    obtain past | ⟨t'', goes', related⟩ := moves _ _ _ related goes
    · exact absurd past (fresh _ (run.tail goes))
    · exact ⟨s'', t'', run.tail goes, goes', related⟩
  -- The run of the second system has one of the first beside it, which always has a next step.
  have reached (t' : τ) (run' : Runs step' t t') : ∃ s', Runs step s s' ∧ R s' t' := by
    induction run' with
    | refl => exact ⟨s, .refl, related⟩
    | tail _ goes' ih =>
      obtain ⟨s', run, related⟩ := ih
      obtain ⟨s'', t'', run, goes'', related⟩ := forward s' _ run related
      cases goes_unique goes' goes''
      exact ⟨s'', run, related⟩
  intro t' run'
  obtain ⟨s', run, related⟩ := reached t' run'
  obtain ⟨s'', t'', -, goes', -⟩ := forward s' t' run related
  exact ⟨t'', goes'⟩

end runs

end Coupling
