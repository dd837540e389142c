import Hvme.Lib.Outcome

set_option autoImplicit false

namespace Outcome

variable {ε σ α β : Type} {R : σ → σ → Prop} {S : ε → Prop}

/-- Where `x` returns, the state has changed as `R` allows, and where it stops, the error is in `S`. -/
def Abides (R : σ → σ → Prop) (S : ε → Prop) (x : EStateM ε σ α) : Prop :=
  ∀ s, wp x (fun _ s' => R s s') (fun e _ => S e) s

theorem Abides.bind [IsTrans σ R] {x : EStateM ε σ α} {f : α → EStateM ε σ β} (first : Abides R S x)
    (later : ∀ a, Abides R S (f a)) : Abides R S (x >>= f) := by
  intro s
  rw [wp_bind]
  refine (first s).mono (fun a mid allowed => ?_) fun _ _ => id
  exact (later a mid).mono (fun _ _ allowed' => trans_of R allowed allowed') fun _ _ => id

theorem abides_ite {cond : Prop} [Decidable cond] {x y : EStateM ε σ α} (left : Abides R S x) (right : Abides R S y) :
    Abides R S (if cond then x else y) := by
  split
  · exact left
  · exact right

theorem abides_throw {e : ε} (inside : S e) : Abides R S (throw e : EStateM ε σ α) := fun _ => inside

theorem abides_modify {f : σ → σ} (allowed : ∀ s, R s (f s)) : Abides R S (modify f : EStateM ε σ PUnit) := allowed

section reading

variable [Std.Refl R]

theorem abides_pure (a : α) : Abides R S (pure a : EStateM ε σ α) := fun s => refl_of R s

theorem abides_get : Abides R S (get : EStateM ε σ σ) := fun s => refl_of R s

theorem Abides.get_bind [IsTrans σ R] {f : σ → EStateM ε σ β} (later : ∀ s, Abides R S (f s)) :
    Abides R S (get >>= f) := abides_get.bind later

end reading

end Outcome
