import Mathlib.Tactic

set_option autoImplicit false

namespace Outcome

variable {ε σ α β : Type}

def wp (x : EStateM ε σ α) (post : α → σ → Prop) (stop : ε → σ → Prop) (s : σ) : Prop :=
  match x s with
  | .ok a s => post a s
  | .error e s => stop e s

section rules

variable {post : α → σ → Prop} {stop : ε → σ → Prop} {s : σ}

@[simp] theorem wp_pure (a : α) : wp (pure a) post stop s ↔ post a s := Iff.rfl

@[simp] theorem wp_throw (e : ε) : wp (throw e : EStateM ε σ α) post stop s ↔ stop e s := Iff.rfl

@[simp] theorem wp_get {post : σ → σ → Prop} : wp (get : EStateM ε σ σ) post stop s ↔ post s s := Iff.rfl

@[simp] theorem wp_modify {post : PUnit → σ → Prop} (f : σ → σ) :
    wp (modify f : EStateM ε σ PUnit) post stop s ↔ post ⟨⟩ (f s) := Iff.rfl

@[simp] theorem wp_bind {post : β → σ → Prop} (x : EStateM ε σ α) (f : α → EStateM ε σ β) :
    wp (x >>= f) post stop s ↔ wp x (fun a s => wp (f a) post stop s) stop s := by
  simp only [wp, bind, EStateM.bind]
  cases x s <;> rfl

theorem wp_ite (cond : Prop) [Decidable cond] (x y : EStateM ε σ α) :
    wp (if cond then x else y) post stop s ↔
      (cond → wp x post stop s) ∧ (¬cond → wp y post stop s) := by
  split <;> simp [*]

end rules

theorem wp.mono {x : EStateM ε σ α} {post post' : α → σ → Prop} {stop stop' : ε → σ → Prop} {s : σ}
    (holds : wp x post stop s) (returns : ∀ a s, post a s → post' a s) (stops : ∀ e s, stop e s → stop' e s) :
    wp x post' stop' s := by
  unfold wp at holds ⊢
  split at holds
  · exact returns _ _ holds
  · exact stops _ _ holds

theorem wp.and {x : EStateM ε σ α} {post post' : α → σ → Prop} {stop stop' : ε → σ → Prop} {s : σ}
    (holds : wp x post stop s) (holds' : wp x post' stop' s) :
    wp x (fun a s => post a s ∧ post' a s) (fun e s => stop e s ∧ stop' e s) s := by
  unfold wp at holds holds' ⊢
  split at holds
  next run => simp only [run] at holds' ⊢; exact ⟨holds, holds'⟩
  next run => simp only [run] at holds' ⊢; exact ⟨holds, holds'⟩

theorem wp.returns {x : EStateM ε σ α} {post : α → σ → Prop} {stop : ε → σ → Prop} {s s' : σ} {a : α}
    (holds : wp x post stop s) (run : x s = .ok a s') : post a s' := by
  simpa only [wp, run] using holds

theorem wp.stops {x : EStateM ε σ α} {post : α → σ → Prop} {stop : ε → σ → Prop} {s s' : σ} {e : ε}
    (holds : wp x post stop s) (run : x s = .error e s') : stop e s' := by
  simpa only [wp, run] using holds

theorem wp_iff {x : EStateM ε σ α} {post : α → σ → Prop} {stop : ε → σ → Prop} {s : σ} :
    wp x post stop s ↔
      (∀ a s', x s = .ok a s' → post a s') ∧ ∀ e s', x s = .error e s' → stop e s' := by
  unfold wp
  cases x s <;> simp

theorem wp_congr {x y : EStateM ε σ α} {post : α → σ → Prop} {stop : ε → σ → Prop} {s : σ} (same : x s = y s) :
    wp x post stop s ↔ wp y post stop s := by
  unfold wp
  rw [same]

theorem wp_of_ok {x : EStateM ε σ α} {post : α → σ → Prop} {stop : ε → σ → Prop} {s s' : σ} {a : α}
    (run : x s = .ok a s') : wp x post stop s ↔ post a s' := by
  simp only [wp, run]

theorem wp_of_error {x : EStateM ε σ α} {post : α → σ → Prop} {stop : ε → σ → Prop} {s s' : σ} {e : ε}
    (run : x s = .error e s') : wp x post stop s ↔ stop e s' := by
  simp only [wp, run]

theorem wp.total {x : EStateM ε σ α} {post : α → σ → Prop} {s : σ}
    (holds : wp x post (fun _ _ => False) s) : ∃ a s', x s = .ok a s' ∧ post a s' := by
  unfold wp at holds
  split at holds
  · next a s' run => exact ⟨a, s', run, holds⟩
  · exact holds.elim

theorem wp.fails {x : EStateM ε σ α} {stop : ε → σ → Prop} {s : σ}
    (holds : wp x (fun _ _ => False) stop s) : ∃ e s', x s = .error e s' ∧ stop e s' := by
  unfold wp at holds
  split at holds
  · exact holds.elim
  · next e s' run => exact ⟨e, s', run, holds⟩

end Outcome
