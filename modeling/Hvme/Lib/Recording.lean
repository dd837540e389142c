import Mathlib.Logic.Relation

set_option autoImplicit false

namespace Recording

open Relation (ReflTransGen)

variable {σ η : Type} {Step : σ → σ → Prop} {record : σ → σ → η → η} {start s : σ} {first log : η}

inductive Recorded (Step : σ → σ → Prop) (record : σ → σ → η → η) (start : σ) (first : η) : σ → η → Prop
  | start : Recorded Step record start first start first
  | step {s s' : σ} {log : η} (run : Recorded Step record start first s log) (step : Step s s') :
      Recorded Step record start first s' (record s s' log)

theorem Recorded.reaches (run : Recorded Step record start first s log) : ReflTransGen Step start s := by
  induction run with
  | start => exact .refl
  | step _ step ih => exact ih.tail step

theorem exists_recorded (record : σ → σ → η → η) (first : η) (reaches : ReflTransGen Step start s) :
    ∃ log, Recorded Step record start first s log := by
  induction reaches with
  | refl => exact ⟨first, .start⟩
  | tail _ step ih =>
    obtain ⟨log, run⟩ := ih
    exact ⟨_, run.step step⟩

theorem Recorded.invariant {Inv : σ → η → Prop} (run : Recorded Step record start first s log)
    (init : Inv start first)
    (step : ∀ s s' log, ReflTransGen Step start s → Step s s' → Inv s log → Inv s' (record s s' log)) :
    Inv s log := by
  induction run with
  | start => exact init
  | step run taken ih => exact step _ _ _ run.reaches taken ih

end Recording
