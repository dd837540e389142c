import Mathlib.Tactic

set_option autoImplicit false

namespace Lookahead

variable {ι α β : Type}

abbrev Reader (ι α : Type) := List ι → α × List ι

/-- A reader that leaves the symbol `next` unread does the same whatever comes behind it. -/
def Causal (read : Reader ι α) : Prop :=
  ∀ (ahead : List ι) (next : ι) (rest : List ι),
    (read (ahead ++ next :: rest)).2.length ≤ rest.length ∨
      ∃ a unread, ∀ other, read (ahead ++ next :: other) = (a, unread ++ next :: other)

def Shrinks (read : Reader ι α) : Prop := ∀ s, (read s).2 <:+ s

def span (p : ι → Bool) : Reader ι (List ι) := fun s => (s.takeWhile p, s.dropWhile p)

def peek : Reader ι (Option ι) := fun s => (s.head?, s)

def takeIf (p : ι → Bool) : Reader ι Bool
  | [] => (false, [])
  | c :: s => if p c then (true, s) else (false, c :: s)

def Reader.andThen (read : Reader ι α) (more : α → Reader ι β) : Reader ι β := fun s => more (read s).1 (read s).2

theorem span_causal (p : ι → Bool) : Causal (span p) := by
  intro ahead next rest
  induction ahead with
  | nil =>
    by_cases taken : p next = true
    · refine .inl ?_
      simp only [span, List.nil_append, List.dropWhile_cons, taken, if_true]
      exact (List.dropWhile_suffix p).length_le
    · exact .inr ⟨[], [], fun other => by simp [span, taken]⟩
  | cons c ahead ih =>
    by_cases taken : p c = true
    · simp only [span, List.cons_append, List.dropWhile_cons, List.takeWhile_cons, taken, if_true] at ih ⊢
      refine ih.imp_right ?_
      rintro ⟨a, unread, same⟩
      refine ⟨c :: a, unread, fun other => ?_⟩
      simp only [Prod.mk.injEq] at same ⊢
      exact ⟨by rw [(same other).1], (same other).2⟩
    · exact .inr ⟨[], c :: ahead, fun other => by simp [span, taken]⟩

theorem span_shrinks (p : ι → Bool) : Shrinks (span p) := fun _ => List.dropWhile_suffix p

theorem peek_causal : Causal (peek : Reader ι (Option ι)) := by
  intro ahead next rest
  refine .inr ⟨(ahead ++ [next]).head?, ahead, fun other => ?_⟩
  cases ahead <;> rfl

theorem peek_shrinks : Shrinks (peek : Reader ι (Option ι)) := fun _ => List.suffix_rfl

theorem takeIf_causal (p : ι → Bool) : Causal (takeIf p) := by
  intro ahead next rest
  cases ahead with
  | nil =>
    by_cases taken : p next = true
    · exact .inl (by simp [takeIf, taken])
    · exact .inr ⟨false, [], fun other => by simp [takeIf, taken]⟩
  | cons c ahead =>
    by_cases taken : p c = true
    · exact .inr ⟨true, ahead, fun other => by simp [takeIf, taken]⟩
    · exact .inr ⟨false, c :: ahead, fun other => by simp [takeIf, taken]⟩

theorem takeIf_shrinks (p : ι → Bool) : Shrinks (takeIf p) := by
  intro s
  cases s with
  | nil => exact List.suffix_rfl
  | cons c s =>
    rw [takeIf]
    split
    · exact List.suffix_cons c s
    · exact List.suffix_rfl

theorem pure_causal (a : α) : Causal (Prod.mk a : Reader ι α) := by
  intro ahead next rest
  exact .inr ⟨a, ahead, fun other => rfl⟩

theorem pure_shrinks (a : α) : Shrinks (Prod.mk a : Reader ι α) := fun _ => List.suffix_rfl

section andThen

variable {read : Reader ι α} {more : α → Reader ι β}

theorem Causal.andThen (first : Causal read) (second : ∀ a, Causal (more a)) (shrinks : ∀ a, Shrinks (more a)) :
    Causal (read.andThen more) := by
  intro ahead next rest
  rcases first ahead next rest with past | ⟨a, unread, same⟩
  · exact .inl ((shrinks _ _).length_le.trans past)
  · simp only [Reader.andThen, same]
    exact second a unread next rest

theorem Shrinks.andThen (first : Shrinks read) (second : ∀ a, Shrinks (more a)) : Shrinks (read.andThen more) :=
  fun s => (second _ _).trans (first s)

end andThen

end Lookahead
