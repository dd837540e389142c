import Hvme.Scanner.Matching

set_option autoImplicit false

namespace Hvme

theorem eatWs_append_cases (front : List Byte) (pos : Pos) :
    ((eatWs front pos).1 = [] ∧ ∀ back, eatWs (front ++ back) pos = eatWs back (eatWs front pos).2) ∨
      ((eatWs front pos).1 ≠ [] ∧ ∀ back, eatWs (front ++ back) pos =
        ((eatWs front pos).1 ++ back, (eatWs front pos).2)) := by
  induction front generalizing pos with
  | nil => exact .inl ⟨rfl, fun back => rfl⟩
  | cons c front ih =>
    simp only [List.cons_append, eatWs]
    split
    · exact ih _
    · exact .inr ⟨List.cons_ne_nil _ _, fun back => rfl⟩

theorem eatWs_eatWs (bytes : List Byte) (pos : Pos) :
    eatWs (eatWs bytes pos).1 (eatWs bytes pos).2 = eatWs bytes pos := by
  induction bytes generalizing pos with
  | nil => rfl
  | cons c bytes ih =>
    simp only [eatWs]
    split
    · exact ih _
    · next stop => simp [eatWs, stop]

theorem firstMatch_nil : firstMatch matchFns 0 [] = none := by
  decide

theorem lexStep_eatWs (cur : Pos) (bytes : List Byte) :
    lexStep { inside := false, cur := (eatWs bytes cur).2 } (eatWs bytes cur).1 =
      lexStep { inside := false, cur := cur } bytes := by
  simp only [lexStep, eatWs_eatWs, Bool.false_eq_true, if_false]

theorem lex_eatWs (cur : Pos) (bytes : List Byte) :
    lex { inside := false, cur := (eatWs bytes cur).2 } (eatWs bytes cur).1 =
      lex { inside := false, cur := cur } bytes := by
  by_cases nonempty : bytes = []
  · subst nonempty
    rfl
  · have same := lexStep_eatWs cur bytes
    by_cases blank : (eatWs bytes cur).1 = []
    · have stuck : lexStep { inside := false, cur := cur } bytes =
          .stuck { inside := false, cur := (eatWs bytes cur).2 } [] := by
        simp only [lexStep, blank, firstMatch_nil, Bool.false_eq_true, if_false]
      rw [blank, lex_nil, lex_stuck nonempty stuck]
    · cases step : lexStep { inside := false, cur := cur } bytes with
      | next next out rest => rw [lex_next nonempty step, lex_next blank (same.trans step)]; rfl
      | stuck next rest => rw [lex_stuck nonempty step, lex_stuck blank (same.trans step)]

theorem lex_eatWs_append (cur : Pos) (bytes more : List Byte) :
    lex { inside := false, cur := (eatWs bytes cur).2 } ((eatWs bytes cur).1 ++ more) =
      lex { inside := false, cur := cur } (bytes ++ more) := by
  rw [← lex_eatWs cur (bytes ++ more)]
  rcases eatWs_append_cases bytes cur with ⟨none_, through⟩ | ⟨-, stop⟩
  · rw [none_, List.nil_append, through, lex_eatWs]
  · rw [stop]

theorem lexStep_append (mark : Mark) {bytes : List Byte} (nonempty : bytes ≠ []) (more : List Byte) :
    match lexStep mark bytes with
    | .next next out rest =>
      lexStep mark (bytes ++ more) =
        if rest = [] ∧ mark.inside = false then
          .next { next with cur := (eatWs more next.cur).2 } out (eatWs more next.cur).1
        else .next next out (rest ++ more)
    | .stuck next rest =>
      mark.inside = false ∧ next = { inside := false, cur := (eatWs bytes mark.cur).2 } ∧
        rest = (eatWs bytes mark.cur).1 ∧
        (rest.any isspace = true → lexStep mark (bytes ++ more) = .stuck next (rest ++ more)) := by
  obtain ⟨inside, cur⟩ := mark
  cases inside with
  | true =>
    cases bytes with
    | nil => exact absurd rfl nonempty
    | cons c bytes =>
      simp only [lexStep, if_true, List.cons_append]
      cases c == newline <;> simp
  | false =>
    simp only [lexStep, Bool.false_eq_true, if_false]
    cases matched : firstMatch matchFns 0 (eatWs bytes cur).1 with
    | none =>
      refine ⟨trivial, rfl, rfl, fun blank => ?_⟩
      -- The rest holds a blank, so it is not empty and the skip stops before `more`.
      rcases eatWs_append_cases bytes cur with ⟨none_, -⟩ | ⟨-, stop⟩
      · rw [none_] at blank
        cases blank
      · simp only [stop, firstMatch_append_none matched blank]
    | some result =>
      obtain ⟨fnIdx, fn, found⟩ := result
      obtain ⟨fnIdx', found', matched', same⟩ := firstMatch_append_some matched more
      obtain ⟨positive, within⟩ := run_nchars (firstMatch_some matched).2.2
      rcases eatWs_append_cases bytes cur with ⟨none_, -⟩ | ⟨-, stop⟩
      · rw [none_, firstMatch_nil] at matched
        cases matched
      · simp only [stop, matched', same.nchars, same.lexeme, List.drop_append_of_le_length within]
        -- The blanks behind the lexeme may reach the end of the bytes: the skip then goes on into `more`.
        rcases eatWs_append_cases ((eatWs bytes cur).1.drop found.nchars)
          (incby found.nchars (eatWs bytes cur).2) with ⟨none_, through⟩ | ⟨some_, stop⟩
        · by_cases opener : fn = .comment
          · simp only [opener, if_true, none_, through, true_and]
          · simp only [opener, if_false, none_, through, if_true, true_and]
        · by_cases opener : fn = .comment
          · simp only [opener, if_true, some_, stop, false_and, if_false]
          · simp only [opener, if_false, some_, stop, false_and]

def Lexed.tokens (read : Lexed) : Option (List View) :=
  if read.rest.any isspace then none else some read.out

def Lexed.resume (read : Lexed) (more : List Byte) : Lexed :=
  if read.opened then lex { read.mark with cur := (eatWs more read.mark.cur).2 } (eatWs more read.mark.cur).1
  else lex read.mark (read.rest ++ more)

theorem Lexed.after_tokens (mark next : Mark) (out : List View) (rest : List Byte) (lexed : Lexed) :
    (lexed.after mark out rest next).tokens = lexed.tokens.map (out ++ ·) := by
  cases blank : lexed.rest.any isspace <;>
    simp only [Lexed.tokens, Lexed.after, blank, Bool.false_eq_true, if_true, if_false, Option.map_none,
      Option.map_some]

theorem Lexed.after_resume {mark next : Mark} {out : List View} {rest more : List Byte} {lexed : Lexed}
    (same : (lexed.after mark out rest next).opened = lexed.opened) :
    (lexed.after mark out rest next).resume more = lexed.resume more := by
  simp only [Lexed.resume, same]
  rfl

theorem lex_append (mark : Mark) (bytes more : List Byte) :
    (lex mark (bytes ++ more)).tokens =
      if (lex mark bytes).rest.any isspace then none
      else ((lex mark bytes).resume more).tokens.map ((lex mark bytes).out ++ ·) := by
  induction size : bytes.length using Nat.strong_induction_on generalizing mark bytes with
  | _ size ih =>
    by_cases nonempty : bytes = []
    · subst nonempty
      simp [Lexed.resume]
    · have longer : bytes ++ more ≠ [] := List.append_ne_nil_of_left_ne_nil nonempty _
      have appended := lexStep_append mark nonempty more
      cases step : lexStep mark bytes with
      | next next out rest =>
        simp only [step] at appended
        rw [lex_next nonempty step]
        by_cases last : rest = [] ∧ mark.inside = false
        · -- The step has eaten the blanks at the end, and eats those that follow.
          rw [if_pos last] at appended
          obtain ⟨rfl, outside⟩ := last
          rw [lex_next longer appended, Lexed.after_tokens]
          obtain ⟨inside, cur⟩ := next
          cases inside with
          | true => simp [Lexed.resume, Lexed.after, outside]
          | false => simp [Lexed.resume, Lexed.after, lex_eatWs]
        · rw [if_neg last] at appended
          have same : ((lex next rest).after mark out rest next).opened = (lex next rest).opened := by
            simp only [Lexed.after]
            split
            · next end_ =>
              subst end_
              simp only [true_and, Bool.not_eq_false] at last
              simp [last]
            · rfl
          rw [lex_next longer appended, Lexed.after_tokens, Lexed.after_resume same,
            ih _ (size ▸ lexStep_shorter nonempty step) next rest rfl]
          cases blank : (lex next rest).rest.any isspace <;>
            simp only [Lexed.after, blank, Bool.false_eq_true, if_true, if_false, Option.map_none,
              Option.map_map, Function.comp_def, List.append_assoc]
      | stuck next rest =>
        -- More bytes help only a word that no blank has ended yet.
        simp only [step] at appended
        obtain ⟨outside, rfl, rfl, onwards⟩ := appended
        rw [lex_stuck nonempty step]
        by_cases blank : (eatWs bytes mark.cur).1.any isspace = true
        · rw [lex_stuck longer (onwards blank)]
          simp [Lexed.tokens, blank, List.any_append]
        · obtain ⟨inside, cur⟩ := mark
          cases outside
          simp [Lexed.resume, blank, lex_eatWs_append]

section inside

variable (cur : Pos)

theorem lex_inside_newline (rest : List Byte) :
    (lex { inside := true, cur := cur } (newline :: rest)).tokens =
      (lex { inside := false, cur := incl cur } rest).tokens := by
  have step : lexStep { inside := true, cur := cur } (newline :: rest) =
      .next { inside := false, cur := incl cur } [] rest := rfl
  rw [lex_next (List.cons_ne_nil _ _) step, Lexed.after_tokens]
  simp

theorem lex_inside_cons {c : Byte} (other : c ≠ newline) (rest : List Byte) :
    (lex { inside := true, cur := cur } (c :: rest)).tokens =
      (lex { inside := true, cur := inc cur } rest).tokens := by
  have step : lexStep { inside := true, cur := cur } (c :: rest) =
      .next { inside := true, cur := inc cur } [] rest := by
    simp [lexStep, other]
  rw [lex_next (List.cons_ne_nil _ _) step, Lexed.after_tokens]
  simp

theorem newline_space : isspace newline = true := by
  decide

theorem lex_inside_blanks {rest : List Byte} (line : newline ∉ rest.takeWhile isspace) :
    (lex { inside := true, cur := cur } rest).tokens =
      (lex { inside := true, cur := (eatWs rest cur).2 } (eatWs rest cur).1).tokens := by
  induction rest generalizing cur with
  | nil => rfl
  | cons c rest ih =>
    cases space : isspace c with
    | false => simp [eatWs, space]
    | true =>
      simp only [List.takeWhile_cons, space, if_true, List.mem_cons, not_or] at line
      rw [lex_inside_cons cur (Ne.symm line.1), ih (inc cur) line.2]
      simp [eatWs, space, Ne.symm line.1]

theorem lex_inside_ends {rest : List Byte} (ends : newline ∈ rest.takeWhile isspace) :
    (lex { inside := true, cur := cur } rest).tokens =
      (lex { inside := false, cur := (eatWs rest cur).2 } (eatWs rest cur).1).tokens := by
  induction rest generalizing cur with
  | nil => cases ends
  | cons c rest ih =>
    cases space : isspace c with
    | false => simp [space] at ends
    | true =>
      simp only [List.takeWhile_cons, space, if_true, List.mem_cons] at ends
      by_cases here : c = newline
      · subst here
        rw [lex_inside_newline]
        simp [eatWs, space, lex_eatWs]
      · rw [lex_inside_cons cur here, ih (inc cur) (ends.resolve_left (Ne.symm here))]
        simp [eatWs, space, here]

end inside

/-- Reading `rest` on from the slashes of a comment, it makes no difference whether the blanks
at its beginning are eaten with the slashes or are taken for the text of the comment. -/
inductive Resumes : List Byte → Prop
  | line (rest : List Byte) (same : newline ∉ rest.takeWhile isspace) : Resumes rest
  | nothing (rest : List Byte) (none_ : rest.dropWhile isspace = []) : Resumes rest
  | comment (rest more : List Byte) (opener : rest.dropWhile isspace = ascii "//" ++ more)
      (later : Resumes more) : Resumes rest

theorem lexStep_comment (cur : Pos) (more : List Byte) :
    lexStep { inside := false, cur := cur } (ascii "//" ++ more) =
      .next { inside := true, cur := (eatWs more (incby 2 cur)).2 } [] (eatWs more (incby 2 cur)).1 := by
  obtain ⟨fnIdx, matched⟩ := firstMatch_text (show ScanFn.comment.text = some "//" from rfl) more
  have slashes : eatWs (ascii "//" ++ more) cur = (ascii "//" ++ more, cur) := rfl
  simp only [lexStep, Bool.false_eq_true, if_false, slashes, matched, if_true]
  rfl

theorem Resumes.lex_eq {rest : List Byte} (resumes : Resumes rest) (cur : Pos) :
    (lex { inside := true, cur := cur } rest).tokens =
      (lex { inside := true, cur := (eatWs rest cur).2 } (eatWs rest cur).1).tokens := by
  induction resumes generalizing cur with
  | line rest same => exact lex_inside_blanks cur same
  | nothing rest none_ =>
    by_cases ends : newline ∈ rest.takeWhile isspace
    · rw [lex_inside_ends cur ends, eatWs_rest, none_]
      simp [Lexed.tokens]
    · exact lex_inside_blanks cur ends
  | comment rest more opener later ih =>
    by_cases ends : newline ∈ rest.takeWhile isspace
    · have slashes : ascii "//" ++ more = 47 :: 47 :: more := rfl
      have outside := lex_next (by rw [slashes]; simp) (lexStep_comment (eatWs rest cur).2 more)
      have two : incby 2 (eatWs rest cur).2 = inc (inc (eatWs rest cur).2) := by
        rw [incby_succ, incby_succ, incby_zero]
      rw [lex_inside_ends cur ends, eatWs_rest, opener, outside, Lexed.after_tokens, slashes,
        lex_inside_cons _ (by decide), lex_inside_cons _ (by decide), ih, two]
      simp
    · exact lex_inside_blanks cur ends

theorem eatWs_suffix (rest : List Byte) (pos : Pos) : (eatWs rest pos).1 <:+ rest := by
  rw [eatWs_rest]
  exact List.dropWhile_suffix _

def LexStep.rest : LexStep → List Byte
  | .next _ _ rest => rest
  | .stuck _ rest => rest

theorem lexStep_suffix (mark : Mark) (bytes : List Byte) : (lexStep mark bytes).rest <:+ bytes := by
  unfold lexStep
  split
  · cases bytes with
    | nil => exact List.suffix_rfl
    | cons c bytes =>
      simp only
      split <;> exact List.suffix_cons c bytes
  · have start := eatWs_suffix bytes mark.cur
    simp only
    split
    · exact start
    · next fnIdx fn found matched =>
      have left := ((eatWs_suffix ((eatWs bytes mark.cur).1.drop found.nchars)
        (incby found.nchars (eatWs bytes mark.cur).2)).trans (List.drop_suffix _ _)).trans start
      split <;> exact left

theorem lex_suffix (mark : Mark) (bytes : List Byte) : (lex mark bytes).rest <:+ bytes := by
  induction size : bytes.length using Nat.strong_induction_on generalizing mark bytes with
  | _ size ih =>
    by_cases nonempty : bytes = []
    · subst nonempty
      simp
    · have suffix := lexStep_suffix mark bytes
      cases step : lexStep mark bytes with
      | next next out rest =>
        rw [step] at suffix
        rw [lex_next nonempty step]
        exact (ih _ (size ▸ lexStep_shorter nonempty step) next rest rfl).trans suffix
      | stuck next rest =>
        rw [step] at suffix
        rw [lex_stuck nonempty step]
        exact suffix

theorem Resumes.append_newline {rest : List Byte} (resumes : Resumes rest) :
    Resumes (rest ++ [newline]) := by
  induction resumes with
  | line rest same =>
    cases left : rest.dropWhile isspace with
    | nil =>
      refine .nothing _ ?_
      rw [List.dropWhile_append, left]
      rfl
    | cons c more =>
      refine .line _ ?_
      -- A byte that is no blank stands behind the gap, so the gap is the same with the newline appended.
      have split_ : rest = rest.takeWhile isspace ++ c :: more := by
        rw [← left, List.takeWhile_append_dropWhile]
      have stop : isspace c = false := by
        have := List.head?_dropWhile_not isspace rest
        rw [left] at this
        simpa using this
      rw [split_, List.append_assoc, List.cons_append, takeWhile_delimited stop,
        ← takeWhile_delimited stop _ more, ← split_]
      exact same
  | nothing rest none_ =>
    refine .nothing _ ?_
    rw [List.dropWhile_append, none_]
    rfl
  | comment rest more opener later ih =>
    refine .comment _ (more ++ [newline]) ?_ ih
    rw [List.dropWhile_append, opener]
    simp [ascii]

theorem lex_opened {mark : Mark} {bytes : List Byte} (opened : (lex mark bytes).opened = true) :
    (lex mark bytes).rest = [] ∧ (lex mark bytes).mark.inside = true := by
  induction size : bytes.length using Nat.strong_induction_on generalizing mark bytes with
  | _ size ih =>
    by_cases nonempty : bytes = []
    · subst nonempty
      simp at opened
    · cases step : lexStep mark bytes with
      | next next out rest =>
        rw [lex_next nonempty step] at opened ⊢
        simp only [Lexed.after] at opened ⊢
        split at opened
        · next end_ =>
          subst end_
          simp only [Bool.and_eq_true] at opened
          simp [opened.2]
        · exact ih _ (size ▸ lexStep_shorter nonempty step) opened rfl
      | stuck next rest =>
        rw [lex_stuck nonempty step] at opened
        cases opened

end Hvme
