import Hvme.Scanner.Passage

set_option autoImplicit false

namespace Hvme

theorem word_inside {word rest front back : List Byte} {c : Byte} (isWord : IsWord word)
    (space : isspace c = true) (same : word ++ rest = front ++ c :: back) :
    ∃ more, front = word ++ more ∧ rest = more ++ c :: back := by
  rcases List.append_eq_append_iff.mp same with ⟨more, rfl, rest_eq⟩ | ⟨more, rfl, rest_eq⟩
  · exact ⟨more, rfl, rest_eq⟩
  · cases more with
    | nil => exact ⟨[], by simp, by simpa using rest_eq.symm⟩
    | cons b more =>
      obtain ⟨rfl, -⟩ := List.cons.inj rest_eq
      have clear := isWord.blankless c (by simp)
      rw [space] at clear
      cases clear

theorem WordAt.delimited {word front back back' : List Byte} {c c' : Byte} (here : WordAt word (front ++ c :: back))
    (space : isspace c' = true) : WordAt word (front ++ c' :: back') := by
  rcases here with known | ⟨plain, b, more, same, first⟩
  · exact .inl known
  · right
    refine ⟨plain, ?_⟩
    cases front with
    | nil => exact ⟨c', back', rfl, space⟩
    | cons b' front => exact ⟨b', front ++ c' :: back', rfl, (List.cons.inj same).1 ▸ first⟩

theorem WordAt.unique {word rest word' rest' : List Byte} (here : WordAt word rest)
    (here' : WordAt word' rest') (same : word ++ rest = word' ++ rest') : word = word' ∧ rest = rest' := by
  have keyword {word word' rest rest' : List Byte} (known : (keywordOf word).isSome) (here' : WordAt word' rest')
      (same : word ++ rest = word' ++ rest') : word = word' := by
    obtain ⟨t, known⟩ := Option.isSome_iff_exists.mp known
    obtain ⟨text, member, rfl⟩ := keywordOf_some known
    have inside : ascii text <+: word' ++ rest' := same ▸ List.prefix_append _ _
    rcases here' with known' | ⟨plain, c, more, rfl, space⟩
    · obtain ⟨t', known'⟩ := Option.isSome_iff_exists.mp known'
      obtain ⟨text', member', rfl⟩ := keywordOf_some known'
      rcases List.prefix_or_prefix_of_prefix inside (List.prefix_append _ _) with shorter | longer
      · exact (keyword_prefix_free _ member _ member' shorter).symm
      · exact keyword_prefix_free _ member' _ member longer
    · exact absurd (prefix_of_delimited space (keyword_blankless member) inside) (plain.free _ member)
  have words : word = word' := by
    rcases here with known | ⟨plain, c, more, rfl, space⟩
    · exact keyword known here' same
    · rcases here' with known' | ⟨plain', c', more', rfl, space'⟩
      · exact (keyword known' (.inr ⟨plain, c, more, rfl, space⟩) same.symm).symm
      · obtain ⟨back, rfl, -⟩ := word_inside plain.isWord space' same
        obtain ⟨back', same', -⟩ := word_inside plain'.isWord space same.symm
        have length := congrArg List.length same'
        simp only [List.length_append] at length
        rw [List.length_eq_zero_iff.mp (show back.length = 0 by omega), List.append_nil]
  subst words
  exact ⟨rfl, List.append_cancel_left same⟩

inductive Reading (size : Nat) : List Byte → List Lexeme → Prop
  | done : Reading size [] []
  | blank {c : Byte} {text : List Byte} {lexemes : List Lexeme} (space : isspace c = true)
      (later : Reading size text lexemes) : Reading size (c :: text) lexemes
  | word {word text : List Byte} {lexemes : List Lexeme} (here : WordAt word text)
      (fits : (keywordOf word).isSome ∨ word.length < size) (later : Reading size text lexemes) :
      Reading size (word ++ text) (wordLexeme word :: lexemes)

section reading

variable {size : Nat} {text : List Byte} {lexemes : List Lexeme}

theorem Reading.blanks {gap : List Byte} (blanks : ∀ b ∈ gap, isspace b = true)
    (later : Reading size text lexemes) : Reading size (gap ++ text) lexemes := by
  induction gap with
  | nil => exact later
  | cons c gap ih =>
    rw [List.forall_mem_cons] at blanks
    exact .blank blanks.1 (ih blanks.2)

theorem Reading.start (reading : Reading size text lexemes) :
    text = [] ∧ lexemes = [] ∨
      (∃ c rest, text = c :: rest ∧ isspace c = true ∧ Reading size rest lexemes) ∨
      ∃ word rest later, text = word ++ rest ∧ lexemes = wordLexeme word :: later ∧ WordAt word rest ∧
        ((keywordOf word).isSome ∨ word.length < size) ∧ Reading size rest later := by
  cases reading with
  | done => exact .inl ⟨rfl, rfl⟩
  | blank space later => exact .inr (.inl ⟨_, _, rfl, space, later⟩)
  | word here fits later => exact .inr (.inr ⟨_, _, _, rfl, rfl, here, fits, later⟩)

theorem Reading.of_nil (reading : Reading size [] lexemes) : lexemes = [] := by
  rcases reading.start with ⟨-, rfl⟩ | ⟨c, rest, same, -⟩ | ⟨word, rest, later, same, -, here, -⟩
  · rfl
  · cases same
  · exact absurd (List.append_eq_nil_iff.mp same.symm).1 here.isWord.ne_nil

theorem Reading.of_blank {c : Byte} (space : isspace c = true) (reading : Reading size (c :: text) lexemes) :
    Reading size text lexemes := by
  rcases reading.start with ⟨same, -⟩ | ⟨c', rest, same, -, later⟩ | ⟨word, rest, later, same, -, here, -⟩
  · cases same
  · obtain ⟨-, rfl⟩ := List.cons.inj same
    exact later
  · have first : c ∈ word := by
      cases word with
      | nil => exact absurd rfl here.isWord.ne_nil
      | cons b word => exact (List.cons.inj same).1 ▸ List.mem_cons_self
    rw [here.isWord.blankless c first] at space
    cases space

theorem Reading.of_blanks {gap : List Byte} (blanks : ∀ b ∈ gap, isspace b = true)
    (reading : Reading size (gap ++ text) lexemes) : Reading size text lexemes := by
  induction gap with
  | nil => exact reading
  | cons c gap ih =>
    rw [List.forall_mem_cons] at blanks
    exact ih blanks.2 (reading.of_blank blanks.1)

theorem Reading.of_word {word : List Byte} (here : WordAt word text)
    (reading : Reading size (word ++ text) lexemes) :
    ∃ later, lexemes = wordLexeme word :: later ∧ Reading size text later := by
  rcases reading.start with ⟨same, -⟩ | ⟨c, rest, same, space, -⟩ | ⟨word', rest, later, same, rfl, here', -, reading'⟩
  · exact absurd (List.append_eq_nil_iff.mp same).1 here.isWord.ne_nil
  · cases word with
    | nil => exact absurd rfl here.isWord.ne_nil
    | cons b word =>
      obtain ⟨rfl, -⟩ := List.cons.inj same
      rw [here.isWord.blankless b List.mem_cons_self] at space
      cases space
  · obtain ⟨rfl, rfl⟩ := here.unique here' same
    exact ⟨later, rfl, reading'⟩

theorem Reading.split {front back : List Byte} {c : Byte} (space : isspace c = true)
    (reading : Reading size (front ++ c :: back) lexemes) :
    ∃ before_ after, lexemes = before_ ++ after ∧ Reading size (front ++ [c]) before_ ∧ Reading size back after := by
  generalize whole : front ++ c :: back = text at reading
  induction reading generalizing front with
  | done => simp at whole
  | @blank b text lexemes space' later ih =>
    cases front with
    | nil =>
      obtain ⟨rfl, rfl⟩ := List.cons.inj whole
      exact ⟨[], lexemes, rfl, .blank space .done, later⟩
    | cons b' front =>
      obtain ⟨rfl, rest⟩ := List.cons.inj whole
      obtain ⟨before_, after, rfl, first, second⟩ := ih rest
      exact ⟨before_, after, rfl, .blank space' first, second⟩
  | @word word text lexemes here fits later ih =>
    obtain ⟨more, rfl, rfl⟩ := word_inside here.isWord space whole.symm
    obtain ⟨before_, after, rfl, first, second⟩ := ih rfl
    refine ⟨wordLexeme word :: before_, after, rfl, ?_, second⟩
    rw [List.append_assoc]
    exact .word (here.delimited space) fits first

theorem Reading.join {front back : List Byte} {c c' : Byte} {before_ after : List Lexeme}
    (space : isspace c = true) (space' : isspace c' = true) (first : Reading size (front ++ [c]) before_)
    (second : Reading size back after) : Reading size (front ++ c' :: back) (before_ ++ after) := by
  generalize whole : front ++ [c] = text at first
  induction first generalizing front with
  | done => simp at whole
  | @blank b text lexemes blank later ih =>
    cases front with
    | nil =>
      obtain ⟨rfl, rfl⟩ := List.cons.inj whole
      rw [later.of_nil]
      exact .blank space' second
    | cons b' front =>
      obtain ⟨rfl, rest⟩ := List.cons.inj whole
      exact .blank blank (ih rest)
  | @word word text lexemes here fits later ih =>
    obtain ⟨more, rfl, rfl⟩ := word_inside here.isWord space whole.symm
    rw [List.append_assoc]
    exact .word (here.delimited space') fits (ih rfl)

theorem Reading.no_slash (reading : Reading size (47 :: text) lexemes) : False := by
  rcases reading.start with ⟨same, -⟩ | ⟨c, rest, same, space, -⟩ | ⟨word, rest, later, same, -, here, -⟩
  · cases same
  · obtain ⟨rfl, -⟩ := List.cons.inj same
    cases space
  · cases word with
    | nil => exact here.isWord.ne_nil rfl
    | cons b word => exact here.isWord.no_slash b List.mem_cons_self (List.cons.inj same).1.symm

theorem keyword_short {word : List Byte} (known : (keywordOf word).isSome) : word.length ≤ maxTokenLen := by
  obtain ⟨t, known⟩ := Option.isSome_iff_exists.mp known
  obtain ⟨text, member, rfl⟩ := keywordOf_some known
  have short : ∀ entry ∈ keywords, (ascii entry.1).length ≤ maxTokenLen := by
    decide
  exact short _ member

theorem WordAt.matched {word rest : List Byte} (here : WordAt word rest) :
    firstMatch matchFns 0 (word ++ rest) ≠ none := by
  rcases here with known | ⟨plain, c, more, rfl, space⟩
  · obtain ⟨t, known⟩ := Option.isSome_iff_exists.mp known
    obtain ⟨fnIdx, fn, found, matched, -⟩ := finds_keyword known rest
    simp [matched]
  · obtain ⟨fnIdx, fn, found, matched, -⟩ :=
      finds_word space plain.isWord fun entry member inside => absurd inside (plain.free entry member)
    rw [matched]
    exact Option.some_ne_none _

theorem WordAt.beyond {word rest text later : List Byte} (here : WordAt word rest)
    (same : text ++ later = word ++ rest) (missed : firstMatch matchFns 0 text = none) :
    text <+: word ∧ ((keywordOf word).isSome → text.length < word.length) := by
  rcases List.append_eq_append_iff.mp same with ⟨more, rfl, -⟩ | ⟨more, rfl, rfl⟩
  · refine ⟨List.prefix_append _ _, fun known => ?_⟩
    cases more with
    | nil =>
      refine absurd missed ?_
      have whole : WordAt text [] := .inl (by simpa using known)
      simpa using whole.matched
    | cons b more => simp
  · cases more with
    | nil =>
      refine ⟨by simp, fun known => ?_⟩
      have whole : WordAt word [] := .inl known
      exact absurd missed whole.matched
    | cons b more =>
      refine absurd missed (WordAt.matched ?_)
      rcases here with known | ⟨plain, c, back, same, space⟩
      · exact .inl known
      · exact .inr ⟨plain, b, more, rfl, (List.cons.inj same).1 ▸ space⟩

theorem dropWhile_nonblank (bytes : List Byte) : ∀ c ∈ (bytes.dropWhile isspace).head?, isspace c = false := by
  have stop := List.head?_dropWhile_not isspace bytes
  intro c head
  rw [Option.mem_def.mp head] at stop
  simpa using stop

theorem Reading.carried (enough : maxTokenLen ≤ size) {rest later : List Byte}
    (reading : Reading size (rest ++ later) lexemes) (missed : firstMatch matchFns 0 rest = none)
    (nonblank : ∀ c ∈ rest.head?, isspace c = false) : rest.any isspace = false ∧ rest.length < size := by
  cases rest with
  | nil => exact ⟨rfl, lt_of_lt_of_le (show 0 < maxTokenLen by decide) enough⟩
  | cons c rest =>
    rcases reading.start with ⟨same, -⟩ | ⟨c', rest', same, space, -⟩ | ⟨word, rest', later', same, -, here, fits, -⟩
    · cases same
    · obtain ⟨rfl, -⟩ := List.cons.inj same
      rw [nonblank c rfl] at space
      cases space
    · obtain ⟨inside, shorter⟩ := here.beyond same missed
      constructor
      · rw [List.any_eq_false]
        exact fun b member => by simp [here.isWord.blankless b (inside.subset member)]
      · rcases fits with known | short
        · have := shorter known
          have := keyword_short known
          omega
        · have := inside.length_le
          omega

theorem Reading.of_lex (enough : maxTokenLen ≤ size) (cur : Pos) {bytes later : List Byte}
    (reading : Reading size (bytes ++ later) lexemes) :
    ∃ after, lexemes = (lex { inside := false, cur := cur } bytes).out.map View.lexeme ++ after ∧
      (lex { inside := false, cur := cur } bytes).mark.inside = false ∧
      (lex { inside := false, cur := cur } bytes).rest.any isspace = false ∧
      (lex { inside := false, cur := cur } bytes).rest.length < size ∧
      Reading size ((lex { inside := false, cur := cur } bytes).rest ++ later) after := by
  induction length : bytes.length using Nat.strong_induction_on generalizing cur bytes lexemes with
  | _ length ih =>
    by_cases nonempty : bytes = []
    · subst nonempty
      rw [lex_nil]
      refine ⟨lexemes, rfl, rfl, rfl, ?_, reading⟩
      exact lt_of_lt_of_le (show 0 < maxTokenLen by decide) enough
    · cases step : lexStep { inside := false, cur := cur } bytes with
      | stuck next rest =>
        rw [lex_stuck nonempty step]
        obtain ⟨-, rfl, missed, rfl⟩ := lexStep_stuck step nonempty
        rw [← List.takeWhile_append_dropWhile (p := isspace) (l := bytes), List.append_assoc] at reading
        have left := reading.of_blanks (takeWhile_blanks bytes)
        obtain ⟨clear, short⟩ := left.carried enough missed (dropWhile_nonblank bytes)
        exact ⟨lexemes, rfl, rfl, clear, short, left⟩
      | next next out rest =>
        rw [lex_next nonempty step]
        have shorter := lexStep_shorter nonempty step
        rcases lexStep_next nonempty step with ⟨c, inside, -⟩ | ⟨more, -, comes, rfl⟩ |
          ⟨word, more, -, comes, rfl, here⟩
        · cases inside
        · rw [comes.bytes_append] at reading
          exact (reading.of_blanks (takeWhile_blanks bytes)).no_slash.elim
        · rw [comes.bytes_append, ← comes.more_append] at reading
          obtain ⟨behind, rfl, rest_reading⟩ :=
            (reading.of_blanks (takeWhile_blanks bytes)).of_word (here.append later)
          rw [comes.more_append] at rest_reading
          obtain ⟨inside, cur'⟩ := next
          obtain rfl : inside = false := comes.inside_eq
          obtain ⟨after, rfl, outside, clear, short, left⟩ :=
            ih _ (length ▸ shorter) cur' (rest_reading.of_blanks (takeWhile_blanks more)) rfl
          exact ⟨after, rfl, outside, clear, short, left⟩

end reading

section rounds

variable {cfg : Config} {round : Round} {lexemes : List Lexeme}

theorem Scanner.Reads.map_lexeme {sc sc' : Scanner} {out : List View} {mark : Mark} (seen : sc.Reads out mark sc') :
    sc'.views.map View.lexeme = sc.views.map View.lexeme ++ out.map View.lexeme := by
  rw [seen.views, List.map_append]

theorem Reading.scanRound_again (valid : round.Valid cfg) (outside : round.sc.mark.inside = false)
    (copied : round.bytesCopied < cfg.scanBlockSize)
    (full : cfg.scanBlockSize ≤ round.bytesCopied + round.file.length)
    (reading : Reading cfg.scanBlockSize (round.pending ++ [newline]) lexemes) :
    ∃ next out after, scanRound cfg round = .again next ∧ next.Valid cfg ∧ next.sc.mark.inside = false ∧
      next.bytesCopied < cfg.scanBlockSize ∧ next.file.length < round.file.length ∧
      next.sc.tokens.filename = round.sc.tokens.filename ∧
      next.sc.views.map View.lexeme = round.sc.views.map View.lexeme ++ out ∧ lexemes = out ++ after ∧
      Reading cfg.scanBlockSize (next.pending ++ [newline]) after := by
  have enough := cfg.maxTokenLen_le
  have mark : round.sc.mark = { inside := false, cur := round.sc.mark.cur } := by
    rw [← outside]
  have scanned := scanRound_full valid full
  rw [← @Round.block_later cfg round, List.append_assoc] at reading
  obtain ⟨after, rfl, inside, clear, short, left⟩ := reading.of_lex enough round.sc.mark.cur
  rw [← mark] at inside clear short left ⊢
  simp only [numTrailing_eq, clear, Bool.false_eq_true, if_false] at scanned
  obtain ⟨next, again, next_valid, seen, carried, file⟩ := scanned
  have count := congrArg List.length carried
  have length_eq := next_valid.length_eq
  have copied_le := next_valid.copied_le
  rw [List.length_take] at count
  refine ⟨next, _, after, again, next_valid, ?_, by omega, ?_, seen.filename, seen.map_lexeme, rfl, ?_⟩
  · rw [seen.mark, inside]
  · rw [file, Round.later, List.length_drop]
    omega
  · rwa [Round.pending, carried, file, List.append_assoc]

theorem Reading.scanRound_last (valid : round.Valid cfg) (outside : round.sc.mark.inside = false)
    (short : round.bytesCopied + round.file.length < cfg.scanBlockSize)
    (reading : Reading cfg.scanBlockSize (round.pending ++ [newline]) lexemes) :
    ∃ sc, scanRound cfg round = .ok sc ∧ sc.tokens.filename = round.sc.tokens.filename ∧
      sc.views.map View.lexeme = round.sc.views.map View.lexeme ++ lexemes ∧ sc.mark.inside = false := by
  have enough := cfg.maxTokenLen_le
  have mark : round.sc.mark = { inside := false, cur := round.sc.mark.cur } := by
    rw [← outside]
  have scanned := Hvme.scanRound_last valid short
  obtain ⟨added, only, whole⟩ := withNewline_append round.pending
  rw [← whole] at reading
  obtain ⟨after, rfl, inside, clear, -, left⟩ := reading.of_lex enough round.sc.mark.cur
  rw [← mark] at inside clear left ⊢
  have nothing : (lex round.sc.mark (withNewline round.pending)).rest = [] := by
    by_contra some_
    rw [((withNewline_delimited _).suffix (lex_suffix _ _)).any some_] at clear
    cases clear
  have ended : after = [] := by
    rw [nothing, List.nil_append] at left
    rcases only with rfl | rfl
    · exact left.of_nil
    · exact (left.of_blank newline_space).of_nil
  simp only [numTrailing_eq, clear, Bool.false_eq_true, if_false] at scanned
  obtain ⟨sc, last, seen⟩ := scanned
  refine ⟨sc, last, seen.filename, ?_, ?_⟩
  · rw [seen.map_lexeme, ended, List.append_nil]
  · rw [seen.mark, inside]

theorem Reading.scanRounds (valid : round.Valid cfg) (outside : round.sc.mark.inside = false)
    (copied : round.bytesCopied < cfg.scanBlockSize)
    (reading : Reading cfg.scanBlockSize (round.pending ++ [newline]) lexemes) :
    ∃ fuel sc, scanRounds cfg fuel round = .ok (.ok, sc) ∧ sc.tokens.filename = round.sc.tokens.filename ∧
      sc.views.map View.lexeme = round.sc.views.map View.lexeme ++ lexemes ∧ sc.mark.inside = false := by
  induction size : round.file.length using Nat.strong_induction_on generalizing round lexemes with
  | _ size ih =>
    by_cases full : cfg.scanBlockSize ≤ round.bytesCopied + round.file.length
    · obtain ⟨next, out, after, again, next_valid, inside, next_copied, shorter, filename, views, rfl, left⟩ :=
        reading.scanRound_again valid outside copied full
      obtain ⟨fuel, sc, run, filename', views', ended⟩ := ih _ (size ▸ shorter) next_valid inside next_copied left rfl
      refine ⟨fuel + 1, sc, ?_, filename'.trans filename, ?_, ended⟩
      · rw [Hvme.scanRounds, again]
        exact run
      · rw [views', views, List.append_assoc]
    · obtain ⟨sc, last, filename, views⟩ := reading.scanRound_last valid outside (Nat.lt_of_not_le full)
      refine ⟨1, sc, ?_, filename, views⟩
      rw [Hvme.scanRounds, last]

end rounds

theorem Reading.scan_outside {cfg : Config} {sc : Scanner} {text : List Byte} {lexemes : List Lexeme}
    (outside : sc.statics.insideComment = false)
    (reading : Reading cfg.scanBlockSize (text ++ [newline]) lexemes) :
    ∃ fuel sc', Hvme.scan cfg fuel sc (some text) = .ok (.ok, sc') ∧ sc'.tokens.filename = sc.tokens.filename ∧
      sc'.views.map View.lexeme = sc.views.map View.lexeme ++ lexemes ∧ sc'.statics.insideComment = false :=
  Reading.scanRounds (Round.init_valid cfg sc text) outside
    (lt_of_lt_of_le (show 0 < maxTokenLen by decide) cfg.maxTokenLen_le) reading

theorem Reading.scan {cfg : Config} {sc : Scanner} {text : List Byte} {lexemes : List Lexeme}
    (outside : sc.statics.insideComment = false)
    (reading : Reading cfg.scanBlockSize (text ++ [newline]) lexemes) :
    ∃ fuel sc', scan cfg fuel sc (some text) = .ok (.ok, sc') ∧ sc'.tokens.filename = sc.tokens.filename ∧
      sc'.views.map View.lexeme = sc.views.map View.lexeme ++ lexemes := by
  obtain ⟨fuel, sc', run, filename, views, -⟩ := reading.scan_outside outside
  exact ⟨fuel, sc', run, filename, views⟩

theorem reading_words {size : Nat} {bytes : List Byte} (delimited : Delimited bytes)
    (made : ∀ word ∈ words bytes, IsWord word) (free : ∀ word ∈ words bytes, KeywordFree word)
    (short : ∀ word ∈ words bytes, (keywordOf word).isSome ∨ word.length < size) :
    Reading size bytes ((words bytes).map wordLexeme) := by
  induction length : bytes.length using Nat.strong_induction_on generalizing bytes with
  | _ length ih =>
    have whole := List.takeWhile_append_dropWhile (p := isspace) (l := bytes)
    rw [← whole]
    refine .blanks (takeWhile_blanks bytes) ?_
    rw [whole]
    rcases delimited.first_word Pos.zero with ⟨nothing, none_⟩ | ⟨word, c, more, split_, nonempty, space, first,
      later, shorter⟩
    · rw [eatWs_rest] at nothing
      rw [nothing, none_]
      exact .done
    · rw [eatWs_rest] at split_
      rw [first] at made free short ⊢
      rw [List.forall_mem_cons] at made free short
      rw [split_, List.map_cons]
      refine .word ?_ short.1 (ih _ (length ▸ shorter) later made.2 free.2 short.2 rfl)
      cases known : keywordOf word with
      | some t => exact .inl (by rw [known]; rfl)
      | none =>
        refine .inr ⟨⟨made.1.resolve_left (by simp [known]), fun entry member inside => ?_⟩, c, more, rfl, space⟩
        exact keywordOf_none known entry member (free.1 entry member inside).symm

/-- What one block makes of a text of words, `scan` makes of it in blocks of any size that its names
and numbers are shorter than. -/
theorem scan_words {cfg : Config} {sc : Scanner} {text : List Byte} (outside : sc.statics.insideComment = false)
    (made : ∀ word ∈ words text, IsWord word) (free : ∀ word ∈ words text, KeywordFree word)
    (short : ∀ word ∈ words text, (keywordOf word).isSome ∨ word.length < cfg.scanBlockSize) :
    ∃ fuel sc', scan cfg fuel sc (some text) = .ok (.ok, sc') ∧
      sc'.tokens.cell.map Token.lexeme = sc.tokens.cell.map Token.lexeme ++ (words text).map wordLexeme := by
  have ended : words (text ++ [newline]) = words text := by
    rw [words_append newline_space, words_nil, List.append_nil]
  have delimited : Delimited (text ++ [newline]) := by
    simp [Delimited, newline_space]
  rw [← ended] at made free short
  obtain ⟨fuel, sc', run, -, lexemes⟩ := (reading_words delimited made free short).scan outside
  rw [ended, Scanner.views_lexeme, Scanner.views_lexeme] at lexemes
  exact ⟨fuel, sc', run, lexemes⟩

end Hvme
