import Hvme.Program.Placing
import Hvme.Scanner.Reading
import Hvme.Scanner.Tiles

set_option autoImplicit false

namespace Hvme

/-- The text without its comments, from the slashes up to the newline. `inside` says that the text
starts in a comment. -/
def deleteComments : Bool → List Byte → List Byte
  | _, [] => []
  | true, c :: rest =>
    if c = newline then newline :: deleteComments false rest else deleteComments true rest
  | false, c :: rest =>
    if (ascii "//").isPrefixOf (c :: rest) then deleteComments true rest
    else c :: deleteComments false rest

/-- `text'` is `text` with another run of blanks in the place of each run of blanks. -/
inductive Relaid : List Byte → List Byte → Prop
  | done : Relaid [] []
  | keep {c : Byte} {text text' : List Byte} (nonblank : isspace c = false) (later : Relaid text text') :
      Relaid (c :: text) (c :: text')
  | gap {gap gap' text text' : List Byte} (blanks : ∀ b ∈ gap, isspace b = true) (nonempty : gap ≠ [])
      (ends : ∀ c ∈ text.head?, isspace c = false) (blanks' : ∀ b ∈ gap', isspace b = true)
      (nonempty' : gap' ≠ []) (later : Relaid text text') : Relaid (gap ++ text) (gap' ++ text')

theorem Relaid.refl (text : List Byte) : Relaid text text := by
  induction size : text.length using Nat.strong_induction_on generalizing text with
  | _ size ih =>
    cases text with
    | nil => exact .done
    | cons c text =>
      cases space : isspace c with
      | false => exact .keep space (ih _ (size ▸ Nat.lt_succ_self _) text rfl)
      | true =>
        have whole := List.takeWhile_append_dropWhile (p := isspace) (l := c :: text)
        have gap : (c :: text).takeWhile isspace ≠ [] := by
          simp [space]
        rw [← whole]
        refine .gap (takeWhile_blanks _) gap (dropWhile_nonblank _) (takeWhile_blanks _) gap (ih _ ?_ _ rfl)
        have shorter := (List.dropWhile_suffix (p := isspace) (l := text)).length_le
        rw [← size, List.dropWhile_cons_of_pos space, List.length_cons]
        omega

section comments

variable {text : List Byte}

theorem deleteComments_slashes (rest : List Byte) :
    deleteComments false (ascii "//" ++ rest) = deleteComments true rest := rfl

theorem deleteComments_cons {c : Byte} (plain : ¬ascii "//" <+: c :: text) :
    deleteComments false (c :: text) = c :: deleteComments false text := by
  rw [deleteComments, if_neg (by rwa [List.isPrefixOf_iff_prefix])]

theorem deleteComments_comment {c : Byte} (slashes : ascii "//" <+: c :: text) :
    deleteComments false (c :: text) = deleteComments true text := by
  rw [deleteComments, if_pos (List.isPrefixOf_iff_prefix.mpr slashes)]

theorem deleteComments_append {word : List Byte} (plain : ∀ b ∈ word, b ≠ 47) (rest : List Byte) :
    deleteComments false (word ++ rest) = word ++ deleteComments false rest := by
  induction word with
  | nil => rfl
  | cons c word ih =>
    rw [List.forall_mem_cons] at plain
    rw [List.cons_append, deleteComments_cons, ih plain.2, List.cons_append]
    intro slashes
    exact plain.1 (List.cons_prefix_cons.mp slashes).1.symm

theorem isspace_ne_slash {c : Byte} (space : isspace c = true) : c ≠ 47 := by
  rintro rfl
  cases space

theorem deleteComments_text {c : Byte} (other : c ≠ newline) (rest : List Byte) :
    deleteComments true (c :: rest) = deleteComments true rest := by
  rw [deleteComments, if_neg other]

theorem deleteComments_inside {gap : List Byte} (line : newline ∉ gap) (rest : List Byte) :
    deleteComments true (gap ++ rest) = deleteComments true rest := by
  induction gap with
  | nil => rfl
  | cons c gap ih =>
    rw [List.mem_cons, not_or] at line
    rw [List.cons_append, deleteComments_text (Ne.symm line.1), ih line.2]

theorem deleteComments_rest (text : List Byte) : deleteComments true (text.takeWhile (· ≠ newline)) = [] := by
  have line : newline ∉ text.takeWhile (· ≠ newline) := by
    intro member
    simpa using List.mem_takeWhile_imp member
  have rest := deleteComments_inside line []
  rwa [List.append_nil] at rest

theorem deleteComments_newline (rest : List Byte) :
    deleteComments true (newline :: rest) = newline :: deleteComments false rest := by
  rw [deleteComments, if_pos rfl]

theorem deleteComments_concat (inside : Bool) (text : List Byte) :
    deleteComments inside (text ++ [newline]) = deleteComments inside text ++ [newline] := by
  induction text generalizing inside with
  | nil => cases inside <;> rfl
  | cons c text ih =>
    cases inside with
    | true =>
      rw [List.cons_append, deleteComments, deleteComments]
      split
      · rw [ih]; rfl
      · rw [ih]
    | false =>
      by_cases slashes : ascii "//" <+: c :: text
      · rw [deleteComments_comment slashes, List.cons_append, deleteComments_comment, ih]
        exact slashes.trans (List.prefix_append _ _)
      · rw [deleteComments_cons slashes, List.cons_append, deleteComments_cons, ih, List.cons_append]
        exact fun longer => slashes (slashes_append longer (by simp [newline]))

theorem deleteComments_line (text : List Byte) :
    deleteComments false text =
      deleteComments false (text.takeWhile (· ≠ newline)) ++ deleteComments true text := by
  induction text with
  | nil => rfl
  | cons c text ih =>
    by_cases ends : c = newline
    · subst ends
      rw [deleteComments_newline]
      rfl
    · rw [deleteComments_text ends]
      by_cases slashes : ascii "//" <+: c :: text
      · have line := (slashes_line (c :: text)).mpr slashes
        rw [takeWhile_line ends] at line ⊢
        rw [deleteComments_comment slashes, deleteComments_comment line, deleteComments_rest, List.nil_append]
      · have line := mt (slashes_line (c :: text)).mp slashes
        rw [takeWhile_line ends] at line ⊢
        rw [deleteComments_cons slashes, deleteComments_cons line, ih, List.cons_append]

theorem commentLine_iff (text : List Byte) :
    CommentLine text ↔ ∀ b ∈ deleteComments false (text.takeWhile (· ≠ newline)), isspace b = true := by
  induction text with
  | nil => simp [commentLine_nil, deleteComments]
  | cons c text ih =>
    by_cases ends : c = newline
    · subst ends
      simp [commentLine_ended, deleteComments]
    · cases space : isspace c with
      | true =>
        have line : ¬ascii "//" <+: c :: text.takeWhile (· ≠ newline) :=
          fun slashes => isspace_ne_slash space (List.cons_prefix_cons.mp slashes).1.symm
        rw [commentLine_blank ends space, ih, takeWhile_line ends, deleteComments_cons line,
          List.forall_mem_cons, and_iff_right space]
      | false =>
        have line := slashes_line (c :: text)
        rw [takeWhile_line ends] at line
        rw [commentLine_nonblank space, ← line, takeWhile_line ends]
        by_cases slashes : ascii "//" <+: c :: text.takeWhile (· ≠ newline)
        · rw [deleteComments_comment slashes, deleteComments_rest]
          exact iff_of_true slashes (by simp)
        · rw [deleteComments_cons slashes]
          refine iff_of_false slashes fun blank => ?_
          rw [blank c List.mem_cons_self] at space
          cases space

end comments

theorem deleteComments_true (text : List Byte) :
    deleteComments true text = [] ∨ ∃ rest, deleteComments true text = newline :: rest := by
  induction text with
  | nil => exact .inl rfl
  | cons c text ih =>
    by_cases ends : c = newline
    · subst ends
      exact .inr ⟨_, deleteComments_newline text⟩
    · rwa [deleteComments_text ends]

theorem deleteComments_blank {c : Byte} (space : isspace c = true) (rest : List Byte) :
    deleteComments false (c :: rest) = c :: deleteComments false rest :=
  deleteComments_cons fun slashes => isspace_ne_slash space (List.cons_prefix_cons.mp slashes).1.symm

theorem WordAt.without_comments {word rest : List Byte} (here : WordAt word rest) :
    WordAt word (deleteComments false rest) := by
  rcases here with known | ⟨plain, c, more, rfl, space⟩
  · exact .inl known
  · exact .inr ⟨plain, c, _, deleteComments_blank space more, space⟩

theorem deleteComments_gap {gap : List Byte} (blanks : ∀ b ∈ gap, isspace b = true) (bytes : List Byte) :
    if newline ∈ gap then ∃ gap', (∀ b ∈ gap', isspace b = true) ∧
      deleteComments false (ascii "//" ++ (gap ++ bytes)) =
        gap' ++ (deleteComments false (bytes.takeWhile (· ≠ newline)) ++ deleteComments true bytes)
    else deleteComments false (ascii "//" ++ (gap ++ bytes)) = deleteComments true bytes := by
  rw [deleteComments_slashes]
  split
  · next ends =>
    obtain ⟨gap₁, gap₂, rfl, line⟩ := List.eq_append_cons_of_mem ends
    have blanks' : ∀ b ∈ newline :: gap₂, isspace b = true := fun b member =>
      blanks b (List.mem_append_right _ member)
    refine ⟨newline :: gap₂, blanks', ?_⟩
    have plain : ∀ b ∈ gap₂, b ≠ 47 := fun b member =>
      isspace_ne_slash (blanks' b (List.mem_cons_of_mem _ member))
    rw [List.append_assoc, deleteComments_inside line, List.cons_append, deleteComments_newline,
      deleteComments_append plain, deleteComments_line bytes, List.cons_append]
  · next line => exact deleteComments_inside line bytes

theorem Reading.ne_nil {size : Nat} {text : List Byte} {lexemes : List Lexeme} (reading : Reading size text lexemes)
    {c : Byte} (member : c ∈ text) (nonblank : isspace c = false) : lexemes ≠ [] := by
  induction reading with
  | done => cases member
  | @blank b text lexemes space later ih =>
    rcases List.mem_cons.mp member with rfl | member
    · rw [space] at nonblank
      cases nonblank
    · exact ih member
  | word here fits later ih => exact List.cons_ne_nil _ _

theorem Reading.line {size : Nat} {line bytes : List Byte} {lexemes : List Lexeme}
    (reading : Reading size (line ++ deleteComments true bytes) lexemes) :
    ∃ before_ after, lexemes = before_ ++ after ∧ Reading size (deleteComments true bytes) after ∧
      ((∃ c ∈ line, isspace c = false) → before_ ≠ []) := by
  rcases deleteComments_true bytes with ended | ⟨rest, next⟩
  · rw [ended, List.append_nil] at reading
    rw [ended]
    refine ⟨lexemes, [], (List.append_nil _).symm, .done, ?_⟩
    rintro ⟨c, member, nonblank⟩
    exact reading.ne_nil member nonblank
  · rw [next] at reading ⊢
    obtain ⟨before_, after, rfl, first, second⟩ := reading.split newline_space
    refine ⟨before_, after, rfl, .blank newline_space second, ?_⟩
    rintro ⟨c, member, nonblank⟩
    exact first.ne_nil (List.mem_append_left _ member) nonblank

section reading

variable {size : Nat} {inside : Bool} {cur : Pos} {bytes : List Byte} {views : List View} {lost : Prop}

theorem Passage.reading (passage : Passage size inside cur bytes views lost) (kept : ¬lost) :
    Reading size (deleteComments inside bytes) (views.map View.lexeme) := by
  induction passage with
  | done inside _ => cases inside <;> exact .done
  | @blank cur c bytes _ _ space later ih =>
    rw [deleteComments_blank space]
    exact .blank space (ih kept)
  | @word cur word bytes _ _ here fits later ih =>
    rw [deleteComments_append here.isWord.no_slash]
    exact .word here.without_comments fits (ih kept)
  | @comment cur gap bytes _ _ blanks later ih =>
    rw [not_or, not_and_not_right] at kept
    have left := deleteComments_gap blanks bytes
    split at left
    · next ends =>
      obtain ⟨gap', blanks', same⟩ := left
      rw [same]
      exact .blanks blanks' (.blanks ((commentLine_iff bytes).mp (kept.2 ends)) (ih kept.1))
    · rw [left]
      exact ih kept.1
  | @text cur c bytes _ _ other later ih =>
    rw [deleteComments_text other]
    exact ih kept
  | @lineEnd cur bytes _ _ later ih =>
    rw [deleteComments_newline]
    exact .blank newline_space (ih kept)

theorem Passage.reads_less (passage : Passage size inside cur bytes views lost) {lexemes : List Lexeme}
    (reading : Reading size (deleteComments inside bytes) lexemes) :
    views.length ≤ lexemes.length ∧ (lost → views.length < lexemes.length) := by
  induction passage generalizing lexemes with
  | done inside _ => exact ⟨Nat.zero_le _, False.elim⟩
  | @blank cur c bytes _ _ space later ih =>
    rw [deleteComments_blank space] at reading
    exact ih (reading.of_blank space)
  | @word cur word bytes _ _ here fits later ih =>
    rw [deleteComments_append here.isWord.no_slash] at reading
    obtain ⟨behind, rfl, rest⟩ := reading.of_word here.without_comments
    have less := ih rest
    simp only [List.length_cons]
    exact ⟨Nat.succ_le_succ less.1, fun swallowed => Nat.succ_lt_succ (less.2 swallowed)⟩
  | @comment cur gap bytes _ _ blanks later ih =>
    have left := deleteComments_gap blanks bytes
    split at left
    · next ends =>
      obtain ⟨gap', blanks', same⟩ := left
      rw [same] at reading
      obtain ⟨before_, after, rfl, rest, more⟩ := (reading.of_blanks blanks').line
      have less := ih rest
      rw [List.length_append]
      refine ⟨by omega, ?_⟩
      rintro (swallowed | ⟨-, plain⟩)
      · have := less.2 swallowed
        omega
      · -- The line gives a lexeme where the text is read, and the passage takes none from it.
        rw [commentLine_iff] at plain
        push Not at plain
        obtain ⟨c, member, nonblank⟩ := plain
        have := List.length_pos_iff.mpr (more ⟨c, member, by simpa using nonblank⟩)
        omega
    · next line =>
      rw [left] at reading
      have less := ih reading
      simp only [line, false_and, or_false]
      exact less
  | @text cur c bytes _ _ other later ih =>
    rw [deleteComments_text other] at reading
    exact ih reading
  | @lineEnd cur bytes _ _ later ih =>
    rw [deleteComments_newline] at reading
    exact ih (reading.of_blank newline_space)

end reading

section relaid

variable {size : Nat} {text text' : List Byte} {lexemes : List Lexeme}

theorem Relaid.reading (relaid : Relaid text text') {front : List Byte}
    (reading : Reading size (front ++ text ++ [newline]) lexemes) :
    Reading size (front ++ text' ++ [newline]) lexemes := by
  induction relaid generalizing front lexemes with
  | done => exact reading
  | @keep c text text' nonblank later ih =>
    have next := @ih lexemes (front ++ [c]) (by simpa using reading)
    simpa using next
  | @gap gap gap' text text' blanks nonempty ends blanks' nonempty' later ih =>
    obtain ⟨b, gap, rfl⟩ := List.exists_cons_of_ne_nil nonempty
    obtain ⟨b', gap', rfl⟩ := List.exists_cons_of_ne_nil nonempty'
    rw [List.forall_mem_cons] at blanks blanks'
    have whole : front ++ (b :: gap ++ text) ++ [newline] = front ++ b :: (gap ++ (text ++ [newline])) := by
      simp
    have whole' : front ++ (b' :: gap' ++ text') ++ [newline] = front ++ b' :: (gap' ++ (text' ++ [newline])) := by
      simp
    rw [whole] at reading
    obtain ⟨before_, after, rfl, first, second⟩ := reading.split blanks.1
    have behind := @ih after [] (second.of_blanks blanks.2)
    rw [whole']
    exact Reading.join blanks.1 blanks'.1 first (.blanks blanks'.2 behind)

end relaid

theorem deleteComments_length (inside : Bool) (text : List Byte) :
    (deleteComments inside text).length ≤ text.length := by
  induction text generalizing inside with
  | nil => simp [deleteComments]
  | cons c text ih =>
    cases inside <;> rw [deleteComments] <;> split <;> grind

theorem deleteComments_slash {text rest : List Byte} (left : deleteComments false text = 47 :: rest) :
    ∃ more, text = 47 :: more := by
  cases text with
  | nil => cases left
  | cons c text =>
    by_cases slashes : ascii "//" <+: c :: text
    · obtain ⟨rfl, -⟩ := List.cons_prefix_cons.mp slashes
      exact ⟨text, rfl⟩
    · rw [deleteComments_cons slashes] at left
      exact ⟨text, by rw [(List.cons.inj left).1]⟩

theorem deleteComments_idem (inside : Bool) (text : List Byte) :
    deleteComments false (deleteComments inside text) = deleteComments inside text := by
  induction text generalizing inside with
  | nil => cases inside <;> rfl
  | cons c text ih =>
    cases inside with
    | true =>
      by_cases ends : c = newline
      · subst ends
        rw [deleteComments_newline, deleteComments_blank newline_space, ih]
      · rw [deleteComments_text ends, ih]
    | false =>
      by_cases slashes : ascii "//" <+: c :: text
      · rw [deleteComments_comment slashes, ih]
      · rw [deleteComments_cons slashes, deleteComments_cons, ih]
        -- The second slash would have been the second one before.
        intro slashes'
        obtain ⟨rfl, second⟩ := List.cons_prefix_cons.mp slashes'
        obtain ⟨rest, left⟩ := second
        obtain ⟨more, rfl⟩ := deleteComments_slash left.symm
        exact slashes ⟨more, rfl⟩

theorem Passage.skips_nothing {size : Nat} {inside : Bool} {cur : Pos} {bytes : List Byte} {views : List View}
    {lost : Prop} (passage : Passage size inside cur bytes views lost) (outside : inside = false)
    (plain : deleteComments false bytes = bytes) : ¬lost := by
  induction passage with
  | done _ _ => exact not_false
  | @blank cur c bytes _ _ space later ih =>
    rw [deleteComments_blank space] at plain
    exact ih rfl (List.cons.inj plain).2
  | @word cur word bytes _ _ here _ later ih =>
    rw [deleteComments_append here.isWord.no_slash] at plain
    exact ih rfl (List.append_cancel_left plain)
  | @comment cur gap bytes _ _ _ later ih =>
    have shorter := deleteComments_length true (gap ++ bytes)
    have slashes : (ascii "//").length = 2 := rfl
    rw [← deleteComments_slashes, plain, List.length_append, slashes] at shorter
    omega
  | text _ _ _ => cases outside
  | lineEnd _ _ => cases outside

/-- Every text that is what is left of the content without its comments, with other blanks, is
scanned to the same lexemes, and parsed to the same instructions and symbols, as the content, if the
allocator leaves the same in the cells of both. -/
def LayoutLaw (cfg : Config) (sc sc' : Scanner) (content : List Byte) : Prop :=
  ∀ text, Relaid (deleteComments false content) text →
    ∃ fuel sc'', scan cfg fuel sc (some text) = .ok (.ok, sc'') ∧
      sc''.tokens.cell.map Token.lexeme = sc'.tokens.cell.map Token.lexeme ∧
      ∀ insts st, parsedProgram (parse cfg sc''.tokens insts st) = parsedProgram (parse cfg sc'.tokens insts st)

theorem layoutLaw_iff {cfg : Config} {fuel : Nat} {sc sc' : Scanner} {content : List Byte}
    (outside : sc.statics.insideComment = false)
    (returns : scan cfg fuel sc (some content) = .ok (.ok, sc')) :
    LayoutLaw cfg sc sc' content ↔ CommentsKept cfg sc content := by
  obtain ⟨filename, out, lost, views, passage, iff⟩ := scan_passage returns
  have mark (sc : Scanner) (outside : sc.statics.insideComment = false) : sc.mark.inside = false := outside
  rw [mark sc outside] at passage
  rw [← not_iff_not, ← iff]
  constructor
  next =>
    intro broken
    by_contra kept
    refine broken fun text relaid => ?_
    -- A passage that swallows no line reads the text with its comments deleted, as every relaid text does.
    have reading := passage.reading kept
    rw [deleteComments_concat] at reading
    obtain ⟨fuel', sc'', returns', filename', views'⟩ := Reading.scan outside (@relaid.reading _ _ _ _ [] reading)
    have lexemes : sc''.tokens.cell.map Token.lexeme = sc'.tokens.cell.map Token.lexeme := by
      rw [← Scanner.views_lexeme, ← Scanner.views_lexeme, views', views, List.map_append]
    exact ⟨fuel', sc'', returns', lexemes, fun insts st =>
      parse_lexemes cfg insts st (filename'.trans filename.symm) lexemes⟩
  next =>
    intro swallowed law
    obtain ⟨fuel', sc'', returns', lexemes, -⟩ := law _ (Relaid.refl _)
    obtain ⟨-, out', lost', views', passage', -⟩ := scan_passage returns'
    rw [mark sc outside, ← deleteComments_concat] at passage'
    have reading := passage'.reading (passage'.skips_nothing rfl (deleteComments_idem false _))
    rw [deleteComments_idem] at reading
    -- Deleting the comments is itself a relayout, and it brings back the lexemes of the swallowed line.
    have less := (passage.reads_less reading).2 swallowed
    rw [← Scanner.views_lexeme, ← Scanner.views_lexeme, views', views, List.map_append, List.map_append,
      List.append_cancel_left_eq] at lexemes
    have lengths := congrArg List.length lexemes
    rw [List.length_map] at lengths less
    rw [List.length_map] at lengths
    omega

theorem scanRounds_more (cfg : Config) {fuel : Nat} {round : Round} {result : ScanResult × Scanner}
    (returns : scanRounds cfg fuel round = .ok result) (more : Nat) :
    scanRounds cfg (fuel + more) round = .ok result := by
  induction fuel generalizing round with
  | zero => cases returns
  | succ fuel ih =>
    rw [Nat.add_right_comm]
    rw [scanRounds] at returns ⊢
    cases step : scanRound cfg round with
    | again next =>
      rw [step] at returns
      exact ih returns
    | ok sc => rwa [step] at returns
    | err sc diag => rwa [step] at returns

theorem scan_unique {cfg : Config} {fuel fuel' : Nat} {sc : Scanner} {content : Option (List Byte)}
    {result result' : ScanResult × Scanner} (returns : scan cfg fuel sc content = .ok result)
    (returns' : scan cfg fuel' sc content = .ok result') : result = result' := by
  cases content with
  | none => exact Except.ok.inj (returns.symm.trans returns')
  | some content =>
    have first := scanRounds_more cfg returns fuel'
    have second := scanRounds_more cfg returns' fuel
    rw [Nat.add_comm] at second
    exact Except.ok.inj (first.symm.trans second)

theorem layoutLaw_comment :
    let sc : Scanner := { tokens := newTokens none, statics := Statics.init, warnings := [] }
    let content := ascii "add // x\nsub\n"
    ∃ sc', scan .unitTests 1 sc (some content) = .ok (.ok, sc') ∧
      (LayoutLaw .unitTests sc sc' content ↔ CommentsKept .unitTests sc content) := by
  intro sc content
  have scanned : (scan .unitTests 1 sc (some content)).toOption.map
      (fun result => (result.1, result.2.views)) =
        some (.ok, [{ lexeme := .keyword .add, pos := posAt [] },
          { lexeme := .keyword .sub, pos := posAt (ascii "add // x\n") }]) := by
    decide +kernel
  obtain ⟨sc', run, -⟩ := scan_of_views scanned
  exact ⟨sc', run, layoutLaw_iff rfl run⟩

theorem swallowed_line_returns :
    let sc : Scanner := { tokens := newTokens none, statics := Statics.init, warnings := [] }
    let content := ascii "add //\nsub\n"
    ∃ sc', scan .unitTests 1 sc (some content) = .ok (.ok, sc') ∧ ¬LayoutLaw .unitTests sc sc' content := by
  intro sc content
  have scanned : (scan .unitTests 1 sc (some content)).toOption.map
      (fun result => (result.1, result.2.views)) =
        some (.ok, [{ lexeme := .keyword .add, pos := posAt [] }]) := by
    decide +kernel
  have left : deleteComments false content = ascii "add \nsub\n" := by
    decide +kernel
  have rescanned : (scan .unitTests 1 sc (some (ascii "add \nsub\n"))).toOption.map
      (fun result => (result.1, result.2.views)) =
        some (.ok, [{ lexeme := .keyword .add, pos := posAt [] },
          { lexeme := .keyword .sub, pos := posAt (ascii "add \n") }]) := by
    decide +kernel
  obtain ⟨sc', run, views⟩ := scan_of_views scanned
  obtain ⟨other, rerun, views'⟩ := scan_of_views rescanned
  refine ⟨sc', run, fun law => ?_⟩
  obtain ⟨fuel, sc'', returns, lexemes, -⟩ := law (ascii "add \nsub\n") (left ▸ Relaid.refl _)
  obtain ⟨-, rfl⟩ := Prod.mk.inj (scan_unique rerun returns)
  rw [← Scanner.views_lexeme, ← Scanner.views_lexeme, views, views'] at lexemes
  cases lexemes

end Hvme
