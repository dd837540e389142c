import Hvme.Scanner.Blocks
import Hvme.Scanner.Words

set_option autoImplicit false

namespace Hvme

def advance (cur : Pos) (bytes : List Byte) : Pos :=
  bytes.foldl (fun pos c => if c == newline then incl pos else inc pos) cur

@[simp] theorem advance_nil (cur : Pos) : advance cur [] = cur := rfl

theorem advance_append (cur : Pos) (front back : List Byte) :
    advance cur (front ++ back) = advance (advance cur front) back :=
  List.foldl_append ..

theorem advance_cons (cur : Pos) (c : Byte) (bytes : List Byte) :
    advance cur (c :: bytes) = advance (advance cur [c]) bytes :=
  advance_append cur [c] bytes

theorem advance_incby (cur : Pos) {bytes : List Byte} (line : newline ∉ bytes) :
    advance cur bytes = incby bytes.length cur := by
  induction bytes generalizing cur with
  | nil => exact (incby_zero cur).symm
  | cons c bytes ih =>
    rw [List.mem_cons, not_or] at line
    have step : advance cur [c] = inc cur := by
      simp [advance, Ne.symm line.1]
    rw [advance_cons, ih _ line.2, step, List.length_cons, incby_succ]

theorem eatWs_eq (bytes : List Byte) (cur : Pos) :
    eatWs bytes cur = (bytes.dropWhile isspace, advance cur (bytes.takeWhile isspace)) := by
  induction bytes generalizing cur with
  | nil => rfl
  | cons c bytes ih =>
    cases space : isspace c with
    | false => simp [eatWs, space]
    | true =>
      rw [eatWs, if_pos space, ih, List.dropWhile_cons_of_pos space, List.takeWhile_cons_of_pos space,
        advance_cons]
      rfl

theorem keywordOf_of_mem {text : String} {t : TokenCode} (member : (text, t) ∈ keywords) :
    keywordOf (ascii text) = some t := by
  have known : ∀ entry ∈ keywords, keywordOf (ascii entry.1) = some entry.2 := by
    decide
  exact known (text, t) member

structure IsPlain (word : List Byte) : Prop where
  value : IsNumeral word ∨ IsName word
  free : ∀ entry ∈ keywords, ¬ascii entry.1 <+: word

/-- The word is read where `rest` follows: a keyword anywhere, a numeral or a name before a blank. -/
def WordAt (word rest : List Byte) : Prop :=
  (keywordOf word).isSome ∨ IsPlain word ∧ ∃ c more, rest = c :: more ∧ isspace c = true

theorem IsPlain.isWord {word : List Byte} (plain : IsPlain word) : IsWord word := .inr plain.value

theorem WordAt.isWord {word rest : List Byte} (here : WordAt word rest) : IsWord word :=
  here.elim .inl fun plain => plain.1.isWord

theorem WordAt.append {word rest : List Byte} (here : WordAt word rest) (later : List Byte) :
    WordAt word (rest ++ later) := by
  rcases here with known | ⟨plain, c, more, rfl, space⟩
  · exact .inl known
  · exact .inr ⟨plain, c, more ++ later, rfl, space⟩

theorem scanUint_word {rest : List Byte} {found : Match} (matched : scanUint rest = some found) :
    IsNumeral (rest.take found.nchars) := by
  have nonempty := (scanUint_nchars matched).1
  have nchars : found.nchars = ((rest.take 5).takeWhile isdigit).length := by
    unfold scanUint at matched
    simp only at matched
    split at matched
    · cases matched
    · split at matched
      · cases matched
      · split at matched <;> cases matched <;> rfl
  have inside : (rest.take 5).takeWhile isdigit <+: rest :=
    (List.takeWhile_prefix _).trans (List.take_prefix _ _)
  have word : rest.take found.nchars = (rest.take 5).takeWhile isdigit := by
    rw [nchars]
    exact (List.prefix_iff_eq_take.mp inside).symm
  rw [word]
  refine ⟨by omega, ?_, ?_⟩
  · exact le_trans (List.takeWhile_prefix _).length_le (List.length_take_le _ _)
  · exact fun b member => List.mem_takeWhile_imp member

theorem scanIdent_word {rest : List Byte} {found : Match} (matched : scanIdent rest = some found) :
    IsName (rest.take found.nchars) := by
  obtain ⟨-, name, c, more, rfl, nchars, nonempty, chars, -⟩ := scanIdent_some matched
  rw [nchars, List.take_left]
  cases name with
  | nil => exact absurd rfl nonempty
  | cons first tail =>
    refine ⟨first, tail, rfl, ?_, fun b member => chars b (List.mem_cons_of_mem _ member)⟩
    unfold scanIdent at matched
    simp only [List.cons_append] at matched
    split at matched
    · next start => exact start
    · cases matched

theorem fixed_before_ident {fn : ScanFn} {text : String} (fixed : fn.text = some text)
    (token : fn ≠ .comment) : fn ∈ matchFns.take 26 := by
  cases fn <;> first | cases fixed; done | exact absurd rfl token | decide

theorem IsNumeral.isPlain {word : List Byte} (numeral : IsNumeral word) : IsPlain word := by
  refine ⟨.inl numeral, ?_⟩
  rintro ⟨text, t⟩ member inside
  obtain ⟨b, tail, same, letter⟩ := keyword_letter member
  have digit := numeral.2.2 b (inside.subset (by simp [same]))
  rw [letter] at digit
  cases digit

theorem ident_free {rest : List Byte} {fnIdx : Nat} {found : Match}
    (matched : firstMatch matchFns 0 rest = some (fnIdx, .ident, found)) :
    ∀ entry ∈ keywords, ¬ascii entry.1 <+: rest := by
  obtain ⟨front, back, fns, idx, earlier, -⟩ := firstMatch_split matched
  have position : fnIdx = 26 := by
    have known := (firstMatch_some matched).2.1
    rw [Nat.sub_zero] at known
    have only : ∀ idx < matchFns.length, matchFns[idx]? = some .ident → idx = 26 := by
      decide
    exact only fnIdx (List.getElem?_eq_some_iff.mp known).1 known
  have front_eq : matchFns.take 26 = front := by
    rw [fns, ← position, idx, Nat.zero_add, List.take_left]
  intro entry member inside
  obtain ⟨fn, fixed, -, token⟩ := keyword_fn entry member
  have missed := earlier fn (front_eq ▸ fixed_before_ident fixed token)
  rw [ScanFn.run_text fixed, Option.eq_none_iff_forall_ne_some] at missed
  exact missed _ (staticScan_some.mpr ⟨inside, rfl⟩)

theorem fixed_word {rest : List Byte} {fn : ScanFn} {found : Match} {text : String} (fixed : fn.text = some text)
    (here : fn.run rest = some found) (token : fn ≠ .comment) :
    ∃ word back, rest = word ++ back ∧ found.nchars = word.length ∧
      fn.lexeme rest found = wordLexeme word ∧ WordAt word back := by
  rw [ScanFn.run_text fixed, staticScan_some] at here
  obtain ⟨⟨more, rfl⟩, rfl⟩ := here
  have member : (text, fn.token) ∈ keywords := by
    rcases fn_keyword fixed with rfl | member
    · refine absurd ?_ token
      cases fn <;> first | rfl | simp [ScanFn.text] at fixed
    · exact member
  have known := keywordOf_of_mem member
  refine ⟨ascii text, more, rfl, rfl, ?_, .inl (by rw [known]; rfl)⟩
  rw [ScanFn.lexeme_text fixed, wordLexeme, known]

theorem match_word {rest : List Byte} {fnIdx : Nat} {fn : ScanFn} {found : Match}
    (matched : firstMatch matchFns 0 rest = some (fnIdx, fn, found)) (token : fn ≠ .comment) :
    ∃ word back, rest = word ++ back ∧ found.nchars = word.length ∧
      fn.lexeme rest found = wordLexeme word ∧ WordAt word back := by
  have here := (firstMatch_some matched).2.2
  cases fixed : fn.text with
  | some text => exact fixed_word fixed here token
  | none =>
    obtain ⟨word, c, more, rfl, space, nchars⟩ := run_delimited fixed here
    have taken : (word ++ c :: more).take found.nchars = word := by
      rw [nchars, List.take_left]
    have plain : IsPlain word := by
      rcases ScanFn.text_none fixed with rfl | rfl
      · exact (taken ▸ scanUint_word here).isPlain
      · refine ⟨.inr (taken ▸ scanIdent_word here), ?_⟩
        exact fun entry member inside => ident_free matched entry member (inside.trans (List.prefix_append _ _))
    refine ⟨word, c :: more, rfl, nchars, ?_, .inr ⟨plain, c, more, rfl, space⟩⟩
    -- The word is also found for what it is, so it is what has been found.
    obtain ⟨fnIdx', fn', found', matched', -, -, lexeme⟩ :=
      finds_word space plain.isWord fun entry member inside => (plain.free entry member inside).elim
    rw [matched] at matched'
    cases matched'
    exact lexeme

/-- The rest of the line is blank or a comment. -/
def CommentLine (bytes : List Byte) : Prop :=
  (bytes.takeWhile (· ≠ newline)).dropWhile isspace = [] ∨
    ascii "//" <+: (bytes.takeWhile (· ≠ newline)).dropWhile isspace

theorem takeWhile_line {c : Byte} (other : c ≠ newline) (bytes : List Byte) :
    (c :: bytes).takeWhile (· ≠ newline) = c :: bytes.takeWhile (· ≠ newline) :=
  List.takeWhile_cons_of_pos (by simpa using other)

theorem slashes_line (bytes : List Byte) :
    ascii "//" <+: bytes.takeWhile (· ≠ newline) ↔ ascii "//" <+: bytes := by
  constructor
  next => exact fun slashes => slashes.trans (List.takeWhile_prefix _)
  next =>
    rintro ⟨more, rfl⟩
    have clear : (ascii "//").all (· ≠ newline) = true := by decide
    rw [List.takeWhile_append_of_pos (List.all_eq_true.mp clear)]
    exact List.prefix_append _ _

theorem commentLine_nil : CommentLine [] := .inl rfl

theorem commentLine_ended (bytes : List Byte) : CommentLine (newline :: bytes) := .inl rfl

theorem commentLine_blank {c : Byte} {bytes : List Byte} (other : c ≠ newline) (space : isspace c = true) :
    CommentLine (c :: bytes) ↔ CommentLine bytes := by
  rw [CommentLine, takeWhile_line other, List.dropWhile_cons_of_pos space, CommentLine]

theorem commentLine_nonblank {c : Byte} {bytes : List Byte} (nonblank : isspace c = false) :
    CommentLine (c :: bytes) ↔ ascii "//" <+: c :: bytes := by
  have other : c ≠ newline := by
    rintro rfl
    rw [newline_space] at nonblank
    cases nonblank
  have line : ((c :: bytes).takeWhile (· ≠ newline)).dropWhile isspace = (c :: bytes).takeWhile (· ≠ newline) := by
    rw [takeWhile_line other, List.dropWhile_cons_of_neg (by simp [nonblank])]
  rw [CommentLine, line, slashes_line, takeWhile_line other]
  simp

/-- A passage of `scan` over `bytes` from `cur` on, in or out of a comment, that reads `views`.
`lost` says that a line that is more than a comment is skipped: the one at which the blanks after
some comment's slashes end. Words that are not keywords are shorter than `size`. -/
inductive Passage (size : Nat) : Bool → Pos → List Byte → List View → Prop → Prop
  | done (inside : Bool) (cur : Pos) : Passage size inside cur [] [] False
  | blank {cur : Pos} {c : Byte} {bytes : List Byte} {views : List View} {lost : Prop}
      (space : isspace c = true) (later : Passage size false (advance cur [c]) bytes views lost) :
      Passage size false cur (c :: bytes) views lost
  | word {cur : Pos} {word bytes : List Byte} {views : List View} {lost : Prop} (here : WordAt word bytes)
      (fits : (keywordOf word).isSome ∨ word.length < size)
      (later : Passage size false (advance cur word) bytes views lost) :
      Passage size false cur (word ++ bytes) ({ lexeme := wordLexeme word, pos := cur } :: views) lost
  | comment {cur : Pos} {gap bytes : List Byte} {views : List View} {lost : Prop}
      (blanks : ∀ b ∈ gap, isspace b = true)
      (later : Passage size true (advance cur (ascii "//" ++ gap)) bytes views lost) :
      Passage size false cur (ascii "//" ++ (gap ++ bytes)) views
        (lost ∨ newline ∈ gap ∧ ¬CommentLine bytes)
  | text {cur : Pos} {c : Byte} {bytes : List Byte} {views : List View} {lost : Prop}
      (other : c ≠ newline) (later : Passage size true (advance cur [c]) bytes views lost) :
      Passage size true cur (c :: bytes) views lost
  | lineEnd {cur : Pos} {bytes : List Byte} {views : List View} {lost : Prop}
      (later : Passage size false (advance cur [newline]) bytes views lost) :
      Passage size true cur (newline :: bytes) views lost

theorem Passage.blanks {size : Nat} {cur : Pos} {gap bytes : List Byte} {views : List View} {lost : Prop}
    (blanks : ∀ b ∈ gap, isspace b = true) (later : Passage size false (advance cur gap) bytes views lost) :
    Passage size false cur (gap ++ bytes) views lost := by
  induction gap generalizing cur with
  | nil => exact later
  | cons c gap ih =>
    rw [List.forall_mem_cons] at blanks
    rw [advance_cons] at later
    exact .blank blanks.1 (ih blanks.2 later)

theorem takeWhile_blanks (bytes : List Byte) : ∀ b ∈ bytes.takeWhile isspace, isspace b = true :=
  fun _ member => List.mem_takeWhile_imp member

inductive Opens : Mark → List Byte → List Byte → Prop
  | here {cur : Pos} {bytes more : List Byte} (opener : bytes.dropWhile isspace = ascii "//" ++ more) :
      Opens { inside := false, cur := cur } bytes more
  | later {mark next : Mark} {bytes rest more : List Byte} {out : List View} (nonempty : bytes ≠ [])
      (step : lexStep mark bytes = .next next out rest) (opens : Opens next rest more) :
      Opens mark bytes more

theorem not_opens_nil (mark : Mark) (more : List Byte) : ¬Opens mark [] more := by
  intro opens
  cases opens with
  | here opener => cases opener
  | later nonempty step opens => exact nonempty rfl

theorem Opens.suffix {mark : Mark} {bytes more : List Byte} (opens : Opens mark bytes more) :
    ascii "//" ++ more <:+ bytes := by
  induction opens with
  | @here cur bytes more opener =>
    rw [← opener]
    exact List.dropWhile_suffix isspace
  | @later mark next bytes rest more out _ step _ ih =>
    have suffix := lexStep_suffix mark bytes
    rw [step] at suffix
    exact ih.trans suffix

theorem opens_next {mark next : Mark} {bytes rest more : List Byte} {out : List View} (nonempty : bytes ≠ [])
    (step : lexStep mark bytes = .next next out rest) :
    Opens mark bytes more ↔
      mark.inside = false ∧ bytes.dropWhile isspace = ascii "//" ++ more ∨ Opens next rest more := by
  constructor
  next =>
    intro opens
    cases opens with
    | here opener => exact .inl ⟨rfl, opener⟩
    | later _ step' opens =>
      rw [step] at step'
      cases step'
      exact .inr opens
  next =>
    intro cases_
    rcases cases_ with ⟨outside, opener⟩ | opens
    · obtain ⟨inside, cur⟩ := mark
      cases outside
      exact .here opener
    · exact .later nonempty step opens

/-- The comment behind whose slashes `more` stands would take a line with it that is more than a
comment: `more` starts with blanks that end in such a line. -/
def Swallows (more later : List Byte) : Prop :=
  newline ∈ more.takeWhile isspace ∧ ¬CommentLine (more.dropWhile isspace ++ later)

theorem IsWord.newline_not_mem {word : List Byte} (isWord : IsWord word) : newline ∉ word := by
  intro member
  have clear := isWord.blankless newline member
  rw [newline_space] at clear
  cases clear

theorem IsWord.ne_nil {word : List Byte} (isWord : IsWord word) : word ≠ [] := by
  rintro rfl
  rcases isWord with known | ⟨positive, -⟩ | ⟨first, tail, same, -⟩
  · exact absurd known (by decide)
  · cases positive
  · cases same

theorem keyword_no_slash {text : String} {t : TokenCode} (member : (text, t) ∈ keywords) :
    (47 : Byte) ∉ ascii text := by
  have clear : ∀ entry ∈ keywords, (47 : Byte) ∉ ascii entry.1 := by
    decide
  exact clear _ member

theorem IsWord.no_slash {word : List Byte} (isWord : IsWord word) : ∀ b ∈ word, b ≠ 47 := by
  rintro _ member rfl
  rcases isWord with known | ⟨-, -, digits⟩ | name
  · obtain ⟨t, known⟩ := Option.isSome_iff_exists.mp known
    obtain ⟨text, entry, rfl⟩ := keywordOf_some known
    exact keyword_no_slash entry member
  · exact absurd (digits _ member) (by decide)
  · exact absurd (name.chars _ member) (by decide)

theorem slashes_matched (more : List Byte) :
    ∃ fnIdx, firstMatch matchFns 0 (ascii "//" ++ more) = some (fnIdx, .comment, textMatch "//") :=
  firstMatch_text rfl more

structure Comes (cur : Pos) (bytes word more rest : List Byte) (inside : Bool) (next : Mark) : Prop where
  here : bytes.dropWhile isspace = word ++ more
  rest : rest = more.dropWhile isspace
  inside_eq : next.inside = inside
  cur_eq : next.cur = advance (advance (advance cur (bytes.takeWhile isspace)) word) (more.takeWhile isspace)

theorem lexStep_next {mark next : Mark} {bytes rest : List Byte} {out : List View} (nonempty : bytes ≠ [])
    (step : lexStep mark bytes = .next next out rest) :
    (∃ c, mark.inside = true ∧ bytes = c :: rest ∧ out = [] ∧
      next.inside = (c != newline) ∧ next.cur = advance mark.cur [c]) ∨
    (∃ more, mark.inside = false ∧ Comes mark.cur bytes (ascii "//") more rest true next ∧ out = []) ∨
    ∃ word more, mark.inside = false ∧ Comes mark.cur bytes word more rest false next ∧
      out = [{ lexeme := wordLexeme word, pos := advance mark.cur (bytes.takeWhile isspace) }] ∧
      WordAt word more := by
  obtain ⟨inside, cur⟩ := mark
  cases inside with
  | true =>
    cases bytes with
    | nil => exact absurd rfl nonempty
    | cons c bytes =>
      refine .inl ⟨c, rfl, ?_⟩
      by_cases ends : c = newline
      · subst ends
        cases step
        exact ⟨rfl, rfl, rfl, rfl⟩
      · simp only [lexStep, if_true, beq_iff_eq, ends, if_false] at step
        cases step
        refine ⟨rfl, rfl, ?_, ?_⟩
        · simp [ends]
        · simp [advance, ends]
  | false =>
    simp only [lexStep, Bool.false_eq_true, if_false, eatWs_eq] at step
    split at step
    · cases step
    · next fnIdx fn found matched =>
      split at step
      · next opener =>
        subst opener
        obtain ⟨⟨more, here⟩, rfl⟩ := staticScan_some.mp (firstMatch_some matched).2.2
        rw [← here] at step
        cases step
        refine .inr (.inl ⟨more, rfl, ⟨here.symm, rfl, rfl, ?_⟩, rfl⟩)
        have moved := advance_incby (advance cur (bytes.takeWhile isspace)) (show newline ∉ ascii "//" by decide)
        rw [moved]
        rfl
      · next token =>
        obtain ⟨word, more, here, nchars, lexeme, known⟩ := match_word matched token
        rw [here, nchars, List.drop_left] at step
        cases step
        have moved := advance_incby (advance cur (bytes.takeWhile isspace)) known.isWord.newline_not_mem
        refine .inr (.inr ⟨word, more, rfl, ⟨here, rfl, rfl, ?_⟩, ?_, known⟩)
        · rw [moved]
        · rw [← lexeme, here]

theorem lexStep_stuck {mark next : Mark} {bytes rest : List Byte}
    (step : lexStep mark bytes = .stuck next rest) (nonempty : bytes ≠ []) :
    mark.inside = false ∧ rest = bytes.dropWhile isspace ∧ firstMatch matchFns 0 rest = none ∧
      next = { inside := false, cur := advance mark.cur (bytes.takeWhile isspace) } := by
  obtain ⟨inside, cur⟩ := mark
  cases inside with
  | true =>
    cases bytes with
    | nil => exact absurd rfl nonempty
    | cons c bytes =>
      simp only [lexStep, if_true] at step
      split at step <;> cases step
  | false =>
    simp only [lexStep, Bool.false_eq_true, if_false, eatWs_eq] at step
    split at step
    · next missed =>
      cases step
      exact ⟨rfl, rfl, missed, rfl⟩
    · split at step <;> cases step

theorem not_opens_stuck {mark next : Mark} {bytes rest : List Byte} (nonempty : bytes ≠ [])
    (step : lexStep mark bytes = .stuck next rest) (more : List Byte) : ¬Opens mark bytes more := by
  obtain ⟨-, rfl, missed, -⟩ := lexStep_stuck step nonempty
  intro opens
  cases opens with
  | here opener =>
    obtain ⟨fnIdx, matched⟩ := slashes_matched more
    rw [opener, matched] at missed
    cases missed
  | later _ step' opens =>
    rw [step] at step'
    cases step'

theorem Comes.no_opener {mark next : Mark} {bytes word more rest after : List Byte} {inside : Bool}
    (comes : Comes mark.cur bytes word more rest inside next) (isWord : IsWord word) :
    bytes.dropWhile isspace ≠ ascii "//" ++ after := by
  intro opener
  rw [comes.here] at opener
  cases word with
  | nil => exact isWord.ne_nil rfl
  | cons b word =>
    have slash : b = 47 := (List.cons.inj opener).1
    exact isWord.no_slash b List.mem_cons_self slash

theorem Comes.more_append {cur : Pos} {next : Mark} {bytes word more rest : List Byte} {inside : Bool}
    (comes : Comes cur bytes word more rest inside next) (later : List Byte) :
    more ++ later = more.takeWhile isspace ++ (rest ++ later) := by
  rw [comes.rest, ← List.append_assoc, List.takeWhile_append_dropWhile]

theorem Comes.bytes_append {cur : Pos} {next : Mark} {bytes word more rest : List Byte} {inside : Bool}
    (comes : Comes cur bytes word more rest inside next) (later : List Byte) :
    bytes ++ later = bytes.takeWhile isspace ++ (word ++ (more.takeWhile isspace ++ (rest ++ later))) := by
  rw [← comes.more_append, ← List.append_assoc word, ← comes.here, ← List.append_assoc, List.takeWhile_append_dropWhile]

theorem Comes.opens_iff {mark next : Mark} {bytes more rest : List Byte} {inside : Bool}
    (comes : Comes mark.cur bytes (ascii "//") more rest inside next) (after : List Byte) :
    bytes.dropWhile isspace = ascii "//" ++ after ↔ after = more := by
  rw [comes.here]
  simp [eq_comm]

theorem Passage.of_lexStep {size : Nat} {mark next : Mark} {bytes rest later : List Byte} {out : List View}
    (fits : bytes.length ≤ size) (nonempty : bytes ≠ []) (step : lexStep mark bytes = .next next out rest)
    {views : List View} {lost : Prop} (passage : Passage size next.inside next.cur (rest ++ later) views lost) :
    ∃ lost', Passage size mark.inside mark.cur (bytes ++ later) (out ++ views) lost' ∧
      (lost' ↔ lost ∨ ∃ more, (mark.inside = false ∧ bytes.dropWhile isspace = ascii "//" ++ more) ∧
        Swallows more later) := by
  rcases lexStep_next nonempty step with ⟨c, inside, rfl, rfl, inside', cur⟩ | ⟨more, outside, comes, rfl⟩ |
    ⟨word, more, outside, comes, rfl, known⟩
  · rw [inside', cur] at passage
    refine ⟨lost, ?_, by simp [inside]⟩
    rw [inside]
    by_cases ends : c = newline
    · subst ends
      exact .lineEnd passage
    · rw [show (c != newline) = true by simpa using ends] at passage
      exact .text ends passage
  · rw [comes.inside_eq, comes.cur_eq, ← advance_append] at passage
    have opened := Passage.blanks (takeWhile_blanks bytes) (Passage.comment (takeWhile_blanks more) passage)
    rw [← comes.bytes_append, ← outside] at opened
    refine ⟨_, opened, ?_⟩
    -- The blanks behind the opener hold a newline, and the line that follows is taken for the comment.
    have swallows : (newline ∈ more.takeWhile isspace ∧ ¬CommentLine (rest ++ later)) ↔ Swallows more later := by
      rw [comes.rest, Swallows]
    simp only [comes.opens_iff, outside, true_and, exists_eq_left, swallows]
  · rw [comes.inside_eq, comes.cur_eq] at passage
    have gap_passage := Passage.blanks (takeWhile_blanks more) passage
    rw [← comes.more_append] at gap_passage
    refine ⟨lost, ?_, by simp [comes.no_opener known.isWord]⟩
    have longer := (List.dropWhile_suffix (p := isspace) (l := bytes)).length_le
    rw [comes.here, List.length_append] at longer
    rw [comes.bytes_append, ← comes.more_append, outside]
    refine Passage.blanks (takeWhile_blanks bytes) (.word (known.append later) ?_ gap_passage)
    rcases known with keyword | ⟨-, c, after, rfl, -⟩
    · exact .inl keyword
    · rw [List.length_cons] at longer
      exact .inr (by omega)

theorem Passage.of_lex {size : Nat} (mark : Mark) {bytes later : List Byte} (fits : bytes.length ≤ size)
    {views : List View} {lost : Prop}
    (passage : Passage size (lex mark bytes).mark.inside (lex mark bytes).mark.cur
      ((lex mark bytes).rest ++ later) views lost) :
    ∃ lost', Passage size mark.inside mark.cur (bytes ++ later) ((lex mark bytes).out ++ views) lost' ∧
      (lost' ↔ lost ∨ ∃ more, Opens mark bytes more ∧ Swallows more later) := by
  induction length : bytes.length using Nat.strong_induction_on generalizing mark bytes with
  | _ length ih =>
    by_cases nonempty : bytes = []
    · subst nonempty
      rw [lex_nil] at passage ⊢
      refine ⟨lost, passage, ?_⟩
      simp [not_opens_nil]
    · cases step : lexStep mark bytes with
      | stuck next rest =>
        rw [lex_stuck nonempty step] at passage ⊢
        obtain ⟨outside, rfl, -, rfl⟩ := lexStep_stuck step nonempty
        refine ⟨lost, ?_, ?_⟩
        · have whole := Passage.blanks (takeWhile_blanks bytes) passage
          rw [← List.append_assoc, List.takeWhile_append_dropWhile] at whole
          rw [outside]
          exact whole
        · simp [not_opens_stuck nonempty step]
      | next next out rest =>
        have shorter := lexStep_shorter nonempty step
        rw [lex_next nonempty step] at passage ⊢
        obtain ⟨lost', rest_passage, rest_iff⟩ := ih _ (length ▸ shorter) next (by omega) passage rfl
        obtain ⟨lost'', whole, iff⟩ := Passage.of_lexStep fits nonempty step rest_passage
        simp only [Lexed.after, List.append_assoc]
        refine ⟨lost'', whole, ?_⟩
        rw [iff, rest_iff]
        simp only [opens_next nonempty step, or_and_right, exists_or]
        rw [or_assoc, or_comm (a := ∃ more, Opens next rest more ∧ _)]

def Round.text (cfg : Config) (round : Round) : List Byte :=
  if cfg.scanBlockSize ≤ round.bytesCopied + round.file.length then round.block cfg
  else withNewline round.pending

def Round.KeepsLines (cfg : Config) (round : Round) : Prop :=
  ∀ more, Opens round.sc.mark (round.text cfg) more → ¬Swallows more (round.later cfg)

/-- In no round does a comment take a line with it that is more than a comment. -/
def CommentsKept (cfg : Config) (sc : Scanner) (content : List Byte) : Prop :=
  ∀ round, Relation.ReflTransGen (fun round next => scanRound cfg round = .again next)
    (Round.init cfg sc content) round → round.KeepsLines cfg

theorem not_keepsLines (cfg : Config) (round : Round) :
    ¬round.KeepsLines cfg ↔ ∃ more, Opens round.sc.mark (round.text cfg) more ∧
      Swallows more (round.later cfg) := by
  simp [Round.KeepsLines]

theorem commentLine_newline (bytes : List Byte) : CommentLine (bytes ++ [newline]) ↔ CommentLine bytes := by
  have line : (bytes ++ [newline]).takeWhile (· ≠ newline) = bytes.takeWhile (· ≠ newline) :=
    takeWhile_delimited (by simp) bytes []
  rw [CommentLine, CommentLine, line]

theorem swallows_newline (more later : List Byte) : Swallows more (later ++ [newline]) ↔ Swallows more later := by
  rw [Swallows, Swallows, ← List.append_assoc, commentLine_newline]

theorem withNewline_delimited (bytes : List Byte) : Delimited (withNewline bytes) := by
  unfold withNewline
  split
  · next ended =>
    rcases ended with rfl | last
    · simp [Delimited]
    · simp [Delimited, last, newline_space]
  · simp [Delimited, newline_space]

theorem withNewline_append (bytes : List Byte) :
    ∃ added, (added = [] ∨ added = [newline]) ∧ withNewline bytes ++ added = bytes ++ [newline] := by
  unfold withNewline
  split
  · exact ⟨[newline], .inr rfl, rfl⟩
  · exact ⟨[], .inl rfl, List.append_nil _⟩

theorem Round.text_whole (cfg : Config) (round : Round) :
    ∃ back, round.text cfg ++ back = round.pending ++ [newline] := by
  unfold Round.text
  split
  · refine ⟨round.later cfg ++ [newline], ?_⟩
    rw [← List.append_assoc, Round.block_later]
  · obtain ⟨added, -, whole⟩ := withNewline_append round.pending
    exact ⟨added, whole⟩

theorem Passage.newlines {size : Nat} (inside : Bool) (cur : Pos) {added : List Byte}
    (only : added = [] ∨ added = [Hvme.newline]) : Passage size inside cur added [] False := by
  rcases only with rfl | rfl
  · exact .done inside cur
  · cases inside with
    | false => exact .blank newline_space (.done false _)
    | true => exact .lineEnd (.done false _)

section rounds

variable {cfg : Config} {round : Round}

theorem scanRound_again_passage (valid : round.Valid cfg)
    (full : cfg.scanBlockSize ≤ round.bytesCopied + round.file.length) {next : Round}
    (again : scanRound cfg round = .again next) :
    next.Valid cfg ∧ next.sc.tokens.filename = round.sc.tokens.filename ∧
      ∃ out, next.sc.views = round.sc.views ++ out ∧ ∀ views lost,
      Passage cfg.scanBlockSize next.sc.mark.inside next.sc.mark.cur (next.pending ++ [newline]) views lost →
      ∃ lost', Passage cfg.scanBlockSize round.sc.mark.inside round.sc.mark.cur (round.pending ++ [newline])
          (out ++ views) lost' ∧ (lost' ↔ lost ∨ ¬round.KeepsLines cfg) := by
  have scanned := scanRound_full valid full
  split at scanned
  · obtain ⟨sc, diag, failed⟩ := scanned
    rw [failed] at again
    cases again
  · obtain ⟨next', again', next_valid, seen, carried, file⟩ := scanned
    rw [again'] at again
    cases again
    refine ⟨next_valid, seen.filename, _, seen.views, fun views lost passage => ?_⟩
    rw [Round.pending, carried, file, seen.mark, List.append_assoc] at passage
    have short : (round.block cfg).length ≤ cfg.scanBlockSize := by
      rw [valid.block_length]
      exact min_le_left _ _
    obtain ⟨lost', whole, iff⟩ := Passage.of_lex round.sc.mark short passage
    rw [← List.append_assoc, Round.block_later] at whole
    refine ⟨lost', whole, ?_⟩
    rw [iff, not_keepsLines, Round.text, if_pos full]
    simp only [swallows_newline]

theorem scanRound_last_passage (valid : round.Valid cfg)
    (short : round.bytesCopied + round.file.length < cfg.scanBlockSize) {sc : Scanner}
    (last : scanRound cfg round = .ok sc) :
    sc.tokens.filename = round.sc.tokens.filename ∧ ∃ out lost, sc.views = round.sc.views ++ out ∧
      Passage cfg.scanBlockSize round.sc.mark.inside round.sc.mark.cur (round.pending ++ [newline]) out lost ∧
      (lost ↔ ¬round.KeepsLines cfg) := by
  have scanned := scanRound_last valid short
  rw [last, numTrailing_eq] at scanned
  cases blank : (lex round.sc.mark (withNewline round.pending)).rest.any isspace with
  | true =>
    simp only [blank, if_true] at scanned
    obtain ⟨_, _, failed⟩ := scanned
    cases failed
  | false =>
    simp only [blank, Bool.false_eq_true, if_false] at scanned
    obtain ⟨sc', same, seen⟩ := scanned
    cases same
    -- The block ends with a newline, so a rest that is not empty holds a blank and the round fails.
    have nothing : (lex round.sc.mark (withNewline round.pending)).rest = [] := by
      by_contra some_
      rw [((withNewline_delimited _).suffix (lex_suffix _ _)).any some_] at blank
      cases blank
    obtain ⟨added, only, whole⟩ := withNewline_append round.pending
    have fits : (withNewline round.pending).length ≤ cfg.scanBlockSize := by
      have length := congrArg List.length whole
      have pending : round.pending.length ≤ round.bytesCopied + round.file.length := by
        rw [Round.pending, List.length_append]
        exact Nat.add_le_add_right (List.length_take_le _ _) _
      rw [List.length_append, List.length_append, List.length_singleton] at length
      omega
    have rest_passage := @Passage.newlines cfg.scanBlockSize
      (lex round.sc.mark (withNewline round.pending)).mark.inside
      (lex round.sc.mark (withNewline round.pending)).mark.cur _ only
    rw [← List.nil_append added, ← nothing] at rest_passage
    obtain ⟨lost, passage, iff⟩ := Passage.of_lex round.sc.mark fits rest_passage
    rw [whole, List.append_nil] at passage
    refine ⟨seen.filename, _, lost, seen.views, passage, ?_⟩
    have nothing_later : round.later cfg = [] := List.drop_eq_nil_of_le (by omega)
    -- A newline put at the end of the text does not change which lines are swallowed.
    have kept (more : List Byte) : Swallows more added ↔ Swallows more [] := by
      rcases only with rfl | rfl
      · rfl
      · exact swallows_newline more []
    rw [iff, not_keepsLines, Round.text, if_neg (Nat.not_le.mpr short), nothing_later]
    simp only [kept, false_or]

end rounds

theorem scanRounds_passage (cfg : Config) (fuel : Nat) {round : Round} (valid : round.Valid cfg) {sc : Scanner}
    (returns : scanRounds cfg fuel round = .ok (.ok, sc)) :
    sc.tokens.filename = round.sc.tokens.filename ∧ ∃ out lost, sc.views = round.sc.views ++ out ∧
      Passage cfg.scanBlockSize round.sc.mark.inside round.sc.mark.cur (round.pending ++ [newline]) out lost ∧
      (lost ↔ ∃ last, Relation.ReflTransGen (fun round next => scanRound cfg round = .again next) round last ∧
        ¬last.KeepsLines cfg) := by
  induction fuel generalizing round with
  | zero => cases returns
  | succ fuel ih =>
    rw [scanRounds] at returns
    cases step : scanRound cfg round with
    | err _ _ =>
      rw [step] at returns
      cases returns
    | ok last =>
      rw [step] at returns
      cases returns
      obtain ⟨filename, out, lost, views, passage, iff⟩ :=
        scanRound_last_passage valid (short_of_ok valid step) step
      refine ⟨filename, out, lost, views, passage, ?_⟩
      rw [iff]
      constructor
      next => exact fun swallowed => ⟨round, .refl, swallowed⟩
      next =>
        rintro ⟨later, reached, swallowed⟩
        rcases Relation.ReflTransGen.cases_head reached with rfl | ⟨next, again, -⟩
        · exact swallowed
        · rw [step] at again
          cases again
    | again next =>
      rw [step] at returns
      obtain ⟨next_valid, filename, out, seen, extend⟩ :=
        scanRound_again_passage valid (full_of_again valid step) step
      obtain ⟨filename', out', lost', views, passage, iff⟩ := ih next_valid returns
      obtain ⟨lost, whole, iff'⟩ := extend out' lost' passage
      refine ⟨filename'.trans filename, out ++ out', lost, ?_, whole, ?_⟩
      · rw [views, seen, List.append_assoc]
      · rw [iff', iff]
        constructor
        next =>
          rintro (⟨later, reached, swallowed⟩ | swallowed)
          · exact ⟨later, .head step reached, swallowed⟩
          · exact ⟨round, .refl, swallowed⟩
        next =>
          rintro ⟨later, reached, swallowed⟩
          rcases Relation.ReflTransGen.cases_head reached with rfl | ⟨next', again, reached⟩
          · exact .inr swallowed
          · rw [step] at again
            cases again
            exact .inl ⟨later, reached, swallowed⟩

theorem scan_passage {cfg : Config} {fuel : Nat} {sc sc' : Scanner} {content : List Byte}
    (returns : scan cfg fuel sc (some content) = .ok (.ok, sc')) :
    sc'.tokens.filename = sc.tokens.filename ∧ ∃ out lost, sc'.views = sc.views ++ out ∧
      Passage cfg.scanBlockSize sc.mark.inside sc.mark.cur (content ++ [newline]) out lost ∧
      (lost ↔ ¬CommentsKept cfg sc content) := by
  obtain ⟨filename, out, lost, views, passage, iff⟩ :=
    scanRounds_passage cfg fuel (Round.init_valid cfg sc content) returns
  refine ⟨filename, out, lost, views, passage, ?_⟩
  rw [iff]
  simp [CommentsKept]

end Hvme
