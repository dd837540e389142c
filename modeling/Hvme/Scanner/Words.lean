import Hvme.Scanner.Appending

set_option autoImplicit false

namespace Hvme

def keywords : List (String × TokenCode) :=
  [("push", .push), ("pop", .pop),
    ("argument", .arg), ("local", .loc), ("static", .stat), ("constant", .const), ("this", .this),
    ("that", .that), ("pointer", .ptr), ("temp", .tmp),
    ("label", .label), ("goto", .goto), ("if-goto", .ifGoto),
    ("function", .func), ("call", .call), ("return", .ret),
    ("add", .add), ("sub", .sub), ("neg", .neg), ("eq", .eq), ("gt", .gt), ("lt", .lt),
    ("and", .and), ("or", .or), ("not", .not)]

def keywordOf (word : List Byte) : Option TokenCode :=
  (keywords.find? fun entry => ascii entry.1 == word).map Prod.snd

def IsNumeral (word : List Byte) : Prop :=
  0 < word.length ∧ word.length ≤ 5 ∧ ∀ b ∈ word, isdigit b = true

def IsName (word : List Byte) : Prop :=
  ∃ first tail, word = first :: tail ∧ isIdentStart first = true ∧ ∀ b ∈ tail, isIdentChar b = true

def IsWord (word : List Byte) : Prop :=
  (keywordOf word).isSome ∨ IsNumeral word ∨ IsName word

/-- What a word stands for: numerals saturate, names are cut to `MAX_IDENT_LEN`. -/
def wordLexeme (word : List Byte) : Lexeme :=
  match keywordOf word with
  | some t => .keyword t
  | none =>
    if word.all isdigit then .num (min (uintValue word) 65535).toUInt16
    else .name (Ident.ofBuf word)

def words (text : List Byte) : List (List Byte) :=
  (text.splitOnP isspace).filter (· ≠ [])

theorem words_nil : words [] = [] := by
  simp [words, List.splitOnP_nil]

theorem words_append {c : Byte} (space : isspace c = true) (front back : List Byte) :
    words (front ++ c :: back) = words front ++ words back := by
  rw [words, List.splitOnP_append_cons _ _ space, List.filter_append]
  rfl

theorem words_cons {c : Byte} (space : isspace c = true) (back : List Byte) :
    words (c :: back) = words back := by
  have split_ := words_append space [] back
  rwa [words_nil, List.nil_append, List.nil_append] at split_

theorem words_word {word : List Byte} (nonempty : word ≠ []) (whole : ∀ b ∈ word, isspace b = false) :
    words word = [word] := by
  simp [words, List.splitOnP_eq_singleton whole, nonempty]

theorem words_eatWs (bytes : List Byte) (pos : Pos) : words (eatWs bytes pos).1 = words bytes := by
  induction bytes generalizing pos with
  | nil => rfl
  | cons c bytes ih =>
    rw [eatWs]
    split
    · next space => rw [ih, words_cons space]
    · rfl

/-- No keyword is a proper prefix of the word. -/
def KeywordFree (word : List Byte) : Prop :=
  ∀ entry ∈ keywords, ascii entry.1 <+: word → word = ascii entry.1

theorem keyword_fn : ∀ entry ∈ keywords, ∃ fn : ScanFn, fn.text = some entry.1 ∧ fn.token = entry.2 ∧
    fn ≠ .comment := by
  have known : ∀ entry ∈ keywords,
      (matchFns.getD (entry.2.val - 1) .comment).text = some entry.1 ∧
        (matchFns.getD (entry.2.val - 1) .comment).token = entry.2 ∧
        matchFns.getD (entry.2.val - 1) .comment ≠ .comment := by
    decide
  exact fun entry member => ⟨_, known entry member⟩

theorem keyword_letter {text : String} {t : TokenCode} (member : (text, t) ∈ keywords) :
    ∃ b tail, ascii text = b :: tail ∧ isdigit b = false := by
  have letters : ∀ entry ∈ keywords, ∃ b ∈ (ascii entry.1).head?, isdigit b = false := by
    decide
  obtain ⟨b, head, letter⟩ := letters _ member
  obtain ⟨tail, same⟩ := List.head?_eq_some_iff.mp head
  exact ⟨b, tail, same, letter⟩

theorem keyword_prefix_free : ∀ entry ∈ keywords, ∀ other ∈ keywords,
    ascii entry.1 <+: ascii other.1 → ascii other.1 = ascii entry.1 := by
  decide

theorem fn_keyword {fn : ScanFn} {text : String} (fixed : fn.text = some text) :
    text = "//" ∨ (text, fn.token) ∈ keywords := by
  cases fn <;> cases fixed <;> simp [keywords, ScanFn.token]

theorem keywordOf_some {word : List Byte} {t : TokenCode} (known : keywordOf word = some t) :
    ∃ text, (text, t) ∈ keywords ∧ word = ascii text := by
  obtain ⟨⟨text, t'⟩, found, rfl⟩ := Option.map_eq_some_iff.mp known
  refine ⟨text, List.mem_of_find?_eq_some found, ?_⟩
  have same := List.find?_some found
  exact (beq_iff_eq.mp same).symm

theorem keywordOf_of_free {word : List Byte} (free : ∀ entry ∈ keywords, ¬ascii entry.1 <+: word) :
    keywordOf word = none := by
  rw [Option.eq_none_iff_forall_ne_some]
  intro t known
  obtain ⟨text, member, same⟩ := keywordOf_some known
  exact free _ member (same ▸ List.prefix_rfl)

theorem keywordOf_none {word : List Byte} (unknown : keywordOf word = none) :
    ∀ entry ∈ keywords, ascii entry.1 ≠ word := by
  intro entry member same
  rw [keywordOf, Option.map_eq_none_iff, List.find?_eq_none] at unknown
  exact unknown entry member (by simpa using same)

theorem not_isspace_of_isIdentChar {c : Byte} (char : isIdentChar c = true) : isspace c = false := by
  cases space : isspace c with
  | false => rfl
  | true => rw [isIdentChar_of_isspace space] at char; cases char

theorem not_isspace_of_isdigit {c : Byte} (digit : isdigit c = true) : isspace c = false :=
  not_isspace_of_isIdentChar ((isIdentChar_iff c).mpr (.inr digit))

theorem IsName.chars {word : List Byte} (name : IsName word) : ∀ b ∈ word, isIdentChar b = true := by
  obtain ⟨first, tail, rfl, start, chars⟩ := name
  exact List.forall_mem_cons.mpr ⟨isIdentChar_of_start start, chars⟩

theorem keyword_blankless {text : String} {t : TokenCode} (member : (text, t) ∈ keywords) :
    ∀ b ∈ ascii text, isspace b = false := by
  obtain ⟨fn, fixed, -⟩ := keyword_fn _ member
  exact ScanFn.text_blankless fixed

theorem IsWord.blankless {word : List Byte} (isWord : IsWord word) : ∀ b ∈ word, isspace b = false := by
  rcases isWord with known | ⟨-, -, digits⟩ | name
  · obtain ⟨t, known⟩ := Option.isSome_iff_exists.mp known
    obtain ⟨text, member, rfl⟩ := keywordOf_some known
    exact keyword_blankless member
  · exact fun b member => not_isspace_of_isdigit (digits b member)
  · exact fun b member => not_isspace_of_isIdentChar (name.chars b member)

theorem prefix_of_delimited {text word more : List Byte} {c : Byte} (space : isspace c = true)
    (blankless : ∀ b ∈ text, isspace b = false) (here : text <+: word ++ c :: more) : text <+: word := by
  rcases List.prefix_or_prefix_of_prefix here (List.prefix_append word (c :: more)) with inside | longer
  · exact inside
  · obtain ⟨tail, rfl⟩ := longer
    rw [List.prefix_append_right_inj] at here
    cases tail with
    | nil => simp
    | cons b tail =>
      obtain ⟨rfl, -⟩ := List.cons_prefix_cons.mp here
      rw [blankless b (by simp)] at space
      cases space

def Finds (word rest : List Byte) : Prop :=
  ∃ fnIdx fn found, firstMatch matchFns 0 rest = some (fnIdx, fn, found) ∧ fn ≠ .comment ∧
    found.nchars = word.length ∧ fn.lexeme rest found = wordLexeme word

theorem finds_keyword {word : List Byte} {t : TokenCode} (known : keywordOf word = some t)
    (more : List Byte) : Finds word (word ++ more) := by
  obtain ⟨text, member, rfl⟩ := keywordOf_some known
  obtain ⟨fn, fixed, token, opener⟩ := keyword_fn _ member
  obtain ⟨fnIdx, matched⟩ := firstMatch_text fixed more
  refine ⟨fnIdx, fn, _, matched, opener, rfl, ?_⟩
  rw [ScanFn.lexeme_text fixed, wordLexeme, known, token]

section finds

variable {word more : List Byte} {c : Byte} (space : isspace c = true)

include space

theorem run_text_none (free : ∀ entry ∈ keywords, ¬ascii entry.1 <+: word)
    (slash : word.head? ≠ some 47) {fn : ScanFn} {text : String}
    (fixed : fn.text = some text) : fn.run (word ++ c :: more) = none := by
  rw [ScanFn.run_text fixed, Option.eq_none_iff_forall_ne_some]
  intro found here
  have inside := prefix_of_delimited space (ScanFn.text_blankless fixed) (staticScan_some.mp here).1
  rcases fn_keyword fixed with rfl | member
  · obtain ⟨tail, rfl⟩ := inside
    exact slash rfl
  · exact free _ member inside

theorem finds_name (name : IsName word) (free : ∀ entry ∈ keywords, ¬ascii entry.1 <+: word) :
    Finds word (word ++ c :: more) := by
  have chars := name.chars
  obtain ⟨first, tail, rfl, start, tailChars⟩ := name
  have start_range := (isIdentStart_toNat first).mp start
  have no_digit : isdigit first = false := by
    rw [← Bool.not_eq_true, isdigit_toNat]
    omega
  have no_slash : (first :: tail).head? ≠ some 47 := by
    rintro ⟨⟩
    simp at start_range
  have unknown := keywordOf_of_free free
  have delimits := isIdentChar_of_isspace space
  have longest : (tail ++ c :: more).takeWhile isIdentChar = tail := by
    rw [takeWhile_delimited delimits, List.takeWhile_eq_self_iff.mpr tailChars]
  -- The functions tried before `scan_ident`: the words, none of which starts the name, and `scan_uint`.
  have earlier : ∀ other ∈ matchFns.take 26, other.run (first :: tail ++ c :: more) = none := by
    intro other member
    cases fixed : other.text with
    | some text => exact run_text_none space free no_slash fixed
    | none =>
      rcases ScanFn.text_none fixed with rfl | rfl
      · simp [ScanFn.run, scanUint, no_digit]
      · exact absurd member (by decide)
  have here : ScanFn.ident.run (first :: tail ++ c :: more) =
      some { nchars := (first :: tail).length, uilit := none, ident := some (first :: tail ++ c :: more),
             warning := if (first :: tail).length > maxIdentLen then some (.truncIdent (first :: tail)) else none } := by
    have left : (first :: (tail ++ c :: more)).drop (first :: tail).length = c :: more := by
      rw [← List.cons_append, List.drop_left]
    simp only [ScanFn.run, scanIdent, List.cons_append, start, if_true, longest, left, space]
  have matched : firstMatch (matchFns.take 26 ++ .ident :: [.comment]) 0 (first :: tail ++ c :: more) = _ :=
    firstMatch_skip earlier here
  refine ⟨_, .ident, _, matched, by decide, rfl, ?_⟩
  simp only [ScanFn.lexeme, List.take_left, wordLexeme, unknown, List.all_cons, no_digit, Bool.false_and,
    Bool.false_eq_true, if_false]

theorem finds_numeral (numeral : IsNumeral word) : Finds word (word ++ c :: more) := by
  obtain ⟨positive, short, digits⟩ := numeral
  obtain ⟨first, tail, rfl⟩ := List.exists_cons_of_length_pos positive
  have first_digit := digits first List.mem_cons_self
  have range := (isdigit_toNat first).mp first_digit
  have no_slash : (first :: tail).head? ≠ some 47 := by
    rintro ⟨⟩
    simp at range
  have free : ∀ entry ∈ keywords, ¬ascii entry.1 <+: first :: tail := by
    intro entry member inside
    obtain ⟨b, text, same, letter⟩ := keyword_letter member
    rw [same] at inside
    obtain ⟨rfl, -⟩ := List.cons_prefix_cons.mp inside
    rw [first_digit] at letter
    cases letter
  have unknown := keywordOf_of_free free
  have all : (first :: tail).all isdigit = true := List.all_eq_true.mpr digits
  -- At most five digits are looked at, and the blank that follows ends them.
  have longest : ((first :: tail ++ c :: more).take 5).takeWhile isdigit = first :: tail := by
    rw [takeWhile_take_delimited (isdigit_of_isspace space), List.take_of_length_le short,
      List.takeWhile_eq_self_iff.mpr digits]
  -- The ten functions tried before `scan_uint` match words only, and no word starts with a digit.
  have earlier : ∀ other ∈ matchFns.take 10, other.run (first :: tail ++ c :: more) = none := by
    intro other member
    cases fixed : other.text with
    | some text => exact run_text_none space free no_slash fixed
    | none => rcases ScanFn.text_none fixed with rfl | rfl <;> exact absurd member (by decide)
  have lexeme : wordLexeme (first :: tail) = .num (min (uintValue (first :: tail)) 65535).toUInt16 := by
    simp only [wordLexeme, unknown, all, if_true]
  have front : matchFns = matchFns.take 10 ++ .uint :: matchFns.drop 11 := rfl
  have here : scanUint (first :: tail ++ c :: more) =
      if uintValue (first :: tail) > 65535 then
        some { nchars := (first :: tail).length, uilit := some 65535, ident := none,
               warning := some (.satUilit (uintValue (first :: tail))) }
      else
        some { nchars := (first :: tail).length, uilit := some (uintValue (first :: tail)).toUInt16,
               ident := none, warning := none } := by
    simp only [scanUint, longest, List.drop_left, space]
    simp
  rw [Finds, front, lexeme]
  split at here
  · next large =>
    refine ⟨_, .uint, _, firstMatch_skip earlier here, by decide, rfl, ?_⟩
    simp only [ScanFn.lexeme, Option.getD_some, Nat.min_eq_right large.le]
    rfl
  · next small =>
    refine ⟨_, .uint, _, firstMatch_skip earlier here, by decide, rfl, ?_⟩
    simp only [ScanFn.lexeme, Option.getD_some, Nat.min_eq_left (Nat.not_lt.mp small)]

end finds

theorem finds_prefix {word : List Byte} (unfree : ¬KeywordFree word) :
    (∃ ident, wordLexeme word = .name ident) ∧
      ∀ more, ∃ fnIdx fn found t, firstMatch matchFns 0 (word ++ more) = some (fnIdx, fn, found) ∧
        fn ≠ .comment ∧ fn.lexeme (word ++ more) found = .keyword t := by
  unfold KeywordFree at unfree
  push Not at unfree
  obtain ⟨⟨text, t⟩, member, ⟨back, rfl⟩, proper⟩ := unfree
  constructor
  · have unknown : keywordOf (ascii text ++ back) = none := by
      rw [Option.eq_none_iff_forall_ne_some]
      intro t' known
      obtain ⟨other, known', same⟩ := keywordOf_some known
      refine proper ?_
      rw [same]
      exact keyword_prefix_free _ member _ known' (same ▸ List.prefix_append _ _)
    obtain ⟨b, tail, same, letter⟩ := keyword_letter member
    have digits : (ascii text ++ back).all isdigit = false := by
      rw [same, List.cons_append, List.all_cons, letter, Bool.false_and]
    refine ⟨Ident.ofBuf (ascii text ++ back), ?_⟩
    simp only [wordLexeme, unknown, digits, Bool.false_eq_true, if_false]
  · intro more
    obtain ⟨fn, fixed, token, opener⟩ := keyword_fn _ member
    obtain ⟨fnIdx, matched⟩ := firstMatch_text fixed (back ++ more)
    rw [← List.append_assoc] at matched
    exact ⟨fnIdx, fn, _, _, matched, opener, ScanFn.lexeme_text fixed _ _⟩

theorem finds_word {word more : List Byte} {c : Byte} (space : isspace c = true) (isWord : IsWord word)
    (free : KeywordFree word) : Finds word (word ++ c :: more) := by
  cases known : keywordOf word with
  | some t => exact finds_keyword known _
  | none =>
    rcases isWord with is_keyword | numeral | name
    · rw [known] at is_keyword
      cases is_keyword
    · exact finds_numeral space numeral
    · refine finds_name space name fun entry member inside => ?_
      exact keywordOf_none known entry member (free entry member inside).symm

def Delimited (bytes : List Byte) : Prop := ∀ b ∈ bytes.getLast?, isspace b = true

theorem Delimited.suffix {bytes rest : List Byte} (delimited : Delimited bytes) (suffix : rest <:+ bytes) :
    Delimited rest := by
  by_cases nothing : rest = []
  · subst nothing
    simp [Delimited]
  · obtain ⟨front, rfl⟩ := suffix
    rwa [Delimited, List.getLast?_append_of_ne_nil _ nothing] at delimited

theorem Delimited.any {bytes : List Byte} (delimited : Delimited bytes) (nonempty : bytes ≠ []) :
    bytes.any isspace = true := by
  have last := List.getLast?_eq_some_getLast nonempty
  exact List.any_eq_true.mpr ⟨_, List.getLast_mem nonempty, delimited _ last⟩

theorem Delimited.first_word {bytes : List Byte} (delimited : Delimited bytes) (cur : Pos) :
    ((eatWs bytes cur).1 = [] ∧ words bytes = []) ∨
      ∃ word c more, (eatWs bytes cur).1 = word ++ c :: more ∧ word ≠ [] ∧ isspace c = true ∧
        words bytes = word :: words (c :: more) ∧ Delimited (c :: more) ∧
        (c :: more).length < bytes.length := by
  have same := words_eatWs bytes cur
  by_cases nothing : (eatWs bytes cur).1 = []
  · rw [nothing, words_nil] at same
    exact .inl ⟨nothing, same.symm⟩
  · have suffix := eatWs_suffix bytes cur
    obtain ⟨word, c, more, split_, space, whole⟩ :=
      exists_first_space ((delimited.suffix suffix).any nothing)
    have nonempty : word ≠ [] := by
      rintro rfl
      have stop := List.head?_dropWhile_not isspace bytes
      rw [← eatWs_rest bytes cur, split_] at stop
      simp [space] at stop
    rw [split_] at suffix same
    refine .inr ⟨word, c, more, split_, nonempty, space, ?_, ?_, ?_⟩
    · rw [← same, words_append space, words_word nonempty whole, words_cons space]
      rfl
    · exact delimited.suffix ((List.suffix_append _ _).trans suffix)
    · have longer := suffix.length_le
      have := List.length_pos_iff.mpr nonempty
      rw [List.length_append] at longer
      omega

def Lexed.lexemes (read : Lexed) : Option (List Lexeme) := read.tokens.map (List.map View.lexeme)

theorem lex_match {cur : Pos} {bytes : List Byte} {fnIdx : Nat} {fn : ScanFn} {found : Match}
    (matched : firstMatch matchFns 0 (eatWs bytes cur).1 = some (fnIdx, fn, found)) (token : fn ≠ .comment) :
    (lex { inside := false, cur := cur } bytes).lexemes =
      (lex { inside := false, cur := incby found.nchars (eatWs bytes cur).2 }
        ((eatWs bytes cur).1.drop found.nchars)).lexemes.map
          (fn.lexeme (eatWs bytes cur).1 found :: ·) := by
  have nonempty : bytes ≠ [] := by
    rintro rfl
    rw [show (eatWs [] cur).1 = [] from rfl, firstMatch_nil] at matched
    cases matched
  rw [← lex_eatWs (incby found.nchars (eatWs bytes cur).2)]
  have step : lexStep { inside := false, cur := cur } bytes =
      .next { inside := false,
              cur := (eatWs ((eatWs bytes cur).1.drop found.nchars) (incby found.nchars (eatWs bytes cur).2)).2 }
        [{ lexeme := fn.lexeme (eatWs bytes cur).1 found, pos := (eatWs bytes cur).2 }]
        (eatWs ((eatWs bytes cur).1.drop found.nchars) (incby found.nchars (eatWs bytes cur).2)).1 := by
    simp only [lexStep, matched, token, Bool.false_eq_true, if_false]
  rw [lex_next nonempty step, Lexed.lexemes, Lexed.after_tokens, Lexed.lexemes, Option.map_map, Option.map_map]
  rfl

theorem lex_lexemes (cur : Pos) (bytes : List Byte) (delimited : Delimited bytes)
    (made : ∀ word ∈ words bytes, IsWord word) :
    (lex { inside := false, cur := cur } bytes).lexemes = some ((words bytes).map wordLexeme) ↔
      ∀ word ∈ words bytes, KeywordFree word := by
  induction size : bytes.length using Nat.strong_induction_on generalizing cur bytes with
  | _ size ih =>
    rcases delimited.first_word cur with ⟨nothing, none_⟩ | ⟨word, c, more, split_, nonempty, space, first,
      later, shorter⟩
    · rw [none_, ← lex_eatWs, nothing]
      simp [Lexed.lexemes, Lexed.tokens]
    · rw [first] at made ⊢
      rw [List.forall_mem_cons] at made ⊢
      by_cases free : KeywordFree word
      · obtain ⟨fnIdx, fn, found, matched, token, nchars, lexeme⟩ := finds_word space made.1 free
        have rest := ih _ (size ▸ shorter) (incby found.nchars (eatWs bytes cur).2) (c :: more) later made.2 rfl
        rw [← split_] at matched
        rw [lex_match matched token, split_, nchars, List.drop_left, lexeme, List.map_cons, ← nchars]
        simp only [free, true_and, ← rest, Option.map_eq_some_iff, List.cons.injEq, exists_eq_right]
      · obtain ⟨⟨ident, name⟩, keyword⟩ := finds_prefix free
        obtain ⟨fnIdx, fn, found, t, matched, token, lexeme⟩ := keyword (c :: more)
        rw [← split_] at matched
        rw [lex_match matched token, split_, lexeme, List.map_cons, name]
        simp [free]

/-- One call of `scan_blk` on `text` gives one token for each of its words, namely the word's own one. -/
def LexicalLaw (text : List Byte) : Prop :=
  ∀ sc : Scanner, sc.statics.insideComment = false →
    ∃ sc', scanBlk sc (text ++ [newline]) = .trailing sc' 0 ∧
      sc'.tokens.cell.map Token.lexeme = sc.tokens.cell.map Token.lexeme ++ (words text).map wordLexeme

theorem Scanner.views_lexeme (sc : Scanner) :
    sc.views.map View.lexeme = sc.tokens.cell.map Token.lexeme := by
  rw [Scanner.views, List.map_map]
  rfl

theorem scanBlk_lexemes (sc : Scanner) {bytes : List Byte} (delimited : Delimited bytes)
    (lexemes : List Lexeme) :
    (lex sc.mark bytes).lexemes = some lexemes ↔ ∃ sc', scanBlk sc bytes = .trailing sc' 0 ∧
      sc'.tokens.cell.map Token.lexeme = sc.tokens.cell.map Token.lexeme ++ lexemes := by
  have reads := scanBlk_reads sc bytes
  rw [numTrailing_eq] at reads
  unfold Lexed.lexemes Lexed.tokens
  cases blank : (lex sc.mark bytes).rest.any isspace with
  | true =>
    simp only [blank, if_true] at reads ⊢
    obtain ⟨sc', diag, failed, -⟩ := reads
    simp [failed]
  | false =>
    simp only [blank, Bool.false_eq_true, if_false] at reads ⊢
    obtain ⟨sc', scanned, seen⟩ := reads
    have nothing : (lex sc.mark bytes).rest = [] := by
      by_contra some_
      rw [(delimited.suffix (lex_suffix sc.mark bytes)).any some_] at blank
      cases blank
    have read := congrArg (List.map View.lexeme) seen.views
    rw [List.map_append, Scanner.views_lexeme, Scanner.views_lexeme] at read
    rw [scanned, nothing]
    simp [read]

/-- The law holds of exactly the texts in which no word goes on after a keyword. -/
theorem lexicalLaw_iff (text : List Byte) (made : ∀ word ∈ words text, IsWord word) :
    LexicalLaw text ↔ ∀ word ∈ words text, KeywordFree word := by
  have delimited : Delimited (text ++ [newline]) := by
    simp [Delimited, newline_space]
  have same : words (text ++ [newline]) = words text := by
    rw [words_append newline_space, words_nil, List.append_nil]
  have law (sc : Scanner) (outside : sc.statics.insideComment = false) :
      (∃ sc', scanBlk sc (text ++ [newline]) = .trailing sc' 0 ∧
        sc'.tokens.cell.map Token.lexeme =
          sc.tokens.cell.map Token.lexeme ++ (words text).map wordLexeme) ↔
      ∀ word ∈ words text, KeywordFree word := by
    have mark : sc.mark = { inside := false, cur := sc.tokens.cur } := by
      rw [Scanner.mark, outside]
    have read := lex_lexemes sc.tokens.cur _ delimited (by rwa [same])
    rw [← scanBlk_lexemes sc delimited, mark]
    rwa [same] at read
  constructor
  · intro holds
    let sc : Scanner := { tokens := newTokens none, statics := Statics.init, warnings := [] }
    exact (law sc rfl).mp (holds sc rfl)
  · intro free sc outside
    exact (law sc outside).mpr free

theorem lexicalLaw_three_words : LexicalLaw (ascii "push Sys.init 70000") ↔
    ∀ word ∈ words (ascii "push Sys.init 70000"), KeywordFree word := by
  have three : words (ascii "push Sys.init 70000") = [ascii "push", ascii "Sys.init", ascii "70000"] := by
    decide +kernel
  refine lexicalLaw_iff _ ?_
  rw [three]
  simp only [List.forall_mem_cons]
  refine ⟨.inl (by decide), .inr (.inr ⟨_, _, rfl, by decide, List.all_eq_true.mp (by decide)⟩),
    .inr (.inl ⟨by decide, by decide, List.all_eq_true.mp (by decide)⟩), by simp⟩

theorem keyword_cuts_name : ¬LexicalLaw (ascii "pusher") := by
  intro holds
  let sc : Scanner := { tokens := newTokens none, statics := Statics.init, warnings := [] }
  have two : (match scanBlk sc (ascii "pusher" ++ [newline]) with
      | .trailing sc' _ => some sc'.tokens.cell.length
      | .err _ _ => none) = some 2 := by
    decide +kernel
  have one : (words (ascii "pusher")).length = 1 := by
    decide +kernel
  obtain ⟨sc', scanned, lexemes⟩ := holds sc rfl
  have lengths := congrArg List.length lexemes
  simp only [scanned, Option.some.injEq] at two
  simp only [List.length_append, List.length_map, one, two] at lengths
  cases lengths

end Hvme
