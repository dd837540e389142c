import Hvme.Parser.Printing

set_option autoImplicit false

namespace Hvme

def keywordText (t : TokenCode) : List Byte := ascii ((keywords.find? fun entry => entry.2 = t).elim "" Prod.fst)

def Lexeme.text : Lexeme → List Byte
  | .keyword t => keywordText t
  | .num value => decimal value.toNat
  | .name ident => ident.chars

def lineText : List Lexeme → List Byte
  | [] => [newline]
  | [lexeme] => lexeme.text ++ [newline]
  | lexeme :: next :: more => lexeme.text ++ 32 :: lineText (next :: more)

def textOf (items : List Item) : List Byte := items.flatMap fun item => lineText item.lexemes

structure Writable (cfg : Config) (ident : Ident) : Prop where
  name : IsName ident.chars
  free : ∀ entry ∈ keywords, ¬ascii entry.1 <+: ident.chars
  fits : ident.chars.length < cfg.scanBlockSize

theorem isName_iff (word : List Byte) :
    (word.head?.any isIdentStart && word.tail.all isIdentChar) = true ↔ IsName word := by
  cases word <;> simp [IsName]

instance (word : List Byte) : Decidable (IsName word) := decidable_of_iff _ (isName_iff word)

instance (cfg : Config) (ident : Ident) : Decidable (Writable cfg ident) :=
  decidable_of_iff (IsName ident.chars ∧ (∀ entry ∈ keywords, ¬ascii entry.1 <+: ident.chars) ∧
      ident.chars.length < cfg.scanBlockSize)
    ⟨fun ⟨name, free, fits⟩ => ⟨name, free, fits⟩, fun writable => ⟨writable.name, writable.free, writable.fits⟩⟩

theorem Writable.spells {cfg : Config} {ident : Ident} (writable : Writable cfg ident) :
    Spells cfg.scanBlockSize ident.chars (.name ident) where
  lexeme := by
    rw [wordLexeme, keywordOf_of_free writable.free]
    simp only [writable.name.not_digits, Bool.false_eq_true, if_false, Ident.ofBuf_chars]
  whole := .inr ⟨.inr writable.name, writable.free⟩
  fits := .inr writable.fits

theorem keywordText_spells (size : Nat) {t : TokenCode} (known : t ∈ keywords.map Prod.snd) :
    Spells size (keywordText t) (.keyword t) := by
  have texts : ∀ t ∈ keywords.map Prod.snd, ∃ entry ∈ keywords, keywordText t = ascii entry.1 ∧ entry.2 = t := by
    decide
  obtain ⟨⟨text, t⟩, member, same, rfl⟩ := texts t known
  rw [same]
  exact spells_keyword size member

theorem Item.keywords_known {item : Item} {t : TokenCode} (member : Lexeme.keyword t ∈ item.lexemes) :
    t ∈ keywords.map Prod.snd := by
  cases item with
  | operation op =>
    cases List.mem_singleton.mp member
    cases op <;> decide
  | transfer op seg offset =>
    simp only [Item.lexemes, List.mem_cons, Lexeme.keyword.injEq, reduceCtorEq, List.not_mem_nil, or_false] at member
    rcases member with rfl | rfl
    · cases op <;> decide
    · cases seg <;> decide
  | jump op target =>
    simp only [Item.lexemes, List.mem_cons, Lexeme.keyword.injEq, reduceCtorEq, List.not_mem_nil, or_false] at member
    subst member
    cases op <;> decide
  | label ident =>
    simp only [Item.lexemes, List.mem_cons, Lexeme.keyword.injEq, reduceCtorEq, List.not_mem_nil, or_false] at member
    subst member
    decide
  | function ident nlocals =>
    simp only [Item.lexemes, List.mem_cons, Lexeme.keyword.injEq, reduceCtorEq, List.not_mem_nil, or_false] at member
    subst member
    decide
  | call ident nargs =>
    simp only [Item.lexemes, List.mem_cons, Lexeme.keyword.injEq, reduceCtorEq, List.not_mem_nil, or_false] at member
    subst member
    decide

theorem Item.names_carried {item : Item} {ident : Ident} (member : Lexeme.name ident ∈ item.lexemes) :
    item.name = some ident := by
  cases item <;> simp_all [Item.lexemes, Item.name]

theorem Item.spells {cfg : Config} {item : Item} (names : ∀ ident ∈ item.name, Writable cfg ident) :
    ∀ lexeme ∈ item.lexemes, Spells cfg.scanBlockSize lexeme.text lexeme := by
  intro lexeme member
  cases lexeme with
  | keyword t => exact keywordText_spells _ (Item.keywords_known member)
  | num value => exact spells_num cfg.maxTokenLen_le value
  | name ident => exact (names ident (Item.names_carried member)).spells

section lines

variable {size : Nat} {lexemes : List Lexeme} (spells : ∀ lexeme ∈ lexemes, Spells size lexeme.text lexeme)

include spells

theorem lineText_reading {text : List Byte} {rest : List Lexeme} (later : Reading size text rest) :
    Reading size (lineText lexemes ++ text) (lexemes ++ rest) := by
  induction lexemes with
  | nil => exact .blank newline_space later
  | cons lexeme more ih =>
    obtain ⟨first, others⟩ := List.forall_mem_cons.mp spells
    cases more with
    | nil =>
      rw [lineText, List.append_assoc]
      exact first.reading newline_space later
    | cons next more =>
      rw [lineText, List.append_assoc]
      exact first.reading (show isspace 32 = true by decide) (ih others)

theorem lineText_lines : ∃ body, lineText lexemes = body ++ [newline] ∧ newline ∉ body := by
  induction lexemes with
  | nil => exact ⟨[], rfl, List.not_mem_nil⟩
  | cons lexeme more ih =>
    obtain ⟨first, others⟩ := List.forall_mem_cons.mp spells
    -- The words of a line are keywords, numbers and names.
    have word : newline ∉ lexeme.text := by
      rcases first.whole with known | plain
      · exact IsWord.newline_not_mem (.inl known)
      · exact plain.isWord.newline_not_mem
    cases more with
    | nil => exact ⟨lexeme.text, rfl, word⟩
    | cons next more =>
      obtain ⟨body, rest, line⟩ := ih others
      refine ⟨lexeme.text ++ 32 :: body, by rw [lineText, rest, List.append_assoc]; rfl, ?_⟩
      rw [List.mem_append, List.mem_cons]
      exact not_or.mpr ⟨word, not_or.mpr ⟨by decide, line⟩⟩

omit spells in
theorem Spells.at_ {word text : List Byte} {lexeme : Lexeme} (spells : Spells size word lexeme) {c : Byte}
    (space : isspace c = true) : WordAt word (c :: text) :=
  spells.whole.imp_right fun plain => ⟨plain, c, text, rfl, space⟩

end lines

section passages

variable {size : Nat} {cur : Pos} {text : List Byte} {views : List View} {lost : Prop}

theorem Passage.start (passage : Passage size false cur text views lost) :
    text = [] ∧ views = [] ∨
      (∃ c rest, text = c :: rest ∧ isspace c = true ∧ Passage size false (advance cur [c]) rest views lost) ∨
      (∃ word rest later, text = word ++ rest ∧ views = { lexeme := wordLexeme word, pos := cur } :: later ∧
        WordAt word rest ∧ Passage size false (advance cur word) rest later lost) ∨ ascii "//" <+: text := by
  cases passage with
  | done => exact .inl ⟨rfl, rfl⟩
  | blank space later => exact .inr (.inl ⟨_, _, rfl, space, later⟩)
  | word here fits later => exact .inr (.inr (.inl ⟨_, _, _, rfl, rfl, here, later⟩))
  | comment blanks later => exact .inr (.inr (.inr (List.prefix_append _ _)))

theorem Passage.of_blank {c : Byte} (space : isspace c = true) (passage : Passage size false cur (c :: text) views lost) :
    Passage size false (advance cur [c]) text views lost := by
  rcases passage.start with ⟨same, -⟩ | ⟨c', rest, same, -, later⟩ | ⟨word, rest, later, same, -, here, -⟩ | slashes
  · cases same
  · obtain ⟨rfl, rfl⟩ := List.cons.inj same
    exact later
  -- A word has no blanks in it.
  · have first : c ∈ word := by
      cases word with
      | nil => exact absurd rfl here.isWord.ne_nil
      | cons b word => exact (List.cons.inj same).1 ▸ List.mem_cons_self
    rw [here.isWord.blankless c first] at space
    cases space
  · obtain ⟨rfl, -⟩ := List.cons_prefix_cons.mp slashes
    cases space

theorem Passage.of_word {word : List Byte} (here : WordAt word text)
    (passage : Passage size false cur (word ++ text) views lost) :
    ∃ later, views = { lexeme := wordLexeme word, pos := cur } :: later ∧
      Passage size false (advance cur word) text later lost := by
  rcases passage.start with ⟨same, -⟩ | ⟨c, rest, same, space, -⟩ | ⟨word', rest, later, same, rfl, here', passage'⟩ |
    slashes
  · exact absurd (List.append_eq_nil_iff.mp same).1 here.isWord.ne_nil
  · cases word with
    | nil => exact absurd rfl here.isWord.ne_nil
    | cons b word =>
      obtain ⟨rfl, -⟩ := List.cons.inj same
      rw [here.isWord.blankless b List.mem_cons_self] at space
      cases space
  · obtain ⟨rfl, rfl⟩ := here.unique here' same
    exact ⟨later, rfl, passage'⟩
  · cases word with
    | nil => exact absurd rfl here.isWord.ne_nil
    | cons b word =>
      obtain ⟨rfl, -⟩ := List.cons_prefix_cons.mp slashes
      exact absurd rfl (here.isWord.no_slash 47 List.mem_cons_self)

theorem lineText_passage {lexemes : List Lexeme} (spells : ∀ lexeme ∈ lexemes, Spells size lexeme.text lexeme)
    (passage : Passage size false cur (lineText lexemes ++ text) views lost) :
    ∃ front later, views = front ++ later ∧ front.map View.lexeme = lexemes ∧
      (∀ first ∈ front.head?, first.pos = cur) ∧
      Passage size false (advance cur (lineText lexemes)) text later lost := by
  induction lexemes generalizing cur views with
  | nil => exact ⟨[], views, rfl, rfl, by simp, passage.of_blank newline_space⟩
  | cons lexeme more ih =>
    obtain ⟨first, others⟩ := List.forall_mem_cons.mp spells
    cases more with
    | nil =>
      rw [lineText, List.append_assoc] at passage
      obtain ⟨later, rfl, rest⟩ := passage.of_word (first.at_ newline_space)
      refine ⟨[_], later, rfl, by simp [first.lexeme], by simp, ?_⟩
      rw [lineText, advance_append]
      exact rest.of_blank newline_space
    | cons next more =>
      have space : isspace 32 = true := by decide
      rw [lineText, List.append_assoc] at passage
      obtain ⟨later, rfl, rest⟩ := passage.of_word (first.at_ space)
      obtain ⟨front, later, rfl, lexemes, -, passed⟩ := ih others (rest.of_blank space)
      refine ⟨_ :: front, later, rfl, by simp [first.lexeme, lexemes], by simp, ?_⟩
      rwa [lineText, advance_append, advance_cons]

end passages

end Hvme
