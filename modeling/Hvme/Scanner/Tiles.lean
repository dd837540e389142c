import Hvme.Scanner.Reading

set_option autoImplicit false

namespace Hvme

def linesIn (front : List Byte) : Nat := front.count newline

def columnOf (front : List Byte) : Nat := (front.reverse.takeWhile (· ≠ newline)).length

/-- Where `front` ends, as the counters of the scanner hold it. -/
def posAt (front : List Byte) : Pos where
  ln := UInt32.ofNat (linesIn front)
  cl := UInt32.ofNat (columnOf front)
  filename := none

structure Pos.TrueAt (pos : Pos) (front : List Byte) : Prop where
  ln : pos.ln.toNat = linesIn front
  cl : pos.cl.toNat = columnOf front

def Counted (front : List Byte) : Prop := linesIn front < 2 ^ 32 ∧ columnOf front < 2 ^ 32

theorem Pos.TrueAt.counted {pos : Pos} {front : List Byte} (here : pos.TrueAt front) : Counted front :=
  ⟨here.ln ▸ pos.ln.toNat_lt, here.cl ▸ pos.cl.toNat_lt⟩

theorem Counted.trueAt {front : List Byte} (counted : Counted front) : (posAt front).TrueAt front :=
  ⟨UInt32.toNat_ofNat_of_lt' counted.1, UInt32.toNat_ofNat_of_lt' counted.2⟩

theorem advance_posAt_one (front : List Byte) (c : Byte) : advance (posAt front) [c] = posAt (front ++ [c]) := by
  by_cases ends : c = newline
  · subst ends
    simp [advance, posAt, linesIn, columnOf, incl, UInt32.ofNat_add]
  · simp [advance, posAt, linesIn, columnOf, inc, ends, UInt32.ofNat_add]

theorem advance_posAt (front bytes : List Byte) : advance (posAt front) bytes = posAt (front ++ bytes) := by
  induction bytes generalizing front with
  | nil => simp
  | cons c bytes ih =>
    rw [advance_cons, advance_posAt_one, ih, List.append_assoc]
    rfl

/-- The byte of `content` behind `front` is in a comment: slashes stand before it on its line, or
it is the first or the second one of them. -/
def InComment (content front : List Byte) : Prop :=
  ∃ before_ line after, content = front ++ after ∧ front = before_ ++ line ∧ newline ∉ line ∧
    ascii "//" <+: line ++ after

/-- Behind `front`, `word` is read, in no comment. A newline follows the content. -/
structure StandsAt (content front word : List Byte) : Prop where
  outside : ¬InComment content front
  here : ∃ rest, content = front ++ (word ++ rest) ∧ WordAt word (rest ++ [newline])

/-- From the end of `front` on, `content` consists of blanks, of bytes of comments and of the
lexemes of `views`, in this order and at their true positions. -/
inductive Tiles (content : List Byte) : List Byte → List View → Prop
  | done : Tiles content content []
  | blank {front : List Byte} {views : List View} (c : Byte) (space : isspace c = true)
      (later : Tiles content (front ++ [c]) views) : Tiles content front views
  | comment {front : List Byte} {views : List View} (c : Byte) (inside : InComment content front)
      (later : Tiles content (front ++ [c]) views) : Tiles content front views
  | lexeme {front : List Byte} {views : List View} (word : List Byte) (pos : Pos)
      (stands : StandsAt content front word) (true_ : pos.TrueAt front)
      (later : Tiles content (front ++ word) views) :
      Tiles content front ({ lexeme := wordLexeme word, pos := pos } :: views)

/-- `content` is read up to the end of `front`: blank by blank, byte by byte in a comment, and
word by word. -/
inductive ReadsTo (content : List Byte) : List Byte → Prop
  | start : ReadsTo content []
  | blank {front : List Byte} {c : Byte} (before_ : ReadsTo content front) (here : front ++ [c] <+: content)
      (space : isspace c = true) : ReadsTo content (front ++ [c])
  | comment {front : List Byte} {c : Byte} (before_ : ReadsTo content front) (here : front ++ [c] <+: content)
      (inside : InComment content front) : ReadsTo content (front ++ [c])
  | word {front word : List Byte} (before_ : ReadsTo content front) (stands : StandsAt content front word) :
      ReadsTo content (front ++ word)

/-- Where a word is read, fewer than `2 ^ 32` newlines and fewer than `2 ^ 32` bytes of its line
are before it. -/
def WordsCounted (content : List Byte) : Prop :=
  ∀ front word, ReadsTo content front → StandsAt content front word → Counted front

theorem StandsAt.word_at {content front word : List Byte} (stands : StandsAt content front word) :
    ∃ rest, content = front ++ (word ++ rest) ∧ IsWord word := by
  obtain ⟨rest, whole, here⟩ := stands.here
  exact ⟨rest, whole, here.isWord⟩

theorem StandsAt.ne_nil {content front word : List Byte} (stands : StandsAt content front word) : word ≠ [] := by
  obtain ⟨_, -, isWord⟩ := stands.word_at
  exact isWord.ne_nil

theorem StandsAt.prefix_ {content front word : List Byte} (stands : StandsAt content front word) :
    front ++ word <+: content := by
  obtain ⟨rest, rfl, -⟩ := stands.word_at
  rw [← List.append_assoc]
  exact List.prefix_append _ _

theorem StandsAt.unique {content front word word' : List Byte} (stands : StandsAt content front word)
    (stands' : StandsAt content front word') : word = word' := by
  obtain ⟨rest, whole, here⟩ := stands.here
  obtain ⟨rest', whole', here'⟩ := stands'.here
  have same := List.append_cancel_left (whole.symm.trans whole')
  refine (here.unique here' ?_).1
  rw [← List.append_assoc, same, List.append_assoc]

theorem StandsAt.not_blank {content front word after : List Byte} {c : Byte} (stands : StandsAt content front word)
    (whole : content = front ++ c :: after) : isspace c = false := by
  obtain ⟨rest, same, isWord⟩ := stands.word_at
  rw [whole] at same
  obtain same := List.append_cancel_left same
  cases word with
  | nil => exact absurd rfl isWord.ne_nil
  | cons b word =>
    obtain ⟨rfl, -⟩ := List.cons.inj same
    exact isWord.blankless c List.mem_cons_self

theorem InComment.opener {content front after : List Byte} (whole : content = front ++ after)
    (slashes : ascii "//" <+: after) : InComment content front :=
  ⟨front, [], after, whole, (List.append_nil front).symm, List.not_mem_nil, slashes⟩

theorem InComment.next {content front after : List Byte} {c : Byte} (inside : InComment content front)
    (other : c ≠ newline) (whole : content = front ++ c :: after) : InComment content (front ++ [c]) := by
  obtain ⟨before_, line, after', whole', rfl, clear, slashes⟩ := inside
  rw [whole] at whole'
  obtain rfl := List.append_cancel_left whole'
  refine ⟨before_, line ++ [c], after, by simp [whole], by simp, ?_, by simpa using slashes⟩
  simp [clear, Ne.symm other]

def LineClear (front : List Byte) : Prop :=
  ∀ before_ line, front = before_ ++ line → newline ∉ line → ¬ascii "//" <+: line

theorem LineClear.nil : LineClear [] := by
  intro before_ line whole _ slashes
  obtain ⟨-, rfl⟩ := List.append_eq_nil_iff.mp whole.symm
  cases slashes.length_le

theorem LineClear.newline (front : List Byte) : LineClear (front ++ [newline]) := by
  intro before_ line whole clear slashes
  have last := congrArg List.getLast? whole
  cases line with
  | nil => cases slashes.length_le
  | cons b line =>
    rw [List.getLast?_concat, List.getLast?_append_of_ne_nil _ (List.cons_ne_nil b line)] at last
    exact clear (List.mem_of_getLast? last.symm)

theorem slashes_append {line gap : List Byte} (slashes : ascii "//" <+: line ++ gap)
    (plain : ∀ b ∈ gap.head?, b ≠ 47) : ascii "//" <+: line := by
  match line, gap, slashes with
  | [], c :: gap, slashes =>
    exact absurd (List.cons_prefix_cons.mp slashes).1.symm (plain c rfl)
  | [b], c :: gap, slashes =>
    have second := (List.cons_prefix_cons.mp slashes).2
    exact absurd (List.cons_prefix_cons.mp second).1.symm (plain c rfl)
  | b :: b' :: line, gap, slashes =>
    obtain ⟨rfl, second⟩ := List.cons_prefix_cons.mp slashes
    obtain ⟨rfl, -⟩ := List.cons_prefix_cons.mp second
    exact List.prefix_append _ _

theorem LineClear.append {front gap : List Byte} (clear : LineClear front) (plain : ∀ b ∈ gap, b ≠ 47) :
    LineClear (front ++ gap) := by
  intro before_ line whole short slashes
  rcases List.append_eq_append_iff.mp whole with ⟨more, rfl, rfl⟩ | ⟨more, rfl, rfl⟩
  · -- The slashes would be in `gap`.
    exact plain 47 (List.mem_append_right more (slashes.subset (by decide))) rfl
  · refine clear before_ more rfl (fun member => short (List.mem_append_left gap member)) ?_
    exact slashes_append slashes fun b head => plain b (List.mem_of_head? head)

theorem LineClear.outside {content front after : List Byte} (clear : LineClear front)
    (whole : content = front ++ after) (plain : ∀ b ∈ after.head?, b ≠ 47) : ¬InComment content front := by
  rintro ⟨before_, line, after', whole', rfl, short, slashes⟩
  rw [whole] at whole'
  obtain rfl := List.append_cancel_left whole'
  exact clear before_ line rfl short (slashes_append slashes plain)

theorem LineClear.standsAt {content front word rest : List Byte} (clear : LineClear front)
    (whole : content = front ++ (word ++ rest)) (here : WordAt word rest) : StandsAt content front word := by
  refine ⟨clear.outside whole ?_, rest, whole, here.append [Hvme.newline]⟩
  intro b head
  refine here.isWord.no_slash b (List.mem_of_head? ?_)
  rwa [List.head?_append_of_ne_nil _ here.isWord.ne_nil] at head

theorem space_no_slash {c : Byte} (space : isspace c = true) : c ≠ 47 := by
  rintro rfl
  cases space

theorem takeWhile_clear {gap : List Byte} (rest : List Byte) (clear : newline ∉ gap) :
    (gap ++ rest).takeWhile (· ≠ newline) = gap ++ rest.takeWhile (· ≠ newline) := by
  refine List.takeWhile_append_of_pos fun b member => ?_
  rw [decide_eq_true_iff]
  rintro rfl
  exact clear member

section tiles

variable {content front : List Byte} {views : List View}

theorem Tiles.prefix_ (tiles : Tiles content front views) : front <+: content := by
  induction tiles with
  | done => exact List.prefix_rfl
  | blank _ _ _ ih => exact (List.prefix_append _ _).trans ih
  | comment _ _ _ ih => exact (List.prefix_append _ _).trans ih
  | lexeme _ _ _ _ _ ih => exact (List.prefix_append _ _).trans ih

theorem Tiles.ended (tiles : Tiles content content views) : views = [] := by
  cases tiles with
  | done => rfl
  | blank c _ later => simpa using later.prefix_.length_le
  | comment c _ later => simpa using later.prefix_.length_le
  | lexeme word pos stands true_ later =>
    have longer := later.prefix_.length_le
    have := List.length_pos_iff.mpr stands.ne_nil
    rw [List.length_append] at longer
    omega

theorem Tiles.step {c : Byte} (tiles : Tiles content front views) (next : front ++ [c] <+: content)
    (none_ : ∀ word, ¬StandsAt content front word) : Tiles content (front ++ [c]) views := by
  have same {b : Byte} (later : front ++ [b] <+: content) : front ++ [b] = front ++ [c] := by
    rcases List.prefix_or_prefix_of_prefix later next with inside | inside
    · exact inside.eq_of_length (by simp)
    · exact (inside.eq_of_length (by simp)).symm
  cases tiles with
  | done => simpa using next.length_le
  | blank b _ later => exact same later.prefix_ ▸ later
  | comment b _ later => exact same later.prefix_ ▸ later
  | lexeme word pos stands _ _ => exact absurd stands (none_ word)

theorem Tiles.read {word : List Byte} (tiles : Tiles content front views) (stands : StandsAt content front word) :
    ∃ pos later, views = { lexeme := wordLexeme word, pos := pos } :: later ∧ pos.TrueAt front ∧
      Tiles content (front ++ word) later := by
  have here (b : Byte) (later : front ++ [b] <+: content) : isspace b = false := by
    obtain ⟨rest, whole⟩ := later
    exact stands.not_blank (by rw [← whole, List.append_assoc]; rfl)
  cases tiles with
  | done =>
    have longer := stands.prefix_.length_le
    have := List.length_pos_iff.mpr stands.ne_nil
    rw [List.length_append] at longer
    omega
  | blank b space later =>
    rw [here b later.prefix_] at space
    cases space
  | comment b inside _ => exact absurd inside stands.outside
  | lexeme word' pos stands' true_ later =>
    obtain rfl := stands.unique stands'
    exact ⟨pos, _, rfl, true_, later⟩

theorem Tiles.blank_step {c : Byte} {after : List Byte} (tiles : Tiles content front views)
    (space : isspace c = true) (whole : content = front ++ c :: after) : Tiles content (front ++ [c]) views := by
  refine tiles.step ⟨after, by simp [whole]⟩ fun word stands => ?_
  rw [stands.not_blank whole] at space
  cases space

theorem Tiles.blanks_step {gap after : List Byte} (tiles : Tiles content front views)
    (blanks : ∀ b ∈ gap, isspace b = true) (whole : content = front ++ (gap ++ after)) :
    Tiles content (front ++ gap) views := by
  induction gap generalizing front with
  | nil => rwa [List.append_nil]
  | cons c gap ih =>
    rw [List.forall_mem_cons] at blanks
    have later := ih (tiles.blank_step blanks.1 whole) blanks.2 (by simp [whole])
    rwa [List.append_assoc] at later

theorem Tiles.line {after : List Byte} (tiles : Tiles content front views) (whole : content = front ++ after) :
    ∃ later, later.length ≤ views.length ∧ Tiles content (front ++ after.takeWhile (· ≠ newline)) later := by
  have byte {front after : List Byte} {views : List View} {c : Byte} (later : Tiles content (front ++ [c]) views)
      (whole : content = front ++ after) : ∃ rest, after = c :: rest := by
    obtain ⟨rest, same⟩ := later.prefix_
    rw [whole, List.append_assoc] at same
    exact ⟨rest, (List.append_cancel_left same).symm⟩
  have beyond {front after : List Byte} {views : List View} {c : Byte} (here : Tiles content front views)
      (later : Tiles content (front ++ [c]) views) (whole : content = front ++ after)
      (ih : ∀ {rest : List Byte}, content = front ++ [c] ++ rest → ∃ later, later.length ≤ views.length ∧
        Tiles content (front ++ [c] ++ rest.takeWhile (· ≠ newline)) later) :
      ∃ later, later.length ≤ views.length ∧ Tiles content (front ++ after.takeWhile (· ≠ newline)) later := by
    obtain ⟨rest, rfl⟩ := byte later whole
    by_cases ends : c = newline
    · subst ends
      exact ⟨views, le_rfl, by simpa using here⟩
    · obtain ⟨views', shorter, tiles'⟩ := ih (by simpa using whole)
      refine ⟨views', shorter, ?_⟩
      rw [takeWhile_line ends]
      simpa using tiles'
  induction tiles generalizing after with
  | done =>
    obtain rfl := List.append_right_eq_self.mp whole.symm
    exact ⟨[], le_rfl, by simpa using Tiles.done⟩
  | blank c space later ih => exact beyond (.blank c space later) later whole ih
  | comment c inside later ih => exact beyond (.comment c inside later) later whole ih
  | @lexeme front views word pos stands true_ later ih =>
    obtain ⟨rest, same, isWord⟩ := stands.word_at
    rw [whole] at same
    obtain rfl := List.append_cancel_left same
    obtain ⟨views', shorter, tiles'⟩ := ih (by simpa using whole)
    refine ⟨views', shorter.trans (Nat.le_succ _), ?_⟩
    rwa [takeWhile_clear _ isWord.newline_not_mem, ← List.append_assoc]

end tiles

section newline

variable {content front word : List Byte}

theorem InComment.append_newline (inside : InComment content front) : InComment (content ++ [newline]) front := by
  obtain ⟨before_, line, after, rfl, same, clear, slashes⟩ := inside
  refine ⟨before_, line, after ++ [newline], List.append_assoc _ _ _, same, clear, ?_⟩
  rw [← List.append_assoc]
  exact slashes.trans (List.prefix_append _ _)

theorem InComment.of_newline (inside : InComment (content ++ [newline]) front) (here : front <+: content) :
    InComment content front := by
  obtain ⟨before_, line, after, whole, same, clear, slashes⟩ := inside
  obtain ⟨rest, rfl⟩ := here
  rw [List.append_assoc] at whole
  obtain rfl := List.append_cancel_left whole
  rw [← List.append_assoc] at slashes
  refine ⟨before_, line, rest, rfl, same, clear, slashes_append slashes ?_⟩
  simp [newline]

theorem IsWord.before_newline {rest : List Byte} (isWord : IsWord word)
    (whole : content ++ [newline] = front ++ (word ++ rest)) :
    ∃ rest', rest = rest' ++ [newline] ∧ content = front ++ (word ++ rest') := by
  rcases List.eq_nil_or_concat rest with rfl | ⟨rest', b, rfl⟩
  · rw [List.append_nil] at whole
    have last := congrArg List.getLast? whole
    rw [List.getLast?_concat, List.getLast?_append_of_ne_nil _ isWord.ne_nil] at last
    exact absurd (List.mem_of_getLast? last.symm) isWord.newline_not_mem
  · rw [List.concat_eq_append, ← List.append_assoc word, ← List.append_assoc front] at whole
    obtain ⟨same, last⟩ := List.append_inj' whole rfl
    cases last
    exact ⟨rest', List.concat_eq_append, same⟩

theorem standsAt_newline : StandsAt (content ++ [newline]) front word ↔ StandsAt content front word := by
  constructor
  next =>
    rintro ⟨outside, rest, whole, here⟩
    obtain ⟨rest', rfl, whole'⟩ := here.isWord.before_newline whole
    refine ⟨fun inside => outside inside.append_newline, rest', whole', ?_⟩
    rw [List.append_assoc] at here
    exact here.delimited newline_space
  next =>
    rintro ⟨outside, rest, rfl, here⟩
    refine ⟨fun inside => outside (inside.of_newline (List.prefix_append _ _)), rest ++ [newline], ?_, ?_⟩
    · simp
    · exact here.append [newline]

theorem ReadsTo.of_newline (reads : ReadsTo (content ++ [newline]) front) (here : front <+: content) :
    ReadsTo content front := by
  induction reads with
  | start => exact .start
  | @blank front c _ _ space ih => exact .blank (ih ((List.prefix_append _ _).trans here)) here space
  | @comment front c _ _ inside ih =>
    have before_ := (List.prefix_append _ _).trans here
    exact .comment (ih before_) here (inside.of_newline before_)
  | @word front word _ stands ih => exact .word (ih ((List.prefix_append _ _).trans here)) (standsAt_newline.mp stands)

theorem WordsCounted.append_newline (counted : WordsCounted content) : WordsCounted (content ++ [newline]) := by
  intro front word reads stands
  have stands' := standsAt_newline.mp stands
  exact counted front word (reads.of_newline ((List.prefix_append _ _).trans stands'.prefix_)) stands'

theorem Tiles.append_newline {views : List View} (tiles : Tiles content front views) :
    Tiles (content ++ [newline]) front views := by
  induction tiles with
  | done => exact .blank newline newline_space .done
  | blank c space _ ih => exact .blank c space ih
  | comment c inside _ ih => exact .comment c inside.append_newline ih
  | lexeme word pos stands true_ _ ih => exact .lexeme word pos (standsAt_newline.mpr stands) true_ ih

theorem Tiles.of_newline {views : List View} (tiles : Tiles (content ++ [newline]) front views)
    (here : front <+: content) : Tiles content front views := by
  have last {front : List Byte} {views : List View} {c : Byte} (later : Tiles (content ++ [newline]) (front ++ [c]) views)
      (ih : front ++ [c] <+: content → Tiles content (front ++ [c]) views) :
      front = content ∧ views = [] ∨ Tiles content (front ++ [c]) views := by
    rcases List.prefix_concat_iff.mp later.prefix_ with ended | inside
    · rw [ended] at later
      exact .inl ⟨(List.append_inj' ended rfl).1, later.ended⟩
    · exact .inr (ih inside)
  induction tiles with
  | done => simpa using here.length_le
  | blank c space later ih =>
    rcases last later ih with ⟨rfl, rfl⟩ | tiles
    · exact .done
    · exact .blank c space tiles
  | comment c inside later ih =>
    rcases last later ih with ⟨rfl, rfl⟩ | tiles
    · exact .done
    · exact .comment c (inside.of_newline here) tiles
  | lexeme word pos stands true_ _ ih =>
    have stands' := standsAt_newline.mp stands
    exact .lexeme word pos stands' true_ (ih stands'.prefix_)

end newline

section counted

variable {content front : List Byte} {views : List View}

theorem Tiles.at_ (tiles : Tiles content [] views) (reads : ReadsTo content front) :
    ∃ later, Tiles content front later := by
  induction reads with
  | start => exact ⟨views, tiles⟩
  | @blank front c _ here space ih =>
    obtain ⟨later, tiles'⟩ := ih
    obtain ⟨after, whole⟩ := here
    exact ⟨later, tiles'.blank_step space (by rw [← whole, List.append_assoc]; rfl)⟩
  | comment _ here inside ih =>
    obtain ⟨later, tiles'⟩ := ih
    exact ⟨later, tiles'.step here fun word stands => stands.outside inside⟩
  | word _ stands ih =>
    obtain ⟨later, tiles'⟩ := ih
    obtain ⟨_, rest, -, -, tiles''⟩ := tiles'.read stands
    exact ⟨rest, tiles''⟩

theorem Tiles.wordsCounted (tiles : Tiles content [] views) : WordsCounted content := by
  intro front word reads stands
  obtain ⟨later, tiles'⟩ := tiles.at_ reads
  obtain ⟨_, _, -, true_, -⟩ := tiles'.read stands
  exact true_.counted

theorem ReadsTo.blanks {gap : List Byte} (reads : ReadsTo content front) (here : front ++ gap <+: content)
    (blanks : ∀ b ∈ gap, isspace b = true) : ReadsTo content (front ++ gap) := by
  induction gap generalizing front with
  | nil => rwa [List.append_nil]
  | cons c gap ih =>
    rw [List.forall_mem_cons] at blanks
    have here' : front ++ [c] ++ gap <+: content := by rwa [List.append_assoc]
    have later := ih (.blank reads ((List.prefix_append _ _).trans here') blanks.1) here' blanks.2
    rwa [List.append_assoc] at later

theorem Tiles.blanks {gap : List Byte} (blanks : ∀ b ∈ gap, isspace b = true)
    (later : Tiles content (front ++ gap) views) : Tiles content front views := by
  induction gap generalizing front with
  | nil => rwa [List.append_nil] at later
  | cons c gap ih =>
    rw [List.forall_mem_cons] at blanks
    exact .blank c blanks.1 (ih blanks.2 (by rwa [List.append_assoc]))

theorem InComment.append {gap after : List Byte} (inside : InComment content front)
    (line : newline ∉ gap) (whole : content = front ++ (gap ++ after)) : InComment content (front ++ gap) := by
  induction gap generalizing front with
  | nil => rwa [List.append_nil]
  | cons c gap ih =>
    rw [List.mem_cons, not_or] at line
    have next := inside.next (Ne.symm line.1) whole
    have later := ih next line.2 (by simpa using whole)
    rwa [List.append_assoc] at later

theorem InComment.slashes {gap bytes : List Byte} (whole : content = front ++ (ascii "//" ++ gap) ++ bytes) :
    InComment content front ∧ InComment content (front ++ [47]) := by
  have whole' : content = front ++ (ascii "//" ++ (gap ++ bytes)) := by simpa using whole
  have first : InComment content front := .opener whole' (List.prefix_append _ _)
  exact ⟨first, first.next (by decide) whole'⟩

theorem ReadsTo.opened {gap bytes : List Byte} (reads : ReadsTo content front)
    (blanks : ∀ b ∈ gap, isspace b = true) (whole : content = front ++ (ascii "//" ++ gap) ++ bytes) :
    ReadsTo content (front ++ (ascii "//" ++ gap)) := by
  obtain ⟨first, second⟩ := InComment.slashes whole
  have opened : front ++ [47] ++ [47] ++ gap = front ++ (ascii "//" ++ gap) := by
    simp [ascii]
  have here : front ++ [47] ++ [47] ++ gap <+: content := opened ▸ ⟨bytes, whole.symm⟩
  have slashes : front ++ [47] ++ [47] <+: content := (List.prefix_append _ _).trans here
  rw [← opened]
  exact .blanks (.comment (.comment reads ((List.prefix_append _ _).trans slashes) first) slashes second) here blanks

theorem Tiles.opened {gap bytes : List Byte} (blanks : ∀ b ∈ gap, isspace b = true)
    (whole : content = front ++ (ascii "//" ++ gap) ++ bytes)
    (later : Tiles content (front ++ (ascii "//" ++ gap)) views) : Tiles content front views := by
  obtain ⟨first, second⟩ := InComment.slashes whole
  have opened : front ++ [47] ++ [47] ++ gap = front ++ (ascii "//" ++ gap) := by
    simp [ascii]
  rw [← opened] at later
  exact .comment 47 first (.comment 47 second (.blanks blanks later))

theorem Passage.tiles {size : Nat} {inside : Bool} {cur : Pos} {bytes : List Byte} {lost : Prop}
    (passage : Passage size inside cur bytes views lost) (kept : ¬lost) (counted : WordsCounted content)
    (whole : content = front ++ bytes) (start : cur = posAt front) (reads : ReadsTo content front)
    (clear : inside = false → LineClear front)
    (skipped : inside = true → InComment content front ∨ CommentLine bytes) : Tiles content front views := by
  induction passage generalizing front with
  | done _ _ =>
    rw [List.append_nil] at whole
    exact whole ▸ .done
  | @blank cur c bytes _ _ space later ih =>
    have whole' : content = front ++ [c] ++ bytes := by simpa using whole
    refine .blank c space (ih kept whole' ?_ ?_ (fun _ => (clear rfl).append ?_) (by simp))
    · rw [start, advance_posAt]
    · exact .blank reads ⟨bytes, whole'.symm⟩ space
    · simpa using space_no_slash space
  | @word cur word bytes _ _ here fits later ih =>
    have stands := (clear rfl).standsAt whole here
    rw [start]
    refine .lexeme word _ stands (counted front word reads stands).trueAt ?_
    refine ih kept (by simpa using whole) ?_ (.word reads stands) (fun _ => (clear rfl).append here.isWord.no_slash)
      (by simp)
    rw [start, advance_posAt]
  | @comment cur gap bytes _ _ blanks later ih =>
    rw [not_or, not_and_not_right] at kept
    have whole' : content = front ++ (ascii "//" ++ gap) ++ bytes := by simpa using whole
    refine .opened blanks whole' (ih kept.1 whole' (by rw [start, advance_posAt]) (reads.opened blanks whole')
      (by simp) fun _ => ?_)
    by_cases line : newline ∈ gap
    · exact .inr (kept.2 line)
    · have clear : newline ∉ ascii "//" ++ gap := by
        rw [List.mem_append, not_or]
        exact ⟨by decide, line⟩
      exact .inl ((InComment.slashes whole').1.append clear (by rw [whole', List.append_assoc]))
  | @text cur c bytes _ _ other later ih =>
    have start' : advance cur [c] = posAt (front ++ [c]) := by
      rw [start, advance_posAt]
    have whole' : content = front ++ [c] ++ bytes := by simpa using whole
    have here : front ++ [c] <+: content := ⟨bytes, whole'.symm⟩
    -- Before the comment that makes up the rest of the line there may be blanks.
    by_cases blank : CommentLine (c :: bytes) ∧ isspace c = true
    · refine .blank c blank.2 (ih kept whole' start' (.blank reads here blank.2) (by simp) fun _ => .inr ?_)
      exact (commentLine_blank other blank.2).mp blank.1
    · have inside : InComment content front := by
        rcases skipped rfl with inside | line
        · exact inside
        · exact .opener whole ((commentLine_nonblank (by simpa [line] using blank)).mp line)
      exact .comment c inside (ih kept whole' start' (.comment reads here inside) (by simp) fun _ =>
        .inl (inside.next other whole))
  | @lineEnd cur bytes _ _ later ih =>
    have whole' : content = front ++ [newline] ++ bytes := by simpa using whole
    refine .blank newline newline_space (ih kept whole' ?_ ?_ (fun _ => .newline front) (by simp))
    · rw [start, advance_posAt]
    · exact .blank reads ⟨bytes, whole'.symm⟩ newline_space

end counted

theorem not_inComment {content before_ blanks after : List Byte}
    (whole : content = before_ ++ newline :: blanks ++ after) (blank : ∀ b ∈ blanks, isspace b = true)
    (plain : ¬ascii "//" <+: after) : ¬InComment content (before_ ++ newline :: blanks) := by
  rintro ⟨front, line, after', whole', same, clear, slashes⟩
  rw [whole] at whole'
  obtain rfl := List.append_cancel_left whole'
  have ends : line <:+ before_ ++ newline :: blanks := same ▸ List.suffix_append _ _
  have inside : line <:+ newline :: blanks := by
    rcases List.suffix_or_suffix_of_suffix ends (List.suffix_append before_ _) with shorter | ⟨more, rfl⟩
    · exact shorter
    · exact absurd (by simp) clear
  rcases List.suffix_cons_iff.mp inside with rfl | inside
  · exact clear List.mem_cons_self
  · cases line with
    | nil => exact plain slashes
    | cons b line =>
      obtain ⟨rfl, -⟩ := List.cons_prefix_cons.mp slashes
      exact absurd (blank _ (inside.subset List.mem_cons_self)) (by decide)

theorem not_commentLine {bytes : List Byte} (more : ¬CommentLine bytes) :
    ∃ gap c after, bytes = gap ++ c :: after ∧ (∀ b ∈ gap, isspace b = true) ∧ isspace c = false ∧
      ¬ascii "//" <+: c :: after ∧ newline ∉ gap := by
  induction bytes with
  | nil => exact absurd commentLine_nil more
  | cons c bytes ih =>
    by_cases ends : c = newline
    · exact absurd (ends ▸ commentLine_ended bytes) more
    · cases space : isspace c with
      | true =>
        rw [commentLine_blank ends space] at more
        obtain ⟨gap, c', after, rfl, blanks, nonblank, plain, line⟩ := ih more
        refine ⟨c :: gap, c', after, rfl, List.forall_mem_cons.mpr ⟨space, blanks⟩, nonblank, plain, ?_⟩
        simp [Ne.symm ends, line]
      | false =>
        rw [commentLine_nonblank space] at more
        exact ⟨[], c, bytes, rfl, by simp, space, more, List.not_mem_nil⟩

section lost

variable {content : List Byte} {views : List View}

theorem Tiles.more {before_ gap bytes : List Byte} (tiles : Tiles content (before_ ++ newline :: gap) views)
    (blanks : ∀ b ∈ gap, isspace b = true) (more : ¬CommentLine bytes)
    (whole : content = before_ ++ newline :: gap ++ bytes) :
    ∃ later, later.length < views.length ∧
      Tiles content (before_ ++ newline :: gap ++ bytes.takeWhile (· ≠ newline)) later := by
  obtain ⟨gap', c, after, rfl, blanks', nonblank, plain, clear⟩ := not_commentLine more
  have start := tiles.blanks_step blanks' whole
  have place : before_ ++ newline :: gap ++ gap' = before_ ++ newline :: (gap ++ gap') := by simp
  have rest : content = before_ ++ newline :: (gap ++ gap') ++ c :: after := by simpa using whole
  have outside : ¬InComment content (before_ ++ newline :: (gap ++ gap')) := by
    refine not_inComment rest (fun b member => ?_) plain
    exact (List.mem_append.mp member).elim (blanks b) (blanks' b)
  rw [place] at start
  cases start with
  | done =>
    have ended := congrArg List.length rest
    simp at ended
  | blank c' space later =>
    have next := later.prefix_
    rw [rest, List.prefix_append_right_inj] at next
    obtain ⟨rfl, -⟩ := List.cons_prefix_cons.mp next
    rw [nonblank] at space
    cases space
  | comment _ inside _ => exact absurd inside outside
  | lexeme word pos stands true_ later =>
    obtain ⟨rest', same, isWord⟩ := stands.word_at
    rw [rest] at same
    have same := List.append_cancel_left same
    have whole'' : content = before_ ++ newline :: (gap ++ gap') ++ word ++ rest' := by
      rw [rest, same]
      exact (List.append_assoc _ _ _).symm
    obtain ⟨views', shorter, beyond⟩ := later.line whole''
    refine ⟨views', Nat.lt_succ_of_le shorter, ?_⟩
    rwa [takeWhile_clear _ clear, ← List.append_assoc, place, same, takeWhile_clear _ isWord.newline_not_mem,
      ← List.append_assoc]

theorem Tiles.comment_line {front gap bytes : List Byte} (tiles : Tiles content front views)
    (blanks : ∀ b ∈ gap, isspace b = true) (whole : content = front ++ (ascii "//" ++ (gap ++ bytes))) :
    ∃ later, later.length ≤ views.length ∧ (newline ∈ gap ∧ ¬CommentLine bytes → later.length < views.length) ∧
      Tiles content (front ++ (ascii "//" ++ gap) ++ bytes.takeWhile (· ≠ newline)) later := by
  have slashes : newline ∉ ascii "//" := by decide
  by_cases ends : newline ∈ gap
  · obtain ⟨gap₁, gap₂, rfl, clear⟩ := List.eq_append_cons_of_mem ends
    rw [List.forall_mem_append, List.forall_mem_cons] at blanks
    have place : front ++ (ascii "//" ++ (gap₁ ++ newline :: gap₂)) =
        front ++ (ascii "//" ++ gap₁) ++ newline :: gap₂ := by
      simp
    have whole' : content = front ++ (ascii "//" ++ gap₁) ++ newline :: gap₂ ++ bytes := by simpa using whole
    obtain ⟨later, shorter, own⟩ := tiles.line whole
    rw [takeWhile_clear _ slashes, List.append_assoc gap₁, takeWhile_clear _ clear, List.cons_append,
      List.takeWhile_cons_of_neg (by simp), List.append_nil] at own
    have start := own.blanks_step (List.forall_mem_cons.mpr blanks.2) (by rw [whole', List.append_assoc])
    rw [place]
    by_cases more : CommentLine bytes
    · obtain ⟨later', shorter', beyond⟩ := start.line whole'
      exact ⟨later', shorter'.trans shorter, fun lost => absurd more lost.2, beyond⟩
    · obtain ⟨later', fewer, beyond⟩ := start.more blanks.2.2 more whole'
      exact ⟨later', fewer.le.trans shorter, fun _ => fewer.trans_le shorter, beyond⟩
  · obtain ⟨later, shorter, beyond⟩ := tiles.line whole
    rw [takeWhile_clear _ slashes, takeWhile_clear _ ends, ← List.append_assoc, ← List.append_assoc] at beyond
    refine ⟨later, shorter, fun lost => absurd lost.1 ends, ?_⟩
    rwa [← List.append_assoc]

/-- Where a comment takes a line with it, the passage reads fewer words than are tiled. -/
theorem Passage.fewer {size : Nat} {inside : Bool} {cur : Pos} {bytes front : List Byte} {tiled : List View}
    {lost : Prop} (passage : Passage size inside cur bytes views lost) (whole : content = front ++ bytes)
    (clear : inside = false → LineClear front)
    (tiles : Tiles content (front ++ if inside then bytes.takeWhile (· ≠ newline) else []) tiled) :
    views.length ≤ tiled.length ∧ (lost → views.length < tiled.length) := by
  induction passage generalizing front tiled with
  | done _ _ => exact ⟨Nat.zero_le _, False.elim⟩
  | @blank cur c bytes _ _ space later ih =>
    rw [if_neg Bool.false_ne_true, List.append_nil] at tiles
    refine @ih (front ++ [c]) tiled (by simpa using whole) (fun _ => (clear rfl).append ?_) ?_
    · simpa using space_no_slash space
    · simpa using tiles.blank_step space whole
  | @word cur word bytes _ _ here _ later ih =>
    rw [if_neg Bool.false_ne_true, List.append_nil] at tiles
    obtain ⟨pos, tiled', rfl, -, tiles'⟩ := tiles.read ((clear rfl).standsAt whole here)
    obtain ⟨shorter, fewer⟩ := @ih (front ++ word) tiled' (by simpa using whole)
      (fun _ => (clear rfl).append here.isWord.no_slash) (by simpa using tiles')
    exact ⟨Nat.succ_le_succ shorter, fun lost => Nat.succ_lt_succ (fewer lost)⟩
  | @comment cur gap bytes _ _ blanks later ih =>
    rw [if_neg Bool.false_ne_true, List.append_nil] at tiles
    obtain ⟨tiled', shorter', fewer', tiles'⟩ := tiles.comment_line blanks whole
    obtain ⟨shorter, fewer⟩ := @ih (front ++ (ascii "//" ++ gap)) tiled' (by simp [whole]) (by simp) tiles'
    refine ⟨shorter.trans shorter', fun swallowed => ?_⟩
    rcases swallowed with lost | line
    · exact (fewer lost).trans_le shorter'
    · exact shorter.trans_lt (fewer' line)
  | @text cur c bytes _ _ other later ih =>
    refine @ih (front ++ [c]) tiled (by simpa using whole) (by simp) ?_
    rw [if_pos rfl, takeWhile_line other] at tiles
    simpa using tiles
  | @lineEnd cur bytes _ _ later ih =>
    refine @ih (front ++ [newline]) tiled (by simpa using whole) (fun _ => .newline front) ?_
    rw [if_pos rfl, List.takeWhile_cons_of_neg (by simp), List.append_nil] at tiles
    simpa using tiles.blank_step newline_space whole

end lost

/-- The tokens of a scan tile the content if and only if no comment takes a line with it and the
counters hold the true position of every word. -/
theorem tiles_iff {cfg : Config} {fuel : Nat} {sc sc' : Scanner} {filename : Option String} {content : List Byte}
    (fresh : sc.tokens = newTokens filename) (outside : sc.statics.insideComment = false)
    (returns : scan cfg fuel sc (some content) = .ok (.ok, sc')) :
    Tiles content [] sc'.views ↔ CommentsKept cfg sc content ∧ WordsCounted content := by
  obtain ⟨-, out, lost, views, passage, iff⟩ := scan_passage returns
  have none_ : sc.views = [] := by
    rw [Scanner.views, fresh]
    rfl
  have mark : sc.mark = { inside := false, cur := posAt [] } := by
    rw [Scanner.mark, outside, fresh]
    rfl
  rw [mark] at passage
  rw [none_, List.nil_append] at views
  rw [views]
  constructor
  next =>
    intro tiles
    refine ⟨?_, tiles.wordsCounted⟩
    by_contra swallowed
    have fewer := (passage.fewer rfl (fun _ => .nil) tiles.append_newline).2 (iff.mpr swallowed)
    exact absurd fewer (Nat.lt_irrefl _)
  next =>
    rintro ⟨kept, counted⟩
    refine Tiles.of_newline ?_ List.nil_prefix
    exact passage.tiles (fun lost => iff.mp lost kept) counted.append_newline rfl rfl .start (fun _ => .nil) (by simp)

theorem scan_of_views {cfg : Config} {fuel : Nat} {sc : Scanner} {content : List Byte} {views : List View}
    (scanned : (scan cfg fuel sc (some content)).toOption.map (fun result => (result.1, result.2.views)) =
      some (.ok, views)) :
    ∃ sc', scan cfg fuel sc (some content) = .ok (.ok, sc') ∧ sc'.views = views := by
  cases run : scan cfg fuel sc (some content) with
  | error fault => simp [run, Except.toOption] at scanned
  | ok result =>
    obtain ⟨res, sc'⟩ := result
    simp only [run, Except.toOption, Option.map_some, Option.some.injEq, Prod.mk.injEq] at scanned
    obtain ⟨rfl, views⟩ := scanned
    exact ⟨sc', rfl, views⟩

/-- The first block of 24 bytes ends in the comment. -/
theorem tiles_comment :
    let sc : Scanner := { tokens := newTokens none, statics := Statics.init, warnings := [] }
    let content := ascii "push constant 7 // seven\nadd\n"
    ∃ sc', scan .unitTests 2 sc (some content) = .ok (.ok, sc') ∧
      sc'.views = [{ lexeme := .keyword .push, pos := posAt [] },
        { lexeme := .keyword .const, pos := posAt (ascii "push ") },
        { lexeme := .num 7, pos := posAt (ascii "push constant ") },
        { lexeme := .keyword .add, pos := posAt (ascii "push constant 7 // seven\n") }] ∧
      (Tiles content [] sc'.views ↔ CommentsKept .unitTests sc content ∧ WordsCounted content) := by
  intro sc content
  have scanned : (scan .unitTests 2 sc (some content)).toOption.map
      (fun result => (result.1, result.2.views)) =
        some (.ok, [{ lexeme := .keyword .push, pos := posAt [] },
          { lexeme := .keyword .const, pos := posAt (ascii "push ") },
          { lexeme := .num 7, pos := posAt (ascii "push constant ") },
          { lexeme := .keyword .add, pos := posAt (ascii "push constant 7 // seven\n") }]) := by
    decide +kernel
  obtain ⟨sc', run, views⟩ := scan_of_views scanned
  exact ⟨sc', run, views, tiles_iff rfl rfl run⟩

theorem swallowed_line_untiled :
    let sc : Scanner := { tokens := newTokens none, statics := Statics.init, warnings := [] }
    let content := ascii "add //\nsub\n"
    ∃ sc', scan .unitTests 1 sc (some content) = .ok (.ok, sc') ∧ ¬Tiles content [] sc'.views := by
  intro sc content
  have scanned : (scan .unitTests 1 sc (some content)).toOption.map
      (fun result => (result.1, result.2.views)) =
        some (.ok, [{ lexeme := .keyword .add, pos := posAt [] }]) := by
    decide +kernel
  obtain ⟨sc', run, views⟩ := scan_of_views scanned
  refine ⟨sc', run, fun tiles => ?_⟩
  rw [views] at tiles
  -- The only token is read at the front, and none is left for the second line.
  have first := @LineClear.standsAt content [] (ascii "add") (ascii " //\nsub\n") .nil rfl (.inl (by decide))
  obtain ⟨_, later, same, -, start⟩ := tiles.read first
  obtain ⟨-, rfl⟩ := List.cons.inj same
  have whole : content = ascii "add" ++ ascii " //\nsub\n" := rfl
  obtain ⟨left, fewer, line⟩ := start.line whole
  obtain rfl := List.length_eq_zero_iff.mp (Nat.le_zero.mp fewer)
  have ended : content = ascii "add //" ++ newline :: ascii "sub\n" := rfl
  have next : Tiles content (ascii "add //\n") [] := line.blank_step newline_space ended
  have second : StandsAt content (ascii "add //\n") (ascii "sub") := by
    refine ⟨@not_inComment content (ascii "add //") [] (ascii "sub\n") rfl (by simp) (by decide), ?_⟩
    exact ⟨[newline], rfl, .inl (by decide)⟩
  obtain ⟨_, _, none_, -⟩ := next.read second
  cases none_

end Hvme
