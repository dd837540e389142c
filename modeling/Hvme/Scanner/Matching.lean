import Hvme.Scanner.Lexing

set_option autoImplicit false

namespace Hvme

def ScanFn.text : ScanFn → Option String
  | .push => some "push"
  | .pop => some "pop"
  | .argument => some "argument"
  | .local_ => some "local"
  | .static => some "static"
  | .constant => some "constant"
  | .this => some "this"
  | .that => some "that"
  | .pointer => some "pointer"
  | .temp => some "temp"
  | .uint => none
  | .label => some "label"
  | .goto => some "goto"
  | .ifGoto => some "if-goto"
  | .function => some "function"
  | .call => some "call"
  | .return_ => some "return"
  | .add => some "add"
  | .sub => some "sub"
  | .neg => some "neg"
  | .eq => some "eq"
  | .gt => some "gt"
  | .lt => some "lt"
  | .and => some "and"
  | .or => some "or"
  | .not => some "not"
  | .ident => none
  | .comment => some "//"

theorem ScanFn.run_text {fn : ScanFn} {text : String} (fixed : fn.text = some text) :
    fn.run = staticScan text := by
  cases fn <;> cases fixed <;> rfl

theorem ScanFn.text_none {fn : ScanFn} (free : fn.text = none) : fn = .uint ∨ fn = .ident := by
  cases fn <;> simp_all [ScanFn.text]

theorem ScanFn.text_blankless {fn : ScanFn} {text : String} (fixed : fn.text = some text) :
    ∀ b ∈ ascii text, isspace b = false := by
  have blankless : (ascii text).any isspace = false := by
    cases fn <;> cases fixed <;> decide
  intro b member
  exact Bool.eq_false_of_not_eq_true (List.any_eq_false.mp blankless b member)

theorem ScanFn.lexeme_text {fn : ScanFn} {text : String} (fixed : fn.text = some text)
    (rest : List Byte) (found : Match) : fn.lexeme rest found = .keyword fn.token := by
  cases fn <;> first | rfl | cases fixed

def textMatch (text : String) : Match :=
  { nchars := (ascii text).length, uilit := none, ident := none, warning := none }

-- No fixed text is a prefix of another, so the one that is there is the one that is found.
theorem firstMatch_text {fn : ScanFn} {text : String} (fixed : fn.text = some text) (more : List Byte) :
    ∃ fnIdx, firstMatch matchFns 0 (ascii text ++ more) = some (fnIdx, fn, textMatch text) := by
  cases fn <;> cases fixed <;> exact ⟨_, rfl⟩

theorem firstMatch_none {fns : List ScanFn} {base : Nat} {rest : List Byte} :
    firstMatch fns base rest = none ↔ ∀ fn ∈ fns, fn.run rest = none := by
  induction fns generalizing base with
  | nil => simp [firstMatch]
  | cons fn fns ih =>
    rw [firstMatch, List.forall_mem_cons]
    cases fn.run rest with
    | none => simp [ih]
    | some found => simp

theorem firstMatch_skip {front back : List ScanFn} {base : Nat} {rest : List Byte} {fn : ScanFn}
    {found : Match} (earlier : ∀ other ∈ front, other.run rest = none) (here : fn.run rest = some found) :
    firstMatch (front ++ fn :: back) base rest = some (base + front.length, fn, found) := by
  induction front generalizing base with
  | nil => simp [firstMatch, here]
  | cons first front ih =>
    rw [List.forall_mem_cons] at earlier
    simp only [List.cons_append, firstMatch, earlier.1, List.length_cons]
    rw [ih earlier.2, show base + 1 + front.length = base + (front.length + 1) by omega]

theorem firstMatch_split {fns : List ScanFn} {base fnIdx : Nat} {rest : List Byte} {fn : ScanFn}
    {found : Match} (matched : firstMatch fns base rest = some (fnIdx, fn, found)) :
    ∃ front back, fns = front ++ fn :: back ∧ fnIdx = base + front.length ∧
      (∀ other ∈ front, other.run rest = none) ∧ fn.run rest = some found := by
  induction fns generalizing base with
  | nil => cases matched
  | cons first fns ih =>
    rw [firstMatch] at matched
    split at matched
    · next here =>
      cases matched
      exact ⟨[], fns, rfl, rfl, by simp, here⟩
    · next missed =>
      obtain ⟨front, back, rfl, rfl, earlier, here⟩ := ih matched
      refine ⟨first :: front, back, rfl, ?_, ?_, here⟩
      · rw [List.length_cons]; omega
      · rw [List.forall_mem_cons]
        exact ⟨missed, earlier⟩

theorem isspace_toNat (c : Byte) : isspace c = true ↔ c.toNat = 32 ∨ 9 ≤ c.toNat ∧ c.toNat ≤ 13 := by
  simp [isspace, UInt8.le_iff_toNat_le, ← UInt8.toNat_inj]

theorem isdigit_toNat (c : Byte) : isdigit c = true ↔ 48 ≤ c.toNat ∧ c.toNat ≤ 57 := by
  simp [isdigit, UInt8.le_iff_toNat_le]

theorem isIdentStart_toNat (c : Byte) : isIdentStart c = true ↔
    65 ≤ c.toNat ∧ c.toNat ≤ 90 ∨ 97 ≤ c.toNat ∧ c.toNat ≤ 122 ∨ c.toNat = 95 ∨ c.toNat = 46 ∨
      c.toNat = 58 := by
  simp [isIdentStart, isalpha, UInt8.le_iff_toNat_le, ← UInt8.toNat_inj, or_assoc]

theorem isIdentChar_iff (c : Byte) :
    isIdentChar c = true ↔ isIdentStart c = true ∨ isdigit c = true := by
  simp only [isIdentChar, isIdentStart, isalnum, Bool.or_eq_true]
  tauto

theorem isdigit_of_isspace {c : Byte} (space : isspace c = true) : isdigit c = false := by
  rw [← Bool.not_eq_true, isdigit_toNat]
  rw [isspace_toNat] at space
  omega

theorem isIdentChar_of_isspace {c : Byte} (space : isspace c = true) : isIdentChar c = false := by
  rw [← Bool.not_eq_true, isIdentChar_iff, isIdentStart_toNat, isdigit_toNat]
  rw [isspace_toNat] at space
  omega

theorem takeWhile_take_delimited {p : Byte → Bool} {c : Byte} (delimits : p c = false)
    (front more : List Byte) (count : Nat) :
    ((front ++ c :: more).take count).takeWhile p = (front.take count).takeWhile p := by
  induction front generalizing count with
  | nil => cases count <;> simp [delimits]
  | cons b front ih =>
    cases count with
    | zero => rfl
    | succ count => simp only [List.cons_append, List.take_succ_cons, List.takeWhile_cons, ih]

theorem takeWhile_delimited {p : Byte → Bool} {c : Byte} (delimits : p c = false)
    (front more : List Byte) : (front ++ c :: more).takeWhile p = front.takeWhile p := by
  induction front with
  | nil => simp [delimits]
  | cons b front ih => simp only [List.cons_append, List.takeWhile_cons, ih]

theorem drop_delimited {front : List Byte} {count : Nat} (inside : count ≤ front.length) (c : Byte) :
    ∃ next, ∃ after : List Byte → List Byte,
      ∀ more, (front ++ c :: more).drop count = next :: after more := by
  cases left : front.drop count with
  | nil =>
    refine ⟨c, id, fun more => ?_⟩
    rw [List.drop_append_of_le_length inside, left]
    rfl
  | cons next tail =>
    refine ⟨next, fun more => tail ++ c :: more, fun more => ?_⟩
    rw [List.drop_append_of_le_length inside, left]
    rfl

theorem scanUint_local {c : Byte} (space : isspace c = true) (front more : List Byte) :
    scanUint (front ++ c :: more) = scanUint (front ++ [c]) := by
  have inside : ((front.take 5).takeWhile isdigit).length ≤ front.length :=
    le_trans (List.takeWhile_prefix _).length_le (List.length_take_le' _ _)
  obtain ⟨next, after, dropped⟩ := drop_delimited inside c
  simp only [scanUint, takeWhile_take_delimited (isdigit_of_isspace space), dropped]

theorem scanIdent_local {c : Byte} (space : isspace c = true) (front more : List Byte) :
    (scanIdent (front ++ c :: more)).map (fun found => { found with ident := none }) =
      (scanIdent (front ++ [c])).map fun found => { found with ident := none } := by
  have delimits := isIdentChar_of_isspace space
  cases front with
  | nil =>
    have start : isIdentStart c = false := by
      cases start : isIdentStart c with
      | false => rfl
      | true => rw [isIdentChar_of_start start] at delimits; cases delimits
    simp [scanIdent, start]
  | cons first front =>
    have inside : (first :: front.takeWhile isIdentChar).length ≤ (first :: front).length :=
      Nat.succ_le_succ (List.takeWhile_prefix _).length_le
    obtain ⟨next, after, dropped⟩ := drop_delimited inside c
    simp only [List.cons_append] at dropped
    simp only [scanIdent, List.cons_append, takeWhile_delimited delimits, dropped]
    split
    · split <;> rfl
    · rfl

theorem exists_first_space {rest : List Byte} (blank : rest.any isspace = true) :
    ∃ front c more, rest = front ++ c :: more ∧ isspace c = true ∧ ∀ b ∈ front, isspace b = false := by
  induction rest with
  | nil => simp at blank
  | cons b rest ih =>
    cases space : isspace b with
    | true => exact ⟨[], b, rest, rfl, space, by simp⟩
    | false =>
      rw [List.any_cons, space, Bool.false_or] at blank
      obtain ⟨front, c, more, rfl, last, clear⟩ := ih blank
      exact ⟨b :: front, c, more, rfl, last, List.forall_mem_cons.mpr ⟨space, clear⟩⟩

theorem run_delimited {fn : ScanFn} (free : fn.text = none) {rest : List Byte} {found : Match}
    (here : fn.run rest = some found) :
    ∃ front c back, rest = front ++ c :: back ∧ isspace c = true ∧ found.nchars = front.length := by
  rcases ScanFn.text_none free with rfl | rfl
  · have split_ : scanUint rest = some found := here
    unfold scanUint at split_
    simp only at split_
    split at split_
    · cases split_
    · next c back delimiter =>
      refine ⟨rest.take ((rest.take 5).takeWhile isdigit).length, c, back, ?_, ?_, ?_⟩
      · rw [← delimiter, List.take_append_drop]
      · split at split_
        · cases split_
        · next space =>
          simp only [Bool.or_eq_true, not_or, Bool.not_eq_true', Bool.not_eq_false] at space
          exact space.1
      · have inside : ((rest.take 5).takeWhile isdigit).length ≤ rest.length :=
          le_trans (List.takeWhile_prefix _).length_le (List.length_take_le' _ _)
        rw [List.length_take_of_le inside]
        split at split_
        · cases split_
        · split at split_ <;> cases split_ <;> rfl
  · obtain ⟨-, name, c, more, rfl, nchars, -, -, space⟩ := scanIdent_some here
    exact ⟨name, c, more, rfl, space, nchars⟩

structure Match.Same (fn : ScanFn) (rest more : List Byte) (found found' : Match) : Prop where
  nchars : found'.nchars = found.nchars
  lexeme : fn.lexeme (rest ++ more) found' = fn.lexeme rest found

theorem run_append_some {fn : ScanFn} {rest : List Byte} {found : Match} (here : fn.run rest = some found)
    (more : List Byte) :
    ∃ found', fn.run (rest ++ more) = some found' ∧ Match.Same fn rest more found found' := by
  cases fixed : fn.text with
  | some text =>
    rw [ScanFn.run_text fixed, staticScan_some] at here
    obtain ⟨there, rfl⟩ := here
    refine ⟨_, ?_, rfl, by rw [ScanFn.lexeme_text fixed, ScanFn.lexeme_text fixed]⟩
    rw [ScanFn.run_text fixed, staticScan_some]
    exact ⟨there.trans (List.prefix_append _ _), rfl⟩
  | none =>
    obtain ⟨front, c, back, rfl, space, nchars⟩ := run_delimited fixed here
    rw [List.append_assoc, List.cons_append]
    rcases ScanFn.text_none fixed with rfl | rfl
    · refine ⟨found, ?_, rfl, rfl⟩
      rw [← here]
      exact (scanUint_local space _ _).trans (scanUint_local space _ _).symm
    · have same := (scanIdent_local space front (back ++ more)).trans (scanIdent_local space front back).symm
      rw [show scanIdent (front ++ c :: back) = some found from here, Option.map_some,
        Option.map_eq_some_iff] at same
      obtain ⟨found', there, same⟩ := same
      have count : found'.nchars = found.nchars := (Match.mk.inj same).1
      refine ⟨found', there, count, ?_⟩
      simp only [ScanFn.lexeme, count, nchars, List.append_assoc, List.cons_append, List.take_left]

theorem run_append_none {fn : ScanFn} {rest : List Byte} (missed : fn.run rest = none)
    (blank : rest.any isspace = true) (more : List Byte) : fn.run (rest ++ more) = none := by
  obtain ⟨front, c, back, rfl, space, -⟩ := exists_first_space blank
  cases fixed : fn.text with
  | some text =>
    rw [ScanFn.run_text fixed] at missed ⊢
    rw [Option.eq_none_iff_forall_ne_some] at missed ⊢
    intro found here
    obtain ⟨longer, rfl⟩ := staticScan_some.mp here
    rcases List.prefix_or_prefix_of_prefix longer (List.prefix_append _ more) with inside | outside
    · exact missed _ (staticScan_some.mpr ⟨inside, rfl⟩)
    · have clear := ScanFn.text_blankless fixed c (outside.subset (by simp))
      rw [space] at clear
      cases clear
  | none =>
    rw [List.append_assoc, List.cons_append]
    rcases ScanFn.text_none fixed with rfl | rfl
    · exact ((scanUint_local space _ _).trans (scanUint_local space _ _).symm).trans missed
    · have same := (scanIdent_local space front (back ++ more)).trans (scanIdent_local space front back).symm
      rwa [show scanIdent (front ++ c :: back) = none from missed, Option.map_none,
        Option.map_eq_none_iff] at same

theorem firstMatch_append_some {rest : List Byte} {fnIdx : Nat} {fn : ScanFn} {found : Match}
    (matched : firstMatch matchFns 0 rest = some (fnIdx, fn, found)) (more : List Byte) :
    ∃ fnIdx' found', firstMatch matchFns 0 (rest ++ more) = some (fnIdx', fn, found') ∧
      Match.Same fn rest more found found' := by
  obtain ⟨front, back, fns, -, earlier, here⟩ := firstMatch_split matched
  obtain ⟨found', there, same⟩ := run_append_some here more
  cases fixed : fn.text with
  | some text =>
    -- The text is there, and no other one can be.
    rw [ScanFn.run_text fixed, staticScan_some] at here
    obtain ⟨⟨tail, rfl⟩, rfl⟩ := here
    rw [List.append_assoc] at there ⊢
    obtain ⟨fnIdx', found_⟩ := firstMatch_text fixed (tail ++ more)
    refine ⟨fnIdx', found', ?_, same⟩
    rw [ScanFn.run_text fixed, staticScan_some] at there
    rw [found_, there.2, textMatch]
  | none =>
    obtain ⟨name, c, tail, rfl, space, -⟩ := run_delimited fixed here
    have blank : (name ++ c :: tail).any isspace = true := by simp [space]
    refine ⟨0 + front.length, found', ?_, same⟩
    rw [fns]
    exact firstMatch_skip (fun other member => run_append_none (earlier other member) blank more) there

theorem firstMatch_append_none {rest : List Byte} (missed : firstMatch matchFns 0 rest = none)
    (blank : rest.any isspace = true) (more : List Byte) : firstMatch matchFns 0 (rest ++ more) = none := by
  rw [firstMatch_none] at missed ⊢
  exact fun fn member => run_append_none (missed fn member) blank more

end Hvme
