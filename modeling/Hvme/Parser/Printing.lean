import Hvme.Parser.Decimal
import Hvme.Parser.Filling
import Hvme.Scanner.Reading

set_option autoImplicit false

namespace Hvme

structure Spells (size : Nat) (word : List Byte) (lexeme : Lexeme) : Prop where
  lexeme : wordLexeme word = lexeme
  whole : (keywordOf word).isSome ∨ IsPlain word
  fits : (keywordOf word).isSome ∨ word.length < size

theorem Spells.reading {size : Nat} {word : List Byte} {lexeme : Lexeme} (spells : Spells size word lexeme)
    {c : Byte} (space : isspace c = true) {text : List Byte} {lexemes : List Lexeme}
    (later : Reading size text lexemes) : Reading size (word ++ c :: text) (lexeme :: lexemes) := by
  rw [← spells.lexeme]
  refine .word ?_ spells.fits (.blank space later)
  exact spells.whole.imp_right fun plain => ⟨plain, c, text, rfl, space⟩

theorem Spells.mono {size size' : Nat} {word : List Byte} {lexeme : Lexeme} (spells : Spells size word lexeme)
    (sizes : size ≤ size') : Spells size' word lexeme :=
  ⟨spells.lexeme, spells.whole, spells.fits.imp_right fun fits => lt_of_lt_of_le fits sizes⟩

theorem spells_keyword (size : Nat) {text : String} {t : TokenCode} (member : (text, t) ∈ keywords) :
    Spells size (ascii text) (.keyword t) := by
  have known := keywordOf_of_mem member
  have some_ : (keywordOf (ascii text)).isSome := by
    rw [known]
    rfl
  exact ⟨by rw [wordLexeme, known], .inl some_, .inl some_⟩

theorem decimal_numeral (value : UInt16) : IsNumeral (decimal value.toNat) := by
  refine ⟨decimal_length_pos _, decimal_length_le (by decide) ?_, decimal_isdigit _⟩
  exact lt_trans value.toNat_lt (by decide)

theorem spells_num {size : Nat} (enough : maxTokenLen ≤ size) (value : UInt16) :
    Spells size (decimal value.toNat) (.num value) := by
  have numeral := decimal_numeral value
  have plain := numeral.isPlain
  have digits : (decimal value.toNat).all isdigit = true := List.all_eq_true.mpr (decimal_isdigit _)
  refine ⟨?_, .inr plain, .inr ?_⟩
  · have small : value.toNat ≤ 65535 := Nat.le_of_lt_succ value.toNat_lt
    rw [wordLexeme, keywordOf_of_free plain.free]
    simp only [digits, if_true, uintValue_decimal, Nat.min_eq_left small]
    rw [Nat.toUInt16, UInt16.ofNat_toNat]
  · exact lt_of_le_of_lt numeral.2.1 (lt_of_lt_of_le (show 5 < maxTokenLen by decide) enough)

theorem IsName.take {word : List Byte} (name : IsName word) {count : Nat} (some_ : 0 < count) :
    IsName (word.take count) := by
  obtain ⟨first, tail, rfl, start, chars⟩ := name
  obtain ⟨rest, rfl⟩ := Nat.exists_eq_succ_of_ne_zero some_.ne'
  exact ⟨first, tail.take rest, rfl, start, fun b member => chars b (List.mem_of_mem_take member)⟩

theorem IsName.not_digits {word : List Byte} (name : IsName word) : word.all isdigit = false := by
  obtain ⟨first, tail, rfl, start, -⟩ := name
  have range := (isIdentStart_toNat first).mp start
  have no_digit : isdigit first = false := by
    rw [← Bool.not_eq_true, isdigit_toNat]
    omega
  rw [List.all_cons, no_digit, Bool.false_and]

theorem Ident.ofBuf_chars (ident : Ident) : Ident.ofBuf ident.chars = ident := by
  ext1
  rw [Ident.ofBuf_name fun b member zero => ident.nonzero (zero ▸ member)]
  exact List.take_of_length_le ident.length_le

theorem spells_name {size : Nat} {word : List Byte} {ident : Ident} (read : wordLexeme word = .name ident)
    (whole : (keywordOf word).isSome ∨ IsPlain word)
    (fits : (keywordOf word).isSome ∨ word.length < size) : Spells size ident.chars (.name ident) := by
  rw [wordLexeme] at read
  split at read
  · cases read
  · next unknown =>
    split at read
    · cases read
    · next digits =>
      cases read
      rw [unknown] at whole fits
      -- The word is a name: it is no keyword and its first byte is no digit.
      have plain := whole.resolve_left Bool.false_ne_true
      have name : IsName word := plain.value.resolve_left fun numeral =>
        digits (List.all_eq_true.mpr numeral.2.2)
      have chars := Ident.ofBuf_name fun b member => nonzero_of_isIdentChar (name.chars b member)
      have taken := name.take (show 0 < maxIdentLen by decide)
      have cut : word.take maxIdentLen <+: word := List.take_prefix _ _
      -- A keyword at the front of the cut name would be at the front of the word.
      have plain' : IsPlain (word.take maxIdentLen) :=
        ⟨.inr taken, fun entry member inside => plain.free entry member (inside.trans cut)⟩
      refine ⟨?_, ?_, ?_⟩
      · rw [wordLexeme, chars, keywordOf_of_free plain'.free]
        simp only [taken.not_digits, Bool.false_eq_true, if_false]
        rw [← chars, Ident.ofBuf_chars]
      · exact .inr (chars ▸ plain')
      · rw [chars]
        exact .inr (lt_of_le_of_lt cut.length_le (fits.resolve_left Bool.false_ne_true))

theorem Passage.names {size : Nat} {inside : Bool} {cur : Pos} {bytes : List Byte} {views : List View}
    {lost : Prop} (passage : Passage size inside cur bytes views lost) {ident : Ident}
    (member : Lexeme.name ident ∈ views.map View.lexeme) : Spells size ident.chars (.name ident) := by
  induction passage with
  | done => cases member
  | blank space later ih => exact ih member
  | word here fits later ih =>
    rcases List.mem_cons.mp member with read | member
    · exact spells_name read.symm (here.imp_right And.left) fits
    · exact ih member
  | comment blanks later ih => exact ih member
  | text other later ih => exact ih member
  | lineEnd later ih => exact ih member

theorem scan_names {cfg : Config} {fuel : Nat} {sc sc' : Scanner} {content : List Byte}
    (fresh : sc.tokens.cell = []) (returns : scan cfg fuel sc (some content) = .ok (.ok, sc')) {ident : Ident}
    (member : Lexeme.name ident ∈ sc'.tokens.cell.map Token.lexeme) :
    Spells cfg.scanBlockSize ident.chars (.name ident) := by
  obtain ⟨-, out, lost, views, passage, -⟩ := scan_passage returns
  refine passage.names ?_
  have lexemes : sc'.views.map View.lexeme = sc'.tokens.cell.map Token.lexeme := List.map_map
  rw [show sc.views = [] by rw [Scanner.views, fresh, List.map_nil], List.nil_append] at views
  rwa [← views, lexemes]

def Item.name : Item → Option Ident
  | .operation _ => none
  | .transfer _ _ _ => none
  | .jump _ target => some target
  | .label ident => some ident
  | .function ident _ => some ident
  | .call ident _ => some ident

theorem Start.read_name {start : Start} {lexemes rest : List Lexeme} {clause : Clause}
    (read : start.read lexemes = some (clause, rest)) {nargs : UInt16} {ident : Ident}
    (name : (clause.filled nargs).name = some ident) : Lexeme.name ident ∈ lexemes := by
  cases Start.reads read <;> cases name <;> exact List.mem_cons_self

theorem readClause_name {lexemes rest : List Lexeme} {clause : Clause}
    (read : readClause lexemes = some (clause, rest)) {nargs : UInt16} {ident : Ident}
    (name : (clause.filled nargs).name = some ident) : Lexeme.name ident ∈ lexemes := by
  unfold readClause at read
  split at read
  · split at read
    · exact List.mem_cons_of_mem _ (Start.read_name read name)
    · cases read
  · cases read

theorem readClause_rest {lexemes rest : List Lexeme} {clause : Clause}
    (read : readClause lexemes = some (clause, rest)) : rest ⊆ lexemes := by
  unfold readClause at read
  split at read
  · split at read
    · obtain ⟨operands, rfl, -⟩ := Start.read_operands read
      exact List.subset_cons_of_subset _ (List.subset_append_right _ _)
    · cases read
  · cases read

theorem readClauses_name {cfg : Config} (fuel : Nat) {idx : Nat} {lexemes : List Lexeme} {item : Item}
    (member : item ∈ emittedFrom cfg idx (readClauses fuel lexemes).1) {ident : Ident}
    (name : item.name = some ident) : Lexeme.name ident ∈ lexemes := by
  induction fuel generalizing idx lexemes with
  | zero => cases member
  | succ fuel ih =>
    rw [readClauses] at member
    split at member
    · cases member
    · next clause rest read =>
      have inside := readClause_rest read
      simp only [emittedFrom] at member
      split at member
      · rcases List.mem_cons.mp member with rfl | member
        · exact readClause_name read name
        · exact inside (ih member)
      · exact inside (ih member)

def instText (inst : Inst) : List Byte :=
  let code := ascii inst.code.name
  match inst.code with
  | .push | .pop => code ++ ascii " " ++ ascii inst.seg.name ++ ascii " " ++ decimal inst.offset.toNat
  | .goto | .ifGoto => code ++ ascii " " ++ inst.ident.chars
  | .call => code ++ ascii " " ++ inst.ident.chars ++ ascii " " ++ decimal inst.nargs.toNat
  | _ => code

theorem Segment.name_keyword (seg : Segment) : (seg.name, seg.token) ∈ keywords := by
  cases seg <;> decide

theorem Segment.name_length (seg : Segment) : (ascii seg.name).length ≤ 8 := by
  cases seg <;> decide

theorem InstCode.name_length (code : InstCode) : (ascii code.name).length < instStrBuf := by
  cases code <;> decide

theorem InstCode.name_length_operands {code : InstCode}
    (operands : code ∈ [InstCode.push, .pop, .goto, .ifGoto, .call]) : (ascii code.name).length ≤ 7 := by
  cases code <;> revert operands <;> decide

theorem decimal_short (value : UInt16) : (decimal value.toNat).length ≤ 5 := (decimal_numeral value).2.1

theorem instText_length (inst : Inst) : (instText inst).length < instStrBuf := by
  have blank : (ascii " ").length = 1 := rfl
  have seg := inst.seg.name_length
  have offset := decimal_short inst.offset
  have nargs := decimal_short inst.nargs
  have ident : inst.ident.chars.length ≤ 24 := inst.ident.length_le
  unfold instText
  cases code : inst.code
  case push | pop | goto | ifGoto | call =>
    have name := @InstCode.name_length_operands inst.code (by rw [code]; decide)
    simp only [code, List.length_append, blank, instStrBuf] at name ⊢
    omega
  all_goals exact InstCode.name_length _

theorem instStr_eq (inst : Inst) : instStr inst = instText inst := by
  have fits := Nat.le_sub_one_of_lt (instText_length inst)
  unfold instText at fits
  unfold instStr instText
  cases same : inst.code <;> simp only [same] at fits ⊢ <;> exact List.take_of_length_le fits

section reading

variable {size : Nat} (enough : maxTokenLen ≤ size) {inst : Inst} {text : List Byte} (later : Reading size text [])

include later

theorem reading_operation {code : String} {op : Operation} (member : (code, op.token) ∈ keywords) :
    Reading size (ascii code ++ newline :: text) (Item.operation op).lexemes :=
  (spells_keyword size member).reading newline_space later

theorem reading_jump {code : String} {op : Jump} (member : (code, op.token) ∈ keywords) {target : Ident}
    (name : Spells size target.chars (.name target)) :
    Reading size (ascii code ++ ascii " " ++ target.chars ++ newline :: text) (Item.jump op target).lexemes := by
  have target := name.reading newline_space later
  simp only [List.append_assoc]
  exact (spells_keyword size member).reading (show isspace 32 = true by decide) target

include enough

theorem reading_transfer {code : String} {op : Transfer} (member : (code, op.token) ∈ keywords) (seg : Segment)
    (offset : UInt16) :
    Reading size (ascii code ++ ascii " " ++ ascii seg.name ++ ascii " " ++ decimal offset.toNat ++ newline :: text)
      (Item.transfer op seg offset).lexemes := by
  have space : isspace 32 = true := by decide
  have offset := (spells_num enough offset).reading newline_space later
  have seg := (spells_keyword size seg.name_keyword).reading space offset
  simp only [List.append_assoc]
  exact (spells_keyword size member).reading space seg

theorem reading_call {ident : Ident} (name : Spells size ident.chars (.name ident)) (nargs : UInt16) :
    Reading size (ascii "call" ++ ascii " " ++ ident.chars ++ ascii " " ++ decimal nargs.toNat ++ newline :: text)
      (Item.call ident nargs).lexemes := by
  have space : isspace 32 = true := by decide
  have nargs := (spells_num enough nargs).reading newline_space later
  have ident := name.reading space nargs
  have member : ("call", TokenCode.call) ∈ keywords := by decide
  simp only [List.append_assoc]
  exact (spells_keyword size member).reading space ident

theorem instText_reading {item : Item} (known : inst.item = some item)
    (names : ∀ ident, item.name = some ident → Spells size ident.chars (.name ident)) :
    Reading size (instText inst ++ newline :: text) item.lexemes := by
  unfold Inst.item at known
  unfold instText
  cases code : inst.code <;> simp only [code] at known ⊢ <;> cases known
  case push | pop => exact reading_transfer enough later (by decide) _ _
  case goto | ifGoto => exact reading_jump later (by decide) (names _ rfl)
  case call => exact reading_call enough later (names _ rfl) _
  all_goals exact reading_operation later (by decide)

end reading

theorem parse_item (cfg : Config) {tokens : Tokens} (insts : Insts) (st : Option SymbolTable) {item : Item}
    (spelled : tokens.cell.map Token.lexeme = item.lexemes) (emits : item.emits = true) :
    ∃ p inst, parse cfg tokens insts st = .ok (.ok, p) ∧ p.insts.cell = insts.cell ++ [inst] ∧
      inst.item = some item := by
  have clauses : clausesOf tokens.cell = [.item item] := by
    have read := readClauses_items [item] tokens.cell.length
    rw [List.flatMap_singleton, ← spelled, List.length_map] at read
    exact congrArg Prod.fst (read le_rfl)
  obtain ⟨p, parsed⟩ : ∃ p, parse cfg tokens insts st = .ok (.ok, p) := by
    have at_ := Parser.start_at tokens insts st
    cases cells : tokens.cell with
    | nil =>
      rw [cells] at spelled
      have some_ := item.lexemes_length
      rw [← spelled] at some_
      cases some_
    | cons it more =>
      rw [cells, List.map_cons] at spelled
      rw [cells] at at_
      have read := readClause_item item []
      rw [List.append_nil, ← spelled] at read
      -- One iteration takes all tokens, with or without a table.
      obtain ⟨p, stepped, left, at', nothing⟩ := parseStep_emits cfg tokens.filename
        (st.elim 0 SymbolTable.numInst) at_ read emits
      obtain rfl := List.map_eq_nil_iff.mp nothing
      refine ⟨p.finish, ?_⟩
      rw [parse_loop, cells, List.length_cons, parseLoop_cons at_, stepped]
      simp only [parseLoop_nil at']
  obtain ⟨-, emitted, insts_eq, filled⟩ := parse_fills parsed
  have items := filled.items
  rw [clauses, emittedFrom, show (Clause.item item).emits = true from emits, if_pos rfl] at items
  obtain ⟨inst, rest, rfl, known, nothing⟩ := List.map_eq_cons_iff.mp items
  obtain rfl := List.map_eq_nil_iff.mp nothing
  exact ⟨p, inst, parsed, by rw [insts_eq], known⟩

theorem emittedFrom_emits {cfg : Config} {idx : Nat} {clauses : List Clause} :
    ∀ item ∈ emittedFrom cfg idx clauses, item.emits = true := by
  induction clauses generalizing idx with
  | nil => exact fun _ member => by cases member
  | cons clause clauses ih =>
    rw [emittedFrom]
    split
    · next emits =>
      refine List.forall_mem_cons.mpr ⟨?_, ih⟩
      cases clause with
      | item item => exact emits
      | function ident => cases emits
      | call ident => rfl
    · exact ih

/-- Scanning and parsing `text` gives one instruction, which is `inst`; the scanner has read nothing
before and is not in a comment. -/
def ReadsBack (cfg : Config) (text : List Byte) (inst : Inst) : Prop :=
  ∀ (sc : Scanner) (filename : Option String) (st : Option SymbolTable), sc.tokens.cell = [] →
    sc.statics.insideComment = false →
    ∃ fuel sc', scan cfg fuel sc (some text) = .ok (.ok, sc') ∧
      ∃ p other, parse cfg sc'.tokens (newInsts filename) st = .ok (.ok, p) ∧
        p.insts.cell = [other] ∧ inst.Alike other

/-- Every instruction of an accepted text is printed in full and read back as it is, also where the
cells that are filled then held something else. -/
theorem instStr_reads_back {cfg cfg' : Config} (sizes : cfg.scanBlockSize ≤ cfg'.scanBlockSize) {fuel : Nat}
    {sc sc' : Scanner} {content : List Byte} (fresh : sc.tokens.cell = [])
    (scanned : scan cfg fuel sc (some content) = .ok (.ok, sc')) {insts : Insts} {st : Option SymbolTable}
    {p : Parser} (parsed : parse cfg sc'.tokens insts st = .ok (.ok, p)) {inst : Inst}
    (emitted : inst ∈ p.insts.cell.drop insts.cell.length) :
    (instText inst).length < instStrBuf ∧ instStr inst = instText inst ∧
      ReadsBack cfg' (instStr inst ++ [newline]) inst := by
  obtain ⟨-, cells, insts_eq, filled⟩ := parse_fills parsed
  rw [insts_eq, List.drop_left] at emitted
  obtain ⟨item, member, known⟩ : ∃ item ∈ emittedFrom cfg insts.cell.length (clausesOf sc'.tokens.cell),
      some item = inst.item := by
    rw [← List.mem_map, ← filled.items]
    exact List.mem_map_of_mem emitted
  refine ⟨instText_length inst, instStr_eq inst, ?_⟩
  intro sc₂ filename st₂ fresh₂ outside
  -- The names in the instruction were scanned, so they are no longer than a block allows.
  have names : ∀ ident, item.name = some ident → Spells cfg'.scanBlockSize ident.chars (.name ident) :=
    fun ident name => (scan_names fresh scanned (readClauses_name _ member name)).mono sizes
  have reading := instText_reading cfg'.maxTokenLen_le (.blank newline_space .done) known.symm names
  rw [← instStr_eq, List.append_cons] at reading
  obtain ⟨fuel₂, sc₂', scanned₂, -, views⟩ := reading.scan outside
  refine ⟨fuel₂, sc₂', scanned₂, ?_⟩
  have lexemes : sc₂'.tokens.cell.map Token.lexeme = item.lexemes := by
    rw [Scanner.views, Scanner.views, fresh₂, List.map_map] at views
    exact views
  obtain ⟨p₂, other, parsed₂, cells₂, known₂⟩ :=
    parse_item cfg' (newInsts filename) st₂ lexemes (emittedFrom_emits item member)
  exact ⟨p₂, other, parsed₂, cells₂, (Inst.alike_iff known.symm).mpr known₂⟩

theorem instStr_reads_back_call :
    let sc : Scanner := { tokens := newTokens none, statics := Statics.init, warnings := [] }
    let inst : Inst :=
      { Inst.zero with code := .call, ident := Ident.ofString "f", nargs := 2 }
    ∃ sc' p, scan .unitTests 2 sc (some (ascii "call f 2\n")) = .ok (.ok, sc') ∧
      parse .unitTests sc'.tokens (newInsts none) none = .ok (.ok, p) ∧ p.insts.cell = [inst] ∧
      (instText inst).length < instStrBuf ∧ instStr inst = instText inst ∧
      ReadsBack .release (instStr inst ++ [newline]) inst := by
  intro sc inst
  let token (t : TokenCode) (cl : UInt32) (uilit : UInt16) (name : List Byte) : Token :=
    { t := t, pos := { ln := 0, cl := cl, filename := none }, uilit := uilit, ident := Ident.ofBuf name }
  let tokens : Tokens :=
    { cell := [token .call 0 0 [], token .ident 5 0 (ascii "f"), token .uint 7 2 (List.replicate maxIdentLen 32)]
      filename := none
      cur := { ln := 1, cl := 0, filename := none } }
  obtain ⟨sc', scanned, read⟩ : ∃ sc', scan .unitTests 2 sc (some (ascii "call f 2\n")) = .ok (.ok, sc') ∧
      sc'.tokens = tokens := ⟨_, rfl, by decide +kernel⟩
  obtain ⟨p, parsed, cells⟩ : ∃ p, parse .unitTests tokens (newInsts none) none = .ok (.ok, p) ∧
      p.insts.cell = [inst] := ⟨_, rfl, by decide +kernel⟩
  rw [← read] at parsed
  have emitted : inst ∈ p.insts.cell.drop (newInsts none).cell.length := by
    rw [cells]
    exact List.mem_cons_self
  exact ⟨sc', p, scanned, parsed, cells, instStr_reads_back (by decide) rfl scanned parsed emitted⟩

end Hvme
