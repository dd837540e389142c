import Hvme.Program.Erasing
import Hvme.Program.System
import Hvme.Scanner.Blocks

set_option autoImplicit false

namespace Hvme

structure Scanner.Alike (sc sc' : Scanner) : Prop where
  mark : sc'.mark = sc.mark
  views : sc'.views = sc.views
  filename : sc'.tokens.filename = sc.tokens.filename

theorem Scanner.Alike.inside {sc sc' : Scanner} (alike : sc.Alike sc') :
    sc'.statics.insideComment = sc.statics.insideComment :=
  congrArg Mark.inside alike.mark

theorem Scanner.Alike.reads {sc sc' last last' : Scanner} {out : List View} {mark : Mark}
    (alike : sc.Alike sc') (reads : sc.Reads out mark last) (reads' : sc'.Reads out mark last') :
    last.Alike last' where
  mark := reads'.mark.trans reads.mark.symm
  views := by rw [reads'.views, reads.views, alike.views]
  filename := by rw [reads'.filename, reads.filename, alike.filename]

theorem scanBlk_alike {sc sc' : Scanner} (alike : sc.Alike sc') (blk : List Byte) :
    match scanBlk sc blk with
    | .trailing last count => ∃ last', scanBlk sc' blk = .trailing last' count ∧ last.Alike last'
    | .err _ _ => ∃ last' diag, scanBlk sc' blk = .err last' diag := by
  have reads := scanBlk_reads sc blk
  have reads' := scanBlk_reads sc' blk
  rw [alike.mark] at reads'
  cases trailing : numTrailing (lex sc.mark blk).rest with
  | none =>
    simp only [trailing] at reads reads'
    obtain ⟨last, diag, failed, -⟩ := reads
    obtain ⟨last', diag', failed', -⟩ := reads'
    rw [failed]
    exact ⟨last', diag', failed'⟩
  | some count =>
    simp only [trailing] at reads reads'
    obtain ⟨last, scanned, seen⟩ := reads
    obtain ⟨last', scanned', seen'⟩ := reads'
    rw [scanned]
    exact ⟨last', scanned', alike.reads seen seen'⟩

theorem scanRound_alike (cfg : Config) {round : Round} {sc' : Scanner} (alike : round.sc.Alike sc') :
    match scanRound cfg round with
    | .again next => ∃ last', scanRound cfg { round with sc := sc' } = .again { next with sc := last' } ∧
        next.sc.Alike last'
    | .ok last => ∃ last', scanRound cfg { round with sc := sc' } = .ok last' ∧ last.Alike last'
    | .err _ _ => ∃ last' diag, scanRound cfg { round with sc := sc' } = .err last' diag := by
  simp only [scanRound]
  generalize memcpy round.blk round.bytesCopied _ = blk
  generalize List.length _ + round.bytesCopied = origLen
  generalize decide (0 < origLen ∧ origLen < cfg.scanBlockSize ∧ blk[origLen - 1]? ≠ some newline) = addNl
  -- What is read, and whether a newline is added, does not depend on the scanner.
  have begins : (if addNl then { round.sc with warnings := round.sc.warnings ++ [.eofNl] } else round.sc).Alike
      (if addNl then { sc' with warnings := sc'.warnings ++ [.eofNl] } else sc') := by
    cases addNl
    · exact alike
    · exact ⟨alike.mark, alike.views, alike.filename⟩
  have block := scanBlk_alike begins
    (((if addNl then blk.set origLen newline else blk)).take (if addNl then origLen + 1 else origLen))
  generalize scanBlk (if addNl then { round.sc with warnings := _ } else round.sc) _ = scanned at block ⊢
  cases scanned with
  | err last diag =>
    obtain ⟨last', diag', scanned'⟩ := block
    rw [scanned']
    exact ⟨last', diag', rfl⟩
  | trailing last count =>
    obtain ⟨last', scanned', after⟩ := block
    rw [scanned']
    by_cases full : origLen = cfg.scanBlockSize
    · simp only [full, if_true]
      exact ⟨last', rfl, after⟩
    · simp only [full, if_false]
      exact ⟨last', rfl, after⟩

theorem scanRounds_alike (cfg : Config) (fuel : Nat) {round : Round} {sc' last : Scanner}
    (alike : round.sc.Alike sc') (scanned : scanRounds cfg fuel round = .ok (.ok, last)) :
    ∃ last', scanRounds cfg fuel { round with sc := sc' } = .ok (.ok, last') ∧ last.Alike last' := by
  induction fuel generalizing round sc' with
  | zero => cases scanned
  | succ fuel ih =>
    have step := scanRound_alike cfg alike
    rw [scanRounds] at scanned ⊢
    cases stepped : scanRound cfg round with
    | again next =>
      rw [stepped] at scanned step
      obtain ⟨next', stepped', after⟩ := step
      rw [stepped']
      exact ih after scanned
    | ok last =>
      rw [stepped] at scanned step
      cases scanned
      obtain ⟨last', stepped', after⟩ := step
      rw [stepped']
      exact ⟨last', rfl, after⟩
    | err last diag =>
      rw [stepped] at scanned
      cases scanned

theorem parse_alike (cfg : Config) {tokens tokens' : Tokens} {insts : Insts} {st : Option SymbolTable}
    {p : Parser} (filename : tokens.filename = tokens'.filename)
    (views : tokens.cell.map Token.view = tokens'.cell.map Token.view)
    (parsed : parse cfg tokens insts st = .ok (.ok, p)) :
    ∃ p', parse cfg tokens' insts st = .ok (.ok, p') ∧ p'.insts = p.insts ∧ p'.st = p.st := by
  have same := parse_views cfg insts st filename views
  rw [parsed] at same
  rcases parsed' : parse cfg tokens' insts st with fault | ⟨res, p'⟩
  · rw [parsed'] at same
    cases same
  · rw [parsed'] at same
    obtain ⟨ok, erased⟩ := Prod.mk.inj (Except.ok.inj same)
    obtain rfl : ParseResult.ok = res := ok
    exact ⟨p', rfl, (congrArg Parser.insts erased).symm, (congrArg Parser.st erased).symm⟩

/-- The parts of a compiled file that depend on what was scanned before it. The bytes that are in
`ident` in the tokens that are no identifiers are not compared: nothing reads them. -/
structure SameFile (made made' : Tokens × File) : Prop where
  tokens : made'.1.cell.map Token.view = made.1.cell.map Token.view
  insts : made'.2.insts = made.2.insts
  st : made'.2.st = made.2.st

theorem procFile_alike (cfg : Config) (fuel : Nat) {statics statics' last : Statics} {src : Source}
    {made : Tokens × File} (inside : statics'.insideComment = statics.insideComment)
    (processed : procFile cfg fuel statics src = .ok (last, some made)) :
    ∃ last' made', procFile cfg fuel statics' src = .ok (last', some made') ∧
      last'.insideComment = last.insideComment ∧ SameFile made made' := by
  unfold procFile at processed ⊢
  extract_lets sc at processed
  extract_lets sc'
  -- Of the statics only `inside_comment` is seen before it is written.
  have alike : sc.Alike sc' := ⟨by simp [sc, sc', Scanner.mark, inside], rfl, rfl⟩
  cases content : src.content with
  | none =>
    rw [content] at processed
    cases processed
  | some file =>
    rw [content] at processed
    cases scanned : scan cfg fuel sc (some file) with
    | error fault =>
      rw [scanned] at processed
      cases processed
    | ok result =>
      obtain ⟨_ | _, read⟩ := result
      · rw [scanned] at processed
        cases processed
      · obtain ⟨read', scanned', after⟩ := scanRounds_alike cfg fuel alike scanned
        have scanned' : scan cfg fuel sc' (some file) = .ok (.ok, read') := scanned'
        simp only [scanned] at processed
        simp only [scanned']
        rcases parsed : parse cfg read.tokens (newInsts (some src.fn)) (some (newSt cfg)) with
          fault | ⟨_ | _, p⟩
        · simp only [parsed] at processed
          cases processed
        · simp only [parsed] at processed
          cases processed
        · obtain ⟨p', parsed', insts, st⟩ := parse_alike cfg after.filename.symm after.views.symm parsed
          simp only [parsed] at processed
          simp only [parsed', insts, st]
          cases table : p.st with
          | none =>
            rw [table] at processed
            cases processed
          | some st =>
            rw [table] at processed
            cases processed
            exact ⟨_, _, rfl, after.inside, after.views, rfl, rfl⟩

def CompiledAlone (cfg : Config) (fuel : Nat) (src : Source) (made : Tokens × File) : Prop :=
  ∃ statics alone, procFile cfg fuel Statics.init src = .ok (statics, some alone) ∧ SameFile made alone

/-- If a program is made of `srcs`, each file is what it is when compiled alone. -/
def Separate (cfg : Config) (fuel : Nat) (srcs : List Source) : Prop :=
  ∀ prog, makeProg cfg fuel srcs = .ok (some prog) →
    ∃ statics made, procFiles cfg fuel Statics.init srcs = .ok (statics, some made) ∧
      prog.files.tail = made.map Prod.snd ∧ List.Forall₂ (CompiledAlone cfg fuel) srcs made

/-- Scanning `srcs` has no influence on a file after them, nor on one of them. What the allocator
leaves in the cells of a file is the same in both runs. -/
def NoInfluence (cfg : Config) (fuel : Nat) (srcs : List Source) : Prop :=
  ∀ earlier, earlier <+: srcs → ∀ next, Separate cfg fuel (earlier ++ [next])

/-- No file of `srcs` leaves a comment open. -/
def CommentsClosed (cfg : Config) (fuel : Nat) (srcs : List Source) : Prop :=
  ∀ earlier, earlier <+: srcs → ∀ statics made,
    procFiles cfg fuel Statics.init earlier = .ok (statics, some made) → statics.insideComment = false

theorem procFiles_cons {cfg : Config} {fuel : Nat} {statics last : Statics} {src : Source}
    {srcs : List Source} {made : List (Tokens × File)} :
    procFiles cfg fuel statics (src :: srcs) = .ok (last, some made) ↔
      ∃ warnings mid file rest, warnFileExt src.fn = .ok warnings ∧
        procFile cfg fuel statics src = .ok (mid, some file) ∧
        procFiles cfg fuel mid srcs = .ok (last, some rest) ∧ made = file :: rest := by
  rw [procFiles]
  constructor
  · intro processed
    split at processed
    · cases processed
    · next warnings named =>
      split at processed
      · cases processed
      · cases processed
      · next mid file first =>
        split at processed
        · cases processed
        · cases processed
        · next rest others =>
          cases processed
          exact ⟨warnings, mid, file, rest, named, first, others, rfl⟩
  · rintro ⟨warnings, mid, file, rest, named, first, others, rfl⟩
    simp only [named, first, others]

theorem procFiles_append {cfg : Config} {fuel : Nat} {statics last : Statics} {srcs : List Source}
    {next : Source} {made : List (Tokens × File)} :
    procFiles cfg fuel statics (srcs ++ [next]) = .ok (last, some made) ↔
      ∃ warnings mid front file, procFiles cfg fuel statics srcs = .ok (mid, some front) ∧
        warnFileExt next.fn = .ok warnings ∧ procFile cfg fuel mid next = .ok (last, some file) ∧
        made = front ++ [file] := by
  induction srcs generalizing statics made with
  | nil =>
    rw [List.nil_append, procFiles_cons]
    constructor
    · rintro ⟨warnings, mid, file, rest, named, only, none_, rfl⟩
      cases none_
      exact ⟨warnings, statics, [], file, rfl, named, only, rfl⟩
    · rintro ⟨warnings, mid, front, file, none_, named, only, rfl⟩
      cases none_
      exact ⟨warnings, last, file, [], named, only, rfl, rfl⟩
  | cons src srcs ih =>
    rw [List.cons_append, procFiles_cons]
    constructor
    · rintro ⟨warnings, mid, file, rest, named, first, others, rfl⟩
      obtain ⟨warnings', mid', front, file', before_, named', last_, rfl⟩ := ih.mp others
      exact ⟨warnings', mid', file :: front, file',
        procFiles_cons.mpr ⟨warnings, mid, file, front, named, first, before_, rfl⟩, named', last_, rfl⟩
    · rintro ⟨warnings, mid, front, file, before_, named, last_, rfl⟩
      obtain ⟨warnings', mid', file', rest, named', first, others, rfl⟩ := procFiles_cons.mp before_
      exact ⟨warnings', mid', file', rest ++ [file], named', first,
        ih.mpr ⟨warnings, mid, rest, file, others, named, last_, rfl⟩, rfl⟩

theorem makeProg_some {cfg : Config} {fuel : Nat} {srcs : List Source} :
    (∀ prog, makeProg cfg fuel srcs = .ok (some prog) →
      ∃ statics made, procFiles cfg fuel Statics.init srcs = .ok (statics, some made) ∧
        prog.files.tail = made.map Prod.snd) ∧
    ∀ statics made, procFiles cfg fuel Statics.init srcs = .ok (statics, some made) →
      ∃ prog, makeProg cfg fuel srcs = .ok (some prog) := by
  obtain ⟨system, set, -⟩ := initSystemFile_ok cfg
  simp only [makeProg, set, bind, Except.bind]
  constructor
  · intro prog
    cases procFiles cfg fuel Statics.init srcs with
    | error fault => intro made; cases made
    | ok result =>
      obtain ⟨statics, _ | made⟩ := result
      · intro made; cases made
      · intro same
        cases same
        exact ⟨statics, made, rfl, rfl⟩
  · intro statics made processed
    rw [processed]
    exact ⟨_, rfl⟩

theorem procFiles_alone {cfg : Config} {fuel : Nat} {srcs : List Source} (closed : CommentsClosed cfg fuel srcs)
    {earlier : List Source} (before_ : earlier <+: srcs) {next : Source} {last : Statics}
    {made : List (Tokens × File)}
    (processed : procFiles cfg fuel Statics.init (earlier ++ [next]) = .ok (last, some made)) :
    List.Forall₂ (CompiledAlone cfg fuel) (earlier ++ [next]) made := by
  induction earlier using List.reverseRecOn generalizing next last made with
  | nil =>
    obtain ⟨-, mid, front, file, none_, -, only, rfl⟩ := procFiles_append.mp processed
    cases none_
    exact .cons ⟨last, file, only, rfl, rfl, rfl⟩ .nil
  | append_singleton earlier src ih =>
    obtain ⟨-, mid, front, file, others, -, this, rfl⟩ := procFiles_append.mp processed
    have alone := ih ((List.prefix_append _ _).trans before_) others
    have init : Statics.init.insideComment = mid.insideComment := (closed _ before_ _ _ others).symm
    obtain ⟨last', made', processed', -, same⟩ := procFile_alike cfg fuel init this
    exact List.rel_append alone (.cons ⟨last', made', processed', same⟩ .nil)

def oneLine : Source := { fn := "add.vm", content := some (ascii "add\n") }

theorem scan_oneLine (cfg : Config) (fuel : Nat) {sc : Scanner} {out : List View}
    (reads : (lex sc.mark (ascii "add\n")).tokens = some out) :
    ∃ last, scan cfg (fuel + 1) sc oneLine.content = .ok (.ok, last) ∧ last.views = sc.views ++ out := by
  have short : 4 < cfg.scanBlockSize := lt_of_lt_of_le (by decide) cfg.maxTokenLen_le
  have last := scanRound_last (Round.init_valid cfg sc (ascii "add\n")) (show 0 + 4 < _ by omega)
  have content : withNewline (Round.init cfg sc (ascii "add\n")).pending = ascii "add\n" := by
    simp only [Round.pending, Round.init, List.take_zero, List.nil_append]
    decide
  rw [content, numTrailing_eq, show (Round.init cfg sc (ascii "add\n")).sc = sc from rfl] at last
  unfold Lexed.tokens at reads
  cases blank : (lex sc.mark (ascii "add\n")).rest.any isspace with
  | true => simp [blank] at reads
  | false =>
    simp only [blank, Bool.false_eq_true, if_false, Option.some.injEq] at reads last
    obtain ⟨sc', scanned, seen⟩ := last
    refine ⟨sc', ?_, by rw [seen.views, reads]⟩
    simp only [scan, oneLine, scanRounds, scanned]

theorem procFile_oneLine_open (cfg : Config) (fuel : Nat) {statics : Statics}
    (open_ : statics.insideComment = true) :
    ∃ last made, procFile cfg (fuel + 1) statics oneLine = .ok (last, some made) ∧ made.1.cell = [] := by
  let sc : Scanner := { tokens := newTokens (some oneLine.fn), statics := statics, warnings := [] }
  have mark : sc.mark = { inside := true, cur := Pos.zero } := by
    simp [sc, Scanner.mark, open_, newTokens]
  have reads : (lex sc.mark (ascii "add\n")).tokens = some [] := by
    rw [mark, show ascii "add\n" = [97, 100, 100, newline] from rfl, lex_inside_cons _ (by decide),
      lex_inside_cons _ (by decide), lex_inside_cons _ (by decide), lex_inside_newline, lex_nil]
    rfl
  obtain ⟨last, scanned, seen⟩ := scan_oneLine cfg fuel reads
  have cell : last.tokens.cell = [] := List.map_eq_nil_iff.mp seen
  unfold procFile
  simp only [show scan cfg (fuel + 1) { tokens := newTokens (some oneLine.fn), statics := statics, warnings := [] }
    oneLine.content = .ok (.ok, last) from scanned]
  simp only [parse, cell, List.length_nil, parseLoop, Option.map_some]
  exact ⟨_, _, rfl, cell⟩

theorem procFile_oneLine_fresh (cfg : Config) {fuel : Nat} {last : Statics} {made : Tokens × File}
    (processed : procFile cfg fuel Statics.init oneLine = .ok (last, some made)) :
    made.1.cell.length = 1 := by
  let sc : Scanner := { tokens := newTokens (some oneLine.fn), statics := Statics.init, warnings := [] }
  cases fuel with
  | zero => cases processed
  | succ fuel =>
    -- The three letters are one keyword, and nothing follows.
    have step : lexStep sc.mark (ascii "add\n") =
        .next { inside := false, cur := incl (incby 3 Pos.zero) }
          [{ lexeme := .keyword .add, pos := Pos.zero }] [] := by
      rfl
    have reads : (lex sc.mark (ascii "add\n")).tokens = some [{ lexeme := .keyword .add, pos := Pos.zero }] := by
      rw [lex_next (by decide) step, Lexed.after_tokens, lex_nil]
      rfl
    obtain ⟨read, scanned, seen⟩ := scan_oneLine cfg fuel reads
    have one : read.tokens.cell.length = 1 := by
      have length := congrArg List.length seen
      simpa [Scanner.views, sc, newTokens] using length
    unfold procFile at processed
    simp only [show scan cfg (fuel + 1) { tokens := newTokens (some oneLine.fn), statics := Statics.init, warnings := [] }
      oneLine.content = .ok (.ok, read) from scanned] at processed
    split at processed
    · cases processed
    · cases processed
    · next p parsed =>
      cases table : p.st with
      | none =>
        rw [table] at processed
        cases processed
      | some st =>
        rw [table] at processed
        cases processed
        exact one

theorem procFile_fuel {cfg : Config} {fuel : Nat} {statics last : Statics} {src : Source}
    {made : Tokens × File} (processed : procFile cfg fuel statics src = .ok (last, some made)) :
    ∃ less, fuel = less + 1 := by
  cases fuel with
  | succ less => exact ⟨less, rfl⟩
  | zero =>
    simp only [procFile, scan] at processed
    cases content : src.content with
    | none =>
      rw [content] at processed
      cases processed
    | some file =>
      rw [content] at processed
      cases processed

/-- Files have no influence on those after them if and only if none leaves a comment open. -/
theorem noInfluence_iff (cfg : Config) (fuel : Nat) (srcs : List Source) :
    NoInfluence cfg fuel srcs ↔ CommentsClosed cfg fuel srcs := by
  constructor
  · intro separate earlier before_ statics made processed
    by_contra open_
    rw [Bool.not_eq_false] at open_
    obtain ⟨less, rfl⟩ : ∃ less, fuel = less + 1 := by
      cases earlier with
      | nil =>
        cases processed
        cases open_
      | cons src srcs =>
        obtain ⟨-, mid, file, rest, -, first, -⟩ := procFiles_cons.mp processed
        exact procFile_fuel first
    -- Behind an open comment a file that consists of one line has no tokens; alone it has one.
    obtain ⟨last, file, this, unseen⟩ := procFile_oneLine_open cfg less open_
    have whole := procFiles_append.mpr
      ⟨[], statics, made, file, processed, (by decide : warnFileExt oneLine.fn = .ok []), this, rfl⟩
    obtain ⟨prog, made_⟩ := makeProg_some.2 _ _ whole
    obtain ⟨statics', made', processed', -, alone⟩ := separate earlier before_ oneLine prog made_
    rw [whole] at processed'
    cases processed'
    -- The last of the files is the one that was put behind.
    have last_ := List.forall₂_drop earlier.length alone
    have lengths := alone.length_eq
    simp only [List.length_append, List.length_singleton, Nat.add_right_cancel_iff] at lengths
    rw [List.drop_left, lengths, List.drop_left] at last_
    obtain ⟨statics', fresh, processed', same⟩ := (List.forall₂_cons.mp last_).1
    have one := procFile_oneLine_fresh cfg processed'
    have views := congrArg List.length same.tokens
    simp only [List.length_map, one, unseen] at views
    cases views
  · intro closed earlier before_ next prog made_
    obtain ⟨statics, made, processed, files⟩ := makeProg_some.1 prog made_
    exact ⟨statics, made, processed, files, procFiles_alone closed before_ processed⟩

theorem comment_leaks :
    ¬Separate .unitTests 2 [{ fn := "a.vm", content := some (ascii "//\n") },
      { fn := "b.vm", content := some (ascii "add\n") }] := by
  intro separate
  let srcs : List Source := [{ fn := "a.vm", content := some (ascii "//\n") },
    { fn := "b.vm", content := some (ascii "add\n") }]
  have sizes : (procFiles .unitTests 2 Statics.init srcs).toOption.map
      (fun result => result.2.map fun made => made.map fun file => file.1.cell.length) =
      some (some [0, 0]) := by
    decide +kernel
  have single : (procFile .unitTests 2 Statics.init { fn := "b.vm", content := some (ascii "add\n") }).toOption.map
      (fun result => result.2.map fun file => file.1.cell.length) = some (some 1) := by
    decide +kernel
  cases run : procFiles .unitTests 2 Statics.init srcs with
  | error fault => simp [run, Except.toOption] at sizes
  | ok result =>
    obtain ⟨statics, _ | made⟩ := result
    · simp [run, Except.toOption] at sizes
    · obtain ⟨prog, made_⟩ := makeProg_some.2 _ _ run
      obtain ⟨statics', made', run', -, alone⟩ := separate prog made_
      rw [run] at run'
      cases run'
      -- Compiled alone the second file would have a token.
      obtain ⟨first, rest, -, second, rfl⟩ := List.forall₂_cons_left_iff.mp alone
      obtain ⟨file, none_, ⟨last, fresh, processed, same⟩, -, rfl⟩ := List.forall₂_cons_left_iff.mp second
      simp only [run, Except.toOption, Option.map_some, List.map_cons, Option.some.injEq, List.cons.injEq] at sizes
      simp only [processed, Except.toOption, Option.map_some, Option.some.injEq] at single
      have views := congrArg List.length same.tokens
      simp only [List.length_map, single, sizes.2.1] at views
      cases views

end Hvme
