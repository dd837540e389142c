import Hvme.Scanner.Appending

set_option autoImplicit false

namespace Hvme

def Round.pending (round : Round) : List Byte := round.blk.take round.bytesCopied ++ round.file

def Round.block (cfg : Config) (round : Round) : List Byte :=
  round.blk.take round.bytesCopied ++ round.file.take (cfg.scanBlockSize - round.bytesCopied)

def Round.later (cfg : Config) (round : Round) : List Byte :=
  round.file.drop (cfg.scanBlockSize - round.bytesCopied)

structure Round.Valid (cfg : Config) (round : Round) : Prop where
  length_eq : round.blk.length = cfg.scanBlockSize
  copied_le : round.bytesCopied ≤ cfg.scanBlockSize

theorem Round.init_valid (cfg : Config) (sc : Scanner) (file : List Byte) :
    (Round.init cfg sc file).Valid cfg :=
  ⟨by simp [Round.init], Nat.zero_le _⟩

theorem memcpy_length (dest : List Byte) (at_ : Nat) (src : List Byte) (fits : at_ + src.length ≤ dest.length) :
    (memcpy dest at_ src).length = dest.length := by
  simp only [memcpy, List.length_append, List.length_take, List.length_drop]
  omega

theorem memcpy_take (dest : List Byte) (at_ : Nat) (src : List Byte) (fits : at_ + src.length ≤ dest.length) :
    (memcpy dest at_ src).take (at_ + src.length) = dest.take at_ ++ src := by
  have front : (dest.take at_ ++ src).length = at_ + src.length := by
    rw [List.length_append, List.length_take]
    omega
  rw [memcpy, ← front, List.take_left]

section round

variable {cfg : Config} {round : Round}

theorem Round.Valid.block_length (valid : round.Valid cfg) :
    (round.block cfg).length = min cfg.scanBlockSize (round.bytesCopied + round.file.length) := by
  have := valid.length_eq
  have := valid.copied_le
  simp only [Round.block, List.length_append, List.length_take]
  omega

theorem Round.block_later : round.block cfg ++ round.later cfg = round.pending := by
  rw [Round.block, Round.later, List.append_assoc, List.take_append_drop]
  rfl

theorem Round.Valid.blk_take (valid : round.Valid cfg) :
    (memcpy round.blk round.bytesCopied (round.file.take (cfg.scanBlockSize - round.bytesCopied))).take
      ((round.file.take (cfg.scanBlockSize - round.bytesCopied)).length + round.bytesCopied) =
      round.block cfg := by
  have := valid.length_eq
  have := valid.copied_le
  rw [Nat.add_comm, memcpy_take _ _ _ (by rw [List.length_take]; omega)]
  rfl

theorem scanRound_full (valid : round.Valid cfg)
    (full : cfg.scanBlockSize ≤ round.bytesCopied + round.file.length) :
    match numTrailing (lex round.sc.mark (round.block cfg)).rest with
    | none => ∃ sc diag, scanRound cfg round = .err sc diag
    | some _ => ∃ next, scanRound cfg round = .again next ∧ next.Valid cfg ∧
        round.sc.Reads (lex round.sc.mark (round.block cfg)).out (lex round.sc.mark (round.block cfg)).mark next.sc ∧
        next.blk.take next.bytesCopied = (lex round.sc.mark (round.block cfg)).rest ∧
        next.file = round.later cfg := by
  have length_eq := valid.length_eq
  have copied_le := valid.copied_le
  have chunk : (round.file.take (cfg.scanBlockSize - round.bytesCopied)).length + round.bytesCopied =
      cfg.scanBlockSize := by
    rw [List.length_take]
    omega
  have block := valid.blk_take
  have block_length := valid.block_length
  rw [chunk] at block
  -- The carried bytes and the chunk fill the buffer, so nothing stale is left in it.
  have whole : memcpy round.blk round.bytesCopied
      (round.file.take (cfg.scanBlockSize - round.bytesCopied)) = round.block cfg := by
    have size := memcpy_length round.blk round.bytesCopied
      (round.file.take (cfg.scanBlockSize - round.bytesCopied)) (by omega)
    exact (List.take_of_length_le (by omega)).symm.trans block
  have reads := scanBlk_reads round.sc (round.block cfg)
  have suffix := lex_suffix round.sc.mark (round.block cfg)
  simp only [scanRound, chunk, whole, lt_irrefl, false_and, and_false, decide_false, Bool.false_eq_true,
    if_false, if_true]
  rw [List.take_of_length_le (by omega)]
  rw [numTrailing_eq] at reads ⊢
  cases blank : (lex round.sc.mark (round.block cfg)).rest.any isspace with
  | true =>
    simp only [blank, if_true] at reads ⊢
    obtain ⟨sc, diag, scanned, -⟩ := reads
    rw [scanned]
    exact ⟨sc, diag, rfl⟩
  | false =>
    simp only [blank, Bool.false_eq_true, if_false] at reads ⊢
    obtain ⟨sc, scanned, seen⟩ := reads
    rw [scanned]
    generalize (lex round.sc.mark (round.block cfg)).rest = rest at suffix
    have rest_le := suffix.length_le
    -- What is copied to the front is the part of the block that the tokenizer left.
    have tail : ((round.block cfg).drop (cfg.scanBlockSize - rest.length)).take rest.length = rest := by
      have same := List.suffix_iff_eq_drop.mp suffix
      rw [show (round.block cfg).length = cfg.scanBlockSize by omega] at same
      rw [← same, List.take_length]
    simp only [tail]
    refine ⟨_, rfl, ⟨?_, by simp only; omega⟩, seen, ?_, rfl⟩
    · simp only
      split
      · rw [memcpy_length _ _ _ (by omega)]
        omega
      · omega
    · simp only
      split
      · have front := memcpy_take (round.block cfg) 0 rest (by omega)
        rwa [Nat.zero_add, List.take_zero, List.nil_append] at front
      · next empty =>
        rw [List.length_eq_zero_iff.mp (Nat.eq_zero_of_not_pos empty)]
        rfl

theorem take_set_succ (bytes : List Byte) {idx : Nat} (inside : idx < bytes.length) (b : Byte) :
    (bytes.set idx b).take (idx + 1) = bytes.take idx ++ [b] := by
  rw [List.take_add_one, List.take_set_of_le le_rfl, List.getElem?_set_self inside]
  rfl

def withNewline (bytes : List Byte) : List Byte :=
  if bytes = [] ∨ bytes.getLast? = some newline then bytes else bytes ++ [newline]

theorem finishes (sc : Scanner) {bytes : List Byte} {result : RoundResult}
    (mark : sc.mark = round.sc.mark) (views : sc.views = round.sc.views)
    (filename : sc.tokens.filename = round.sc.tokens.filename)
    (stuck : ∀ last diag, scanBlk sc bytes = .err last diag → result = .err last diag)
    (ended : ∀ last res, scanBlk sc bytes = .trailing last res → result = .ok last) :
    match numTrailing (lex round.sc.mark bytes).rest with
    | none => ∃ sc diag, result = .err sc diag
    | some _ => ∃ sc, result = .ok sc ∧
        round.sc.Reads (lex round.sc.mark bytes).out (lex round.sc.mark bytes).mark sc := by
  have reads := scanBlk_reads sc bytes
  rw [mark, numTrailing_eq] at reads
  rw [numTrailing_eq]
  cases blank : (lex round.sc.mark bytes).rest.any isspace with
  | true =>
    simp only [blank, if_true] at reads ⊢
    obtain ⟨sc', diag, same, -⟩ := reads
    exact ⟨sc', diag, stuck sc' diag same⟩
  | false =>
    simp only [blank, Bool.false_eq_true, if_false] at reads ⊢
    obtain ⟨sc', same, seen⟩ := reads
    exact ⟨sc', ended sc' _ same, by rw [seen.views, views], seen.mark, seen.filename.trans filename⟩

theorem scanRound_last (valid : round.Valid cfg)
    (short : round.bytesCopied + round.file.length < cfg.scanBlockSize) :
    match numTrailing (lex round.sc.mark (withNewline round.pending)).rest with
    | none => ∃ sc diag, scanRound cfg round = .err sc diag
    | some _ => ∃ sc, scanRound cfg round = .ok sc ∧
        round.sc.Reads (lex round.sc.mark (withNewline round.pending)).out
          (lex round.sc.mark (withNewline round.pending)).mark sc := by
  have length_eq := valid.length_eq
  have chunk : round.file.take (cfg.scanBlockSize - round.bytesCopied) = round.file :=
    List.take_of_length_le (by omega)
  have block := valid.blk_take
  have pending_length : round.pending.length = round.bytesCopied + round.file.length := by
    simp only [Round.pending, List.length_append, List.length_take]
    omega
  have same : round.block cfg = round.pending := by
    rw [Round.block, chunk]
    rfl
  rw [chunk, same] at block
  have size := memcpy_length round.blk round.bytesCopied round.file (by omega)
  let unended := ¬(round.pending = [] ∨ round.pending.getLast? = some newline)
  -- The test of the source for a missing last newline, against the bytes that are really pending.
  have added : (0 < round.file.length + round.bytesCopied ∧
      round.file.length + round.bytesCopied < cfg.scanBlockSize ∧
      (memcpy round.blk round.bytesCopied round.file)[round.file.length + round.bytesCopied - 1]? ≠
        some newline) ↔ unended := by
    simp only [unended]
    rw [← block, List.getLast?_eq_getElem?, ← List.length_eq_zero_iff, block, pending_length]
    by_cases nothing : round.bytesCopied + round.file.length = 0
    · simp [nothing, Nat.add_comm]
    · rw [← block, List.getElem?_take, if_pos (by omega), Nat.add_comm round.file.length]
      simp only [nothing, false_or, ne_eq, and_iff_right short]
      exact and_iff_right (Nat.pos_of_ne_zero nothing)
  have short' : round.file.length + round.bytesCopied ≠ cfg.scanBlockSize := by omega
  by_cases missing : unended
  · have bytes : ((memcpy round.blk round.bytesCopied round.file).set
        (round.file.length + round.bytesCopied) newline).take (round.file.length + round.bytesCopied + 1) =
        withNewline round.pending := by
      rw [withNewline, if_neg missing, take_set_succ _ (by omega), block]
    have flag := decide_eq_true (added.mpr missing)
    refine finishes { round.sc with warnings := round.sc.warnings ++ [.eofNl] } rfl rfl rfl ?_ ?_ <;>
      intro last _ scanned <;>
      simp only [scanRound, chunk, flag, if_true, bytes, scanned, if_neg short']
  · have bytes : (memcpy round.blk round.bytesCopied round.file).take
        (round.file.length + round.bytesCopied) = withNewline round.pending := by
      rw [withNewline, if_pos (not_not.mp missing), block]
    have flag := decide_eq_false (mt added.mp missing)
    refine finishes round.sc rfl rfl rfl ?_ ?_ <;>
      intro last _ scanned <;>
      simp only [scanRound, chunk, flag, Bool.false_eq_true, if_false, bytes, scanned, if_neg short']

theorem full_of_again (valid : round.Valid cfg) {next : Round} (again : scanRound cfg round = .again next) :
    cfg.scanBlockSize ≤ round.bytesCopied + round.file.length := by
  by_contra short
  have scanned := scanRound_last valid (Nat.lt_of_not_le short)
  rw [again] at scanned
  split at scanned
  · obtain ⟨_, _, failed⟩ := scanned
    cases failed
  · obtain ⟨_, ended, -⟩ := scanned
    cases ended

theorem short_of_ok (valid : round.Valid cfg) {sc : Scanner} (ended : scanRound cfg round = .ok sc) :
    round.bytesCopied + round.file.length < cfg.scanBlockSize := by
  by_contra full
  have scanned := scanRound_full valid (Nat.le_of_not_lt full)
  rw [ended] at scanned
  split at scanned
  · obtain ⟨_, _, failed⟩ := scanned
    cases failed
  · obtain ⟨_, again, -⟩ := scanned
    cases again

end round

/-- The block's end does not separate the slashes of a comment from the end of their line. -/
def Round.Unsplit (cfg : Config) (round : Round) : Prop :=
  (lex round.sc.mark (round.block cfg)).opened = true → Resumes (round.later cfg)

/-- No end of a block separates the slashes of a comment from the end of their line. -/
def CommentsUnsplit (cfg : Config) (sc : Scanner) (content : List Byte) : Prop :=
  ∀ round, Relation.ReflTransGen (fun round next => scanRound cfg round = .again next)
    (Round.init cfg sc content) round → round.Unsplit cfg

def Agrees (tokens : Option (List View)) (res : ScanResult) (views views' : List View) : Prop :=
  match tokens with
  | none => ∃ diag, res = .err diag
  | some out => res = .ok ∧ views' = views ++ out

def Completes (bytes added : List Byte) : Prop :=
  added = [] ∧ (bytes = [] ∨ bytes.getLast? = some newline) ∨
    added = [newline] ∧ bytes.getLast? ≠ some newline

theorem completes_withNewline (bytes : List Byte) :
    ∃ added, Completes bytes added ∧ withNewline bytes = bytes ++ added := by
  unfold withNewline
  split
  · next ended => exact ⟨[], .inl ⟨rfl, ended⟩, by simp⟩
  · next unended => exact ⟨[newline], .inr ⟨rfl, fun last => unended (.inr last)⟩, rfl⟩

theorem lex_newline_tokens (mark : Mark) : (lex mark [newline]).tokens = some [] := by
  obtain ⟨inside, cur⟩ := mark
  cases inside with
  | true =>
    rw [lex_inside_newline]
    simp [Lexed.tokens]
  | false =>
    rw [← lex_eatWs]
    simp [eatWs, newline_space, Lexed.tokens]

theorem Completes.lex_tokens {bytes added : List Byte} (completes : Completes bytes added) (mark : Mark) :
    (lex mark (withNewline bytes)).tokens = (lex mark (bytes ++ added)).tokens := by
  rcases completes with ⟨rfl, ended⟩ | ⟨rfl, unended⟩
  · rw [withNewline, if_pos ended, List.append_nil]
  · by_cases nothing : bytes = []
    · subst nothing
      rw [List.nil_append, lex_newline_tokens]
      simp [withNewline, Lexed.tokens]
    · rw [withNewline, if_neg (by simp [nothing, unended])]

theorem Completes.carry {block later rest added : List Byte} (completes : Completes (block ++ later) added)
    (suffix : rest <:+ block) (clear : rest.any isspace = false) : Completes (rest ++ later) added := by
  by_cases nothing : later = []
  · subst nothing
    rw [List.append_nil] at completes ⊢
    have last : rest.getLast? ≠ some newline := by
      intro last
      have space : rest.any isspace = true :=
        List.any_eq_true.mpr ⟨newline, List.mem_of_getLast? last, newline_space⟩
      rw [clear] at space
      cases space
    rcases completes with ⟨rfl, ended⟩ | ⟨rfl, -⟩
    · refine .inl ⟨rfl, .inl ?_⟩
      by_contra some_
      obtain ⟨front, rfl⟩ := suffix
      rw [List.getLast?_append_of_ne_nil _ some_] at ended
      rcases ended with none_ | same
      · exact some_ (List.append_eq_nil_iff.mp none_).2
      · exact last same
    · exact .inr ⟨rfl, last⟩
  · unfold Completes at completes ⊢
    rw [List.getLast?_append_of_ne_nil _ nothing] at completes ⊢
    simpa [nothing] using completes

theorem Completes.resumes {bytes later added : List Byte} (completes : Completes bytes added)
    (resumes : Resumes later) : Resumes (later ++ added) := by
  rcases completes with ⟨rfl, -⟩ | ⟨rfl, -⟩
  · rwa [List.append_nil]
  · exact resumes.append_newline

theorem Agrees.prepend {tokens : Option (List View)} {res : ScanResult} {views out views' : List View}
    (agrees : Agrees tokens res (views ++ out) views') :
    Agrees (tokens.map (out ++ ·)) res views views' := by
  cases tokens with
  | none => exact agrees
  | some tokens => exact ⟨agrees.1, agrees.2.trans (List.append_assoc _ _ _)⟩

theorem scanRounds_agrees (cfg : Config) (fuel : Nat) {round : Round} (valid : round.Valid cfg)
    (unsplit : ∀ later, Relation.ReflTransGen (fun round next => scanRound cfg round = .again next)
      round later → later.Unsplit cfg)
    {added : List Byte} (completes : Completes round.pending added) {res : ScanResult} {sc : Scanner}
    (returns : scanRounds cfg fuel round = .ok (res, sc)) :
    Agrees (lex round.sc.mark (round.pending ++ added)).tokens res round.sc.views sc.views := by
  induction fuel generalizing round with
  | zero => cases returns
  | succ fuel ih =>
    rw [scanRounds] at returns
    by_cases full : cfg.scanBlockSize ≤ round.bytesCopied + round.file.length
    · have whole := lex_append round.sc.mark (round.block cfg) (round.later cfg ++ added)
      have split_ : round.pending ++ added = round.block cfg ++ (round.later cfg ++ added) := by
        rw [← Round.block_later, List.append_assoc]
      have scanned := scanRound_full valid full
      rw [numTrailing_eq] at scanned
      rw [split_, whole]
      cases blank : (lex round.sc.mark (round.block cfg)).rest.any isspace with
      | true =>
        simp only [blank, if_true] at scanned ⊢
        obtain ⟨sc', diag, failed⟩ := scanned
        rw [failed] at returns
        cases returns
        exact ⟨_, rfl⟩
      | false =>
        simp only [blank, Bool.false_eq_true, if_false] at scanned ⊢
        obtain ⟨next, again, next_valid, seen, carried, file⟩ := scanned
        rw [again] at returns
        have pending : next.pending = (lex round.sc.mark (round.block cfg)).rest ++ round.later cfg := by
          rw [Round.pending, carried, file]
        have next_completes : Completes next.pending added := by
          rw [pending]
          refine Completes.carry ?_ (lex_suffix _ _) blank
          rwa [Round.block_later]
        have later := ih next_valid (fun last reached => unsplit last (.head again reached)) next_completes returns
        have resumed : ((lex round.sc.mark (round.block cfg)).resume (round.later cfg ++ added)).tokens =
            (lex next.sc.mark (next.pending ++ added)).tokens := by
          rw [seen.mark, pending, Lexed.resume]
          split
          · next opened =>
            -- The block ends in the blanks behind a comment's slashes: this is where it matters
            -- that the comment is not split.
            obtain ⟨nothing, inside⟩ := lex_opened opened
            have resumes := (completes.resumes (unsplit round .refl opened)).lex_eq
              (lex round.sc.mark (round.block cfg)).mark.cur
            rw [nothing, List.nil_append]
            rw [← inside] at resumes
            exact resumes.symm
          · rw [List.append_assoc]
        rw [resumed]
        rw [seen.views] at later
        exact later.prepend
    · have scanned := scanRound_last valid (Nat.lt_of_not_le full)
      rw [← completes.lex_tokens]
      rw [numTrailing_eq] at scanned
      unfold Lexed.tokens
      cases blank : (lex round.sc.mark (withNewline round.pending)).rest.any isspace with
      | true =>
        simp only [blank, if_true] at scanned ⊢
        obtain ⟨sc', diag, failed⟩ := scanned
        rw [failed] at returns
        cases returns
        exact ⟨_, rfl⟩
      | false =>
        simp only [blank, Bool.false_eq_true, if_false] at scanned ⊢
        obtain ⟨sc', finished, seen⟩ := scanned
        rw [finished] at returns
        cases returns
        exact ⟨rfl, seen.views⟩

/-- `scan` reads a file as one call of `scan_blk` reads its content. -/
def BlockIndependent (cfg : Config) (sc : Scanner) (content : List Byte) : Prop :=
  ∀ fuel res sc', scan cfg fuel sc (some content) = .ok (res, sc') →
    (res = .ok ↔ ∃ whole count, scanBlk sc (withNewline content) = .trailing whole count) ∧
    (res = .ok → ∀ whole count, scanBlk sc (withNewline content) = .trailing whole count →
      sc'.views = whole.views)

theorem blockIndependent_of_unsplit (cfg : Config) (sc : Scanner) (content : List Byte)
    (unsplit : CommentsUnsplit cfg sc content) : BlockIndependent cfg sc content := by
  intro fuel res sc' returns
  obtain ⟨added, completes, ended⟩ := completes_withNewline content
  have agrees := scanRounds_agrees cfg fuel (Round.init_valid cfg sc content) unsplit
    (show Completes (Round.init cfg sc content).pending added from completes) returns
  rw [show (Round.init cfg sc content).pending = content from rfl, ← ended] at agrees
  have reads := scanBlk_reads sc (withNewline content)
  rw [numTrailing_eq] at reads
  simp only [Round.init, Lexed.tokens] at agrees
  cases blank : (lex sc.mark (withNewline content)).rest.any isspace with
  | true =>
    simp only [blank, if_true] at reads agrees
    obtain ⟨whole, diag, failed, -⟩ := reads
    obtain ⟨diag', rfl⟩ := agrees
    simp [failed]
  | false =>
    simp only [blank, Bool.false_eq_true, if_false] at reads agrees
    obtain ⟨whole, succeeded, seen⟩ := reads
    obtain ⟨rfl, views⟩ := agrees
    rw [succeeded]
    refine ⟨⟨fun _ => ⟨_, _, rfl⟩, fun _ => rfl⟩, ?_⟩
    rintro - whole' count same
    cases same
    rw [views, seen.views]

theorem Round.Valid.unsplit_of_short {cfg : Config} {round : Round} (valid : round.Valid cfg)
    (short : round.bytesCopied + round.file.length < cfg.scanBlockSize) :
    ∀ later, Relation.ReflTransGen (fun round next => scanRound cfg round = .again next) round later →
      later.Unsplit cfg := by
  intro later reached
  rcases Relation.ReflTransGen.cases_head reached with rfl | ⟨next, again, -⟩
  · intro _
    refine .nothing _ ?_
    rw [Round.later, List.drop_eq_nil_of_le (by omega)]
    rfl
  · exact absurd (full_of_again valid again) (Nat.not_le_of_lt short)

theorem commentsUnsplit_of_short {cfg : Config} (sc : Scanner) {content : List Byte}
    (short : content.length < cfg.scanBlockSize) : CommentsUnsplit cfg sc content :=
  (Round.init_valid cfg sc content).unsplit_of_short (by simpa [Round.init] using short)

/-- The first block of 24 bytes ends in the comment. -/
theorem blockIndependent_comment :
    BlockIndependent .unitTests { tokens := newTokens none, statics := Statics.init, warnings := [] }
      (ascii "push constant 7 // seven\nadd\n") := by
  let sc : Scanner := { tokens := newTokens none, statics := Statics.init, warnings := [] }
  let round := Round.init .unitTests sc (ascii "push constant 7 // seven\nadd\n")
  have valid : round.Valid .unitTests := Round.init_valid _ _ _
  have closed : (lex round.sc.mark (round.block .unitTests)).opened = false := by decide +kernel
  have left : (lex round.sc.mark (round.block .unitTests)).rest = [] := by decide +kernel
  refine blockIndependent_of_unsplit .unitTests sc _ fun later reached => ?_
  rcases Relation.ReflTransGen.cases_head reached with rfl | ⟨next, again, reached⟩
  · intro opened
    exact absurd (closed.symm.trans opened) Bool.false_ne_true
  · have scanned := scanRound_full valid (by decide)
    rw [left] at scanned
    obtain ⟨next', again', next_valid, -, carried, file⟩ := scanned
    cases again.symm.trans again'
    refine next_valid.unsplit_of_short ?_ later reached
    have size : Config.unitTests.scanBlockSize = 24 := rfl
    have file_length : (round.later .unitTests).length = 5 := rfl
    have length_eq := next_valid.length_eq
    have copied := congrArg List.length carried
    rw [List.length_take, List.length_nil] at copied
    rw [file, file_length]
    omega

/-- The first block of 24 bytes ends with the slashes of a comment without text: `scan` reads
the next line, which `scan_blk` takes for the comment. -/
theorem split_comment_differs :
    ¬BlockIndependent .unitTests { tokens := newTokens none, statics := Statics.init, warnings := [] }
      (ascii "add sub add sub add s //\nadd\n") := by
  intro independent
  let sc : Scanner := { tokens := newTokens none, statics := Statics.init, warnings := [] }
  let content := ascii "add sub add sub add s //\nadd\n"
  have scanned : (scan .unitTests 3 sc (some content)).toOption.map
      (fun result => (result.1, result.2.tokens.cell.length)) = some (.ok, 7) := by
    decide +kernel
  have single : (match scanBlk sc (withNewline content) with
      | .trailing whole _ => some whole.tokens.cell.length
      | .err _ _ => none) = some 6 := by
    decide +kernel
  cases run : scan .unitTests 3 sc (some content) with
  | error fault => simp [run, Except.toOption] at scanned
  | ok result =>
    obtain ⟨res, sc'⟩ := result
    simp only [run, Except.toOption, Option.map_some, Option.some.injEq, Prod.mk.injEq] at scanned
    cases block : scanBlk sc (withNewline content) with
    | err _ _ => simp [block] at single
    | trailing whole count =>
      simp only [block, Option.some.injEq] at single
      have views := (independent 3 res sc' run).2 scanned.1 whole count block
      have lengths := congrArg List.length views
      simp only [Scanner.views, List.length_map, scanned.2, single] at lengths
      omega

end Hvme
