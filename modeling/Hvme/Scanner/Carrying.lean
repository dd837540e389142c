import Hvme.Scanner.Passage

set_option autoImplicit false

namespace Hvme

def Round.Steps (cfg : Config) (round next : Round) : Prop := scanRound cfg round = .again next

def Round.Reached (cfg : Config) (sc : Scanner) (content : List Byte) (round : Round) : Prop :=
  Relation.ReflTransGen (Round.Steps cfg) (Round.init cfg sc content) round

/-- Outside of a comment, a block is full of bytes that are no blanks, and no match function
completes on them. -/
structure Round.Jammed (cfg : Config) (round : Round) : Prop where
  outside : round.sc.statics.insideComment = false
  full : cfg.scanBlockSize ≤ round.bytesCopied + round.file.length
  blankless : ∀ b ∈ round.block cfg, isspace b = false
  missed : firstMatch matchFns 0 (round.block cfg) = none

theorem numTrailing_some {rest : List Byte} (blankless : rest.any isspace = false) :
    numTrailing rest = some rest.length := by
  rw [numTrailing, blankless]
  rfl

section round

variable {cfg : Config} {round next : Round}

theorem Round.Steps.carried (valid : round.Valid cfg) (step : round.Steps cfg next) :
    next.Valid cfg ∧ next.sc.mark = (lex round.sc.mark (round.block cfg)).mark ∧
      (lex round.sc.mark (round.block cfg)).rest.any isspace = false ∧
      next.blk.take next.bytesCopied = (lex round.sc.mark (round.block cfg)).rest ∧
      next.bytesCopied = (lex round.sc.mark (round.block cfg)).rest.length ∧
      next.file = round.later cfg := by
  have scanned := scanRound_full valid (full_of_again valid step)
  rw [numTrailing_eq] at scanned
  cases blank : (lex round.sc.mark (round.block cfg)).rest.any isspace with
  | true =>
    simp only [blank, if_true] at scanned
    obtain ⟨_, _, failed⟩ := scanned
    rw [show scanRound cfg round = .again next from step] at failed
    cases failed
  | false =>
    simp only [blank, Bool.false_eq_true, if_false] at scanned
    obtain ⟨next', again, next_valid, seen, carried, file⟩ := scanned
    rw [show scanRound cfg round = .again next from step] at again
    cases again
    have length_eq := next_valid.length_eq
    have copied_le := next_valid.copied_le
    have count := congrArg List.length carried
    rw [List.length_take] at count
    exact ⟨next_valid, seen.mark, rfl, carried, by omega, file⟩

theorem lex_stuck_of_missed (mark : Mark) {bytes : List Byte} (nonempty : bytes ≠ [])
    (outside : mark.inside = false) (blankless : ∀ b ∈ bytes, isspace b = false)
    (missed : firstMatch matchFns 0 bytes = none) :
    (lex mark bytes).rest = bytes ∧ (lex mark bytes).mark.inside = false := by
  have start : (eatWs bytes mark.cur).1 = bytes := by
    rw [eatWs_rest]
    cases bytes with
    | nil => rfl
    | cons first more => rw [List.dropWhile_cons_of_neg (by simp [blankless first])]
  have step : lexStep mark bytes = .stuck { mark with cur := (eatWs bytes mark.cur).2 } bytes := by
    simp only [lexStep, outside, Bool.false_eq_true, if_false, start, missed]
  rw [lex_stuck nonempty step]
  exact ⟨rfl, outside⟩

theorem missed_of_lex_rest {mark : Mark} {bytes : List Byte} (nonempty : bytes ≠ [])
    (whole : (lex mark bytes).rest = bytes) :
    mark.inside = false ∧ firstMatch matchFns 0 (bytes.dropWhile isspace) = none := by
  cases step : lexStep mark bytes with
  | next next out rest =>
    have shorter := lexStep_shorter nonempty step
    have suffix := (lex_suffix next rest).length_le
    rw [lex_next nonempty step] at whole
    have same := congrArg List.length whole
    simp only [Lexed.after] at same
    omega
  | stuck next rest =>
    obtain ⟨outside, rfl, missed, -⟩ := lexStep_stuck step nonempty
    exact ⟨outside, missed⟩

theorem Round.Jammed.steps (valid : round.Valid cfg) (jammed : round.Jammed cfg) :
    ∃ next, round.Steps cfg next ∧ next.Valid cfg ∧ next.Jammed cfg := by
  have size := cfg.maxTokenLen_le
  have block_length := valid.block_length
  have full := jammed.full
  rw [Nat.min_eq_left full] at block_length
  have nonempty : round.block cfg ≠ [] := by
    rw [← List.length_pos_iff, block_length]
    exact Nat.lt_of_lt_of_le (by decide) size
  obtain ⟨left, outside⟩ := lex_stuck_of_missed round.sc.mark nonempty jammed.outside
    jammed.blankless jammed.missed
  have trailing : numTrailing (round.block cfg) = some (round.block cfg).length :=
    numTrailing_some (List.any_eq_false.mpr fun b member => by simp [jammed.blankless b member])
  have scanned := scanRound_full valid full
  rw [left, trailing] at scanned
  obtain ⟨next, again, next_valid, seen, carried, -⟩ := scanned
  have next_length := next_valid.length_eq
  have next_copied := next_valid.copied_le
  have count := congrArg List.length carried
  rw [List.length_take, block_length] at count
  -- The tokenizer left the whole block, so the next round has no room for a new byte.
  have filled : next.bytesCopied = cfg.scanBlockSize := by omega
  have same : next.block cfg = round.block cfg := by
    rw [Round.block, carried, filled, Nat.sub_self, List.take_zero, List.append_nil]
  refine ⟨next, again, next_valid, ?_, ?_, ?_, ?_⟩
  · rw [← outside, ← seen.mark]
    rfl
  · omega
  · rw [same]
    exact jammed.blankless
  · rw [same]
    exact jammed.missed

theorem Round.Steps.copied_lt (valid : round.Valid cfg) (step : round.Steps cfg next)
    (free : ¬round.Jammed cfg) : next.bytesCopied < cfg.scanBlockSize := by
  have size := cfg.maxTokenLen_le
  have full := full_of_again valid step
  have block_length := valid.block_length
  rw [Nat.min_eq_left full] at block_length
  obtain ⟨next_valid, -, blankless, -, count, -⟩ := step.carried valid
  have suffix := lex_suffix round.sc.mark (round.block cfg)
  by_contra filled
  have whole : (lex round.sc.mark (round.block cfg)).rest = round.block cfg :=
    suffix.eq_of_length (by have := suffix.length_le; omega)
  have nonempty : round.block cfg ≠ [] := by
    rw [← List.length_pos_iff, block_length]
    exact Nat.lt_of_lt_of_le (by decide) size
  rw [whole] at blankless
  have clear : ∀ b ∈ round.block cfg, isspace b = false := fun b member => by
    simpa using List.any_eq_false.mp blankless b member
  obtain ⟨outside, missed⟩ := missed_of_lex_rest nonempty whole
  have start : (round.block cfg).dropWhile isspace = round.block cfg := by
    cases bytes : round.block cfg with
    | nil => rfl
    | cons first more =>
      rw [List.dropWhile_cons_of_neg (by simp [clear first (bytes ▸ List.mem_cons_self)])]
  rw [start] at missed
  exact free ⟨outside, full, clear, missed⟩

end round

theorem scanRounds_diverges {cfg : Config} {round : Round} (valid : round.Valid cfg)
    (jammed : round.Jammed cfg) (fuel : Nat) : scanRounds cfg fuel round = .error .diverges := by
  induction fuel generalizing round with
  | zero => rfl
  | succ fuel ih =>
    obtain ⟨next, step, next_valid, next_jammed⟩ := jammed.steps valid
    rw [scanRounds, show scanRound cfg round = .again next from step]
    exact ih next_valid next_jammed

theorem scanRounds_of_steps {cfg : Config} {round next : Round} (step : round.Steps cfg next) (fuel : Nat) :
    scanRounds cfg (fuel + 1) round = scanRounds cfg fuel next := by
  rw [scanRounds, show scanRound cfg round = .again next from step]

theorem scanRounds_terminates {cfg : Config} (count : Nat) {round : Round} (valid : round.Valid cfg)
    (room : round.bytesCopied < cfg.scanBlockSize) (left : round.file.length ≤ count)
    (free : ∀ later, Relation.ReflTransGen (Round.Steps cfg) round later → ¬later.Jammed cfg) :
    ∃ fuel result, scanRounds cfg fuel round = .ok result := by
  induction count generalizing round with
  | zero =>
    cases scanned : scanRound cfg round with
    | ok sc => exact ⟨1, (.ok, sc), by rw [scanRounds, scanned]⟩
    | err sc diag => exact ⟨1, (.err (some diag), sc), by rw [scanRounds, scanned]⟩
    | again next =>
      have step : round.Steps cfg next := scanned
      have full := full_of_again valid step
      omega
  | succ count ih =>
    cases scanned : scanRound cfg round with
    | ok sc => exact ⟨1, (.ok, sc), by rw [scanRounds, scanned]⟩
    | err sc diag => exact ⟨1, (.err (some diag), sc), by rw [scanRounds, scanned]⟩
    | again next =>
      have step : round.Steps cfg next := scanned
      have full := full_of_again valid step
      obtain ⟨next_valid, -, -, -, -, file⟩ := step.carried valid
      have later : next.file.length = round.file.length - (cfg.scanBlockSize - round.bytesCopied) := by
        rw [file, Round.later, List.length_drop]
      obtain ⟨fuel, result, ended⟩ := ih next_valid (step.copied_lt valid (free round .refl)) (by omega)
        fun last reached => free last (.head step reached)
      exact ⟨fuel + 1, result, by rw [scanRounds_of_steps step, ended]⟩

/-- `scan` comes to an end, with `SCAN_OK` or with `SCAN_ERR`. -/
def ScanTerminates (cfg : Config) (sc : Scanner) (content : List Byte) : Prop :=
  ∃ fuel res sc', scan cfg fuel sc (some content) = .ok (res, sc')

theorem Round.Reached.valid {cfg : Config} {sc : Scanner} {content : List Byte} {round : Round}
    (reached : round.Reached cfg sc content) : round.Valid cfg := by
  induction reached with
  | refl => exact Round.init_valid cfg sc content
  | tail _ step ih => exact (step.carried ih).1

theorem scanRounds_diverges_before {cfg : Config} {round later : Round}
    (reached : Relation.ReflTransGen (Round.Steps cfg) round later) (valid : later.Valid cfg)
    (jammed : later.Jammed cfg) (fuel : Nat) : scanRounds cfg fuel round = .error .diverges := by
  induction reached using Relation.ReflTransGen.head_induction_on generalizing fuel with
  | refl => exact scanRounds_diverges valid jammed fuel
  | head step _ ih =>
    cases fuel with
    | zero => rfl
    | succ fuel =>
      rw [scanRounds_of_steps step]
      exact ih fuel

theorem diverges_of_jammed {cfg : Config} {sc : Scanner} {content : List Byte} {round : Round}
    (reached : round.Reached cfg sc content) (jammed : round.Jammed cfg) (fuel : Nat) :
    scan cfg fuel sc (some content) = .error .diverges :=
  scanRounds_diverges_before reached reached.valid jammed fuel

theorem scanTerminates_of_free {cfg : Config} {sc : Scanner} {content : List Byte}
    (free : ∀ round : Round, round.Reached cfg sc content → ¬round.Jammed cfg) :
    ScanTerminates cfg sc content := by
  have some_ : 0 < maxTokenLen := by decide
  obtain ⟨fuel, ⟨res, sc'⟩, ended⟩ := scanRounds_terminates content.length
    (Round.init_valid cfg sc content) (some_.trans_le cfg.maxTokenLen_le) le_rfl free
  exact ⟨fuel, res, sc', ended⟩

/-- `scan` ends exactly if no iteration begins with a full block it cannot read anything of. -/
theorem scanTerminates_iff (cfg : Config) (sc : Scanner) (content : List Byte) :
    ScanTerminates cfg sc content ↔
      ∀ round : Round, round.Reached cfg sc content → ¬round.Jammed cfg := by
  constructor
  · rintro ⟨fuel, res, sc', ended⟩ round reached jammed
    rw [diverges_of_jammed reached jammed] at ended
    cases ended
  · exact scanTerminates_of_free

theorem long_name_diverges : ¬ScanTerminates .unitTests
    { tokens := newTokens none, statics := Statics.init, warnings := [] }
    (ascii "aaaaaaaaaaaaaaaaaaaaaaaa\n") := by
  let sc : Scanner := { tokens := newTokens none, statics := Statics.init, warnings := [] }
  let round := Round.init .unitTests sc (ascii "aaaaaaaaaaaaaaaaaaaaaaaa\n")
  have clear : (round.block .unitTests).all (fun b => !isspace b) = true := by decide +kernel
  have missed : firstMatch matchFns 0 (round.block .unitTests) = none := by decide +kernel
  have jammed : round.Jammed .unitTests :=
    ⟨rfl, by decide, fun b member => by simpa using List.all_eq_true.mp clear b member, missed⟩
  rintro ⟨fuel, res, sc', ended⟩
  rw [diverges_of_jammed .refl jammed] at ended
  cases ended

theorem Round.Reached.pending {cfg : Config} {sc : Scanner} {content : List Byte} {round : Round}
    (reached : round.Reached cfg sc content) : round.pending <:+ content := by
  induction reached with
  | refl => exact List.suffix_refl _
  | tail before step ih =>
    rename_i round next
    obtain ⟨-, -, -, carried, -, file⟩ := step.carried (Round.Reached.valid before)
    have suffix := lex_suffix round.sc.mark (round.block cfg)
    obtain ⟨front, block⟩ := suffix
    have pending : round.pending = front ++ next.pending := by
      rw [← Round.block_later, ← block, List.append_assoc, ← carried, ← file]
      rfl
    exact (List.suffix_append front next.pending).trans (pending ▸ ih)

theorem commentsKept_of_texts {cfg : Config} (sc : Scanner) {content : List Byte}
    (texts : ∀ tail ∈ (content ++ [newline]).tails, ascii "//" <+: tail → newline ∉ (tail.drop 2).takeWhile isspace) :
    CommentsKept cfg sc content := by
  rintro round reached more opens ⟨line, -⟩
  obtain ⟨front, pending⟩ := Round.Reached.pending reached
  obtain ⟨back, whole⟩ := round.text_whole cfg
  obtain ⟨before_, text⟩ := opens.suffix
  have tail : ascii "//" ++ (more ++ back) ∈ (content ++ [newline]).tails := by
    rw [List.mem_tails, ← pending, List.append_assoc, ← whole, ← text]
    exact ⟨front ++ before_, by simp⟩
  refine texts _ tail (List.prefix_append _ _) ?_
  show newline ∈ (more ++ back).takeWhile isspace
  rw [List.takeWhile_append]
  split
  · exact List.mem_append_left _ ((List.takeWhile_prefix _).subset line)
  · exact line

theorem scanTerminates_of_words {cfg : Config} (sc : Scanner) {content : List Byte}
    (short : ∀ word, word <:+: content → (∀ b ∈ word, isspace b = false) →
      word.length < cfg.scanBlockSize) :
    ScanTerminates cfg sc content := by
  refine scanTerminates_of_free fun round reached jammed => ?_
  have block_length := reached.valid.block_length
  rw [Nat.min_eq_left jammed.full] at block_length
  have infix_ : round.block cfg <:+: content := by
    refine List.IsInfix.trans ?_ reached.pending.isInfix
    exact ⟨[], round.later cfg, by rw [List.nil_append, Round.block_later]⟩
  have := short _ infix_ jammed.blankless
  omega

def Round.origLen (cfg : Config) (round : Round) : Nat :=
  (round.file.take (cfg.scanBlockSize - round.bytesCopied)).length + round.bytesCopied

def Round.filled (cfg : Config) (round : Round) : List Byte :=
  memcpy round.blk round.bytesCopied (round.file.take (cfg.scanBlockSize - round.bytesCopied))

def Round.unended (cfg : Config) (round : Round) : Bool :=
  decide (0 < round.origLen cfg ∧ round.origLen cfg < cfg.scanBlockSize ∧
    (round.filled cfg)[round.origLen cfg - 1]? ≠ some newline)

def Round.buffer (cfg : Config) (round : Round) : List Byte :=
  if round.unended cfg then (round.filled cfg).set (round.origLen cfg) newline else round.filled cfg

def Round.input (cfg : Config) (round : Round) : List Byte :=
  (round.buffer cfg).take (if round.unended cfg then round.origLen cfg + 1 else round.origLen cfg)

def Round.entry (cfg : Config) (round : Round) : Scanner :=
  if round.unended cfg then { round.sc with warnings := round.sc.warnings ++ [.eofNl] } else round.sc

def Round.copied (cfg : Config) (round : Round) (res : Nat) : List Byte :=
  ((round.buffer cfg).drop (cfg.scanBlockSize - res)).take res

/-- The parts that the source's iteration consists of, under the names they are given here. -/
theorem scanRound_eq (cfg : Config) (round : Round) :
    scanRound cfg round =
      match scanBlk (round.entry cfg) (round.input cfg) with
      | .err sc diag => .err sc diag
      | .trailing sc res =>
        if round.origLen cfg = cfg.scanBlockSize then
          .again { sc := sc
                   blk := if res > 0 then memcpy (round.buffer cfg) 0 (round.copied cfg res)
                     else round.buffer cfg
                   bytesCopied := res
                   file := round.later cfg }
        else .ok sc := rfl

/-- Outside of a comment, the iterations of `scan_blk` come to bytes that are no blanks and on
which no match function completes. -/
inductive Scanner.Stalls : Scanner → List Byte → List Byte → Prop
  | here {sc : Scanner} {blk left : List Byte} (outside : sc.statics.insideComment = false)
      (start : (eatWs blk sc.tokens.cur).1 = left) (nonempty : left ≠ [])
      (blankless : ∀ b ∈ left, isspace b = false) (missed : firstMatch matchFns 0 left = none) :
      Stalls sc blk left
  | next {sc sc' : Scanner} {blk rest left : List Byte} (nonempty : blk ≠ [])
      (step : scanBlkStep sc blk = .next sc' rest) (later : Stalls sc' rest left) : Stalls sc blk left

theorem Scanner.Stalls.lex_rest {sc : Scanner} {blk left : List Byte} (stalls : sc.Stalls blk left) :
    (lex sc.mark blk).rest = left ∧ left ≠ [] ∧ left.any isspace = false := by
  induction stalls with
  | @here sc blk left outside start nonempty blankless missed =>
    have some_ : blk ≠ [] := by
      rintro rfl
      exact nonempty start.symm
    have step : lexStep sc.mark blk = .stuck { sc.mark with cur := (eatWs blk sc.mark.cur).2 } left := by
      simp only [lexStep, show sc.mark.inside = false from outside, Bool.false_eq_true, if_false,
        show (eatWs blk sc.mark.cur).1 = left from start, missed]
    rw [lex_stuck some_ step]
    exact ⟨rfl, nonempty, List.any_eq_false.mpr fun b member => by simp [blankless b member]⟩
  | @next sc sc' blk rest left nonempty step _ ih =>
    have reads := scanBlkStep_reads sc nonempty
    cases lexed : lexStep sc.mark blk with
    | stuck mark rest' =>
      rw [lexed] at reads
      obtain ⟨_, stepped, -⟩ := reads
      rw [step] at stepped
      cases stepped
    | next mark out rest' =>
      rw [lexed] at reads
      obtain ⟨_, stepped, seen⟩ := reads
      rw [step] at stepped
      cases stepped
      rw [lex_next nonempty lexed, ← seen.mark]
      exact ih

theorem stalls_of_lex_rest (sc : Scanner) (blk : List Byte) (nonempty : (lex sc.mark blk).rest ≠ [])
    (blankless : (lex sc.mark blk).rest.any isspace = false) : sc.Stalls blk (lex sc.mark blk).rest := by
  have some_ : blk ≠ [] := by
    rintro rfl
    exact nonempty (by simp)
  have reads := scanBlkStep_reads sc some_
  cases lexed : lexStep sc.mark blk with
  | stuck mark left =>
    obtain ⟨outside, rfl, missed, -⟩ := lexStep_stuck lexed some_
    rw [lex_stuck some_ lexed] at nonempty blankless ⊢
    exact .here outside (eatWs_rest _ _) nonempty (fun b member => by simpa using List.any_eq_false.mp blankless b member)
      missed
  | next mark out rest =>
    rw [lexed] at reads
    obtain ⟨sc', step, seen⟩ := reads
    have shorter := lexStep_shorter some_ lexed
    rw [lex_next some_ lexed, ← seen.mark] at nonempty blankless ⊢
    exact .next some_ step (stalls_of_lex_rest sc' rest nonempty blankless)
termination_by blk.length

theorem scanBlk_trailing_iff (sc : Scanner) (blk : List Byte) {count : Nat} (some_ : 0 < count) :
    (∃ sc', scanBlk sc blk = .trailing sc' count) ↔ ∃ left, sc.Stalls blk left ∧ left.length = count := by
  have reads := scanBlk_reads sc blk
  rw [numTrailing_eq] at reads
  constructor
  · rintro ⟨sc', scanned⟩
    cases blank : (lex sc.mark blk).rest.any isspace with
    | true =>
      simp only [blank, if_true] at reads
      obtain ⟨_, _, failed, -⟩ := reads
      rw [scanned] at failed
      cases failed
    | false =>
      simp only [blank, Bool.false_eq_true, if_false] at reads
      obtain ⟨_, same, -⟩ := reads
      rw [scanned] at same
      cases same
      exact ⟨_, stalls_of_lex_rest sc blk (List.length_pos_iff.mp some_) blank, rfl⟩
  · rintro ⟨left, stalls, rfl⟩
    obtain ⟨rest, -, blank⟩ := stalls.lex_rest
    simp only [rest, blank, Bool.false_eq_true, if_false] at reads
    obtain ⟨sc', scanned, -⟩ := reads
    exact ⟨sc', scanned⟩

section copy

variable {cfg : Config} {round : Round}

@[simp] theorem Round.entry_mark : (round.entry cfg).mark = round.sc.mark := by
  unfold Round.entry
  split <;> rfl

theorem Round.Valid.filled_length (valid : round.Valid cfg) :
    (round.filled cfg).length = cfg.scanBlockSize := by
  have length_eq := valid.length_eq
  have copied_le := valid.copied_le
  rw [Round.filled, memcpy_length _ _ _ (by rw [List.length_take]; omega), length_eq]

theorem Round.Valid.origLen_le (valid : round.Valid cfg) : round.origLen cfg ≤ cfg.scanBlockSize := by
  have copied_le := valid.copied_le
  rw [Round.origLen, List.length_take]
  omega

theorem Round.Valid.input_full (valid : round.Valid cfg) (full : round.origLen cfg = cfg.scanBlockSize) :
    round.buffer cfg = round.block cfg ∧ round.input cfg = round.block cfg ∧
      (round.block cfg).length = cfg.scanBlockSize := by
  have ended : round.unended cfg = false := by
    simp [Round.unended, full]
  have length := valid.filled_length
  have whole : round.filled cfg = round.block cfg := by
    have taken : (round.filled cfg).take (round.origLen cfg) = round.block cfg := valid.blk_take
    rwa [full, List.take_of_length_le length.le] at taken
  have buffer : round.buffer cfg = round.block cfg := by
    rw [Round.buffer, ended]
    exact whole
  refine ⟨buffer, ?_, whole ▸ length⟩
  rw [Round.input, ended, buffer]
  exact List.take_of_length_le (by rw [← whole, length, full]; exact le_rfl)

theorem Round.Valid.origLen_full (valid : round.Valid cfg)
    (full : cfg.scanBlockSize ≤ round.bytesCopied + round.file.length) : round.origLen cfg = cfg.scanBlockSize := by
  have copied_le := valid.copied_le
  rw [Round.origLen, List.length_take]
  omega

theorem Round.Jammed.stalls (jammed : round.Jammed cfg) (valid : round.Valid cfg) :
    (round.entry cfg).Stalls (round.input cfg) (round.block cfg) := by
  obtain ⟨-, input, length⟩ := valid.input_full (valid.origLen_full jammed.full)
  have nonempty : round.block cfg ≠ [] := by
    rw [← List.length_pos_iff, length]
    exact lt_of_lt_of_le (show 0 < maxTokenLen by decide) cfg.maxTokenLen_le
  have start : (eatWs (round.block cfg) (round.entry cfg).tokens.cur).1 = round.block cfg := by
    rw [eatWs_rest]
    cases block : round.block cfg with
    | nil => rfl
    | cons first more =>
      have clear := jammed.blankless first (by simp [block])
      rw [List.dropWhile_cons_of_neg (by simp [clear])]
  have outside : (round.entry cfg).statics.insideComment = false := by
    unfold Round.entry
    split <;> exact jammed.outside
  rw [input]
  exact .here outside start nonempty jammed.blankless jammed.missed

theorem Round.Valid.input_short (valid : round.Valid cfg) (short : round.origLen cfg ≠ cfg.scanBlockSize) :
    round.input cfg = [] ∨ (round.input cfg).getLast? = some newline := by
  have length := valid.filled_length
  have inside : round.origLen cfg < cfg.scanBlockSize := lt_of_le_of_ne valid.origLen_le short
  cases unended : round.unended cfg with
  | true =>
    refine .inr ?_
    rw [Round.input, Round.buffer, unended, if_pos rfl, if_pos rfl, take_set_succ _ (length ▸ inside)]
    exact List.getLast?_concat
  | false =>
    rw [Round.input, Round.buffer, unended]
    simp only [Bool.false_eq_true, if_false]
    simp only [Round.unended, inside, true_and, decide_eq_false_iff_not, not_and, not_not] at unended
    by_cases nothing : round.origLen cfg = 0
    · exact .inl (by rw [nothing, List.take_zero])
    · refine .inr ?_
      rw [List.getLast?_eq_getElem?, List.length_take, length, Nat.min_eq_left inside.le,
        List.getElem?_take_of_lt (by omega)]
      exact unended (Nat.pos_of_ne_zero nothing)

theorem Round.Valid.full_of_stalls (valid : round.Valid cfg) {left : List Byte}
    (stalls : (round.entry cfg).Stalls (round.input cfg) left) : round.origLen cfg = cfg.scanBlockSize := by
  obtain ⟨rest, nonempty, blankless⟩ := stalls.lex_rest
  obtain ⟨front, whole⟩ := lex_suffix (round.entry cfg).mark (round.input cfg)
  rw [rest] at whole
  by_contra short
  rcases valid.input_short short with nothing | last
  · exact nonempty (List.append_eq_nil_iff.mp (whole.trans nothing)).2
  · rw [← whole, List.getLast?_append_of_ne_nil _ nonempty] at last
    have blank := List.any_eq_true.mpr ⟨newline, List.mem_of_getLast? last, newline_space⟩
    rw [blankless] at blank
    cases blank

theorem Round.Valid.copied_of_stalls (valid : round.Valid cfg) {left : List Byte}
    (stalls : (round.entry cfg).Stalls (round.input cfg) left) :
    round.copied cfg left.length = (lex round.sc.mark (round.input cfg)).rest := by
  obtain ⟨buffer, input, length⟩ := valid.input_full (valid.full_of_stalls stalls)
  obtain ⟨rest, -, -⟩ := stalls.lex_rest
  rw [Round.entry_mark] at rest
  have suffix := lex_suffix round.sc.mark (round.input cfg)
  rw [rest] at suffix ⊢
  have same := List.suffix_iff_eq_drop.mp suffix
  rw [input, length] at same
  rw [Round.copied, buffer, ← same, List.take_length]

end copy

/-- `memcpy` may move `res` bytes: the buffer was filled, the bytes are those that `scan_blk` left
and the next block begins with them, and they do not overlap their destination. -/
structure Round.CarriesOver (cfg : Config) (round : Round) (res : Nat) : Prop where
  full : round.origLen cfg = cfg.scanBlockSize
  unscanned : round.copied cfg res = (lex round.sc.mark (round.input cfg)).rest
  moved : ∀ next : Round, round.Steps cfg next →
    next.bytesCopied = res ∧ next.blk.take res = round.copied cfg res
  apart : res ≤ cfg.scanBlockSize - res

def Round.CopiesValidly (cfg : Config) (round : Round) : Prop :=
  ∀ sc res, scanBlk (round.entry cfg) (round.input cfg) = .trailing sc res → 0 < res →
    round.CarriesOver cfg res

theorem Round.Valid.copies_iff {cfg : Config} {round : Round} (valid : round.Valid cfg) :
    round.CopiesValidly cfg ↔
      ∀ left, (round.entry cfg).Stalls (round.input cfg) left → 2 * left.length ≤ cfg.scanBlockSize := by
  constructor
  · intro copies left stalls
    have some_ := List.length_pos_iff.mpr stalls.lex_rest.2.1
    obtain ⟨sc, scanned⟩ := (scanBlk_trailing_iff _ _ some_).mpr ⟨left, stalls, rfl⟩
    have apart := (copies sc left.length scanned some_).apart
    omega
  · intro half sc res scanned some_
    obtain ⟨left, stalls, rfl⟩ := (scanBlk_trailing_iff _ _ some_).mp ⟨sc, scanned⟩
    have full := valid.full_of_stalls stalls
    have copied := valid.copied_of_stalls stalls
    refine ⟨full, copied, ?_, by have := half left stalls; omega⟩
    intro next step
    obtain ⟨-, -, -, carried, count, -⟩ := step.carried valid
    rw [← (valid.input_full full).2.1] at carried count
    obtain ⟨rest, -, -⟩ := stalls.lex_rest
    rw [Round.entry_mark] at rest
    rw [rest] at count
    exact ⟨count, (count ▸ carried).trans copied.symm⟩

theorem copiesValidly_iff (cfg : Config) (sc : Scanner) (content : List Byte) :
    (∀ round : Round, round.Reached cfg sc content → round.CopiesValidly cfg) ↔
      ∀ round : Round, round.Reached cfg sc content → ∀ left,
        (round.entry cfg).Stalls (round.input cfg) left → 2 * left.length ≤ cfg.scanBlockSize :=
  forall_congr' fun _ => forall_congr' fun reached => reached.valid.copies_iff

theorem long_name_overlaps :
    ¬∀ round : Round, round.Reached .unitTests
        { tokens := newTokens none, statics := Statics.init, warnings := [] }
        (ascii "function Main.fibonacci2 0\n") → round.CopiesValidly .unitTests := by
  intro copies
  let sc : Scanner := { tokens := newTokens none, statics := Statics.init, warnings := [] }
  let round := Round.init .unitTests sc (ascii "function Main.fibonacci2 0\n")
  have count : (match scanBlk (round.entry .unitTests) (round.input .unitTests) with
      | .trailing _ res => some res
      | .err _ _ => none) = some 15 := by
    decide +kernel
  cases scanned : scanBlk (round.entry .unitTests) (round.input .unitTests) with
  | err _ _ => simp [scanned] at count
  | trailing last res =>
    rw [scanned] at count
    obtain rfl : res = 15 := by simpa using count
    have apart := (copies round .refl last 15 scanned (by decide)).apart
    exact absurd apart (by decide)

end Hvme
