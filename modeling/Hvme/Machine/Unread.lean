import Hvme.Lib.Lookahead
import Hvme.Machine.Steps
import Hvme.Machine.Twins

set_option autoImplicit false

namespace Hvme

open Coupling Execution Lookahead Outcome

section readers

def digitsReader (negative : Bool) : Reader Byte ScanfResult :=
  (span isdigit).andThen fun digits =>
    Prod.mk (bif digits.isEmpty then .mismatch else .num (strtoulValue negative digits))

def signedReader : Option Byte → Reader Byte ScanfResult
  | none => Prod.mk .eof
  | some c => (takeIf fun c => c == 43 || c == 45).andThen fun _ => digitsReader (c == 45)

def uintReader : Reader Byte ScanfResult := (span isspace).andThen fun _ => peek.andThen signedReader

theorem digitsReader_eq (negative : Bool) (body : List Byte) :
    digitsReader negative body =
      if (body.takeWhile isdigit).isEmpty then (.mismatch, body)
      else (.num (strtoulValue negative (body.takeWhile isdigit)), body.dropWhile isdigit) := by
  have whole := @List.takeWhile_append_dropWhile _ isdigit body
  unfold digitsReader
  simp only [Reader.andThen, span]
  cases digits : body.takeWhile isdigit with
  | nil =>
    rw [digits, List.nil_append] at whole
    rw [whole]
    rfl
  | cons c digits => rfl

theorem scanfUint_eq (stdin : List Byte) : scanfUint stdin = uintReader stdin := by
  unfold scanfUint uintReader
  simp only [Reader.andThen, span, peek]
  cases stdin.dropWhile isspace with
  | nil => rfl
  | cons c rest =>
    simp only [List.head?_cons, signedReader, Reader.andThen, digitsReader_eq, takeIf]
    by_cases sign : (c == 43 || c == 45) = true
    · simp only [sign, if_true]
    · simp only [sign, Bool.false_eq_true, if_false]

theorem digitsReader_causal (negative : Bool) : Causal (digitsReader negative) :=
  (span_causal _).andThen (fun _ => pure_causal _) fun _ => pure_shrinks _

theorem digitsReader_shrinks (negative : Bool) : Shrinks (digitsReader negative) :=
  (span_shrinks _).andThen fun _ => pure_shrinks _

theorem signedReader_shrinks (c : Option Byte) : Shrinks (signedReader c) := by
  cases c with
  | none => exact pure_shrinks _
  | some c => exact (takeIf_shrinks _).andThen fun _ => digitsReader_shrinks _

theorem scanfUint_causal : Causal scanfUint := by
  rw [show scanfUint = uintReader from funext scanfUint_eq]
  have signed (c : Option Byte) : Causal (signedReader c) := by
    cases c with
    | none => exact pure_causal _
    | some c => exact (takeIf_causal _).andThen (fun _ => digitsReader_causal _) fun _ => digitsReader_shrinks _
  exact (span_causal _).andThen (fun _ => peek_causal.andThen signed signedReader_shrinks)
    fun _ => peek_shrinks.andThen signedReader_shrinks

def lineReader : Reader Byte (List Byte × Bool) :=
  (span (· ≠ newline)).andThen fun line => (takeIf fun _ => true).andThen fun ended => Prod.mk (line, ended)

theorem lineReader_causal : Causal lineReader :=
  (span_causal _).andThen (fun _ => (takeIf_causal _).andThen (fun _ => pure_causal _) fun _ => pure_shrinks _)
    fun _ => (takeIf_shrinks _).andThen fun _ => pure_shrinks _

theorem lineReader_shrinks : Shrinks lineReader :=
  (span_shrinks _).andThen fun _ => (takeIf_shrinks _).andThen fun _ => pure_shrinks _

theorem discardLine_eq (stdin : List Byte) :
    discardLine stdin = bif (lineReader stdin).1.2 then .ok (lineReader stdin).2 else .error .diverges := by
  unfold discardLine lineReader
  simp only [Reader.andThen, span]
  cases stdin.dropWhile (· ≠ newline) <;> rfl

theorem getline_eq {stdin : List Byte} (some_ : stdin ≠ []) :
    getline stdin =
      some ((lineReader stdin).1.1 ++ (bif (lineReader stdin).1.2 then [newline] else []), (lineReader stdin).2) := by
  have behind : stdin.drop (stdin.takeWhile (· ≠ newline)).length = stdin.dropWhile (· ≠ newline) := by
    nth_rewrite 2 [← @List.takeWhile_append_dropWhile _ (· ≠ newline) stdin]
    exact List.drop_left
  have ended (c : Byte) (rest : List Byte) (first : stdin.dropWhile (· ≠ newline) = c :: rest) : c = newline := by
    have stopped := List.head?_dropWhile_not (· ≠ newline) stdin
    rw [first] at stopped
    simpa using stopped
  simp only [getline, List.isEmpty_iff, some_, if_false, ← List.drop_drop, behind, lineReader, Reader.andThen, span]
  cases first : stdin.dropWhile (· ≠ newline) with
  | nil => rfl
  | cons c rest =>
    rw [ended c rest first]
    rfl

theorem scanfUint_shrinks : Shrinks scanfUint := by
  rw [show scanfUint = uintReader from funext scanfUint_eq]
  exact (span_shrinks _).andThen fun _ => peek_shrinks.andThen signedReader_shrinks

end readers

section unread

variable {b : Byte} {rest rest' : List Byte}

def Unread (b : Byte) (rest rest' : List Byte) (io io' : Io) : Prop :=
  ∃ ahead, io.stdin = ahead ++ b :: rest ∧ io' = { io with stdin := ahead ++ b :: rest' }

def ReadPast (rest : List Byte) (stop : Option Stop) (m : Machine) : Prop :=
  m.io.stdin.length ≤ rest.length ∨ stop = some (.fault .diverges)

theorem ReadPast.unstopped {m : Machine} (past : ReadPast rest none m) : m.io.stdin.length ≤ rest.length := by
  rcases past with past | stopped
  · exact past
  · cases stopped

theorem hvmeFprintf_withStdin (text : List Byte) (io : Io) (stdin : List Byte) :
    hvmeFprintf text { io with stdin := stdin } = { hvmeFprintf text io with stdin := stdin } := by
  unfold hvmeFprintf
  split <;> rfl

@[simp] theorem hvmeFprintf_stdin (text : List Byte) (io : Io) : (hvmeFprintf text io).stdin = io.stdin := by
  unfold hvmeFprintf
  split <;> rfl

@[simp] theorem cleanStdout_stdin (io : Io) : (cleanStdout io).stdin = io.stdin := by
  unfold cleanStdout
  split
  · exact hvmeFprintf_stdin _ io
  · rfl

theorem unread_steady : Steady (Unread b rest rest') where
  print := by
    rintro text io _ ⟨ahead, unread, rfl⟩
    exact ⟨ahead, by rw [hvmeFprintf_stdin, unread], hvmeFprintf_withStdin text io _⟩
  last := by
    rintro io _ ⟨ahead, -, rfl⟩
    rfl

theorem alongside_setIo {P : Pos → Pos → Prop} {Q : Io → Io → Prop} {io io' : Io} (alike : Q io io') :
    Alongside P Q Eq (setIo io) (setIo io') :=
  Alongside.modify fun _ _ twin => { twin with io := alike }

variable {cfg : Config} {P : Pos → Pos → Prop}

theorem execSpush_keeps (val : Word) : Keeps (ReadPast rest) (execSpush cfg val) := by
  intro m past
  unfold execSpush
  simp only [wp_bind, wp_getStack, wp_liftFault, wp_setStack]
  exact ⟨fun _ _ => .inl (past.unstopped), fun _ _ => past⟩

theorem wp_readError {m : Machine} (pos : Pos) (text : String) (past : m.io.stdin.length ≤ rest.length) :
    wp (execErr pos text) (fun (_ : Unit) m => ReadPast rest none m) (fun stop m => ReadPast rest (some stop) m) m := by
  rw [wp_execErr, ReadPast, Machine.withIo_io, cleanStdout_stdin]
  exact .inl past

theorem readChar_unread : Coupled (ReadPast rest) Eq (Stop.Twin P) (Machine.Twin P (Unread b rest rest'))
    (execBuiltinReadChar cfg) (execBuiltinReadChar cfg) := by
  unfold execBuiltinReadChar
  refine coupled_bind_first coupled_get fun m other twin => ?_
  obtain ⟨ahead, unread, same⟩ := twin.io
  rw [same]
  cases ahead with
  -- The byte that is read is `b` itself.
  | nil =>
    refine coupled_of_past fun s => ?_
    simp only [unread, List.nil_append, wp_bind, wp_setIo]
    exact execSpush_keeps _ _ (.inl (le_refl _))
  | cons c ahead =>
    simp only [unread, List.cons_append]
    refine Coupled.of_never ((alongside_setIo ?_).then fun _ => alongside_execSpush cfg _)
    exact ⟨ahead, rfl, rfl⟩

theorem discardLine_ok {stdin left : List Byte} (run : discardLine stdin = .ok left) : left = (lineReader stdin).2 := by
  rw [discardLine_eq] at run
  cases ended : (lineReader stdin).1.2 <;> rw [ended] at run
  · cases run
  · exact (Except.ok.inj run).symm

theorem discardLine_error {stdin : List Byte} {fault : Fault} (run : discardLine stdin = .error fault) :
    fault = .diverges := by
  rw [discardLine_eq] at run
  cases ended : (lineReader stdin).1.2 <;> rw [ended] at run
  · exact (Except.error.inj run).symm
  · cases run

theorem discardLine_causal (ahead rest : List Byte) :
    (∀ left, discardLine (ahead ++ b :: rest) = .ok left → left.length ≤ rest.length) ∨
      ∃ unread, ∀ other, discardLine (ahead ++ b :: other) = .ok (unread ++ b :: other) := by
  rcases lineReader_causal ahead b rest with past | ⟨⟨line, ended⟩, unread, same⟩
  · exact .inl fun left run => discardLine_ok run ▸ past
  · cases ended with
    -- The line ends with the input, so that all of it is read.
    | false =>
      refine .inl fun left run => ?_
      rw [discardLine_eq, same] at run
      cases run
    | true => exact .inr ⟨unread, fun other => by rw [discardLine_eq, same]; rfl⟩

theorem wp_discard {m : Machine} {stdin : List Byte} (io : Io) (pos : Pos)
    (past : ∀ left, discardLine stdin = .ok left → left.length ≤ rest.length) :
    wp (do let left ← liftFault (discardLine stdin); setIo { io with stdin := left }; readNumCharError pos)
      (fun (_ : Unit) m => ReadPast rest none m) (fun stop m => ReadPast rest (some stop) m) m := by
  simp only [wp_bind, wp_liftFault, wp_setIo]
  refine ⟨fun fault run => .inr ?_, fun left run => wp_readError _ _ (past left run)⟩
  rw [discardLine_error run]

theorem readNum_unread {pos pos' : Pos} (placed : P pos pos') :
    Coupled (ReadPast rest) Eq (Stop.Twin P) (Machine.Twin P (Unread b rest rest'))
      (execBuiltinReadNum cfg pos) (execBuiltinReadNum cfg pos') := by
  unfold execBuiltinReadNum
  refine coupled_bind_first coupled_get fun m other twin => ?_
  obtain ⟨ahead, unread, same⟩ := twin.io
  have steady := @unread_steady b rest rest'
  dsimp only
  rw [same, unread]
  rcases scanfUint_causal ahead b rest with past | ⟨res, unread', same'⟩
  · refine coupled_of_past fun s => ?_
    generalize scanfUint (ahead ++ b :: rest) = scanned at past
    obtain ⟨res, stdin⟩ := scanned
    simp only [wp_bind, wp_setIo]
    cases res with
    | eof => exact wp_readError _ _ past
    | mismatch =>
      refine wp_discard m.io pos fun left run => le_trans ?_ past
      exact discardLine_ok run ▸ (lineReader_shrinks stdin).length_le
    | num value =>
      rw [wp_ite]
      exact ⟨fun _ => wp_readError _ _ past, fun _ => execSpush_keeps _ _ (.inl past)⟩
  · rw [same', same']
    dsimp only
    refine coupled_bind_first (alongside_setIo ⟨unread', rfl, rfl⟩) fun _ _ _ => ?_
    cases res with
    | eof => exact (alongside_execErr steady placed _).of_never
    -- The rest of the line is discarded after the attempt, which may still go past `b`.
    | mismatch =>
      rcases @discardLine_causal b unread' rest with past | ⟨unread'', same''⟩
      · exact coupled_of_past fun s => wp_discard m.io pos past
      · rw [same'', same'']
        refine Coupled.of_never ((alongside_setIo ?_).then fun _ => alongside_execErr steady placed _)
        exact ⟨unread'', rfl, rfl⟩
    | num value =>
      refine Coupled.of_never (coupled_ite Iff.rfl (fun _ _ => ?_) fun _ _ => alongside_execSpush cfg _)
      exact alongside_execErr steady placed _

theorem readStr_unread {pos pos' : Pos} (placed : P pos pos') :
    Coupled (ReadPast rest) Eq (Stop.Twin P) (Machine.Twin P (Unread b rest rest'))
      (execBuiltinReadStr cfg pos) (execBuiltinReadStr cfg pos') := by
  have steady := @unread_steady b rest rest'
  unfold execBuiltinReadStr
  refine coupled_bind_first (alongside_execSpop steady cfg placed) ?_
  rintro addr _ rfl
  refine coupled_bind_first coupled_get fun m other twin => ?_
  obtain ⟨ahead, unread, same⟩ := twin.io
  have some_ (tail : List Byte) : ahead ++ b :: tail ≠ [] := by simp
  dsimp only
  rw [same, unread, getline_eq (some_ rest), getline_eq (some_ rest')]
  dsimp only
  rcases lineReader_causal ahead b rest with past | ⟨⟨line, ended⟩, unread', same'⟩
  · refine coupled_of_past fun s => ?_
    generalize lineReader (ahead ++ b :: rest) = line at past
    simp only [wp_bind, wp_setIo, wp_ite, wp_activeInst, wp_getHeap, wp_setHeap]
    refine ⟨fun _ => ⟨fun _ => .inl past, fun inst _ => wp_readError _ _ past⟩, fun _ => ?_⟩
    exact execSpush_keeps _ _ (.inl past)
  · rw [same', same']
    dsimp only
    refine Coupled.of_never ((alongside_setIo ⟨unread', rfl, rfl⟩).then fun _ => ?_)
    refine coupled_ite Iff.rfl (fun _ _ => ?_) fun _ _ => ?_
    · refine Alongside.bind alongside_activeInst fun inst other twin => ?_
      exact alongside_heapAddrOverflowError steady twin _
    · refine alongside_getHeap.then fun heap => (alongside_setHeap _).then fun _ => alongside_execSpush cfg _

theorem reads_unread (cfg : Config) (P : Pos → Pos → Prop) (b : Byte) (rest rest' : List Byte) :
    ReadsAlike cfg P (Unread b rest rest') (ReadPast rest) where
  char := readChar_unread
  num := fun _ _ placed => readNum_unread placed
  str := fun _ _ placed => readStr_unread placed

end unread

section leaves

variable {cfg : Config} {input : List Byte}

def Leaves (input : List Byte) (io io' : Io) : Prop := io = io' ∧ io.stdin <:+ input

theorem leaves_steady (input : List Byte) : Steady (Leaves input) where
  print := by
    rintro text io _ ⟨rfl, kept⟩
    exact ⟨rfl, by rwa [hvmeFprintf_stdin]⟩
  last := by
    rintro io _ ⟨rfl, -⟩
    rfl

theorem reads_leaves (cfg : Config) (P : Pos → Pos → Prop) (input : List Byte) :
    ReadsAlike cfg P (Leaves input) never where
  char := by
    refine Alongside.bind coupled_get fun m other twin => ?_
    obtain ⟨same, kept⟩ := twin.io
    dsimp only
    rw [← same]
    cases left : m.io.stdin with
    | nil => exact alongside_execSpush cfg _
    | cons c stdin =>
      refine (alongside_setIo ⟨rfl, ?_⟩).then fun _ => alongside_execSpush cfg _
      exact (List.suffix_cons c stdin).trans (left ▸ kept)
  num := by
    intro pos pos' placed
    refine Alongside.bind coupled_get fun m other twin => ?_
    obtain ⟨same, kept⟩ := twin.io
    have steady := leaves_steady input
    dsimp only
    rw [← same]
    have scanned := (scanfUint_shrinks m.io.stdin).trans kept
    refine (alongside_setIo ⟨rfl, scanned⟩).then fun _ => ?_
    cases (scanfUint m.io.stdin).1 with
    | eof => exact alongside_execErr steady placed _
    | mismatch =>
      cases run : discardLine (scanfUint m.io.stdin).2 with
      | error fault => exact alongside_fault fault
      | ok left =>
        have discarded := (lineReader_shrinks _).trans scanned
        refine (alongside_setIo ⟨rfl, ?_⟩).then fun _ => alongside_execErr steady placed _
        exact discardLine_ok run ▸ discarded
    | num value =>
      refine coupled_ite Iff.rfl (fun _ _ => ?_) fun _ _ => alongside_execSpush cfg _
      exact alongside_execErr steady placed _
  str := by
    intro pos pos' placed
    have steady := leaves_steady input
    refine (alongside_execSpop steady cfg placed).then fun addr => ?_
    refine Alongside.bind coupled_get fun m other twin => ?_
    obtain ⟨same, kept⟩ := twin.io
    dsimp only
    rw [← same]
    cases empty : m.io.stdin with
    | nil => exact alongside_execErr steady placed _
    | cons c stdin =>
      rw [getline_eq (List.cons_ne_nil c stdin)]
      refine (alongside_setIo ⟨rfl, (lineReader_shrinks _).trans (empty ▸ kept)⟩).then fun _ => ?_
      refine coupled_ite Iff.rfl (fun _ _ => ?_) fun _ _ => ?_
      · refine Alongside.bind alongside_activeInst fun inst other twin => ?_
        exact alongside_heapAddrOverflowError steady twin _
      · exact alongside_getHeap.then fun heap => (alongside_setHeap _).then fun _ => alongside_execSpush cfg _

theorem goes_shrinks {m m' : Machine} (goes : Goes (Machine.move cfg) m m') : m'.io.stdin <:+ m.io.stdin := by
  -- The machine is its own twin, at any input that its own one ends with.
  have twin : m.Twin Eq (Leaves m.io.stdin) m := Machine.Twin.refl ⟨rfl, List.suffix_rfl⟩
  obtain past | ⟨other, -, twin⟩ := goes_coupled (leaves_steady _) (reads_leaves cfg Eq _) (keeps_never _) twin goes
  · exact past.elim
  · exact twin.io.2

/-- The input that a run leaves, unless it ends with a fault. -/
def Ending.stdin : Ending → Option (List Byte)
  | .halted io => some io.stdin
  | .failed _ io => some io.stdin
  | .fault _ => none

def Ending.withStdin (stdin : List Byte) : Ending → Ending
  | .halted io => .halted { io with stdin := stdin }
  | .failed diag io => .failed diag { io with stdin := stdin }
  | .fault why => .fault why

theorem ends_shrinks {m : Machine} {ending : Ending} {left : List Byte} (ends : Machine.move cfg m = .ends ending)
    (leaves : ending.stdin = some left) : left <:+ m.io.stdin := by
  have twin : m.Twin Eq (Leaves m.io.stdin) m := Machine.Twin.refl ⟨rfl, List.suffix_rfl⟩
  obtain ⟨_, _, -, past⟩ | ⟨ending', -, twin⟩ :=
    ends_coupled (leaves_steady _) (reads_leaves cfg Eq _) (keeps_never _) twin ends
  · exact past.elim
  · cases twin with
    | halted alike => exact Option.some.inj leaves ▸ alike.2
    | failed text placed alike => exact Option.some.inj leaves ▸ alike.2
    | fault => cases leaves

end leaves

section programs

variable {cfg : Config} {prog : Program} {used rest rest' : List Byte} {b : Byte}

theorem incEi_keeps : Keeps (ReadPast rest) (incEi >>= fun _ => pure true) := by
  intro m past
  unfold incEi
  simp only [wp_bind, wp_activeFile, wp_setEi, wp_pure]
  exact ⟨fun _ => .inl (past.unstopped), fun _ _ => past⟩

theorem readPast_keeps {m m' : Machine} (past : ReadPast rest none m) (goes : Goes (Machine.move cfg) m m') :
    ReadPast rest none m' :=
  .inl ((goes_shrinks goes).length_le.trans (past.unstopped))

theorem start_unread : (Machine.start prog (used ++ b :: rest)).Twin Eq (Unread b rest rest')
    (Machine.start prog (used ++ b :: rest')) :=
  Machine.Twin.refl ⟨used, rfl, rfl⟩

theorem Unread.io_eq {io io' : Io} (unread : Unread b rest rest' io io') (left : io.stdin = b :: rest) :
    io' = { io with stdin := b :: rest' } := by
  obtain ⟨ahead, here, rfl⟩ := unread
  -- Both lists end in `b :: rest`, so that nothing is ahead of it.
  have none_ : ahead = [] := by
    have length := congrArg List.length (here.symm.trans left)
    simpa using length
  rw [none_]
  rfl

theorem not_readPast {stop : Option Stop} {m : Machine} (left : b :: rest <:+ m.io.stdin)
    (ended : stop ≠ some (.fault .diverges)) : ¬ReadPast rest stop m := by
  rintro (past | diverged)
  -- With `b` in front, more than `rest` is left.
  · have length := left.length_le
    rw [List.length_cons] at length
    omega
  · exact ended diverged

theorem runs_unread {m : Machine} (run : Runs (Machine.move cfg) (Machine.start prog (used ++ b :: rest)) m)
    (left : b :: rest <:+ m.io.stdin) :
    ∃ m', Runs (Machine.move cfg) (Machine.start prog (used ++ b :: rest')) m' ∧
      m.Twin Eq (Unread b rest rest') m' :=
  runs_coupled (fun _ _ _ => goes_coupled unread_steady (reads_unread cfg Eq b rest rest') incEi_keeps)
    (fun _ _ => readPast_keeps) start_unread run (not_readPast left (Option.some_ne_none _).symm)

theorem Ending.Twin.unread {ending ending' : Ending} (twin : Ending.Twin Eq (Unread b rest rest') ending ending')
    (left : ending.stdin = some (b :: rest)) : ending' = ending.withStdin (b :: rest') := by
  cases twin with
  | halted alike => rw [alike.io_eq (Option.some.inj left), Ending.withStdin]
  | failed text placed alike => rw [alike.io_eq (Option.some.inj left), Ending.withStdin, placed]
  | fault => cases left

/-- Input that a run does not read makes no difference to it, apart from the first byte of it. -/
theorem execProg_unread (cfg : Config) (prog : Program) (used rest rest' : List Byte) (b : Byte) :
    (∀ m, Runs (Machine.move cfg) (Machine.start prog (used ++ b :: rest)) m → m.io.stdin = b :: rest →
      Runs (Machine.move cfg) (Machine.start prog (used ++ b :: rest'))
        { m with io := { m.io with stdin := b :: rest' } }) ∧
    (∀ ending, ExecProg cfg prog (used ++ b :: rest) ending → ending.stdin = some (b :: rest) →
      ExecProg cfg prog (used ++ b :: rest') (ending.withStdin (b :: rest'))) ∧
    (Diverges (Machine.move cfg) (Machine.start prog (used ++ b :: rest)) →
      (∀ m, Runs (Machine.move cfg) (Machine.start prog (used ++ b :: rest)) m → b :: rest <:+ m.io.stdin) →
      Diverges (Machine.move cfg) (Machine.start prog (used ++ b :: rest'))) := by
  refine ⟨fun m run left => ?_, ?_, fun diverges unread => ?_⟩
  · obtain ⟨m', run', twin⟩ := @runs_unread cfg prog used rest rest' b m run (left ▸ List.suffix_rfl)
    have same : m' = { m with io := { m.io with stdin := b :: rest' } } := by
      rw [twin.prog, ← twin.io.io_eq left]
    exact same ▸ run'
  · rintro ending ⟨last, run, ended⟩ left
    obtain ⟨last', run', twin⟩ := @runs_unread cfg prog used rest rest' b last run (ends_shrinks ended left)
    obtain ⟨stop, m, same, past⟩ | ⟨ending', ended', twin⟩ :=
      ends_coupled unread_steady (reads_unread cfg Eq b rest rest') incEi_keeps twin ended
    -- An end past `b` leaves less than `b :: rest`.
    · rw [same] at left
      refine absurd past (not_readPast (b := b) ?_ ?_)
      · cases stop with
        | none => exact Option.some.inj left ▸ List.suffix_rfl
        | some stop =>
          cases stop with
          | err diag => exact Option.some.inj left ▸ List.suffix_rfl
          | fault fault => cases left
      · rintro rfl
        cases left
    · exact twin.unread left ▸ ⟨last', run', ended'⟩
  · exact diverges_coupled (fun _ _ _ => goes_coupled unread_steady (reads_unread cfg Eq b rest rest') incEi_keeps)
      diverges (fun m run => not_readPast (unread m run) (Option.some_ne_none _).symm) start_unread

theorem execProg_unread_number :
    ∃ prog, programOf .unitTests
        "function Sys.init 0\ncall Sys.read_num 0\ncall Sys.print_num 1\nreturn\n" = some prog ∧
      ExecProg .unitTests prog (ascii "12 34\n")
        (.halted { stdin := ascii " 34\n", stdout := ascii "12", lastStdout := 50 }) ∧
      ExecProg .unitTests prog (ascii "12 x")
        (.halted { stdin := ascii " x", stdout := ascii "12", lastStdout := 50 }) := by
  have ran : (programOf .unitTests
      "function Sys.init 0\ncall Sys.read_num 0\ncall Sys.print_num 1\nreturn\n").bind (fun prog =>
        finish (Machine.move .unitTests) 20 (Machine.start prog (ascii "12 34\n"))) =
      some (.halted { stdin := ascii " 34\n", stdout := ascii "12", lastStdout := 50 }) := by
    decide +kernel
  obtain ⟨prog, made, finished⟩ := Option.bind_eq_some_iff.mp ran
  have first : ExecProg .unitTests prog (ascii "12 34\n")
      (.halted { stdin := ascii " 34\n", stdout := ascii "12", lastStdout := 50 }) := yields_of_finish finished
  have unread := (execProg_unread .unitTests prog (ascii "12") (ascii "34\n") (ascii "x") 32).2.1
  exact ⟨prog, made, first, unread _ first rfl⟩

end programs

end Hvme
