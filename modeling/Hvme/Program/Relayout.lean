import Hvme.Machine.Unread
import Hvme.Scanner.Carrying
import Hvme.Scanner.Relayout
import Hvme.Vm.Loading

set_option autoImplicit false

namespace Hvme

open Coupling Execution

def anywhere (_ _ : Pos) : Prop := True

def Ending.unplaced : Ending → Ending
  | .halted io => .halted io
  | .failed diag io => .failed { diag with pos := Pos.zero } io
  | .fault why => .fault why

section twins

variable {cfg : Config} {input : List Byte}

theorem Inst.Twin.of_unplaced {inst other : Inst} (same : inst.unplaced = other.unplaced) : inst.Twin anywhere other where
  pos := trivial
  same := by
    cases inst
    cases other
    simp only [Inst.unplaced, Inst.mk.injEq] at same ⊢
    simp_all

theorem Inst.Twin.symm {inst other : Inst} (twin : inst.Twin anywhere other) : other.Twin anywhere inst :=
  ⟨trivial, by rw [twin.same]⟩

theorem File.Twin.symm {file other : File} (twin : File.Twin anywhere file other) : File.Twin anywhere other file where
  filename := twin.filename.symm
  named := twin.named.symm
  st := twin.st.symm
  insts := (twin.insts.imp fun _ _ => Inst.Twin.symm).flip
  mem := twin.mem.symm
  ei := twin.ei.symm

theorem Machine.Twin.symm {m other : Machine} (twin : m.Twin anywhere (Leaves input) other) :
    other.Twin anywhere (Leaves input) m where
  files := (twin.files.imp fun _ _ => File.Twin.symm).flip
  fi := twin.fi.symm
  heap := twin.heap.symm
  stack := twin.stack.symm
  io := ⟨twin.io.1.symm, twin.io.1 ▸ twin.io.2⟩

theorem twins_of_unplaced {insts others : List Inst} (same : insts.map Inst.unplaced = others.map Inst.unplaced) :
    List.Forall₂ (Inst.Twin anywhere) insts others := by
  have alike : List.Forall₂ Eq (insts.map Inst.unplaced) (others.map Inst.unplaced) := by rwa [List.forall₂_eq_eq_eq]
  exact (List.forall₂_map_left_iff.mp (List.forall₂_map_right_iff.mp alike)).imp fun _ _ => Inst.Twin.of_unplaced

theorem Ending.Twin.unplaced {ending ending' : Ending} (twin : Ending.Twin anywhere (Leaves input) ending ending') :
    ending.unplaced = ending'.unplaced := by
  cases twin with
  | halted alike => rw [alike.1]
  | failed text placed alike =>
    rw [alike.1]
    rfl
  | fault => rfl

theorem Machine.Twin.ends {m other : Machine} (twin : m.Twin anywhere (Leaves input) other) {ending : Ending}
    (ends : Yields (Machine.move cfg) m ending) :
    ∃ ending', Yields (Machine.move cfg) other ending' ∧ ending.unplaced = ending'.unplaced := by
  obtain ⟨last, run, ended⟩ := ends
  have steady := leaves_steady input
  have reads := reads_leaves cfg anywhere input
  obtain ⟨last', run', twin⟩ := runs_coupled (fun _ _ _ => goes_coupled steady reads (keeps_never _))
    (fun _ _ past => past.elim) twin run id
  obtain ⟨_, _, -, past⟩ | ⟨ending', ended', twin⟩ := ends_coupled steady reads (keeps_never _) twin ended
  · exact past.elim
  · exact ⟨ending', ⟨last', run', ended'⟩, twin.unplaced⟩

end twins

structure Source.LaidAnew (src src' : Source) : Prop where
  fn : src'.fn = src.fn
  content : ∃ content content', src.content = some content ∧ src'.content = some content' ∧
    Relaid (deleteComments false content) content'

/-- As the files are read one after the other, none is left in a comment and no comment takes a
line with it. -/
def CommentsHarmless (cfg : Config) (fuel : Nat) : Statics → List Source → Prop
  | _, [] => True
  | statics, src :: srcs =>
    statics.insideComment = false ∧
      (∀ content, src.content = some content → CommentsKept cfg (src.scanner statics) content) ∧
      ∀ mid file, procFile cfg fuel statics src = .ok (mid, some file) → CommentsHarmless cfg fuel mid srcs

section files

variable {cfg : Config}

theorem scan_relaid {sc sc' other : Scanner} {fuel : Nat} {content text : List Byte}
    (outside : sc.statics.insideComment = false) (outside' : other.statics.insideComment = false)
    (filename : other.tokens.filename = sc.tokens.filename) (fresh : other.views = sc.views)
    (kept : CommentsKept cfg sc content) (returns : scan cfg fuel sc (some content) = .ok (.ok, sc'))
    (relaid : Relaid (deleteComments false content) text) :
    ∃ fuel' sc'', scan cfg fuel' other (some text) = .ok (.ok, sc'') ∧ sc''.statics.insideComment = false ∧
      sc''.tokens.filename = sc'.tokens.filename ∧
      sc''.tokens.cell.map Token.lexeme = sc'.tokens.cell.map Token.lexeme := by
  obtain ⟨named, out, lost, views, passage, iff⟩ := scan_passage returns
  have mark : sc.mark.inside = false := outside
  rw [mark] at passage
  -- With the comments kept to their lines, the words are those of the text without comments.
  have reading := passage.reading fun gone => iff.mp gone kept
  rw [deleteComments_concat] at reading
  obtain ⟨fuel', sc'', returns', named', views', ended⟩ :=
    Reading.scan_outside outside' (@relaid.reading _ _ _ _ [] reading)
  refine ⟨fuel', sc'', returns', ended, ?_, ?_⟩
  · rw [named', filename, named]
  · rw [← Scanner.views_lexeme, ← Scanner.views_lexeme, views', views, List.map_append, fresh]

theorem parse_named {tokens : Tokens} {insts : Insts} {st : Option SymbolTable} {p : Parser}
    (parsed : parse cfg tokens insts st = .ok (.ok, p)) : p.insts.filename = insts.filename := by
  obtain ⟨-, emitted, same, -⟩ := parse_fills parsed
  rw [same]

theorem parse_relaid {tokens tokens' : Tokens} {insts : Insts} {st : Option SymbolTable} {p : Parser}
    (filename : tokens'.filename = tokens.filename)
    (lexemes : tokens'.cell.map Token.lexeme = tokens.cell.map Token.lexeme)
    (parsed : parse cfg tokens insts st = .ok (.ok, p)) :
    ∃ p', parse cfg tokens' insts st = .ok (.ok, p') ∧ p'.st = p.st ∧
      List.Forall₂ (Inst.Twin anywhere) p.insts.cell p'.insts.cell := by
  have same := parse_lexemes cfg insts st filename lexemes
  rw [parsed] at same
  cases parsed' : parse cfg tokens' insts st with
  | error fault =>
    rw [parsed'] at same
    cases same
  | ok result =>
    obtain ⟨res, p'⟩ := result
    rw [parsed'] at same
    obtain ⟨ok, program⟩ := Prod.mk.inj (Except.ok.inj same)
    obtain ⟨insts', table⟩ := Prod.mk.inj program
    obtain rfl : res = .ok := ok
    exact ⟨p', rfl, table, twins_of_unplaced insts'.symm⟩

theorem procFile_relaid {fuel : Nat} {statics statics' last : Statics} {src src' : Source} {made : Tokens × File}
    (anew : src.LaidAnew src') (outside : statics.insideComment = false) (outside' : statics'.insideComment = false)
    (kept : ∀ content, src.content = some content → CommentsKept cfg (src.scanner statics) content)
    (processed : procFile cfg fuel statics src = .ok (last, some made)) :
    ∃ fuel' last' made', (∀ more, procFile cfg (fuel' + more) statics' src' = .ok (last', some made')) ∧
      last'.insideComment = false ∧ File.Twin anywhere made.2 made'.2 := by
  obtain ⟨fn, content, content', here, here', relaid⟩ := anew
  obtain ⟨bytes, sc, p, st, there, returns, parsed, table, -, rfl⟩ := procFile_some processed
  cases here.symm.trans there
  have named : (src'.scanner statics').tokens.filename = (src.scanner statics).tokens.filename := by
    rw [Source.scanner, Source.scanner, fn]
  obtain ⟨fuel', sc', returns', ended, filename, lexemes⟩ :=
    scan_relaid outside outside' named rfl (kept content here) returns relaid
  obtain ⟨p', parsed', table', insts⟩ := parse_relaid filename lexemes parsed
  refine ⟨fuel', sc'.statics,
    (sc'.tokens, { filename := src.fn, st := st, insts := p'.insts, mem := newMem, ei := 0 }), fun more => ?_,
    ended, ⟨rfl, ?_, rfl, insts, rfl, rfl⟩⟩
  · have run : scan cfg (fuel' + more) (src'.scanner statics') (some content') = .ok (.ok, sc') :=
      scanRounds_more cfg returns' more
    rw [Source.scanner, fn] at run
    simp only [procFile, here', fn, run, parsed', table', table, Option.map_some]
  · exact (parse_named parsed).trans (parse_named parsed').symm

theorem procFiles_relaid {fuel : Nat} {statics statics' last : Statics} {srcs srcs' : List Source}
    {made : List (Tokens × File)} (anew : List.Forall₂ Source.LaidAnew srcs srcs')
    (outside' : statics'.insideComment = false) (harmless : CommentsHarmless cfg fuel statics srcs)
    (processed : procFiles cfg fuel statics srcs = .ok (last, some made)) :
    ∃ fuel' last' made', (∀ more, procFiles cfg (fuel' + more) statics' srcs' = .ok (last', some made')) ∧
      List.Forall₂ (fun file file' : Tokens × File => File.Twin anywhere file.2 file'.2) made made' := by
  induction anew generalizing statics statics' made with
  | nil =>
    cases processed
    exact ⟨0, statics', [], fun _ => rfl, .nil⟩
  | cons first _ ih =>
    obtain ⟨warnings, mid, file, rest, named, this, others, rfl⟩ := procFiles_cons.mp processed
    obtain ⟨outside, kept, later⟩ := harmless
    obtain ⟨fuel₁, mid', file', this', ended, twin⟩ := procFile_relaid first outside outside' kept this
    obtain ⟨fuel₂, last', rest', others', twins⟩ := ih ended (later mid file this) others
    -- Each file may take other fuel than before, and the sum is enough for all.
    refine ⟨fuel₁ + fuel₂, last', file' :: rest', fun more => ?_, .cons twin twins⟩
    refine procFiles_cons.mpr ⟨warnings, mid', file', rest', by rw [first.fn, named], ?_, ?_, rfl⟩
    · rw [Nat.add_assoc]
      exact this' _
    · rw [Nat.add_comm fuel₁, Nat.add_assoc]
      exact others' _

end files

section programs

variable {cfg : Config} {fuel : Nat} {srcs srcs' : List Source} {prog : Program}

theorem File.Twin.itself (file : File) : File.Twin anywhere file file :=
  ⟨rfl, rfl, rfl, List.forall₂_same.mpr fun _ _ => ⟨trivial, rfl⟩, rfl, rfl⟩

/-- Neither blanks nor harmless comments make a difference to a program, but to the positions that
its messages name, if the allocator leaves the same in the cells of both. -/
theorem execProg_relaid (made : makeProg cfg fuel srcs = .ok (some prog))
    (harmless : CommentsHarmless cfg fuel Statics.init srcs) (anew : List.Forall₂ Source.LaidAnew srcs srcs') :
    ∃ fuel' prog', makeProg cfg fuel' srcs' = .ok (some prog') ∧ ∀ stdin result,
      (∃ ending, ExecProg cfg prog stdin ending ∧ ending.unplaced = result) ↔
        ∃ ending, ExecProg cfg prog' stdin ending ∧ ending.unplaced = result := by
  obtain ⟨system, statics, files, installed, processed, rfl⟩ := makeProg_iff.mp made
  obtain ⟨fuel', statics', files', processed', twins⟩ :=
    procFiles_relaid anew (show Statics.init.insideComment = false from rfl) harmless processed
  refine ⟨fuel', _, makeProg_iff.mpr ⟨system, statics', files', installed, processed' 0, rfl⟩, fun stdin result => ?_⟩
  have same : (Machine.start { files := system :: files.map Prod.snd, fi := 0, heap := newHeap, stack := newStack cfg }
      stdin).Twin anywhere (Leaves stdin)
        (Machine.start { files := system :: files'.map Prod.snd, fi := 0, heap := newHeap, stack := newStack cfg }
          stdin) := by
    refine ⟨.cons (File.Twin.itself system) ?_, rfl, rfl, rfl, rfl, List.suffix_rfl⟩
    exact List.forall₂_map_left_iff.mpr (List.forall₂_map_right_iff.mpr twins)
  constructor
  · rintro ⟨ending, ends, rfl⟩
    obtain ⟨ending', ends', alike⟩ := same.ends ends
    exact ⟨ending', ends', alike.symm⟩
  · rintro ⟨ending, ends, rfl⟩
    obtain ⟨ending', ends', alike⟩ := same.symm.ends ends
    exact ⟨ending', ends', alike.symm⟩

theorem Relaid.word {word text text' : List Byte} (nonblank : (word.all fun b => !isspace b) = true)
    (later : Relaid text text') : Relaid (word ++ text) (word ++ text') := by
  induction word with
  | nil => exact later
  | cons b word ih =>
    simp only [List.all_cons, Bool.and_eq_true, Bool.not_eq_true'] at nonblank
    exact .keep nonblank.1 (ih nonblank.2)

theorem Relaid.blanks {gap gap' text text' : List Byte} {b : Byte} {word : List Byte}
    (blanks : (!gap.isEmpty && !gap'.isEmpty && (gap ++ gap').all isspace) = true)
    (nonblank : ((b :: word).all fun b => !isspace b) = true) (later : Relaid text text') :
    Relaid (gap ++ (b :: word ++ text)) (gap' ++ (b :: word ++ text')) := by
  simp only [Bool.and_eq_true, Bool.not_eq_true', List.isEmpty_eq_false_iff, List.all_append, List.all_eq_true] at blanks
  obtain ⟨⟨nonempty, nonempty'⟩, here, here'⟩ := blanks
  refine .gap here nonempty ?_ here' nonempty' (.word nonblank later)
  simp only [List.all_cons, Bool.and_eq_true, Bool.not_eq_true'] at nonblank
  rintro _ ⟨⟩
  exact nonblank.1

theorem oneLine_relaid :
    Relaid (deleteComments false (ascii "function Sys.init 0 // start\nreturn\n")) (ascii "function Sys.init 0 return\n") := by
  have deleted : deleteComments false (ascii "function Sys.init 0 // start\nreturn\n") =
      ascii "function Sys.init 0 \nreturn\n" := by
    decide
  have last := @Relaid.blanks (ascii " \n") (ascii " ") _ _ 114 (ascii "eturn") (by decide) (by decide)
    (Relaid.refl (ascii "\n"))
  have number := @Relaid.blanks (ascii " ") (ascii " ") _ _ 48 [] (by decide) (by decide) last
  have name := @Relaid.blanks (ascii " ") (ascii " ") _ _ 83 (ascii "ys.init") (by decide) (by decide) number
  rw [deleted]
  exact @Relaid.word (ascii "function") _ _ (by decide) name

theorem execProg_relaid_oneLine :
    ∃ prog fuel' prog', programOf .unitTests "function Sys.init 0 // start\nreturn\n" = some prog ∧
      makeProg .unitTests fuel' [{ fn := "a.vm", content := some (ascii "function Sys.init 0 return\n") }] =
        .ok (some prog') ∧
      ∀ stdin result, (∃ ending, ExecProg .unitTests prog stdin ending ∧ ending.unplaced = result) ↔
        ∃ ending, ExecProg .unitTests prog' stdin ending ∧ ending.unplaced = result := by
  have some_ : (programOf .unitTests "function Sys.init 0 // start\nreturn\n").isSome := by
    decide +kernel
  obtain ⟨prog, made⟩ := Option.isSome_iff_exists.mp some_
  let src : Source := { fn := "a.vm", content := some (ascii "function Sys.init 0 // start\nreturn\n") }
  have kept (content : List Byte) (here : src.content = some content) :
      CommentsKept .unitTests (src.scanner Statics.init) content := by
    cases here
    exact commentsKept_of_texts _ (by decide +kernel)
  have harmless : CommentsHarmless .unitTests 9 Statics.init [src] := ⟨rfl, kept, fun _ _ _ => trivial⟩
  have anew : src.LaidAnew { fn := "a.vm", content := some (ascii "function Sys.init 0 return\n") } :=
    ⟨rfl, _, _, rfl, rfl, oneLine_relaid⟩
  obtain ⟨fuel', prog', made', alike⟩ := execProg_relaid (programOf_made made) harmless (.cons anew .nil)
  exact ⟨prog, fuel', prog', made, made', alike⟩

end programs

end Hvme
