import Hvme.Parser.Writing
import Hvme.Scanner.Relayout
import Hvme.Vm.Listing

set_option autoImplicit false

namespace Hvme.Vm

open Execution

def listing (filename : String) : UInt32 → List Item → List Line
  | _, [] => []
  | ln, item :: items =>
    lineOf { ln := ln, cl := 0, filename := some filename } item :: listing filename (ln + 1) items

theorem listing_keys (filename : String) (ln : UInt32) (items : List Item) :
    (listing filename ln items).filterMap Line.key = items.filterMap Item.key := by
  induction items generalizing ln with
  | nil => rfl
  | cons item items ih =>
    have same : (lineOf { ln := ln, cl := 0, filename := some filename } item).key = item.key := by
      cases item <;> rfl
    rw [listing, List.filterMap_cons, same, ih, List.filterMap_cons]

def AllWritable (cfg : Config) (items : List Item) : Prop :=
  ∀ item ∈ items, ∀ ident ∈ item.name, Writable cfg ident

section file

variable {cfg : Config} {items : List Item}

theorem textOf_reading (writable : AllWritable cfg items) :
    Reading cfg.scanBlockSize (textOf items ++ [newline]) (items.flatMap Item.lexemes) := by
  induction items with
  | nil => exact .blank newline_space .done
  | cons item items ih =>
    obtain ⟨first, others⟩ := List.forall_mem_cons.mp writable
    rw [textOf, List.flatMap_cons, List.flatMap_cons, List.append_assoc]
    exact lineText_reading (Item.spells first) (ih others)

theorem advance_line {lexemes : List Lexeme} {size : Nat}
    (spells : ∀ lexeme ∈ lexemes, Spells size lexeme.text lexeme) (ln : UInt32) :
    advance { ln := ln, cl := 0, filename := none } (lineText lexemes) = { ln := ln + 1, cl := 0, filename := none } := by
  obtain ⟨body, line, inside⟩ := lineText_lines spells
  rw [line, advance_append, advance_incby _ inside]
  rfl

theorem linesOf_textOf (filename : String) (writable : AllWritable cfg items) {ln : UInt32} {tokens : List Token}
    {views : List View} {lost : Prop}
    (passage : Passage cfg.scanBlockSize false { ln := ln, cl := 0, filename := none } (textOf items ++ [newline]) views lost)
    (same : tokens.map Token.view = views) (idx : Nat) :
    linesOf cfg filename idx (items.map Clause.item) tokens = listing filename ln items := by
  induction items generalizing ln tokens views idx with
  | nil => rfl
  | cons item items ih =>
    obtain ⟨first, others⟩ := List.forall_mem_cons.mp writable
    rw [textOf, List.flatMap_cons, List.append_assoc] at passage
    obtain ⟨front, later, rfl, lexemes, start, passage⟩ := lineText_passage (Item.spells first) passage
    rw [advance_line (Item.spells first)] at passage
    have count : front.length = item.lexemes.length := by
      rw [← lexemes, List.length_map]
    obtain ⟨taken, left, rfl, same, same'⟩ := List.map_eq_append_iff.mp same
    have taken_length : taken.length = item.lexemes.length := by
      rw [← count, ← same, List.length_map]
    rw [List.map_cons, linesOf, Clause.lexemes, listing, ← taken_length, List.drop_left, ih others passage same',
      Clause.filled]
    -- The position of the line is that of its first token, and every item has one.
    cases taken with
    | nil =>
      have nonempty := item.lexemes_length
      rw [← taken_length] at nonempty
      cases nonempty
    | cons it more =>
      have pos : it.pos = { ln := ln, cl := 0, filename := none } := by
        rw [← same] at start
        exact start it.view rfl
      rw [startOf, List.cons_append, List.head?_cons, Option.elim_some, pos]

theorem textOf_scanned (filename : String) (writable : AllWritable cfg items) {statics : Statics}
    (outside : statics.insideComment = false) :
    ∃ fuel sc, scan cfg fuel { tokens := newTokens (some filename), statics := statics, warnings := [] }
        (some (textOf items)) = .ok (.ok, sc) ∧
      sc.tokens.cell.map Token.lexeme = items.flatMap Item.lexemes ∧
      fileLines cfg filename sc.tokens.cell = listing filename 0 items ∧ sc.statics.insideComment = false := by
  let start : Scanner := { tokens := newTokens (some filename), statics := statics, warnings := [] }
  obtain ⟨fuel, sc, run, -, lexemes, ended⟩ :=
    Reading.scan_outside (show start.statics.insideComment = false from outside) (textOf_reading writable)
  obtain ⟨-, out, lost, views, passage, -⟩ := scan_passage run
  have mark : start.mark = { inside := false, cur := { ln := 0, cl := 0, filename := none } } := by
    simp [start, Scanner.mark, outside, newTokens, Pos.zero]
  rw [mark] at passage
  rw [Scanner.views_lexeme] at lexemes
  refine ⟨fuel, sc, run, lexemes, ?_, ended⟩
  rw [fileLines, (clausesOf_items lexemes).1]
  exact linesOf_textOf filename writable passage views 0

end file

structure Written where
  fn : String
  items : List Item

def Written.source (file : Written) : Source where
  fn := file.fn
  content := some (textOf file.items)

def Written.lines (file : Written) : List Line := listing file.fn 0 file.items

/-- What the source asks of a file: a name that `warn_file_ext` can look at, words that are read as
they are written, and no name declared twice. -/
structure Written.Good (cfg : Config) (file : Written) : Prop where
  fn : 3 ≤ file.fn.utf8ByteSize
  writable : AllWritable cfg file.items
  distinct : (file.items.filterMap Item.key).Nodup

instance (cfg : Config) (file : Written) : Decidable (file.Good cfg) :=
  decidable_of_iff (3 ≤ file.fn.utf8ByteSize ∧ (∀ item ∈ file.items, ∀ ident ∈ item.name, Writable cfg ident) ∧
      (file.items.filterMap Item.key).Nodup)
    ⟨fun ⟨fn, writable, distinct⟩ => ⟨fn, writable, distinct⟩, fun good => ⟨good.fn, good.writable, good.distinct⟩⟩

theorem Written.Good.procFile {cfg : Config} {file : Written} (good : file.Good cfg) {statics : Statics}
    (outside : statics.insideComment = false) :
    ∃ fuel after made, (∀ more, procFile cfg (fuel + more) statics file.source = .ok (after, some made)) ∧
      after.insideComment = false ∧ file.lines = fileLines cfg made.2.filename made.1.cell := by
  obtain ⟨fuel, sc, run, lexemes, lines, ended⟩ := textOf_scanned file.fn good.writable outside
  obtain ⟨clauses, nothing⟩ := clausesOf_items lexemes
  obtain ⟨p, st, parsed, table⟩ := @parse_accepts cfg _ (some file.fn) nothing
    (by rw [clauses, declarations_keys]; exact good.distinct)
  refine ⟨fuel, sc.statics,
    (sc.tokens, { filename := file.fn, st := st, insts := p.insts, mem := newMem, ei := 0 }), fun more => ?_, ended,
    lines.symm⟩
  have run' : scan cfg (fuel + more) { tokens := newTokens (some file.fn), statics := statics, warnings := [] }
      file.source.content = .ok (.ok, sc) := scanRounds_more cfg run more
  unfold Hvme.procFile
  simp only [show file.source.fn = file.fn from rfl, run', parsed, table, Option.map_some]

theorem warnFileExt_ok {fn : String} (long : 3 ≤ fn.utf8ByteSize) : ∃ warnings, warnFileExt fn = .ok warnings := by
  unfold warnFileExt
  rw [if_neg (by omega)]
  split <;> exact ⟨_, rfl⟩

theorem good_procFiles {cfg : Config} {files : List Written} (good : ∀ file ∈ files, file.Good cfg) {statics : Statics}
    (outside : statics.insideComment = false) :
    ∃ fuel after made, (∀ more, procFiles cfg (fuel + more) statics (files.map Written.source) = .ok (after, some made)) ∧
      files.map Written.lines = made.map fun file => fileLines cfg file.2.filename file.1.cell := by
  induction files generalizing statics with
  | nil => exact ⟨0, statics, [], fun _ => rfl, rfl⟩
  | cons file files ih =>
    obtain ⟨first, others⟩ := List.forall_mem_cons.mp good
    obtain ⟨fuel, mid, made, processed, outside', lines⟩ := first.procFile outside
    obtain ⟨fuel', last, rest, processed', listed⟩ := ih others outside'
    obtain ⟨warnings, named⟩ := warnFileExt_ok first.fn
    -- More fuel does no harm, so that the sum is enough for both.
    refine ⟨fuel + fuel', last, made :: rest, fun more => ?_, by rw [List.map_cons, List.map_cons, lines, listed]⟩
    rw [List.map_cons]
    refine procFiles_cons.mpr ⟨warnings, mid, made, rest, named, ?_, ?_, rfl⟩
    · rw [Nat.add_assoc]
      exact processed _
    · rw [Nat.add_comm fuel, Nat.add_assoc]
      exact processed' _

theorem good_listed {cfg : Config} {files : List Written} (good : ∀ file ∈ files, file.Good cfg) :
    ∃ fuel prog, makeProg cfg fuel (files.map Written.source) = .ok (some prog) ∧
      Listed cfg fuel (files.map Written.source) (files.map Written.lines) := by
  obtain ⟨fuel, statics, read, processed, lines⟩ := good_procFiles good (show Statics.init.insideComment = false from rfl)
  obtain ⟨prog, made⟩ := makeProg_some.2 _ _ (processed 0)
  refine ⟨fuel, prog, made, ⟨statics, read, processed 0, lines⟩, List.forall_mem_map.mpr fun file member => ?_⟩
  rw [Written.lines, listing_keys]
  exact (good file member).distinct

def sample : List Written :=
  [{ fn := "Sys.vm"
     items := [.function (Ident.ofString "Sys.init") 0, .transfer .push .const 21, .call (Ident.ofString "Main.twice") 1,
       .call (Ident.ofString "Sys.print_num") 1, .operation .ret] },
   { fn := "Main.vm"
     items := [.function (Ident.ofString "Main.twice") 0, .transfer .push .arg 0, .transfer .push .arg 0,
       .operation .add, .operation .ret] }]

theorem sample_good : ∀ file ∈ sample, file.Good .unitTests := by
  decide +kernel

theorem sample_small : Small (sample.map Written.lines) :=
  ⟨by decide +kernel, by decide⟩

/-- What `make_prog` makes of files, `exec_prog` runs as they are read, if none of them declares a name
twice. -/
theorem execProg_interprets {cfg : Config} {fuel : Nat} {srcs : List Source} {prog : Program}
    (made : makeProg cfg fuel srcs = .ok (some prog)) (fits : Fits prog) :
    ∃ files, ReadAs cfg fuel srcs files ∧
      ((∀ lines ∈ files, (lines.filterMap Line.key).Nodup) → ∀ stdin,
        Implements cfg prog stdin (interpret files) (launch stdin) ∧
          (Diverges (interpret files) (launch stdin) →
            Diverges (Machine.move cfg) (Machine.start prog stdin))) := by
  obtain ⟨files, reads⟩ := reads_of_made made
  refine ⟨files, reads, fun distinct stdin => ?_⟩
  have implements_ := Listed.interprets ⟨reads, distinct⟩ made fits stdin
  exact ⟨implements_, implements_.diverges⟩

theorem execProg_interprets_sample :
    ∃ fuel prog, makeProg .unitTests fuel (sample.map Written.source) = .ok (some prog) ∧
      ∃ files, ReadAs .unitTests fuel (sample.map Written.source) files ∧
        ((∀ lines ∈ files, (lines.filterMap Line.key).Nodup) → ∀ stdin,
          Implements .unitTests prog stdin (interpret files) (launch stdin) ∧
            (Diverges (interpret files) (launch stdin) →
              Diverges (Machine.move .unitTests) (Machine.start prog stdin))) := by
  obtain ⟨fuel, prog, made, listed⟩ := good_listed sample_good
  exact ⟨fuel, prog, made, execProg_interprets made (listed.fits made sample_small)⟩

/-- A program that is written down is made, and runs as it is written. -/
theorem written_runs {cfg : Config} {files : List Written} (good : ∀ file ∈ files, file.Good cfg)
    (small : Small (files.map Written.lines)) :
    ∃ fuel prog, makeProg cfg fuel (files.map Written.source) = .ok (some prog) ∧
      ∀ stdin, Implements cfg prog stdin (interpret (files.map Written.lines)) (launch stdin) := by
  obtain ⟨fuel, prog, made, listed⟩ := good_listed good
  exact ⟨fuel, prog, made, fun stdin => listed.runs made small stdin⟩

theorem written_runs_sample :
    ∃ fuel prog, makeProg .unitTests fuel (sample.map Written.source) = .ok (some prog) ∧
      ∀ stdin, Implements .unitTests prog stdin (interpret (sample.map Written.lines)) (launch stdin) :=
  written_runs sample_good sample_small

theorem sample_ends : Yields (interpret (sample.map Written.lines)) (launch [])
    (.halted { stdin := [], stdout := ascii "42", lastStdout := 50 }) := by
  have finished : finish (interpret (sample.map Written.lines)) 60 (launch []) =
      some (.halted { stdin := [], stdout := ascii "42", lastStdout := 50 }) := by
    decide +kernel
  exact yields_of_finish finished

theorem sample_kept : ¬Yields (interpret (sample.map Written.lines)) (launch []) .lost := by
  intro lost
  cases sample_ends.unique lost

end Hvme.Vm
