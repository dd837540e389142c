import Hvme.Parser.Filling
import Hvme.Parser.Language
import Hvme.Parser.Pieces
import Hvme.Program.Separate
import Hvme.Symbols.Duplicates
import Hvme.Vm.Calls

set_option autoImplicit false

namespace Hvme

def Source.scanner (src : Source) (statics : Statics) : Scanner where
  tokens := newTokens (some src.fn)
  statics := statics
  warnings := []

section programs

variable {cfg : Config} {fuel : Nat} {srcs : List Source} {prog : Program}

theorem procFile_some {statics last : Statics} {src : Source} {made : Tokens × File}
    (processed : procFile cfg fuel statics src = .ok (last, some made)) :
    ∃ content sc p st, src.content = some content ∧
      scan cfg fuel (src.scanner statics) (some content) = .ok (.ok, sc) ∧
      parse cfg sc.tokens (newInsts (some src.fn)) (some (newSt cfg)) = .ok (.ok, p) ∧ p.st = some st ∧
      last = sc.statics ∧
      made = (sc.tokens, { filename := src.fn, st := st, insts := p.insts, mem := newMem, ei := 0 }) := by
  unfold procFile at processed
  cases content : src.content with
  | none =>
    rw [content] at processed
    cases processed
  | some bytes =>
    simp only [content] at processed
    split at processed
    · cases processed
    · cases processed
    · next sc returns =>
      split at processed
      · cases processed
      · cases processed
      · next p parsed =>
        obtain ⟨same, some_⟩ := Prod.mk.inj (Except.ok.inj processed)
        obtain ⟨st, table, rfl⟩ := Option.map_eq_some_iff.mp some_
        exact ⟨bytes, sc, p, st, rfl, returns, parsed, table, same.symm, rfl⟩

theorem makeProg_iff : makeProg cfg fuel srcs = .ok (some prog) ↔
    ∃ system statics made, initSystemFile cfg = .ok system ∧
      procFiles cfg fuel Statics.init srcs = .ok (statics, some made) ∧
      prog = { files := system :: made.map Prod.snd, fi := 0, heap := newHeap, stack := newStack cfg } := by
  simp only [makeProg, bind, Except.bind]
  constructor
  · intro made
    split at made
    · cases made
    · next system installed =>
      split at made
      · cases made
      · next result processed =>
        obtain ⟨statics, _ | files⟩ := result
        · cases made
        · cases made
          exact ⟨system, statics, files, installed, processed, rfl⟩
  · rintro ⟨system, statics, made, installed, processed, rfl⟩
    simp only [installed, processed, Option.map_some]

end programs

end Hvme

namespace Hvme.Vm

open Execution

structure Bounded (cfg : Config) (st : SymbolTable) (count : Nat) : Prop where
  valid : st.Valid cfg
  addr_le : ∀ sym ∈ st.cell, sym.val.instAddr ≤ count

section tables

variable {cfg : Config} {st last : SymbolTable} {count : Nat}

theorem newSt_bounded (cfg : Config) : Bounded cfg (newSt cfg) count where
  valid := newSt_valid cfg
  addr_le := by
    intro sym member
    obtain rfl : sym = Symbol.zero := List.eq_of_mem_replicate member
    exact Nat.zero_le count

theorem Bounded.mono {more : Nat} (bounded : Bounded cfg st count) (le : count ≤ more) : Bounded cfg st more :=
  ⟨bounded.valid, fun sym member => le_trans (bounded.addr_le sym member) le⟩

theorem Bounded.grow (bounded : Bounded cfg st count) : Bounded cfg (st.grow cfg) count where
  valid := bounded.valid.grow
  addr_le := by
    intro sym member
    obtain ⟨more, cell⟩ := st.grow_cell cfg
    rw [cell, List.mem_append] at member
    rcases member with old | new
    · exact bounded.addr_le sym old
    · obtain rfl : sym = Symbol.zero := List.eq_of_mem_replicate new
      exact Nat.zero_le count

theorem Bounded.insertSt {key : SymKey} {val : SymVal} {res : InsertResult} (bounded : Bounded cfg st count)
    (le : val.instAddr ≤ count) (inserted : insertSt cfg st key val = .ok (res, last)) : Bounded cfg last count where
  valid := insertSt_valid bounded.valid inserted
  addr_le := by
    intro sym member
    rcases insertSt_cases bounded.valid inserted with ⟨-, rfl⟩ | ⟨idx, other, -, rfl, -⟩
    · exact bounded.grow.addr_le sym member
    · rcases List.mem_or_eq_of_mem_set member with old | rfl
      · exact bounded.grow.addr_le sym old
      · exact le

theorem Bounded.enterAll {entries : List (SymKey × SymVal)} (bounded : Bounded cfg st count)
    (le : ∀ entry ∈ entries, entry.2.instAddr ≤ count) (entered : enterAll cfg st entries = .ok (.ok, last)) :
    Bounded cfg last count := by
  induction entries generalizing st with
  | nil =>
    cases entered
    exact bounded
  | cons entry entries ih =>
    obtain ⟨first, later⟩ := List.forall_mem_cons.mp le
    obtain ⟨next, inserted, rest⟩ := enterAll_cons.mp entered
    exact ih (bounded.insertSt first inserted) later rest

theorem Bounded.find {key : SymKey} {val : SymVal} (bounded : Bounded cfg st count) (found : find st key = some val) :
    val.instAddr ≤ count :=
  bounded.addr_le _ (mem_of_find bounded.valid found)

end tables

theorem declarations_addr_le {addr : Nat} {clauses : List Clause} {entry : SymKey × SymVal}
    (member : entry ∈ declarations addr clauses) : entry.2.instAddr ≤ addr + clauses.countP Clause.emits := by
  induction clauses generalizing addr with
  | nil => cases member
  | cons clause clauses ih =>
    rw [List.countP_cons]
    rw [declarations] at member
    split at member
    · next emits =>
      rw [if_pos ((clause.emits_iff addr).mpr emits)]
      have later := ih member
      omega
    · next declared declares =>
      rcases List.mem_cons.mp member with rfl | later
      · have here : entry.2.instAddr = addr := by
          cases clause with
          | item item => cases item <;> cases declares <;> rfl
          | function ident =>
            cases declares
            rfl
          | call ident => cases declares
        omega
      · have later := ih later
        omega

structure Compiles (cfg : Config) (src : Source) (tokens : Tokens) (file : File) : Prop where
  filename : file.filename = src.fn
  mem : file.mem = newMem
  ei : file.ei = 0
  parsed : ∃ p, parse cfg tokens (newInsts (some src.fn)) (some (newSt cfg)) = .ok (.ok, p) ∧
    p.st = some file.st ∧ file.insts = p.insts

theorem procFile_compiles {cfg : Config} {fuel : Nat} {statics last : Statics} {src : Source} {made : Tokens × File}
    (processed : procFile cfg fuel statics src = .ok (last, some made)) : Compiles cfg src made.1 made.2 := by
  obtain ⟨_, _, p, st, -, -, parsed, table, -, rfl⟩ := procFile_some processed
  exact ⟨rfl, rfl, rfl, p, parsed, table, rfl⟩

theorem procFiles_compile {cfg : Config} {fuel : Nat} {statics last : Statics} {srcs : List Source}
    {made : List (Tokens × File)} (processed : procFiles cfg fuel statics srcs = .ok (last, some made)) :
    List.Forall₂ (fun src file => Compiles cfg src file.1 file.2) srcs made := by
  induction srcs generalizing statics made with
  | nil =>
    cases processed
    exact .nil
  | cons src srcs ih =>
    obtain ⟨-, mid, file, rest, -, first, others, rfl⟩ := procFiles_cons.mp processed
    exact .cons (procFile_compiles first) (ih others)

theorem Compiles.bounded {cfg : Config} {src : Source} {tokens : Tokens} {file : File}
    (compiled : Compiles cfg src tokens file) : Bounded cfg file.st file.insts.cell.length := by
  obtain ⟨p, parsed, table, insts⟩ := compiled.parsed
  obtain ⟨nothing, emitted, same, fills⟩ := parse_fills parsed
  have cases_ := parse_cases cfg tokens (newInsts (some src.fn)) (newSt cfg)
  have count : file.insts.cell.length = (clausesOf tokens.cell).countP Clause.emits := by
    rw [List.countP_eq_length_filter, insts, same]
    exact fills.length
  -- The addresses are counted from an empty instruction list and table.
  rw [show (newInsts (some src.fn)).cell.length + (newSt cfg).numInst = 0 from rfl] at cases_
  split at cases_
  · next fault _ => cases cases_.symm.trans parsed
  · next last _ =>
    obtain ⟨q, failed⟩ := cases_
    cases failed.symm.trans parsed
  · next last entered =>
    rw [if_pos nothing] at cases_
    obtain ⟨q, num, parsed', table', -⟩ := cases_
    cases parsed'.symm.trans parsed
    rw [Option.some.inj (table.symm.trans table')]
    have bounded := (newSt_bounded cfg).enterAll (fun entry member => declarations_addr_le member) entered
    rw [Nat.zero_add, ← count] at bounded
    exact ⟨⟨bounded.valid.length_eq, bounded.valid.len_eq, bounded.valid.occupied_le, bounded.valid.used_le,
      bounded.valid.offset_eq⟩, bounded.addr_le⟩

def declared (name : String) (addr : Nat) (nlocals : UInt16) : SymKey × SymVal :=
  (mkKey (Ident.ofString name) .func, mkFnval addr nlocals)

def systemEntries : List (SymKey × SymVal) :=
  [declared "Sys.read_str" 17 1, declared "Sys.read_num" 15 0, declared "Sys.read_char" 13 0,
    declared "Sys.print_str" 8 0, declared "Sys.print_num" 4 0, declared "Sys.print_char" 0 0]

def systemBody : List Inst :=
  [.pushSeg .arg 0, .bare .builtinPrintChar, .pushSeg .const 0, .bare .ret,
    .pushSeg .arg 0, .bare .builtinPrintNum, .pushSeg .const 0, .bare .ret,
    .pushSeg .arg 0, .pushSeg .arg 1, .bare .builtinPrintStr, .pushSeg .const 0, .bare .ret,
    .bare .builtinReadChar, .bare .ret,
    .bare .builtinReadNum, .bare .ret,
    .pushSeg .arg 0, .bare .builtinReadStr, .bare .ret,
    .pushSeg .const 0, { Inst.zero with code := .call, ident := Ident.ofString "Sys.init", nargs := 1 }]

def systemInsts : Insts := systemBody.foldl addBii (newInsts (some "<system>"))

structure Installed (cfg : Config) (file : File) (entries : List (SymKey × SymVal)) (body : List Inst) : Prop where
  sets : file.Sets cfg entries body.length
  bounded : Bounded cfg file.st body.length
  insts : file.insts = body.foldl addBii (newInsts (some "<system>"))
  mem : file.mem = newMem

theorem Installed.builtin {cfg : Config} {file : File} {entries : List (SymKey × SymVal)} {body : List Inst}
    (installed : Installed cfg file entries body) (name : String) (nlocals : UInt16) (more : List Inst)
    (fresh : mkKey (Ident.ofString name) .func ∉ entries.map Prod.fst) :
    ∃ next, addBuiltin cfg name nlocals more file = .ok next ∧
      Installed cfg next (declared name body.length nlocals :: entries) (body ++ more) := by
  obtain ⟨next, added, sets⟩ := addBuiltin_ok installed.sets name nlocals more fresh
  refine ⟨next, added, ?_⟩
  unfold addBuiltin at added
  split at added
  · cases added
  · next inserted =>
    cases added
    refine ⟨List.length_append ▸ sets, ?_, ?_, installed.mem⟩
    · have bounded := installed.bounded.insertSt (installed.sets.size ▸ le_rfl) inserted
      exact bounded.mono (by rw [List.length_append]; exact Nat.le_add_right _ _)
    · rw [List.foldl_append, ← installed.insts]

theorem initSystemFile_installs (cfg : Config) :
    ∃ file, initSystemFile cfg = .ok file ∧ Bounded cfg file.st file.insts.cell.length ∧ file.st.UniqueKeys ∧
      (∀ key val, file.st.Binds key val ↔ (key, val) ∈ systemEntries) ∧ file.insts = systemInsts ∧
      file.mem = newMem ∧ file.ei = 20 := by
  let empty : File :=
    { filename := "<system>", st := newSt cfg, insts := newInsts (some "<system>"), mem := newMem, ei := 0 }
  have start : Installed cfg empty [] [] :=
    ⟨⟨newSt_valid cfg, newSt_unique cfg, fun key val => by simpa using newSt_binds cfg key val, rfl, rfl⟩,
      newSt_bounded cfg, rfl, rfl⟩
  obtain ⟨file₁, printChar, installed⟩ := start.builtin "Sys.print_char" 0
    [.pushSeg .arg 0, .bare .builtinPrintChar, .pushSeg .const 0, .bare .ret] (by decide)
  obtain ⟨file₂, printNum, installed⟩ := installed.builtin "Sys.print_num" 0
    [.pushSeg .arg 0, .bare .builtinPrintNum, .pushSeg .const 0, .bare .ret] (by decide)
  obtain ⟨file₃, printStr, installed⟩ := installed.builtin "Sys.print_str" 0
    [.pushSeg .arg 0, .pushSeg .arg 1, .bare .builtinPrintStr, .pushSeg .const 0, .bare .ret] (by decide)
  obtain ⟨file₄, readChar, installed⟩ := installed.builtin "Sys.read_char" 0
    [.bare .builtinReadChar, .bare .ret] (by decide)
  obtain ⟨file₅, readNum, installed⟩ := installed.builtin "Sys.read_num" 0
    [.bare .builtinReadNum, .bare .ret] (by decide)
  obtain ⟨file₆, readStr, installed⟩ := installed.builtin "Sys.read_str" 1
    [.pushSeg .arg 0, .bare .builtinReadStr, .bare .ret] (by decide)
  have run : initSystemFile cfg = .ok
      { file₆ with
        ei := UInt32.ofNat file₆.insts.cell.length
        insts := [.pushSeg .const 0,
          { Inst.zero with code := .call, ident := Ident.ofString "Sys.init", nargs := 1 }].foldl addBii
            file₆.insts } := by
    simp only [initSystemFile, builtinPrintChar, builtinPrintNum, builtinPrintStr, builtinReadChar,
      builtinReadNum, builtinReadStr]
    change (addBuiltin cfg "Sys.print_char" 0 _ empty >>= _) = _
    simp only [printChar, printNum, printStr, readChar, readNum, readStr, bind, Except.bind]
  refine ⟨_, run, ?_, installed.sets.unique, installed.sets.binds, ?_, installed.mem, ?_⟩
  · refine installed.bounded.mono ?_
    rw [foldl_addBii_length, installed.sets.size]
    exact Nat.le_add_right _ _
  · rw [installed.insts, ← List.foldl_append]
    rfl
  · rw [installed.sets.size]
    rfl

structure Made (cfg : Config) (srcs : List Source) (prog : Program) : Prop where
  fi : prog.fi = 0
  heap : prog.heap = newHeap
  stack : prog.stack = newStack cfg
  files : ∃ system made, initSystemFile cfg = .ok system ∧ prog.files = system :: made.map Prod.snd ∧
    List.Forall₂ (fun src file => Compiles cfg src file.1 file.2) srcs made

theorem makeProg_made {cfg : Config} {fuel : Nat} {srcs : List Source} {prog : Program}
    (made : makeProg cfg fuel srcs = .ok (some prog)) : Made cfg srcs prog := by
  obtain ⟨system, statics, files, installed, processed, rfl⟩ := makeProg_iff.mp made
  exact ⟨rfl, rfl, rfl, system, files, installed, rfl, procFiles_compile processed⟩

def codeOf (prog : Program) : Code := prog.files.map fun file => (file.st, file.insts)

structure Fits (prog : Program) : Prop where
  insts : ∀ file ∈ prog.files, file.insts.cell.length ≤ 2 ^ 16
  files : prog.files.length ≤ 2 ^ 16

theorem Made.file {cfg : Config} {srcs : List Source} {prog : Program} (made : Made cfg srcs prog) {file : File}
    (member : file ∈ prog.files) : Bounded cfg file.st file.insts.cell.length ∧ file.mem = newMem := by
  obtain ⟨system, files, installed, same, compiled⟩ := made.files
  rw [same] at member
  rcases List.mem_cons.mp member with rfl | member
  -- The system file is made by `init_system_file`, whatever the sources are.
  · obtain ⟨other, set, bounded, -, -, -, mem, -⟩ := initSystemFile_installs cfg
    cases installed.symm.trans set
    exact ⟨bounded, mem⟩
  · obtain ⟨one, here, rfl⟩ := List.mem_map.mp member
    obtain ⟨i, rfl⟩ := List.mem_iff_get.mp here
    obtain ⟨length, all⟩ := List.forall₂_iff_get.mp compiled
    have compiles := all i (by rw [length]; exact i.2) i.2
    exact ⟨compiles.bounded, compiles.mem⟩

theorem Made.linked {cfg : Config} {srcs : List Source} {prog : Program} (made : Made cfg srcs prog) (fits : Fits prog) :
    Linked cfg (codeOf prog) where
  tables := by
    intro file member
    obtain ⟨file, here, rfl⟩ := List.mem_map.mp member
    exact (made.file here).1.valid
  bounds := by
    intro file member key val found
    obtain ⟨file, here, rfl⟩ := List.mem_map.mp member
    exact (made.file here).1.find found
  small := by
    intro file member
    obtain ⟨file, here, rfl⟩ := List.mem_map.mp member
    exact fits.insts file here
  few := by
    rw [codeOf, List.length_map]
    exact fits.files

def State.start {Loc : Type} (loc : Loc) (stdin : List Byte) : State Loc where
  loc := loc
  data :=
    { frame := Frame.empty
      heap := List.replicate memHeapSize 0
      memories := fun _ => newMem
      io := Io.init stdin }
  callers := []

def Place.start : Place where
  fi := 0
  ei := 20

theorem Made.shows {cfg : Config} {srcs : List Source} {prog : Program} (made : Made cfg srcs prog)
    (stdin : List Byte) : Shows cfg (codeOf prog) (Machine.start prog stdin) (State.start Place.start stdin) := by
  obtain ⟨system, files, installed, same, -⟩ := made.files
  obtain ⟨other, set, -, -, -, -, -, ei⟩ := initSystemFile_installs cfg
  cases installed.symm.trans set
  have active : (Machine.start prog stdin).file = some system := by
    rw [Machine.file, Machine.start, made.fi, same]
    rfl
  exact {
    valid := made.stack ▸ newStack_valid cfg
    code_eq := rfl
    live := by
      rw [Machine.start, made.stack]
      rfl
    segments := by
      rw [Machine.start, made.stack]
      rfl
    heap := made.heap
    size := List.length_replicate
    memories := fun fi file found => (made.file (List.mem_of_getElem? found)).2
    io := rfl
    fi := made.fi
    file := ⟨system, active, by rw [ei]; rfl⟩
    sound := ⟨rfl, rfl⟩ }

/-- What `exec_prog` does with a program that has been made is what the virtual machine does with
its code, for as long as that is not lost. -/
structure Refines (cfg : Config) (prog : Program) (stdin : List Byte) : Prop where
  ends : ∀ ending, ExecProg cfg prog stdin ending →
    Yields (step (Control.ofCode (codeOf prog))) (State.start Place.start stdin) (outcome ending) ∨
      Yields (step (Control.ofCode (codeOf prog))) (State.start Place.start stdin) .lost
  ends_back : ∀ result, result ≠ .lost →
    Yields (step (Control.ofCode (codeOf prog))) (State.start Place.start stdin) result →
    ∃ ending, ExecProg cfg prog stdin ending ∧ outcome ending = result
  passes : ∀ m, Runs (Machine.move cfg) (Machine.start prog stdin) m →
    (∃ s, Runs (step (Control.ofCode (codeOf prog))) (State.start Place.start stdin) s ∧ Shows cfg (codeOf prog) m s) ∨
      Yields (step (Control.ofCode (codeOf prog))) (State.start Place.start stdin) .lost
  passes_back : ∀ s, Runs (step (Control.ofCode (codeOf prog))) (State.start Place.start stdin) s →
    ∃ m, Runs (Machine.move cfg) (Machine.start prog stdin) m ∧ Shows cfg (codeOf prog) m s

theorem Made.refines {cfg : Config} {srcs : List Source} {prog : Program} (made : Made cfg srcs prog)
    (fits : Fits prog) (stdin : List Byte) : Refines cfg prog stdin := by
  have follows := move_follows (made.linked fits)
  have shown := made.shows stdin
  constructor
  · intro ending ends
    obtain ⟨result, ends', same | lost⟩ := follows.yields_back shown ends
    · exact .inl (same ▸ ends')
    · exact .inr (lost ▸ ends')
  · intro result kept ends
    exact follows.yields shown ends kept
  · intro m run
    rcases follows.runs_back shown run with ⟨s, run', shown'⟩ | ⟨result, ends, rfl⟩
    · exact .inl ⟨s, run', shown'⟩
    · exact .inr ends
  · intro s run
    exact follows.runs shown run

/-- The sources are carried out by a machine of activations, each with segments of its own. -/
theorem execProg_refines {cfg : Config} {fuel : Nat} {srcs : List Source} {prog : Program}
    (made : makeProg cfg fuel srcs = .ok (some prog)) (fits : Fits prog) (stdin : List Byte) :
    Refines cfg prog stdin := (makeProg_made made).refines fits stdin

theorem fits_of_sizes {prog : Program}
    (sizes : (prog.files.all fun file => decide (file.insts.cell.length ≤ 2 ^ 16)) = true ∧
      prog.files.length ≤ 2 ^ 16) : Fits prog where
  insts := by
    intro file member
    exact of_decide_eq_true (List.all_eq_true.mp sizes.1 file member)
  files := sizes.2

theorem execProg_refines_print :
    ∃ prog, makeProg .unitTests 9 [{ fn := "a.vm", content := some (ascii
        "function Sys.init 0\npush constant 7\ncall Sys.print_num 1\nreturn\n") }] = .ok (some prog) ∧
      Fits prog ∧ Refines .unitTests prog [] := by
  have sizes : (programOf .unitTests "function Sys.init 0\npush constant 7\ncall Sys.print_num 1\nreturn\n").map
      (fun prog => decide ((prog.files.all fun file => decide (file.insts.cell.length ≤ 2 ^ 16)) = true ∧
        prog.files.length ≤ 2 ^ 16)) = some true := by
    decide +kernel
  obtain ⟨prog, made, small⟩ := Option.map_eq_some_iff.mp sizes
  have fits := fits_of_sizes (of_decide_eq_true small)
  exact ⟨prog, programOf_made made, fits, execProg_refines (programOf_made made) fits []⟩

end Hvme.Vm
