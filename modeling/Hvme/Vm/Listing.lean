import Hvme.Vm.Assembling

set_option autoImplicit false

namespace Hvme.Vm

open Execution

def numbered (first : Nat) (body : List Inst) : List Line :=
  body.mapIdx fun i inst =>
    .executes { inst with pos := { inst.pos with ln := UInt32.ofNat (first + i), filename := some "<system>" } }

def builtinLines (name : String) (nlocals : UInt16) (first : Nat) (body : List Inst) : List Line :=
  .declares (mkKey (Ident.ofString name) .func) nlocals :: numbered first body

def startupLines : List Line :=
  numbered 20 [.pushSeg .const 0, { Inst.zero with code := .call, ident := Ident.ofString "Sys.init", nargs := 1 }]

def systemLines : List Line :=
  builtinLines "Sys.print_char" 0 0 [.pushSeg .arg 0, .bare .builtinPrintChar, .pushSeg .const 0, .bare .ret] ++
  builtinLines "Sys.print_num" 0 4 [.pushSeg .arg 0, .bare .builtinPrintNum, .pushSeg .const 0, .bare .ret] ++
  builtinLines "Sys.print_str" 0 8
    [.pushSeg .arg 0, .pushSeg .arg 1, .bare .builtinPrintStr, .pushSeg .const 0, .bare .ret] ++
  builtinLines "Sys.read_char" 0 13 [.bare .builtinReadChar, .bare .ret] ++
  builtinLines "Sys.read_num" 0 15 [.bare .builtinReadNum, .bare .ret] ++
  builtinLines "Sys.read_str" 1 17 [.pushSeg .arg 0, .bare .builtinReadStr, .bare .ret] ++
  startupLines

theorem systemLines_insts : executables systemLines = systemInsts.cell := by
  decide +kernel

theorem systemLines_entries : entriesOf 0 systemLines = systemEntries.reverse := by
  decide +kernel

theorem systemLines_distinct : (systemLines.filterMap Line.key).Nodup := by
  decide +kernel

theorem systemLines_startup : (executables systemLines).drop 20 = executables startupLines := by
  decide +kernel

theorem SameInst.refl (inst : Inst) : SameInst inst inst :=
  ⟨⟨rfl, fun _ => ⟨rfl, rfl⟩, fun _ => rfl, fun _ => rfl⟩, rfl⟩

theorem initSystemFile_assembled {cfg : Config} {file : File} (installed : initSystemFile cfg = .ok file) :
    Assembled cfg (file.st, file.insts) systemLines := by
  obtain ⟨other, set, bounded, unique, binds, insts, -⟩ := initSystemFile_installs cfg
  cases installed.symm.trans set
  refine ⟨bounded.valid, unique, systemLines_distinct, fun key val => ?_, ?_⟩
  · rw [systemLines_entries, List.mem_reverse]
    exact binds key val
  · rw [systemLines_insts, insts]
    exact List.forall₂_same.mpr fun inst _ => SameInst.refl inst

/-- `srcs` are read as `files`. -/
def ReadAs (cfg : Config) (fuel : Nat) (srcs : List Source) (files : List (List Line)) : Prop :=
  ∃ statics made, procFiles cfg fuel Statics.init srcs = .ok (statics, some made) ∧
    files = made.map fun file => fileLines cfg file.2.filename file.1.cell

/-- `srcs` are read as `files`, none of which declares a name twice. -/
structure Listed (cfg : Config) (fuel : Nat) (srcs : List Source) (files : List (List Line)) : Prop where
  reads : ReadAs cfg fuel srcs files
  distinct : ∀ lines ∈ files, (lines.filterMap Line.key).Nodup

theorem reads_of_made {cfg : Config} {fuel : Nat} {srcs : List Source} {prog : Program}
    (made : makeProg cfg fuel srcs = .ok (some prog)) : ∃ files, ReadAs cfg fuel srcs files := by
  obtain ⟨statics, read, processed, -⟩ := makeProg_some.1 prog made
  exact ⟨_, statics, read, processed, rfl⟩

theorem assembled_files {cfg : Config} {srcs : List Source} {made : List (Tokens × File)}
    (compiled : List.Forall₂ (fun src file => Compiles cfg src file.1 file.2) srcs made)
    (distinct : ∀ file ∈ made, ((fileLines cfg file.2.filename file.1.cell).filterMap Line.key).Nodup) :
    List.Forall₂ (Assembled cfg) (made.map fun file => (file.2.st, file.2.insts))
      (made.map fun file => fileLines cfg file.2.filename file.1.cell) := by
  induction compiled with
  | nil => exact .nil
  | cons first rest ih =>
    obtain ⟨here, later⟩ := List.forall_mem_cons.mp distinct
    rw [first.filename] at here
    refine .cons ?_ (ih later)
    simp only [first.filename]
    exact first.assembled here

theorem Listed.assembled {cfg : Config} {fuel : Nat} {srcs : List Source} {files : List (List Line)} {prog : Program}
    (listed : Listed cfg fuel srcs files) (made : makeProg cfg fuel srcs = .ok (some prog)) :
    List.Forall₂ (Assembled cfg) (codeOf prog) (systemLines :: files) := by
  obtain ⟨⟨statics, read, processed, rfl⟩, distinct⟩ := listed
  obtain ⟨system, files', installed, same, -⟩ := (makeProg_made made).files
  -- The system file comes first, and the others in the order that they are given in.
  obtain ⟨statics', read', processed', tail⟩ := makeProg_some.1 prog made
  cases processed'.symm.trans processed
  rw [same, List.tail_cons] at tail
  rw [codeOf, same, tail, List.map_cons, List.map_map]
  exact .cons (initSystemFile_assembled installed)
    (assembled_files (procFiles_compile processed) fun file member => distinct _ (List.mem_map_of_mem member))

/-- The sizes of files that return addresses are words for. -/
structure Small (files : List (List Line)) : Prop where
  insts : ∀ lines ∈ files, (executables lines).length ≤ 2 ^ 16
  files : files.length < 2 ^ 16

theorem Listed.fits {cfg : Config} {fuel : Nat} {srcs : List Source} {files : List (List Line)} {prog : Program}
    (listed : Listed cfg fuel srcs files) (made : makeProg cfg fuel srcs = .ok (some prog)) (small : Small files) :
    Fits prog := by
  have assembled := listed.assembled made
  have length := assembled.length_eq
  rw [codeOf, List.length_map, List.length_cons] at length
  refine ⟨fun file member => ?_, length ▸ small.files⟩
  obtain ⟨i, inside, rfl⟩ := List.mem_iff_getElem.mp member
  have here := assembled.get (i := i) (by rwa [codeOf, List.length_map]) (by rwa [List.length_cons, ← length])
  simp only [codeOf, List.get_eq_getElem, List.getElem_map] at here
  rw [here.insts.length_eq]
  -- The system file has the 22 instructions that it is made with.
  cases i with
  | zero => exact systemLines_insts ▸ (by decide : systemInsts.cell.length ≤ 2 ^ 16)
  | succ i => exact small.insts _ (List.getElem_mem _)

/-- `exec_prog` does with a program what the moves from `start` do, for as long as that is not lost. -/
structure Implements {σ : Type} (cfg : Config) (prog : Program) (stdin : List Byte) (move : σ → Move σ End)
    (start : σ) : Prop where
  ends : ∀ ending, ExecProg cfg prog stdin ending → Yields move start (outcome ending) ∨ Yields move start .lost
  ends_back : ∀ result, result ≠ .lost → Yields move start result →
    ∃ ending, ExecProg cfg prog stdin ending ∧ outcome ending = result

theorem Refines.implements {cfg : Config} {prog : Program} {stdin : List Byte} (refines : Refines cfg prog stdin) :
    Implements cfg prog stdin (step (Control.ofCode (codeOf prog))) (State.start Place.start stdin) where
  ends := refines.ends
  ends_back := refines.ends_back

section implements

variable {σ τ : Type} {cfg : Config} {prog : Program} {stdin : List Byte} {move : σ → Move σ End}
  {move' : τ → Move τ End} {start : σ} {start' : τ}

theorem Implements.of_yields_iff (implements_ : Implements cfg prog stdin move start)
    (same : ∀ result, Yields move start result ↔ Yields move' start' result) :
    Implements cfg prog stdin move' start' where
  ends := by
    intro ending ends
    exact (implements_.ends ending ends).imp (same _).mp (same _).mp
  ends_back := by
    intro result kept yields
    exact implements_.ends_back result kept ((same _).mpr yields)

theorem Implements.agree {R : σ → τ → Prop} (implements_ : Implements cfg prog stdin move start)
    (agree : Agree move move' R) (related : R start start') : Implements cfg prog stdin move' start' :=
  implements_.of_yields_iff fun _ => agree.yields_iff related

theorem Implements.diverges (implements_ : Implements cfg prog stdin move start)
    (diverges : Diverges move start) :
    Diverges (Machine.move cfg) (Machine.start prog stdin) := by
  refine (yields_or_diverges (Machine.move cfg) (Machine.start prog stdin)).resolve_left ?_
  rintro ⟨ending, ends⟩
  -- Any ending of `exec_prog` would be one of the moves, or they would be lost.
  rcases implements_.ends ending ends with yields | lost
  · exact diverges.not_yields yields
  · exact diverges.not_yields lost

end implements

theorem start_beside {Loc Loc' : Type} {ctl : Control Loc} {ctl' : Control Loc'} {start : Loc} {start' : Loc'}
    {place : Nat → Nat} {R : Loc → Loc' → Prop} (related : R start start') (stdin : List Byte) :
    Beside ctl ctl' place R (State.start start stdin) (State.start start' stdin) where
  loc := related
  data := rfl
  callers := .nil

def Spot.start : Spot where
  fi := 0
  lines := startupLines

abbrev interpret (files : List (List Line)) : State Spot → Move (State Spot) End :=
  step (Control.ofLines (systemLines :: files))

abbrev launch (stdin : List Byte) : State Spot := State.start Spot.start stdin

theorem start_here {cfg : Config} {code : Code} {files : List (List Line)}
    (assembled : List.Forall₂ (Assembled cfg) code (systemLines :: files)) : Here code Place.start Spot.start := by
  obtain ⟨system, code, first, -, rfl⟩ := List.forall₂_cons_right_iff.mp assembled
  refine ⟨rfl, system, rfl, ?_⟩
  rw [Spot.start, ← systemLines_startup]
  exact List.forall₂_drop 20 first.insts

theorem Listed.interprets {cfg : Config} {fuel : Nat} {srcs : List Source} {files : List (List Line)}
    {prog : Program} (listed : Listed cfg fuel srcs files) (made : makeProg cfg fuel srcs = .ok (some prog))
    (fits : Fits prog) (stdin : List Byte) : Implements cfg prog stdin (interpret files) (launch stdin) := by
  have assembled := listed.assembled made
  have refines := (makeProg_made made).refines fits stdin
  exact refines.implements.agree (assembled_corresponds assembled).agree (start_beside (start_here assembled) stdin)

theorem Listed.runs {cfg : Config} {fuel : Nat} {srcs : List Source} {files : List (List Line)} {prog : Program}
    (listed : Listed cfg fuel srcs files) (made : makeProg cfg fuel srcs = .ok (some prog)) (small : Small files)
    (stdin : List Byte) : Implements cfg prog stdin (interpret files) (launch stdin) :=
  listed.interprets made (listed.fits made small) stdin

end Hvme.Vm
