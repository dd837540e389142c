import Hvme.Model.Hvme
import Hvme.Vm.Instructions

set_option autoImplicit false

namespace Hvme.Vm

open Outcome Execution

structure Linked (cfg : Config) (code : Code) : Prop where
  tables : ∀ file ∈ code, file.1.Valid cfg
  bounds : ∀ file ∈ code, ∀ key val, find file.1 key = some val → val.instAddr ≤ file.2.cell.length
  small : ∀ file ∈ code, file.2.cell.length ≤ 2 ^ 16
  few : code.length ≤ 2 ^ 16

section linked

variable {cfg : Config} {code : Code} (linked : Linked cfg code)

include linked

theorem Linked.fetched {place : Place} {inst : Inst} (here : (Control.ofCode code).fetch place = some inst) :
    place.ei < 2 ^ 16 ∧ place.fi < 2 ^ 16 := by
  obtain ⟨file, found, at_⟩ := Option.bind_eq_some_iff.mp here
  have inside := (List.getElem?_eq_some_iff.mp at_).1
  have known := (List.getElem?_eq_some_iff.mp found).1
  have small := linked.small file (List.mem_of_getElem? found)
  have few := linked.few
  exact ⟨by omega, by omega⟩

theorem Linked.addr_lt {file : SymbolTable × Insts} (member : file ∈ code) {key : SymKey} {val : SymVal}
    (found : find file.1 key = some val) : val.instAddr < 2 ^ 32 := by
  have bound := linked.bounds file member key val found
  have small := linked.small file member
  omega

end linked

def outcome : Ending → End
  | .halted io => .halted io
  | .failed diag io => .failed diag io
  | .fault _ => .fault

abbrev Alike (cfg : Config) (code : Code) : Move Machine Ending → Move (State Place) End → Prop :=
  Matched (Shows cfg code) (fun ending result => outcome ending = result) fun result => result = .lost

section places

variable {cfg : Config} {code : Code} {m : Machine} {s : State Place} (shown : Shows cfg code m s)

include shown

theorem Shows.fetch : (Control.ofCode code).fetch s.loc = m.inst := by
  obtain ⟨file, active, ei⟩ := shown.file
  have here : m.prog.files[s.loc.fi]? = some file := shown.fi ▸ active
  rw [Control.ofCode, Machine.inst, active, ← shown.code_eq, Machine.code]
  simp only [List.getElem?_map, here, Option.map_some, Option.bind_some, ei]

theorem Shows.tabled (linked : Linked cfg code) : ∀ file ∈ m.code, file.1.Valid cfg :=
  shown.code_eq ▸ linked.tables

theorem Shows.atPlace {fi ei : Nat} {file : File} (here : m.prog.files[fi]? = some file) (next : UInt32)
    (same : next.toNat = ei) :
    Shows cfg code ((m.withFi fi).onFile fun file => { file with ei := next })
      { s with loc := { fi := fi, ei := ei } } where
  valid := shown.valid
  code_eq := (code_onFile (m.withFi fi) (fun file => { file with ei := next }) fun _ => rfl).trans shown.code_eq
  live := shown.live
  segments := shown.segments
  heap := shown.heap
  size := shown.size
  memories := by
    intro idx other found
    rw [Machine.onFile_files, List.getElem?_modify] at found
    obtain ⟨before_, at_, rfl⟩ := Option.map_eq_some_iff.mp found
    have mem := shown.memories idx before_ at_
    -- Only the instruction index of the file changes, and no memory depends on it.
    by_cases own : fi = idx
    · simp only [Machine.withFi_fi, own, if_true]
      exact mem
    · simp only [Machine.withFi_fi, own, if_false]
      exact mem
  io := shown.io
  fi := rfl
  file := by
    have active : (m.withFi fi).file = some file := here
    exact ⟨{ file with ei := next }, by rw [Machine.onFile_file, active, Option.map_some], same⟩
  sound := shown.sound

theorem Shows.incEi (place : Place) (fi : place.fi = s.loc.fi)
    (next : (UInt32.ofNat s.loc.ei + 1).toNat = place.ei) :
    wp incEi (fun _ m' => Shows cfg code m' { s with loc := place }) (fun _ _ => False) m := by
  obtain ⟨file, active, ei⟩ := shown.file
  have here : m.prog.files[place.fi]? = some file := by rw [fi, ← shown.fi]; exact active
  have same : (file.ei + 1).toNat = place.ei := by
    rw [← next, ← ei, UInt32.ofNat_toNat]
  have landed := shown.atPlace here _ same
  have stays : m.withFi place.fi = m := by
    rw [fi, ← shown.fi]
    rfl
  rw [stays] at landed
  simp only [Hvme.incEi, wp_bind, wp_activeFile, active, reduceCtorEq, false_implies, true_and, Option.some.injEq,
    forall_eq', wp_setEi]
  exact landed

theorem Shows.jumped (linked : Linked cfg code) (key : SymKey) (out : SymVal) :
    (∃ fi val file, m.prog.files[fi]? = some file ∧ val.instAddr < 2 ^ 32 ∧
      (Control.ofCode code).target s.loc key = .found { fi := fi, ei := val.instAddr } val.nlocals ∧
      jumpTo key out m = .ok (.ok, val) (m.landed fi val)) ∨
    ((Control.ofCode code).target s.loc key = .missing ∧ jumpTo key out m = .ok (.err, out) m) ∨
    ((Control.ofCode code).target s.loc key = .ambiguous ∧ ∃ val, jumpTo key out m = .ok (.multDef, val) m) := by
  obtain ⟨file, active, -⟩ := shown.file
  have target : (Control.ofCode code).target s.loc key = resolve (definitions m.code key) m.prog.fi := by
    rw [shown.code_eq, shown.fi]
    rfl
  rw [target]
  have runs : wp (jumpTo key out)
      (fun result m' =>
        (∃ fi val file, m.prog.files[fi]? = some file ∧ val.instAddr < 2 ^ 32 ∧
          resolve (definitions m.code key) m.prog.fi = .found { fi := fi, ei := val.instAddr } val.nlocals ∧
          result = (.ok, val) ∧ m' = m.landed fi val) ∨
        (resolve (definitions m.code key) m.prog.fi = .missing ∧ result = (.err, out) ∧ m' = m) ∨
        (resolve (definitions m.code key) m.prog.fi = .ambiguous ∧ ∃ val, result = (.multDef, val) ∧ m' = m))
      (fun _ _ => False) m := by
    refine wp_jumpTo_code (shown.tabled linked) active (fun fi val file here found resolved => ?_)
      (fun resolved => .inr (.inl ⟨resolved, rfl, rfl⟩)) fun resolved val => .inr (.inr ⟨resolved, val, rfl, rfl⟩)
    have member : (file.st, file.insts) ∈ code :=
      shown.code_eq ▸ List.mem_map_of_mem (List.mem_of_getElem? here)
    exact .inl ⟨fi, val, file, here, linked.addr_lt member found, resolved, rfl, rfl⟩
  obtain ⟨result, m', run, cases_⟩ := runs.total
  rcases cases_ with ⟨fi, val, file, here, small, resolved, rfl, rfl⟩ | ⟨resolved, rfl, rfl⟩ | ⟨resolved, val, rfl, rfl⟩
  · exact .inl ⟨fi, val, file, here, small, resolved, run⟩
  · exact .inr (.inl ⟨resolved, run⟩)
  · exact .inr (.inr ⟨resolved, val, run⟩)

theorem Shows.landed {fi : Nat} {val : SymVal} {file : File} (here : m.prog.files[fi]? = some file)
    (small : val.instAddr < 2 ^ 32) :
    wp Hvme.incEi (fun _ m' => Shows cfg code m' { s with loc := { fi := fi, ei := val.instAddr } })
      (fun _ _ => False) (m.landed fi val) := by
  -- `jump_to` leaves the index one before the target, and the end of the round makes up for it.
  refine (shown.atPlace here val.ei rfl).incEi _ rfl ?_
  rw [UInt32.ofNat_toNat, SymVal.ei_succ, Nat.mod_eq_of_lt small]

end places

section moves

variable {cfg : Config} {code : Code} {m : Machine} {inst : Inst} {s : State Place}

def stopMove (stop : Stop) (m : Machine) : Move Machine Ending :=
  match stop with
  | .err diag => .ends (.failed diag m.io)
  | .fault fault => .ends (.fault fault)

theorem move_alike {move : Move (State Place) End} (here : m.inst = some inst)
    (runs : wp (execInst cfg)
      (fun _ m' => wp incEi (fun _ m'' => Alike cfg code (.goes m'') move) (fun _ _ => False) m')
      (fun stop m' => Alike cfg code (stopMove stop m') move) m) : Alike cfg code (m.move cfg) move := by
  obtain ⟨file, active⟩ := Machine.file_of_inst here
  have inside : file.ei.toNat < file.insts.cell.length := by
    rw [Machine.inst, active] at here
    exact (List.getElem?_eq_some_iff.mp here).1
  have round : wp (execRound cfg) (fun more m' => more = true ∧ Alike cfg code (.goes m') move)
      (fun stop m' => Alike cfg code (stopMove stop m') move) m := by
    unfold execRound
    simp only [wp_bind, wp_activeFile, wp_ite, wp_pure, active, reduceCtorEq, false_implies, true_and,
      Option.some.injEq, forall_eq', inside, not_true_eq_false, forall_const, and_true]
    exact runs.mono (fun _ _ increments => increments.mono (fun _ _ => id) fun _ _ => False.elim) fun _ _ => id
  unfold Machine.move
  cases run : execRound cfg m with
  | ok more m' =>
    obtain ⟨rfl, alike⟩ := round.returns run
    exact alike
  | error stop m' =>
    have alike := round.stops run
    cases stop <;> exact alike

theorem alike_fail (why : Error) {io : Io} {m' : Machine} (printed : m'.io = cleanStdout io) :
    Alike cfg code (stopMove (.err (why.diag inst)) m') (fail inst why io) :=
  .ends (congrArg (End.failed (why.diag inst)) printed)

theorem goOn_alike (shown : Shows cfg code m s) (linked : Linked cfg code) (here : m.inst = some inst)
    (ongoing : inst.code ≠ .goto ∧ inst.code ≠ .ifGoto ∧ inst.code ≠ .call ∧ inst.code ≠ .ret) :
    Alike cfg code (m.move cfg) (goOn (Control.ofCode code) inst s) := by
  have small := (linked.fetched (shown.fetch.trans here)).1
  refine move_alike here ((execInst_meets shown here ongoing).mono (fun _ m' returns => ?_) fun stop m' stops => ?_)
  · obtain ⟨d, result, shown'⟩ := returns
    -- An index below the number of instructions does not wrap around.
    have next : (UInt32.ofNat s.loc.ei + 1).toNat = s.loc.ei + 1 := by
      rw [UInt32.toNat_add, UInt32.toNat_ofNat']
      simp only [UInt32.reduceToNat]
      omega
    refine (shown'.incEi { s.loc with ei := s.loc.ei + 1 } rfl next).mono (fun _ m'' after => ?_)
      fun _ _ => False.elim
    unfold goOn
    rw [show s.data.exec ((Control.ofCode code).file s.loc) inst = .ok d from result]
    exact .goes after
  · unfold goOn
    rcases stops with ⟨why, io, result, rfl, printed⟩ | ⟨result, fault, rfl⟩
    · rw [show s.data.exec ((Control.ofCode code).file s.loc) inst = .error why io from result]
      exact alike_fail why printed
    · rw [show s.data.exec ((Control.ofCode code).file s.loc) inst = .wrong from result]
      exact .ends rfl

theorem execErr_alike {why : Error} {text : String} {io : Io} (streams : m.io = io) (same : why.text inst = text) :
    wp (execErr inst.pos text : ExecM Unit)
      (fun _ m' => wp incEi (fun _ m'' => Alike cfg code (.goes m'') (fail inst why io)) (fun _ _ => False) m')
      (fun stop m' => Alike cfg code (stopMove stop m') (fail inst why io)) m := by
  have diag : why.diag inst = { pos := inst.pos, text := text } := by rw [Error.diag, same]
  rw [wp_execErr, ← diag]
  exact alike_fail why (congrArg cleanStdout streams)

theorem ctrlFlowError_alike {io : Io} (streams : m.io = io) :
    wp (ctrlFlowError inst.ident inst.pos : ExecM Unit)
      (fun _ m' => wp incEi (fun _ m'' => Alike cfg code (.goes m'') (fail inst (.noTarget inst.ident) io)) (fun _ _ => False) m')
      (fun stop m' => Alike cfg code (stopMove stop m') (fail inst (.noTarget inst.ident) io)) m := by
  unfold ctrlFlowError
  rw [wp_ite]
  exact ⟨fun start => execErr_alike streams (if_pos start), fun other => execErr_alike streams (if_neg other)⟩

section jumps

variable (shown : Shows cfg code m s) (linked : Linked cfg code) (here : m.inst = some inst)

include shown linked here

theorem goto_alike (is : inst.code = .goto) : Alike cfg code (m.move cfg) (jump (Control.ofCode code) inst s) := by
  refine move_alike here ?_
  unfold execInst
  simp only [wp_bind, wp_activeInst, here, reduceCtorEq, false_implies, true_and, Option.some.injEq, forall_eq', is]
  unfold execGoto jump
  simp only [wp_bind, wp_activeInst, here, reduceCtorEq, false_implies, true_and, Option.some.injEq, forall_eq']
  rcases shown.jumped linked (mkKey inst.ident .label) SymVal.junk with
    ⟨fi, val, file, at_, small, target, run⟩ | ⟨target, run⟩ | ⟨target, val, run⟩
  · rw [wp_of_ok run, target]
    exact (shown.landed at_ small).mono (fun _ _ after => .goes after) fun _ _ => False.elim
  · rw [wp_of_ok run, target]
    exact ctrlFlowError_alike shown.io
  · rw [wp_of_ok run, target]
    exact execErr_alike shown.io rfl

theorem ifGoto_alike (is : inst.code = .ifGoto) :
    Alike cfg code (m.move cfg) (jumpIf (Control.ofCode code) inst s) := by
  have base := shown.base
  have small := (linked.fetched (shown.fetch.trans here)).1
  refine move_alike here ?_
  unfold execInst
  simp only [wp_bind, wp_activeInst, here, reduceCtorEq, false_implies, true_and, Option.some.injEq, forall_eq', is]
  unfold execIfGoto jumpIf
  rw [wp_bind]
  cases work : s.data.frame.work with
  | nil =>
    rw [work, List.length_nil] at base
    refine wp_execSpop shown.valid inst.pos (fun _ => ?_) fun _ _ word _ => absurd base (Nat.ne_of_lt word)
    exact alike_fail .underflow (congrArg cleanStdout shown.io)
  | cons top below =>
    rw [work, List.length_cons] at base
    refine wp_execSpop shown.valid inst.pos (fun empty => by omega) fun val stack _ popped => ?_
    obtain ⟨rfl, shown'⟩ := shown.popped popped work
    simp only [wp_ite, wp_bind, wp_activeInst, wp_pure, Machine.withStack_inst, here, reduceCtorEq, false_implies,
      true_and, Option.some.injEq, forall_eq']
    constructor
    · intro taken
      -- The word has been popped by the time the jump is made.
      rw [if_pos taken]
      unfold jump
      rcases shown'.jumped linked (mkKey inst.ident .label) SymVal.junk with
        ⟨fi, val, file, at_, small, target, run⟩ | ⟨target, run⟩ | ⟨target, val, run⟩
      · rw [wp_of_ok run, target]
        exact (shown'.landed at_ small).mono (fun _ _ after => .goes after) fun _ _ => False.elim
      · rw [wp_of_ok run, target]
        exact ctrlFlowError_alike (m := (m.withStack stack).withStack _) shown.io
      · rw [wp_of_ok run, target]
        exact execErr_alike (m := (m.withStack stack).withStack _) shown.io rfl
    · intro skipped
      rw [if_neg skipped]
      have next : (UInt32.ofNat s.loc.ei + 1).toNat = s.loc.ei + 1 := by
        rw [UInt32.toNat_add, UInt32.toNat_ofNat']
        simp only [UInt32.reduceToNat]
        omega
      exact (shown'.incEi { s.loc with ei := s.loc.ei + 1 } rfl next).mono (fun _ _ after => .goes after)
        fun _ _ => False.elim

end jumps

end moves

end Hvme.Vm
