import Hvme.Lib.Reaching
import Hvme.Vm.Lines

set_option autoImplicit false

namespace Hvme.Vm

open Execution

def Straight (inst : Inst) : Prop :=
  inst.code ≠ .goto ∧ inst.code ≠ .ifGoto ∧ inst.code ≠ .call ∧ inst.code ≠ .ret

instance (inst : Inst) : Decidable (Straight inst) := by
  unfold Straight
  infer_instance

def Result.settle (inst : Inst) : Result → Except End Data
  | .ok d => .ok d
  | .error why io => .error (.failed (why.diag inst) (cleanStdout io))
  | .wrong => .error .fault

def Data.execAll (fi : Nat) : List Inst → Data → Except End Data
  | [], d => .ok d
  | inst :: insts, d => ((d.exec fi inst).settle inst).bind (Data.execAll fi insts)

section blocks

variable {Loc : Type} {ctl : Control Loc} {fi : Nat} {loc last : Loc} {insts : List Inst}

inductive Along (ctl : Control Loc) (fi : Nat) : Loc → List Inst → Loc → Prop
  | done (loc : Loc) : Along ctl fi loc [] loc
  | next {loc last : Loc} {inst : Inst} {insts : List Inst} (here : ctl.fetch loc = some inst)
      (file : ctl.file loc = fi) (straight : Straight inst) (later : Along ctl fi (ctl.next loc) insts last) :
      Along ctl fi loc (inst :: insts) last

theorem goOn_settle (inst : Inst) (s : State Loc) :
    goOn ctl inst s =
      match (s.data.exec (ctl.file s.loc) inst).settle inst with
      | .ok d => .goes { s with loc := ctl.next s.loc, data := d }
      | .error e => .ends e := by
  unfold goOn
  cases s.data.exec (ctl.file s.loc) inst <;> rfl

theorem step_straight {inst : Inst} {s : State Loc} (here : ctl.fetch s.loc = some inst) (straight : Straight inst) :
    step ctl s = goOn ctl inst s := by
  obtain ⟨goto, ifGoto, call, ret⟩ := straight
  simp only [step, here]
  unfold execute
  split
  · next code => exact absurd code goto
  · next code => exact absurd code ifGoto
  · next code => exact absurd code call
  · next code => exact absurd code ret
  · rfl

theorem Along.runs (along : Along ctl fi loc insts last) {d d' : Data} (callers : List (Caller Loc))
    (done : d.execAll fi insts = .ok d') :
    Runs (step ctl) { loc := loc, data := d, callers := callers } { loc := last, data := d', callers := callers } := by
  induction along generalizing d with
  | done loc =>
    cases done
    exact .refl
  | @next loc last inst insts here file straight _ ih =>
    rw [Data.execAll] at done
    cases moved : (d.exec fi inst).settle inst with
    | error e =>
      rw [moved] at done
      cases done
    | ok mid =>
      rw [moved] at done
      refine .head ?_ (ih done)
      rw [Goes, step_straight here straight, goOn_settle]
      simp only [file, moved]

theorem Along.yields (along : Along ctl fi loc insts last) {d : Data} {e : End} (callers : List (Caller Loc))
    (stops : d.execAll fi insts = .error e) :
    Yields (step ctl) { loc := loc, data := d, callers := callers } e := by
  induction along generalizing d with
  | done loc => cases stops
  | @next loc last inst insts here file straight _ ih =>
    let s : State Loc := { loc := loc, data := d, callers := callers }
    have moves : step ctl s = _ := (step_straight here straight).trans (goOn_settle inst s)
    simp only [s, file] at moves
    rw [Data.execAll] at stops
    cases moved : (d.exec fi inst).settle inst with
    -- The first instruction that stops is where the run ends.
    | error e' =>
      rw [moved] at stops
      cases stops
      exact ⟨s, .refl, by rw [moves, moved]⟩
    | ok mid =>
      rw [moved] at stops
      have goes : Goes (step ctl) { loc := loc, data := d, callers := callers }
          { loc := ctl.next loc, data := mid, callers := callers } := by rw [Goes, moves, moved]
      exact Runs.yields_iff (.single goes) |>.mpr (ih stops)

theorem fetch_lines (files : List (List Line)) (spot : Spot) :
    (Control.ofLines files).fetch spot = (executables spot.lines).head? := findSome_executables spot.lines

theorem along_lines (files : List (List Line)) (fi : Nat) {lines : List Line} {insts later : List Inst}
    (straight : ∀ inst ∈ insts, Straight inst) (starts : executables lines = insts ++ later) :
    ∃ behind, Along (Control.ofLines files) fi { fi := fi, lines := lines } insts { fi := fi, lines := behind } ∧
      executables behind = later := by
  induction insts generalizing lines with
  | nil => exact ⟨lines, .done _, starts⟩
  | cons inst insts ih =>
    obtain ⟨first, others⟩ := List.forall_mem_cons.mp straight
    have here : (Control.ofLines files).fetch { fi := fi, lines := lines } = some inst := by
      rw [fetch_lines, starts]
      rfl
    obtain ⟨behind, along, rest⟩ := @ih (skip lines) others (by rw [executables_skip, starts]; rfl)
    exact ⟨behind, .next here rfl first along, rest⟩

end blocks

section calls

variable {Loc : Type} {ctl : Control Loc} {inst : Inst} {s : State Loc} {start : Loc} {nlocals : UInt16}

def State.entered (s : State Loc) (nargs : Nat) (nlocals : UInt16) : Data :=
  { s.data with frame := s.data.frame.enter nargs nlocals }

def State.caller (s : State Loc) (nargs : Nat) : Caller Loc where
  loc := s.loc
  frame := s.data.frame.leave nargs

def State.answered (ctl : Control Loc) (s : State Loc) (nargs : Nat) (val : Word) (d : Data) : State Loc where
  loc := ctl.next s.loc
  data := { d with frame := { s.data.frame.leave nargs with work := val :: s.data.frame.work.drop nargs } }
  callers := s.callers

theorem State.entered_lcl {nargs : Nat} (given : nargs ≤ s.data.frame.work.length) :
    lclAbove nargs (s.caller nargs :: s.callers) = s.depth + 8 := by
  have dropped : (s.data.frame.work.drop nargs).length = s.data.frame.work.length - nargs := List.length_drop
  simp only [lclAbove, State.caller, Frame.leave, dropped, State.depth, State.lcl]
  omega

structure Calling (ctl : Control Loc) (s : State Loc) (inst : Inst) (start : Loc) (nlocals : UInt16) : Prop where
  here : ctl.fetch s.loc = some inst
  code : inst.code = .call
  found : ctl.target s.loc (mkKey inst.ident .func) = .found start nlocals
  given : inst.nargs.toNat ≤ s.data.frame.work.length

theorem Calling.goes (calling : Calling ctl s inst start nlocals) :
    Goes (step ctl) s { loc := start, data := s.entered inst.nargs.toNat nlocals,
                        callers := s.caller inst.nargs.toNat :: s.callers } := by
  -- The words of the caller are among those that the source counts.
  have deep : ¬inst.nargs.toNat > s.depth := by
    have given := calling.given
    simp only [State.depth]
    omega
  simp only [Goes, step, calling.here, execute, calling.code, call, calling.found, deep, calling.given, if_true, if_false,
    State.entered, State.caller]

theorem ret_goes {loc : Loc} {d : Data} {val : Word} {work : List Word} {c : Caller Loc} {callers : List (Caller Loc)}
    (here : ctl.fetch loc = some inst) (code : inst.code = .ret) (top : d.frame.work = val :: work)
    (low : lclAbove d.frame.args.length (c :: callers) < 2 ^ 16) :
    Goes (step ctl) { loc := loc, data := d, callers := c :: callers }
      { loc := ctl.next c.loc, data := { d with frame := { c.frame with work := val :: c.frame.work } }, callers := callers } := by
  have kept : ¬2 ^ 16 ≤ State.lcl { loc := loc, data := d, callers := c :: callers } := Nat.not_le.mpr low
  simp only [Goes, step, here, execute, code, ret, kept, top, if_false]

theorem ret_lost {loc : Loc} {d : Data} {c : Caller Loc} {callers : List (Caller Loc)}
    (here : ctl.fetch loc = some inst) (code : inst.code = .ret)
    (high : 2 ^ 16 ≤ lclAbove d.frame.args.length (c :: callers)) :
    step ctl { loc := loc, data := d, callers := c :: callers } = .ends .lost := by
  have lost : 2 ^ 16 ≤ State.lcl { loc := loc, data := d, callers := c :: callers } := high
  simp only [step, here, execute, code, ret, lost, if_true]

structure Simple (ctl : Control Loc) (start : Loc) (fi : Nat) (insts : List Inst) (last : Loc) : Prop where
  along : Along ctl fi start insts last
  returns : ∃ ret, ctl.fetch last = some ret ∧ ret.code = .ret

section simple

variable {fi : Nat} {insts : List Inst} {last : Loc} {d : Data} {val : Word} {work : List Word}
  (calling : Calling ctl s inst start nlocals) (simple : Simple ctl start fi insts last)

include calling simple

theorem Calling.stops {e : End} (done : (s.entered inst.nargs.toNat nlocals).execAll fi insts = .error e) :
    Yields (step ctl) s e :=
  Runs.yields_iff (.single calling.goes) |>.mpr (simple.along.yields _ done)

theorem Calling.answers (done : (s.entered inst.nargs.toNat nlocals).execAll fi insts = .ok d)
    (top : d.frame.work = val :: work) (args : d.frame.args.length = inst.nargs.toNat) (low : s.depth + 8 < 2 ^ 16) :
    Relation.TransGen (Goes (step ctl)) s (s.answered ctl inst.nargs.toNat val d) := by
  obtain ⟨ret, here, code⟩ := simple.returns
  rw [← State.entered_lcl calling.given] at low
  have back := @ret_goes _ ctl _ _ _ _ _ (s.caller inst.nargs.toNat) s.callers here code top (by rwa [args])
  exact .head' calling.goes ((simple.along.runs _ done).tail back)

theorem Calling.lost (done : (s.entered inst.nargs.toNat nlocals).execAll fi insts = .ok d)
    (args : d.frame.args.length = inst.nargs.toNat) (high : 2 ^ 16 ≤ s.depth + 8) : Yields (step ctl) s .lost := by
  obtain ⟨ret, here, code⟩ := simple.returns
  rw [← State.entered_lcl calling.given] at high
  exact ⟨_, .head calling.goes (simple.along.runs _ done), ret_lost here code (by rwa [args])⟩

end simple

end calls

end Hvme.Vm
