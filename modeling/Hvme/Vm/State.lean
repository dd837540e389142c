import Hvme.Lib.Execution
import Hvme.Vm.Data

set_option autoImplicit false

namespace Hvme.Vm

open Execution

inductive Target (Loc : Type)
  | found (loc : Loc) (nlocals : UInt16)
  | missing
  | ambiguous
deriving DecidableEq, Repr

/-- The places of a program: the instruction at a place and the file it is in, the place after it,
and where its jumps go. -/
structure Control (Loc : Type) where
  fetch : Loc → Option Inst
  file : Loc → Nat
  next : Loc → Loc
  target : Loc → SymKey → Target Loc

def pick {Loc : Type} : List (Loc × UInt16) → Target Loc
  | [] => .missing
  | [(loc, nlocals)] => .found loc nlocals
  | _ => .ambiguous

/-- The definition of a name at each file, where there is one: the file's own counts, and else the
only one. -/
def resolve {Loc : Type} (defs : List (Option (Loc × UInt16))) (own : Nat) : Target Loc :=
  match defs.getD own none with
  | some (loc, nlocals) => .found loc nlocals
  -- The file's own definition comes before those of the others, of which there may be one.
  | none => pick defs.reduceOption

structure Caller (Loc : Type) where
  loc : Loc
  frame : Frame
deriving DecidableEq, Repr

structure State (Loc : Type) where
  loc : Loc
  data : Data
  callers : List (Caller Loc)

def State.withData {Loc : Type} (s : State Loc) (d : Data) : State Loc := { s with data := d }

/-- Where the locals of an activation with `nargs` arguments lie on the stack of the source. -/
def lclAbove {Loc : Type} (nargs : Nat) : List (Caller Loc) → Nat
  | [] => 0
  | c :: rest =>
    lclAbove c.frame.args.length rest + c.frame.locals.length + c.frame.work.length + nargs + 8

inductive End
  | halted (io : Io)
  | failed (diag : Diag) (io : Io)
  | fault
  | lost
deriving DecidableEq, Repr

section steps

variable {Loc : Type}

def State.lcl (s : State Loc) : Nat := lclAbove s.data.frame.args.length s.callers

def State.depth (s : State Loc) : Nat := s.lcl + s.data.frame.locals.length + s.data.frame.work.length

def fail (inst : Inst) (why : Error) (io : Io) : Move (State Loc) End :=
  .ends (.failed (why.diag inst) (cleanStdout io))

def jump (ctl : Control Loc) (inst : Inst) (s : State Loc) : Move (State Loc) End :=
  match ctl.target s.loc (mkKey inst.ident .label) with
  | .found loc _ => .goes { s with loc := loc }
  | .missing => fail inst (.noTarget inst.ident) s.data.io
  | .ambiguous => fail inst (.manyTargets (mkKey inst.ident .label)) s.data.io

def jumpIf (ctl : Control Loc) (inst : Inst) (s : State Loc) : Move (State Loc) End :=
  match s.data.frame.work with
  | [] => fail inst .underflow s.data.io
  | val :: work =>
    let popped := s.withData (s.data.withWork work)
    if val ≠ 0 then jump ctl inst popped else .goes { popped with loc := ctl.next s.loc }

def Frame.enter (frame : Frame) (nargs : Nat) (nlocals : UInt16) : Frame where
  args := (frame.work.take nargs).reverse
  locals := List.replicate nlocals.toNat 0
  work := []
  this := frame.this
  that := frame.that

def Frame.leave (frame : Frame) (nargs : Nat) : Frame := { frame with work := frame.work.drop nargs }

def call (ctl : Control Loc) (inst : Inst) (s : State Loc) : Move (State Loc) End :=
  let frame := s.data.frame
  -- The source counts the words of all activations here, not the caller's only.
  if inst.nargs.toNat > s.depth then fail inst (.missingArgs inst.nargs s.depth) s.data.io
  else
    match ctl.target s.loc (mkKey inst.ident .func) with
    | .missing => fail inst (.noTarget inst.ident) s.data.io
    | .ambiguous => fail inst (.manyTargets (mkKey inst.ident .func)) s.data.io
    | .found loc nlocals =>
      if inst.nargs.toNat ≤ frame.work.length then
        .goes {
          loc := loc
          data := { s.data with frame := frame.enter inst.nargs.toNat nlocals }
          callers := { loc := s.loc, frame := frame.leave inst.nargs.toNat } :: s.callers }
      -- The arguments reach into the segments below the working stack.
      else .ends .lost

def ret (ctl : Control Loc) (inst : Inst) (s : State Loc) : Move (State Loc) End :=
  match s.callers with
  -- Below the locals of the first activation there is no frame to read.
  | [] => .ends .fault
  | c :: rest =>
    -- The frame is read through a word, which loses the upper bits of the address.
    if 2 ^ 16 ≤ s.lcl then .ends .lost
    else
      match s.data.frame.work with
      | [] => fail inst .underflow s.data.io
      | val :: _ =>
        .goes {
          loc := ctl.next c.loc
          data := { s.data with frame := { c.frame with work := val :: c.frame.work } }
          callers := rest }

def goOn (ctl : Control Loc) (inst : Inst) (s : State Loc) : Move (State Loc) End :=
  match s.data.exec (ctl.file s.loc) inst with
  | .ok d => .goes { s with loc := ctl.next s.loc, data := d }
  | .error why io => fail inst why io
  | .wrong => .ends .fault

def execute (ctl : Control Loc) (inst : Inst) (s : State Loc) : Move (State Loc) End :=
  match inst.code with
  | .goto => jump ctl inst s
  | .ifGoto => jumpIf ctl inst s
  | .call => call ctl inst s
  | .ret => ret ctl inst s
  | _ => goOn ctl inst s

def step (ctl : Control Loc) (s : State Loc) : Move (State Loc) End :=
  match ctl.fetch s.loc with
  | none => .ends (.halted s.data.io)
  | some inst => execute ctl inst s

end steps

end Hvme.Vm
