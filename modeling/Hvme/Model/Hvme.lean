import Hvme.Lib.Execution
import Hvme.Model.Exec

set_option autoImplicit false

namespace Hvme

open Execution

/-- How `exec_prog` ends: 0, `EXEC_ERR` with the message it has printed, or a fault. -/
inductive Ending
  | halted (io : Io)
  | failed (diag : Diag) (io : Io)
  | fault (fault : Fault)
deriving DecidableEq, Repr

def Machine.move (cfg : Config) (m : Machine) : Move Machine Ending :=
  match execRound cfg m with
  | .ok true m => .goes m
  | .ok false m => .ends (.halted m.io)
  | .error (.err diag) m => .ends (.failed diag m.io)
  | .error (.fault fault) _ => .ends (.fault fault)

def ExecProg (cfg : Config) (prog : Program) (stdin : List Byte) : Ending → Prop :=
  Yields (Machine.move cfg) (Machine.start prog stdin)

/-- What the process leaves: the value `main` returns, and stdout. -/
structure Exit where
  status : Int
  stdout : List Byte
deriving DecidableEq, Repr

def execErrStatus : Int := -1

/-- `run_hvme` in a fresh process, with the files that its arguments name. -/
inductive RunHvme (cfg : Config) (fuel : Nat) : List Source → List Byte → Exit → Prop
  | noFiles (stdin : List Byte) : RunHvme cfg fuel [] stdin { status := 1, stdout := [] }
  | notMade {srcs : List Source} (stdin : List Byte) (given : srcs ≠ []) (failed : makeProg cfg fuel srcs = .ok none) :
      RunHvme cfg fuel srcs stdin { status := 1, stdout := [] }
  | succeeded {srcs : List Source} {stdin : List Byte} {prog : Program} {io : Io} (given : srcs ≠ [])
      (made : makeProg cfg fuel srcs = .ok (some prog)) (ends : ExecProg cfg prog stdin (.halted io)) :
      RunHvme cfg fuel srcs stdin { status := 0, stdout := (cleanStdout io).stdout }
  | failed {srcs : List Source} {stdin : List Byte} {prog : Program} {diag : Diag} {io : Io} (given : srcs ≠ [])
      (made : makeProg cfg fuel srcs = .ok (some prog)) (ends : ExecProg cfg prog stdin (.failed diag io)) :
      RunHvme cfg fuel srcs stdin { status := execErrStatus, stdout := io.stdout }

end Hvme
