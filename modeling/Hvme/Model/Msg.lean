import Hvme.Model.Types

set_option autoImplicit false

namespace Hvme

structure Io where
  stdin : List Byte
  stdout : List Byte
  lastStdout : Byte
deriving DecidableEq, Repr

def Io.init (stdin : List Byte) : Io where
  stdin := stdin
  stdout := []
  lastStdout := 0

def printBufSize : Nat := 1024

/-- `hvme_fputs(s, stdout)`, where the string ends at the first NUL of `s`. -/
def hvmeFputs (s : List Byte) (io : Io) : Io :=
  let s := s.takeWhile (· ≠ 0)
  { io with stdout := io.stdout ++ s, lastStdout := s.getLast?.getD 0 }

/-- `hvme_fprintf(stdout, ...)` of a format that prints `text`. -/
def hvmeFprintf (text : List Byte) (io : Io) : Io :=
  if text.length > printBufSize - 1 then io else hvmeFputs text io

/-- As it is where `UNIT_TESTS` is not defined; there its body is left out. -/
def cleanStdout (io : Io) : Io :=
  if io.lastStdout ≠ 10 ∧ io.lastStdout ≠ 0 then hvmeFprintf [10] io else io

end Hvme
