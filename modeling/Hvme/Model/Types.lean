import Mathlib.Data.List.TakeWhile
import Mathlib.Tactic

set_option autoImplicit false

namespace Hvme

abbrev Byte := UInt8

-- `Word` and `Addr` are both `uint16_t`.
abbrev Word := UInt16

abbrev Addr := UInt16

def ascii (text : String) : List Byte :=
  text.toList.map fun char => char.toNat.toUInt8

def maxIdentLen : Nat := 24

def maxTokenLen : Nat := maxIdentLen

/-- What the source cannot go on from: a failed `assert`, an access outside an
object, or a loop that has not ended (within the fuel the model was given). -/
inductive Fault
  | assertion
  | outOfBounds
  | diverges
deriving DecidableEq, Repr

@[ext]
structure Ident where
  chars : List Byte
  length_le : chars.length ≤ maxIdentLen
  nonzero : 0 ∉ chars
deriving DecidableEq, Repr

theorem takeWhile_nonzero (bytes : List Byte) : (0 : Byte) ∉ bytes.takeWhile (· ≠ 0) := by
  intro member
  simpa using List.mem_takeWhile_imp member

/-- The string that starts a buffer: up to its first NUL, the last byte always being one. -/
def Ident.ofBuf (buf : List Byte) : Ident where
  chars := (buf.take maxIdentLen).takeWhile (· ≠ 0)
  length_le := by
    have whole : ((buf.take maxIdentLen).takeWhile (· ≠ 0)).length ≤ (buf.take maxIdentLen).length :=
      (List.takeWhile_prefix _).length_le
    exact le_trans whole (List.length_take_le _ _)
  nonzero := takeWhile_nonzero _

def Ident.ofString (text : String) : Ident := Ident.ofBuf (ascii text)

def Ident.text (ident : Ident) : String :=
  String.ofList (ident.chars.map fun byte => Char.ofNat byte.toNat)

structure Pos where
  ln : UInt32
  cl : UInt32
  filename : Option String
deriving DecidableEq, Repr

def Pos.zero : Pos := { ln := 0, cl := 0, filename := none }

-- The order is the C enumeration's: the scanner and the parser rely on its ranges.
inductive TokenCode
  | none
  | push | pop
  | arg | loc | stat | const | this | that | ptr | tmp
  | uint
  | label | goto | ifGoto
  | func | call | ret
  | add | sub | neg | eq | gt | lt | and | or | not
  | ident
deriving DecidableEq, Repr

def TokenCode.val : TokenCode → Nat := TokenCode.ctorIdx

def tokenCodes : List TokenCode :=
  [.none, .push, .pop, .arg, .loc, .stat, .const, .this, .that, .ptr, .tmp, .uint,
    .label, .goto, .ifGoto, .func, .call, .ret,
    .add, .sub, .neg, .eq, .gt, .lt, .and, .or, .not, .ident]

def TokenCode.ofVal (val : Nat) : TokenCode := tokenCodes.getD val .none

theorem TokenCode.ofVal_val (code : TokenCode) : TokenCode.ofVal code.val = code := by
  cases code <;> rfl

structure Token where
  t : TokenCode
  pos : Pos
  uilit : UInt16
  ident : Ident
deriving DecidableEq, Repr

inductive Segment
  | arg | loc | stat | const | this | that | ptr | tmp
deriving DecidableEq, Repr

inductive InstCode
  | none
  | push | pop
  | add | sub | neg | and | or | not | eq | gt | lt
  | goto | ifGoto
  | call | ret
  | builtinPrintChar | builtinPrintNum | builtinPrintStr
  | builtinReadChar | builtinReadNum | builtinReadStr
deriving DecidableEq, Repr

/-- `seg`, `offset` and `ident` share storage in the source; no path writes one member
of the union and reads another. -/
structure Inst where
  code : InstCode
  seg : Segment
  offset : UInt16
  ident : Ident
  nargs : UInt16
  pos : Pos
deriving DecidableEq, Repr

/-- An all-zero cell (`seg` has no zero enumerator; the code `none` is never executed). -/
def Inst.zero : Inst where
  code := .none
  seg := .arg
  offset := 0
  ident := Ident.ofBuf []
  nargs := 0
  pos := Pos.zero

/-- The build-time sizes, with what the source says about them, and the contents of memory the
allocator leaves indeterminate. It is sizes only: `clean_stdout`, whose body `UNIT_TESTS` leaves
out, has it under every configuration. -/
structure Config where
  scanBlockSize : Nat
  instBlockSize : Nat
  stBlockSize : Nat
  stackBlockSize : Nat
  junkByte : Byte
  junkInst : Inst
  junkWord : Word
  maxTokenLen_le : maxTokenLen ≤ scanBlockSize
  four_le : 4 ≤ stBlockSize
  stack_pos : 0 < stackBlockSize

def Config.unitTests : Config where
  scanBlockSize := maxTokenLen
  instBlockSize := 0x1000
  stBlockSize := 4
  stackBlockSize := 2
  junkByte := 0
  junkInst := Inst.zero
  junkWord := 0
  maxTokenLen_le := by decide
  four_le := by decide
  stack_pos := by decide

def Config.release : Config where
  scanBlockSize := 0x10000
  instBlockSize := 0x1000
  stBlockSize := 0x1000
  stackBlockSize := 0x1000
  junkByte := 0
  junkInst := Inst.zero
  junkWord := 0
  maxTokenLen_le := by decide
  four_le := by decide
  stack_pos := by decide

end Hvme
