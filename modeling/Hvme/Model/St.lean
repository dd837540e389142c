import Hvme.Model.Types

set_option autoImplicit false

namespace Hvme

inductive SymKeyType
  | unused
  | func
  | label
deriving DecidableEq, Repr

def SymKeyType.val : SymKeyType → Nat := SymKeyType.ctorIdx

def keyTypeName : SymKeyType → String
  | .label => "label"
  | .func => "function"
  | .unused => "unused symbol"

structure SymKey where
  type : SymKeyType
  ident : Ident
deriving DecidableEq, Repr

structure SymVal where
  instAddr : Nat
  nlocals : UInt16
deriving DecidableEq, Repr

structure Symbol where
  key : SymKey
  val : SymVal
deriving DecidableEq, Repr

def Symbol.zero : Symbol where
  key := { type := .unused, ident := Ident.ofBuf [] }
  val := { instAddr := 0, nlocals := 0 }

structure SymbolTable where
  cell : List Symbol
  len : Nat
  used : Nat
  numInst : Nat
  offset : Nat
deriving DecidableEq, Repr

def newSt (cfg : Config) : SymbolTable where
  cell := List.replicate (cfg.stBlockSize + 1) Symbol.zero
  len := cfg.stBlockSize + 1
  used := 0
  numInst := 0
  offset := 0

def mkKey (ident : Ident) (type : SymKeyType) : SymKey where
  type := type
  ident := ident

def mkLbval (instAddr : Nat) : SymVal where
  instAddr := instAddr
  nlocals := 0

def mkFnval (instAddr : Nat) (nlocals : UInt16) : SymVal where
  instAddr := instAddr
  nlocals := nlocals

def keysAreEq (a b : SymKey) : Bool := a.ident == b.ident && a.type == b.type

def valsAreEq (a b : SymVal) : Bool := a.instAddr == b.instAddr && a.nlocals == b.nlocals

/-- A `char`, which is signed, converted to `unsigned long`. -/
def charToULong (c : Byte) : UInt64 := if c < 128 then c.toUInt64 else c.toUInt64 - 256

def djb2hashKey (key : SymKey) : UInt64 :=
  let hash := key.ident.chars.foldl (fun (hash : UInt64) c => ((hash <<< 5) + hash) + charToULong c) 5381
  ((hash <<< 5) + hash) + UInt64.ofNat key.type.val

def delimHash (hash : UInt64) (len : Nat) : Nat :=
  (11400714819323198485 * hash).toNat >>> (64 - (Nat.log2 len - 1))

inductive InsertResult
  | exists_
  | ok
deriving DecidableEq, Repr

/-- One probing loop of `insert_st` over `cells`, the first of which has index `idx`: the
index where it stops, or `none` when it returns `INRES_EXISTS`. -/
def probeInsert (key : SymKey) (val : SymVal) : List Symbol → Nat → Option Nat
  | [], idx => some idx
  | sym :: cells, idx =>
    if sym.key.type = .unused then some idx
    else if keysAreEq sym.key key then
      if valsAreEq sym.val val then some idx else none
    else probeInsert key val cells (idx + 1)

def SymbolTable.grow (cfg : Config) (st : SymbolTable) : SymbolTable :=
  if st.used ≥ st.len then
    { st with
      len := st.len + cfg.stBlockSize
      cell := st.cell ++ List.replicate cfg.stBlockSize Symbol.zero }
  else st

def SymbolTable.sdLen (st : SymbolTable) (key : SymKey) : Nat :=
  delimHash (djb2hashKey key) (st.len - 1)

def SymbolTable.insertIdx (st : SymbolTable) (key : SymKey) (val : SymVal) : Option Nat :=
  match probeInsert key val (st.cell.drop (st.sdLen key)) (st.sdLen key) with
  | none => none
  | some idx =>
    if idx ≥ st.len then probeInsert key val (st.cell.take (st.sdLen key)) 0 else some idx

def insertSt (cfg : Config) (st : SymbolTable) (key : SymKey) (val : SymVal) :
    Except Fault (InsertResult × SymbolTable) :=
  let st := st.grow cfg
  match st.insertIdx key val with
  | none => .ok (.exists_, st)
  | some idx =>
    match st.cell[idx]? with
    | none => .error .outOfBounds
    | some sym =>
      if sym.key.type = .unused then
        .ok (.ok, { st with cell := st.cell.set idx { key := key, val := val }, used := st.used + 1 })
      else .error .assertion

inductive GetResult
  | err
  | ok
deriving DecidableEq, Repr

def probeGet (key : SymKey) : List Symbol → Nat → Nat
  | [], idx => idx
  | sym :: cells, idx => if keysAreEq sym.key key then idx else probeGet key cells (idx + 1)

def SymbolTable.valAt (st : SymbolTable) (idx : Nat) : Except Fault (GetResult × SymVal) :=
  match st.cell[idx]? with
  | none => .error .outOfBounds
  | some sym => .ok (.ok, { sym.val with instAddr := sym.val.instAddr + st.offset })

/-- The result with the output parameter `val` as the call leaves it. -/
def getSt (st : SymbolTable) (key : SymKey) (val : SymVal) : Except Fault (GetResult × SymVal) :=
  if probeGet key (st.cell.drop (st.sdLen key)) (st.sdLen key) = st.len then
    if probeGet key (st.cell.take (st.sdLen key)) 0 = st.sdLen key then .ok (.err, val)
    else st.valAt (probeGet key (st.cell.take (st.sdLen key)) 0)
  else st.valAt (probeGet key (st.cell.drop (st.sdLen key)) (st.sdLen key))

end Hvme
