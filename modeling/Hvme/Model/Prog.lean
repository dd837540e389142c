import Hvme.Model.Parse
import Hvme.Model.Msg

set_option autoImplicit false

namespace Hvme

def memHeapSize : Nat := 0x1000

def memStatSize : Nat := 0x100

def memTempSize : Nat := 0x10

/-- `ops` are the `len` allocated cells. -/
structure Stack where
  ops : List Word
  sp : Nat
  arg : Nat
  argLen : Nat
  lcl : Nat
  lclLen : Nat
  len : Nat
deriving DecidableEq, Repr

def newStack (cfg : Config) : Stack where
  ops := List.replicate cfg.stackBlockSize 0
  sp := 0
  arg := 0
  argLen := 0
  lcl := 0
  lclLen := 0
  len := cfg.stackBlockSize

def spush (cfg : Config) (stack : Stack) (val : Word) : Except Fault Stack :=
  let stack :=
    if stack.sp = stack.len then
      { stack with
        len := stack.len + cfg.stackBlockSize
        ops := stack.ops ++ List.replicate cfg.stackBlockSize cfg.junkWord }
    else stack
  if stack.sp < stack.ops.length then
    .ok { stack with ops := stack.ops.set stack.sp val, sp := stack.sp + 1 }
  else .error .outOfBounds

def spop (cfg : Config) (stack : Stack) : Except Fault (Option (Word × Stack)) :=
  if stack.sp > stack.lcl + stack.lclLen then
    let stack := { stack with sp := stack.sp - 1 }
    let stack :=
      if stack.sp < stack.len - cfg.stackBlockSize then
        { stack with
          len := stack.len - cfg.stackBlockSize
          ops := stack.ops.take (stack.len - cfg.stackBlockSize) }
      else stack
    match stack.ops[stack.sp]? with
    | none => .error .outOfBounds
    | some val => .ok (some (val, stack))
  else .ok none

/-- `this` and `that` are declared `size_t`. All they are ever given is a `Word`, through
a `Word*` to their low half or by assignment, so that is what they are here. -/
structure Heap where
  mem : List Word
  this : Word
  that : Word
deriving DecidableEq, Repr

def newHeap : Heap where
  mem := List.replicate memHeapSize 0
  this := 0
  that := 0

def heapGet (heap : Heap) (addr : Addr) : Except Fault Word :=
  match heap.mem[addr.toNat]? with
  | none => .error .outOfBounds
  | some val => .ok val

def heapSet (heap : Heap) (addr : Addr) (val : Word) : Except Fault Heap :=
  if addr.toNat < heap.mem.length then .ok { heap with mem := heap.mem.set addr.toNat val }
  else .error .outOfBounds

structure Memory where
  static : List Word
  tmp : List Word
deriving DecidableEq, Repr

def newMem : Memory where
  static := List.replicate memStatSize 0
  tmp := List.replicate memTempSize 0

/-- `ei` is an `unsigned int` and wraps around. -/
structure File where
  filename : String
  st : SymbolTable
  insts : Insts
  mem : Memory
  ei : UInt32
deriving DecidableEq, Repr

structure Program where
  files : List File
  fi : Nat
  heap : Heap
  stack : Stack
deriving DecidableEq, Repr

def addBii (insts : Insts) (add : Inst) : Insts :=
  let pos := { add.pos with ln := UInt32.ofNat insts.cell.length, filename := insts.filename }
  { insts with cell := insts.cell ++ [{ add with pos := pos }] }

def Inst.bare (code : InstCode) : Inst := { Inst.zero with code := code }

def Inst.pushSeg (seg : Segment) (offset : UInt16) : Inst :=
  { Inst.zero with code := .push, seg := seg, offset := offset }

def addBuiltin (cfg : Config) (name : String) (nlocals : UInt16) (body : List Inst) (file : File) :
    Except Fault File :=
  match insertSt cfg file.st (mkKey (Ident.ofString name) .func) (mkFnval file.insts.cell.length nlocals) with
  | .error fault => .error fault
  | .ok (_, st) => .ok { file with st := st, insts := body.foldl addBii file.insts }

def builtinPrintChar (cfg : Config) : File → Except Fault File :=
  addBuiltin cfg "Sys.print_char" 0
    [.pushSeg .arg 0, .bare .builtinPrintChar, .pushSeg .const 0, .bare .ret]

def builtinPrintNum (cfg : Config) : File → Except Fault File :=
  addBuiltin cfg "Sys.print_num" 0
    [.pushSeg .arg 0, .bare .builtinPrintNum, .pushSeg .const 0, .bare .ret]

def builtinPrintStr (cfg : Config) : File → Except Fault File :=
  addBuiltin cfg "Sys.print_str" 0
    [.pushSeg .arg 0, .pushSeg .arg 1, .bare .builtinPrintStr, .pushSeg .const 0, .bare .ret]

def builtinReadChar (cfg : Config) : File → Except Fault File :=
  addBuiltin cfg "Sys.read_char" 0 [.bare .builtinReadChar, .bare .ret]

def builtinReadNum (cfg : Config) : File → Except Fault File :=
  addBuiltin cfg "Sys.read_num" 0 [.bare .builtinReadNum, .bare .ret]

def builtinReadStr (cfg : Config) : File → Except Fault File :=
  addBuiltin cfg "Sys.read_str" 1 [.pushSeg .arg 0, .bare .builtinReadStr, .bare .ret]

def initSystemFile (cfg : Config) : Except Fault File := do
  let file : File :=
    { filename := "<system>", st := newSt cfg, insts := newInsts (some "<system>"), mem := newMem, ei := 0 }
  let file ← builtinPrintChar cfg file
  let file ← builtinPrintNum cfg file
  let file ← builtinPrintStr cfg file
  let file ← builtinReadChar cfg file
  let file ← builtinReadNum cfg file
  let file ← builtinReadStr cfg file
  let startup : List Inst :=
    [.pushSeg .const 0, { Inst.zero with code := .call, ident := Ident.ofString "Sys.init", nargs := 1 }]
  .ok { file with
        ei := UInt32.ofNat file.insts.cell.length
        insts := startup.foldl addBii file.insts }

/-- A source file by its name; `none` if it cannot be opened. -/
structure Source where
  fn : String
  content : Option (List Byte)

/-- `proc_file`: the static variables it leaves, and unless it fails the tokens, which the
source deletes here, with the file. -/
def procFile (cfg : Config) (fuel : Nat) (statics : Statics) (src : Source) :
    Except Fault (Statics × Option (Tokens × File)) :=
  let sc : Scanner := { tokens := newTokens (some src.fn), statics := statics, warnings := [] }
  match scan cfg fuel sc src.content with
  | .error fault => .error fault
  | .ok (.err _, sc) => .ok (sc.statics, none)
  | .ok (.ok, sc) =>
    match parse cfg sc.tokens (newInsts (some src.fn)) (some (newSt cfg)) with
    | .error fault => .error fault
    | .ok (.err, _) => .ok (sc.statics, none)
    | .ok (.ok, p) =>
      .ok (sc.statics,
        p.st.map fun st =>
          (sc.tokens, { filename := src.fn, st := st, insts := p.insts, mem := newMem, ei := 0 }))

/-- `warn_file_ext` compares the last three characters, which are bytes, and which a shorter name
does not have. -/
def warnFileExt (fn : String) : Except Fault (List Warning) :=
  if fn.utf8ByteSize < 3 then .error .outOfBounds
  else if fn.toList.drop (fn.length - 3) = ".vm".toList then .ok []
  else .ok [.fileExt fn]

def procFiles (cfg : Config) (fuel : Nat) :
    Statics → List Source → Except Fault (Statics × Option (List (Tokens × File)))
  | statics, [] => .ok (statics, some [])
  | statics, src :: srcs =>
    match warnFileExt src.fn with
    | .error fault => .error fault
    | .ok _ =>
      match procFile cfg fuel statics src with
      | .error fault => .error fault
      | .ok (statics, none) => .ok (statics, none)
      | .ok (statics, some file) =>
        match procFiles cfg fuel statics srcs with
        | .error fault => .error fault
        | .ok (statics, none) => .ok (statics, none)
        | .ok (statics, some files) => .ok (statics, some (file :: files))

/-- `make_prog` in a fresh process: `none` stands for the null pointer. -/
def makeProg (cfg : Config) (fuel : Nat) (srcs : List Source) : Except Fault (Option Program) := do
  let system ← initSystemFile cfg
  let (_, made) ← procFiles cfg fuel Statics.init srcs
  .ok (made.map fun files =>
    { files := system :: files.map Prod.snd, fi := 0, heap := newHeap, stack := newStack cfg })

end Hvme
