import Hvme.Model.Exec

set_option autoImplicit false

namespace Hvme.Vm

structure Frame where
  args : List Word
  locals : List Word
  work : List Word
  this : Word
  that : Word
deriving DecidableEq, Repr

def Frame.empty : Frame where
  args := []
  locals := []
  work := []
  this := 0
  that := 0

structure Data where
  frame : Frame
  heap : List Word
  memories : Nat → Memory
  io : Io

inductive Error
  | underflow
  | segment (entries : Nat)
  | heapAddress (addr : Nat)
  | pointer (addr : Nat)
  | addOverflow (x y : Word)
  | subUnderflow (x y : Word)
  | missingArgs (nargs : Word) (depth : Nat)
  | noTarget (ident : Ident)
  | manyTargets (key : SymKey)
  | readFailed
  | notDigits
  | tooLarge (num : UInt32)
  | invalid
deriving DecidableEq, Repr

def Error.text (inst : Inst) : Error → String
  | .underflow => "stack underflow"
  | .segment entries => s!"address overflow in `{bytesText (instStr inst)}`: segment has {entries} entries"
  | .heapAddress addr => s!"address overflow: `{bytesText (instStr inst)}` tries to access heap at {addr}"
  | .pointer addr => s!"can't access pointer segment at `{addr}` (max. index is 1)"
  | .addOverflow x y => s!"addition overflow: {x} + {y} = {x.toNat + y.toNat} > {bit16Limit}"
  | .subUnderflow x y => s!"subtraction underflow: {x} - {y} = {(x.toNat : Int) - y.toNat} < 0"
  | .missingArgs nargs depth =>
    s!"given number of stack arguments ({nargs}) is wrong." ++
      s!" There are only {depth} elements on the stack!"
  | .noTarget ident =>
    if ident = Ident.ofString "Sys.init" then "can't jump to function `Sys.init`; Write it!"
    else s!"can't jump to {ident.text}"
  | .manyTargets key =>
    s!"can't jump to {keyTypeName key.type} {key.ident.text} because it's " ++ "defined multiple times"
  | .readFailed => "system read failed."
  | .notDigits => "invalid input, `Sys.read_num` only accepts digits."
  | .tooLarge num => s!"number {num.toInt32} read by `Sys.read_num` " ++ s!"is too large. The limit is {bit16Limit}"
  | .invalid => s!"invalid inststruction `{bytesText (instStr inst)}`; programmer mistake"

def Error.diag (inst : Inst) (why : Error) : Diag where
  pos := inst.pos
  text := why.text inst

inductive Result
  | ok (d : Data)
  | error (why : Error) (io : Io)
  | wrong

def Data.withWork (d : Data) (work : List Word) : Data := { d with frame := { d.frame with work := work } }

@[simp] theorem Data.withWork_heap (d : Data) (work : List Word) : (d.withWork work).heap = d.heap := rfl
@[simp] theorem Data.withWork_memories (d : Data) (work : List Word) : (d.withWork work).memories = d.memories := rfl
@[simp] theorem Data.withWork_io (d : Data) (work : List Word) : (d.withWork work).io = d.io := rfl

def Data.push (val : Word) (d : Data) : Data := d.withWork (val :: d.frame.work)

def Data.pop (d : Data) (rest : Word → Data → Result) : Result :=
  match d.frame.work with
  | [] => .error .underflow d.io
  | val :: work => rest val (d.withWork work)

def Data.setMem (fi : Nat) (f : Memory → Memory) (d : Data) : Data :=
  { d with memories := Function.update d.memories fi (f (d.memories fi)) }

section instructions

variable (fi : Nat) (inst : Inst) (d : Data)

def Data.load (addr : Nat) : Result :=
  -- The check lets the address right behind the last word pass.
  if addr ≤ memHeapSize then
    match d.heap[addr]? with
    | some val => .ok (d.push val)
    | none => .wrong
  else .error (.heapAddress addr) d.io

def Data.store (addr : Nat) : Result :=
  if addr ≤ memHeapSize then
    d.pop fun val d =>
      if addr < d.heap.length then .ok { d with heap := d.heap.set addr val } else .wrong
  else .error (.heapAddress addr) d.io

def Data.loadPointer (ptr : Word) : Result := if ptr.toNat ≤ memHeapSize then .ok (d.push ptr) else .wrong

def Data.loadFrom (entries : List Word) : Result :=
  match entries[inst.offset.toNat]? with
  | some val => .ok (d.push val)
  | none => .error (.segment entries.length) d.io

def Data.storeTo (size : Nat) (put : Word → Data → Data) : Result :=
  if inst.offset.toNat < size then d.pop fun val d => .ok (put val d) else .error (.segment size) d.io

def Data.execPush : Result :=
  match inst.seg with
  | .arg => d.loadFrom inst d.frame.args
  | .loc => d.loadFrom inst d.frame.locals
  | .stat =>
    if inst.offset.toNat < memStatSize then .ok (d.push ((d.memories fi).static.getD inst.offset.toNat 0))
    else .error (.segment memStatSize) d.io
  | .const => .ok (d.push inst.offset)
  | .this => d.load (inst.offset.toNat + d.frame.this.toNat)
  | .that => d.load (inst.offset.toNat + d.frame.that.toNat)
  | .ptr =>
    if inst.offset.toNat = 0 then d.loadPointer d.frame.this
    else if inst.offset.toNat = 1 then d.loadPointer d.frame.that
    else .error (.pointer inst.offset.toNat) d.io
  | .tmp =>
    if inst.offset.toNat < memTempSize then .ok (d.push ((d.memories fi).tmp.getD inst.offset.toNat 0))
    else .error (.segment memTempSize) d.io

def Data.execPop : Result :=
  match inst.seg with
  | .arg => d.storeTo inst d.frame.args.length fun val d =>
      { d with frame := { d.frame with args := d.frame.args.set inst.offset.toNat val } }
  | .loc => d.storeTo inst d.frame.locals.length fun val d =>
      { d with frame := { d.frame with locals := d.frame.locals.set inst.offset.toNat val } }
  | .stat => d.storeTo inst memStatSize fun val d =>
      d.setMem fi fun mem => { mem with static := mem.static.set inst.offset.toNat val }
  | .const => d.pop fun _ d => .ok d
  | .this => d.store (inst.offset.toNat + d.frame.this.toNat)
  | .that => d.store (inst.offset.toNat + d.frame.that.toNat)
  | .ptr =>
    if inst.offset.toNat = 0 then d.pop fun val d => .ok { d with frame := { d.frame with this := val } }
    else if inst.offset.toNat = 1 then d.pop fun val d => .ok { d with frame := { d.frame with that := val } }
    else .error (.pointer inst.offset.toNat) d.io
  | .tmp => d.storeTo inst memTempSize fun val d =>
      d.setMem fi fun mem => { mem with tmp := mem.tmp.set inst.offset.toNat val }

def Data.unary (f : Word → Word) : Result := d.pop fun y d => .ok (d.push (f y))

def Data.binary (f : Word → Word → Word) : Result := d.pop fun y d => d.pop fun x d => .ok (d.push (f x y))

def Data.add : Result :=
  d.pop fun y d => d.pop fun x d =>
    if x.toNat + y.toNat ≤ bit16Limit then .ok (d.push (UInt16.ofNat (x.toNat + y.toNat)))
    else .error (.addOverflow x y) d.io

def Data.sub : Result :=
  d.pop fun y d => d.pop fun x d =>
    if x ≥ y then .ok (d.push (x - y)) else .error (.subUnderflow x y) d.io

def Data.print (text : Word → List Byte) : Result :=
  d.pop fun val d => .ok { d with io := hvmeFprintf (text val) d.io }

def Data.printStr : Result :=
  d.pop fun addr d => d.pop fun nchars d =>
    -- Nothing is read where there is nothing to print, so that any address will do.
    if nchars = 0 ∨ addr.toNat + nchars.toNat ≤ d.heap.length then
      .ok { d with
        io := ((d.heap.drop addr.toNat).take nchars.toNat).foldl (fun io val => hvmeFprintf [val.toUInt8] io) d.io }
    else .wrong

def Data.readChar : Result :=
  match d.io.stdin with
  -- `EOF` as a word.
  | [] => .ok (d.push 0xFFFF)
  | c :: stdin => .ok (Data.push c.toUInt16 { d with io := { d.io with stdin := stdin } })

def Data.readNum : Result :=
  match scanfUint d.io.stdin with
  | (.eof, stdin) => .error .readFailed { d.io with stdin := stdin }
  | (.mismatch, stdin) =>
    -- The rest of the line is skipped, which never ends where no newline comes.
    match discardLine stdin with
    | .error _ => .wrong
    | .ok stdin => .error .notDigits { d.io with stdin := stdin }
  | (.num value, stdin) =>
    if value.toNat > bit16Limit then .error (.tooLarge value) { d.io with stdin := stdin }
    else .ok (Data.push value.toUInt16 { d with io := { d.io with stdin := stdin } })

def Data.readStr : Result :=
  d.pop fun addr d =>
    match getline d.io.stdin with
    | none => .error .readFailed d.io
    -- The line comes with its newline, which is not stored.
    | some (line, stdin) =>
      if addr.toNat + (line.length - 1) > memHeapSize then
        .error (.heapAddress (addr.toNat + (line.length - 1))) { d.io with stdin := stdin }
      else
        .ok (Data.push (UInt16.ofNat (line.length - 1))
          { d with
            heap := storeChars d.heap addr.toNat (line.take (line.length - 1))
            io := { d.io with stdin := stdin } })

def Data.exec : Result :=
  match inst.code with
  | .pop => d.execPop fi inst
  | .push => d.execPush fi inst
  | .add => d.add
  | .sub => d.sub
  | .neg => d.unary fun y => ~~~y + 1
  | .and => d.binary fun x y => x &&& y
  | .or => d.binary fun x y => x ||| y
  | .not => d.unary fun y => ~~~y
  | .eq => d.binary fun x y => boolWord (x == y)
  | .lt => d.binary fun x y => boolWord (x < y)
  | .gt => d.binary fun x y => boolWord (x > y)
  | .builtinPrintChar => d.print fun val => [val.toUInt8]
  | .builtinPrintNum => d.print fun val => decimal val.toNat
  | .builtinPrintStr => d.printStr
  | .builtinReadChar => d.readChar
  | .builtinReadNum => d.readNum
  | .builtinReadStr => d.readStr
  -- Jumps, calls and returns are not for the data alone.
  | .none | .goto | .ifGoto | .call | .ret => .error .invalid d.io

end instructions

end Hvme.Vm
