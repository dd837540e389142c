import Hvme.Model.Prog

set_option autoImplicit false

namespace Hvme

structure Machine where
  prog : Program
  io : Io
deriving DecidableEq, Repr

inductive Stop
  | err (diag : Diag)
  | fault (fault : Fault)
deriving DecidableEq, Repr

-- A stop leaves the machine as the `longjmp` finds it.
abbrev ExecM := EStateM Stop Machine

def liftFault {α : Type} : Except Fault α → ExecM α
  | .ok a => pure a
  | .error fault => throw (.fault fault)

/-- `perr` or `perrf`, then `longjmp`. -/
def execErr {α : Type} (pos : Pos) (text : String) : ExecM α := do
  modify fun m => { m with io := cleanStdout m.io }
  throw (.err { pos := pos, text := text })

def assert_ (cond : Bool) : ExecM Unit :=
  if cond then pure () else throw (.fault .assertion)

def bit16Limit : Nat := 65535

def stackUnderflowError {α : Type} (pos : Pos) : ExecM α := execErr pos "stack underflow"

def pointerSegmentError {α : Type} (addr : Nat) (pos : Pos) : ExecM α :=
  execErr pos s!"can't access pointer segment at `{addr}` (max. index is 1)"

def heapAddrOverflowError {α : Type} (inst : Inst) (addr : Nat) : ExecM α :=
  execErr inst.pos s!"address overflow: `{bytesText (instStr inst)}` tries to access heap at {addr}"

def stackAddrOverflowError {α : Type} (inst : Inst) (addr maxAddr : Nat) : ExecM α :=
  execErr inst.pos (s!"stack address overflow: `{bytesText (instStr inst)}` tries to access stack " ++
    s!"at {addr} (limit is at {maxAddr})")

def segOverflowError {α : Type} (inst : Inst) (offset : Nat) : ExecM α :=
  execErr inst.pos s!"address overflow in `{bytesText (instStr inst)}`: segment has {offset} entries"

def addOverflowError {α : Type} (x y : Word) (sum : Nat) (pos : Pos) : ExecM α :=
  execErr pos s!"addition overflow: {x} + {y} = {sum} > {bit16Limit}"

def subUnderflowError {α : Type} (x y : Word) (pos : Pos) : ExecM α :=
  execErr pos s!"subtraction underflow: {x} - {y} = {(x.toNat : Int) - y.toNat} < 0"

def ctrlFlowError {α : Type} (ident : Ident) (pos : Pos) : ExecM α :=
  if ident = Ident.ofString "Sys.init" then
    execErr pos "can't jump to function `Sys.init`; Write it!"
  else execErr pos s!"can't jump to {ident.text}"

def nargsError {α : Type} (nargs : Word) (sp : Nat) (pos : Pos) : ExecM α :=
  execErr pos (s!"given number of stack arguments ({nargs}) is wrong." ++
    s!" There are only {sp} elements on the stack!")

def readIoError {α : Type} (pos : Pos) : ExecM α := execErr pos "system read failed."

def defErr {α : Type} (key : SymKey) (pos : Pos) : ExecM α :=
  execErr pos (s!"can't jump to {keyTypeName key.type} {key.ident.text} because it's " ++
    "defined multiple times")

def readNumCharError {α : Type} (pos : Pos) : ExecM α :=
  execErr pos "invalid input, `Sys.read_num` only accepts digits."

def readNumOverflowError {α : Type} (pos : Pos) (num : UInt32) : ExecM α :=
  -- `%d` prints the unsigned number as a signed one.
  execErr pos (s!"number {num.toInt32} read by `Sys.read_num` " ++
    s!"is too large. The limit is {bit16Limit}")

def getStack : ExecM Stack := do return (← get).prog.stack

def setStack (stack : Stack) : ExecM Unit :=
  modify fun m => { m with prog := { m.prog with stack := stack } }

def getHeap : ExecM Heap := do return (← get).prog.heap

def setHeap (heap : Heap) : ExecM Unit :=
  modify fun m => { m with prog := { m.prog with heap := heap } }

def setIo (io : Io) : ExecM Unit := modify fun m => { m with io := io }

def activeFile : ExecM File := do
  let m ← get
  match m.prog.files[m.prog.fi]? with
  | none => throw (.fault .outOfBounds)
  | some file => pure file

def activeInst : ExecM Inst := do
  let file ← activeFile
  match file.insts.cell[file.ei.toNat]? with
  | none => throw (.fault .outOfBounds)
  | some inst => pure inst

def Program.modifyFile (prog : Program) (fi : Nat) (f : File → File) : Program :=
  { prog with files := prog.files.modify fi f }

def setEi (ei : UInt32) : ExecM Unit :=
  modify fun m => { m with prog := m.prog.modifyFile m.prog.fi fun file => { file with ei := ei } }

def setMem (mem : Memory) : ExecM Unit :=
  modify fun m => { m with prog := m.prog.modifyFile m.prog.fi fun file => { file with mem := mem } }

def execSpush (cfg : Config) (val : Word) : ExecM Unit := do
  let stack ← getStack
  let stack ← liftFault (spush cfg stack val)
  setStack stack

/-- `if (!spop(stack, &val)) STACK_UNDERFLOW_ERROR(pos);` -/
def execSpop (cfg : Config) (pos : Pos) : ExecM Word := do
  let stack ← getStack
  match ← liftFault (spop cfg stack) with
  | none => stackUnderflowError pos
  | some (val, stack) =>
    setStack stack
    return val

def getCell (idx : Nat) : ExecM Word := do
  let stack ← getStack
  match stack.ops[idx]? with
  | none => throw (.fault .outOfBounds)
  | some val => pure val

def setCell (idx : Nat) (val : Word) : ExecM Unit := do
  let stack ← getStack
  if idx < stack.ops.length then setStack { stack with ops := stack.ops.set idx val }
  else throw (.fault .outOfBounds)

def execPop (cfg : Config) (inst : Inst) : ExecM Unit := do
  let offset := inst.offset.toNat
  let stack ← getStack
  let heap ← getHeap
  match inst.seg with
  | .arg =>
    if offset < stack.argLen ∧ offset + stack.arg < stack.sp then
      let val ← execSpop cfg inst.pos
      setCell (offset + stack.arg) val
    else if offset ≥ stack.argLen then segOverflowError inst stack.argLen
    else stackAddrOverflowError inst (offset + stack.arg) stack.sp
  | .loc =>
    if offset < stack.lclLen ∧ offset + stack.lcl < stack.sp then
      let val ← execSpop cfg inst.pos
      setCell (offset + stack.lcl) val
    else if offset ≥ stack.lclLen then segOverflowError inst stack.lclLen
    else stackAddrOverflowError inst (offset + stack.arg) stack.sp
  | .stat =>
    if offset < memStatSize then
      let val ← execSpop cfg inst.pos
      let mem := (← activeFile).mem
      setMem { mem with static := mem.static.set offset val }
    else segOverflowError inst memStatSize
  | .const =>
    let _ ← execSpop cfg inst.pos
  | .this =>
    if offset + heap.this.toNat ≤ memHeapSize then
      let val ← execSpop cfg inst.pos
      setHeap (← liftFault (heapSet heap (UInt16.ofNat (offset + heap.this.toNat)) val))
    else heapAddrOverflowError inst (offset + heap.this.toNat)
  | .that =>
    if offset + heap.that.toNat ≤ memHeapSize then
      let val ← execSpop cfg inst.pos
      setHeap (← liftFault (heapSet heap (UInt16.ofNat (offset + heap.that.toNat)) val))
    else heapAddrOverflowError inst (offset + heap.that.toNat)
  | .ptr =>
    if offset = 0 then
      let val ← execSpop cfg inst.pos
      setHeap { heap with this := val }
    else if offset = 1 then
      let val ← execSpop cfg inst.pos
      setHeap { heap with that := val }
    else pointerSegmentError offset inst.pos
  | .tmp =>
    if offset < memTempSize then
      let val ← execSpop cfg inst.pos
      let mem := (← activeFile).mem
      setMem { mem with tmp := mem.tmp.set offset val }
    else segOverflowError inst memTempSize

def execPush (cfg : Config) (inst : Inst) : ExecM Unit := do
  let offset := inst.offset.toNat
  let stack ← getStack
  let heap ← getHeap
  match inst.seg with
  | .arg =>
    if offset < stack.argLen ∧ offset + stack.arg < stack.sp then
      execSpush cfg (← getCell (offset + stack.arg))
    else if offset ≥ stack.argLen then segOverflowError inst stack.argLen
    else stackAddrOverflowError inst (offset + stack.arg) stack.sp
  | .loc =>
    if offset < stack.lclLen ∧ offset + stack.lcl < stack.sp then
      execSpush cfg (← getCell (offset + stack.lcl))
    else if offset ≥ stack.lclLen then segOverflowError inst stack.lclLen
    else stackAddrOverflowError inst (offset + stack.arg) stack.sp
  | .stat =>
    if offset < memStatSize then
      execSpush cfg ((← activeFile).mem.static.getD offset 0)
    else segOverflowError inst memStatSize
  | .const => execSpush cfg inst.offset
  | .this =>
    if offset + heap.this.toNat ≤ memHeapSize then
      execSpush cfg (← liftFault (heapGet heap (UInt16.ofNat (offset + heap.this.toNat))))
    else heapAddrOverflowError inst (offset + heap.this.toNat)
  | .that =>
    if offset + heap.that.toNat ≤ memHeapSize then
      execSpush cfg (← liftFault (heapGet heap (UInt16.ofNat (offset + heap.that.toNat))))
    else heapAddrOverflowError inst (offset + heap.that.toNat)
  | .ptr =>
    if offset = 0 then
      assert_ (heap.this.toNat ≤ memHeapSize)
      execSpush cfg heap.this
    else if offset = 1 then
      assert_ (heap.that.toNat ≤ memHeapSize)
      execSpush cfg heap.that
    else pointerSegmentError offset inst.pos
  | .tmp =>
    if offset < memTempSize then
      execSpush cfg ((← activeFile).mem.tmp.getD offset 0)
    else segOverflowError inst memTempSize

def bumpSp (count : Nat) : ExecM Unit := do
  let stack ← getStack
  setStack { stack with sp := stack.sp + count }

def execAdd (cfg : Config) (pos : Pos) : ExecM Unit := do
  let y ← execSpop cfg pos
  let x ← execSpop cfg pos
  let sum := x.toNat + y.toNat
  if sum ≤ bit16Limit then execSpush cfg (UInt16.ofNat sum)
  else
    bumpSp 2
    addOverflowError x y sum pos

def execSub (cfg : Config) (pos : Pos) : ExecM Unit := do
  let y ← execSpop cfg pos
  let x ← execSpop cfg pos
  if x ≥ y then execSpush cfg (x - y)
  else
    bumpSp 2
    subUnderflowError x y pos

def execUnary (f : Word → Word) (cfg : Config) (pos : Pos) : ExecM Unit := do
  let y ← execSpop cfg pos
  execSpush cfg (f y)

def execBinary (f : Word → Word → Word) (cfg : Config) (pos : Pos) : ExecM Unit := do
  let y ← execSpop cfg pos
  let x ← execSpop cfg pos
  execSpush cfg (f x y)

def boolWord (b : Bool) : Word := if b then 0xFFFF else 0

def execNeg := execUnary fun y => ~~~y + 1
def execNot := execUnary fun y => ~~~y
def execAnd := execBinary fun x y => x &&& y
def execOr := execBinary fun x y => x ||| y
def execEq := execBinary fun x y => boolWord (x == y)
def execLt := execBinary fun x y => boolWord (x < y)
def execGt := execBinary fun x y => boolWord (x > y)

inductive JumpResult
  | ok
  | err
  | multDef
deriving DecidableEq, Repr

structure JumpBuf where
  val : SymVal
  nextFi : Nat
  nextEi : UInt32
  ndefs : Nat

-- `val->inst_addr - 1`, narrowed to an `unsigned int`.
def SymVal.ei (val : SymVal) : UInt32 := UInt32.ofNat val.instAddr - 1

/-- The search loop of `jump_to` over `files`, the first of which has index `nextFi`. -/
def jumpSearch (key : SymKey) (prevFi : Nat) : List File → Nat → JumpBuf → Except Fault JumpBuf
  | [], _, buf => .ok buf
  | file :: files, nextFi, buf =>
    if prevFi ≠ nextFi then
      match getSt file.st key buf.val with
      | .error fault => .error fault
      | .ok (.ok, val) =>
        let buf := { val := val, nextFi := nextFi, nextEi := val.ei, ndefs := buf.ndefs + 1 }
        if buf.ndefs > 1 then .ok buf else jumpSearch key prevFi files (nextFi + 1) buf
      | .ok (.err, val) => jumpSearch key prevFi files (nextFi + 1) { buf with val := val }
    else jumpSearch key prevFi files (nextFi + 1) buf

/-- The result with the output parameter `val` as the call leaves it. -/
def jumpTo (key : SymKey) (val : SymVal) : ExecM (JumpResult × SymVal) := do
  let file ← activeFile
  match ← liftFault (getSt file.st key val) with
  | (.ok, val) =>
    setEi val.ei
    return (.ok, val)
  | (.err, val) =>
    let prog := (← get).prog
    let buf ← liftFault
      (jumpSearch key prog.fi prog.files 0 { val := val, nextFi := 0, nextEi := 0, ndefs := 0 })
    match buf.ndefs with
    | 0 => return (.err, buf.val)
    | 1 =>
      modify fun m => { m with prog := { m.prog with fi := buf.nextFi } }
      setEi buf.nextEi
      return (.ok, buf.val)
    | _ => return (.multDef, buf.val)

-- The uninitialised `SymVal val;` of the callers.
def SymVal.junk : SymVal := { instAddr := 0, nlocals := 0 }

def execGoto (pos : Pos) : ExecM Unit := do
  let key := mkKey (← activeInst).ident .label
  match (← jumpTo key SymVal.junk).1 with
  | .err => ctrlFlowError key.ident pos
  | .multDef => defErr key pos
  | .ok => pure ()

def execIfGoto (cfg : Config) (pos : Pos) : ExecM Unit := do
  let val ← execSpop cfg pos
  if val ≠ 0 then
    let key := mkKey (← activeInst).ident .label
    match (← jumpTo key SymVal.junk).1 with
    | .err =>
      bumpSp 1
      ctrlFlowError key.ident pos
    | .multDef =>
      bumpSp 1
      defErr key pos
    | .ok => pure ()

def pushLocals (cfg : Config) : Nat → Stack → Except Fault Stack
  | 0, stack => .ok stack
  | count + 1, stack =>
    match spush cfg stack 0 with
    | .error fault => .error fault
    | .ok stack => pushLocals cfg count stack

def execCall (cfg : Config) (pos : Pos) : ExecM Unit := do
  let inst ← activeInst
  let stack ← getStack
  let heap ← getHeap
  let retEi : Addr := (← activeFile).ei.toUInt16
  let retFi : Addr := UInt16.ofNat (← get).prog.fi
  if inst.nargs.toNat > stack.sp then nargsError inst.nargs stack.sp pos
  else
    let key := mkKey inst.ident .func
    let (res, val) ← jumpTo key SymVal.junk
    match res with
    | .err => ctrlFlowError key.ident pos
    | .multDef => defErr key pos
    | .ok =>
      execSpush cfg retEi
      execSpush cfg retFi
      execSpush cfg (UInt16.ofNat stack.lcl)
      execSpush cfg (UInt16.ofNat stack.lclLen)
      execSpush cfg (UInt16.ofNat stack.arg)
      execSpush cfg (UInt16.ofNat stack.argLen)
      execSpush cfg heap.this
      execSpush cfg heap.that
      let stack ← getStack
      let stack :=
        { stack with
          arg := stack.sp - 8 - inst.nargs.toNat
          argLen := inst.nargs.toNat
          lcl := stack.sp
          lclLen := val.nlocals.toNat }
      setStack (← liftFault (pushLocals cfg stack.lclLen stack))
      setEi val.ei

/-- `stack->ops[frame - back]`; the index is an `int` and may be negative. -/
def frameCell (frame : Addr) (back : Nat) : ExecM Word :=
  if back ≤ frame.toNat then getCell (frame.toNat - back) else throw (.fault .outOfBounds)

def execRet (cfg : Config) (pos : Pos) : ExecM Unit := do
  let frame : Addr := UInt16.ofNat (← getStack).lcl
  let retEi ← frameCell frame 8
  let retFi ← frameCell frame 7
  let retVal ← execSpop cfg pos
  setCell (← getStack).arg retVal
  let stack ← getStack
  setStack { stack with sp := stack.arg + 1 }
  let heap ← getHeap
  let that ← frameCell frame 1
  let this ← frameCell frame 2
  setHeap { heap with that := that, this := this }
  let argLen ← frameCell frame 3
  let arg ← frameCell frame 4
  let lclLen ← frameCell frame 5
  let lcl ← frameCell frame 6
  let stack ← getStack
  setStack { stack with argLen := argLen.toNat, arg := arg.toNat, lclLen := lclLen.toNat, lcl := lcl.toNat }
  let prog := (← get).prog
  if retFi.toNat < prog.files.length then
    modify fun m => { m with prog := { m.prog with fi := retFi.toNat } }
    setEi retEi.toUInt32
  else throw (.fault .outOfBounds)

def execBuiltinPrintChar (cfg : Config) (pos : Pos) : ExecM Unit := do
  let val ← execSpop cfg pos
  setIo (hvmeFprintf [val.toUInt8] (← get).io)

def execBuiltinPrintNum (cfg : Config) (pos : Pos) : ExecM Unit := do
  let val ← execSpop cfg pos
  setIo (hvmeFprintf (decimal val.toNat) (← get).io)

/-- The loop of `exec_builtin_print_str` from index `i` on, with `count` rounds to go. -/
def printStrLoop (heap : Heap) (strStart : Addr) : Nat → Addr → Io → Except Fault Io
  | 0, _, io => .ok io
  | count + 1, i, io =>
    match heapGet heap (strStart + i) with
    | .error fault => .error fault
    | .ok val => printStrLoop heap strStart count (i + 1) (hvmeFprintf [val.toUInt8] io)

def execBuiltinPrintStr (cfg : Config) (pos : Pos) : ExecM Unit := do
  let strStart ← execSpop cfg pos
  let nchars ← execSpop cfg pos
  let heap ← getHeap
  setIo (← liftFault (printStrLoop heap strStart nchars.toNat 0 (← get).io))

def execBuiltinReadChar (cfg : Config) : ExecM Unit := do
  let io := (← get).io
  match io.stdin with
  | [] => execSpush cfg 0xFFFF
  | c :: stdin =>
    setIo { io with stdin := stdin }
    execSpush cfg c.toUInt16

inductive ScanfResult
  | eof
  | mismatch
  | num (value : UInt32)
deriving DecidableEq, Repr

/-- `strtoul` into an `unsigned int`: saturated at 2^64 - 1, negated, narrowed. -/
def strtoulValue (negative : Bool) (digits : List Byte) : UInt32 :=
  let value := digits.foldl (fun value digit => value * 10 + (digit.toNat - 48)) 0
  if value ≥ 2 ^ 64 then UInt32.ofNat (2 ^ 64 - 1)
  else if negative then 0 - UInt32.ofNat value
  else UInt32.ofNat value

/-- `scanf("%u")`: skip blanks, then an optional sign and digits. -/
def scanfUint (stdin : List Byte) : ScanfResult × List Byte :=
  match stdin.dropWhile isspace with
  | [] => (.eof, [])
  | c :: rest =>
    let body := if c == 43 || c == 45 then rest else c :: rest
    let digits := body.takeWhile isdigit
    if digits.isEmpty then (.mismatch, body)
    else (.num (strtoulValue (c == 45) digits), body.dropWhile isdigit)

/-- The `fgetc` loop up to a newline: it never ends when there is none. -/
def discardLine (stdin : List Byte) : Except Fault (List Byte) :=
  match stdin.dropWhile (· ≠ newline) with
  | [] => .error .diverges
  | _ :: rest => .ok rest

def execBuiltinReadNum (cfg : Config) (pos : Pos) : ExecM Unit := do
  let io := (← get).io
  let (res, stdin) := scanfUint io.stdin
  setIo { io with stdin := stdin }
  match res with
  | .eof => readIoError pos
  | .mismatch =>
    let stdin ← liftFault (discardLine stdin)
    setIo { io with stdin := stdin }
    readNumCharError pos
  | .num value =>
    if value.toNat > bit16Limit then readNumOverflowError pos value
    else execSpush cfg value.toUInt16

/-- `getline`: the bytes up to and including the next newline, `none` at the end of input. -/
def getline (stdin : List Byte) : Option (List Byte × List Byte) :=
  if stdin.isEmpty then none
  else
    let line := stdin.takeWhile (· ≠ newline)
    some (line ++ (stdin.drop line.length).take 1, stdin.drop (line.length + 1))

-- A `char`, which is signed, converted to a `Word`.
def charToWord (c : Byte) : Word := if c < 128 then c.toUInt16 else c.toUInt16 - 256

def storeChars (mem : List Word) (addr : Nat) : List Byte → List Word
  | [] => mem
  | c :: chars => storeChars (mem.set addr (charToWord c)) (addr + 1) chars

def execBuiltinReadStr (cfg : Config) (pos : Pos) : ExecM Unit := do
  let heapAddr ← execSpop cfg pos
  let io := (← get).io
  match getline io.stdin with
  | none => readIoError pos
  | some (buf, stdin) =>
    setIo { io with stdin := stdin }
    let nread := buf.length - 1
    if heapAddr.toNat + nread > memHeapSize then
      heapAddrOverflowError (← activeInst) (heapAddr.toNat + nread)
    else
      let heap ← getHeap
      setHeap { heap with mem := storeChars heap.mem heapAddr.toNat (buf.take nread) }
      execSpush cfg (UInt16.ofNat nread)

def execInst (cfg : Config) : ExecM Unit := do
  let inst ← activeInst
  match inst.code with
  | .pop => execPop cfg inst
  | .push => execPush cfg inst
  | .add => execAdd cfg inst.pos
  | .sub => execSub cfg inst.pos
  | .neg => execNeg cfg inst.pos
  | .and => execAnd cfg inst.pos
  | .or => execOr cfg inst.pos
  | .not => execNot cfg inst.pos
  | .eq => execEq cfg inst.pos
  | .lt => execLt cfg inst.pos
  | .gt => execGt cfg inst.pos
  | .goto => execGoto inst.pos
  | .ifGoto => execIfGoto cfg inst.pos
  | .call => execCall cfg inst.pos
  | .ret => execRet cfg inst.pos
  | .builtinPrintChar => execBuiltinPrintChar cfg inst.pos
  | .builtinPrintNum => execBuiltinPrintNum cfg inst.pos
  | .builtinPrintStr => execBuiltinPrintStr cfg inst.pos
  | .builtinReadChar => execBuiltinReadChar cfg
  | .builtinReadNum => execBuiltinReadNum cfg inst.pos
  | .builtinReadStr => execBuiltinReadStr cfg inst.pos
  | .none =>
    execErr inst.pos s!"invalid inststruction `{bytesText (instStr inst)}`; programmer mistake"

def incEi : ExecM Unit := do
  let file ← activeFile
  setEi (file.ei + 1)

/-- One round of the loop of `exec_prog`: false if the loop condition is. -/
def execRound (cfg : Config) : ExecM Bool := do
  let file ← activeFile
  if file.ei.toNat < file.insts.cell.length then
    execInst cfg
    incEi
    return true
  else return false

def Machine.start (prog : Program) (stdin : List Byte) : Machine where
  prog := prog
  io := Io.init stdin

end Hvme
