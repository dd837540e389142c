import Hvme.Vm.Blocks
import Hvme.Vm.Linking

set_option autoImplicit false

namespace Hvme.Vm

open Execution

inductive SysFn
  | printChar
  | printNum
  | printStr
  | readChar
  | readNum
  | readStr
deriving DecidableEq, Repr

namespace SysFn

def all : List SysFn := [.printChar, .printNum, .printStr, .readChar, .readNum, .readStr]

def name : SysFn → String
  | .printChar => "Sys.print_char"
  | .printNum => "Sys.print_num"
  | .printStr => "Sys.print_str"
  | .readChar => "Sys.read_char"
  | .readNum => "Sys.read_num"
  | .readStr => "Sys.read_str"

def nlocals : SysFn → UInt16
  | .readStr => 1
  | _ => 0

end SysFn

def systemInst (ln : UInt32) (inst : Inst) : Inst :=
  { inst with pos := { inst.pos with ln := ln, filename := some "<system>" } }

def SysFn.body : SysFn → List Inst
  | .printChar =>
    [systemInst 0 (.pushSeg .arg 0), systemInst 1 (.bare .builtinPrintChar), systemInst 2 (.pushSeg .const 0)]
  | .printNum =>
    [systemInst 4 (.pushSeg .arg 0), systemInst 5 (.bare .builtinPrintNum), systemInst 6 (.pushSeg .const 0)]
  | .printStr =>
    [systemInst 8 (.pushSeg .arg 0), systemInst 9 (.pushSeg .arg 1), systemInst 10 (.bare .builtinPrintStr),
      systemInst 11 (.pushSeg .const 0)]
  | .readChar => [systemInst 13 (.bare .builtinReadChar)]
  | .readNum => [systemInst 15 (.bare .builtinReadNum)]
  | .readStr => [systemInst 17 (.pushSeg .arg 0), systemInst 18 (.bare .builtinReadStr)]

structure World where
  heap : List Word
  io : Io

def Data.world (d : Data) : World where
  heap := d.heap
  io := d.io

def Data.inWorld (d : Data) (w : World) : Data := { d with heap := w.heap, io := w.io }

def World.fail (w : World) (ln : UInt32) (inst : Inst) (why : Error) : Except End (Word × World) :=
  .error (.failed (why.diag (systemInst ln inst)) (cleanStdout w.io))

def World.printed (w : World) (text : List Byte) : World := { w with io := hvmeFprintf text w.io }

def World.left (w : World) (stdin : List Byte) : World := { w with io := { w.io with stdin := stdin } }

def World.arg (w : World) (ln : UInt32) (args : List Word) (i : UInt16) (rest : Word → Except End (Word × World)) :
    Except End (Word × World) :=
  match args[i.toNat]? with
  | some val => rest val
  | none => w.fail ln (.pushSeg .arg i) (.segment args.length)

def SysFn.effect (args : List Word) (w : World) : SysFn → Except End (Word × World)
  | .printChar => w.arg 0 args 0 fun ch => .ok (0, w.printed [ch.toUInt8])
  | .printNum => w.arg 4 args 0 fun num => .ok (0, w.printed (decimal num.toNat))
  | .printStr => w.arg 8 args 0 fun nchars => w.arg 9 args 1 fun addr =>
    if nchars = 0 ∨ addr.toNat + nchars.toNat ≤ w.heap.length then
      .ok (0, ((w.heap.drop addr.toNat).take nchars.toNat).foldl (fun w val => w.printed [val.toUInt8]) w)
    else .error .fault
  | .readChar =>
    match w.io.stdin with
    | [] => .ok (0xFFFF, w)
    | c :: stdin => .ok (c.toUInt16, w.left stdin)
  | .readNum =>
    match scanfUint w.io.stdin with
    | (.eof, stdin) => (w.left stdin).fail 15 (.bare .builtinReadNum) .readFailed
    | (.mismatch, stdin) =>
      match discardLine stdin with
      | .error _ => .error .fault
      | .ok stdin => (w.left stdin).fail 15 (.bare .builtinReadNum) .notDigits
    | (.num value, stdin) =>
      if value.toNat > bit16Limit then (w.left stdin).fail 15 (.bare .builtinReadNum) (.tooLarge value)
      else .ok (value.toUInt16, w.left stdin)
  | .readStr => w.arg 17 args 0 fun addr =>
    match getline w.io.stdin with
    | none => w.fail 18 (.bare .builtinReadStr) .readFailed
    | some (line, stdin) =>
      if addr.toNat + (line.length - 1) > memHeapSize then
        (w.left stdin).fail 18 (.bare .builtinReadStr) (.heapAddress (addr.toNat + (line.length - 1)))
      else
        .ok (UInt16.ofNat (line.length - 1),
          { w.left stdin with heap := storeChars w.heap addr.toNat (line.take (line.length - 1)) })

def Data.answer (d : Data) (answer : Word × World) : Data := (d.inWorld answer.2).withWork [answer.1]

section bodies

variable {d : Data} {fi : Nat} {ln : UInt32} {inst : Inst} {insts : List Inst}

theorem Data.execAll_ok {mid : Data} (moved : d.exec fi inst = .ok mid) :
    d.execAll fi (inst :: insts) = mid.execAll fi insts := by
  rw [Data.execAll, moved]
  rfl

theorem Data.execAll_last : d.execAll fi [inst] = (d.exec fi inst).settle inst := by
  rw [Data.execAll]
  cases (d.exec fi inst).settle inst <;> rfl

theorem execAll_arg {i : UInt16} {rest : Word → Except End (Word × World)} {whole : Word × World → Data}
    (later : ∀ val, (d.push val).execAll fi insts = (rest val).map whole) :
    d.execAll fi (systemInst ln (.pushSeg .arg i) :: insts) = (d.world.arg ln d.frame.args i rest).map whole := by
  have moved : d.exec fi (systemInst ln (.pushSeg .arg i)) = _ := show d.loadFrom _ d.frame.args = _ from rfl
  unfold World.arg
  rw [Data.loadFrom] at moved
  simp only [systemInst, Inst.pushSeg] at moved
  cases given : d.frame.args[i.toNat]? with
  | some val =>
    rw [given] at moved
    exact (Data.execAll_ok moved).trans (later val)
  | none =>
    rw [given] at moved
    rw [Data.execAll]
    simp only [systemInst, Inst.pushSeg, moved]
    rfl

theorem execAll_zero : d.execAll fi [systemInst ln (.pushSeg .const 0)] = .ok (d.push 0) := rfl

theorem printed_folds (w : World) (vals : List Word) :
    vals.foldl (fun w val => w.printed [val.toUInt8]) w =
      { w with io := vals.foldl (fun io val => hvmeFprintf [val.toUInt8] io) w.io } := by
  induction vals generalizing w with
  | nil => rfl
  | cons val vals ih => exact ih _

end bodies

theorem SysFn.body_effect (f : SysFn) {d : Data} (empty : d.frame.work = []) :
    d.execAll 0 f.body = (f.effect d.frame.args d.world).map d.answer := by
  cases f with
  | printChar =>
    refine execAll_arg fun ch => ?_
    rw [Data.execAll_ok rfl, execAll_zero]
    simp only [Except.map, Data.answer, Data.push, Data.withWork, Data.inWorld, World.printed, Data.world, empty]
  | printNum =>
    refine execAll_arg fun num => ?_
    rw [Data.execAll_ok rfl, execAll_zero]
    simp only [Except.map, Data.answer, Data.push, Data.withWork, Data.inWorld, World.printed, Data.world, empty]
  | printStr =>
    refine execAll_arg fun nchars => execAll_arg fun addr => ?_
    by_cases inside : nchars = 0 ∨ addr.toNat + nchars.toNat ≤ d.world.heap.length
    · have moved : Data.exec 0 (systemInst 10 (.bare .builtinPrintStr)) ((d.push nchars).push addr) = .ok
          (d.inWorld (((d.world.heap.drop addr.toNat).take nchars.toNat).foldl (fun w val => w.printed [val.toUInt8]) d.world)) := by
        show (if _ then _ else _) = _
        rw [printed_folds]
        exact if_pos inside
      rw [Data.execAll_ok moved, execAll_zero, if_pos inside]
      simp only [Except.map, Data.answer, Data.push, Data.withWork, Data.inWorld, empty]
    · have moved : Data.exec 0 (systemInst 10 (.bare .builtinPrintStr)) ((d.push nchars).push addr) = .wrong :=
        if_neg inside
      rw [Data.execAll, moved, if_neg inside]
      rfl
  | readChar =>
    rw [SysFn.body, Data.execAll_last]
    show d.readChar.settle _ = _
    simp only [SysFn.effect, Data.readChar, Data.world]
    rcases d.io.stdin with _ | ⟨c, stdin⟩
    · simp only [Result.settle, Except.map, Data.answer, Data.push, Data.withWork, Data.inWorld, empty]
    · simp only [Result.settle, Except.map, Data.answer, Data.push, Data.withWork, Data.inWorld, World.left, empty]
  -- Here the only instruction may also end the run, after it has read from the input.
  | readNum =>
    rw [SysFn.body, Data.execAll_last]
    show d.readNum.settle _ = _
    simp only [SysFn.effect, Data.readNum, Data.world]
    rcases scanfUint d.io.stdin with ⟨_ | _ | value, stdin⟩
    · rfl
    · simp only
      cases discardLine stdin <;> rfl
    · simp only
      split
      · rfl
      · simp only [Result.settle, Except.map, Data.answer, Data.push, Data.withWork, Data.inWorld, World.left, empty]
  | readStr =>
    refine execAll_arg fun addr => ?_
    rw [Data.execAll_last]
    show Result.settle _ (Data.readStr (d.push addr)) = _
    simp only [Data.readStr, Data.pop, Data.push, Data.withWork, Data.world]
    rcases getline d.io.stdin with _ | ⟨line, stdin⟩
    · rfl
    · simp only
      split
      · rfl
      · simp only [Result.settle, Except.map, Data.answer, Data.withWork, Data.inWorld, World.left, empty]

def SysFn.spot (f : SysFn) : Spot where
  fi := 0
  lines := ((locate (mkKey (Ident.ofString f.name) .func) systemLines).map Prod.fst).getD []

theorem SysFn.spot_code (f : SysFn) :
    ∃ ret later, executables f.spot.lines = f.body ++ ret :: later ∧ ret.code = .ret := by
  -- The system file is fixed, so that both halves are a matter of evaluation.
  have starts : (executables f.spot.lines).take f.body.length = f.body := by
    cases f <;> decide +kernel
  have ends_ : ((executables f.spot.lines).drop f.body.length).head?.map Inst.code = some .ret := by
    cases f <;> decide +kernel
  obtain ⟨ret, last, code⟩ := Option.map_eq_some_iff.mp ends_
  obtain ⟨later, split_⟩ := List.head?_eq_some_iff.mp last
  refine ⟨ret, later, ?_, code⟩
  rw [← List.take_append_drop f.body.length (executables f.spot.lines), starts, split_]

theorem SysFn.body_straight (f : SysFn) : ∀ inst ∈ f.body, Straight inst := by
  have all : f.body.all fun inst => decide (Straight inst) := by
    cases f <;> decide +kernel
  simpa using all

def SysFn.called (ctl : Control Spot) (loc : Spot) (inst : Inst) : Option SysFn :=
  if inst.code = .call then
    SysFn.all.find? fun f => ctl.target loc (mkKey inst.ident .func) = .found f.spot f.nlocals
  else none

/-- A call of a system function in one move. -/
def SysFn.move (ctl : Control Spot) (f : SysFn) (inst : Inst) (s : State Spot) : Move (State Spot) End :=
  let nargs := inst.nargs.toNat
  if nargs > s.depth then fail inst (.missingArgs inst.nargs s.depth) s.data.io
  else if nargs ≤ s.data.frame.work.length then
    match f.effect (s.data.frame.work.take nargs).reverse s.data.world with
    | .error e => .ends e
    -- The return still reads its frame, whose place is eight words above the caller.
    | .ok (val, w) => if s.depth + 8 < 2 ^ 16 then .goes (s.answered ctl nargs val (s.data.inWorld w)) else .ends .lost
  else .ends .lost

def native (files : List (List Line)) (s : State Spot) : Move (State Spot) End :=
  let ctl := Control.ofLines (systemLines :: files)
  match ctl.fetch s.loc with
  | none => .ends (.halted s.data.io)
  | some inst =>
    match SysFn.called ctl s.loc inst with
    | some f => f.move ctl inst s
    | none => execute ctl inst s

section native

variable {files : List (List Line)} {loc : Spot} {inst : Inst} {f : SysFn}

theorem SysFn.simple (f : SysFn) (files : List (List Line)) :
    ∃ last, Simple (Control.ofLines files) f.spot 0 f.body last := by
  obtain ⟨ret, later, code, returns⟩ := f.spot_code
  obtain ⟨behind, along, rest⟩ := along_lines files 0 f.body_straight code
  refine ⟨_, along, ret, ?_, returns⟩
  rw [fetch_lines, rest]
  rfl

theorem SysFn.called_some (called : SysFn.called (Control.ofLines files) loc inst = some f) :
    inst.code = .call ∧ (Control.ofLines files).target loc (mkKey inst.ident .func) = .found f.spot f.nlocals := by
  unfold SysFn.called at called
  split at called
  · next code => exact ⟨code, by simpa using List.find?_some called⟩
  · cases called

theorem SysFn.move_hastens {s : State Spot} (here : (Control.ofLines files).fetch s.loc = some inst)
    (called : SysFn.called (Control.ofLines files) s.loc inst = some f) :
    Hastens (step (Control.ofLines files)) s (f.move (Control.ofLines files) inst s) := by
  obtain ⟨code, found⟩ := SysFn.called_some called
  have moves : step (Control.ofLines files) s = call (Control.ofLines files) inst s := by
    simp only [step, here, execute, code]
  unfold SysFn.move
  simp only
  split
  · next missing =>
    refine .ends ⟨s, .refl, ?_⟩
    simp only [moves, call, missing, if_true]
    rfl
  · next deep =>
    split
    · next given =>
      have calling : Calling (Control.ofLines files) s inst f.spot f.nlocals := ⟨here, code, found, given⟩
      obtain ⟨last, simple⟩ := f.simple files
      -- The body finds the arguments of the call in a frame of its own, with an empty working stack.
      have done : (s.entered inst.nargs.toNat f.nlocals).execAll 0 f.body = _ := f.body_effect rfl
      have args : (s.entered inst.nargs.toNat f.nlocals).frame.args.length = inst.nargs.toNat := by
        rw [State.entered, Frame.enter, List.length_reverse, List.length_take, Nat.min_eq_left given]
      generalize effect : f.effect (s.entered inst.nargs.toNat f.nlocals).frame.args
        (s.entered inst.nargs.toNat f.nlocals).world = answer at done
      rw [show (s.data.frame.work.take inst.nargs.toNat).reverse =
        (s.entered inst.nargs.toNat f.nlocals).frame.args from rfl, show s.data.world =
        (s.entered inst.nargs.toNat f.nlocals).world from rfl, effect]
      cases answer with
      | error e => exact .ends (calling.stops simple done)
      | ok answer =>
        simp only
        split
        · next low =>
          have answers := calling.answers simple done rfl args low
          exact .goes answers
        · next high => exact .ends (calling.lost simple done args (Nat.le_of_not_lt high))
    · next short =>
      refine .ends ⟨s, .refl, ?_⟩
      simp only [moves, call, deep, found, short, if_false]

theorem native_shortcut (files : List (List Line)) : Shortcut (interpret files) (native files) := by
  intro s
  unfold native
  simp only
  split
  · next ended => exact .ends ⟨s, .refl, by simp only [interpret, step, ended]⟩
  · next inst here =>
    split
    -- Only this move takes several steps of the lines.
    · next f called => exact SysFn.move_hastens here called
    · next =>
      have moves : interpret files s = execute (Control.ofLines (systemLines :: files)) inst s := by
        simp only [interpret, step, here]
      exact moves ▸ hastens_self (interpret files) s

end native

theorem Implements.natively {cfg : Config} {prog : Program} {stdin : List Byte} {files : List (List Line)}
    {s : State Spot} (implements_ : Implements cfg prog stdin (interpret files) s) :
    Implements cfg prog stdin (native files) s :=
  implements_.of_yields_iff fun _ => (native_shortcut files).yields_iff.symm

/-- A program runs as on a machine that has the system functions built in. -/
theorem execProg_natives {cfg : Config} {fuel : Nat} {srcs : List Source} {files : List (List Line)} {prog : Program}
    (listed : Listed cfg fuel srcs files) (made : makeProg cfg fuel srcs = .ok (some prog)) (small : Small files)
    (stdin : List Byte) : Implements cfg prog stdin (native files) (launch stdin) :=
  (listed.runs made small stdin).natively

theorem execProg_natives_sample :
    ∃ fuel prog, makeProg .unitTests fuel (sample.map Written.source) = .ok (some prog) ∧
      ∀ stdin, Implements .unitTests prog stdin (native (sample.map Written.lines)) (launch stdin) := by
  obtain ⟨fuel, prog, made, listed⟩ := good_listed sample_good
  exact ⟨fuel, prog, made, execProg_natives listed made sample_small⟩

end Hvme.Vm
