import Hvme.Machine.Steps
import Hvme.Parser.Decimal

set_option autoImplicit false

namespace Hvme

open Outcome

inductive PrintOp
  | char (val : Word)
  | num (val : Word)
  | str (vals : List Word)

def PrintOp.print (io : Io) : PrintOp → Io
  | .char val => hvmeFprintf [val.toUInt8] io
  | .num val => hvmeFprintf (decimal val.toNat) io
  | .str vals => vals.foldl (fun io val => hvmeFprintf [val.toUInt8] io) io

def PrintOp.printAll (ops : List PrintOp) (io : Io) : Io := ops.foldl PrintOp.print io

/-- The bytes that are given to `hvme_fprintf`; it prints those that are not zero. -/
def PrintOp.given : PrintOp → List Byte
  | .char val => [val.toUInt8]
  | .num val => decimal val.toNat
  | .str vals => vals.map UInt16.toUInt8

structure Io.Prints (io : Io) (given : List Byte) (io' : Io) : Prop where
  stdout : io'.stdout = io.stdout ++ given.filter (· ≠ 0)
  last : io'.lastStdout = given.getLast?.getD io.lastStdout

section prints

variable {io io' io'' : Io} {given more : List Byte}

theorem Io.Prints.refl (io : Io) : io.Prints [] io where
  stdout := by simp
  last := rfl

theorem Io.Prints.trans (first : io.Prints given io') (second : io'.Prints more io'') :
    io.Prints (given ++ more) io'' where
  stdout := by rw [second.stdout, first.stdout, List.filter_append, List.append_assoc]
  last := by
    rw [second.last, first.last, List.getLast?_append]
    cases more.getLast? <;> rfl

theorem hvmeFprintf_prints_byte (b : Byte) (io : Io) : io.Prints [b] (hvmeFprintf [b] io) := by
  by_cases zero : b = 0 <;> constructor <;> simp [hvmeFprintf, hvmeFputs, printBufSize, zero]

theorem hvmeFprintf_prints {text : List Byte} (short : text.length < printBufSize) (nonempty : text ≠ [])
    (nonzero : ∀ b ∈ text, b ≠ 0) (io : Io) : io.Prints text (hvmeFprintf text io) := by
  have fits : ¬text.length > printBufSize - 1 := by omega
  have whole : text.takeWhile (· ≠ 0) = text :=
    List.takeWhile_eq_self_iff.mpr fun b member => by simpa using nonzero b member
  have kept : text.filter (· ≠ 0) = text :=
    List.filter_eq_self.mpr fun b member => by simpa using nonzero b member
  rw [hvmeFprintf, if_neg fits, hvmeFputs, whole]
  refine ⟨by rw [kept], ?_⟩
  rw [List.getLast?_eq_some_getLast nonempty]
  rfl

theorem decimal_prints (val : Word) (io : Io) :
    io.Prints (decimal val.toNat) (hvmeFprintf (decimal val.toNat) io) := by
  have small : val.toNat < 10 ^ 5 := Nat.lt_trans (UInt16.toNat_lt val) (by decide)
  have short := decimal_length_le (by decide : 0 < 5) small
  refine hvmeFprintf_prints (Nat.lt_of_le_of_lt short (by decide))
    (List.length_pos_iff.mp (decimal_length_pos _)) ?_ io
  rintro b member rfl
  exact absurd (decimal_isdigit _ _ member) (by decide)

theorem PrintOp.prints (op : PrintOp) (io : Io) : io.Prints op.given (op.print io) := by
  cases op with
  | char val => exact hvmeFprintf_prints_byte _ io
  | num val => exact decimal_prints val io
  | str vals =>
    simp only [PrintOp.print, PrintOp.given]
    induction vals generalizing io with
    | nil => exact .refl io
    | cons val vals ih => exact (hvmeFprintf_prints_byte val.toUInt8 io).trans (ih _)

theorem PrintOp.printAll_prints (ops : List PrintOp) (io : Io) :
    io.Prints (ops.flatMap PrintOp.given) (PrintOp.printAll ops io) := by
  induction ops generalizing io with
  | nil => exact .refl io
  | cons op ops ih => exact (op.prints io).trans (ih _)

end prints

def Ended (stdout : List Byte) : Prop := stdout = [] ∨ stdout.getLast? = some newline

/-- What is owed to the output at the end of a run, where `clean_stdout` is called. -/
structure Io.EndsClean (io : Io) : Prop where
  ended : Ended (cleanStdout io).stdout
  once : (cleanStdout io).stdout = io.stdout ∨ (cleanStdout io).stdout = io.stdout ++ [newline]
  kept : Ended io.stdout → (cleanStdout io).stdout = io.stdout

/-- The last byte that is given is no zero, unless the bytes before it that are none are none at
all or end with a newline. -/
def NoZeroLast (given : List Byte) : Prop :=
  given.getLast? = some 0 → Ended (given.filter (· ≠ 0))

theorem cleanStdout_stdout (io : Io) : (cleanStdout io).stdout =
    if io.lastStdout ≠ newline ∧ io.lastStdout ≠ 0 then io.stdout ++ [newline] else io.stdout := by
  unfold cleanStdout
  split
  · next dirty =>
    rw [if_pos (show io.lastStdout ≠ newline ∧ io.lastStdout ≠ 0 from dirty), (hvmeFprintf_prints_byte 10 io).stdout]
    rfl
  · next clean => rw [if_neg (show ¬(io.lastStdout ≠ newline ∧ io.lastStdout ≠ 0) from clean)]

theorem filter_getLast {given : List Byte} {b : Byte} (last : given.getLast? = some b) (nonzero : b ≠ 0) :
    (given.filter (· ≠ 0)).getLast? = some b := by
  obtain ⟨front, rfl⟩ := List.getLast?_eq_some_iff.mp last
  simp [List.filter_append, nonzero]

theorem Io.Prints.endsClean_iff {stdin given : List Byte} {io : Io}
    (prints : (Io.init stdin).Prints given io) : io.EndsClean ↔ NoZeroLast given := by
  have stdout : io.stdout = given.filter (· ≠ 0) := prints.stdout.trans (List.nil_append _)
  have last : io.lastStdout = given.getLast?.getD 0 := prints.last
  have clean := cleanStdout_stdout io
  constructor
  · intro ends zero
    rw [if_neg (by simp [last, zero])] at clean
    rw [← stdout, ← clean]
    exact ends.ended
  · intro shown
    have once : (cleanStdout io).stdout = io.stdout ∨ (cleanStdout io).stdout = io.stdout ++ [newline] := by
      rw [clean]
      split
      · exact .inr rfl
      · exact .inl rfl
    by_cases dirty : io.lastStdout ≠ newline ∧ io.lastStdout ≠ 0
    · rw [if_pos dirty] at clean
      refine ⟨.inr (clean ▸ List.getLast?_concat), once, fun ended => ?_⟩
      -- The last byte that is given is printed, and it is no newline.
      cases bytes : given.getLast? with
      | none =>
        rw [bytes] at last
        exact absurd last dirty.2
      | some b =>
        rw [bytes, Option.getD_some] at last
        have final := filter_getLast bytes (last ▸ dirty.2)
        rw [← stdout] at final
        rcases ended with nothing | newline_
        · simp [nothing] at final
        · rw [newline_] at final
          cases final
          exact absurd last dirty.1
    · rw [if_neg dirty] at clean
      refine ⟨?_, once, fun _ => clean⟩
      rw [clean, stdout]
      cases bytes : given.getLast? with
      | none =>
        rw [List.getLast?_eq_none_iff.mp bytes]
        exact .inl rfl
      | some b =>
        rw [bytes, Option.getD_some] at last
        by_cases zero : b = 0
        · exact shown (zero ▸ bytes)
        · refine .inr (filter_getLast bytes zero |>.trans ?_)
          rw [last] at dirty
          simp only [zero, ne_eq, not_false_eq_true, and_true, not_not] at dirty
          rw [dirty]

/-- The output ends in a newline exactly if no zero that is printed last hides that it does not. -/
theorem printAll_endsClean_iff (ops : List PrintOp) (stdin : List Byte) :
    (PrintOp.printAll ops (Io.init stdin)).EndsClean ↔ NoZeroLast (ops.flatMap PrintOp.given) :=
  (PrintOp.printAll_prints ops (Io.init stdin)).endsClean_iff

theorem zero_hides_letter :
    ¬(PrintOp.printAll [.char 97, .char 0] (Io.init [])).EndsClean := by
  intro ends
  exact absurd ends.ended (by unfold Ended; decide)

structure SameOutput (io io' : Io) : Prop where
  stdout : io'.stdout = io.stdout
  last : io'.lastStdout = io.lastStdout

section same

variable {io io' : Io}

theorem SameOutput.fprintf (same : SameOutput io io') (text : List Byte) :
    SameOutput (hvmeFprintf text io) (hvmeFprintf text io') := by
  unfold hvmeFprintf
  split
  · exact same
  · exact ⟨by simp only [hvmeFputs, same.stdout], rfl⟩

theorem SameOutput.print (same : SameOutput io io') (op : PrintOp) :
    SameOutput (op.print io) (op.print io') := by
  cases op with
  | char val => exact same.fprintf _
  | num val => exact same.fprintf _
  | str vals =>
    simp only [PrintOp.print]
    induction vals generalizing io io' with
    | nil => exact same
    | cons val vals ih => exact ih (same.fprintf _)

theorem SameOutput.clean (same : SameOutput io io') : SameOutput (cleanStdout io) (cleanStdout io') := by
  unfold cleanStdout
  rw [same.last]
  split
  · exact same.fprintf _
  · exact same

end same

def Printed (first io : Io) : Prop := ∃ ops, SameOutput (PrintOp.printAll ops first) io

def Cleaned (first io : Io) : Prop := ∃ ops, SameOutput (cleanStdout (PrintOp.printAll ops first)) io

theorem Printed.op {first io : Io} (printed : Printed first io) (op : PrintOp) :
    Printed first (op.print io) := by
  obtain ⟨ops, same⟩ := printed
  refine ⟨ops ++ [op], ?_⟩
  rw [PrintOp.printAll, List.foldl_append]
  exact same.print op

theorem Printed.stdin {first io : Io} (printed : Printed first io) (stdin : List Byte) :
    Printed first { io with stdin := stdin } := by
  obtain ⟨ops, same⟩ := printed
  exact ⟨ops, same.stdout, same.last⟩

theorem Printed.clean {first io : Io} (printed : Printed first io) : Cleaned first (cleanStdout io) := by
  obtain ⟨ops, same⟩ := printed
  exact ⟨ops, same.clean⟩

def Prints {α : Type} (first : Io) (x : ExecM α) : Prop :=
  ∀ m : Machine, Printed first m.io →
    wp x (fun _ m' => Printed first m'.io) (fun stop m' => ∀ diag, stop = .err diag → Cleaned first m'.io) m

section computations

variable {α β : Type} {first : Io}

@[simp] theorem prints_pure (a : α) : Prints first (pure a : ExecM α) := fun _ printed => printed

@[simp] theorem prints_fault (fault : Fault) : Prints first (throw (.fault fault) : ExecM α) :=
  fun _ _ => nofun

@[simp] theorem prints_execErr (pos : Pos) (text : String) : Prints first (execErr pos text : ExecM α) :=
  fun _ printed _ _ => printed.clean

@[simp] theorem prints_liftFault (x : Except Fault α) : Prints first (liftFault x) := by
  cases x with
  | error fault => exact prints_fault fault
  | ok a => exact prints_pure a

@[simp] theorem Prints.bind {x : ExecM α} {f : α → ExecM β} (before_ : Prints first x)
    (after : ∀ a, Prints first (f a)) : Prints first (x >>= f) := by
  intro m printed
  rw [wp_bind]
  exact (before_ m printed).mono (fun a m' printed' => after a m' printed') fun _ _ stops => stops

@[simp] theorem Prints.map {x : ExecM α} (f : α → β) (prints : Prints first x) : Prints first (f <$> x) := by
  rw [map_eq_pure_bind]
  exact prints.bind fun a => prints_pure (f a)

@[simp] theorem prints_ite {cond : Prop} [Decidable cond] {x y : ExecM α} (left : Prints first x)
    (right : Prints first y) : Prints first (if cond then x else y) := by
  split
  · exact left
  · exact right

theorem prints_modify {f : Machine → Machine} (same : ∀ m, (f m).io = m.io) :
    Prints first (modify f : ExecM PUnit) := by
  intro m printed
  rw [wp_modify]
  exact (same m).symm ▸ printed

theorem Prints.get_bind {f : Machine → ExecM β} (after : ∀ m : Machine, Printed first m.io → Prints first (f m)) :
    Prints first (get >>= f) := by
  intro m printed
  rw [wp_bind, wp_get]
  exact after m printed m printed

theorem prints_setIo {io : Io} (printed : Printed first io) : Prints first (setIo io) :=
  fun _ _ => printed

@[simp] theorem prints_get : Prints first (get : ExecM Machine) := fun _ printed => printed

@[simp] theorem prints_getStack : Prints first getStack := fun _ printed => printed

@[simp] theorem prints_setStack (stack : Stack) : Prints first (setStack stack) := fun _ printed => printed

@[simp] theorem prints_getHeap : Prints first getHeap := fun _ printed => printed

@[simp] theorem prints_setHeap (heap : Heap) : Prints first (setHeap heap) := fun _ printed => printed

@[simp] theorem prints_setEi (ei : UInt32) : Prints first (setEi ei) := fun _ printed => printed

@[simp] theorem prints_setMem (mem : Memory) : Prints first (setMem mem) := fun _ printed => printed

@[simp] theorem prints_bumpSp (count : Nat) : Prints first (bumpSp count) := fun _ printed => printed

@[simp] theorem prints_assert (cond : Bool) : Prints first (assert_ cond) := by
  simp [assert_]

@[simp] theorem prints_activeFile : Prints first activeFile := by
  refine .bind prints_get fun m => ?_
  cases m.prog.files[m.prog.fi]? <;> simp

@[simp] theorem prints_activeInst : Prints first activeInst := by
  refine .bind prints_activeFile fun file => ?_
  cases file.insts.cell[file.ei.toNat]? <;> simp

@[simp] theorem prints_getCell (idx : Nat) : Prints first (getCell idx) := by
  refine .bind prints_getStack fun stack => ?_
  cases stack.ops[idx]? <;> simp

@[simp] theorem prints_setCell (idx : Nat) (val : Word) : Prints first (setCell idx val) := by
  simp [setCell]

@[simp] theorem prints_frameCell (frame : Addr) (back : Nat) : Prints first (frameCell frame back) := by
  simp [frameCell]

@[simp] theorem prints_execSpush (cfg : Config) (val : Word) : Prints first (execSpush cfg val) := by
  simp [execSpush]

@[simp] theorem prints_execSpop (cfg : Config) (pos : Pos) : Prints first (execSpop cfg pos) := by
  refine .bind prints_getStack fun stack => .bind (prints_liftFault _) fun popped => ?_
  cases popped with
  | none => exact prints_execErr _ _
  | some popped => simp

end computations

section instructions

variable {first : Io} (cfg : Config) (inst : Inst) (pos : Pos)

@[simp] theorem ctrlFlowError_prints {α : Type} (ident : Ident) :
    Prints first (ctrlFlowError ident pos : ExecM α) :=
  prints_ite (prints_execErr _ _) (prints_execErr _ _)

theorem execPop_prints : Prints first (execPop cfg inst) := by
  have pops {f : Word → ExecM Unit} (after : ∀ val, Prints first (f val)) :
      Prints first (execSpop cfg inst.pos >>= f) := .bind (prints_execSpop cfg inst.pos) after
  refine .bind prints_getStack fun stack => .bind prints_getHeap fun heap => ?_
  cases inst.seg with
  | arg | loc =>
    exact prints_ite (pops fun val => prints_setCell _ _)
      (prints_ite (prints_execErr _ _) (prints_execErr _ _))
  | stat | tmp =>
    exact prints_ite (pops fun val => .bind prints_activeFile fun file => prints_setMem _)
      (prints_execErr _ _)
  | const => exact pops fun val => prints_pure _
  | this | that =>
    exact prints_ite (pops fun val => .bind (prints_liftFault _) fun heap => prints_setHeap heap)
      (prints_execErr _ _)
  | ptr =>
    exact prints_ite (pops fun val => prints_setHeap _)
      (prints_ite (pops fun val => prints_setHeap _) (prints_execErr _ _))

theorem execPush_prints : Prints first (execPush cfg inst) := by
  have pushes (val : Word) : Prints first (execSpush cfg val) := prints_execSpush cfg val
  refine .bind prints_getStack fun stack => .bind prints_getHeap fun heap => ?_
  cases inst.seg with
  | arg | loc =>
    exact prints_ite (.bind (prints_getCell _) pushes)
      (prints_ite (prints_execErr _ _) (prints_execErr _ _))
  | stat | tmp =>
    exact prints_ite (.bind prints_activeFile fun file => pushes _) (prints_execErr _ _)
  | const => exact pushes _
  | this | that => exact prints_ite (.bind (prints_liftFault _) pushes) (prints_execErr _ _)
  | ptr =>
    exact prints_ite (.bind (prints_assert _) fun _ => pushes _)
      (prints_ite (.bind (prints_assert _) fun _ => pushes _) (prints_execErr _ _))

theorem execAdd_prints : Prints first (execAdd cfg pos) := by
  refine .bind (prints_execSpop cfg pos) fun y => .bind (prints_execSpop cfg pos) fun x => ?_
  exact prints_ite (prints_execSpush cfg _) (.bind (prints_bumpSp 2) fun _ => prints_execErr _ _)

theorem execSub_prints : Prints first (execSub cfg pos) := by
  refine .bind (prints_execSpop cfg pos) fun y => .bind (prints_execSpop cfg pos) fun x => ?_
  exact prints_ite (prints_execSpush cfg _) (.bind (prints_bumpSp 2) fun _ => prints_execErr _ _)

theorem execUnary_prints (f : Word → Word) : Prints first (execUnary f cfg pos) :=
  .bind (prints_execSpop cfg pos) fun _ => prints_execSpush cfg _

theorem execBinary_prints (f : Word → Word → Word) : Prints first (execBinary f cfg pos) :=
  .bind (prints_execSpop cfg pos) fun _ => .bind (prints_execSpop cfg pos) fun _ => prints_execSpush cfg _

@[simp] theorem jumpTo_prints (key : SymKey) (val : SymVal) : Prints first (jumpTo key val) := by
  refine .bind prints_activeFile fun file => .bind (prints_liftFault _) ?_
  rintro ⟨_ | _, val⟩
  · refine .bind prints_get fun m => .bind (prints_liftFault _) fun buf => ?_
    split
    · exact prints_pure _
    · exact .bind (prints_modify fun _ => rfl) fun _ => .bind (prints_setEi _) fun _ => prints_pure _
    · exact prints_pure _
  · exact .bind (prints_setEi _) fun _ => prints_pure _

theorem execGoto_prints : Prints first (execGoto pos) := by
  refine .bind prints_activeInst fun inst => .bind (jumpTo_prints _ _) ?_
  rintro ⟨_ | _ | _, val⟩ <;> simp [defErr]

theorem execIfGoto_prints : Prints first (execIfGoto cfg pos) := by
  refine .bind (prints_execSpop cfg pos) fun val => ?_
  refine prints_ite (.bind prints_activeInst fun inst => .bind (jumpTo_prints _ _) ?_) (prints_pure _)
  rintro ⟨_ | _ | _, val⟩ <;> simp [defErr]

theorem execCall_prints : Prints first (execCall cfg pos) := by
  refine .bind prints_activeInst fun inst => .bind prints_getStack fun stack => ?_
  refine .bind prints_getHeap fun heap => .bind prints_activeFile fun file => .bind prints_get fun m => ?_
  refine prints_ite (prints_execErr _ _) (.bind (jumpTo_prints _ _) ?_)
  rintro ⟨_ | _ | _, val⟩
  · iterate 8 refine .bind (prints_execSpush cfg _) fun _ => ?_
    refine .bind prints_getStack fun stack => .bind (prints_liftFault _) fun stack => ?_
    exact .bind (prints_setStack stack) fun _ => prints_setEi _
  · exact ctrlFlowError_prints pos _
  · exact prints_execErr _ _

theorem execRet_prints : Prints first (execRet cfg pos) := by
  have cell {β : Type} {f : Word → ExecM β} (frame : Addr) (back : Nat) (after : ∀ val, Prints first (f val)) :
      Prints first (frameCell frame back >>= f) := .bind (prints_frameCell frame back) after
  refine .bind prints_getStack fun stack => cell _ 8 fun retEi => cell _ 7 fun retFi => ?_
  refine .bind (prints_execSpop cfg pos) fun retVal => .bind prints_getStack fun stack => ?_
  refine .bind (prints_setCell _ _) fun _ => .bind prints_getStack fun stack => ?_
  refine .bind (prints_setStack _) fun _ => .bind prints_getHeap fun heap => ?_
  refine cell _ 1 fun that => cell _ 2 fun this => .bind (prints_setHeap _) fun _ => ?_
  refine cell _ 3 fun argLen => cell _ 4 fun arg => cell _ 5 fun lclLen => cell _ 6 fun lcl => ?_
  refine .bind prints_getStack fun stack => .bind (prints_setStack _) fun _ => .bind prints_get fun m => ?_
  exact prints_ite (.bind (prints_modify fun _ => rfl) fun _ => prints_setEi _) (prints_fault _)

theorem execBuiltinPrintChar_prints : Prints first (execBuiltinPrintChar cfg pos) := by
  refine .bind (prints_execSpop cfg pos) fun val => .get_bind fun m printed => ?_
  exact prints_setIo (printed.op (.char val))

theorem execBuiltinPrintNum_prints : Prints first (execBuiltinPrintNum cfg pos) := by
  refine .bind (prints_execSpop cfg pos) fun val => .get_bind fun m printed => ?_
  exact prints_setIo (printed.op (.num val))

theorem printStrLoop_op {heap : Heap} {start : Addr} {count : Nat} {i : Addr} {io io' : Io}
    (run : printStrLoop heap start count i io = .ok io') : ∃ vals, io' = (PrintOp.str vals).print io := by
  induction count generalizing i io with
  | zero =>
    cases run
    exact ⟨[], rfl⟩
  | succ count ih =>
    rw [printStrLoop] at run
    split at run
    · cases run
    · next val _ =>
      obtain ⟨vals, rfl⟩ := ih run
      exact ⟨val :: vals, rfl⟩

theorem execBuiltinPrintStr_prints : Prints first (execBuiltinPrintStr cfg pos) := by
  refine .bind (prints_execSpop cfg pos) fun strStart => .bind (prints_execSpop cfg pos) fun nchars => ?_
  refine .bind prints_getHeap fun heap => .get_bind fun m printed => ?_
  cases run : printStrLoop heap strStart nchars.toNat 0 m.io with
  | error fault => exact fun _ _ => nofun
  | ok io =>
    obtain ⟨vals, rfl⟩ := printStrLoop_op run
    exact prints_setIo (printed.op (.str vals))

theorem execBuiltinReadChar_prints : Prints first (execBuiltinReadChar cfg) := by
  refine .get_bind fun m printed => ?_
  simp only
  split
  · exact prints_execSpush cfg _
  · next c stdin _ => exact .bind (prints_setIo (printed.stdin stdin)) fun _ => prints_execSpush cfg _

theorem execBuiltinReadNum_prints : Prints first (execBuiltinReadNum cfg pos) := by
  refine .get_bind fun m printed => ?_
  have sets (stdin : List Byte) : Prints first (setIo { m.io with stdin := stdin }) :=
    prints_setIo (printed.stdin stdin)
  refine .bind (sets _) fun _ => ?_
  split
  · exact prints_execErr _ _
  · exact .bind (prints_liftFault _) fun stdin => .bind (sets stdin) fun _ => prints_execErr _ _
  · exact prints_ite (prints_execErr _ _) (prints_execSpush cfg _)

theorem execBuiltinReadStr_prints : Prints first (execBuiltinReadStr cfg pos) := by
  refine .bind (prints_execSpop cfg pos) fun heapAddr => .get_bind fun m printed => ?_
  simp only
  split
  · exact prints_execErr _ _
  · next buf stdin _ =>
    refine .bind (prints_setIo (printed.stdin stdin)) fun _ => ?_
    refine prints_ite (.bind prints_activeInst fun inst => prints_execErr _ _) ?_
    exact .bind prints_getHeap fun heap => .bind (prints_setHeap _) fun _ => prints_execSpush cfg _

end instructions

theorem execInst_prints (cfg : Config) (first : Io) : Prints first (execInst cfg) := by
  refine .bind prints_activeInst fun inst => ?_
  cases inst.code with
  | none => exact prints_execErr _ _
  | push => exact execPush_prints cfg inst
  | pop => exact execPop_prints cfg inst
  | add => exact execAdd_prints cfg inst.pos
  | sub => exact execSub_prints cfg inst.pos
  | neg => exact execUnary_prints cfg inst.pos _
  | and => exact execBinary_prints cfg inst.pos _
  | or => exact execBinary_prints cfg inst.pos _
  | not => exact execUnary_prints cfg inst.pos _
  | eq => exact execBinary_prints cfg inst.pos _
  | gt => exact execBinary_prints cfg inst.pos _
  | lt => exact execBinary_prints cfg inst.pos _
  | goto => exact execGoto_prints inst.pos
  | ifGoto => exact execIfGoto_prints cfg inst.pos
  | call => exact execCall_prints cfg inst.pos
  | ret => exact execRet_prints cfg inst.pos
  | builtinPrintChar => exact execBuiltinPrintChar_prints cfg inst.pos
  | builtinPrintNum => exact execBuiltinPrintNum_prints cfg inst.pos
  | builtinPrintStr => exact execBuiltinPrintStr_prints cfg inst.pos
  | builtinReadChar => exact execBuiltinReadChar_prints cfg
  | builtinReadNum => exact execBuiltinReadNum_prints cfg inst.pos
  | builtinReadStr => exact execBuiltinReadStr_prints cfg inst.pos

theorem execRound_prints (cfg : Config) (first : Io) : Prints first (execRound cfg) := by
  refine .bind prints_activeFile fun file => ?_
  refine prints_ite (.bind (execInst_prints cfg first) fun _ => .bind ?_ fun _ => prints_pure _) (prints_pure _)
  exact .bind prints_activeFile fun file => prints_setEi _

theorem Reaches.printed {cfg : Config} {first : Io} {m m' : Machine} (reaches : Reaches cfg m m')
    (printed : Printed first m.io) : Printed first m'.io := by
  induction reaches with
  | refl => exact printed
  | tail _ steps ih => exact (execRound_prints cfg first _ ih).returns steps

inductive Finishes (cfg : Config) (m : Machine) : Io → Prop
  | done {m' : Machine} (round : execRound cfg m = .ok false m') : Finishes cfg m (cleanStdout m'.io)
  | failed {m' : Machine} {diag : Diag} (round : execRound cfg m = .error (.err diag) m') :
      Finishes cfg m m'.io

/-- The output of a whole run is that of some prints and `clean_stdout`. -/
theorem run_output {cfg : Config} {prog : Program} {stdin : List Byte} {m : Machine} {io : Io}
    (reaches : Reaches cfg (Machine.start prog stdin) m) (finishes : Finishes cfg m io) :
    ∃ ops, io.stdout = (cleanStdout (PrintOp.printAll ops (Io.init stdin))).stdout ∧
      (NoZeroLast (ops.flatMap PrintOp.given) → Ended io.stdout) := by
  have printed : Printed (Io.init stdin) m.io := reaches.printed ⟨[], rfl, rfl⟩
  have round := execRound_prints cfg (Io.init stdin) m printed
  have cleaned : Cleaned (Io.init stdin) io := by
    cases finishes with
    | done last => exact (round.returns last).clean
    | failed last => exact round.stops last _ rfl
  obtain ⟨ops, same⟩ := cleaned
  refine ⟨ops, same.stdout, fun shown => ?_⟩
  rw [same.stdout]
  exact ((PrintOp.printAll_prints ops (Io.init stdin)).endsClean_iff.mpr shown).ended

end Hvme
