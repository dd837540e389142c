import Hvme.Lib.Coupling
import Hvme.Machine.Rules
import Hvme.Model.Hvme

set_option autoImplicit false

namespace Hvme

open Coupling Execution

structure Inst.Twin (P : Pos → Pos → Prop) (inst other : Inst) : Prop where
  pos : P inst.pos other.pos
  same : other = { inst with pos := other.pos }

section members

variable {P : Pos → Pos → Prop} {inst other : Inst} (twin : inst.Twin P other)

include twin

theorem Inst.Twin.code : inst.code = other.code := by rw [twin.same]
theorem Inst.Twin.seg : inst.seg = other.seg := by rw [twin.same]
theorem Inst.Twin.offset : inst.offset = other.offset := by rw [twin.same]
theorem Inst.Twin.ident : inst.ident = other.ident := by rw [twin.same]
theorem Inst.Twin.nargs : inst.nargs = other.nargs := by rw [twin.same]
theorem Inst.Twin.text : instStr inst = instStr other := by
  rw [twin.same]
  rfl

end members

structure File.Twin (P : Pos → Pos → Prop) (file other : File) : Prop where
  filename : file.filename = other.filename
  named : file.insts.filename = other.insts.filename
  st : file.st = other.st
  insts : List.Forall₂ (Inst.Twin P) file.insts.cell other.insts.cell
  mem : file.mem = other.mem
  ei : file.ei = other.ei

structure Machine.Twin (P : Pos → Pos → Prop) (Q : Io → Io → Prop) (m other : Machine) : Prop where
  files : List.Forall₂ (File.Twin P) m.prog.files other.prog.files
  fi : m.prog.fi = other.prog.fi
  heap : m.prog.heap = other.prog.heap
  stack : m.prog.stack = other.prog.stack
  io : Q m.io other.io

section same

theorem Inst.Twin.refl (inst : Inst) : inst.Twin Eq inst := ⟨rfl, rfl⟩

theorem Inst.Twin.eq {inst other : Inst} (twin : inst.Twin Eq other) : inst = other := by
  rw [twin.same, ← twin.pos]

theorem File.Twin.refl (file : File) : File.Twin Eq file file :=
  ⟨rfl, rfl, rfl, List.forall₂_same.mpr fun inst _ => Inst.Twin.refl inst, rfl, rfl⟩

theorem File.Twin.eq {file other : File} (twin : File.Twin Eq file other) : file = other := by
  obtain ⟨filename, named, st, insts, mem, ei⟩ := twin
  have cell : file.insts.cell = other.insts.cell := by
    rw [← List.forall₂_eq_eq_eq]
    exact insts.imp fun _ _ => Inst.Twin.eq
  obtain ⟨_, _, ⟨_, _⟩, _, _⟩ := file
  obtain ⟨_, _, ⟨_, _⟩, _, _⟩ := other
  simp_all only

theorem Machine.Twin.refl {Q : Io → Io → Prop} {m : Machine} {io : Io} (alike : Q m.io io) :
    m.Twin Eq Q { m with io := io } :=
  ⟨List.forall₂_same.mpr fun file _ => File.Twin.refl file, rfl, rfl, rfl, alike⟩

theorem Machine.Twin.prog {Q : Io → Io → Prop} {m other : Machine} (twin : m.Twin Eq Q other) : m.prog = other.prog := by
  have files : m.prog.files = other.prog.files := by
    rw [← List.forall₂_eq_eq_eq]
    exact twin.files.imp fun _ _ => File.Twin.eq
  obtain ⟨-, fi, heap, stack, -⟩ := twin
  obtain ⟨⟨_, _, _, _⟩, _⟩ := m
  obtain ⟨⟨_, _, _, _⟩, _⟩ := other
  simp_all only

end same

inductive Stop.Twin (P : Pos → Pos → Prop) : Stop → Stop → Prop
  | err {pos pos' : Pos} (text : String) (placed : P pos pos') :
    Stop.Twin P (.err { pos := pos, text := text }) (.err { pos := pos', text := text })
  | fault (fault : Fault) : Stop.Twin P (.fault fault) (.fault fault)

structure Steady (Q : Io → Io → Prop) : Prop where
  print : ∀ text io io', Q io io' → Q (hvmeFprintf text io) (hvmeFprintf text io')
  last : ∀ io io', Q io io' → io.lastStdout = io'.lastStdout

section steady

variable {Q : Io → Io → Prop} (steady : Steady Q)

include steady

theorem Steady.clean {io io' : Io} (alike : Q io io') : Q (cleanStdout io) (cleanStdout io') := by
  have last := steady.last io io' alike
  unfold cleanStdout
  rw [← last]
  split
  · exact steady.print _ _ _ alike
  · exact alike

end steady

abbrev Alongside {α β : Type} (P : Pos → Pos → Prop) (Q : Io → Io → Prop) (V : α → β → Prop) (x : ExecM α)
    (y : ExecM β) : Prop :=
  Coupled never V (Stop.Twin P) (Machine.Twin P Q) x y

section rules

variable {α β : Type} {P : Pos → Pos → Prop} {Q : Io → Io → Prop}

theorem Alongside.bind {α' β' : Type} {V : α → β → Prop} {W : α' → β' → Prop} {x : ExecM α} {y : ExecM β}
    {f : α → ExecM α'} {g : β → ExecM β'} (first : Alongside P Q V x y)
    (next : ∀ a b, V a b → Alongside P Q W (f a) (g b)) : Alongside P Q W (x >>= f) (y >>= g) :=
  coupled_bind first next fun a => keeps_never (f a)

theorem Alongside.then {α' β' : Type} {W : α' → β' → Prop} {x y : ExecM α} {f : α → ExecM α'} {g : α → ExecM β'}
    (first : Alongside P Q Eq x y) (next : ∀ a, Alongside P Q W (f a) (g a)) : Alongside P Q W (x >>= f) (y >>= g) := by
  refine first.bind ?_
  rintro a - rfl
  exact next a

theorem Alongside.get {f : Machine → α} (same : ∀ m other, m.Twin P Q other → f m = f other) :
    Alongside P Q Eq (get >>= fun m => pure (f m)) (get >>= fun m => pure (f m)) := by
  refine Alongside.bind coupled_get ?_
  intro m other twin
  exact coupled_pure (same m other twin)

theorem Alongside.modify {f g : Machine → Machine} (twins : ∀ m other, m.Twin P Q other → (f m).Twin P Q (g other)) :
    Alongside P Q Eq (modify f) (modify g) := coupled_modify twins

variable {V : α → β → Prop}

theorem alongside_fault (fault : Fault) : Alongside P Q V (throw (.fault fault)) (throw (.fault fault)) :=
  coupled_throw (.fault fault)

theorem alongside_lift (x : Except Fault α) : Alongside P Q Eq (liftFault x) (liftFault x) := by
  cases x with
  | error fault => exact alongside_fault fault
  | ok a => exact coupled_pure rfl

theorem alongside_assert (cond : Bool) : Alongside P Q Eq (assert_ cond) (assert_ cond) := by
  refine coupled_ite Iff.rfl (fun _ _ => ?_) fun _ _ => ?_
  · exact coupled_pure rfl
  · exact alongside_fault .assertion

theorem alongside_getStack : Alongside P Q Eq getStack getStack := Alongside.get fun _ _ twin => twin.stack

theorem alongside_getHeap : Alongside P Q Eq getHeap getHeap := Alongside.get fun _ _ twin => twin.heap

theorem alongside_setStack (stack : Stack) : Alongside P Q Eq (setStack stack) (setStack stack) :=
  Alongside.modify fun _ _ twin => { twin with stack := rfl }

theorem alongside_setHeap (heap : Heap) : Alongside P Q Eq (setHeap heap) (setHeap heap) :=
  Alongside.modify fun _ _ twin => { twin with heap := rfl }

theorem Machine.Twin.onFile {m other : Machine} (twin : m.Twin P Q other) {f g : File → File}
    (twins : ∀ file file', File.Twin P file file' → File.Twin P (f file) (g file')) :
    (m.onFile f).Twin P Q (other.onFile g) where
  files := by
    have length := twin.files.length_eq
    rw [Machine.onFile_files, Machine.onFile_files, ← twin.fi]
    refine List.forall₂_iff_get.mpr ⟨by simpa using length, fun i inside inside' => ?_⟩
    have below : i < m.prog.files.length := by simpa using inside
    have here := twin.files.get below (length ▸ below)
    simp only [List.get_eq_getElem] at here
    simp only [List.get_eq_getElem, List.getElem_modify]
    split
    · exact twins _ _ here
    · exact here
  fi := twin.fi
  heap := twin.heap
  stack := twin.stack
  io := twin.io

theorem alongside_setEi (ei : UInt32) : Alongside P Q Eq (setEi ei) (setEi ei) :=
  Alongside.modify fun _ _ twin => twin.onFile fun _ _ file => { file with ei := rfl }

theorem alongside_setMem (mem : Memory) : Alongside P Q Eq (setMem mem) (setMem mem) :=
  Alongside.modify fun _ _ twin => twin.onFile fun _ _ file => { file with mem := rfl }

theorem alongside_setFi (fi : Nat) :
    Alongside P Q Eq (modify fun m => { m with prog := { m.prog with fi := fi } })
      (modify fun m => { m with prog := { m.prog with fi := fi } }) :=
  Alongside.modify fun _ _ twin => { twin with fi := rfl }

theorem alongside_activeFile : Alongside P Q (File.Twin P) activeFile activeFile := by
  unfold activeFile
  refine Alongside.bind coupled_get ?_
  intro m other twin
  have length := twin.files.length_eq
  rw [← twin.fi]
  by_cases inside : m.prog.fi < m.prog.files.length
  · have here := twin.files.get inside (length ▸ inside)
    simp only [List.get_eq_getElem] at here
    rw [List.getElem?_eq_getElem inside, List.getElem?_eq_getElem (length ▸ inside)]
    exact coupled_pure here
  · rw [List.getElem?_eq_none (Nat.le_of_not_lt inside), List.getElem?_eq_none (length ▸ Nat.le_of_not_lt inside)]
    exact alongside_fault .outOfBounds

theorem alongside_activeInst : Alongside P Q (Inst.Twin P) activeInst activeInst := by
  unfold activeInst
  refine Alongside.bind alongside_activeFile ?_
  intro file other twin
  have length := twin.insts.length_eq
  rw [← twin.ei]
  by_cases inside : file.ei.toNat < file.insts.cell.length
  · have here := twin.insts.get inside (length ▸ inside)
    simp only [List.get_eq_getElem] at here
    rw [List.getElem?_eq_getElem inside, List.getElem?_eq_getElem (length ▸ inside)]
    exact coupled_pure here
  · rw [List.getElem?_eq_none (Nat.le_of_not_lt inside), List.getElem?_eq_none (length ▸ Nat.le_of_not_lt inside)]
    exact alongside_fault .outOfBounds

end rules

section words

variable {P : Pos → Pos → Prop} {Q : Io → Io → Prop}

theorem alongside_getCell (idx : Nat) : Alongside P Q Eq (getCell idx) (getCell idx) := by
  refine alongside_getStack.then fun stack => ?_
  cases stack.ops[idx]? with
  | none => exact alongside_fault .outOfBounds
  | some val => exact coupled_pure rfl

theorem alongside_setCell (idx : Nat) (val : Word) : Alongside P Q Eq (setCell idx val) (setCell idx val) := by
  refine alongside_getStack.then fun stack => coupled_ite Iff.rfl (fun _ _ => ?_) fun _ _ => ?_
  · exact alongside_setStack _
  · exact alongside_fault .outOfBounds

theorem alongside_frameCell (frame : Addr) (back : Nat) :
    Alongside P Q Eq (frameCell frame back) (frameCell frame back) :=
  coupled_ite Iff.rfl (fun _ _ => alongside_getCell _) fun _ _ => alongside_fault .outOfBounds

theorem alongside_bumpSp (count : Nat) : Alongside P Q Eq (bumpSp count) (bumpSp count) :=
  alongside_getStack.then fun _ => alongside_setStack _

theorem alongside_execSpush (cfg : Config) (val : Word) : Alongside P Q Eq (execSpush cfg val) (execSpush cfg val) :=
  alongside_getStack.then fun _ => (alongside_lift _).then fun _ => alongside_setStack _

theorem jumpSearch_twins (key : SymKey) (prevFi : Nat) {files others : List File}
    (twins : List.Forall₂ (File.Twin P) files others) (nextFi : Nat) (buf : JumpBuf) :
    jumpSearch key prevFi files nextFi buf = jumpSearch key prevFi others nextFi buf := by
  induction twins generalizing nextFi buf with
  | nil => rfl
  | cons twin _ ih => simp only [jumpSearch, twin.st, ih]

theorem alongside_jumpTo (key : SymKey) (val : SymVal) : Alongside P Q Eq (jumpTo key val) (jumpTo key val) := by
  unfold jumpTo
  refine Alongside.bind alongside_activeFile fun file other twin => ?_
  rw [← twin.st]
  refine (alongside_lift _).then ?_
  rintro ⟨_ | _, val⟩
  · refine Alongside.bind coupled_get fun m other twin => ?_
    simp only [← twin.fi, ← jumpSearch_twins key m.prog.fi twin.files]
    refine (alongside_lift _).then fun buf => ?_
    split
    · exact coupled_pure rfl
    · exact (alongside_setFi _).then fun _ => (alongside_setEi _).then fun _ => coupled_pure rfl
    · exact coupled_pure rfl
  · exact (alongside_setEi _).then fun _ => coupled_pure rfl

theorem alongside_incEi : Alongside P Q Eq incEi incEi := by
  refine Alongside.bind alongside_activeFile fun file other twin => ?_
  rw [twin.ei]
  exact alongside_setEi _

end words

section errors

variable {P : Pos → Pos → Prop} {Q : Io → Io → Prop} (steady : Steady Q)

include steady

theorem alongside_execErr {α β : Type} {V : α → β → Prop} {pos pos' : Pos} (placed : P pos pos') (text : String) :
    Alongside P Q V (execErr pos text) (execErr pos' text) := by
  refine (Alongside.modify fun _ _ twin => ?_).then fun _ => coupled_throw (.err text placed)
  exact { twin with io := steady.clean twin.io }

theorem alongside_execSpop (cfg : Config) {pos pos' : Pos} (placed : P pos pos') :
    Alongside P Q Eq (execSpop cfg pos) (execSpop cfg pos') := by
  refine alongside_getStack.then fun stack => (alongside_lift _).then fun popped => ?_
  cases popped with
  | none => exact alongside_execErr steady placed _
  | some popped => exact (alongside_setStack _).then fun _ => coupled_pure rfl

theorem alongside_ctrlFlowError {α β : Type} {V : α → β → Prop} (ident : Ident) {pos pos' : Pos} (placed : P pos pos') :
    Alongside P Q V (ctrlFlowError ident pos) (ctrlFlowError ident pos') :=
  coupled_ite Iff.rfl (fun _ _ => alongside_execErr steady placed _) fun _ _ => alongside_execErr steady placed _

variable {inst other : Inst} (twin : inst.Twin P other)

include twin

theorem alongside_segOverflowError (entries : Nat) :
    Alongside P Q (@Eq Unit) (segOverflowError inst entries) (segOverflowError other entries) := by
  unfold segOverflowError
  -- Messages show the instruction, which is spelled the same.
  rw [twin.text]
  exact alongside_execErr steady twin.pos _

theorem alongside_stackAddrOverflowError (addr maxAddr : Nat) :
    Alongside P Q (@Eq Unit) (stackAddrOverflowError inst addr maxAddr) (stackAddrOverflowError other addr maxAddr) := by
  unfold stackAddrOverflowError
  rw [twin.text]
  exact alongside_execErr steady twin.pos _

theorem alongside_heapAddrOverflowError (addr : Nat) :
    Alongside P Q (@Eq Unit) (heapAddrOverflowError inst addr) (heapAddrOverflowError other addr) := by
  unfold heapAddrOverflowError
  rw [twin.text]
  exact alongside_execErr steady twin.pos _

end errors

section instructions

variable {P : Pos → Pos → Prop} {Q : Io → Io → Prop} (steady : Steady Q) (cfg : Config)

include steady

theorem alongside_execPush {inst other : Inst} (twin : inst.Twin P other) :
    Alongside P Q Eq (execPush cfg inst) (execPush cfg other) := by
  unfold execPush
  rw [twin.offset, twin.seg]
  refine alongside_getStack.then fun stack => alongside_getHeap.then fun heap => ?_
  have segment := alongside_segOverflowError steady twin
  have address := alongside_heapAddrOverflowError steady twin
  -- The twins agree on the segment, and then on every check.
  cases other.seg with
  | arg | loc =>
    refine coupled_ite Iff.rfl (fun _ _ => ?_) fun _ _ => coupled_ite Iff.rfl (fun _ _ => segment _) fun _ _ => ?_
    · exact (alongside_getCell _).then fun _ => alongside_execSpush cfg _
    · exact alongside_stackAddrOverflowError steady twin _ _
  | stat | tmp =>
    refine coupled_ite Iff.rfl (fun _ _ => ?_) fun _ _ => segment _
    refine Alongside.bind alongside_activeFile fun file other twin => ?_
    rw [twin.mem]
    exact alongside_execSpush cfg _
  | const => exact alongside_execSpush cfg _
  | this | that =>
    refine coupled_ite Iff.rfl (fun _ _ => ?_) fun _ _ => address _
    exact (alongside_lift _).then fun _ => alongside_execSpush cfg _
  | ptr =>
    refine coupled_ite Iff.rfl (fun _ _ => ?_) fun _ _ => coupled_ite Iff.rfl (fun _ _ => ?_) fun _ _ => ?_
    · exact (alongside_assert _).then fun _ => alongside_execSpush cfg _
    · exact (alongside_assert _).then fun _ => alongside_execSpush cfg _
    · exact alongside_execErr steady twin.pos _

theorem alongside_execPop {inst other : Inst} (twin : inst.Twin P other) :
    Alongside P Q Eq (execPop cfg inst) (execPop cfg other) := by
  unfold execPop
  rw [twin.offset, twin.seg]
  refine alongside_getStack.then fun stack => alongside_getHeap.then fun heap => ?_
  have popped := alongside_execSpop steady cfg twin.pos
  have segment := alongside_segOverflowError steady twin
  have address := alongside_heapAddrOverflowError steady twin
  cases other.seg with
  | arg | loc =>
    refine coupled_ite Iff.rfl (fun _ _ => ?_) fun _ _ => coupled_ite Iff.rfl (fun _ _ => segment _) fun _ _ => ?_
    · exact popped.then fun _ => alongside_setCell _ _
    · exact alongside_stackAddrOverflowError steady twin _ _
  | stat | tmp =>
    refine coupled_ite Iff.rfl (fun _ _ => ?_) fun _ _ => segment _
    refine popped.then fun val => Alongside.bind alongside_activeFile fun file other twin => ?_
    rw [twin.mem]
    exact alongside_setMem _
  | const => exact popped.then fun _ => coupled_pure rfl
  | this | that =>
    refine coupled_ite Iff.rfl (fun _ _ => ?_) fun _ _ => address _
    exact popped.then fun _ => (alongside_lift _).then fun _ => alongside_setHeap _
  | ptr =>
    refine coupled_ite Iff.rfl (fun _ _ => ?_) fun _ _ => coupled_ite Iff.rfl (fun _ _ => ?_) fun _ _ => ?_
    · exact popped.then fun _ => alongside_setHeap _
    · exact popped.then fun _ => alongside_setHeap _
    · exact alongside_execErr steady twin.pos _

variable {pos pos' : Pos} (placed : P pos pos')

include placed

theorem alongside_execAdd : Alongside P Q Eq (execAdd cfg pos) (execAdd cfg pos') := by
  have popped := alongside_execSpop steady cfg placed
  refine popped.then fun y => popped.then fun x => coupled_ite Iff.rfl (fun _ _ => ?_) fun _ _ => ?_
  · exact alongside_execSpush cfg _
  · exact (alongside_bumpSp 2).then fun _ => alongside_execErr steady placed _

theorem alongside_execSub : Alongside P Q Eq (execSub cfg pos) (execSub cfg pos') := by
  have popped := alongside_execSpop steady cfg placed
  refine popped.then fun y => popped.then fun x => coupled_ite Iff.rfl (fun _ _ => ?_) fun _ _ => ?_
  · exact alongside_execSpush cfg _
  · exact (alongside_bumpSp 2).then fun _ => alongside_execErr steady placed _

theorem alongside_execUnary (f : Word → Word) : Alongside P Q Eq (execUnary f cfg pos) (execUnary f cfg pos') :=
  (alongside_execSpop steady cfg placed).then fun _ => alongside_execSpush cfg _

theorem alongside_execBinary (f : Word → Word → Word) :
    Alongside P Q Eq (execBinary f cfg pos) (execBinary f cfg pos') := by
  have popped := alongside_execSpop steady cfg placed
  exact popped.then fun _ => popped.then fun _ => alongside_execSpush cfg _

theorem alongside_execGoto : Alongside P Q Eq (execGoto pos) (execGoto pos') := by
  refine Alongside.bind alongside_activeInst fun inst other twin => ?_
  rw [twin.ident]
  refine (alongside_jumpTo _ _).then fun target => ?_
  cases target.1 with
  | ok => exact coupled_pure rfl
  | err => exact alongside_ctrlFlowError steady _ placed
  | multDef => exact alongside_execErr steady placed _

theorem alongside_execIfGoto : Alongside P Q Eq (execIfGoto cfg pos) (execIfGoto cfg pos') := by
  refine (alongside_execSpop steady cfg placed).then fun val => coupled_ite Iff.rfl (fun _ _ => ?_) fun _ _ => ?_
  · refine Alongside.bind alongside_activeInst fun inst other twin => ?_
    rw [twin.ident]
    refine (alongside_jumpTo _ _).then fun target => ?_
    cases target.1 with
    | ok => exact coupled_pure rfl
    | err => exact (alongside_bumpSp 1).then fun _ => alongside_ctrlFlowError steady _ placed
    | multDef => exact (alongside_bumpSp 1).then fun _ => alongside_execErr steady placed _
  · exact coupled_pure rfl

theorem alongside_execCall : Alongside P Q Eq (execCall cfg pos) (execCall cfg pos') := by
  unfold execCall
  refine Alongside.bind alongside_activeInst fun inst other twin => ?_
  rw [twin.nargs, twin.ident]
  refine alongside_getStack.then fun stack => alongside_getHeap.then fun heap => ?_
  refine Alongside.bind alongside_activeFile fun file file' twin => ?_
  rw [twin.ei]
  refine Alongside.bind coupled_get fun m m' twin => ?_
  rw [twin.fi]
  refine coupled_ite Iff.rfl (fun _ _ => alongside_execErr steady placed _) fun _ _ => ?_
  refine (alongside_jumpTo _ _).then ?_
  rintro ⟨res, val⟩
  cases res with
  | err => exact alongside_ctrlFlowError steady _ placed
  | multDef => exact alongside_execErr steady placed _
  | ok =>
    iterate 8 refine (alongside_execSpush cfg _).then fun _ => ?_
    refine alongside_getStack.then fun stack => (alongside_lift _).then fun stack => ?_
    exact (alongside_setStack _).then fun _ => alongside_setEi _

theorem alongside_execRet : Alongside P Q Eq (execRet cfg pos) (execRet cfg pos') := by
  unfold execRet
  refine alongside_getStack.then fun stack => ?_
  refine (alongside_frameCell _ _).then fun retEi => (alongside_frameCell _ _).then fun retFi => ?_
  refine (alongside_execSpop steady cfg placed).then fun retVal => alongside_getStack.then fun stack => ?_
  refine (alongside_setCell _ _).then fun _ => alongside_getStack.then fun stack => ?_
  refine (alongside_setStack _).then fun _ => alongside_getHeap.then fun heap => ?_
  refine (alongside_frameCell _ _).then fun that => (alongside_frameCell _ _).then fun this => ?_
  refine (alongside_setHeap _).then fun _ => ?_
  refine (alongside_frameCell _ _).then fun argLen => (alongside_frameCell _ _).then fun arg => ?_
  refine (alongside_frameCell _ _).then fun lclLen => (alongside_frameCell _ _).then fun lcl => ?_
  refine alongside_getStack.then fun stack => (alongside_setStack _).then fun _ => ?_
  refine Alongside.bind coupled_get fun m m' twin => ?_
  have length := twin.files.length_eq
  refine coupled_ite (by rw [length]) (fun _ _ => ?_) fun _ _ => alongside_fault .outOfBounds
  exact (alongside_setFi _).then fun _ => alongside_setEi _

omit placed in
theorem alongside_print (text : List Byte) :
    Alongside P Q Eq (get >>= fun m => setIo (hvmeFprintf text m.io)) (get >>= fun m => setIo (hvmeFprintf text m.io)) := by
  refine Alongside.bind coupled_get fun m other twin => Alongside.modify fun _ _ twin' => ?_
  exact { twin' with io := steady.print text _ _ twin.io }

theorem alongside_execBuiltinPrintChar :
    Alongside P Q Eq (execBuiltinPrintChar cfg pos) (execBuiltinPrintChar cfg pos') :=
  (alongside_execSpop steady cfg placed).then fun _ => alongside_print steady _

theorem alongside_execBuiltinPrintNum :
    Alongside P Q Eq (execBuiltinPrintNum cfg pos) (execBuiltinPrintNum cfg pos') :=
  (alongside_execSpop steady cfg placed).then fun _ => alongside_print steady _

omit placed in
theorem alongside_printStrLoop (heap : Heap) (strStart : Addr) (count : Nat) (i : Addr) {io io' : Io} (alike : Q io io') :
    Alongside P Q Q (liftFault (printStrLoop heap strStart count i io)) (liftFault (printStrLoop heap strStart count i io')) := by
  induction count generalizing i io io' with
  | zero => exact coupled_pure alike
  | succ count ih =>
    rw [printStrLoop, printStrLoop]
    cases heapGet heap (strStart + i) with
    | error fault => exact alongside_fault fault
    | ok val => exact ih (i + 1) (steady.print _ _ _ alike)

theorem alongside_execBuiltinPrintStr :
    Alongside P Q Eq (execBuiltinPrintStr cfg pos) (execBuiltinPrintStr cfg pos') := by
  have popped := alongside_execSpop steady cfg placed
  refine popped.then fun strStart => popped.then fun nchars => alongside_getHeap.then fun heap => ?_
  refine Alongside.bind coupled_get fun m other twin => ?_
  refine Alongside.bind (alongside_printStrLoop steady heap strStart nchars.toNat 0 twin.io) fun io io' alike => ?_
  exact Alongside.modify fun _ _ twin => { twin with io := alike }

end instructions

structure ReadsAlike (cfg : Config) (P : Pos → Pos → Prop) (Q : Io → Io → Prop) (Past : Option Stop → Machine → Prop) : Prop where
  char : Coupled Past Eq (Stop.Twin P) (Machine.Twin P Q) (execBuiltinReadChar cfg)
    (execBuiltinReadChar cfg)
  num : ∀ pos pos', P pos pos' → Coupled Past Eq (Stop.Twin P) (Machine.Twin P Q)
    (execBuiltinReadNum cfg pos) (execBuiltinReadNum cfg pos')
  str : ∀ pos pos', P pos pos' → Coupled Past Eq (Stop.Twin P) (Machine.Twin P Q)
    (execBuiltinReadStr cfg pos) (execBuiltinReadStr cfg pos')

section rounds

variable {cfg : Config} {P : Pos → Pos → Prop} {Q : Io → Io → Prop} {Past : Option Stop → Machine → Prop} (steady : Steady Q)
  (reads : ReadsAlike cfg P Q Past)

include steady reads

theorem coupled_execInst : Coupled Past Eq (Stop.Twin P) (Machine.Twin P Q) (execInst cfg)
    (execInst cfg) := by
  refine coupled_bind_first alongside_activeInst fun inst other twin => ?_
  have placed := twin.pos
  rw [twin.code]
  cases other.code with
  | pop => exact (alongside_execPop steady cfg twin).of_never
  | push => exact (alongside_execPush steady cfg twin).of_never
  | add => exact (alongside_execAdd steady cfg placed).of_never
  | sub => exact (alongside_execSub steady cfg placed).of_never
  | neg | not => exact (alongside_execUnary steady cfg placed _).of_never
  | and | or | eq | lt | gt => exact (alongside_execBinary steady cfg placed _).of_never
  | goto => exact (alongside_execGoto steady placed).of_never
  | ifGoto => exact (alongside_execIfGoto steady cfg placed).of_never
  | call => exact (alongside_execCall steady cfg placed).of_never
  | ret => exact (alongside_execRet steady cfg placed).of_never
  | builtinPrintChar => exact (alongside_execBuiltinPrintChar steady cfg placed).of_never
  | builtinPrintNum => exact (alongside_execBuiltinPrintNum steady cfg placed).of_never
  | builtinPrintStr => exact (alongside_execBuiltinPrintStr steady cfg placed).of_never
  | builtinReadChar => exact reads.char
  | builtinReadNum => exact reads.num _ _ placed
  | builtinReadStr => exact reads.str _ _ placed
  | none =>
    rw [twin.text]
    exact (alongside_execErr steady placed _).of_never

theorem coupled_execRound (keeps : Keeps Past (incEi >>= fun _ => pure true)) : Coupled Past Eq (Stop.Twin P) (Machine.Twin P Q) (execRound cfg)
    (execRound cfg) := by
  refine coupled_bind_first alongside_activeFile fun file other twin => ?_
  refine coupled_ite (by rw [twin.ei, twin.insts.length_eq]) (fun _ _ => ?_) fun _ _ => coupled_pure rfl
  refine coupled_bind (coupled_execInst steady reads) ?_ ?_
  · rintro _ _ -
    exact (alongside_incEi.then fun _ => coupled_pure rfl).of_never
  · exact fun _ => keeps

def endingOf (m : Machine) : Option Stop → Ending
  | none => .halted m.io
  | some (.err diag) => .failed diag m.io
  | some (.fault fault) => .fault fault

inductive Ending.Twin (P : Pos → Pos → Prop) (Q : Io → Io → Prop) : Ending → Ending → Prop
  | halted {io io' : Io} (alike : Q io io') : Ending.Twin P Q (.halted io) (.halted io')
  | failed {pos pos' : Pos} {io io' : Io} (text : String) (placed : P pos pos') (alike : Q io io') :
    Ending.Twin P Q (.failed { pos := pos, text := text } io) (.failed { pos := pos', text := text } io')
  | fault (fault : Fault) : Ending.Twin P Q (.fault fault) (.fault fault)

variable (keeps : Keeps Past (incEi >>= fun _ => pure true)) {m other m' : Machine} (twin : m.Twin P Q other)

include keeps twin

theorem goes_coupled (goes : Goes (Machine.move cfg) m m') :
    Past none m' ∨ ∃ other', Goes (Machine.move cfg) other other' ∧ m'.Twin P Q other' := by
  have joint := coupled_execRound steady reads keeps m other twin
  unfold Goes Machine.move at goes ⊢
  generalize execRound cfg m = result at goes joint
  generalize execRound cfg other = result' at joint ⊢
  cases joint with
  | @ok more _ s t same twin =>
    cases same
    cases more with
    | false => cases goes
    | true =>
      cases goes
      exact .inr ⟨t, rfl, twin⟩
  | @error stop _ _ _ _ _ => cases stop <;> cases goes
  | @returnsPast more s _ past =>
    cases more with
    | false => cases goes
    | true =>
      cases goes
      exact .inl past
  | @stopsPast stop _ _ _ => cases stop <;> cases goes

theorem ends_coupled {ending : Ending} (ends : Machine.move cfg m = .ends ending) :
    (∃ stop m', ending = endingOf m' stop ∧ Past stop m') ∨
      ∃ ending', Machine.move cfg other = .ends ending' ∧ Ending.Twin P Q ending ending' := by
  have joint := coupled_execRound steady reads keeps m other twin
  unfold Machine.move at ends ⊢
  generalize execRound cfg m = result at ends joint
  generalize execRound cfg other = result' at joint ⊢
  cases joint with
  | @ok more _ s t same twin =>
    cases same
    cases more with
    | false =>
      cases ends
      exact .inr ⟨_, rfl, .halted twin.io⟩
    | true => cases ends
  | @error stop stop' s t stops twin =>
    cases stops with
    | err text placed =>
      cases ends
      exact .inr ⟨_, rfl, .failed text placed twin.io⟩
    | fault fault =>
      cases ends
      exact .inr ⟨_, rfl, .fault fault⟩
  | @returnsPast more s _ past =>
    cases more with
    | false =>
      cases ends
      exact .inl ⟨none, s, rfl, past⟩
    | true => cases ends
  | @stopsPast stop s _ past =>
    refine .inl ⟨some stop, s, ?_, past⟩
    cases stop <;> cases ends <;> rfl

end rounds

end Hvme
