import Hvme.Lib.Outcome
import Hvme.Machine.Stack

set_option autoImplicit false

namespace Hvme

open Outcome

def Machine.withStack (m : Machine) (stack : Stack) : Machine :=
  { m with prog := { m.prog with stack := stack } }

def Machine.withHeap (m : Machine) (heap : Heap) : Machine :=
  { m with prog := { m.prog with heap := heap } }

def Machine.withIo (m : Machine) (io : Io) : Machine := { m with io := io }

def Machine.withFi (m : Machine) (fi : Nat) : Machine := { m with prog := { m.prog with fi := fi } }

def Machine.onFile (m : Machine) (f : File → File) : Machine :=
  { m with prog := m.prog.modifyFile m.prog.fi f }

def Machine.file (m : Machine) : Option File := m.prog.files[m.prog.fi]?

def Machine.inst (m : Machine) : Option Inst := m.file.bind fun file => file.insts.cell[file.ei.toNat]?

section projections

variable (m : Machine) (stack : Stack) (heap : Heap) (io : Io) (fi : Nat) (f : File → File)

@[simp] theorem Machine.withStack_stack : (m.withStack stack).prog.stack = stack := rfl
@[simp] theorem Machine.withStack_heap : (m.withStack stack).prog.heap = m.prog.heap := rfl
@[simp] theorem Machine.withStack_files : (m.withStack stack).prog.files = m.prog.files := rfl
@[simp] theorem Machine.withStack_fi : (m.withStack stack).prog.fi = m.prog.fi := rfl
@[simp] theorem Machine.withStack_io : (m.withStack stack).io = m.io := rfl
@[simp] theorem Machine.withStack_file : (m.withStack stack).file = m.file := rfl
@[simp] theorem Machine.withStack_inst : (m.withStack stack).inst = m.inst := rfl
@[simp] theorem Machine.withStack_withStack (other : Stack) :
    (m.withStack other).withStack stack = m.withStack stack := rfl
@[simp] theorem Machine.withHeap_stack : (m.withHeap heap).prog.stack = m.prog.stack := rfl
@[simp] theorem Machine.withHeap_heap : (m.withHeap heap).prog.heap = heap := rfl
@[simp] theorem Machine.withHeap_files : (m.withHeap heap).prog.files = m.prog.files := rfl
@[simp] theorem Machine.withHeap_fi : (m.withHeap heap).prog.fi = m.prog.fi := rfl
@[simp] theorem Machine.withIo_prog : (m.withIo io).prog = m.prog := rfl
@[simp] theorem Machine.withIo_io : (m.withIo io).io = io := rfl
@[simp] theorem Machine.withIo_file : (m.withIo io).file = m.file := rfl
@[simp] theorem Machine.withIo_inst : (m.withIo io).inst = m.inst := rfl
@[simp] theorem Machine.withFi_stack : (m.withFi fi).prog.stack = m.prog.stack := rfl
@[simp] theorem Machine.withFi_heap : (m.withFi fi).prog.heap = m.prog.heap := rfl
@[simp] theorem Machine.withFi_files : (m.withFi fi).prog.files = m.prog.files := rfl
@[simp] theorem Machine.withFi_fi : (m.withFi fi).prog.fi = fi := rfl
@[simp] theorem Machine.onFile_stack : (m.onFile f).prog.stack = m.prog.stack := rfl
@[simp] theorem Machine.onFile_heap : (m.onFile f).prog.heap = m.prog.heap := rfl
@[simp] theorem Machine.onFile_fi : (m.onFile f).prog.fi = m.prog.fi := rfl
@[simp] theorem Machine.onFile_files : (m.onFile f).prog.files = m.prog.files.modify m.prog.fi f := rfl
@[simp] theorem Machine.onFile_file : (m.onFile f).file = m.file.map f := by
  simp [Machine.file]

end projections

section primitives

variable {m : Machine} {stop : Stop → Machine → Prop}

@[simp] theorem wp_liftFault {α : Type} {post : α → Machine → Prop} (x : Except Fault α) :
    wp (liftFault x) post stop m ↔
      (∀ fault, x = .error fault → stop (.fault fault) m) ∧ ∀ a, x = .ok a → post a m := by
  cases x <;> simp [liftFault]

@[simp] theorem wp_execErr {α : Type} {post : α → Machine → Prop} (pos : Pos) (text : String) :
    wp (execErr pos text) post stop m ↔
      stop (.err { pos := pos, text := text }) (m.withIo (cleanStdout m.io)) := Iff.rfl

@[simp] theorem wp_assert {post : Unit → Machine → Prop} (cond : Bool) :
    wp (assert_ cond) post stop m ↔
      (cond = false → stop (.fault .assertion) m) ∧ (cond = true → post () m) := by
  cases cond <;> simp [assert_]

@[simp] theorem wp_getStack {post : Stack → Machine → Prop} :
    wp getStack post stop m ↔ post m.prog.stack m := Iff.rfl

@[simp] theorem wp_setStack {post : Unit → Machine → Prop} (stack : Stack) :
    wp (setStack stack) post stop m ↔ post () (m.withStack stack) := Iff.rfl

@[simp] theorem wp_getHeap {post : Heap → Machine → Prop} :
    wp getHeap post stop m ↔ post m.prog.heap m := Iff.rfl

@[simp] theorem wp_setHeap {post : Unit → Machine → Prop} (heap : Heap) :
    wp (setHeap heap) post stop m ↔ post () (m.withHeap heap) := Iff.rfl

@[simp] theorem wp_setIo {post : Unit → Machine → Prop} (io : Io) :
    wp (setIo io) post stop m ↔ post () (m.withIo io) := Iff.rfl

@[simp] theorem wp_setEi {post : Unit → Machine → Prop} (ei : UInt32) :
    wp (setEi ei) post stop m ↔ post () (m.onFile fun file => { file with ei := ei }) := Iff.rfl

@[simp] theorem wp_setMem {post : Unit → Machine → Prop} (mem : Memory) :
    wp (setMem mem) post stop m ↔ post () (m.onFile fun file => { file with mem := mem }) := Iff.rfl

@[simp] theorem wp_bumpSp {post : Unit → Machine → Prop} (count : Nat) :
    wp (bumpSp count) post stop m ↔
      post () (m.withStack { m.prog.stack with sp := m.prog.stack.sp + count }) := Iff.rfl

@[simp] theorem wp_activeFile {post : File → Machine → Prop} :
    wp activeFile post stop m ↔
      (m.file = none → stop (.fault .outOfBounds) m) ∧ ∀ file, m.file = some file → post file m := by
  unfold activeFile Machine.file
  rw [wp_bind, wp_get]
  cases m.prog.files[m.prog.fi]? <;> simp

@[simp] theorem wp_activeInst {post : Inst → Machine → Prop} :
    wp activeInst post stop m ↔
      (m.inst = none → stop (.fault .outOfBounds) m) ∧ ∀ inst, m.inst = some inst → post inst m := by
  unfold activeInst Machine.inst
  rw [wp_bind, wp_activeFile]
  cases m.file with
  | none => simp
  | some file => cases found : file.insts.cell[file.ei.toNat]? <;> simp [found]

@[simp] theorem wp_getCell {post : Word → Machine → Prop} (idx : Nat) :
    wp (getCell idx) post stop m ↔
      (m.prog.stack.ops[idx]? = none → stop (.fault .outOfBounds) m) ∧
        ∀ val, m.prog.stack.ops[idx]? = some val → post val m := by
  unfold getCell
  rw [wp_bind, wp_getStack]
  cases m.prog.stack.ops[idx]? <;> simp

@[simp] theorem wp_setCell {post : Unit → Machine → Prop} (idx : Nat) (val : Word) :
    wp (setCell idx val) post stop m ↔
      (m.prog.stack.ops.length ≤ idx → stop (.fault .outOfBounds) m) ∧
        (idx < m.prog.stack.ops.length →
          post () (m.withStack { m.prog.stack with ops := m.prog.stack.ops.set idx val })) := by
  unfold setCell
  rw [wp_bind, wp_getStack, wp_ite, wp_setStack, wp_throw, Nat.not_lt]
  exact And.comm

@[simp] theorem wp_frameCell {post : Word → Machine → Prop} (frame : Addr) (back : Nat) :
    wp (frameCell frame back) post stop m ↔
      (frame.toNat < back ∨ m.prog.stack.ops[frame.toNat - back]? = none →
        stop (.fault .outOfBounds) m) ∧
      ∀ val, back ≤ frame.toNat → m.prog.stack.ops[frame.toNat - back]? = some val → post val m := by
  unfold frameCell
  rw [wp_ite, wp_getCell, wp_throw]
  by_cases inside : back ≤ frame.toNat
  · simp [inside, Nat.not_lt.mpr inside]
  · simp [inside, Nat.lt_of_not_le inside]

variable {cfg : Config}

theorem wp_execSpush {post : Unit → Machine → Prop} (valid : m.prog.stack.Valid cfg) (val : Word)
    (rest : ∀ after, Pushed cfg m.prog.stack val after → post () (m.withStack after)) :
    wp (execSpush cfg val) post stop m := by
  obtain ⟨after, run, pushed⟩ := spush_valid valid val
  unfold execSpush
  simp only [wp_bind, wp_getStack, wp_liftFault, wp_setStack, run, reduceCtorEq, false_implies, implies_true,
    true_and, Except.ok.injEq, forall_eq']
  exact rest after pushed

theorem wp_execSpop {post : Word → Machine → Prop} (valid : m.prog.stack.Valid cfg) (pos : Pos)
    (empty : m.prog.stack.sp ≤ m.prog.stack.base →
      stop (.err { pos := pos, text := "stack underflow" }) (m.withIo (cleanStdout m.io)))
    (word : ∀ val after, m.prog.stack.base < m.prog.stack.sp → Popped cfg m.prog.stack val after →
      post val (m.withStack after)) :
    wp (execSpop cfg pos) post stop m := by
  unfold execSpop
  simp only [wp_bind, wp_getStack, wp_liftFault]
  rcases Nat.lt_or_ge m.prog.stack.base m.prog.stack.sp with some_ | none_
  · obtain ⟨val, after, run, popped⟩ := spop_valid valid some_
    simp only [run, reduceCtorEq, false_implies, implies_true, true_and, Except.ok.injEq, forall_eq']
    exact word val after some_ popped
  · simp only [spop_empty cfg none_, reduceCtorEq, false_implies, implies_true, true_and, Except.ok.injEq,
      forall_eq']
    exact empty none_

theorem wp_twoPops {α : Type} {rest : Word → Word → ExecM α} {post : α → Machine → Prop}
    (valid : m.prog.stack.Valid cfg) (pos : Pos)
    (empty : m.prog.stack.sp ≤ m.prog.stack.base →
      stop (.err { pos := pos, text := "stack underflow" }) (m.withIo (cleanStdout m.io)))
    (one : ∀ y mid, m.prog.stack.base < m.prog.stack.sp → Popped cfg m.prog.stack y mid → mid.sp ≤ mid.base →
      stop (.err { pos := pos, text := "stack underflow" }) ((m.withStack mid).withIo (cleanStdout m.io)))
    (words : ∀ y x mid after, m.prog.stack.base < m.prog.stack.sp → Popped cfg m.prog.stack y mid →
      mid.base < mid.sp → Popped cfg mid x after → wp (rest y x) post stop (m.withStack after)) :
    wp (execSpop cfg pos >>= fun y => execSpop cfg pos >>= fun x => rest y x) post stop m := by
  simp only [wp_bind]
  apply wp_execSpop valid pos empty
  intro y mid word popped
  apply wp_execSpop popped.valid pos
  next => exact fun none_ => one y mid word popped none_
  next => exact fun x after word' popped' => words y x mid after word popped word' popped'

theorem wp_twoOperands {α : Type} {rest : Word → Word → ExecM α} {post : α → Machine → Prop}
    (valid : m.prog.stack.Valid cfg) (two : m.prog.stack.base + 2 ≤ m.prog.stack.sp) (pos : Pos)
    (both : ∀ y x mid after, m.prog.stack.base < m.prog.stack.sp → Popped cfg m.prog.stack y mid →
      mid.base < mid.sp → Popped cfg mid x after → wp (rest y x) post stop (m.withStack after)) :
    wp (execSpop cfg pos >>= fun y => execSpop cfg pos >>= fun x => rest y x) post stop m := by
  apply wp_twoPops valid pos
  next =>
    intro empty
    omega
  next =>
    intro y mid _ popped empty
    have sp := popped.sp
    have base : mid.base = m.prog.stack.base := congrArg Segments.base popped.segments
    omega
  next => exact both

end primitives

end Hvme
