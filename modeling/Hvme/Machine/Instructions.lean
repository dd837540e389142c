import Hvme.Machine.Quiet

set_option autoImplicit false

namespace Hvme

open Outcome

def Obeys (cfg : Config) (spoiled : Prop) (x : ExecM Unit) (m : Machine) : Prop :=
  wp x (fun _ m' => Quiet cfg m m') (Stops spoiled m) m

def Machine.OneWord (m : Machine) : Prop := m.prog.stack.sp = m.prog.stack.base + 1

/-- The topmost word is the first one of the last block of the stack, or of the last but one: two
pops give back the block that the word is in. -/
def Machine.Torn (cfg : Config) (m : Machine) : Prop :=
  m.prog.stack.base < m.prog.stack.sp ∧
    (m.prog.stack.sp + cfg.stackBlockSize = m.prog.stack.len + 1 ∨
      m.prog.stack.sp + 2 * cfg.stackBlockSize = m.prog.stack.len + 1)

section stops

variable {cfg : Config} {m : Machine} {more : Prop}

theorem stops_noWord (empty : m.prog.stack.sp ≤ m.prog.stack.base)
    (few : more → m.prog.stack.base < m.prog.stack.sp) (stop : Stop) (io : Io) :
    Stops (m.OneWord ∨ more) m stop (m.withIo io) := by
  refine stops_unchanged ?_ (Unchanged.withIo m io)
  rintro (one | some_)
  · rw [Machine.OneWord] at one
    omega
  · exact absurd (few some_) (Nat.not_lt.mpr empty)

theorem stops_oneWord {val : Word} {after : Stack} (popped : Popped cfg m.prog.stack val after)
    (word : m.prog.stack.base < m.prog.stack.sp) (empty : after.sp ≤ after.base) (stop : Stop) (io : Io) :
    Stops (m.OneWord ∨ more) m stop ((m.withStack after).withIo io) := by
  have sp := popped.sp
  rw [Stack.base, popped.segments] at empty
  have one : m.prog.stack.sp = m.prog.stack.base + 1 :=
    le_antisymm (by rw [← sp]; exact Nat.succ_le_succ empty) word
  refine stops_changed (.inl one) fun unchanged => ?_
  have same : after.sp = m.prog.stack.sp := unchanged.sp
  omega

theorem stops_restored {x y : Word} {after after' : Stack} (valid : m.prog.stack.Valid cfg)
    (popped : Popped cfg m.prog.stack y after) (word : m.prog.stack.base < m.prog.stack.sp)
    (popped' : Popped cfg after x after') (word' : after.base < after.sp) (stop : Stop) (io : Io) :
    Stops (m.OneWord ∨ m.Torn cfg) m stop
      ((m.withStack { after' with sp := after'.sp + 2 }).withIo io) := by
  have sp := popped.sp
  have sp' := popped'.sp
  have len := popped.len
  have len' := popped'.len
  have sp_le := valid.sp_le
  have positive := cfg.stack_pos
  have two : m.prog.stack.base + 2 ≤ m.prog.stack.sp := by
    rw [Stack.base, popped.segments] at word'
    change m.prog.stack.base < after.sp at word'
    omega
  have oneWord : ¬m.OneWord := by
    rw [Machine.OneWord]
    omega
  -- Two pops can shrink the stack below the first operand, which the restored `sp` then exposes.
  by_cases lost : after'.len < m.prog.stack.sp
  · have torn : m.Torn cfg := by
      refine ⟨word, ?_⟩
      split at len <;> split at len' <;> omega
    refine stops_changed (.inr torn) fun unchanged => ?_
    have last := unchanged.cells after.sp (by omega)
    simp only [Machine.withIo_prog, Machine.withStack_stack] at last
    rw [popped.top, List.getElem?_eq_none (by rw [popped'.valid.length_eq]; omega)] at last
    cases last
  · have whole : ¬m.Torn cfg := by
      rintro ⟨-, torn⟩
      split at len <;> split at len' <;> omega
    refine stops_unchanged (not_or.mpr ⟨oneWord, whole⟩) ⟨?_, ?_, ?_, rfl, rfl, rfl⟩
    · simp only [Machine.withIo_prog, Machine.withStack_stack]
      omega
    · intro i inside
      have within : i < after.len := by
        have := popped'.len
        split at this <;> omega
      exact (popped'.kept i (by omega)).trans (popped.kept i within)
    · exact popped'.segments.trans popped.segments

theorem stops_putBack {val : Word} {after : Stack} (popped : Popped cfg m.prog.stack val after) (stop : Stop)
    (io : Io) : Stops False m stop ((m.withStack { after with sp := after.sp + 1 }).withIo io) :=
  stops_unchanged not_false ⟨popped.sp, popped.below, popped.segments, rfl, rfl, rfl⟩

end stops

section instructions

variable {cfg : Config} {m : Machine} (valid : m.prog.stack.Valid cfg)

include valid

theorem execSpush_obeys (spoiled : Prop) (val : Word) : Obeys cfg spoiled (execSpush cfg val) m :=
  wp_execSpush valid val fun _ pushed => pushed.quiet

theorem execPush_obeys (inst : Inst) : Obeys cfg False (execPush cfg inst) m := by
  have push := execSpush_obeys valid False
  unfold Obeys at push ⊢
  unfold execPush
  cases inst.seg <;>
    simp only [wp_bind, wp_getStack, wp_getHeap, wp_ite, wp_getCell, wp_activeFile, wp_liftFault, wp_assert,
      segOverflowError, stackAddrOverflowError, heapAddrOverflowError, pointerSegmentError, wp_execErr,
      stops_fault, stops_withIo, push, implies_true, and_self]

theorem execUnary_obeys (f : Word → Word) (pos : Pos) : Obeys cfg False (execUnary f cfg pos) m := by
  unfold Obeys execUnary
  rw [wp_bind]
  refine wp_execSpop valid pos (fun _ => stops_withIo _ _) fun y after word popped => ?_
  refine wp_execSpush popped.valid _ fun last pushed => ?_
  exact (popped.quiet word).trans pushed.quiet

theorem execPop_obeys (inst : Inst) : Obeys cfg False (execPop cfg inst) m := by
  have underflow : m.prog.stack.sp ≤ m.prog.stack.base → Stops False m
      (.err { pos := inst.pos, text := "stack underflow" }) (m.withIo (cleanStdout m.io)) :=
    fun _ => stops_withIo _ _
  unfold Obeys execPop
  cases inst.seg with
  | arg =>
    simp only [wp_bind, wp_getStack, wp_getHeap, wp_ite, segOverflowError, stackAddrOverflowError, wp_execErr,
      stops_withIo, implies_true, and_true]
    -- The guard bounds the offset, so the cell written is one of the arguments.
    rintro ⟨inside, -⟩
    refine wp_execSpop valid _ underflow fun val after word popped => ?_
    simp only [wp_setCell, stops_fault, implies_true, true_and]
    exact fun _ => (popped.quiet word).set val (.inl ⟨by omega, by omega⟩)
  | loc =>
    simp only [wp_bind, wp_getStack, wp_getHeap, wp_ite, segOverflowError, stackAddrOverflowError, wp_execErr,
      stops_withIo, implies_true, and_true]
    rintro ⟨inside, -⟩
    refine wp_execSpop valid _ underflow fun val after word popped => ?_
    simp only [wp_setCell, stops_fault, implies_true, true_and]
    exact fun _ => (popped.quiet word).set val (.inr (by omega))
  | stat =>
    simp only [wp_bind, wp_getStack, wp_getHeap, wp_ite, segOverflowError, wp_execErr, stops_withIo,
      implies_true, and_true]
    intro _
    refine wp_execSpop valid _ underflow fun val after word popped => ?_
    simp only [wp_activeFile, wp_setMem, stops_fault, implies_true, true_and]
    exact fun _ _ => (popped.quiet word).onFile _ fun _ => rfl
  | const =>
    simp only [wp_bind, wp_getStack, wp_getHeap]
    exact wp_execSpop valid _ underflow fun val after word popped => popped.quiet word
  | this =>
    simp only [wp_bind, wp_getStack, wp_getHeap, wp_ite, heapAddrOverflowError, wp_execErr, stops_withIo,
      implies_true, and_true]
    intro _
    refine wp_execSpop valid _ underflow fun val after word popped => ?_
    simp only [wp_liftFault, wp_setHeap, stops_fault, implies_true, true_and]
    exact fun heap _ => (popped.quiet word).withHeap heap
  | that =>
    simp only [wp_bind, wp_getStack, wp_getHeap, wp_ite, heapAddrOverflowError, wp_execErr, stops_withIo,
      implies_true, and_true]
    intro _
    refine wp_execSpop valid _ underflow fun val after word popped => ?_
    simp only [wp_liftFault, wp_setHeap, stops_fault, implies_true, true_and]
    exact fun heap _ => (popped.quiet word).withHeap heap
  | ptr =>
    simp only [wp_bind, wp_getStack, wp_getHeap, wp_ite, pointerSegmentError, wp_execErr, stops_withIo,
      implies_true, and_true]
    refine ⟨fun _ => ?_, fun _ _ => ?_⟩
    · exact wp_execSpop valid _ underflow fun val after word popped => (popped.quiet word).withHeap _
    · exact wp_execSpop valid _ underflow fun val after word popped => (popped.quiet word).withHeap _
  | tmp =>
    simp only [wp_bind, wp_getStack, wp_getHeap, wp_ite, segOverflowError, wp_execErr, stops_withIo,
      implies_true, and_true]
    intro _
    refine wp_execSpop valid _ underflow fun val after word popped => ?_
    simp only [wp_activeFile, wp_setMem, stops_fault, implies_true, true_and]
    exact fun _ _ => (popped.quiet word).onFile _ fun _ => rfl

theorem operands_obeys {more : Prop} {rest : Word → Word → ExecM Unit} (pos : Pos)
    (few : more → m.prog.stack.base < m.prog.stack.sp)
    (both : ∀ y x mid after, m.prog.stack.base < m.prog.stack.sp → Popped cfg m.prog.stack y mid →
      mid.base < mid.sp → Popped cfg mid x after →
      wp (rest y x) (fun _ m' => Quiet cfg m m') (Stops (m.OneWord ∨ more) m) (m.withStack after)) :
    Obeys cfg (m.OneWord ∨ more) (execSpop cfg pos >>= fun y => execSpop cfg pos >>= fun x => rest y x) m := by
  apply wp_twoPops valid pos
  next => exact fun empty => stops_noWord empty few _ _
  next => exact fun y mid word popped empty => stops_oneWord popped word empty _ _
  next => exact both

theorem execBinary_obeys (f : Word → Word → Word) (pos : Pos) :
    Obeys cfg m.OneWord (execBinary f cfg pos) m := by
  rw [← or_false m.OneWord]
  refine operands_obeys valid pos False.elim fun y x mid after word popped word' popped' => ?_
  refine wp_execSpush (m := m.withStack after) popped'.valid _ fun last pushed => ?_
  exact ((popped.quiet word).trans (popped'.quiet word')).trans pushed.quiet

theorem execAdd_obeys (pos : Pos) : Obeys cfg (m.OneWord ∨ m.Torn cfg) (execAdd cfg pos) m := by
  refine operands_obeys valid pos And.left fun y x mid after word popped word' popped' => ?_
  simp only [wp_ite, wp_bind, wp_bumpSp, addOverflowError, wp_execErr]
  refine ⟨fun _ => ?_, fun _ => stops_restored valid popped word popped' word' _ _⟩
  refine wp_execSpush (m := m.withStack after) popped'.valid _ fun last pushed => ?_
  exact ((popped.quiet word).trans (popped'.quiet word')).trans pushed.quiet

theorem execSub_obeys (pos : Pos) : Obeys cfg (m.OneWord ∨ m.Torn cfg) (execSub cfg pos) m := by
  refine operands_obeys valid pos And.left fun y x mid after word popped word' popped' => ?_
  simp only [wp_ite, wp_bind, wp_bumpSp, subUnderflowError, wp_execErr]
  refine ⟨fun _ => ?_, fun _ => stops_restored valid popped word popped' word' _ _⟩
  refine wp_execSpush (m := m.withStack after) popped'.valid _ fun last pushed => ?_
  exact ((popped.quiet word).trans (popped'.quiet word')).trans pushed.quiet

theorem execGoto_obeys (pos : Pos) : Obeys cfg False (execGoto pos) m := by
  unfold Obeys execGoto
  simp only [wp_bind, wp_activeInst, stops_fault, implies_true, true_and]
  intro inst _
  refine wp_jumpTo _ _ (fun _ => stops_fault _) fun res val m' stays jumped => ?_
  cases res with
  | ok => exact jumped.quiet valid
  | err =>
    obtain rfl := stays (by decide)
    simp only [ctrlFlowError, wp_ite, wp_execErr, stops_withIo, implies_true, and_self]
  | multDef =>
    obtain rfl := stays (by decide)
    simp only [defErr, wp_execErr, stops_withIo]

theorem execIfGoto_obeys (pos : Pos) : Obeys cfg False (execIfGoto cfg pos) m := by
  unfold Obeys execIfGoto
  rw [wp_bind]
  refine wp_execSpop valid pos (fun _ => stops_withIo _ _) fun val after word popped => ?_
  simp only [wp_ite, wp_bind, wp_activeInst, wp_pure, stops_fault, implies_true, true_and]
  refine ⟨fun _ inst _ => ?_, fun _ => popped.quiet word⟩
  refine wp_jumpTo _ _ (fun _ => stops_fault _) fun res val m' stays jumped => ?_
  cases res with
  | ok => exact (popped.quiet word).trans (jumped.quiet popped.valid)
  | err =>
    obtain rfl := stays (by decide)
    simp only [wp_bind, wp_bumpSp, ctrlFlowError, wp_ite, wp_execErr]
    exact ⟨fun _ => stops_putBack popped _ _, fun _ => stops_putBack popped _ _⟩
  | multDef =>
    obtain rfl := stays (by decide)
    simp only [wp_bind, wp_bumpSp, defErr, wp_execErr]
    exact stops_putBack popped _ _

theorem execBuiltinPrintChar_obeys (pos : Pos) : Obeys cfg False (execBuiltinPrintChar cfg pos) m := by
  unfold Obeys execBuiltinPrintChar
  rw [wp_bind]
  refine wp_execSpop valid pos (fun _ => stops_withIo _ _) fun val after word popped => ?_
  simp only [wp_bind, wp_get, wp_setIo]
  exact (popped.quiet word).withIo _

theorem execBuiltinPrintNum_obeys (pos : Pos) : Obeys cfg False (execBuiltinPrintNum cfg pos) m := by
  unfold Obeys execBuiltinPrintNum
  rw [wp_bind]
  refine wp_execSpop valid pos (fun _ => stops_withIo _ _) fun val after word popped => ?_
  simp only [wp_bind, wp_get, wp_setIo]
  exact (popped.quiet word).withIo _

theorem execBuiltinPrintStr_obeys (pos : Pos) :
    Obeys cfg m.OneWord (execBuiltinPrintStr cfg pos) m := by
  rw [← or_false m.OneWord]
  refine operands_obeys valid pos False.elim fun addr nchars mid after word popped word' popped' => ?_
  simp only [wp_bind, wp_getHeap, wp_get, wp_liftFault, wp_setIo, stops_fault, implies_true, true_and]
  exact fun io _ => ((popped.quiet word).trans (popped'.quiet word')).withIo io

theorem execBuiltinReadChar_obeys : Obeys cfg False (execBuiltinReadChar cfg) m := by
  unfold Obeys execBuiltinReadChar
  simp only [wp_bind, wp_get]
  split
  · exact execSpush_obeys valid False _
  · next c stdin _ =>
    have valid' : (m.withIo { m.io with stdin := stdin }).prog.stack.Valid cfg := valid
    simp only [wp_bind, wp_setIo]
    refine wp_execSpush valid' _ fun after pushed => ?_
    exact ((Quiet.refl valid).withIo _).trans pushed.quiet

theorem execBuiltinReadNum_obeys (pos : Pos) : Obeys cfg False (execBuiltinReadNum cfg pos) m := by
  have read (io io' : Io) : Unchanged m ((m.withIo io).withIo io') := Unchanged.withIo m io'
  unfold Obeys execBuiltinReadNum
  simp only [wp_bind, wp_get, wp_setIo]
  split
  · simp only [readIoError, wp_execErr]
    exact stops_unchanged not_false (read _ _)
  · simp only [wp_bind, wp_liftFault, wp_setIo, readNumCharError, wp_execErr, stops_fault, implies_true, true_and]
    exact fun stdin _ => stops_unchanged not_false (read _ _)
  · simp only [wp_ite, readNumOverflowError, wp_execErr]
    refine ⟨fun _ => stops_unchanged not_false (read _ _), fun _ => ?_⟩
    have valid' : (m.withIo { m.io with stdin := (scanfUint m.io.stdin).2 }).prog.stack.Valid cfg := valid
    refine wp_execSpush valid' _ fun after pushed => ?_
    exact ((Quiet.refl valid).withIo _).trans pushed.quiet

theorem execBuiltinReadStr_obeys (pos : Pos) :
    Obeys cfg (m.prog.stack.base < m.prog.stack.sp) (execBuiltinReadStr cfg pos) m := by
  unfold Obeys execBuiltinReadStr
  rw [wp_bind]
  refine wp_execSpop valid pos (fun empty => stops_unchanged (Nat.not_lt.mpr empty) (Unchanged.withIo _ _))
    fun val after word popped => ?_
  have changed {m' : Machine} (sp : m'.prog.stack.sp = after.sp) : ¬Unchanged m m' := by
    intro unchanged
    have same := unchanged.sp
    have := popped.sp
    omega
  simp only [wp_bind, wp_get]
  split
  · simp only [readIoError, wp_execErr]
    exact stops_changed word (changed rfl)
  · simp only [wp_bind, wp_setIo, wp_ite, heapAddrOverflowError, wp_activeInst, wp_execErr, wp_getHeap,
      wp_setHeap, stops_fault, implies_true, true_and]
    refine ⟨fun _ inst _ => stops_changed word (changed rfl), fun _ => ?_⟩
    refine wp_execSpush (m := ((m.withStack after).withIo _).withHeap _) popped.valid _ fun last pushed => ?_
    exact ((popped.quiet word).withIo _).trans (((Quiet.refl popped.valid).withHeap _).trans pushed.quiet)

end instructions

end Hvme
