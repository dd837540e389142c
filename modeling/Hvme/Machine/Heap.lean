import Hvme.Machine.Capacity

set_option autoImplicit false

namespace Hvme

open Outcome Recording

def Heap.pointer (heap : Heap) (seg : Segment) : Word := if seg = .this then heap.this else heap.that

/-- The effective address of an access to `this` or `that`. -/
def effective (inst : Inst) (m : Machine) : Nat := inst.offset.toNat + (m.prog.heap.pointer inst.seg).toNat

def OnHeap (inst : Inst) : Prop := inst.seg = .this ∨ inst.seg = .that

instance (inst : Inst) : Decidable (OnHeap inst) := inferInstanceAs (Decidable (_ ∨ _))

def Machine.top (m : Machine) : Option Word := m.prog.stack.ops[m.prog.stack.sp - 1]?

def heapAddrDiag (inst : Inst) (addr : Nat) : Diag where
  pos := inst.pos
  text := s!"address overflow: `{bytesText (instStr inst)}` tries to access heap at {addr}"

section access

variable {cfg : Config} {inst : Inst} {m : Machine}

theorem activeInst_eq (here : m.inst = some inst) : activeInst m = .ok inst m := by
  have holds : wp activeInst (fun val m' => val = inst ∧ m' = m) (fun _ _ => False) m := by
    simp [wp_activeInst, here]
  obtain ⟨_, _, run, val_eq, m_eq⟩ := holds.total
  rw [run, val_eq, m_eq]

theorem execInst_pop (here : m.inst = some inst) (code : inst.code = .pop) :
    execInst cfg m = execPop cfg inst m := by
  unfold execInst
  simp only [bind, EStateM.bind, activeInst_eq here, code]

theorem execInst_push (here : m.inst = some inst) (code : inst.code = .push) :
    execInst cfg m = execPush cfg inst m := by
  unfold execInst
  simp only [bind, EStateM.bind, activeInst_eq here, code]

theorem execPop_heap (onHeap : OnHeap inst) : execPop cfg inst m = (do
    let heap ← getHeap
    if effective inst m ≤ memHeapSize then
      let val ← execSpop cfg inst.pos
      setHeap (← liftFault (heapSet heap (UInt16.ofNat (effective inst m)) val))
    else heapAddrOverflowError inst (effective inst m)) m := by
  rcases onHeap with seg | seg
  next =>
    have same : effective inst m = inst.offset.toNat + m.prog.heap.this.toNat := by rw [effective, seg]; rfl
    rw [same]
    unfold execPop
    simp only [seg]
    rfl
  next =>
    have same : effective inst m = inst.offset.toNat + m.prog.heap.that.toNat := by rw [effective, seg]; rfl
    rw [same]
    unfold execPop
    simp only [seg]
    rfl

theorem execPush_heap (onHeap : OnHeap inst) : execPush cfg inst m = (do
    let heap ← getHeap
    if effective inst m ≤ memHeapSize then
      execSpush cfg (← liftFault (heapGet heap (UInt16.ofNat (effective inst m))))
    else heapAddrOverflowError inst (effective inst m)) m := by
  rcases onHeap with seg | seg
  next =>
    have same : effective inst m = inst.offset.toNat + m.prog.heap.this.toNat := by rw [effective, seg]; rfl
    rw [same]
    unfold execPush
    simp only [seg]
    rfl
  next =>
    have same : effective inst m = inst.offset.toNat + m.prog.heap.that.toNat := by rw [effective, seg]; rfl
    rw [same]
    unfold execPush
    simp only [seg]
    rfl

theorem Popped.top_eq {val : Word} {after : Stack} (popped : Popped cfg m.prog.stack val after) :
    m.top = some val := by
  have sp := popped.sp
  rw [Machine.top, ← sp]
  exact popped.top

theorem effective_cast (small : effective inst m ≤ memHeapSize) :
    (UInt16.ofNat (effective inst m)).toNat = effective inst m := by
  rw [UInt16.toNat_ofNat']
  exact Nat.mod_eq_of_lt (lt_of_le_of_lt small (by decide))

variable (valid : m.prog.stack.Valid cfg) (size : m.prog.heap.mem.length = memHeapSize) (onHeap : OnHeap inst)

include valid size onHeap

theorem pop_inside (word : m.prog.stack.base < m.prog.stack.sp) (inside : effective inst m < memHeapSize) :
    ∃ m', execPop cfg inst m = .ok () m' ∧ ∃ val, m.top = some val ∧
      m'.prog.heap = { m.prog.heap with mem := m.prog.heap.mem.set (effective inst m) val } := by
  have runs : wp (execPop cfg inst) (fun _ m' => ∃ val, m.top = some val ∧
      m'.prog.heap = { m.prog.heap with mem := m.prog.heap.mem.set (effective inst m) val })
      (fun _ _ => False) m := by
    apply (wp_congr (execPop_heap onHeap)).mpr
    simp only [wp_bind, wp_getHeap, wp_ite]
    constructor
    next =>
      intro guard
      apply wp_execSpop valid
      next => exact fun empty => absurd word (Nat.not_lt.mpr empty)
      next =>
        intro val after _ popped
        have stored : heapSet m.prog.heap (UInt16.ofNat (effective inst m)) val =
            .ok { m.prog.heap with mem := m.prog.heap.mem.set (effective inst m) val } := by
          unfold heapSet
          rw [effective_cast guard, size, if_pos inside]
        simp only [stored, wp_liftFault, wp_setHeap, reduceCtorEq, false_implies, implies_true, true_and,
          Except.ok.injEq, forall_eq']
        exact ⟨val, popped.top_eq, rfl⟩
    next => exact fun outside => absurd inside.le outside
  obtain ⟨_, m', run, stored⟩ := runs.total
  exact ⟨m', run, stored⟩

theorem pop_border (word : m.prog.stack.base < m.prog.stack.sp) (border : effective inst m = memHeapSize) :
    ∃ m', execPop cfg inst m = .error (.fault .outOfBounds) m' := by
  have runs : wp (execPop cfg inst) (fun _ _ => False) (fun stop _ => stop = .fault .outOfBounds) m := by
    apply (wp_congr (execPop_heap onHeap)).mpr
    simp only [wp_bind, wp_getHeap, wp_ite]
    constructor
    next =>
      intro guard
      apply wp_execSpop valid
      next => exact fun empty => absurd word (Nat.not_lt.mpr empty)
      next =>
        intro val after _ _
        have refused : heapSet m.prog.heap (UInt16.ofNat (effective inst m)) val = .error .outOfBounds := by
          unfold heapSet
          rw [effective_cast guard, size, if_neg (Nat.not_lt.mpr border.ge)]
        simp only [refused, wp_liftFault, Except.error.injEq, forall_eq', reduceCtorEq, false_implies, implies_true,
          and_self]
    next => exact fun outside => absurd border.le outside
  obtain ⟨stop, m', run, same⟩ := runs.fails
  exact ⟨m', same ▸ run⟩

omit valid size in
theorem pop_beyond (outside : memHeapSize < effective inst m) : execPop cfg inst m =
    .error (.err (heapAddrDiag inst (effective inst m))) (m.withIo (cleanStdout m.io)) := by
  rw [execPop_heap onHeap]
  simp only [bind, EStateM.bind, getHeap, Nat.not_le.mpr outside]
  rfl

theorem push_inside (inside : effective inst m < memHeapSize) :
    ∃ m', execPush cfg inst m = .ok () m' ∧ m'.prog.heap = m.prog.heap ∧
      ∃ val, m.prog.heap.mem[effective inst m]? = some val ∧ Pushed cfg m.prog.stack val m'.prog.stack := by
  have runs : wp (execPush cfg inst) (fun _ m' => m'.prog.heap = m.prog.heap ∧
      ∃ val, m.prog.heap.mem[effective inst m]? = some val ∧ Pushed cfg m.prog.stack val m'.prog.stack)
      (fun _ _ => False) m := by
    obtain ⟨val, here⟩ : ∃ val, m.prog.heap.mem[effective inst m]? = some val :=
      ⟨_, List.getElem?_eq_getElem (size ▸ inside)⟩
    apply (wp_congr (execPush_heap onHeap)).mpr
    simp only [wp_bind, wp_getHeap, wp_ite]
    constructor
    next =>
      intro guard
      have read : heapGet m.prog.heap (UInt16.ofNat (effective inst m)) = .ok val := by
        unfold heapGet
        rw [effective_cast guard, here]
      simp only [read, wp_liftFault, reduceCtorEq, false_implies, implies_true, true_and, Except.ok.injEq, forall_eq']
      exact wp_execSpush valid val fun after pushed => ⟨rfl, val, here, pushed⟩
    next => exact fun outside => absurd inside.le outside
  obtain ⟨_, m', run, same, pushed⟩ := runs.total
  exact ⟨m', run, same, pushed⟩

omit valid in
theorem push_border (border : effective inst m = memHeapSize) :
    ∃ m', execPush cfg inst m = .error (.fault .outOfBounds) m' := by
  have runs : wp (execPush cfg inst) (fun _ _ => False) (fun stop _ => stop = .fault .outOfBounds) m := by
    apply (wp_congr (execPush_heap onHeap)).mpr
    simp only [wp_bind, wp_getHeap, wp_ite]
    constructor
    next =>
      intro guard
      have refused : heapGet m.prog.heap (UInt16.ofNat (effective inst m)) = .error .outOfBounds := by
        unfold heapGet
        rw [effective_cast guard, List.getElem?_eq_none (size ▸ border.ge)]
      simp only [refused, wp_liftFault, Except.error.injEq, forall_eq', reduceCtorEq, false_implies, implies_true,
        and_self]
    next => exact fun outside => absurd border.le outside
  obtain ⟨stop, m', run, same⟩ := runs.fails
  exact ⟨m', same ▸ run⟩

omit valid size in
theorem push_beyond (outside : memHeapSize < effective inst m) : execPush cfg inst m =
    .error (.err (heapAddrDiag inst (effective inst m))) (m.withIo (cleanStdout m.io)) := by
  rw [execPush_heap onHeap]
  simp only [bind, EStateM.bind, getHeap, Nat.not_le.mpr outside]
  rfl

omit size in
theorem pop_succeeded {m' : Machine} (run : execPop cfg inst m = .ok () m') :
    effective inst m < m.prog.heap.mem.length ∧ ∃ val, m.top = some val ∧
      m'.prog.heap = { m.prog.heap with mem := m.prog.heap.mem.set (effective inst m) val } := by
  have holds : wp (execPop cfg inst) (fun _ m' => effective inst m < m.prog.heap.mem.length ∧
      ∃ val, m.top = some val ∧ m'.prog.heap =
        { m.prog.heap with mem := m.prog.heap.mem.set (effective inst m) val }) (fun _ _ => True) m := by
    apply (wp_congr (execPop_heap onHeap)).mpr
    simp only [wp_bind, wp_getHeap, wp_ite, heapAddrOverflowError, wp_execErr, implies_true, and_true]
    intro guard
    apply wp_execSpop valid _ fun _ => trivial
    intro val after _ popped
    simp only [wp_liftFault, wp_setHeap, implies_true, true_and]
    intro heap stored
    obtain ⟨inside, same⟩ := heapSet_ok stored
    rw [effective_cast guard] at inside same
    exact ⟨inside, val, popped.top_eq, same⟩
  exact holds.returns run

end access

/-- An access to `this` or `that` is one to an array of `memHeapSize` words, of which `log` holds
those stored last. -/
structure ArrayLaw (cfg : Config) (inst : Inst) (m : Machine) (log : CellLog) : Prop where
  pops : inst.code = .pop → effective inst m < memHeapSize → ∃ m', execInst cfg m = .ok () m' ∧
    ∃ val, m.top = some val ∧
      m'.prog.heap = { m.prog.heap with mem := m.prog.heap.mem.set (effective inst m) val }
  pushes : inst.code = .push → effective inst m < memHeapSize → ∃ m', execInst cfg m = .ok () m' ∧
    m'.prog.heap = m.prog.heap ∧ ∃ val, m.prog.heap.mem[effective inst m]? = some val ∧
      Pushed cfg m.prog.stack val m'.prog.stack ∧ ∀ word, log (effective inst m) = some word → val = word
  refuses : memHeapSize ≤ effective inst m → ∃ m',
    execInst cfg m = .error (.err (heapAddrDiag inst (effective inst m))) m' ∧ m'.prog.heap = m.prog.heap

/-- The log of the words last stored to the heap, by a pop or a string that was read. -/
def logHeap (m m' : Machine) (log : CellLog) : CellLog :=
  match m.inst with
  | none => log
  | some inst =>
    if inst.code = .pop ∧ OnHeap inst then Function.update log (effective inst m) m.top
    else if inst.code = .builtinReadStr then fun i =>
      if m'.prog.heap.mem[i]? = m.prog.heap.mem[i]? then log i else m'.prog.heap.mem[i]?
    else log

structure Stored (cfg : Config) (m : Machine) (log : CellLog) : Prop where
  valid : m.prog.stack.Valid cfg
  size : m.prog.heap.mem.length = memHeapSize
  cells : ∀ i word, log i = some word → m.prog.heap.mem[i]? = some word

theorem storeChars_length (mem : List Word) (addr : Nat) (chars : List Byte) :
    (storeChars mem addr chars).length = mem.length := by
  induction chars generalizing mem addr with
  | nil => rfl
  | cons c chars ih => rw [storeChars, ih, List.length_set]

section stored

variable {cfg : Config} {inst : Inst} {m m' : Machine} {log : CellLog}

theorem readStr_length (valid : m.prog.stack.Valid cfg) (here : m.inst = some inst)
    (code : inst.code = .builtinReadStr) (run : execInst cfg m = .ok () m') :
    m'.prog.heap.mem.length = m.prog.heap.mem.length := by
  have holds : wp (execInst cfg) (fun _ m' => m'.prog.heap.mem.length = m.prog.heap.mem.length)
      (fun _ _ => True) m := by
    unfold execInst
    simp only [wp_bind, wp_activeInst, here, code, implies_true, true_and, Option.some.injEq, forall_eq']
    unfold execBuiltinReadStr
    rw [wp_bind]
    apply wp_execSpop valid _ fun _ => trivial
    intro addr mid word popped
    simp only [wp_bind, wp_get]
    split
    next => exact trivial
    next =>
      simp only [wp_bind, wp_setIo, wp_ite, heapAddrOverflowError, wp_activeInst, wp_execErr, wp_getHeap,
        wp_setHeap, implies_true, true_and]
      intro _
      apply wp_execSpush (m := ((m.withStack mid).withIo _).withHeap _) popped.valid
      exact fun _ _ => storeChars_length _ _ _
  exact holds.returns run

theorem mem_kept (valid : m.prog.stack.Valid cfg) (here : m.inst = some inst)
    (pops : ¬(inst.code = .pop ∧ OnHeap inst)) (reads : inst.code ≠ .builtinReadStr)
    (run : execInst cfg m = .ok () m') : m'.prog.heap.mem = m.prog.heap.mem := by
  by_cases frame : inst.code = .call ∨ inst.code = .ret
  · exact (execInst_aborts valid here frame).returns run
  · obtain ⟨call, ret⟩ := not_or.mp frame
    apply ((execInst_treads valid here call ret).returns run).heap
    rintro (⟨code, onHeap⟩ | code)
    · exact pops ⟨code, onHeap⟩
    · exact reads code

theorem Stored.steps (stored : Stored cfg m log) (steps : Steps cfg m m') :
    Stored cfg m' (logHeap m m' log) := by
  obtain ⟨inst, _, here, _, _⟩ := steps.effect stored.valid
  obtain ⟨mid, run, advances⟩ := steps.ran here
  have heap := advances.heap
  have valid := steps.valid stored.valid
  unfold logHeap
  simp only [here]
  -- A pop to `this` or `that` logs its word; every other instruction keeps the heap or reads a line.
  by_cases pops : inst.code = .pop ∧ OnHeap inst
  · rw [if_pos pops]
    rw [execInst_pop here pops.1] at run
    obtain ⟨inside, val, top, set⟩ := pop_succeeded stored.valid pops.2 run
    rw [← heap] at set
    have mem : m'.prog.heap.mem = m.prog.heap.mem.set (effective inst m) val := congrArg Heap.mem set
    refine ⟨valid, by rw [mem, List.length_set, stored.size], fun i word logged => ?_⟩
    rw [mem]
    by_cases here : i = effective inst m
    · rw [here, Function.update_self, top] at logged
      rw [here, List.getElem?_set_self inside, logged]
    · rw [Function.update_of_ne here] at logged
      rw [List.getElem?_set_ne (Ne.symm here)]
      exact stored.cells i word logged
  · rw [if_neg pops]
    by_cases reads : inst.code = .builtinReadStr
    · -- Only cells that still hold the logged word stay in the log.
      rw [if_pos reads]
      have length := readStr_length stored.valid here reads run
      refine ⟨valid, by rw [heap, length, stored.size], fun i word logged => ?_⟩
      split at logged
      next same => rw [same, stored.cells i word logged]
      next => exact logged
    · rw [if_neg reads]
      have mem : m'.prog.heap.mem = m.prog.heap.mem := by
        rw [heap]
        exact mem_kept stored.valid here pops reads run
      exact ⟨valid, mem ▸ stored.size, mem ▸ stored.cells⟩

theorem Stored.law (stored : Stored cfg m log) (here : m.inst = some inst) (onHeap : OnHeap inst)
    (off : effective inst m ≠ memHeapSize) (access : inst.code = .push ∨ inst.code = .pop)
    (operand : inst.code = .pop → m.prog.stack.base < m.prog.stack.sp) : ArrayLaw cfg inst m log where
  pops := by
    intro code inside
    rw [execInst_pop here code]
    exact pop_inside stored.valid stored.size onHeap (operand code) inside
  pushes := by
    intro code inside
    rw [execInst_push here code]
    obtain ⟨m', run, heap, val, read, pushed⟩ := push_inside stored.valid stored.size onHeap inside
    refine ⟨m', run, heap, val, read, pushed, fun word logged => ?_⟩
    exact Option.some.inj (read.symm.trans (stored.cells _ word logged))
  refuses := by
    intro reaches
    have outside : memHeapSize < effective inst m := lt_of_le_of_ne reaches (Ne.symm off)
    rcases access with code | code
    next =>
      rw [execInst_push here code]
      exact ⟨_, push_beyond onHeap outside, rfl⟩
    next =>
      rw [execInst_pop here code]
      exact ⟨_, pop_beyond onHeap outside, rfl⟩

theorem ArrayLaw.off (law : ArrayLaw cfg inst m log) (stored : Stored cfg m log) (here : m.inst = some inst)
    (onHeap : OnHeap inst) (access : inst.code = .push ∨ inst.code = .pop)
    (operand : inst.code = .pop → m.prog.stack.base < m.prog.stack.sp) : effective inst m ≠ memHeapSize := by
  intro border
  obtain ⟨m', run, _⟩ := law.refuses border.ge
  rcases access with code | code
  next =>
    obtain ⟨_, faults⟩ := @push_border cfg inst m stored.size onHeap border
    rw [execInst_push here code, faults] at run
    cases run
  next =>
    obtain ⟨_, faults⟩ := pop_border stored.valid stored.size onHeap (operand code) border
    rw [execInst_pop here code, faults] at run
    cases run

end stored

theorem arrayLaw_iff {cfg : Config} {start m : Machine} {inst : Inst} {log : CellLog}
    (valid : start.prog.stack.Valid cfg) (size : start.prog.heap.mem.length = memHeapSize)
    (run : Recorded (Steps cfg) logHeap start (fun _ => none) m log) (here : m.inst = some inst)
    (access : inst.code = .push ∨ inst.code = .pop) (onHeap : OnHeap inst)
    (operand : inst.code = .pop → m.prog.stack.base < m.prog.stack.sp) :
    ArrayLaw cfg inst m log ↔ effective inst m ≠ memHeapSize := by
  have stored : Stored cfg m log := by
    apply run.invariant
    next => exact ⟨valid, size, by rintro _ _ ⟨⟩⟩
    next => exact fun _ _ _ _ steps stored => stored.steps steps
  constructor
  next => exact fun law => law.off stored here onHeap access operand
  next => exact fun off => stored.law here onHeap off access operand

theorem arrayLaw_last :
    ∃ prog m inst log,
      makeProg .unitTests 9 [{ fn := "a.vm", content := some (ascii
        "function Sys.init 0\npush constant 4095\npop pointer 0\npush constant 7\npop this 0\n") }] =
        .ok (some prog) ∧
      Recorded (Steps .unitTests) logHeap (Machine.start prog []) (fun _ => none) m log ∧ m.inst = some inst ∧
      effective inst m = 4095 ∧ ArrayLaw .unitTests inst m log := by
  have ran : ((programOf .unitTests
      "function Sys.init 0\npush constant 4095\npop pointer 0\npush constant 7\npop this 0\n").bind fun prog =>
      (Machine.start prog []).after .unitTests 5).map (fun m => m.inst.any fun inst =>
        decide (inst.code = .pop ∧ inst.seg = .this ∧ effective inst m = 4095 ∧
          m.prog.stack.base < m.prog.stack.sp)) = some true := by
    decide +kernel
  obtain ⟨m, bound, ready⟩ := Option.map_eq_some_iff.mp ran
  obtain ⟨prog, made, after⟩ := Option.bind_eq_some_iff.mp bound
  obtain ⟨log, run⟩ := exists_recorded logHeap (fun _ => none) (Machine.after_reaches after)
  have valid := (start_kept (makeProg_stack (programOf_made made)) []).valid
  have size : (Machine.start prog []).prog.heap.mem.length = memHeapSize := makeProg_size (programOf_made made)
  obtain ⟨inst, here, access⟩ := (Option.any_eq_true _ _).mp ready
  obtain ⟨code, seg, address, word⟩ := of_decide_eq_true access
  have law := (arrayLaw_iff valid size run here (.inr code) (.inl seg) fun _ => word).mpr (by rw [address]; decide)
  exact ⟨prog, m, inst, log, programOf_made made, run, here, address, law⟩

theorem pop_behind_heap :
    ∃ prog m inst log,
      makeProg .unitTests 9 [{ fn := "a.vm", content := some (ascii
        "function Sys.init 0\npush constant 4096\npop pointer 0\npush constant 7\npop this 0\n") }] =
        .ok (some prog) ∧
      Recorded (Steps .unitTests) logHeap (Machine.start prog []) (fun _ => none) m log ∧ m.inst = some inst ∧
      inst.code = .pop ∧ inst.seg = .this ∧ m.prog.stack.base < m.prog.stack.sp ∧ effective inst m = memHeapSize ∧
      ¬ArrayLaw .unitTests inst m log := by
  -- The fifth round leads to the last instruction, whose store is then seen to fault.
  have ran : ((programOf .unitTests
      "function Sys.init 0\npush constant 4096\npop pointer 0\npush constant 7\npop this 0\n").bind fun prog =>
      (Machine.start prog []).after .unitTests 5).map (fun m => m.inst.any fun inst =>
        decide (inst.code = .pop ∧ inst.seg = .this ∧ m.prog.stack.base < m.prog.stack.sp ∧
          effective inst m = memHeapSize) &&
          stopsWith (fun stop _ => decide (stop = .fault .outOfBounds)) (execInst .unitTests m)) = some true := by
    decide +kernel
  obtain ⟨m, bound, ready⟩ := Option.map_eq_some_iff.mp ran
  obtain ⟨prog, made, after⟩ := Option.bind_eq_some_iff.mp bound
  obtain ⟨log, run⟩ := exists_recorded logHeap (fun _ => none) (Machine.after_reaches after)
  obtain ⟨inst, here, ready⟩ := (Option.any_eq_true _ _).mp ready
  obtain ⟨access, stops⟩ := Bool.and_eq_true_iff.mp ready
  obtain ⟨code, seg, word, address⟩ := of_decide_eq_true access
  obtain ⟨stop, m', faults, out⟩ := of_stopsWith stops
  obtain rfl := of_decide_eq_true out
  refine ⟨prog, m, inst, log, programOf_made made, run, here, code, seg, word, address, fun law => ?_⟩
  obtain ⟨_, reported, _⟩ := law.refuses address.ge
  rw [faults] at reported
  cases reported

end Hvme
