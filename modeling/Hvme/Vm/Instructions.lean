import Hvme.Machine.Builtins
import Hvme.Machine.Heap
import Hvme.Vm.Shows

set_option autoImplicit false

namespace Hvme.Vm

open Outcome Execution

section lists

variable {α : Type} {front mid back : List α} {i : Nat}

theorem getElem_middle (inside : i < mid.length) : (front ++ (mid ++ back))[i + front.length]? = mid[i]? := by
  rw [List.getElem?_append_right (by omega), Nat.add_sub_cancel, List.getElem?_append_left inside]

theorem set_middle (inside : i < mid.length) (val : α) :
    (front ++ (mid ++ back)).set (i + front.length) val = front ++ (mid.set i val ++ back) := by
  rw [List.set_append_right _ _ (by omega), Nat.add_sub_cancel, List.set_append_left _ _ inside]

end lists

section cells

variable {cfg : Config} {code : Code} {m : Machine} {s : State Place} (shown : Shows cfg code m s) {i : Nat}

include shown

theorem Shows.lclCell (inside : i < s.data.frame.locals.length) :
    i + m.prog.stack.lcl < m.prog.stack.sp ∧
      m.prog.stack.ops[i + m.prog.stack.lcl]? = some s.data.frame.locals[i] := by
  have below : i + m.prog.stack.lcl < m.prog.stack.sp := by
    rw [shown.sp, shown.lcl, State.depth]
    omega
  refine ⟨below, ?_⟩
  rw [shown.getElem below, words_eq, shown.lcl, State.lcl, ← wordsBelow_length, getElem_middle inside,
    List.getElem?_eq_getElem inside]

theorem Shows.arg_lt (inside : i < s.data.frame.args.length) : i + m.prog.stack.arg < m.prog.stack.lcl := by
  have sound := shown.sound
  have arg := shown.arg
  have lcl := shown.lcl
  rw [State.lcl] at lcl
  cases callers : s.callers with
  | nil =>
    rw [callers] at sound
    rw [sound.1] at inside
    exact absurd inside (Nat.not_lt_zero i)
  | cons c rest =>
    rw [callers] at arg lcl
    rw [lclAbove_cons] at lcl
    omega

theorem Shows.argCell (inside : i < s.data.frame.args.length) :
    i + m.prog.stack.arg < m.prog.stack.sp ∧
      m.prog.stack.ops[i + m.prog.stack.arg]? = some s.data.frame.args[i] := by
  have sound := shown.sound
  have sp := shown.sp
  have arg := shown.arg
  have getElem := @Shows.getElem cfg code m s shown
  rw [State.depth, State.lcl] at sp
  cases callers : s.callers with
  -- The code outside of all functions has no arguments.
  | nil =>
    rw [callers] at sound
    rw [sound.1] at inside
    exact absurd inside (Nat.not_lt_zero i)
  | cons c rest =>
    rw [callers] at sp arg getElem
    rw [lclAbove_cons] at sp
    have below : i + m.prog.stack.arg < m.prog.stack.sp := by omega
    refine ⟨below, ?_⟩
    rw [getElem below, words, arg, argAbove, ← words_length, getElem_middle inside, List.getElem?_eq_getElem inside]

theorem Shows.live_set {val : Word} {frame : Frame} {idx : Nat}
    (same : (words s.data.frame s.callers).set idx val = words frame s.callers)
    (segments : segmentsOf frame s.callers = segmentsOf s.data.frame s.callers) (this : frame.this = s.data.frame.this)
    (that : frame.that = s.data.frame.that) :
    Shows cfg code (m.withStack { m.prog.stack with ops := m.prog.stack.ops.set idx val })
      (s.withData { s.data with frame := frame }) where
  valid := shown.valid.set idx val
  code_eq := shown.code_eq
  live := by
    rw [← shown.live] at same
    exact (List.take_set ..).trans same
  segments := shown.segments.trans segments.symm
  heap := shown.heap.trans (by simp only [State.withData, this, that])
  size := shown.size
  memories := shown.memories
  io := shown.io
  fi := shown.fi
  file := shown.file
  sound := shown.sound.congr (congrArg Segments.argLen segments) (congrArg Segments.lclLen segments)

theorem Shows.setLcl (inside : i < s.data.frame.locals.length) (val : Word) :
    Shows cfg code (m.withStack { m.prog.stack with ops := m.prog.stack.ops.set (i + m.prog.stack.lcl) val })
      (s.withData { s.data with frame := { s.data.frame with locals := s.data.frame.locals.set i val } }) := by
  refine shown.live_set ?_ ?_ rfl rfl
  · rw [words_eq, words_eq, shown.lcl, State.lcl, ← wordsBelow_length, set_middle inside]
  · simp [segmentsOf]

theorem Shows.setArg (inside : i < s.data.frame.args.length) (val : Word) :
    Shows cfg code (m.withStack { m.prog.stack with ops := m.prog.stack.ops.set (i + m.prog.stack.arg) val })
      (s.withData { s.data with frame := { s.data.frame with args := s.data.frame.args.set i val } }) := by
  refine shown.live_set ?_ ?_ rfl rfl
  · have sound := shown.sound
    have arg := shown.arg
    cases callers : s.callers with
    | nil =>
      rw [callers] at sound
      rw [sound.1] at inside
      exact absurd inside (Nat.not_lt_zero i)
    | cons c rest =>
      rw [callers] at arg
      rw [words, words, arg, argAbove, ← words_length, set_middle inside]
  · simp [segmentsOf]

theorem Shows.setPointers (this that : Word) :
    Shows cfg code (m.withHeap { mem := s.data.heap, this := this, that := that })
      (s.withData { s.data with frame := { s.data.frame with this := this, that := that } }) :=
  { shown with
    live := shown.live.trans (by rw [words_eq, words_eq]; rfl)
    heap := rfl
    sound := shown.sound.congr rfl rfl }

theorem Shows.setMem {file : File} (active : m.file = some file) (f : Memory → Memory) :
    Shows cfg code (m.onFile fun other => { other with mem := f file.mem })
      (s.withData (s.data.setMem s.loc.fi f)) where
  valid := shown.valid
  code_eq := (code_onFile m (fun other => { other with mem := f file.mem }) fun _ => rfl).trans shown.code_eq
  live := shown.live
  segments := shown.segments
  heap := shown.heap
  size := shown.size
  memories := by
    intro fi other found
    rw [Machine.onFile_files, List.getElem?_modify] at found
    obtain ⟨before_, here, rfl⟩ := Option.map_eq_some_iff.mp found
    have fi_eq := shown.fi
    by_cases own : m.prog.fi = fi
    · obtain rfl : before_ = file := Option.some.inj (here.symm.trans (own ▸ active))
      have mem := shown.memories fi before_ here
      simp only [own, if_true, State.withData, Data.setMem, ← fi_eq, Function.update_self, mem]
    · have mem := shown.memories fi before_ here
      simp only [own, if_false, State.withData, Data.setMem, ← fi_eq]
      rw [Function.update_of_ne (Ne.symm own), mem]
  io := shown.io
  fi := shown.fi
  file := by
    obtain ⟨other, here, ei⟩ := shown.file
    exact ⟨{ other with mem := f file.mem }, by rw [Machine.onFile_file, here, Option.map_some], ei⟩
  sound := shown.sound

end cells

def Result.Returns (cfg : Config) (code : Code) (s : State Place) (result : Result) (m : Machine) : Prop :=
  ∃ d, result = .ok d ∧ Shows cfg code m (s.withData d)

def Result.Stops (inst : Inst) (result : Result) (stop : Stop) (m : Machine) : Prop :=
  (∃ why io, result = .error why io ∧ stop = .err (why.diag inst) ∧ m.io = cleanStdout io) ∨
    (result = .wrong ∧ ∃ fault, stop = .fault fault)

def Meets (cfg : Config) (code : Code) (inst : Inst) (s : State Place) (result : Result) (x : ExecM Unit)
    (m : Machine) : Prop :=
  wp x (fun _ m' => result.Returns cfg code s m') (result.Stops inst) m

section rules

variable {cfg : Config} {code : Code} {inst : Inst} {m : Machine} {s : State Place} {d : Data}

theorem Result.stops_wrong (inst : Inst) (fault : Fault) (m : Machine) : Result.wrong.Stops inst (.fault fault) m :=
  .inr ⟨rfl, fault, rfl⟩

theorem meets_error {why : Error} {io : Io} {text : String} (streams : m.io = io) (same : why.text inst = text) :
    Meets cfg code inst s (.error why io) (execErr inst.pos text) m :=
  .inl ⟨why, io, rfl, by rw [Error.diag, same], congrArg cleanStdout streams⟩

theorem meets_ok (shown : Shows cfg code m (s.withData d)) : Meets cfg code inst s (.ok d) (pure ()) m :=
  ⟨d, rfl, shown⟩

theorem meets_push (shown : Shows cfg code m (s.withData d)) (val : Word) :
    Meets cfg code inst s (.ok (d.push val)) (execSpush cfg val) m :=
  wp_execSpush shown.valid val fun _ pushed => ⟨d.push val, rfl, shown.pushed pushed⟩

theorem meets_pop (shown : Shows cfg code m (s.withData d)) {x : Word → ExecM Unit} {rest : Word → Data → Result}
    (next : ∀ val work stack, d.frame.work = val :: work →
      Shows cfg code (m.withStack stack) (s.withData (d.withWork work)) →
      Meets cfg code inst s (rest val (d.withWork work)) (x val) (m.withStack stack)) :
    Meets cfg code inst s (d.pop rest) (execSpop cfg inst.pos >>= x) m := by
  have base : m.prog.stack.base + d.frame.work.length = m.prog.stack.sp := shown.base
  unfold Meets
  rw [wp_bind]
  cases work : d.frame.work with
  | nil =>
    rw [work] at base
    refine wp_execSpop shown.valid inst.pos (fun _ => ?_) fun _ _ word _ => absurd base (Nat.ne_of_lt word)
    refine .inl ⟨.underflow, d.io, ?_, rfl, congrArg cleanStdout shown.io⟩
    rw [Data.pop, work]
  | cons top below =>
    rw [work, List.length_cons] at base
    refine wp_execSpop shown.valid inst.pos (fun empty => by omega) fun val stack _ popped => ?_
    obtain ⟨rfl, shown'⟩ := shown.popped popped work
    rw [Data.pop, work]
    exact next val below stack work shown'

theorem meets_bumpSp {result : Result} {count : Nat} {x : ExecM Unit}
    (next : Meets cfg code inst s result x (m.withStack { m.prog.stack with sp := m.prog.stack.sp + count })) :
    Meets cfg code inst s result (do bumpSp count; x) m := next

theorem meets_ite {cond cond' : Prop} [Decidable cond] [Decidable cond'] {result result' : Result} {x x' : ExecM Unit}
    (same : cond ↔ cond') (yes : cond → Meets cfg code inst s result x m)
    (no : ¬cond → Meets cfg code inst s result' x' m) :
    Meets cfg code inst s (if cond then result else result') (if cond' then x else x') m := by
  by_cases holds : cond
  · rw [if_pos holds, if_pos (same.mp holds)]
    exact yes holds
  · rw [if_neg holds, if_neg (same.not.mp holds)]
    exact no holds

end rules

theorem printStrLoop_folds {heap : Heap} (size : heap.mem.length = memHeapSize) (addr : Addr) (count : Nat) (i : Addr)
    (io : Io) (inside : addr.toNat + i.toNat + count ≤ memHeapSize) :
    printStrLoop heap addr count i io =
      .ok (((heap.mem.drop (addr.toNat + i.toNat)).take count).foldl (fun io val => hvmeFprintf [val.toUInt8] io) io) := by
  induction count generalizing i io with
  | zero => rw [List.take_zero, List.foldl_nil, printStrLoop]
  | succ count ih =>
    have small : memHeapSize < 2 ^ 16 := by decide
    have cell : (addr + i).toNat = addr.toNat + i.toNat := by
      rw [UInt16.toNat_add]
      omega
    have next : (i + 1).toNat = i.toNat + 1 := by
      rw [UInt16.toNat_add]
      simp only [UInt16.reduceToNat]
      omega
    obtain ⟨val, here, read⟩ := heapGet_of_lt size (show (addr + i).toNat < memHeapSize by omega)
    rw [cell] at here
    have split : heap.mem.drop (addr.toNat + i.toNat) = val :: heap.mem.drop (addr.toNat + (i + 1).toNat) := by
      rw [next, ← Nat.add_assoc, List.drop_eq_getElem?_toList_append, here]
      rfl
    rw [printStrLoop, read, split, List.take_succ_cons, List.foldl_cons]
    exact ih (i + 1) _ (by omega)

section instructions

variable {cfg : Config} {code : Code} {inst : Inst} {m : Machine} {s : State Place} (shown : Shows cfg code m s)

include shown

theorem execUnary_meets (f : Word → Word) :
    Meets cfg code inst s (s.data.unary f) (execUnary f cfg inst.pos) m :=
  meets_pop (d := s.data) shown fun y _ _ _ shown => meets_push shown (f y)

theorem execBinary_meets (f : Word → Word → Word) :
    Meets cfg code inst s (s.data.binary f) (execBinary f cfg inst.pos) m :=
  meets_pop (d := s.data) shown fun y _ _ _ shown => meets_pop shown fun x _ _ _ shown => meets_push shown (f x y)

theorem execAdd_meets : Meets cfg code inst s s.data.add (execAdd cfg inst.pos) m := by
  refine meets_pop (d := s.data) shown fun y _ _ _ shown => meets_pop shown fun x _ _ _ shown => ?_
  exact meets_ite Iff.rfl (fun _ => meets_push shown _) fun _ => meets_bumpSp (meets_error shown.io rfl)

theorem execSub_meets : Meets cfg code inst s s.data.sub (execSub cfg inst.pos) m := by
  refine meets_pop (d := s.data) shown fun y _ _ _ shown => meets_pop shown fun x _ _ _ shown => ?_
  exact meets_ite Iff.rfl (fun _ => meets_push shown _) fun _ => meets_bumpSp (meets_error shown.io rfl)

theorem print_meets (text : Word → List Byte) :
    Meets cfg code inst s (s.data.print text)
      (do
        let val ← execSpop cfg inst.pos
        setIo (hvmeFprintf (text val) (← get).io)) m := by
  refine meets_pop (d := s.data) shown fun val work stack _ shown => ?_
  exact ⟨_, rfl, shown.io ▸ shown.withIo _⟩

theorem meets_load (addr : Nat) :
    Meets cfg code inst s (s.data.load addr)
      (if addr ≤ memHeapSize then do
        execSpush cfg (← liftFault (heapGet m.prog.heap (UInt16.ofNat addr)))
      else heapAddrOverflowError inst addr) m := by
  refine meets_ite Iff.rfl (fun inside => ?_) fun _ => meets_error shown.io rfl
  have small : addr < 2 ^ 16 := lt_of_le_of_lt inside (by decide)
  have cell : (UInt16.ofNat addr).toNat = addr := UInt16.toNat_ofNat_of_lt' small
  unfold Meets
  simp only [wp_bind, wp_liftFault, heapGet, cell, shown.heap]
  cases found : s.data.heap[addr]? with
  | none =>
    simp only [Except.error.injEq, forall_eq', reduceCtorEq, false_implies, implies_true, and_true]
    exact Result.stops_wrong inst _ m
  | some val =>
    simp only [reduceCtorEq, false_implies, implies_true, true_and, Except.ok.injEq, forall_eq']
    exact meets_push shown val

theorem meets_loadPointer (ptr : Word) :
    Meets cfg code inst s (s.data.loadPointer ptr)
      (do
        assert_ (ptr.toNat ≤ memHeapSize)
        execSpush cfg ptr) m := by
  unfold Meets Data.loadPointer
  simp only [wp_bind, wp_assert, decide_eq_false_iff_not, decide_eq_true_eq]
  constructor
  · intro outside
    rw [if_neg outside]
    exact Result.stops_wrong inst _ m
  · intro inside
    rw [if_pos inside]
    exact meets_push shown ptr

theorem meets_loadFrom {entries : List Word} {start : Nat}
    (cells : ∀ (inside : inst.offset.toNat < entries.length), inst.offset.toNat + start < m.prog.stack.sp ∧
      m.prog.stack.ops[inst.offset.toNat + start]? = some entries[inst.offset.toNat]) (reported : Nat) :
    Meets cfg code inst s (s.data.loadFrom inst entries)
      (if inst.offset.toNat < entries.length ∧ inst.offset.toNat + start < m.prog.stack.sp then do
        execSpush cfg (← getCell (inst.offset.toNat + start))
      else if inst.offset.toNat ≥ entries.length then segOverflowError inst entries.length
      else stackAddrOverflowError inst reported m.prog.stack.sp) m := by
  unfold Data.loadFrom
  by_cases inside : inst.offset.toNat < entries.length
  · obtain ⟨below, cell⟩ := cells inside
    rw [if_pos ⟨inside, below⟩, List.getElem?_eq_getElem inside]
    unfold Meets
    simp only [wp_bind, wp_getCell, cell, reduceCtorEq, false_implies, true_and, Option.some.injEq, forall_eq']
    exact meets_push shown _
  · rw [if_neg fun both => inside both.1, if_pos (Nat.not_lt.mp inside), List.getElem?_eq_none (Nat.not_lt.mp inside)]
    exact meets_error shown.io rfl

theorem meets_loadMem (size : Nat) (entries : Memory → List Word) :
    Meets cfg code inst s
      (if inst.offset.toNat < size then
        .ok (s.data.push ((entries (s.data.memories s.loc.fi)).getD inst.offset.toNat 0))
      else .error (.segment size) s.data.io)
      (if inst.offset.toNat < size then do
        execSpush cfg ((entries (← activeFile).mem).getD inst.offset.toNat 0)
      else segOverflowError inst size) m := by
  refine meets_ite Iff.rfl (fun _ => ?_) fun _ => meets_error shown.io rfl
  obtain ⟨file, active, -⟩ := shown.file
  have mem := shown.memories s.loc.fi file (shown.fi ▸ active)
  unfold Meets
  simp only [wp_bind, wp_activeFile, active, reduceCtorEq, false_implies, true_and, Option.some.injEq, forall_eq', mem]
  exact meets_push shown _

theorem execPush_meets : Meets cfg code inst s (s.data.execPush s.loc.fi inst) (execPush cfg inst) m := by
  have argLen := shown.argLen
  have lclLen := shown.lclLen
  have this : m.prog.heap.this = s.data.frame.this := congrArg Heap.this shown.heap
  have that : m.prog.heap.that = s.data.frame.that := congrArg Heap.that shown.heap
  unfold Meets execPush Data.execPush
  simp only [wp_bind, wp_getStack, wp_getHeap]
  cases inst.seg with
  | arg =>
    rw [argLen]
    exact meets_loadFrom shown (fun inside => shown.argCell inside) _
  | loc =>
    rw [lclLen]
    exact meets_loadFrom shown (fun inside => shown.lclCell inside) _
  | stat => exact meets_loadMem shown memStatSize Memory.static
  | const => exact meets_push shown inst.offset
  | this =>
    rw [this]
    exact meets_load shown _
  | that =>
    rw [that]
    exact meets_load shown _
  | ptr =>
    rw [this, that]
    refine meets_ite Iff.rfl (fun _ => meets_loadPointer shown _) fun _ => ?_
    exact meets_ite Iff.rfl (fun _ => meets_loadPointer shown _) fun _ => meets_error shown.io rfl
  | tmp => exact meets_loadMem shown memTempSize Memory.tmp

theorem meets_store (addr : Nat) :
    Meets cfg code inst s (s.data.store addr)
      (if addr ≤ memHeapSize then do
        let val ← execSpop cfg inst.pos
        setHeap (← liftFault (heapSet m.prog.heap (UInt16.ofNat addr) val))
      else heapAddrOverflowError inst addr) m := by
  refine meets_ite Iff.rfl (fun inside => ?_) fun _ => meets_error shown.io rfl
  have small : addr < 2 ^ 16 := lt_of_le_of_lt inside (by decide)
  have cell : (UInt16.ofNat addr).toNat = addr := UInt16.toNat_ofNat_of_lt' small
  refine meets_pop (d := s.data) shown fun val work stack _ popped => ?_
  have heap := shown.heap
  unfold Meets
  simp only [wp_bind, wp_liftFault, heapSet, cell, heap, Data.withWork_heap]
  by_cases stored : addr < s.data.heap.length
  · simp only [stored, if_true, reduceCtorEq, false_implies, implies_true, true_and, Except.ok.injEq, forall_eq', wp_setHeap]
    exact ⟨_, rfl, { popped with heap := rfl, size := (List.length_set ..).trans shown.size }⟩
  · simp only [stored, if_false, reduceCtorEq, false_implies, implies_true, and_true, Except.error.injEq, forall_eq']
    exact Result.stops_wrong inst _ _

theorem meets_storeTo {size start : Nat} {put : Word → Data → Data}
    (cells : inst.offset.toNat < size → inst.offset.toNat + start < m.prog.stack.sp)
    (stored : ∀ val work stack, inst.offset.toNat < size →
      Shows cfg code (m.withStack stack) (s.withData (s.data.withWork work)) →
      inst.offset.toNat + start < stack.ops.length →
      Shows cfg code (m.withStack { stack with ops := stack.ops.set (inst.offset.toNat + start) val })
        (s.withData (put val (s.data.withWork work))))
    (within : inst.offset.toNat < size → inst.offset.toNat + start < m.prog.stack.base) (reported : Nat) :
    Meets cfg code inst s (s.data.storeTo inst size put)
      (if inst.offset.toNat < size ∧ inst.offset.toNat + start < m.prog.stack.sp then do
        let val ← execSpop cfg inst.pos
        setCell (inst.offset.toNat + start) val
      else if inst.offset.toNat ≥ size then segOverflowError inst size
      else stackAddrOverflowError inst reported m.prog.stack.sp) m := by
  unfold Data.storeTo
  by_cases inside : inst.offset.toNat < size
  · rw [if_pos inside, if_pos ⟨inside, cells inside⟩]
    refine meets_pop (d := s.data) shown fun val work stack _ popped => ?_
    have room : inst.offset.toNat + start < stack.ops.length := by
      have base : stack.base + work.length = stack.sp := popped.base
      have same : stack.base = m.prog.stack.base :=
        congrArg Segments.base (popped.segments.trans shown.segments.symm)
      have length_eq : stack.ops.length = stack.len := popped.valid.length_eq
      have sp_le : stack.sp ≤ stack.len := popped.valid.sp_le
      have below := within inside
      omega
    unfold Meets
    simp only [wp_setCell, Machine.withStack_stack]
    exact ⟨fun outside => absurd room (Nat.not_lt.mpr outside), fun _ => ⟨_, rfl, stored val work stack inside popped room⟩⟩
  · rw [if_neg inside, if_neg fun both => inside both.1, if_pos (Nat.not_lt.mp inside)]
    exact meets_error shown.io rfl

theorem meets_storeMem (size : Nat) (put : Word → Memory → Memory) :
    Meets cfg code inst s (s.data.storeTo inst size fun val d => d.setMem s.loc.fi (put val))
      (if inst.offset.toNat < size then do
        let val ← execSpop cfg inst.pos
        setMem (put val (← activeFile).mem)
      else segOverflowError inst size) m := by
  refine meets_ite Iff.rfl (fun _ => ?_) fun _ => meets_error shown.io rfl
  refine meets_pop (d := s.data) shown fun val work stack _ popped => ?_
  obtain ⟨file, active, -⟩ := shown.file
  unfold Meets
  simp only [wp_bind, wp_activeFile, Machine.withStack_file, active, reduceCtorEq, false_implies, true_and,
    Option.some.injEq, forall_eq', wp_setMem]
  exact ⟨_, rfl, popped.setMem active (put val)⟩

theorem execPop_meets : Meets cfg code inst s (s.data.execPop s.loc.fi inst) (execPop cfg inst) m := by
  have argLen := shown.argLen
  have lclLen := shown.lclLen
  have arg := shown.arg
  have lcl := shown.lcl
  have this : m.prog.heap.this = s.data.frame.this := congrArg Heap.this shown.heap
  have that : m.prog.heap.that = s.data.frame.that := congrArg Heap.that shown.heap
  have base : m.prog.stack.base = m.prog.stack.lcl + m.prog.stack.lclLen := rfl
  unfold Meets execPop Data.execPop
  simp only [wp_bind, wp_getStack, wp_getHeap]
  cases inst.seg with
  | arg =>
    rw [argLen]
    refine meets_storeTo shown (fun inside => (shown.argCell inside).1) ?_ ?_ _
    · intro val work stack inside popped _
      have same : stack.arg = m.prog.stack.arg := popped.arg.trans arg.symm
      rw [← same]
      exact popped.setArg inside val
    · intro inside
      have := shown.arg_lt inside
      omega
  | loc =>
    rw [lclLen]
    refine meets_storeTo shown (fun inside => (shown.lclCell inside).1) ?_ ?_ _
    · intro val work stack inside popped _
      have same : stack.lcl = m.prog.stack.lcl := popped.lcl.trans lcl.symm
      rw [← same]
      exact popped.setLcl inside val
    · intro inside
      omega
  | stat => exact meets_storeMem shown memStatSize fun val mem => { mem with static := mem.static.set inst.offset.toNat val }
  | const => exact meets_pop (d := s.data) shown fun _ _ _ _ popped => meets_ok popped
  | this =>
    rw [this]
    exact meets_store shown _
  | that =>
    rw [that]
    exact meets_store shown _
  | ptr =>
    refine meets_ite Iff.rfl (fun _ => ?_) fun _ => meets_ite Iff.rfl (fun _ => ?_) fun _ => meets_error shown.io rfl
    · refine meets_pop (d := s.data) shown fun val _ _ _ popped => ?_
      rw [shown.heap]
      exact ⟨_, rfl, popped.setPointers val s.data.frame.that⟩
    · refine meets_pop (d := s.data) shown fun val _ _ _ popped => ?_
      rw [shown.heap]
      exact ⟨_, rfl, popped.setPointers s.data.frame.this val⟩
  | tmp => exact meets_storeMem shown memTempSize fun val mem => { mem with tmp := mem.tmp.set inst.offset.toNat val }

theorem printStr_meets : Meets cfg code inst s s.data.printStr (execBuiltinPrintStr cfg inst.pos) m := by
  have heap := shown.heap
  refine meets_pop (d := s.data) shown fun addr work stack _ shown => ?_
  refine meets_pop shown fun nchars work' stack' _ shown => ?_
  have size : s.data.heap.length = memHeapSize := shown.size
  unfold Meets
  simp only [wp_bind, wp_getHeap, Machine.withStack_heap, heap, wp_get, wp_liftFault, Data.withWork_heap, Data.withWork_io]
  by_cases whole : nchars = 0 ∨ addr.toNat + nchars.toNat ≤ s.data.heap.length
  · have run : printStrLoop { mem := s.data.heap, this := s.data.frame.this, that := s.data.frame.that } addr
        nchars.toNat 0 s.data.io = .ok (((s.data.heap.drop addr.toNat).take nchars.toNat).foldl
          (fun io val => hvmeFprintf [val.toUInt8] io) s.data.io) := by
      rcases whole with rfl | inside
      · rfl
      · exact printStrLoop_folds size addr nchars.toNat 0 s.data.io (by rw [← size]; exact inside)
    have io : ((m.withStack stack).withStack stack').io = s.data.io := shown.io
    simp only [io, run, whole, if_true, reduceCtorEq, false_implies, implies_true, true_and, Except.ok.injEq, forall_eq',
      wp_setIo]
    exact ⟨_, rfl, shown.withIo _⟩
  · obtain ⟨some_, outside⟩ := not_or.mp whole
    have positive : 0 < nchars.toNat :=
      Nat.pos_of_ne_zero fun zero => some_ (UInt16.toNat_inj.mp zero)
    have fault : printStrLoop { mem := s.data.heap, this := s.data.frame.this, that := s.data.frame.that } addr
        nchars.toNat 0 ((m.withStack stack).withStack stack').io = .error .outOfBounds :=
      printStrLoop_faults size nchars.toNat 0 _ positive addr.toNat_lt (by rw [← size]; exact Nat.not_le.mp outside)
    simp only [fault, whole, if_false, reduceCtorEq, false_implies, implies_true, and_true, Except.error.injEq, forall_eq']
    exact Result.stops_wrong inst _ _

theorem readChar_meets : Meets cfg code inst s s.data.readChar (execBuiltinReadChar cfg) m := by
  unfold Meets execBuiltinReadChar Data.readChar
  simp only [wp_bind, wp_get, shown.io]
  cases s.data.io.stdin with
  | nil => exact meets_push (d := s.data) shown _
  | cons c stdin =>
    simp only [wp_bind, wp_setIo]
    exact meets_push (shown.withIo _) _

theorem readNum_meets : Meets cfg code inst s s.data.readNum (execBuiltinReadNum cfg inst.pos) m := by
  unfold Meets execBuiltinReadNum Data.readNum
  simp only [wp_bind, wp_get, wp_setIo, shown.io]
  obtain ⟨res, stdin⟩ := scanfUint s.data.io.stdin
  cases res with
  | eof => exact meets_error (m := m.withIo _) rfl rfl
  | mismatch =>
    simp only [wp_bind, wp_liftFault]
    cases discardLine stdin with
    | error fault =>
      simp only [reduceCtorEq, false_implies, implies_true, and_true, Except.error.injEq, forall_eq']
      exact Result.stops_wrong inst _ _
    | ok rest =>
      simp only [reduceCtorEq, false_implies, implies_true, true_and, Except.ok.injEq, forall_eq', wp_setIo]
      exact meets_error (m := (m.withIo _).withIo _) rfl rfl
  | num value =>
    exact meets_ite (m := m.withIo _) Iff.rfl (fun _ => meets_error rfl rfl) fun _ =>
      meets_push (shown.withIo _) _

theorem readStr_meets (here : m.inst = some inst) :
    Meets cfg code inst s s.data.readStr (execBuiltinReadStr cfg inst.pos) m := by
  have heap := shown.heap
  refine meets_pop (d := s.data) shown fun addr work stack _ shown => ?_
  have io : (m.withStack stack).io = s.data.io := shown.io
  unfold Meets
  simp only [wp_bind, wp_get, io, Data.withWork_io]
  cases line : getline s.data.io.stdin with
  | none => exact meets_error io rfl
  | some result =>
    obtain ⟨buf, stdin⟩ := result
    simp only [wp_bind, wp_setIo]
    refine meets_ite (m := (m.withStack stack).withIo _) Iff.rfl (fun _ => ?_) fun _ => ?_
    · unfold Meets
      simp only [wp_bind, wp_activeInst, Machine.withIo_inst, Machine.withStack_inst, here, reduceCtorEq, false_implies,
        true_and, Option.some.injEq, forall_eq']
      exact meets_error rfl rfl
    · unfold Meets
      simp only [wp_bind, wp_getHeap, wp_setHeap, Machine.withIo_prog, Machine.withStack_heap, heap]
      refine meets_push ?_ _
      exact { shown.withIo _ with
        heap := rfl
        size := (storeChars_length ..).trans shown.size }

theorem execInst_meets (here : m.inst = some inst)
    (ongoing : inst.code ≠ .goto ∧ inst.code ≠ .ifGoto ∧ inst.code ≠ .call ∧ inst.code ≠ .ret) :
    Meets cfg code inst s (s.data.exec s.loc.fi inst) (execInst cfg) m := by
  obtain ⟨goto_, ifGoto, call, ret⟩ := ongoing
  unfold Meets execInst Data.exec
  simp only [wp_bind, wp_activeInst, here, reduceCtorEq, false_implies, true_and, Option.some.injEq, forall_eq']
  cases same : inst.code with
  | goto => exact absurd same goto_
  | ifGoto => exact absurd same ifGoto
  | call => exact absurd same call
  | ret => exact absurd same ret
  | none => exact meets_error shown.io rfl
  | push => exact execPush_meets shown
  | pop => exact execPop_meets shown
  | add => exact execAdd_meets shown
  | sub => exact execSub_meets shown
  | neg => exact execUnary_meets shown _
  | and => exact execBinary_meets shown _
  | or => exact execBinary_meets shown _
  | not => exact execUnary_meets shown _
  | eq => exact execBinary_meets shown _
  | gt => exact execBinary_meets shown _
  | lt => exact execBinary_meets shown _
  | builtinPrintChar => exact print_meets shown _
  | builtinPrintNum => exact print_meets shown _
  | builtinPrintStr => exact printStr_meets shown
  | builtinReadChar => exact readChar_meets shown
  | builtinReadNum => exact readNum_meets shown
  | builtinReadStr => exact readStr_meets shown here

end instructions

end Hvme.Vm
