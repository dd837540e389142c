import Hvme.Machine.Steps

set_option autoImplicit false

namespace Hvme

open Outcome

def PopTarget (inst : Inst) (m : Machine) (i : Nat) : Prop :=
  inst.code = .pop ∧
    (inst.seg = .arg ∧ i = inst.offset.toNat + m.prog.stack.arg ∨
      inst.seg = .loc ∧ i = inst.offset.toNat + m.prog.stack.lcl)

def Writes (inst : Inst) (m : Machine) (i : Nat) : Prop :=
  match inst.code with
  | .push | .builtinReadChar | .builtinReadNum => i = m.prog.stack.sp
  | .pop => PopTarget inst m i
  | .add | .sub | .and | .or | .eq | .lt | .gt => i + 2 = m.prog.stack.sp
  | .neg | .not | .builtinReadStr => i + 1 = m.prog.stack.sp
  | _ => False

def StoresHeap (inst : Inst) : Prop :=
  inst.code = .pop ∧ (inst.seg = .this ∨ inst.seg = .that) ∨ inst.code = .builtinReadStr

def SetsPointer (inst : Inst) (offset : UInt16) : Prop :=
  inst.code = .pop ∧ inst.seg = .ptr ∧ inst.offset = offset

def Machine.memories (m : Machine) : List Memory := m.prog.files.map File.mem

structure Footprint (cfg : Config) (inst : Inst) (m m' : Machine) : Prop where
  segments : m'.prog.stack.segments = m.prog.stack.segments
  base_le : m.prog.stack.base ≤ m.prog.stack.sp → m.prog.stack.base ≤ m'.prog.stack.sp
  valid : m'.prog.stack.Valid cfg
  cells : ∀ i < m'.prog.stack.sp, ¬Writes inst m i →
    i < m.prog.stack.sp ∧ m'.prog.stack.ops[i]? = m.prog.stack.ops[i]?
  below : m.prog.stack.base ≤ m.prog.stack.sp → ∀ i < m.prog.stack.base, ¬PopTarget inst m i →
    m'.prog.stack.ops[i]? = m.prog.stack.ops[i]?
  memory : ∀ idx, idx ≠ m.prog.fi → m'.memories[idx]? = m.memories[idx]?
  heap : ¬StoresHeap inst → m'.prog.heap.mem = m.prog.heap.mem
  this : ¬SetsPointer inst 0 → m'.prog.heap.this = m.prog.heap.this
  that : ¬SetsPointer inst 1 → m'.prog.heap.that = m.prog.heap.that

inductive Undone (cfg : Config) (before_ : Stack) : Stack → Prop
  | same : Undone cfg before_ before_
  | popped {val : Word} {after : Stack} (word : before_.base < before_.sp) (popped : Popped cfg before_ val after) :
      Undone cfg before_ after
  | putBack {val : Word} {after : Stack} (word : before_.base < before_.sp) (popped : Popped cfg before_ val after) :
      Undone cfg before_ { after with sp := after.sp + 1 }

def Retaken (cfg : Config) (before_ after : Stack) : Prop :=
  ∃ y x mid last, before_.base < before_.sp ∧ Popped cfg before_ y mid ∧ mid.base < mid.sp ∧
    Popped cfg mid x last ∧ after = { last with sp := last.sp + 2 }

structure Failed (cfg : Config) (inst : Inst) (m m' : Machine) : Prop where
  heap : m'.prog.heap = m.prog.heap
  files : m'.prog.files = m.prog.files
  fi : m'.prog.fi = m.prog.fi
  stack : Undone cfg m.prog.stack m'.prog.stack ∨
    (inst.code = .add ∨ inst.code = .sub) ∧ Retaken cfg m.prog.stack m'.prog.stack

def Stopped (cfg : Config) (inst : Inst) (m : Machine) (stop : Stop) (m' : Machine) : Prop :=
  ∀ diag, stop = .err diag → Failed cfg inst m m'

section undone

variable {cfg : Config} {before_ after : Stack}

theorem Undone.segments (undone : Undone cfg before_ after) : after.segments = before_.segments := by
  cases undone with
  | same => rfl
  | popped _ popped => exact popped.segments
  | putBack _ popped => exact popped.segments

theorem Undone.cells (undone : Undone cfg before_ after) {i : Nat} (inside : i < after.sp) :
    i < before_.sp ∧ after.ops[i]? = before_.ops[i]? := by
  cases undone with
  | same => exact ⟨inside, rfl⟩
  | popped _ popped =>
    have sp := popped.sp
    exact ⟨by omega, popped.below i (by omega)⟩
  | putBack _ popped =>
    have sp := popped.sp
    have inside' : i < before_.sp := sp ▸ inside
    exact ⟨inside', popped.below i inside'⟩

theorem Popped.room {val : Word} (popped : Popped cfg before_ val after) (valid : before_.Valid cfg) :
    after.sp + 1 ≤ after.len := by
  have sp := popped.sp
  have len := popped.len
  have sp_le := valid.sp_le
  split at len <;> omega

theorem Undone.valid (undone : Undone cfg before_ after) (valid : before_.Valid cfg) : after.Valid cfg := by
  cases undone with
  | same => exact valid
  | popped _ popped => exact popped.valid
  | putBack _ popped => exact ⟨popped.valid.length_eq, popped.valid.blocks, popped.room valid⟩

theorem Undone.base_le (undone : Undone cfg before_ after) (sound : before_.base ≤ before_.sp) :
    before_.base ≤ after.sp := by
  cases undone with
  | same => exact sound
  | popped word popped =>
    have sp := popped.sp
    omega
  | putBack _ popped => exact sound.trans popped.sp.ge

theorem Retaken.segments (retaken : Retaken cfg before_ after) : after.segments = before_.segments := by
  obtain ⟨_, _, mid, last, _, first, _, second, same⟩ := retaken
  rw [same]
  exact second.segments.trans first.segments

theorem Retaken.sp (retaken : Retaken cfg before_ after) : after.sp = before_.sp := by
  obtain ⟨_, _, mid, last, _, first, _, second, same⟩ := retaken
  have sp := first.sp
  have sp' := second.sp
  rw [same]
  change last.sp + 2 = before_.sp
  omega

theorem Retaken.two (retaken : Retaken cfg before_ after) : before_.base + 2 ≤ before_.sp := by
  obtain ⟨_, _, mid, last, _, first, word, second, _⟩ := retaken
  have sp := first.sp
  have base : mid.base = before_.base := congrArg Segments.base first.segments
  omega

theorem Retaken.cells (retaken : Retaken cfg before_ after) {i : Nat} (inside : i < before_.base) :
    after.ops[i]? = before_.ops[i]? := by
  obtain ⟨_, _, mid, last, _, first, word, second, same⟩ := retaken
  have sp := first.sp
  have base : mid.base = before_.base := congrArg Segments.base first.segments
  rw [same, ← first.below i (by omega)]
  exact second.below i (by omega)

end undone

section failed

variable {cfg : Config} {inst : Inst} {m : Machine}

@[simp] theorem stopped_fault (fault : Fault) (m' : Machine) : Stopped cfg inst m (.fault fault) m' := by
  rintro _ ⟨⟩

@[simp] theorem stopped_same (stop : Stop) (io : Io) : Stopped cfg inst m stop (m.withIo io) :=
  fun _ _ => ⟨rfl, rfl, rfl, .inl .same⟩

theorem stopped_stack (stop : Stop) {after : Stack} (io : Io) (undone : Undone cfg m.prog.stack after) :
    Stopped cfg inst m stop ((m.withStack after).withIo io) :=
  fun _ _ => ⟨rfl, rfl, rfl, .inl undone⟩

theorem stopped_retaken (stop : Stop) {after : Stack} (io : Io) (code : inst.code = .add ∨ inst.code = .sub)
    (retaken : Retaken cfg m.prog.stack after) : Stopped cfg inst m stop ((m.withStack after).withIo io) :=
  fun _ _ => ⟨rfl, rfl, rfl, .inr ⟨code, retaken⟩⟩

end failed

section footprint

variable {cfg : Config} {inst : Inst} {m m' : Machine} {low : Nat}

theorem Footprint.of_low (valid : m'.prog.stack.Valid cfg)
    (segments : m'.prog.stack.segments = m.prog.stack.segments)
    (cells : ∀ i < low, m'.prog.stack.ops[i]? = m.prog.stack.ops[i]?)
    (base_le : m.prog.stack.base ≤ m.prog.stack.sp → m.prog.stack.base ≤ low)
    (low_le : low ≤ m.prog.stack.sp)
    (top : m'.prog.stack.sp = low ∨ m'.prog.stack.sp = low + 1 ∧ Writes inst m low)
    (memory : ∀ idx, idx ≠ m.prog.fi → m'.memories[idx]? = m.memories[idx]?)
    (heap : ¬StoresHeap inst → m'.prog.heap.mem = m.prog.heap.mem)
    (this : ¬SetsPointer inst 0 → m'.prog.heap.this = m.prog.heap.this)
    (that : ¬SetsPointer inst 1 → m'.prog.heap.that = m.prog.heap.that) : Footprint cfg inst m m' where
  segments := segments
  base_le := by
    intro sound
    have := base_le sound
    omega
  valid := valid
  cells := by
    intro i inside unwritten
    have below : i < low := by
      -- Above `low` there is at most the word that was stored.
      rcases top with top | ⟨top, stored⟩
      next => omega
      next =>
        have other : i ≠ low := by
          rintro rfl
          exact unwritten stored
        omega
    exact ⟨by omega, cells i below⟩
  below := fun sound i inside _ => cells i (lt_of_lt_of_le inside (base_le sound))
  memory := memory
  heap := heap
  this := this
  that := that

theorem Pushed.footprint {val : Word} {after : Stack} (pushed : Pushed cfg m.prog.stack val after)
    (stores : Writes inst m m.prog.stack.sp) : Footprint cfg inst m (m.withStack after) := by
  have sp := pushed.sp
  apply Footprint.of_low pushed.valid pushed.segments pushed.below id le_rfl
  · exact .inr ⟨sp, stores⟩
  · exact fun _ _ => rfl
  · exact fun _ => rfl
  · exact fun _ => rfl
  · exact fun _ => rfl

theorem Popped.footprint {val : Word} {after : Stack} (popped : Popped cfg m.prog.stack val after)
    (word : m.prog.stack.base < m.prog.stack.sp) (stack : m'.prog.stack = after)
    (memory : ∀ idx, idx ≠ m.prog.fi → m'.memories[idx]? = m.memories[idx]?)
    (heap : ¬StoresHeap inst → m'.prog.heap.mem = m.prog.heap.mem)
    (this : ¬SetsPointer inst 0 → m'.prog.heap.this = m.prog.heap.this)
    (that : ¬SetsPointer inst 1 → m'.prog.heap.that = m.prog.heap.that) : Footprint cfg inst m m' := by
  have sp := popped.sp
  have below : ∀ i < after.sp, after.ops[i]? = m.prog.stack.ops[i]? := fun i inside => popped.below i (by omega)
  have low_le : after.sp ≤ m.prog.stack.sp := by omega
  have base_le : m.prog.stack.base ≤ after.sp := by omega
  subst stack
  apply Footprint.of_low popped.valid popped.segments below
  · exact fun _ => base_le
  · exact low_le
  · exact .inl rfl
  · exact memory
  · exact heap
  · exact this
  · exact that

theorem unary_footprint {y val : Word} {mid last : Stack} (popped : Popped cfg m.prog.stack y mid)
    (word : m.prog.stack.base < m.prog.stack.sp) (pushed : Pushed cfg mid val last)
    (writes : ∀ i, i + 1 = m.prog.stack.sp → Writes inst m i) : Footprint cfg inst m (m.withStack last) := by
  have sp := popped.sp
  have sp' := pushed.sp
  apply Footprint.of_low pushed.valid (pushed.segments.trans popped.segments)
  · exact fun i inside => (pushed.below i inside).trans (popped.below i (by omega))
  · omega
  · omega
  · exact .inr ⟨sp', writes _ sp⟩
  · exact fun _ _ => rfl
  · exact fun _ => rfl
  · exact fun _ => rfl
  · exact fun _ => rfl

theorem binary_footprint {y x val : Word} {mid after last : Stack} (popped : Popped cfg m.prog.stack y mid)
    (popped' : Popped cfg mid x after) (word' : mid.base < mid.sp) (pushed : Pushed cfg after val last)
    (writes : ∀ i, i + 2 = m.prog.stack.sp → Writes inst m i) : Footprint cfg inst m (m.withStack last) := by
  have sp := popped.sp
  have sp' := popped'.sp
  have sp'' := pushed.sp
  have base : mid.base = m.prog.stack.base := congrArg Segments.base popped.segments
  apply Footprint.of_low pushed.valid (pushed.segments.trans (popped'.segments.trans popped.segments))
  · intro i inside
    calc
      last.ops[i]? = after.ops[i]? := pushed.below i inside
      _ = mid.ops[i]? := popped'.below i (by omega)
      _ = m.prog.stack.ops[i]? := popped.below i (by omega)
  · omega
  · omega
  · exact .inr ⟨sp'', writes _ (by omega)⟩
  · exact fun _ _ => rfl
  · exact fun _ => rfl
  · exact fun _ => rfl
  · exact fun _ => rfl

theorem target_footprint {val : Word} {after : Stack} {idx : Nat} (popped : Popped cfg m.prog.stack val after)
    (word : m.prog.stack.base < m.prog.stack.sp) (code : inst.code = .pop) (target : PopTarget inst m idx) :
    Footprint cfg inst m (m.withStack { after with ops := after.ops.set idx val }) where
  segments := popped.segments
  base_le := by
    intro _
    have sp := popped.sp
    change _ ≤ after.sp
    omega
  valid := popped.valid.set idx val
  cells := by
    intro i inside unwritten
    have sp := popped.sp
    have inside : i < after.sp := inside
    -- The popped word may go below the new top, and then that is the cell written.
    have other : idx ≠ i := by
      rintro rfl
      exact unwritten (by rw [Writes, code]; exact target)
    exact ⟨by omega, (List.getElem?_set_ne other).trans (popped.below i (by omega))⟩
  below := by
    intro _ i inside kept
    have other : idx ≠ i := by
      rintro rfl
      exact kept target
    exact (List.getElem?_set_ne other).trans (popped.below i (by omega))
  memory := fun _ _ => rfl
  heap := fun _ => rfl
  this := fun _ => rfl
  that := fun _ => rfl

theorem Jumped.footprint (valid : m.prog.stack.Valid cfg) (jumped : Jumped m m')
    (memories : m'.memories = m.memories) : Footprint cfg inst m m' := by
  have stack := jumped.stack
  apply Footprint.of_low (stack ▸ valid) (congrArg Stack.segments stack)
  · exact fun i _ => congrArg (fun stack => stack.ops[i]?) stack
  · exact id
  · exact le_rfl
  · exact .inl (congrArg Stack.sp stack)
  · exact fun idx _ => congrArg (·[idx]?) memories
  · exact fun _ => congrArg Heap.mem jumped.heap
  · exact fun _ => congrArg Heap.this jumped.heap
  · exact fun _ => congrArg Heap.that jumped.heap

theorem Footprint.withIo (footprint : Footprint cfg inst m m') (io : Io) : Footprint cfg inst m (m'.withIo io) :=
  ⟨footprint.segments, footprint.base_le, footprint.valid, footprint.cells, footprint.below, footprint.memory,
    footprint.heap, footprint.this, footprint.that⟩

theorem Footprint.withMem (footprint : Footprint cfg inst m m') (stores : StoresHeap inst) (mem : List Word) :
    Footprint cfg inst m (m'.withHeap { m'.prog.heap with mem := mem }) :=
  ⟨footprint.segments, footprint.base_le, footprint.valid, footprint.cells, footprint.below, footprint.memory,
    fun other => absurd stores other, footprint.this, footprint.that⟩

theorem memories_onFile (f : File → File) (idx : Nat) (other : idx ≠ m.prog.fi) :
    (m.onFile f).memories[idx]? = m.memories[idx]? := by
  simp [Machine.memories, other.symm]

theorem Popped.stack_footprint {val : Word} {after : Stack} (popped : Popped cfg m.prog.stack val after)
    (word : m.prog.stack.base < m.prog.stack.sp) : Footprint cfg inst m (m.withStack after) := by
  apply popped.footprint word rfl
  · exact fun _ _ => rfl
  · exact fun _ => rfl
  · exact fun _ => rfl
  · exact fun _ => rfl

theorem Popped.file_footprint {val : Word} {after : Stack} (popped : Popped cfg m.prog.stack val after)
    (word : m.prog.stack.base < m.prog.stack.sp) (f : File → File) :
    Footprint cfg inst m ((m.withStack after).onFile f) := by
  apply popped.footprint word rfl
  · exact memories_onFile (m := m.withStack after) f
  · exact fun _ => rfl
  · exact fun _ => rfl
  · exact fun _ => rfl

end footprint

theorem heapSet_ok {heap heap' : Heap} {addr : Addr} {val : Word} (set : heapSet heap addr val = .ok heap') :
    addr.toNat < heap.mem.length ∧ heap' = { heap with mem := heap.mem.set addr.toNat val } := by
  unfold heapSet at set
  split at set
  next inside =>
    cases set
    exact ⟨inside, rfl⟩
  next => cases set

theorem memories_ei (m : Machine) (ei : UInt32) :
    (m.onFile fun file => { file with ei := ei }).memories = m.memories := by
  apply List.ext_getElem?
  intro idx
  by_cases here : m.prog.fi = idx
  · cases found : m.prog.files[idx]? <;> simp [Machine.memories, here, found]
  · simp [Machine.memories, here]

theorem jumpTo_memories {key : SymKey} {val val' : SymVal} {res : JumpResult} {m m' : Machine}
    (run : jumpTo key val m = .ok (res, val') m') : m'.memories = m.memories := by
  have holds : wp (jumpTo key val) (fun _ m' => m'.memories = m.memories) (fun _ _ => True) m := by
    unfold jumpTo
    simp only [wp_bind, wp_activeFile, wp_liftFault, implies_true, true_and]
    rintro file - ⟨_ | _, val⟩ -
    · simp only [wp_bind, wp_get, wp_liftFault, implies_true, true_and]
      rintro buf -
      split
      · exact rfl
      · simp only [wp_bind, wp_modify, wp_setEi, wp_pure]
        exact memories_ei (m.withFi buf.nextFi) buf.nextEi
      · exact rfl
    · simp only [wp_bind, wp_setEi, wp_pure]
      exact memories_ei m val.ei
  exact holds.returns run

theorem wp_jump {m : Machine} {post : JumpResult × SymVal → Machine → Prop} {stop : Stop → Machine → Prop}
    (key : SymKey) (val : SymVal) (faults : ∀ fault m', stop (.fault fault) m')
    (rest : ∀ res val m', (res ≠ .ok → m' = m) → Jumped m m' → m'.memories = m.memories → post (res, val) m') :
    wp (jumpTo key val) post stop m := by
  apply wp_iff.mpr
  constructor
  next =>
    intro result m' run
    obtain ⟨stays, jumped⟩ := jumpTo_ok run
    exact rest result.1 result.2 m' stays jumped (jumpTo_memories run)
  next =>
    intro e m' run
    obtain ⟨fault, same⟩ := jumpTo_error run
    exact same ▸ faults fault m'

section instructions

variable {cfg : Config} {inst : Inst} {m : Machine} (valid : m.prog.stack.Valid cfg)

include valid

def Treads (cfg : Config) (inst : Inst) (x : ExecM Unit) (m : Machine) : Prop :=
  wp x (fun _ m' => Footprint cfg inst m m') (Stopped cfg inst m) m

theorem execUnary_treads (writes : ∀ i, i + 1 = m.prog.stack.sp → Writes inst m i) (f : Word → Word) (pos : Pos) :
    Treads cfg inst (execUnary f cfg pos) m := by
  unfold Treads execUnary
  rw [wp_bind]
  apply wp_execSpop valid pos
  next => exact fun _ => stopped_same _ _
  next =>
    intro y mid word popped
    apply wp_execSpush popped.valid
    exact fun last pushed => unary_footprint popped word pushed writes

theorem operands_treads {rest : Word → Word → ExecM Unit} (pos : Pos)
    (both : ∀ y x mid after, m.prog.stack.base < m.prog.stack.sp → Popped cfg m.prog.stack y mid →
      mid.base < mid.sp → Popped cfg mid x after →
      wp (rest y x) (fun _ m' => Footprint cfg inst m m') (Stopped cfg inst m) (m.withStack after)) :
    Treads cfg inst (execSpop cfg pos >>= fun y => execSpop cfg pos >>= fun x => rest y x) m := by
  apply wp_twoPops valid pos
  next => exact fun _ => stopped_same _ _
  next => exact fun y mid word popped _ => stopped_stack _ _ (.popped word popped)
  next => exact both

theorem execBinary_treads (writes : ∀ i, i + 2 = m.prog.stack.sp → Writes inst m i) (f : Word → Word → Word)
    (pos : Pos) : Treads cfg inst (execBinary f cfg pos) m := by
  apply operands_treads valid pos
  intro y x mid after word popped word' popped'
  apply wp_execSpush (m := m.withStack after) popped'.valid
  exact fun last pushed => binary_footprint popped popped' word' pushed writes

theorem execAdd_treads (code : inst.code = .add) (pos : Pos) : Treads cfg inst (execAdd cfg pos) m := by
  apply operands_treads valid pos
  intro y x mid after word popped word' popped'
  simp only [wp_ite, wp_bind, wp_bumpSp, addOverflowError, wp_execErr]
  constructor
  next =>
    intro _
    apply wp_execSpush (m := m.withStack after) popped'.valid
    exact fun last pushed => binary_footprint popped popped' word' pushed (by simp [Writes, code])
  next => exact fun _ => stopped_retaken _ _ (.inl code) ⟨y, x, mid, after, word, popped, word', popped', rfl⟩

theorem execSub_treads (code : inst.code = .sub) (pos : Pos) : Treads cfg inst (execSub cfg pos) m := by
  apply operands_treads valid pos
  intro y x mid after word popped word' popped'
  simp only [wp_ite, wp_bind, wp_bumpSp, subUnderflowError, wp_execErr]
  constructor
  next =>
    intro _
    apply wp_execSpush (m := m.withStack after) popped'.valid
    exact fun last pushed => binary_footprint popped popped' word' pushed (by simp [Writes, code])
  next => exact fun _ => stopped_retaken _ _ (.inr code) ⟨y, x, mid, after, word, popped, word', popped', rfl⟩

theorem execPush_treads (code : inst.code = .push) :
    Treads cfg inst (execPush cfg inst) m := by
  have push : ∀ val, wp (execSpush cfg val) (fun _ m' => Footprint cfg inst m m') (Stopped cfg inst m) m :=
    fun val => wp_execSpush valid val fun after pushed => pushed.footprint (by simp [Writes, code])
  unfold Treads execPush
  cases inst.seg <;>
    simp only [wp_bind, wp_getStack, wp_getHeap, wp_ite, wp_getCell, wp_activeFile, wp_liftFault, wp_assert,
      segOverflowError, stackAddrOverflowError, heapAddrOverflowError, pointerSegmentError, wp_execErr,
      stopped_fault, stopped_same, push, implies_true, and_self]

theorem execPop_treads (code : inst.code = .pop) : Treads cfg inst (execPop cfg inst) m := by
  have underflow : m.prog.stack.sp ≤ m.prog.stack.base → Stopped cfg inst m
      (.err { pos := inst.pos, text := "stack underflow" }) (m.withIo (cleanStdout m.io)) :=
    fun _ => stopped_same _ _
  -- The address is checked before the word is popped: what is refused has changed nothing.
  unfold Treads execPop
  cases seg : inst.seg with
  | arg =>
    simp only [wp_bind, wp_getStack, wp_getHeap, wp_ite, segOverflowError, stackAddrOverflowError, wp_execErr,
      stopped_same, implies_true, and_true]
    intro _
    apply wp_execSpop valid _ underflow
    intro val after word popped
    simp only [wp_setCell, stopped_fault, implies_true, true_and]
    exact fun _ => target_footprint popped word code ⟨code, .inl ⟨seg, rfl⟩⟩
  | loc =>
    simp only [wp_bind, wp_getStack, wp_getHeap, wp_ite, segOverflowError, stackAddrOverflowError, wp_execErr,
      stopped_same, implies_true, and_true]
    intro _
    apply wp_execSpop valid _ underflow
    intro val after word popped
    simp only [wp_setCell, stopped_fault, implies_true, true_and]
    exact fun _ => target_footprint popped word code ⟨code, .inr ⟨seg, rfl⟩⟩
  | stat =>
    simp only [wp_bind, wp_getStack, wp_getHeap, wp_ite, segOverflowError, wp_execErr, stopped_same,
      implies_true, and_true]
    intro _
    apply wp_execSpop valid _ underflow
    intro val after word popped
    -- The statics belong to the active file; the other files keep their memories.
    simp only [wp_activeFile, wp_setMem, stopped_fault, implies_true, true_and]
    exact fun file _ => popped.file_footprint word _
  | const =>
    simp only [wp_bind, wp_getStack, wp_getHeap]
    apply wp_execSpop valid _ underflow
    intro val after word popped
    exact popped.stack_footprint word
  | this =>
    simp only [wp_bind, wp_getStack, wp_getHeap, wp_ite, heapAddrOverflowError, wp_execErr, stopped_same,
      implies_true, and_true]
    intro _
    apply wp_execSpop valid _ underflow
    intro val after word popped
    simp only [wp_liftFault, wp_setHeap, stopped_fault, implies_true, true_and]
    intro heap set
    obtain ⟨-, rfl⟩ := heapSet_ok set
    exact (popped.stack_footprint word).withMem (.inl ⟨code, .inl seg⟩) _
  | that =>
    simp only [wp_bind, wp_getStack, wp_getHeap, wp_ite, heapAddrOverflowError, wp_execErr, stopped_same,
      implies_true, and_true]
    intro _
    apply wp_execSpop valid _ underflow
    intro val after word popped
    simp only [wp_liftFault, wp_setHeap, stopped_fault, implies_true, true_and]
    intro heap set
    obtain ⟨-, rfl⟩ := heapSet_ok set
    exact (popped.stack_footprint word).withMem (.inl ⟨code, .inr seg⟩) _
  | ptr =>
    simp only [wp_bind, wp_getStack, wp_getHeap, wp_ite, pointerSegmentError, wp_execErr, stopped_same,
      implies_true, and_true]
    constructor
    next =>
      intro zero
      apply wp_execSpop valid _ underflow
      intro val after word popped
      simp only [wp_setHeap]
      apply popped.footprint word rfl
      · exact fun _ _ => rfl
      · exact fun _ => rfl
      · exact fun other => absurd ⟨code, seg, UInt16.toNat_inj.mp zero⟩ other
      · exact fun _ => rfl
    next =>
      intro _ one
      apply wp_execSpop valid _ underflow
      intro val after word popped
      simp only [wp_setHeap]
      apply popped.footprint word rfl
      · exact fun _ _ => rfl
      · exact fun _ => rfl
      · exact fun _ => rfl
      · exact fun other => absurd ⟨code, seg, UInt16.toNat_inj.mp one⟩ other
  | tmp =>
    simp only [wp_bind, wp_getStack, wp_getHeap, wp_ite, segOverflowError, wp_execErr, stopped_same,
      implies_true, and_true]
    intro _
    apply wp_execSpop valid _ underflow
    intro val after word popped
    simp only [wp_activeFile, wp_setMem, stopped_fault, implies_true, true_and]
    exact fun file _ => popped.file_footprint word _

theorem execGoto_treads (pos : Pos) :
    Treads cfg inst (execGoto pos) m := by
  unfold Treads execGoto
  simp only [wp_bind, wp_activeInst, stopped_fault, implies_true, true_and]
  intro active _
  apply wp_jump _ _ (fun _ _ => stopped_fault _ _)
  intro res val m' stays jumped memories
  cases res with
  | ok => exact jumped.footprint valid memories
  | err =>
    have same := stays (by decide)
    simp only [same, ctrlFlowError, wp_ite, wp_execErr, stopped_same, implies_true, and_self]
  | multDef =>
    have same := stays (by decide)
    simp only [same, defErr, wp_execErr, stopped_same]

theorem execIfGoto_treads (pos : Pos) : Treads cfg inst (execIfGoto cfg pos) m := by
  unfold Treads execIfGoto
  rw [wp_bind]
  apply wp_execSpop valid pos
  next => exact fun _ => stopped_same _ _
  next =>
    intro val after word popped
    simp only [wp_ite, wp_bind, wp_activeInst, wp_pure, stopped_fault, implies_true, true_and]
    constructor
    next =>
      intro _ active _
      apply wp_jump _ _ (fun _ _ => stopped_fault _ _)
      intro res val m' stays jumped memories
      cases res with
      | ok =>
        apply popped.footprint word jumped.stack
        · exact fun idx _ => congrArg (·[idx]?) memories
        · exact fun _ => congrArg Heap.mem jumped.heap
        · exact fun _ => congrArg Heap.this jumped.heap
        · exact fun _ => congrArg Heap.that jumped.heap
      | err =>
        -- The condition is popped already, and an error puts it back.
        have same := stays (by decide)
        simp only [same, wp_bind, wp_bumpSp, ctrlFlowError, wp_ite, wp_execErr]
        exact ⟨fun _ => stopped_stack _ _ (.putBack word popped), fun _ => stopped_stack _ _ (.putBack word popped)⟩
      | multDef =>
        have same := stays (by decide)
        simp only [same, wp_bind, wp_bumpSp, defErr, wp_execErr]
        exact stopped_stack _ _ (.putBack word popped)
    next => exact fun _ => popped.stack_footprint word

theorem execBuiltinPrintChar_treads (pos : Pos) : Treads cfg inst (execBuiltinPrintChar cfg pos) m := by
  unfold Treads execBuiltinPrintChar
  rw [wp_bind]
  apply wp_execSpop valid pos
  next => exact fun _ => stopped_same _ _
  next =>
    intro val after word popped
    simp only [wp_bind, wp_get, wp_setIo]
    exact (popped.stack_footprint word).withIo _

theorem execBuiltinPrintNum_treads (pos : Pos) : Treads cfg inst (execBuiltinPrintNum cfg pos) m := by
  unfold Treads execBuiltinPrintNum
  rw [wp_bind]
  apply wp_execSpop valid pos
  next => exact fun _ => stopped_same _ _
  next =>
    intro val after word popped
    simp only [wp_bind, wp_get, wp_setIo]
    exact (popped.stack_footprint word).withIo _

theorem execBuiltinPrintStr_treads (pos : Pos) : Treads cfg inst (execBuiltinPrintStr cfg pos) m := by
  apply operands_treads valid pos
  intro addr nchars mid after word popped word' popped'
  simp only [wp_bind, wp_getHeap, wp_get, wp_liftFault, wp_setIo, stopped_fault, implies_true, true_and]
  intro io _
  have sp := popped.sp
  have sp' := popped'.sp
  have base : mid.base = m.prog.stack.base := congrArg Segments.base popped.segments
  have below : ∀ i < after.sp, after.ops[i]? = m.prog.stack.ops[i]? :=
    fun i inside => (popped'.below i (by omega)).trans (popped.below i (by omega))
  have kept : Footprint cfg inst m (m.withStack after) := by
    apply Footprint.of_low popped'.valid (popped'.segments.trans popped.segments) below
    · omega
    · omega
    · exact .inl rfl
    · exact fun _ _ => rfl
    · exact fun _ => rfl
    · exact fun _ => rfl
    · exact fun _ => rfl
  exact kept.withIo io

theorem execBuiltinReadChar_treads (code : inst.code = .builtinReadChar) :
    Treads cfg inst (execBuiltinReadChar cfg) m := by
  have stores : Writes inst m m.prog.stack.sp := by simp [Writes, code]
  unfold Treads execBuiltinReadChar
  simp only [wp_bind, wp_get]
  split
  next => exact wp_execSpush valid _ fun after pushed => pushed.footprint stores
  next c stdin _ =>
    have valid' : (m.withIo { m.io with stdin := stdin }).prog.stack.Valid cfg := valid
    simp only [wp_bind, wp_setIo]
    exact wp_execSpush valid' _ fun after pushed => (pushed.footprint (m := m) stores).withIo _

theorem execBuiltinReadNum_treads (code : inst.code = .builtinReadNum) (pos : Pos) :
    Treads cfg inst (execBuiltinReadNum cfg pos) m := by
  have stores : Writes inst m m.prog.stack.sp := by simp [Writes, code]
  have stopped (stop : Stop) (io io' : Io) : Stopped cfg inst m stop ((m.withIo io).withIo io') :=
    stopped_same stop io'
  unfold Treads execBuiltinReadNum
  simp only [wp_bind, wp_get, wp_setIo]
  split
  next => exact stopped _ _ _
  next =>
    simp only [wp_bind, wp_liftFault, wp_setIo, readNumCharError, wp_execErr, stopped_fault, implies_true, true_and]
    exact fun stdin _ => stopped _ _ _
  next =>
    simp only [wp_ite, readNumOverflowError, wp_execErr]
    constructor
    next => exact fun _ => stopped _ _ _
    next =>
      intro _
      have valid' : (m.withIo { m.io with stdin := (scanfUint m.io.stdin).2 }).prog.stack.Valid cfg := valid
      exact wp_execSpush valid' _ fun after pushed => (pushed.footprint (m := m) stores).withIo _

theorem execBuiltinReadStr_treads (code : inst.code = .builtinReadStr) (pos : Pos) :
    Treads cfg inst (execBuiltinReadStr cfg pos) m := by
  unfold Treads execBuiltinReadStr
  rw [wp_bind]
  apply wp_execSpop valid pos
  next => exact fun _ => stopped_same _ _
  next =>
    intro addr mid word popped
    simp only [wp_bind, wp_get]
    split
    next => exact stopped_stack _ _ (.popped word popped)
    next =>
      simp only [wp_bind, wp_setIo, wp_ite, heapAddrOverflowError, wp_activeInst, wp_execErr, wp_getHeap,
        wp_setHeap, stopped_fault, implies_true, true_and]
      constructor
      next => exact fun _ active _ => stopped_stack _ _ (.popped word popped)
      next =>
        intro _
        apply wp_execSpush (m := ((m.withStack mid).withIo _).withHeap _) popped.valid
        intro last pushed
        have stored : Footprint cfg inst m (m.withStack last) :=
          unary_footprint popped word pushed (by simp [Writes, code])
        exact (stored.withMem (.inr code) _).withIo _

theorem execInst_treads (here : m.inst = some inst)
    (call : inst.code ≠ .call) (ret : inst.code ≠ .ret) : Treads cfg inst (execInst cfg) m := by
  unfold Treads execInst
  simp only [wp_bind, wp_activeInst, here, reduceCtorEq, false_implies, true_and, Option.some.injEq, forall_eq']
  cases code : inst.code with
  | none =>
    simp only [wp_execErr]
    exact stopped_same _ _
  | push => exact execPush_treads valid code
  | pop => exact execPop_treads valid code
  | add => exact execAdd_treads valid code inst.pos
  | sub => exact execSub_treads valid code inst.pos
  | neg => exact execUnary_treads valid (by simp [Writes, code]) _ inst.pos
  | and => exact execBinary_treads valid (by simp [Writes, code]) _ inst.pos
  | or => exact execBinary_treads valid (by simp [Writes, code]) _ inst.pos
  | not => exact execUnary_treads valid (by simp [Writes, code]) _ inst.pos
  | eq => exact execBinary_treads valid (by simp [Writes, code]) _ inst.pos
  | gt => exact execBinary_treads valid (by simp [Writes, code]) _ inst.pos
  | lt => exact execBinary_treads valid (by simp [Writes, code]) _ inst.pos
  | goto => exact execGoto_treads valid inst.pos
  | ifGoto => exact execIfGoto_treads valid inst.pos
  | call => exact absurd code call
  | ret => exact absurd code ret
  | builtinPrintChar => exact execBuiltinPrintChar_treads valid inst.pos
  | builtinPrintNum => exact execBuiltinPrintNum_treads valid inst.pos
  | builtinPrintStr => exact execBuiltinPrintStr_treads valid inst.pos
  | builtinReadChar => exact execBuiltinReadChar_treads valid code
  | builtinReadNum => exact execBuiltinReadNum_treads valid code inst.pos
  | builtinReadStr => exact execBuiltinReadStr_treads valid code inst.pos

end instructions

/-- What an instruction other than `call` and `return` leaves alone, whether or not it succeeds. -/
structure Spared (inst : Inst) (m m' : Machine) : Prop where
  lcl : m'.prog.stack.lcl = m.prog.stack.lcl
  lclLen : m'.prog.stack.lclLen = m.prog.stack.lclLen
  arg : m'.prog.stack.arg = m.prog.stack.arg
  argLen : m'.prog.stack.argLen = m.prog.stack.argLen
  saved : ∀ i < m.prog.stack.lcl, m.prog.stack.lcl ≤ i + 8 → m'.prog.stack.ops[i]? = m.prog.stack.ops[i]?
  cells : ∀ i < m.prog.stack.lcl + m.prog.stack.lclLen, ¬PopTarget inst m i →
    m'.prog.stack.ops[i]? = m.prog.stack.ops[i]?
  base_le : m.prog.stack.lcl + m.prog.stack.lclLen ≤ m'.prog.stack.sp
  memory : ∀ idx, idx ≠ m.prog.fi → m'.memories[idx]? = m.memories[idx]?
  heap : ¬StoresHeap inst → m'.prog.heap.mem = m.prog.heap.mem
  this : ¬SetsPointer inst 0 → m'.prog.heap.this = m.prog.heap.this
  that : ¬SetsPointer inst 1 → m'.prog.heap.that = m.prog.heap.that

section spared

variable {cfg : Config} {inst : Inst} {m m' : Machine}

theorem Spared.of_segments (segments : m'.prog.stack.segments = m.prog.stack.segments)
    (saved : ∀ i < m.prog.stack.lcl, m.prog.stack.lcl ≤ i + 8 → m'.prog.stack.ops[i]? = m.prog.stack.ops[i]?)
    (cells : ∀ i < m.prog.stack.base, ¬PopTarget inst m i → m'.prog.stack.ops[i]? = m.prog.stack.ops[i]?)
    (base_le : m.prog.stack.base ≤ m'.prog.stack.sp)
    (memory : ∀ idx, idx ≠ m.prog.fi → m'.memories[idx]? = m.memories[idx]?)
    (heap : ¬StoresHeap inst → m'.prog.heap.mem = m.prog.heap.mem)
    (this : ¬SetsPointer inst 0 → m'.prog.heap.this = m.prog.heap.this)
    (that : ¬SetsPointer inst 1 → m'.prog.heap.that = m.prog.heap.that) : Spared inst m m' where
  lcl := congrArg Segments.lcl segments
  lclLen := congrArg Segments.lclLen segments
  arg := congrArg Segments.arg segments
  argLen := congrArg Segments.argLen segments
  saved := saved
  cells := cells
  base_le := base_le
  memory := memory
  heap := heap
  this := this
  that := that

theorem execPop_inside (valid : m.prog.stack.Valid cfg) (seg : inst.seg = .arg) :
    wp (execPop cfg inst) (fun _ _ => inst.offset.toNat < m.prog.stack.argLen) (fun _ _ => True) m := by
  unfold execPop
  rw [seg]
  simp only [wp_bind, wp_getStack, wp_getHeap, wp_ite, segOverflowError, stackAddrOverflowError, wp_execErr,
    implies_true, and_true]
  intro inside
  apply wp_execSpop valid _ (fun _ => trivial)
  intro val after _ _
  simp only [wp_setCell, implies_true, true_and]
  exact fun _ => inside.1

theorem popTarget_outside (valid : m.prog.stack.Valid cfg) (here : m.inst = some inst)
    (args : m.prog.stack.arg + m.prog.stack.argLen ≤ m.prog.stack.lcl - 8) (run : execInst cfg m = .ok () m') (i : Nat)
    (targeted : PopTarget inst m i) : i + 8 < m.prog.stack.lcl ∨ m.prog.stack.lcl ≤ i := by
  obtain ⟨code, named⟩ := targeted
  rcases named with ⟨seg, at_⟩ | ⟨_, at_⟩
  next =>
    have inside : wp (execInst cfg) (fun _ _ => inst.offset.toNat < m.prog.stack.argLen) (fun _ _ => True) m := by
      unfold execInst
      simp only [wp_bind, wp_activeInst, here, code, Option.some.injEq, forall_eq', implies_true, true_and]
      exact execPop_inside valid seg
    have := inside.returns run
    omega
  next => omega

theorem Failed.kept (failed : Failed cfg inst m m') (sound : m.prog.stack.base ≤ m.prog.stack.sp) :
    m'.prog.stack.segments = m.prog.stack.segments ∧
      (∀ i < m.prog.stack.base, m'.prog.stack.ops[i]? = m.prog.stack.ops[i]?) ∧
      m.prog.stack.base ≤ m'.prog.stack.sp := by
  rcases failed.stack with undone | ⟨_, retaken⟩
  next =>
    have base_le := undone.base_le sound
    exact ⟨undone.segments, fun i inside => (undone.cells (by omega)).2, base_le⟩
  next => exact ⟨retaken.segments, fun i inside => retaken.cells inside, retaken.sp ▸ sound⟩

/-- An instruction other than `call` and `return` spares all but its own part of the machine. -/
theorem execInst_spares (valid : m.prog.stack.Valid cfg)
    (sound : m.prog.stack.lcl + m.prog.stack.lclLen ≤ m.prog.stack.sp)
    (args : m.prog.stack.arg + m.prog.stack.argLen ≤ m.prog.stack.lcl - 8) (here : m.inst = some inst)
    (call : inst.code ≠ .call) (ret : inst.code ≠ .ret) :
    (∀ m', execInst cfg m = .ok () m' → Spared inst m m') ∧
      ∀ diag m', execInst cfg m = .error (.err diag) m' → Spared inst m m' := by
  have treads := execInst_treads valid here call ret
  constructor
  next =>
    intro m' run
    have footprint := treads.returns run
    apply Spared.of_segments footprint.segments
    · intro i below within
      apply footprint.below sound i (lt_of_lt_of_le below (lcl_le_base _))
      intro targeted
      -- Arguments and locals are the only cells below the base that an instruction can write.
      have := popTarget_outside valid here args run i targeted
      omega
    · exact footprint.below sound
    · exact footprint.base_le sound
    · exact footprint.memory
    · exact footprint.heap
    · exact footprint.this
    · exact footprint.that
  next =>
    intro diag m' run
    have failed := treads.stops run diag rfl
    obtain ⟨segments, cells, base_le⟩ := failed.kept sound
    apply Spared.of_segments segments
    · exact fun i below _ => cells i (lt_of_lt_of_le below (lcl_le_base _))
    · exact fun i inside _ => cells i inside
    · exact base_le
    · exact fun idx _ => congrArg (fun files => (files.map File.mem)[idx]?) failed.files
    · exact fun _ => congrArg Heap.mem failed.heap
    · exact fun _ => congrArg Heap.this failed.heap
    · exact fun _ => congrArg Heap.that failed.heap

end spared

theorem execInst_spares_popLocal :
    ∃ prog m m' inst,
      makeProg .unitTests 9 [{ fn := "a.vm", content := some (ascii
        "function Sys.init 1\npush constant 5\npop local 0\n") }] = .ok (some prog) ∧
      Reaches .unitTests (Machine.start prog []) m ∧ m.inst = some inst ∧ inst.code = .pop ∧
      execInst .unitTests m = .ok () m' ∧ Spared inst m m' := by
  have ran : ((programOf .unitTests "function Sys.init 1\npush constant 5\npop local 0\n").bind fun prog =>
      (Machine.start prog []).after .unitTests 3).map (fun m =>
        m.inst.any fun inst => decide (inst.code = .pop ∧ m.prog.stack.lcl + m.prog.stack.lclLen ≤ m.prog.stack.sp ∧
            m.prog.stack.arg + m.prog.stack.argLen ≤ m.prog.stack.lcl - 8) &&
          returnsWith (fun _ _ => true) (execInst .unitTests m)) = some true := by
    decide +kernel
  obtain ⟨m, bound, ready⟩ := Option.map_eq_some_iff.mp ran
  obtain ⟨prog, made, after⟩ := Option.bind_eq_some_iff.mp bound
  have reaches := Machine.after_reaches after
  have valid := (reaches.kept (start_kept (makeProg_stack (programOf_made made)) [])).valid
  obtain ⟨inst, here, ready⟩ := (Option.any_eq_true _ _).mp ready
  obtain ⟨fits, returns⟩ := (Bool.and_eq_true_iff).mp ready
  obtain ⟨code, sound, args⟩ := of_decide_eq_true fits
  obtain ⟨_, m', run, _⟩ := of_returnsWith returns
  have spared := execInst_spares valid sound args here (by rw [code]; decide) (by rw [code]; decide)
  exact ⟨prog, m, m', inst, programOf_made made, reaches, here, code, run, spared.1 m' run⟩

end Hvme
