import Hvme.Machine.Heap

set_option autoImplicit false

namespace Hvme

open Outcome Recording

/-- The word that a return reloads from `back` cells below its frame pointer; the returned word may
have been stored there before. -/
def Machine.reloaded (m : Machine) (back : Nat) : Option Word :=
  if m.frame - back = m.prog.stack.arg then m.top else m.prog.stack.ops[m.frame - back]?

instance (inst : Inst) (offset : UInt16) : Decidable (SetsPointer inst offset) :=
  inferInstanceAs (Decidable (_ ∧ _))

structure Pointers where
  this : Word
  that : Word

def logPointers (m _m' : Machine) (log : Pointers) : Pointers :=
  match m.inst with
  | none => log
  | some inst =>
    if SetsPointer inst 0 then { log with this := m.top.getD 0 }
    else if SetsPointer inst 1 then { log with that := m.top.getD 0 }
    else if inst.code = .ret then { this := (m.reloaded 2).getD 0, that := (m.reloaded 1).getD 0 }
    else log

/-- The word, if there is one, is an address of the heap or its end. -/
def Small (cell : Option Word) : Prop := ∀ word, cell = some word → word.toNat ≤ memHeapSize

instance : (cell : Option Word) → Decidable (Small cell)
  | none => isTrue (by rintro _ ⟨⟩)
  | some word => decidable_of_iff (word.toNat ≤ memHeapSize) (by simp [Small])

def Pointing (inst : Inst) (m : Machine) : Prop :=
  (SetsPointer inst 0 ∨ SetsPointer inst 1 → Small m.top) ∧
    (inst.code = .ret → Small (m.reloaded 2) ∧ Small (m.reloaded 1))

instance (inst : Inst) (m : Machine) : Decidable (Pointing inst m) := inferInstanceAs (Decidable (_ ∧ _))

/-- The pointers stay inside the heap, and pushing one pushes the word it was last given. -/
structure PointerLaw (cfg : Config) (m : Machine) (log : Pointers) : Prop where
  this_le : m.prog.heap.this.toNat ≤ memHeapSize
  that_le : m.prog.heap.that.toNat ≤ memHeapSize
  pushes_this : ∀ inst, m.inst = some inst → inst.code = .push → inst.seg = .ptr → inst.offset = 0 →
    ∃ m', execInst cfg m = .ok () m' ∧ Pushed cfg m.prog.stack log.this m'.prog.stack
  pushes_that : ∀ inst, m.inst = some inst → inst.code = .push → inst.seg = .ptr → inst.offset = 1 →
    ∃ m', execInst cfg m = .ok () m' ∧ Pushed cfg m.prog.stack log.that m'.prog.stack

structure Logged (cfg : Config) (m : Machine) (log : Pointers) : Prop where
  valid : m.prog.stack.Valid cfg
  this : m.prog.heap.this = log.this
  that : m.prog.heap.that = log.that

section pointers

variable {cfg : Config} {inst : Inst} {m m' : Machine} {log : Pointers}

theorem pop_pointer (valid : m.prog.stack.Valid cfg) (seg : inst.seg = .ptr) (run : execPop cfg inst m = .ok () m') :
    ∃ val, m.top = some val ∧
      (inst.offset = 0 ∧ m'.prog.heap = { m.prog.heap with this := val } ∨
        inst.offset = 1 ∧ m'.prog.heap = { m.prog.heap with that := val }) := by
  have holds : wp (execPop cfg inst) (fun _ m' => ∃ val, m.top = some val ∧
      (inst.offset = 0 ∧ m'.prog.heap = { m.prog.heap with this := val } ∨
        inst.offset = 1 ∧ m'.prog.heap = { m.prog.heap with that := val })) (fun _ _ => True) m := by
    unfold execPop
    rw [seg]
    simp only [wp_bind, wp_getStack, wp_getHeap, wp_ite, pointerSegmentError, wp_execErr, implies_true, and_true]
    constructor
    next =>
      intro zero
      apply wp_execSpop valid _ fun _ => trivial
      intro val after _ popped
      exact ⟨val, popped.top_eq, .inl ⟨UInt16.toNat_inj.mp zero, rfl⟩⟩
    next =>
      intro _ one
      apply wp_execSpop valid _ fun _ => trivial
      intro val after _ popped
      exact ⟨val, popped.top_eq, .inr ⟨UInt16.toNat_inj.mp one, rfl⟩⟩
  exact holds.returns run

theorem push_pointer (valid : m.prog.stack.Valid cfg) (here : m.inst = some inst) (code : inst.code = .push)
    (seg : inst.seg = .ptr) {word : Word} (small : word.toNat ≤ memHeapSize)
    (which : inst.offset = 0 ∧ m.prog.heap.this = word ∨ inst.offset = 1 ∧ m.prog.heap.that = word) :
    ∃ m', execInst cfg m = .ok () m' ∧ Pushed cfg m.prog.stack word m'.prog.stack := by
  have runs : wp (execPush cfg inst) (fun _ m' => Pushed cfg m.prog.stack word m'.prog.stack) (fun _ _ => False) m := by
    unfold execPush
    rw [seg]
    simp only [wp_bind, wp_getStack, wp_getHeap, wp_ite]
    rcases which with ⟨offset, rfl⟩ | ⟨offset, rfl⟩
    next => simpa [offset, small] using wp_execSpush valid _ fun _ pushed => pushed
    next => simpa [offset, small] using wp_execSpush valid _ fun _ pushed => pushed
  obtain ⟨_, m', run, pushed⟩ := runs.total
  exact ⟨m', execInst_push here code ▸ run, pushed⟩

theorem Returned.reloads (returned : Returned cfg m m') :
    m.reloaded 2 = some m'.prog.heap.this ∧ m.reloaded 1 = some m'.prog.heap.that := by
  have frame := returned.frame
  have below := m.frame_le
  have lcl_le := lcl_le_base m.prog.stack
  have word := returned.word
  have cell (back : Nat) (positive : 0 < back) : m.reloaded back = m'.prog.stack.ops[m.frame - back]? := by
    unfold Machine.reloaded
    split
    next at_ => rw [at_, returned.value]; rfl
    next other => rw [returned.below _ (by omega) other]
  exact ⟨(cell 2 (by omega)).trans returned.this, (cell 1 (by omega)).trans returned.that⟩

structure Repoints (inst : Inst) (m m' : Machine) : Prop where
  this : SetsPointer inst 0 → m.top = some m'.prog.heap.this
  that : SetsPointer inst 1 → m.top = some m'.prog.heap.that
  reloaded : inst.code = .ret → m.reloaded 2 = some m'.prog.heap.this ∧ m.reloaded 1 = some m'.prog.heap.that
  this_kept : ¬SetsPointer inst 0 → inst.code ≠ .ret → m'.prog.heap.this = m.prog.heap.this
  that_kept : ¬SetsPointer inst 1 → inst.code ≠ .ret → m'.prog.heap.that = m.prog.heap.that

theorem SetsPointer.popped {offset : UInt16} (sets : SetsPointer inst offset) (valid : m.prog.stack.Valid cfg)
    (here : m.inst = some inst) (run : execInst cfg m = .ok () m') :
    ∃ val, m.top = some val ∧ (offset = 0 ∧ m'.prog.heap.this = val ∨ offset = 1 ∧ m'.prog.heap.that = val) := by
  obtain ⟨code, seg, same⟩ := sets
  rw [execInst_pop here code] at run
  obtain ⟨val, top, stored⟩ := pop_pointer valid seg run
  rw [← same]
  rcases stored with ⟨zero, heap⟩ | ⟨one, heap⟩
  next => exact ⟨val, top, .inl ⟨zero, congrArg Heap.this heap⟩⟩
  next => exact ⟨val, top, .inr ⟨one, congrArg Heap.that heap⟩⟩

theorem Steps.repoints (steps : Steps cfg m m') (valid : m.prog.stack.Valid cfg) (here : m.inst = some inst) :
    Repoints inst m m' := by
  obtain ⟨mid, run, advances⟩ := steps.ran here
  have heap := advances.heap
  obtain ⟨other, mid', same, effect, advances'⟩ := steps.effect valid
  have heap' := advances'.heap
  cases here.symm.trans same
  -- `return` is the only instruction besides `pop pointer` that gives the pointers new words.
  by_cases call : inst.code = .call
  · have kept : m'.prog.heap = m.prog.heap := heap'.trans (effect.call call).heap
    have sets (offset : UInt16) : ¬SetsPointer inst offset := fun sets => by simp [sets.1] at call
    exact ⟨fun this => absurd this (sets 0), fun that => absurd that (sets 1), fun ret => by simp [call] at ret,
      fun _ _ => congrArg Heap.this kept, fun _ _ => congrArg Heap.that kept⟩
  · by_cases ret : inst.code = .ret
    · obtain ⟨this, that⟩ := (effect.ret ret).reloads
      have sets (offset : UInt16) : ¬SetsPointer inst offset := fun sets => by simp [sets.1] at ret
      exact ⟨fun this => absurd this (sets 0), fun that => absurd that (sets 1), fun _ => heap' ▸ ⟨this, that⟩,
        fun _ other => absurd ret other, fun _ other => absurd ret other⟩
    · have footprint := (execInst_treads valid here call ret).returns run
      constructor
      · intro sets
        obtain ⟨val, top, stored⟩ := sets.popped valid here run
        rcases stored with ⟨_, this⟩ | ⟨one, _⟩
        next => rw [top, heap, this]
        next => exact absurd one (by decide)
      · intro sets
        obtain ⟨val, top, stored⟩ := sets.popped valid here run
        rcases stored with ⟨zero, _⟩ | ⟨_, that⟩
        next => exact absurd zero (by decide)
        next => rw [top, heap, that]
      · exact fun is => absurd is ret
      · exact fun other _ => heap ▸ footprint.this other
      · exact fun other _ => heap ▸ footprint.that other

theorem Logged.steps (logged : Logged cfg m log) (steps : Steps cfg m m') :
    Logged cfg m' (logPointers m m' log) := by
  obtain ⟨inst, _, here, _, _⟩ := steps.effect logged.valid
  have valid := steps.valid logged.valid
  have repoints := steps.repoints logged.valid here
  have apart (zero : SetsPointer inst 0) : ¬SetsPointer inst 1 :=
    fun one => absurd (zero.2.2.symm.trans one.2.2) (by decide)
  unfold logPointers
  simp only [here]
  by_cases this : SetsPointer inst 0
  · rw [if_pos this]
    have ret : inst.code ≠ .ret := by simp [this.1]
    exact ⟨valid, by simp [repoints.this this], by rw [repoints.that_kept (apart this) ret, logged.that]⟩
  · rw [if_neg this]
    by_cases that : SetsPointer inst 1
    · rw [if_pos that]
      have ret : inst.code ≠ .ret := by simp [that.1]
      exact ⟨valid, by rw [repoints.this_kept this ret, logged.this], by simp [repoints.that that]⟩
    · rw [if_neg that]
      by_cases ret : inst.code = .ret
      · rw [if_pos ret]
        obtain ⟨this_eq, that_eq⟩ := repoints.reloaded ret
        exact ⟨valid, by simp [this_eq], by simp [that_eq]⟩
      · rw [if_neg ret]
        exact ⟨valid, by rw [repoints.this_kept this ret, logged.this],
          by rw [repoints.that_kept that ret, logged.that]⟩

theorem Logged.law (logged : Logged cfg m log) (this_le : m.prog.heap.this.toNat ≤ memHeapSize)
    (that_le : m.prog.heap.that.toNat ≤ memHeapSize) : PointerLaw cfg m log where
  this_le := this_le
  that_le := that_le
  pushes_this := fun _ here code seg offset =>
    push_pointer logged.valid here code seg (logged.this ▸ this_le) (.inl ⟨offset, logged.this⟩)
  pushes_that := fun _ here code seg offset =>
    push_pointer logged.valid here code seg (logged.that ▸ that_le) (.inr ⟨offset, logged.that⟩)

theorem Repoints.inside_iff (repoints : Repoints inst m m') (this_le : m.prog.heap.this.toNat ≤ memHeapSize)
    (that_le : m.prog.heap.that.toNat ≤ memHeapSize) :
    (m'.prog.heap.this.toNat ≤ memHeapSize ∧ m'.prog.heap.that.toNat ≤ memHeapSize) ↔ Pointing inst m := by
  constructor
  next =>
    -- Each pointer that was given a word now holds it, so the word is inside as the pointer is.
    rintro ⟨this, that⟩
    constructor
    next =>
      rintro (sets | sets) word top
      next => exact Option.some.inj ((repoints.this sets).symm.trans top) ▸ this
      next => exact Option.some.inj ((repoints.that sets).symm.trans top) ▸ that
    next =>
      intro ret
      obtain ⟨this_eq, that_eq⟩ := repoints.reloaded ret
      exact ⟨fun word top => Option.some.inj (this_eq.symm.trans top) ▸ this,
        fun word top => Option.some.inj (that_eq.symm.trans top) ▸ that⟩
  next =>
    rintro ⟨pops, reloads⟩
    by_cases ret : inst.code = .ret
    · obtain ⟨this_eq, that_eq⟩ := repoints.reloaded ret
      obtain ⟨this, that⟩ := reloads ret
      exact ⟨this _ this_eq, that _ that_eq⟩
    · constructor
      next =>
        by_cases sets : SetsPointer inst 0
        · exact pops (.inl sets) _ (repoints.this sets)
        · exact repoints.this_kept sets ret ▸ this_le
      next =>
        by_cases sets : SetsPointer inst 1
        · exact pops (.inr sets) _ (repoints.that sets)
        · exact repoints.that_kept sets ret ▸ that_le

end pointers

/-- Where every word given to the pointers is inside the heap, so are they in every machine
reached; and the first word given to them that is not takes them out of it. -/
theorem pointerLaw_iff {cfg : Config} {fuel : Nat} {srcs : List Source} {prog : Program}
    (made : makeProg cfg fuel srcs = .ok (some prog)) {stdin : List Byte} {m : Machine} {log : Pointers}
    (run : Recorded (Guarded cfg Pointing) logPointers (Machine.start prog stdin) { this := 0, that := 0 } m log) :
    PointerLaw cfg m log ∧ ∀ inst m', m.inst = some inst → Steps cfg m m' →
      (PointerLaw cfg m' (logPointers m m' log) ↔ Pointing inst m) := by
  have kept := start_kept (makeProg_stack made) stdin
  have heap : (Machine.start prog stdin).prog.heap = newHeap := (makeProg_fresh made).2
  obtain ⟨logged, this_le, that_le⟩ : Logged cfg m log ∧ m.prog.heap.this.toNat ≤ memHeapSize ∧
      m.prog.heap.that.toNat ≤ memHeapSize := by
    apply run.invariant
    next =>
      exact ⟨⟨kept.valid, congrArg Heap.this heap, congrArg Heap.that heap⟩, by rw [heap]; decide,
        by rw [heap]; decide⟩
    next =>
      rintro s s' log _ ⟨steps, meets⟩ ⟨logged, this_le, that_le⟩
      obtain ⟨inst, _, here, _, _⟩ := steps.effect logged.valid
      have repoints := steps.repoints logged.valid here
      exact ⟨logged.steps steps, (repoints.inside_iff this_le that_le).mpr (meets inst here)⟩
  refine ⟨logged.law this_le that_le, fun inst m' here steps => ?_⟩
  rw [← (steps.repoints logged.valid here).inside_iff this_le that_le]
  constructor
  next => exact fun law => ⟨law.this_le, law.that_le⟩
  next => exact fun inside => (logged.steps steps).law inside.1 inside.2

theorem pointerLaw_end :
    ∃ prog m m' inst log,
      makeProg .unitTests 9 [{ fn := "a.vm", content := some (ascii
        "function Sys.init 0\npush constant 4096\npop pointer 0\npush pointer 0\n") }] = .ok (some prog) ∧
      Recorded (Guarded .unitTests Pointing) logPointers (Machine.start prog []) { this := 0, that := 0 } m log ∧
      m.inst = some inst ∧ SetsPointer inst 0 ∧ Steps .unitTests m m' ∧
      PointerLaw .unitTests m' (logPointers m m' log) := by
  have ran : ((programOf .unitTests
      "function Sys.init 0\npush constant 4096\npop pointer 0\npush pointer 0\n").bind fun prog =>
      follow .unitTests Pointing 3 (Machine.start prog []) []).map (fun result =>
        result.1.inst.any fun inst => decide (SetsPointer inst 0 ∧ Pointing inst result.1) &&
          returnsWith (fun more _ => more) (execRound .unitTests result.1)) = some true := by
    decide +kernel
  obtain ⟨⟨m, callers⟩, bound, ready⟩ := Option.map_eq_some_iff.mp ran
  obtain ⟨prog, made, followed⟩ := Option.bind_eq_some_iff.mp bound
  obtain ⟨log, run⟩ := exists_recorded logPointers { this := 0, that := 0 } (Run.start.follow followed).guarded
  obtain ⟨inst, here, ready⟩ := (Option.any_eq_true _ _).mp ready
  obtain ⟨meets, returns⟩ := Bool.and_eq_true_iff.mp ready
  obtain ⟨sets, pointing⟩ := of_decide_eq_true meets
  obtain ⟨_, m', steps, rfl⟩ := of_returnsWith returns
  have law := ((pointerLaw_iff (programOf_made made) run).2 inst m' here steps).mpr pointing
  exact ⟨prog, m, m', inst, log, programOf_made made, run, here, sets, steps, law⟩

/-- A word beyond the heap is popped into a pointer, and pushing the pointer aborts. -/
theorem push_pointer_aborts :
    ∃ prog m m',
      makeProg .unitTests 9 [{ fn := "a.vm", content := some (ascii
        "function Sys.init 0\npush constant 4097\npop pointer 0\npush pointer 0\n") }] = .ok (some prog) ∧
      Reaches .unitTests (Machine.start prog []) m ∧ memHeapSize < m.prog.heap.this.toNat ∧
      execRound .unitTests m = .error (.fault .assertion) m' ∧ ∀ log, ¬PointerLaw .unitTests m log := by
  have ran : ((programOf .unitTests
      "function Sys.init 0\npush constant 4097\npop pointer 0\npush pointer 0\n").bind fun prog =>
      (Machine.start prog []).after .unitTests 4).map (fun m => decide (m.prog.heap.this = 4097) &&
        stopsWith (fun stop _ => decide (stop = .fault .assertion)) (execRound .unitTests m)) = some true := by
    decide +kernel
  obtain ⟨m, bound, ready⟩ := Option.map_eq_some_iff.mp ran
  obtain ⟨prog, made, after⟩ := Option.bind_eq_some_iff.mp bound
  obtain ⟨this, stops⟩ := Bool.and_eq_true_iff.mp ready
  obtain ⟨stop, m', aborts, failed⟩ := of_stopsWith stops
  obtain rfl := of_decide_eq_true failed
  have beyond : memHeapSize < m.prog.heap.this.toNat := by
    rw [of_decide_eq_true this]
    decide
  exact ⟨prog, m, m', programOf_made made, Machine.after_reaches after, beyond, aborts,
    fun log law => absurd law.this_le (Nat.not_le.mpr beyond)⟩

end Hvme
