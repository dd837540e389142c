import Hvme.Machine.Quiet

set_option autoImplicit false

namespace Hvme

open Outcome

def Machine.ei (m : Machine) : UInt32 := m.file.elim 0 File.ei

def Machine.saved (m : Machine) : List Word :=
  [m.ei.toUInt16, UInt16.ofNat m.prog.fi, UInt16.ofNat m.prog.stack.lcl, UInt16.ofNat m.prog.stack.lclLen,
    UInt16.ofNat m.prog.stack.arg, UInt16.ofNat m.prog.stack.argLen, m.prog.heap.this, m.prog.heap.that]

structure Called (cfg : Config) (inst : Inst) (m m' : Machine) : Prop where
  valid : m'.prog.stack.Valid cfg
  code : m'.code = m.code
  arg : m'.prog.stack.arg + inst.nargs.toNat = m.prog.stack.sp
  argLen : m'.prog.stack.argLen = inst.nargs.toNat
  lcl : m'.prog.stack.lcl = m.prog.stack.sp + 8
  sp : m'.prog.stack.sp = m'.prog.stack.base
  frame : ∀ k val, m.saved[k]? = some val → m'.prog.stack.ops[m.prog.stack.sp + k]? = some val
  locals : ∀ i, m'.prog.stack.lcl ≤ i → i < m'.prog.stack.base → m'.prog.stack.ops[i]? = some 0
  below : ∀ i < m.prog.stack.sp, m'.prog.stack.ops[i]? = m.prog.stack.ops[i]?
  jump : ∃ val next, jumpTo (mkKey inst.ident .func) SymVal.junk m = .ok (.ok, val) next ∧
    m'.prog.stack.lclLen = val.nlocals.toNat ∧
    m' = (next.onFile fun file => { file with ei := val.ei }).withStack m'.prog.stack

def Aborts (m : Machine) (stop : Stop) (m' : Machine) : Prop := ∀ diag, stop = .err diag → ∃ io, m' = m.withIo io

@[simp] theorem aborts_fault (m : Machine) (fault : Fault) (m' : Machine) : Aborts m (.fault fault) m' := by
  rintro _ ⟨⟩

@[simp] theorem aborts_withIo (m : Machine) (stop : Stop) (io : Io) : Aborts m stop (m.withIo io) :=
  fun _ _ => ⟨io, rfl⟩

theorem Aborts.stops {m m' : Machine} {stop : Stop} (aborts : Aborts m stop m') : Stops False m stop m' := by
  intro diag same
  obtain ⟨io, printed⟩ := aborts diag same
  rw [printed]
  exact stops_withIo stop io diag same

section call

theorem Machine.file_of_inst {m : Machine} {inst : Inst} (here : m.inst = some inst) : ∃ file, m.file = some file := by
  unfold Machine.inst at here
  obtain ⟨file, found, -⟩ := Option.bind_eq_some_iff.mp here
  exact ⟨file, found⟩

variable {cfg : Config} {m : Machine} {inst : Inst} (valid : m.prog.stack.Valid cfg) (here : m.inst = some inst)

include valid here

omit valid here in
theorem wp_push {post : Unit → Machine → Prop} {stop : Stop → Machine → Prop} {below stack : Stack}
    {vals : List Word} (stacked : Stacked cfg below vals stack) (val : Word)
    (rest : ∀ after, Stacked cfg below (vals ++ [val]) after → post () (m.withStack after)) :
    wp (execSpush cfg val) post stop (m.withStack stack) :=
  wp_execSpush (m := m.withStack stack) stacked.valid val fun after pushed => rest after (stacked.push pushed)

theorem wp_execCall {stop : Stop → Machine → Prop} (pos : Pos) (enough : inst.nargs.toNat ≤ m.prog.stack.sp)
    {val : SymVal} {next : Machine}
    (found : jumpTo (mkKey inst.ident .func) SymVal.junk m = .ok (.ok, val) next) :
    wp (execCall cfg pos) (fun _ m' => Called cfg inst m m') stop m := by
  obtain ⟨file, active⟩ := Machine.file_of_inst here
  have ei : m.ei = file.ei := by
    unfold Machine.ei
    rw [active]
    rfl
  have jumped := (jumpTo_ok found).2
  have start : Stacked cfg next.prog.stack [] next.prog.stack := Stacked.nil (jumped.stack ▸ valid)
  unfold execCall
  simp only [wp_bind, wp_activeInst, wp_activeFile, wp_getStack, wp_getHeap, wp_get, wp_ite, here, active,
    reduceCtorEq, false_implies, true_and, Option.some.injEq, forall_eq']
  refine ⟨fun many => absurd enough (Nat.not_le.mpr many), fun _ => ?_⟩
  rw [wp_of_ok found]
  rw [show next = next.withStack next.prog.stack from rfl]
  simp only [wp_bind]
  -- Eight words are saved; from here on the stack is the caller's with these on top.
  refine wp_push start _ fun _ frame => wp_push frame _ fun _ frame => wp_push frame _ fun _ frame =>
    wp_push frame _ fun _ frame => wp_push frame _ fun _ frame => wp_push frame _ fun _ frame =>
    wp_push frame _ fun _ frame => wp_push frame _ fun stack frame => ?_
  simp only [wp_getStack, wp_liftFault, wp_setStack, wp_setEi, Machine.withStack_stack,
    Machine.withStack_withStack]
  have sp := frame.sp
  rw [jumped.stack] at frame sp
  simp only [List.nil_append, List.cons_append, List.length_cons, List.length_nil] at frame sp
  have moved : ({ stack with
      arg := stack.sp - 8 - inst.nargs.toNat
      argLen := inst.nargs.toNat
      lcl := stack.sp
      lclLen := val.nlocals.toNat } : Stack).Valid cfg :=
    ⟨frame.valid.length_eq, frame.valid.blocks, frame.valid.sp_le⟩
  -- The locals are pushed in a loop, which cannot fail.
  obtain ⟨last, run, extended⟩ := pushLocals_valid val.nlocals.toNat moved
  have last_sp := extended.sp
  have arg : last.arg = stack.sp - 8 - inst.nargs.toNat := congrArg Segments.arg extended.segments
  have argLen : last.argLen = inst.nargs.toNat := congrArg Segments.argLen extended.segments
  have lcl : last.lcl = stack.sp := congrArg Segments.lcl extended.segments
  have lclLen : last.lclLen = val.nlocals.toNat := congrArg Segments.lclLen extended.segments
  have base : last.base = stack.sp + val.nlocals.toNat := congrArg₂ (· + ·) lcl lclLen
  simp only at last_sp
  refine ⟨by simp [run], ?_⟩
  rintro _ same
  cases run.symm.trans same
  refine {
    valid := extended.valid
    code := (code_onFile (next.withStack last) (fun file => { file with ei := val.ei }) fun _ => rfl).trans
      jumped.code
    arg := ?_
    argLen := argLen
    lcl := ?_
    sp := ?_
    frame := ?_
    locals := ?_
    below := ?_
    jump := ⟨val, next, found, lclLen, rfl⟩ }
  · simp only [Machine.onFile_stack, Machine.withStack_stack, arg]
    omega
  · simp only [Machine.onFile_stack, Machine.withStack_stack, lcl, sp]
  · simp only [Machine.onFile_stack, Machine.withStack_stack, base, last_sp]
  · intro k word saved
    have inside : k < 8 := (List.getElem?_eq_some_iff.mp saved).1
    have stacked := frame.words k word (by rwa [Machine.saved, ei] at saved)
    exact (extended.below _ (by simp only; omega)).trans stacked
  · intro i above inside
    simp only [Machine.onFile_stack, Machine.withStack_stack, lcl, base] at above inside
    exact extended.zeros i above inside
  · intro i inside
    exact (extended.below i (by simp only; omega)).trans (frame.below i inside)

theorem execCall_aborts (pos : Pos) :
    wp (execCall cfg pos) (fun _ m' => Called cfg inst m m') (Aborts m) m := by
  by_cases found : inst.nargs.toNat ≤ m.prog.stack.sp ∧
      ∃ val next, jumpTo (mkKey inst.ident .func) SymVal.junk m = .ok (.ok, val) next
  · obtain ⟨enough, val, next, found⟩ := found
    exact wp_execCall valid here pos enough found
  · obtain ⟨file, active⟩ := Machine.file_of_inst here
    unfold execCall
    simp only [wp_bind, wp_activeInst, wp_activeFile, wp_getStack, wp_getHeap, wp_get, wp_ite, here, active,
      reduceCtorEq, false_implies, true_and, Option.some.injEq, forall_eq', nargsError, wp_execErr, aborts_withIo,
      implies_true]
    intro enough
    -- A jump that finds nothing leaves the machine, so the error comes with nothing changed.
    cases run : jumpTo (mkKey inst.ident .func) SymVal.junk m with
    | error stop next =>
      obtain ⟨fault, rfl⟩ := jumpTo_error run
      exact (wp_of_error run).mpr (aborts_fault m fault next)
    | ok result next =>
      obtain ⟨res, val⟩ := result
      rw [wp_of_ok run]
      cases res with
      | ok => exact absurd ⟨Nat.not_lt.mp enough, val, next, run⟩ found
      | err =>
        obtain rfl := (jumpTo_ok run).1 (by decide)
        simp only [ctrlFlowError, wp_ite, wp_execErr, aborts_withIo, implies_true, and_self]
      | multDef =>
        obtain rfl := (jumpTo_ok run).1 (by decide)
        simp only [defErr, wp_execErr, aborts_withIo]

omit valid here in
theorem Called.heap {m' : Machine} (called : Called cfg inst m m') : m'.prog.heap = m.prog.heap := by
  obtain ⟨val, next, found, _, same⟩ := called.jump
  rw [same]
  exact (jumpTo_ok found).2.heap

theorem execCall_stops (pos : Pos) :
    wp (execCall cfg pos) (fun _ m' => Called cfg inst m m') (Stops False m) m :=
  (execCall_aborts valid here pos).mono (fun _ _ called => called) fun _ _ aborts => aborts.stops

end call

def Machine.frame (m : Machine) : Nat := (UInt16.ofNat m.prog.stack.lcl).toNat

theorem Machine.frame_le (m : Machine) : m.frame ≤ m.prog.stack.lcl := by
  rw [Machine.frame, UInt16.toNat_ofNat']
  exact Nat.mod_le _ _

structure Returned (cfg : Config) (m m' : Machine) : Prop where
  valid : m'.prog.stack.Valid cfg
  code : m'.code = m.code
  word : m.prog.stack.base < m.prog.stack.sp
  sp : m'.prog.stack.sp = m.prog.stack.arg + 1
  value : m'.prog.stack.ops[m.prog.stack.arg]? = m.prog.stack.ops[m.prog.stack.sp - 1]?
  below : ∀ i < m.prog.stack.sp, i ≠ m.prog.stack.arg → m'.prog.stack.ops[i]? = m.prog.stack.ops[i]?
  frame : 8 ≤ m.frame
  jump : ∃ ei fi : Word, m.prog.stack.ops[m.frame - 8]? = some ei ∧ m.prog.stack.ops[m.frame - 7]? = some fi ∧
    m'.prog.fi = fi.toNat ∧ ∃ file, m'.file = some file ∧ file.ei = ei.toUInt32
  segments : ∃ lcl lclLen arg argLen : Word,
    m'.prog.stack.ops[m.frame - 6]? = some lcl ∧ m'.prog.stack.ops[m.frame - 5]? = some lclLen ∧
    m'.prog.stack.ops[m.frame - 4]? = some arg ∧ m'.prog.stack.ops[m.frame - 3]? = some argLen ∧
    m'.prog.stack.segments =
      { arg := arg.toNat, argLen := argLen.toNat, lcl := lcl.toNat, lclLen := lclLen.toNat }
  this : m'.prog.stack.ops[m.frame - 2]? = some m'.prog.heap.this
  that : m'.prog.stack.ops[m.frame - 1]? = some m'.prog.heap.that

structure Machine.Returnable (m : Machine) : Prop where
  word : m.prog.stack.base < m.prog.stack.sp
  frame : 8 ≤ m.frame
  arg : m.prog.stack.arg < m.prog.stack.sp
  file : ∀ fi, m.prog.stack.ops[m.frame - 7]? = some fi → fi.toNat < m.prog.files.length

theorem Stack.Valid.cell {cfg : Config} {stack : Stack} (valid : stack.Valid cfg) {i : Nat}
    (inside : i < stack.sp) : ∃ val, stack.ops[i]? = some val := by
  have := valid.length_eq
  have := valid.sp_le
  exact ⟨_, List.getElem?_eq_getElem (by omega)⟩

theorem execRet_stops {cfg : Config} {m : Machine} (valid : m.prog.stack.Valid cfg) (pos : Pos) :
    wp (execRet cfg pos) (fun _ m' => Returned cfg m m')
      (fun stop m' => Stops False m stop m' ∧ ¬m.Returnable) m := by
  have frame : (UInt16.ofNat m.prog.stack.lcl).toNat = m.frame := rfl
  have absent {ops : List Word} (covers : m.prog.stack.sp ≤ ops.length) {back : Nat} (positive : 0 < back)
      (saved : back ≤ 8) : m.frame < back ∨ ops[m.frame - back]? = none → ¬m.Returnable := by
    intro missing returnable
    have := returnable.frame
    have := m.frame_le
    have := lcl_le_base m.prog.stack
    have := returnable.word
    rcases missing with short | none_
    · omega
    · rw [List.getElem?_eq_none_iff] at none_
      omega
  have covers : m.prog.stack.sp ≤ m.prog.stack.ops.length := valid.length_eq ▸ valid.sp_le
  unfold execRet
  simp only [wp_bind, wp_getStack, wp_frameCell, frame, stops_fault, true_and]
  -- Each read of the frame faults where the cell is missing, which a returnable machine excludes.
  refine ⟨absent covers (by omega) le_rfl, fun ei enough eiAt => ⟨absent covers (by omega) (by omega),
    fun fi _ fiAt => ?_⟩⟩
  refine wp_execSpop valid pos (fun empty => ⟨stops_withIo _ _, fun returnable =>
    absurd returnable.word (Nat.not_lt.mpr empty)⟩) fun val after word popped => ?_
  have sp := popped.sp
  have arg : after.arg = m.prog.stack.arg := congrArg Segments.arg popped.segments
  -- Even a pop that gives a block back leaves the words that are read after it.
  have remains : m.prog.stack.sp ≤ after.ops.length := by
    by_contra short
    have last := popped.below (m.prog.stack.sp - 1) (by omega)
    obtain ⟨top, some_⟩ := valid.cell (show m.prog.stack.sp - 1 < m.prog.stack.sp by omega)
    rw [some_, List.getElem?_eq_none (by omega)] at last
    cases last
  have covers : m.prog.stack.sp ≤ (after.ops.set after.arg val).length := by rwa [List.length_set]
  have below : ∀ i < m.prog.stack.sp, i ≠ m.prog.stack.arg →
      (after.ops.set after.arg val)[i]? = m.prog.stack.ops[i]? := by
    intro i inside other
    rw [List.getElem?_set_ne (by omega), popped.below i inside]
  simp only [wp_setCell, wp_setStack, wp_bind, wp_getHeap, wp_setHeap, wp_get, wp_ite, wp_modify, wp_setEi,
    wp_throw, Machine.withStack_stack, Machine.withHeap_stack, Machine.withStack_heap, Machine.withStack_withStack,
    stops_fault, true_and]
  refine ⟨fun outside returnable => ?_, fun inside => ?_⟩
  · have := returnable.arg
    omega
  refine ⟨absent covers (by omega) (by omega), fun that _ thatAt => ⟨absent covers (by omega) (by omega),
    fun this _ thisAt => ⟨absent covers (by omega) (by omega), fun argLen _ argLenAt =>
    ⟨absent covers (by omega) (by omega), fun arg' _ argAt => ⟨absent covers (by omega) (by omega),
    fun lclLen _ lclLenAt => ⟨absent covers (by omega) (by omega), fun lcl _ lclAt => ?_⟩⟩⟩⟩⟩⟩
  refine ⟨fun known => ?_, fun unknown returnable => absurd (returnable.file fi fiAt) unknown⟩
  obtain ⟨file, fileAt⟩ : ∃ file, m.prog.files[fi.toNat]? = some file :=
    ⟨_, List.getElem?_eq_getElem known⟩
  refine {
    valid := ⟨?_, popped.valid.blocks, ?_⟩
    code := code_onFile (m.withFi fi.toNat) (fun file => { file with ei := ei.toUInt32 }) fun _ => rfl
    word := word
    sp := congrArg (· + 1) arg
    value := ?_
    below := below
    frame := enough
    jump := ⟨ei, fi, eiAt, fiAt, rfl, { file with ei := ei.toUInt32 }, ?_, rfl⟩
    segments := ⟨lcl, lclLen, arg', argLen, lclAt, lclLenAt, argAt, argLenAt, rfl⟩
    this := thisAt
    that := thatAt }
  · exact (List.length_set ..).trans popped.valid.length_eq
  · have length_eq := popped.valid.length_eq
    simp only [Machine.onFile_stack]
    omega
  · have top := popped.top
    simp only [Machine.onFile_stack]
    rw [← arg, List.getElem?_set_self inside, ← top]
    congr 1
    omega
  · simp only [Machine.onFile_file]
    exact congrArg (Option.map _) fileAt

theorem execRet_aborts {cfg : Config} {m : Machine} (valid : m.prog.stack.Valid cfg) (pos : Pos) :
    wp (execRet cfg pos) (fun _ m' => m'.prog.heap.mem = m.prog.heap.mem) (Aborts m) m := by
  unfold execRet
  simp only [wp_bind, wp_getStack, wp_frameCell, aborts_fault, implies_true, true_and]
  intro ei _ _ fi _ _
  apply wp_execSpop valid pos
  next => exact fun _ => aborts_withIo _ _ _
  next =>
    intro val after _ _
    simp only [wp_setCell, wp_setStack, wp_bind, wp_getHeap, wp_setHeap, wp_get, wp_ite, wp_modify, wp_setEi,
      wp_throw, aborts_fault, implies_true, true_and, and_true]
    intros
    rfl

end Hvme
