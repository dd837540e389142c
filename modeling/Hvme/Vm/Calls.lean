import Hvme.Vm.Refinement

set_option autoImplicit false

namespace Hvme.Vm

open Outcome Execution

theorem words_leave (frame : Frame) (nargs : Nat) (callers : List (Caller Place)) :
    words (frame.leave nargs) callers ++ (frame.work.take nargs).reverse = words frame callers := by
  have whole : (frame.work.drop nargs).reverse ++ (frame.work.take nargs).reverse = frame.work.reverse := by
    rw [← List.reverse_append, List.take_append_drop]
  rw [words_eq, words_eq, ← whole]
  simp [Frame.leave]

section frames

variable {cfg : Config} {code : Code} {m m' : Machine} {inst : Inst} {s : State Place} (shown : Shows cfg code m s)

include shown

theorem Shows.restacked {stack : Stack} (heap : Heap) {frame : Frame} {callers : List (Caller Place)}
    (valid : stack.Valid cfg) (live : stack.live = words frame callers)
    (segments : stack.segments = segmentsOf frame callers)
    (pointers : heap = { mem := s.data.heap, this := frame.this, that := frame.that })
    (sound : Sound code frame callers) :
    Shows cfg code ((m.withStack stack).withHeap heap)
      { s with data := { s.data with frame := frame }, callers := callers } :=
  { shown with valid := valid, live := live, segments := segments, heap := pointers, sound := sound }

theorem Shows.saved (c : Caller Place) (loc : c.loc = s.loc)
    (args : c.frame.args.length = s.data.frame.args.length)
    (locals : c.frame.locals.length = s.data.frame.locals.length)
    (this : c.frame.this = s.data.frame.this) (that : c.frame.that = s.data.frame.that) :
    m.saved = savedWords c s.callers := by
  obtain ⟨file, active, ei⟩ := shown.file
  have index : m.ei.toUInt16 = UInt16.ofNat s.loc.ei := by
    rw [← ei, Machine.ei, active]
    exact UInt16.toNat_inj.mp (by rw [UInt32.toNat_toUInt16, UInt16.toNat_ofNat']; rfl)
  rw [Machine.saved, savedWords, loc, args, locals, this, that, index, shown.fi, shown.lcl, shown.lclLen, shown.arg,
    shown.argLen, shown.heap]
  rfl

theorem Shows.called {fi : Nat} {val : SymVal} {file : File} (here : m.inst = some inst)
    (called : Called cfg inst m m') (at_ : m.prog.files[fi]? = some file)
    (run : jumpTo (mkKey inst.ident .func) SymVal.junk m = .ok (.ok, val) (m.landed fi val))
    (enough : inst.nargs.toNat ≤ s.data.frame.work.length) :
    Shows cfg code m'
      { loc := { fi := fi, ei := val.ei.toNat }
        data := { s.data with frame := s.data.frame.enter inst.nargs.toNat val.nlocals }
        callers := { loc := s.loc, frame := s.data.frame.leave inst.nargs.toNat } :: s.callers } := by
  obtain ⟨val', next, found, lclLen, same⟩ := called.jump
  cases run.symm.trans found
  have depth := shown.sp
  have length := Stack.live_length shown.valid
  have base : m'.prog.stack.base = m'.prog.stack.lcl + m'.prog.stack.lclLen := rfl
  have arg := called.arg
  have lcl := called.lcl
  have sp := called.sp
  rw [State.depth, State.lcl] at depth
  have jumped := shown.atPlace at_ val.ei rfl
  have placed := jumped.atPlace (Machine.landed_file at_) val.ei rfl
  rw [same]
  refine placed.restacked m.prog.heap called.valid ?_ ?_ shown.heap ?_
  · have saved := shown.saved { loc := s.loc, frame := s.data.frame.leave inst.nargs.toNat } rfl rfl rfl rfl rfl
    have args := words_leave s.data.frame inst.nargs.toNat s.callers
    rw [words, ← List.append_assoc, Frame.enter, args, ← shown.live, ← saved]
    have saved_length : m.saved.length = 8 := rfl
    apply Stack.live_eq
    · simp only [List.length_append, List.length_replicate, List.reverse_nil, List.length_nil, saved_length]
      omega
    · intro i inside
      by_cases below : i < m.prog.stack.sp
      · rw [called.below i below, Stack.live_getElem below, List.getElem?_append_left (by omega)]
      · obtain ⟨k, rfl⟩ : ∃ k, i = m.prog.stack.sp + k := ⟨i - m.prog.stack.sp, by omega⟩
        rw [List.getElem?_append_right (by omega), length, Nat.add_sub_cancel_left]
        by_cases frame : k < 8
        · have word := List.getElem?_eq_getElem (saved_length ▸ frame : k < m.saved.length)
          rw [List.getElem?_append_left (by omega), called.frame k _ word, word]
        · rw [List.getElem?_append_right (by omega), List.reverse_nil, List.append_nil, List.getElem?_replicate,
            if_pos (by omega)]
          exact called.locals _ (by omega) (by omega)
  · ext
    · simp only [Stack.segments, segmentsOf, argAbove, Frame.leave, List.length_drop]
      omega
    · simp only [Stack.segments, segmentsOf, Frame.enter, List.length_reverse, List.length_take, called.argLen]
      omega
    · simp only [Stack.segments, segmentsOf, lclAbove, Frame.enter, Frame.leave, List.length_reverse, List.length_take,
        List.length_drop]
      omega
    · simp only [Stack.segments, segmentsOf, Frame.enter, List.length_replicate, lclLen]
  · refine ⟨?_, ?_, ⟨inst, shown.fetch.trans here⟩, shown.sound.congr rfl rfl⟩
    · simp only [Frame.enter, List.length_reverse, List.length_take]
      have := inst.nargs.toNat_lt
      omega
    · simp only [Frame.enter, List.length_replicate]
      exact val.nlocals.toNat_lt

end frames

theorem Sound.small {code : Code} {frame : Frame} {callers : List (Caller Place)} (sound : Sound code frame callers) :
    frame.args.length < 2 ^ 16 ∧ frame.locals.length < 2 ^ 16 := by
  cases callers with
  | nil =>
    rw [sound.1, sound.2]
    exact ⟨Nat.two_pow_pos 16, Nat.two_pow_pos 16⟩
  | cons c rest => exact ⟨sound.1, sound.2.1⟩

theorem argAbove_le_lclAbove {Loc : Type} (nargs : Nat) (callers : List (Caller Loc)) :
    argAbove callers ≤ lclAbove nargs callers := by
  cases callers with
  | nil => exact le_rfl
  | cons c rest =>
    rw [lclAbove_cons]
    omega

section returns

variable {cfg : Config} {code : Code} {m : Machine} {inst : Inst} {s : State Place} (shown : Shows cfg code m s)
  {c : Caller Place} {rest : List (Caller Place)} (callers : s.callers = c :: rest)

include shown callers

theorem Shows.frameCell (back : Nat) (some_ : 0 < back) (saved : back ≤ 8) :
    back ≤ m.prog.stack.lcl ∧ m.prog.stack.lcl - back < m.prog.stack.sp ∧
      m.prog.stack.ops[m.prog.stack.lcl - back]? = (savedWords c rest)[8 - back]? := by
  have length : (savedWords c rest).length = 8 := rfl
  have sp := shown.sp
  have lcl := shown.lcl
  rw [State.depth] at sp
  rw [State.lcl, callers, lclAbove_cons, argAbove, ← words_length] at lcl
  have inside : m.prog.stack.lcl - back < m.prog.stack.sp := by
    rw [sp, ← shown.lcl]
    omega
  refine ⟨by omega, inside, ?_⟩
  -- The saved words lie between the caller's words with the arguments and the locals.
  rw [shown.getElem inside, callers, words, ← List.append_assoc,
    show m.prog.stack.lcl - back = 8 - back + (words c.frame rest ++ s.data.frame.args).length by
      rw [List.length_append]; omega,
    getElem_middle (by omega)]

theorem Shows.returned {val : Word} {work : List Word} {after : Stack} (stack : Stack) (popped : Popped cfg m.prog.stack val after)
    (top : s.data.frame.work = val :: work) (ops : stack.ops = after.ops.set after.arg val) (len : stack.len = after.len)
    (sp : stack.sp = after.arg + 1)
    (segments : stack.segments = segmentsOf c.frame rest) :
    Shows cfg code
      ((m.withStack stack).withHeap { m.prog.heap with this := c.frame.this, that := c.frame.that })
      { s with data := { s.data with frame := { c.frame with work := val :: c.frame.work } }, callers := rest } := by
  have sound := shown.sound
  rw [callers] at sound
  have arg : after.arg = (words c.frame rest).length := by
    have same : after.arg = m.prog.stack.arg := congrArg Segments.arg popped.segments
    rw [same, shown.arg, callers, argAbove, words_length]
  have arg_lt : after.arg < m.prog.stack.sp := by
    have frame := (shown.frameCell callers 8 (by omega) le_rfl).1
    have lcl := shown.lcl
    have above := shown.sp
    rw [State.depth] at above
    rw [State.lcl, callers, lclAbove_cons, argAbove, ← words_length] at lcl
    rw [above, ← shown.lcl]
    omega
  have room : after.arg < after.ops.length := by
    have length_eq := popped.valid.length_eq
    have sp_le := popped.valid.sp_le
    have popped_sp := popped.sp
    have base := shown.base
    have lcl_le := lcl_le_base m.prog.stack
    have lcl := shown.lcl
    rw [State.lcl, callers, lclAbove_cons, argAbove, ← words_length] at lcl
    rw [top, List.length_cons] at base
    omega
  refine shown.restacked { m.prog.heap with this := c.frame.this, that := c.frame.that }
    ⟨?_, ?_, ?_⟩ ?_ ?_ ?_ ?_
  · rw [ops, len, List.length_set]
    exact popped.valid.length_eq
  · rw [len]
    exact popped.valid.blocks
  · have length_eq := popped.valid.length_eq
    omega
  · rw [words_push]
    apply Stack.live_eq
    · rw [List.length_append, ← arg, sp]
      rfl
    -- The returned word is put where the first argument was, and what lies below is the caller's.
    · intro i inside
      rw [ops]
      by_cases here : i = after.arg
      · rw [here, List.getElem?_set_self room, arg, List.getElem?_concat_length]
      · have below : i < (words c.frame rest).length := by omega
        rw [List.getElem?_set_ne (Ne.symm here), popped.below i (by omega), shown.getElem (by omega), callers, words,
          List.getElem?_append_left below, List.getElem?_append_left below]
  · exact segments
  · rw [shown.heap]
  · exact sound.2.2.2.congr rfl rfl

end returns

def Stack.afterReturn (after : Stack) (val lcl lclLen arg argLen : Word) : Stack :=
  { after with
    ops := after.ops.set after.arg val
    sp := after.arg + 1
    arg := arg.toNat
    argLen := argLen.toNat
    lcl := lcl.toNat
    lclLen := lclLen.toNat }

theorem wp_execRet {cfg : Config} {m : Machine} {post : Unit → Machine → Prop} {stop : Stop → Machine → Prop}
    (valid : m.prog.stack.Valid cfg) (near : m.prog.stack.lcl < 2 ^ 16) (pos : Pos)
    {ei fi lcl lclLen arg argLen this that : Word}
    (frame : ∀ back, 0 < back → back ≤ 8 → back ≤ m.prog.stack.lcl ∧ m.prog.stack.lcl - back < m.prog.stack.sp ∧
      m.prog.stack.ops[m.prog.stack.lcl - back]? = [ei, fi, lcl, lclLen, arg, argLen, this, that][8 - back]?)
    (own : m.prog.stack.arg + 8 ≤ m.prog.stack.lcl) (known : fi.toNat < m.prog.files.length)
    (empty : m.prog.stack.sp ≤ m.prog.stack.base →
      stop (.err { pos := pos, text := "stack underflow" }) (m.withIo (cleanStdout m.io)))
    (returns : ∀ val after, m.prog.stack.base < m.prog.stack.sp → Popped cfg m.prog.stack val after →
      post () ((((m.withStack (Stack.afterReturn after val lcl lclLen arg argLen)).withHeap
        { m.prog.heap with this := this, that := that }).withFi fi.toNat).onFile
          fun file => { file with ei := ei.toUInt32 })) :
    wp (execRet cfg pos) post stop m := by
  have pointer : (UInt16.ofNat m.prog.stack.lcl).toNat = m.prog.stack.lcl := by
    rw [UInt16.toNat_ofNat', Nat.mod_eq_of_lt near]
  have first : _ = some ei := (frame 8 (by omega) le_rfl).2.2
  have second : _ = some fi := (frame 7 (by omega) (by omega)).2.2
  have covered : 8 ≤ m.prog.stack.lcl := by omega
  have covered' : 7 ≤ m.prog.stack.lcl := by omega
  unfold execRet
  simp only [wp_bind, wp_getStack, wp_frameCell, pointer, first, second, ← Nat.not_le, covered, covered',
    not_true_eq_false, false_or, reduceCtorEq, false_implies, true_and, forall_const, Option.some.injEq, forall_eq']
  refine wp_execSpop valid pos empty fun val after word popped => ?_
  have arg_eq : after.arg = m.prog.stack.arg := congrArg Segments.arg popped.segments
  have room : after.arg < after.ops.length := by
    have length_eq := popped.valid.length_eq
    have sp_le := popped.valid.sp_le
    have sp := popped.sp
    have lcl_le := lcl_le_base m.prog.stack
    omega
  -- The word is stored below the cells that are read from here on.
  have kept (back : Nat) (some_ : 0 < back) (saved : back < 8) :
      (after.ops.set after.arg val)[m.prog.stack.lcl - back]? =
        [ei, fi, lcl, lclLen, arg, argLen, this, that][8 - back]? := by
    obtain ⟨inside, below, cell⟩ := frame back some_ (by omega)
    rw [List.getElem?_set_ne (by omega), popped.below _ below, cell]
  simp only [wp_setCell, wp_setStack, wp_bind, wp_getHeap, wp_setHeap, wp_get, wp_ite, wp_modify, wp_setEi,
    wp_throw, Machine.withStack_stack, Machine.withHeap_stack, Machine.withStack_heap, Machine.withStack_withStack,
    Machine.withHeap_heap]
  refine ⟨fun outside => absurd room (Nat.not_lt.mpr outside), fun _ => ?_⟩
  have thatAt : _ = some that := kept 1 (by omega) (by omega)
  have thisAt : _ = some this := kept 2 (by omega) (by omega)
  have argLenAt : _ = some argLen := kept 3 (by omega) (by omega)
  have argAt : _ = some arg := kept 4 (by omega) (by omega)
  have lclLenAt : _ = some lclLen := kept 5 (by omega) (by omega)
  have lclAt : _ = some lcl := kept 6 (by omega) (by omega)
  have above (back : Nat) (saved : back ≤ 8) : back ≤ m.prog.stack.lcl := by omega
  simp only [thatAt, thisAt, argLenAt, argAt, lclLenAt, lclAt, above 1 (by omega), above 2 (by omega),
    above 3 (by omega), above 4 (by omega), above 5 (by omega), above 6 (by omega), not_true_eq_false, reduceCtorEq,
    or_self, false_implies, true_and, forall_const, Option.some.injEq, forall_eq']
  exact ⟨fun _ => returns val after word popped, fun unknown => absurd (Nat.not_le.mpr known) unknown⟩

section moves

variable {cfg : Config} {code : Code} {m : Machine} {inst : Inst} {s : State Place} (shown : Shows cfg code m s)
  (linked : Linked cfg code) (here : m.inst = some inst)

include shown linked here

theorem call_alike (is : inst.code = .call) : Alike cfg code (m.move cfg) (call (Control.ofCode code) inst s) := by
  have depth := shown.sp
  obtain ⟨file, active, -⟩ := shown.file
  -- The check of the number of arguments comes before the jump.
  by_cases many : inst.nargs.toNat > s.depth
  · refine move_alike here ?_
    unfold execInst
    simp only [wp_bind, wp_activeInst, here, reduceCtorEq, false_implies, true_and, Option.some.injEq, forall_eq', is]
    unfold execCall call
    simp only [wp_bind, wp_activeInst, wp_activeFile, wp_getStack, wp_getHeap, wp_get, wp_ite, here, active,
      reduceCtorEq, false_implies, true_and, Option.some.injEq, forall_eq', depth, many, not_true_eq_false, and_true,
      forall_const, if_true]
    exact execErr_alike shown.io rfl
  · have enough : inst.nargs.toNat ≤ m.prog.stack.sp := by omega
    rcases shown.jumped linked (mkKey inst.ident .func) SymVal.junk with
      ⟨fi, val, file', at_, small, target, run⟩ | ⟨target, run⟩ | ⟨target, val, run⟩
    · unfold call
      simp only [many, if_false, target]
      -- Only with arguments of its own does the caller keep its segments.
      by_cases own : inst.nargs.toNat ≤ s.data.frame.work.length
      · rw [if_pos own]
        refine move_alike here ?_
        unfold execInst
        simp only [wp_bind, wp_activeInst, here, reduceCtorEq, false_implies, true_and, Option.some.injEq, forall_eq', is]
        refine (wp_execCall shown.valid here inst.pos enough run).mono (fun _ m' called => ?_) fun _ _ => id
        have after := shown.called here called at_ run own
        refine (after.incEi { fi := fi, ei := val.instAddr } rfl ?_).mono (fun _ _ next => .goes next)
          fun _ _ => False.elim
        rw [UInt32.ofNat_toNat, SymVal.ei_succ, Nat.mod_eq_of_lt small]
      · rw [if_neg own]
        exact .lost rfl
    · refine move_alike here ?_
      unfold execInst
      simp only [wp_bind, wp_activeInst, here, reduceCtorEq, false_implies, true_and, Option.some.injEq, forall_eq', is]
      unfold execCall call
      simp only [wp_bind, wp_activeInst, wp_activeFile, wp_getStack, wp_getHeap, wp_get, wp_ite, here, active,
        reduceCtorEq, false_implies, true_and, Option.some.injEq, forall_eq', depth, many, not_false_eq_true,
        forall_const, if_false, wp_of_ok run, target]
      exact ctrlFlowError_alike shown.io
    · refine move_alike here ?_
      unfold execInst
      simp only [wp_bind, wp_activeInst, here, reduceCtorEq, false_implies, true_and, Option.some.injEq, forall_eq', is]
      unfold execCall call
      simp only [wp_bind, wp_activeInst, wp_activeFile, wp_getStack, wp_getHeap, wp_get, wp_ite, here, active,
        reduceCtorEq, false_implies, true_and, Option.some.injEq, forall_eq', depth, many, not_false_eq_true,
        forall_const, if_false, wp_of_ok run, target]
      exact execErr_alike shown.io rfl

omit linked in
theorem ret_outside (is : inst.code = .ret) (none_ : s.callers = []) :
    Alike cfg code (m.move cfg) (ret (Control.ofCode code) inst s) := by
  have lcl := shown.lcl
  rw [State.lcl, none_, lclAbove] at lcl
  refine move_alike here ?_
  unfold execInst
  simp only [wp_bind, wp_activeInst, here, reduceCtorEq, false_implies, true_and, Option.some.injEq, forall_eq', is]
  unfold execRet ret
  simp only [wp_bind, wp_getStack, wp_frameCell, none_, lcl]
  exact ⟨fun _ => .ends rfl, fun _ many => absurd many (by decide)⟩

theorem ret_alike (is : inst.code = .ret) : Alike cfg code (m.move cfg) (ret (Control.ofCode code) inst s) := by
  cases callers : s.callers with
  | nil => exact ret_outside shown here is callers
  | cons c rest =>
    by_cases far : 2 ^ 16 ≤ s.lcl
    · unfold ret
      rw [callers]
      simp only [far, if_true]
      exact .lost rfl
    · have lcl := shown.lcl
      have near : m.prog.stack.lcl < 2 ^ 16 := by omega
      have frame : (UInt16.ofNat m.prog.stack.lcl).toNat = m.prog.stack.lcl := by
        rw [UInt16.toNat_ofNat', Nat.mod_eq_of_lt near]
      refine move_alike here ?_
      unfold execInst
      simp only [wp_bind, wp_activeInst, here, reduceCtorEq, false_implies, true_and, Option.some.injEq, forall_eq', is]
      unfold ret
      rw [callers]
      simp only [far, if_false]
      have sound := shown.sound
      have lcl' := shown.lcl
      have arg := shown.arg
      have base := shown.base
      rw [callers] at sound arg
      rw [State.lcl, callers, lclAbove_cons] at lcl'
      obtain ⟨-, -, ⟨caller, fetched⟩, soundBelow⟩ := sound
      have fits := soundBelow.small
      have placed := linked.fetched fetched
      have known : c.loc.fi < m.prog.files.length := by
        obtain ⟨file, found, -⟩ := Option.bind_eq_some_iff.mp fetched
        rw [← shown.code_eq, Machine.code, List.getElem?_map] at found
        obtain ⟨file, found, -⟩ := Option.map_eq_some_iff.mp found
        exact (List.getElem?_eq_some_iff.mp found).1
      have fi : (UInt16.ofNat c.loc.fi).toNat = c.loc.fi := by
        rw [UInt16.toNat_ofNat', Nat.mod_eq_of_lt placed.2]
      refine wp_execRet shown.valid near inst.pos (shown.frameCell callers) (by omega)
        (by rw [fi]; exact known) ?_ ?_
      · intro empty
        have none_ : s.data.frame.work = [] := List.length_eq_zero_iff.mp (by omega)
        rw [none_]
        exact alike_fail .underflow (congrArg cleanStdout shown.io)
      · intro val after word popped
        cases work : s.data.frame.work with
        | nil =>
          rw [work, List.length_nil] at base
          exact absurd base (Nat.ne_of_lt word)
        | cons top below =>
          obtain ⟨rfl, -⟩ := shown.popped popped work
          have segments : (Stack.afterReturn after val (UInt16.ofNat (lclAbove c.frame.args.length rest))
              (UInt16.ofNat c.frame.locals.length) (UInt16.ofNat (argAbove rest))
              (UInt16.ofNat c.frame.args.length)).segments = segmentsOf c.frame rest := by
            have inner := argAbove_le_lclAbove c.frame.args.length rest
            rw [argAbove] at lcl' arg
            ext
            · simp only [Stack.segments, Stack.afterReturn, segmentsOf, UInt16.toNat_ofNat']
              exact Nat.mod_eq_of_lt (by omega)
            · simp only [Stack.segments, Stack.afterReturn, segmentsOf, UInt16.toNat_ofNat']
              exact Nat.mod_eq_of_lt fits.1
            · simp only [Stack.segments, Stack.afterReturn, segmentsOf, UInt16.toNat_ofNat']
              exact Nat.mod_eq_of_lt (by omega)
            · simp only [Stack.segments, Stack.afterReturn, segmentsOf, UInt16.toNat_ofNat']
              exact Nat.mod_eq_of_lt fits.2
          have returned := shown.returned callers (Stack.afterReturn after val _ _ _ _) popped work rfl rfl rfl segments
          have landed : Shows cfg code _ { s with loc := c.loc, data := _, callers := rest } := returned.atPlace (List.getElem?_eq_getElem known) (UInt16.ofNat c.loc.ei).toUInt32
            (by rw [UInt16.toNat_toUInt32, UInt16.toNat_ofNat', Nat.mod_eq_of_lt placed.1])
          rw [fi]
          refine (landed.incEi { c.loc with ei := c.loc.ei + 1 } rfl ?_).mono
            (fun _ _ next => .goes next) fun _ _ => False.elim
          rw [UInt32.toNat_add, UInt32.toNat_ofNat']
          simp only [UInt32.reduceToNat]
          omega

theorem execute_alike : Alike cfg code (m.move cfg) (execute (Control.ofCode code) inst s) := by
  unfold execute
  split
  next is => exact goto_alike shown linked here is
  next is => exact ifGoto_alike shown linked here is
  next is => exact call_alike shown linked here is
  next is => exact ret_alike shown linked here is
  next goto_ ifGoto call ret => exact goOn_alike shown linked here ⟨goto_, ifGoto, call, ret⟩

end moves

theorem move_follows {cfg : Config} {code : Code} (linked : Linked cfg code) :
    Follows (Machine.move cfg) (step (Control.ofCode code)) (Shows cfg code)
      (fun ending result => outcome ending = result) fun result => result = .lost := by
  intro m s shown
  unfold step
  rw [shown.fetch]
  cases here : m.inst with
  | some inst => exact execute_alike shown linked here
  | none =>
    obtain ⟨file, active, -⟩ := shown.file
    have past : ¬file.ei.toNat < file.insts.cell.length := by
      rw [Machine.inst, active] at here
      exact Nat.not_lt.mpr (List.getElem?_eq_none_iff.mp here)
    have round : execRound cfg m = .ok false m := by
      have runs : wp (execRound cfg) (fun more m' => more = false ∧ m' = m) (fun _ _ => False) m := by
        unfold execRound
        simp only [wp_bind, wp_activeFile, wp_ite, wp_pure, active, reduceCtorEq, false_implies, true_and,
          Option.some.injEq, forall_eq', past, not_false_eq_true, and_self, forall_const]
      obtain ⟨more, m', run, rfl, rfl⟩ := runs.total
      exact run
    rw [Machine.move, round]
    exact .ends (congrArg End.halted shown.io)

end Hvme.Vm
