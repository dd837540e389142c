import Hvme.Vm.Code

set_option autoImplicit false

namespace Hvme

def Stack.live (stack : Stack) : List Word := stack.ops.take stack.sp

section live

variable {cfg : Config} {before_ after : Stack} {val : Word}

theorem Stack.live_length {stack : Stack} (valid : stack.Valid cfg) : stack.live.length = stack.sp := by
  have := valid.length_eq
  have := valid.sp_le
  rw [Stack.live, List.length_take]
  omega

theorem Stack.live_getElem {stack : Stack} {i : Nat} (inside : i < stack.sp) : stack.ops[i]? = stack.live[i]? :=
  (List.getElem?_take_of_lt inside).symm

theorem Stack.live_eq {stack : Stack} {words : List Word} (length : stack.sp = words.length)
    (same : ∀ i < stack.sp, stack.ops[i]? = words[i]?) : stack.live = words := by
  refine List.ext_getElem? fun i => ?_
  rw [Stack.live]
  by_cases inside : i < stack.sp
  · rw [List.getElem?_take_of_lt inside, same i inside]
  · rw [List.getElem?_eq_none (by rw [List.length_take]; omega), List.getElem?_eq_none (by omega)]

theorem Pushed.live (pushed : Pushed cfg before_ val after) (valid : before_.Valid cfg) :
    after.live = before_.live ++ [val] := by
  have length := Stack.live_length valid
  have sp := pushed.sp
  apply Stack.live_eq
  · rw [List.length_append, length, sp]
    rfl
  · intro i inside
    by_cases below : i < before_.sp
    · rw [pushed.below i below, Stack.live_getElem below, List.getElem?_append_left (by omega)]
    · obtain rfl : i = before_.sp := by omega
      rw [pushed.top, ← length, List.getElem?_concat_length]

theorem Popped.live (popped : Popped cfg before_ val after) :
    before_.live = after.live ++ [val] := by
  have length := Stack.live_length popped.valid
  have sp := popped.sp
  apply Stack.live_eq
  · rw [List.length_append, length, ← sp]
    rfl
  · intro i inside
    by_cases below : i < after.sp
    · rw [← popped.below i inside, Stack.live_getElem below, List.getElem?_append_left (by omega)]
    · obtain rfl : i = after.sp := by omega
      rw [popped.top, ← length, List.getElem?_concat_length]

end live

end Hvme

namespace Hvme.Vm

open Outcome Execution

def argAbove {Loc : Type} : List (Caller Loc) → Nat
  | [] => 0
  | c :: rest => lclAbove c.frame.args.length rest + c.frame.locals.length + c.frame.work.length

theorem lclAbove_cons {Loc : Type} (nargs : Nat) (c : Caller Loc) (rest : List (Caller Loc)) :
    lclAbove nargs (c :: rest) = argAbove (c :: rest) + nargs + 8 := rfl

def savedWords (c : Caller Place) (rest : List (Caller Place)) : List Word :=
  -- In the order in which `exec_call` pushes them.
  [UInt16.ofNat c.loc.ei, UInt16.ofNat c.loc.fi, UInt16.ofNat (lclAbove c.frame.args.length rest),
    UInt16.ofNat c.frame.locals.length, UInt16.ofNat (argAbove rest), UInt16.ofNat c.frame.args.length,
    c.frame.this, c.frame.that]

def words (frame : Frame) : List (Caller Place) → List Word
  | [] => frame.locals ++ frame.work.reverse
  | c :: rest =>
    -- From the bottom up, the first local above the saved words of the call.
    words c.frame rest ++ (frame.args ++ (savedWords c rest ++ (frame.locals ++ frame.work.reverse)))

def wordsBelow (args : List Word) : List (Caller Place) → List Word
  | [] => []
  | c :: rest => words c.frame rest ++ (args ++ savedWords c rest)

theorem words_eq (frame : Frame) (callers : List (Caller Place)) :
    words frame callers = wordsBelow frame.args callers ++ (frame.locals ++ frame.work.reverse) := by
  cases callers <;> simp [words, wordsBelow]

theorem words_length (frame : Frame) (callers : List (Caller Place)) :
    (words frame callers).length =
      lclAbove frame.args.length callers + frame.locals.length + frame.work.length := by
  -- The frame changes from activation to activation.
  induction callers generalizing frame with
  | nil => simp [words, lclAbove]
  | cons c rest ih =>
    rw [words, List.length_append, ih, lclAbove_cons, argAbove]
    simp [savedWords]
    omega

theorem wordsBelow_length (args : List Word) (callers : List (Caller Place)) :
    (wordsBelow args callers).length = lclAbove args.length callers := by
  have whole := words_length { Frame.empty with args := args } callers
  rw [words_eq] at whole
  simpa [Frame.empty] using whole

theorem words_push (frame : Frame) (callers : List (Caller Place)) (val : Word) :
    words { frame with work := val :: frame.work } callers = words frame callers ++ [val] := by
  simp [words_eq]

def segmentsOf (frame : Frame) (callers : List (Caller Place)) : Segments where
  arg := argAbove callers
  argLen := frame.args.length
  lcl := lclAbove frame.args.length callers
  lclLen := frame.locals.length

def Sound (code : Code) (frame : Frame) : List (Caller Place) → Prop
  | [] => frame.args = [] ∧ frame.locals = []
  | c :: rest =>
    frame.args.length < 2 ^ 16 ∧ frame.locals.length < 2 ^ 16 ∧
      (∃ inst, (Control.ofCode code).fetch c.loc = some inst) ∧ Sound code c.frame rest

theorem Sound.congr {code : Code} {frame frame' : Frame} {callers : List (Caller Place)}
    (sound : Sound code frame callers) (args : frame'.args.length = frame.args.length)
    (locals : frame'.locals.length = frame.locals.length) : Sound code frame' callers := by
  cases callers with
  | nil =>
    obtain ⟨noArgs, noLocals⟩ := sound
    rw [noArgs] at args
    rw [noLocals] at locals
    exact ⟨List.length_eq_zero_iff.mp args, List.length_eq_zero_iff.mp locals⟩
  | cons c rest =>
    obtain ⟨few, small, rest_⟩ := sound
    exact ⟨args ▸ few, locals ▸ small, rest_⟩

/-- The machine is in this state of the virtual machine. -/
structure Shows (cfg : Config) (code : Code) (m : Machine) (s : State Place) : Prop where
  valid : m.prog.stack.Valid cfg
  code_eq : m.code = code
  live : m.prog.stack.live = words s.data.frame s.callers
  segments : m.prog.stack.segments = segmentsOf s.data.frame s.callers
  heap : m.prog.heap = { mem := s.data.heap, this := s.data.frame.this, that := s.data.frame.that }
  size : s.data.heap.length = memHeapSize
  memories : ∀ fi file, m.prog.files[fi]? = some file → file.mem = s.data.memories fi
  io : m.io = s.data.io
  fi : m.prog.fi = s.loc.fi
  file : ∃ file, m.file = some file ∧ file.ei.toNat = s.loc.ei
  sound : Sound code s.data.frame s.callers

section shows

variable {cfg : Config} {code : Code} {m : Machine} {s : State Place} (shown : Shows cfg code m s)

include shown

theorem Shows.sp : m.prog.stack.sp = s.depth := by
  rw [← Stack.live_length shown.valid, shown.live, words_length]
  rfl

theorem Shows.arg : m.prog.stack.arg = argAbove s.callers := congrArg Segments.arg shown.segments

theorem Shows.argLen : m.prog.stack.argLen = s.data.frame.args.length := congrArg Segments.argLen shown.segments

theorem Shows.lcl : m.prog.stack.lcl = s.lcl := congrArg Segments.lcl shown.segments

theorem Shows.lclLen : m.prog.stack.lclLen = s.data.frame.locals.length := congrArg Segments.lclLen shown.segments

theorem Shows.base : m.prog.stack.base + s.data.frame.work.length = m.prog.stack.sp := by
  have base : m.prog.stack.base = m.prog.stack.lcl + m.prog.stack.lclLen := rfl
  rw [base, shown.lcl, shown.lclLen, shown.sp, State.depth]

theorem Shows.getElem {i : Nat} (inside : i < m.prog.stack.sp) :
    m.prog.stack.ops[i]? = (words s.data.frame s.callers)[i]? := by
  rw [Stack.live_getElem inside, shown.live]

theorem Shows.pushed {val : Word} {after : Stack} (pushed : Pushed cfg m.prog.stack val after) :
    Shows cfg code (m.withStack after) (s.withData (s.data.push val)) where
  valid := pushed.valid
  code_eq := shown.code_eq
  live := (pushed.live shown.valid).trans (by rw [shown.live]; exact (words_push ..).symm)
  segments := pushed.segments.trans shown.segments
  heap := shown.heap
  size := shown.size
  memories := shown.memories
  io := shown.io
  fi := shown.fi
  file := shown.file
  sound := shown.sound.congr rfl rfl

theorem Shows.popped {val top : Word} {work : List Word} {after : Stack} (popped : Popped cfg m.prog.stack val after)
    (work_eq : s.data.frame.work = top :: work) :
    val = top ∧
      Shows cfg code (m.withStack after) (s.withData (s.data.withWork work)) := by
  have live := popped.live
  have below := words_push { s.data.frame with work := work } s.callers top
  simp only [← work_eq] at below
  rw [shown.live, below] at live
  obtain ⟨rest, same⟩ := List.append_inj' live rfl
  cases same
  exact ⟨rfl, {
    valid := popped.valid
    code_eq := shown.code_eq
    live := rest.symm
    segments := popped.segments.trans shown.segments
    heap := shown.heap
    size := shown.size
    memories := shown.memories
    io := shown.io
    fi := shown.fi
    file := shown.file
    sound := shown.sound.congr rfl rfl }⟩

theorem Shows.withIo (io : Io) : Shows cfg code (m.withIo io) (s.withData { s.data with io := io }) :=
  { shown with io := rfl }

end shows

end Hvme.Vm
