import Hvme.Machine.Activations

set_option autoImplicit false

namespace Hvme

def callersAfter (inst : Inst) (m : Machine) (callers : List Machine) : List Machine :=
  match inst.code with
  | .call => m :: callers
  | .ret => callers.tail
  | _ => callers

/-- A run that has come to a machine with its active callers, innermost first; each is the machine
as it was at the call. -/
inductive Run (cfg : Config) (Meets : Inst → Machine → Prop) (start : Machine) : Machine → List Machine → Prop
  | start : Run cfg Meets start start []
  | step {m m' : Machine} {callers : List Machine} {inst : Inst} (run : Run cfg Meets start m callers)
      (here : m.inst = some inst) (meets : Meets inst m) (steps : Steps cfg m m') :
      Run cfg Meets start m' (callersAfter inst m callers)

/-- The segments of the innermost activation and of its caller, one above the other. -/
structure FrameLayout (m : Machine) (callers : List Machine) : Prop where
  base_le : m.prog.stack.lcl + m.prog.stack.lclLen ≤ m.prog.stack.sp
  args : ∀ c rest, callers = c :: rest →
    m.prog.stack.arg + m.prog.stack.argLen + 8 ≤ m.prog.stack.lcl ∧
    c.prog.stack.lcl + c.prog.stack.lclLen ≤ m.prog.stack.arg ∧
    m.prog.stack.arg + m.prog.stack.argLen ≤ c.prog.stack.sp
  kept : ∀ c rest, callers = c :: rest →
    ∀ i < c.prog.stack.lcl + c.prog.stack.lclLen, m.prog.stack.ops[i]? = c.prog.stack.ops[i]?
  saved : ∀ c rest, callers = c :: rest → ∀ k val, c.saved[k]? = some val →
    m.prog.stack.ops[m.prog.stack.lcl - 8 + k]? = some val
  arg_lt : ∀ offset < m.prog.stack.argLen, offset + m.prog.stack.arg < m.prog.stack.sp
  lcl_lt : ∀ offset < m.prog.stack.lclLen, offset + m.prog.stack.lcl < m.prog.stack.sp

def Nested : Machine → List Machine → Prop
  | m, [] => m.prog.stack.segments = { arg := 0, argLen := 0, lcl := 0, lclLen := 0 }
  | m, c :: rest => Activation m c ∧ c.prog.stack.base ≤ c.prog.stack.sp ∧ c.Fit ∧ Nested c rest

section nested

variable {cfg : Config} {m m' : Machine} {callers : List Machine}

theorem Nested.quiet (nested : Nested m callers) (quiet : Quiet cfg m m')
    (sound : m.prog.stack.base ≤ m.prog.stack.sp) : Nested m' callers := by
  cases callers with
  | nil => exact quiet.segments.trans nested
  | cons c rest => exact ⟨nested.1.quiet quiet sound, nested.2⟩

theorem Nested.congr (nested : Nested m callers)
    (segments : m'.prog.stack.segments = m.prog.stack.segments)
    (cells : ∀ i < m.prog.stack.lcl, m'.prog.stack.ops[i]? = m.prog.stack.ops[i]?) : Nested m' callers := by
  cases callers with
  | nil => exact segments.trans nested
  | cons c rest =>
    obtain ⟨active, rest_⟩ := nested
    have arg : m'.prog.stack.arg = m.prog.stack.arg := congrArg Segments.arg segments
    have argLen : m'.prog.stack.argLen = m.prog.stack.argLen := congrArg Segments.argLen segments
    have lcl : m'.prog.stack.lcl = m.prog.stack.lcl := congrArg Segments.lcl segments
    have window := active.arg
    have locals := active.lcl
    refine ⟨⟨by rw [arg, argLen, window], by rw [lcl, locals], by rw [arg]; exact active.own, ?_, ?_⟩, rest_⟩
    · intro k val saved
      have := saved_length c saved
      rw [cells _ (by omega)]
      exact active.frame k val saved
    · intro i inside
      rw [arg] at inside
      rw [cells i (by omega)]
      exact active.below i inside

theorem Nested.layout (nested : Nested m callers) (sound : m.prog.stack.base ≤ m.prog.stack.sp) :
    FrameLayout m callers := by
  cases callers with
  | nil =>
    have argLen : m.prog.stack.argLen = 0 := congrArg Segments.argLen nested
    have lclLen : m.prog.stack.lclLen = 0 := congrArg Segments.lclLen nested
    refine ⟨sound, by simp, by simp, by simp, ?_, ?_⟩ <;> intro offset inside <;> omega
  | cons c rest =>
    obtain ⟨active, -⟩ := nested
    have window := active.arg
    have locals := active.lcl
    have own := active.own
    have base : m.prog.stack.base = m.prog.stack.lcl + m.prog.stack.lclLen := rfl
    have caller : c.prog.stack.base = c.prog.stack.lcl + c.prog.stack.lclLen := rfl
    refine ⟨sound, ?_, ?_, ?_, ?_, ?_⟩
    · rintro _ _ ⟨⟩
      omega
    · rintro _ _ ⟨⟩ i inside
      exact active.below i (by omega)
    · rintro _ _ ⟨⟩ k val saved
      rw [locals, Nat.add_sub_cancel]
      exact active.frame k val saved
    · intro offset inside
      omega
    · intro offset inside
      omega

end nested

/-- A call finds its arguments in its own working stack, and a return its frame below 2^16. -/
def Lawful (inst : Inst) (m : Machine) : Prop :=
  (inst.code = .call → m.prog.stack.base + inst.nargs.toNat ≤ m.prog.stack.sp) ∧
    (inst.code = .ret → m.prog.stack.lcl < 2 ^ 16)

theorem Run.nested {cfg : Config} {start m : Machine} {callers : List Machine} (kept : start.Kept cfg)
    (outside : start.prog.stack.segments = { arg := 0, argLen := 0, lcl := 0, lclLen := 0 })
    (run : Run cfg Lawful start m callers) :
    m.Kept cfg ∧ m.prog.stack.base ≤ m.prog.stack.sp ∧ Nested m callers := by
  induction run with
  | start =>
    refine ⟨kept, ?_, outside⟩
    rw [Stack.base, outside]
    exact Nat.zero_le _
  | @step m m' callers inst run here lawful steps ih =>
    obtain ⟨kept, sound, nested⟩ := ih
    refine ⟨steps.kept kept, ?_⟩
    obtain ⟨other, mid, same, effect, advances⟩ := steps.effect kept.valid
    cases here.symm.trans same
    rw [advances.stack]
    rcases effect.cases with ⟨code, called⟩ | ⟨code, returned⟩ | ⟨call, ret, quiet⟩
    · have after := advances.quiet called.valid
      have sound' : mid.prog.stack.base ≤ mid.prog.stack.sp := called.sp.ge
      rw [callersAfter, code]
      exact ⟨sound', (called.activation (lawful.1 code)).quiet after sound', sound, kept.fit, nested⟩
    · rw [callersAfter, code]
      cases callers with
      | nil =>
        -- Outside of all calls there is no frame to return from.
        have frame := returned.frame
        have := m.frame_le
        have lcl : m.prog.stack.lcl = 0 := congrArg Segments.lcl nested
        omega
      | cons c rest =>
        obtain ⟨active, caller_sound, fit, nested⟩ := nested
        have restored := active.returned fit (lawful.2 code) returned
        have own := active.own
        have := lcl_le_base c.prog.stack
        refine ⟨?_, nested.congr ?_ ?_⟩
        · rw [Stack.base, restored.segments, returned.sp]
          exact le_trans own (Nat.le_succ _)
        · rw [advances.stack, restored.segments]
        · intro i inside
          rw [advances.stack]
          exact restored.below i (by omega)
    · have after := advances.quiet quiet.valid
      have callers_eq : callersAfter inst m callers = callers := by
        unfold callersAfter
        split <;> simp_all
      rw [callers_eq]
      have sound' := quiet.base_le sound
      exact ⟨sound', (nested.quiet quiet sound).quiet after sound'⟩

/-- In every run whose calls and returns are lawful the layout holds in every machine reached. -/
theorem frameLayout_of_lawful {cfg : Config} {fuel : Nat} {srcs : List Source} {prog : Program}
    (made : makeProg cfg fuel srcs = .ok (some prog)) {stdin : List Byte} {m : Machine}
    {callers : List Machine} (run : Run cfg Lawful (Machine.start prog stdin) m callers) :
    FrameLayout m callers := by
  have stack := makeProg_stack made
  have outside : (Machine.start prog stdin).prog.stack.segments =
      { arg := 0, argLen := 0, lcl := 0, lclLen := 0 } := by
    rw [show (Machine.start prog stdin).prog.stack = newStack cfg from stack]
    rfl
  obtain ⟨-, sound, nested⟩ := run.nested (start_kept stack stdin) outside
  exact nested.layout sound

instance (inst : Inst) (m : Machine) : Decidable (Lawful inst m) := inferInstanceAs (Decidable (_ ∧ _))

def follow (cfg : Config) (Meets : Inst → Machine → Prop) [∀ inst m, Decidable (Meets inst m)] :
    Nat → Machine → List Machine → Option (Machine × List Machine)
  | 0, m, callers => some (m, callers)
  | count + 1, m, callers =>
    match m.inst, execRound cfg m with
    | some inst, .ok true next =>
      if Meets inst m then follow cfg Meets count next (callersAfter inst m callers) else none
    | _, _ => none

theorem Run.follow {cfg : Config} {Meets : Inst → Machine → Prop} [∀ inst m, Decidable (Meets inst m)]
    {start m m' : Machine} {callers callers' : List Machine} {count : Nat} (run : Run cfg Meets start m callers)
    (followed : follow cfg Meets count m callers = some (m', callers')) : Run cfg Meets start m' callers' := by
  induction count generalizing m callers with
  | zero =>
    cases followed
    exact run
  | succ count ih =>
    rw [Hvme.follow] at followed
    split at followed
    · next inst next here steps =>
      split at followed
      · next meets => exact ih (run.step here meets steps) followed
      · cases followed
    · cases followed

def Guarded (cfg : Config) (Meets : Inst → Machine → Prop) (m m' : Machine) : Prop :=
  Steps cfg m m' ∧ ∀ inst, m.inst = some inst → Meets inst m

theorem Run.guarded {cfg : Config} {Meets : Inst → Machine → Prop} {start m : Machine} {callers : List Machine}
    (run : Run cfg Meets start m callers) : Relation.ReflTransGen (Guarded cfg Meets) start m := by
  induction run with
  | start => exact .refl
  | step _ here meets steps ih => exact ih.tail ⟨steps, fun _ same => Option.some.inj (here.symm.trans same) ▸ meets⟩

theorem frameLayout_call :
    ∃ prog m callers,
      makeProg .unitTests 9 [{ fn := "a.vm", content := some (ascii
        "function Sys.init 0\npush constant 5\ncall f 1\nfunction f 1\npush argument 0\n") }] = .ok (some prog) ∧
      Run .unitTests Lawful (Machine.start prog []) m callers ∧ callers.length = 2 ∧ FrameLayout m callers := by
  have ran : ((programOf .unitTests
      "function Sys.init 0\npush constant 5\ncall f 1\nfunction f 1\npush argument 0\n").bind fun prog =>
      follow .unitTests Lawful 5 (Machine.start prog []) []).map (fun result => result.2.length) = some 2 := by
    decide +kernel
  obtain ⟨⟨m, callers⟩, bound, depth⟩ := Option.map_eq_some_iff.mp ran
  obtain ⟨prog, made, followed⟩ := Option.bind_eq_some_iff.mp bound
  have run := Run.start.follow followed
  exact ⟨prog, m, callers, programOf_made made, run, depth, frameLayout_of_lawful (programOf_made made) run⟩

/-- `Sys.init` calls with an argument that it does not have: the call takes a word of the frame. -/
theorem argument_from_frame :
    ∃ prog m callers,
      makeProg .unitTests 9 [{ fn := "a.vm", content := some (ascii
        "function Sys.init 0\ncall f 1\nfunction f 0\nreturn\n") }] = .ok (some prog) ∧
      Run .unitTests (fun _ _ => True) (Machine.start prog []) m callers ∧ ¬FrameLayout m callers := by
  have ran : ((programOf .unitTests "function Sys.init 0\ncall f 1\nfunction f 0\nreturn\n").bind fun prog =>
      follow .unitTests (fun _ _ => True) 3 (Machine.start prog []) []).map (fun result =>
        (result.1.prog.stack.arg, result.2.map fun c => c.prog.stack.lcl + c.prog.stack.lclLen)) =
      some (8, [9, 0]) := by
    decide +kernel
  obtain ⟨⟨m, callers⟩, bound, sizes⟩ := Option.map_eq_some_iff.mp ran
  obtain ⟨prog, made, followed⟩ := Option.bind_eq_some_iff.mp bound
  refine ⟨prog, m, callers, programOf_made made, Run.start.follow followed, fun layout => ?_⟩
  obtain ⟨arg, bases⟩ := Prod.mk.inj sizes
  obtain ⟨c, rest, rfl, base, -⟩ := List.map_eq_cons_iff.mp bases
  have own := (layout.args c rest rfl).2.1
  simp only at arg base
  omega

end Hvme
