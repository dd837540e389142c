import Hvme.Machine.Steps

set_option autoImplicit false

namespace Hvme

structure Activation (m c : Machine) : Prop where
  arg : m.prog.stack.arg + m.prog.stack.argLen = c.prog.stack.sp
  lcl : m.prog.stack.lcl = c.prog.stack.sp + 8
  own : c.prog.stack.base ≤ m.prog.stack.arg
  frame : ∀ k val, c.saved[k]? = some val → m.prog.stack.ops[c.prog.stack.sp + k]? = some val
  below : ∀ i < m.prog.stack.arg, m.prog.stack.ops[i]? = c.prog.stack.ops[i]?

section activation

variable {cfg : Config} {m m' c : Machine}

theorem saved_length (m : Machine) {k : Nat} {val : Word} (saved : m.saved[k]? = some val) : k < 8 :=
  (List.getElem?_eq_some_iff.mp saved).1

theorem Called.activation {inst : Inst} (called : Called cfg inst c m)
    (own : c.prog.stack.base + inst.nargs.toNat ≤ c.prog.stack.sp) : Activation m c where
  arg := by
    rw [called.argLen]
    exact called.arg
  lcl := called.lcl
  own := by
    have := called.arg
    omega
  frame := called.frame
  below := by
    have := called.arg
    exact fun i inside => called.below i (by omega)

theorem Activation.quiet (active : Activation m c) (quiet : Quiet cfg m m')
    (sound : m.prog.stack.base ≤ m.prog.stack.sp) : Activation m' c := by
  have arg : m'.prog.stack.arg = m.prog.stack.arg := congrArg Segments.arg quiet.segments
  have argLen : m'.prog.stack.argLen = m.prog.stack.argLen := congrArg Segments.argLen quiet.segments
  have lcl : m'.prog.stack.lcl = m.prog.stack.lcl := congrArg Segments.lcl quiet.segments
  have window := active.arg
  have locals := active.lcl
  refine ⟨by rw [arg, argLen, window], by rw [lcl, locals], by rw [arg]; exact active.own, ?_, ?_⟩
  · intro k val saved
    have := saved_length c saved
    rw [quiet.cells sound _ (by omega) (by omega)]
    exact active.frame k val saved
  · intro i inside
    rw [arg] at inside
    rw [quiet.cells sound i (by omega) (by omega)]
    exact active.below i inside

structure Restored (c m m' : Machine) : Prop where
  segments : m'.prog.stack.segments = c.prog.stack.segments
  this : m'.prog.heap.this = c.prog.heap.this
  that : m'.prog.heap.that = c.prog.heap.that
  fi : m'.prog.fi = c.prog.fi % 2 ^ 16
  ei : m'.ei = c.ei.toUInt16.toUInt32
  below : ∀ i < m.prog.stack.arg, m'.prog.stack.ops[i]? = c.prog.stack.ops[i]?

theorem Activation.returned (active : Activation m c) (fit : c.Fit)
    (small : m.prog.stack.lcl < 2 ^ 16) (returned : Returned cfg m m') : Restored c m m' := by
  have locals := active.lcl
  have window := active.arg
  have own := active.own
  have word := returned.word
  have lcl_le := lcl_le_base m.prog.stack
  have caller_le := lcl_le_base c.prog.stack
  have frame : m.frame = c.prog.stack.sp + 8 := by
    rw [Machine.frame, UInt16.toNat_ofNat', Nat.mod_eq_of_lt small, locals]
  have saved (k : Nat) (val : Word) (here : c.saved[k]? = some val) :
      m.prog.stack.ops[m.frame - (8 - k)]? = some val := by
    have := saved_length c here
    rw [frame, show c.prog.stack.sp + 8 - (8 - k) = c.prog.stack.sp + k by omega]
    exact active.frame k val here
  -- The returned word is stored below the frame, or in its first slot, which is read before.
  have still (k : Nat) (val : Word) (later : 0 < k) (here : c.saved[k]? = some val) :
      m'.prog.stack.ops[m.frame - (8 - k)]? = some val := by
    have := saved_length c here
    rw [returned.below _ (by omega) (by omega)]
    exact saved k val here
  obtain ⟨ei, fi, eiAt, fiAt, fi_eq, file, active_, file_ei⟩ := returned.jump
  obtain ⟨lcl, lclLen, arg, argLen, lclAt, lclLenAt, argAt, argLenAt, segments⟩ := returned.segments
  have ei_eq := (saved 0 _ rfl).symm.trans eiAt
  have fi_saved := (saved 1 _ rfl).symm.trans fiAt
  have lcl_eq := (still 2 _ (by omega) rfl).symm.trans lclAt
  have lclLen_eq := (still 3 _ (by omega) rfl).symm.trans lclLenAt
  have arg_eq := (still 4 _ (by omega) rfl).symm.trans argAt
  have argLen_eq := (still 5 _ (by omega) rfl).symm.trans argLenAt
  have this_eq := (still 6 _ (by omega) rfl).symm.trans returned.this
  have that_eq := (still 7 _ (by omega) rfl).symm.trans returned.that
  cases ei_eq
  cases fi_saved
  cases lcl_eq
  cases lclLen_eq
  cases arg_eq
  cases argLen_eq
  refine ⟨?_, (Option.some.inj this_eq).symm, (Option.some.inj that_eq).symm, ?_, ?_, ?_⟩
  · have arg_lt : c.prog.stack.arg < 2 ^ 16 := by
      rcases fit.arg with left | small
      · omega
      · exact small
    rw [segments]
    ext
    · simp only [UInt16.toNat_ofNat', Nat.mod_eq_of_lt arg_lt]
      rfl
    · simp only [UInt16.toNat_ofNat', Nat.mod_eq_of_lt fit.argLen]
      rfl
    · simp only [UInt16.toNat_ofNat']
      exact Nat.mod_eq_of_lt (by omega)
    · simp only [UInt16.toNat_ofNat', Nat.mod_eq_of_lt fit.lclLen]
      rfl
  · rw [fi_eq, UInt16.toNat_ofNat']
  · rw [Machine.ei, active_]
    exact file_ei
  · intro i inside
    rw [returned.below i (by omega) (by omega)]
    exact active.below i inside

end activation

end Hvme
