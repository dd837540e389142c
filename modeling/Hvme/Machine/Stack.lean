import Hvme.Model.Exec

set_option autoImplicit false

namespace Hvme

@[ext]
structure Segments where
  arg : Nat
  argLen : Nat
  lcl : Nat
  lclLen : Nat

def Segments.base (segs : Segments) : Nat := segs.lcl + segs.lclLen

def Stack.segments (stack : Stack) : Segments where
  arg := stack.arg
  argLen := stack.argLen
  lcl := stack.lcl
  lclLen := stack.lclLen

def Stack.base (stack : Stack) : Nat := stack.segments.base

structure Stack.Valid (cfg : Config) (stack : Stack) : Prop where
  length_eq : stack.ops.length = stack.len
  blocks : ∃ blocks, 0 < blocks ∧ stack.len = blocks * cfg.stackBlockSize
  sp_le : stack.sp ≤ stack.len

theorem newStack_valid (cfg : Config) : (newStack cfg).Valid cfg where
  length_eq := List.length_replicate
  blocks := ⟨1, Nat.one_pos, (Nat.one_mul _).symm⟩
  sp_le := Nat.zero_le _

structure Pushed (cfg : Config) (before_ : Stack) (val : Word) (after : Stack) : Prop where
  valid : after.Valid cfg
  sp : after.sp = before_.sp + 1
  segments : after.segments = before_.segments
  top : after.ops[before_.sp]? = some val
  below : ∀ i < before_.sp, after.ops[i]? = before_.ops[i]?

structure Popped (cfg : Config) (before_ : Stack) (val : Word) (after : Stack) : Prop where
  valid : after.Valid cfg
  sp : after.sp + 1 = before_.sp
  segments : after.segments = before_.segments
  top : before_.ops[after.sp]? = some val
  below : ∀ i < before_.sp, after.ops[i]? = before_.ops[i]?
  kept : ∀ i < after.len, after.ops[i]? = before_.ops[i]?
  len : after.len =
    if after.sp < before_.len - cfg.stackBlockSize then before_.len - cfg.stackBlockSize else before_.len

theorem spush_valid {cfg : Config} {stack : Stack} (valid : stack.Valid cfg) (val : Word) :
    ∃ after, spush cfg stack val = .ok after ∧ Pushed cfg stack val after := by
  have := valid.length_eq
  have := valid.sp_le
  have := cfg.stack_pos
  -- A full stack grows by one block first; then there is room in either case.
  by_cases full : stack.sp = stack.len
  · have fits : stack.sp < (stack.ops ++ List.replicate cfg.stackBlockSize cfg.junkWord).length := by
      rw [List.length_append, List.length_replicate]
      omega
    refine ⟨{ stack with
        ops := (stack.ops ++ List.replicate cfg.stackBlockSize cfg.junkWord).set stack.sp val
        sp := stack.sp + 1
        len := stack.len + cfg.stackBlockSize }, ?_, ?_, rfl, rfl, ?_, ?_⟩
    · simp only [spush, if_pos full]
      rw [if_pos fits]
    · obtain ⟨blocks, positive, len⟩ := valid.blocks
      refine ⟨?_, ⟨blocks + 1, by omega, ?_⟩, ?_⟩
      · simp only [List.length_set, List.length_append, List.length_replicate]
        omega
      · simp only [len, Nat.add_mul, Nat.one_mul]
      · simp only
        omega
    · exact List.getElem?_set_self fits
    · intro i inside
      simp only
      rw [List.getElem?_set_ne (by omega), List.getElem?_append_left (by omega)]
  · have fits : stack.sp < stack.ops.length := by omega
    refine ⟨{ stack with ops := stack.ops.set stack.sp val, sp := stack.sp + 1 }, ?_, ?_, rfl, rfl, ?_, ?_⟩
    · simp only [spush, if_neg full]
      rw [if_pos fits]
    · refine ⟨?_, valid.blocks, ?_⟩
      · simp only [List.length_set]
        omega
      · simp only
        omega
    · exact List.getElem?_set_self fits
    · intro i inside
      simp only
      rw [List.getElem?_set_ne (by omega)]

theorem spop_empty (cfg : Config) {stack : Stack} (empty : stack.sp ≤ stack.base) :
    spop cfg stack = .ok none :=
  if_neg (Nat.not_lt.mpr empty)

theorem spop_valid {cfg : Config} {stack : Stack} (valid : stack.Valid cfg) (word : stack.base < stack.sp) :
    ∃ val after, spop cfg stack = .ok (some (val, after)) ∧ Popped cfg stack val after := by
  have length_eq := valid.length_eq
  have sp_le := valid.sp_le
  obtain ⟨val, top⟩ : ∃ val, stack.ops[stack.sp - 1]? = some val :=
    ⟨_, List.getElem?_eq_getElem (by omega)⟩
  have sp : stack.sp - 1 + 1 = stack.sp := by omega
  -- The stack shrinks when the word to be popped is not in its last block.
  by_cases shrinks : stack.sp - 1 < stack.len - cfg.stackBlockSize
  · refine ⟨val, { stack with
        ops := stack.ops.take (stack.len - cfg.stackBlockSize)
        sp := stack.sp - 1
        len := stack.len - cfg.stackBlockSize }, ?_, ⟨?_, ?_, ?_⟩, sp, rfl, top, ?_, ?_, ?_⟩
    · refine (if_pos word).trans ?_
      simp only [shrinks, if_true, List.getElem?_take_of_lt, top]
    · simp only [List.length_take]
      omega
    · obtain ⟨blocks, positive, len⟩ := valid.blocks
      refine ⟨blocks - 1, ?_, ?_⟩
      · by_contra single
        obtain rfl : blocks = 1 := by omega
        omega
      · simp only [len, Nat.sub_mul, Nat.one_mul]
    · simp only
      omega
    · intro i inside
      simp only
      rw [List.getElem?_take_of_lt (by omega)]
    · intro i inside
      simp only
      rw [List.getElem?_take_of_lt inside]
    · simp only [shrinks, if_true]
  · refine ⟨val, { stack with sp := stack.sp - 1 }, ?_, ⟨length_eq, valid.blocks, ?_⟩, sp, rfl, top,
      fun _ _ => rfl, fun _ _ => rfl, ?_⟩
    · refine (if_pos word).trans ?_
      simp only [shrinks, if_false, top]
    · simp only
      omega
    · simp only [shrinks, if_false]

structure Stacked (cfg : Config) (before_ : Stack) (vals : List Word) (after : Stack) : Prop where
  valid : after.Valid cfg
  sp : after.sp = before_.sp + vals.length
  segments : after.segments = before_.segments
  words : ∀ k val, vals[k]? = some val → after.ops[before_.sp + k]? = some val
  below : ∀ i < before_.sp, after.ops[i]? = before_.ops[i]?

theorem Stacked.nil {cfg : Config} {stack : Stack} (valid : stack.Valid cfg) : Stacked cfg stack [] stack where
  valid := valid
  sp := rfl
  segments := rfl
  words := nofun
  below := fun _ _ => rfl

theorem Stacked.push {cfg : Config} {before_ mid after : Stack} {vals : List Word} {val : Word}
    (stacked : Stacked cfg before_ vals mid) (pushed : Pushed cfg mid val after) :
    Stacked cfg before_ (vals ++ [val]) after where
  valid := pushed.valid
  sp := by
    rw [pushed.sp, stacked.sp, List.length_append]
    rfl
  segments := pushed.segments.trans stacked.segments
  words := by
    have sp := stacked.sp
    intro k word found
    rcases Nat.lt_trichotomy k vals.length with earlier | rfl | later
    · rw [List.getElem?_append_left earlier] at found
      rw [pushed.below _ (by omega), stacked.words k word found]
    · rw [List.getElem?_append_right le_rfl, Nat.sub_self] at found
      cases found
      rw [← sp, pushed.top]
    · rw [List.getElem?_eq_none (by rw [List.length_append, List.length_singleton]; omega)] at found
      cases found
  below := by
    have sp := stacked.sp
    intro i inside
    rw [pushed.below i (by omega), stacked.below i inside]

structure Extended (cfg : Config) (before_ : Stack) (count : Nat) (after : Stack) : Prop where
  valid : after.Valid cfg
  sp : after.sp = before_.sp + count
  segments : after.segments = before_.segments
  zeros : ∀ i, before_.sp ≤ i → i < before_.sp + count → after.ops[i]? = some 0
  below : ∀ i < before_.sp, after.ops[i]? = before_.ops[i]?

theorem pushLocals_valid {cfg : Config} (count : Nat) {stack : Stack} (valid : stack.Valid cfg) :
    ∃ after, pushLocals cfg count stack = .ok after ∧ Extended cfg stack count after := by
  induction count generalizing stack with
  | zero => exact ⟨stack, rfl, valid, rfl, rfl, fun i _ _ => by omega, fun _ _ => rfl⟩
  | succ count ih =>
    obtain ⟨next, pushed, first⟩ := spush_valid valid 0
    obtain ⟨after, rest, extended⟩ := ih first.valid
    have next_sp := first.sp
    refine ⟨after, ?_, extended.valid, ?_, extended.segments.trans first.segments, ?_, ?_⟩
    · simp only [pushLocals, pushed, rest]
    · rw [extended.sp, next_sp]
      omega
    · intro i above inside
      by_cases here : i = stack.sp
      · rw [here, extended.below _ (by omega), first.top]
      · exact extended.zeros i (by omega) (by omega)
    · intro i inside
      rw [extended.below i (by omega), first.below i inside]

end Hvme
