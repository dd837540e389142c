import Hvme.Machine.Stack

set_option autoImplicit false

namespace Hvme

inductive StackOp (α : Type)
  | push (val : α)
  | pop

section list

variable {α : Type}

def StackOp.onList (floor : Nat) (words : List α) : StackOp α → Option α × List α
  | .push val => (none, words ++ [val])
  | .pop => if floor < words.length then (words.getLast?, words.dropLast) else (none, words)

def StackOp.runList (floor : Nat) : List (StackOp α) → List α → List (Option α) × List α
  | [], words => ([], words)
  | op :: ops, words =>
    let (reply, words) := op.onList floor words
    let (replies, words) := StackOp.runList floor ops words
    (reply :: replies, words)

end list

def StackOp.exec (cfg : Config) (stack : Stack) : StackOp Word → Except Fault (Option Word × Stack)
  | .push val =>
    match spush cfg stack val with
    | .error fault => .error fault
    | .ok stack => .ok (none, stack)
  | .pop =>
    match spop cfg stack with
    | .error fault => .error fault
    | .ok none => .ok (none, stack)
    | .ok (some (val, stack)) => .ok (some val, stack)

def StackOp.run (cfg : Config) : List (StackOp Word) → Stack → Except Fault (List (Option Word) × Stack)
  | [], stack => .ok ([], stack)
  | op :: ops, stack =>
    match op.exec cfg stack with
    | .error fault => .error fault
    | .ok (reply, stack) =>
      match StackOp.run cfg ops stack with
      | .error fault => .error fault
      | .ok (replies, stack) => .ok (reply :: replies, stack)

structure Stack.Holds (cfg : Config) (stack : Stack) (words : List Word) : Prop where
  valid : stack.Valid cfg
  snug : stack.len - cfg.stackBlockSize ≤ stack.sp
  words : stack.ops.take stack.sp = words

section step

variable {cfg : Config} {stack after : Stack} {words : List Word}

theorem Stack.Holds.sp_eq (holds : stack.Holds cfg words) : stack.sp = words.length := by
  have length_eq := holds.valid.length_eq
  have sp_le := holds.valid.sp_le
  rw [← holds.words, List.length_take]
  omega

theorem spush_len {val : Word} (pushed : spush cfg stack val = .ok after) :
    after.len = if stack.sp = stack.len then stack.len + cfg.stackBlockSize else stack.len := by
  unfold spush at pushed
  by_cases full : stack.sp = stack.len
  · simp only [if_pos full] at pushed ⊢
    split at pushed <;> cases pushed
    rfl
  · simp only [if_neg full] at pushed ⊢
    split at pushed <;> cases pushed
    rfl

theorem Stack.Holds.push (holds : stack.Holds cfg words) {val : Word}
    (pushed : spush cfg stack val = .ok after) :
    after.Holds cfg (words ++ [val]) ∧ after.segments = stack.segments := by
  obtain ⟨same, run, effect⟩ := spush_valid holds.valid val
  rw [pushed] at run
  cases run
  have snug := holds.snug
  have sp := effect.sp
  have len := spush_len pushed
  refine ⟨⟨effect.valid, ?_, ?_⟩, effect.segments⟩
  · split at len <;> omega
  · -- The cells below the old `sp` are kept, the one at it is written.
    rw [sp, List.take_add_one, effect.top, ← holds.words]
    refine congrArg (· ++ [val]) (List.ext_getElem? fun i => ?_)
    rw [List.getElem?_take, List.getElem?_take]
    split
    · next inside => exact effect.below i inside
    · rfl

theorem Stack.Holds.pop (holds : stack.Holds cfg words) {val : Word}
    (popped : spop cfg stack = .ok (some (val, after))) :
    after.Holds cfg words.dropLast ∧ words.getLast? = some val ∧ after.segments = stack.segments := by
  have occupied : stack.base < stack.sp := by
    by_contra empty
    rw [spop_empty cfg (Nat.le_of_not_lt empty)] at popped
    cases popped
  obtain ⟨val', same, run, effect⟩ := spop_valid holds.valid occupied
  rw [popped] at run
  cases run
  have snug := holds.snug
  have sp := effect.sp
  have len := effect.len
  have positive := cfg.stack_pos
  have sp_le := effect.valid.sp_le
  -- A pop that shrinks leaves `sp` below the new end, one that does not was not below the last block.
  refine ⟨⟨effect.valid, ?_, ?_⟩, ?_, effect.segments⟩
  · split at len <;> omega
  · rw [← holds.words, ← sp, List.dropLast_eq_take, List.length_take, List.take_take]
    have allocated := holds.valid.length_eq
    have inside := holds.valid.sp_le
    rw [show min (min (after.sp + 1) stack.ops.length - 1) (after.sp + 1) = after.sp by omega]
    refine List.ext_getElem? fun i => ?_
    rw [List.getElem?_take, List.getElem?_take]
    split
    · next below => exact effect.below i (by omega)
    · rfl
  · rw [← holds.words, ← sp, List.take_add_one, effect.top]
    exact List.getLast?_concat

end step

theorem StackOp.exec_onList {cfg : Config} {stack : Stack} {words : List Word}
    (holds : stack.Holds cfg words) (op : StackOp Word) :
    ∃ after, op.exec cfg stack = .ok ((op.onList stack.base words).1, after) ∧
      after.Holds cfg (op.onList stack.base words).2 ∧ after.segments = stack.segments := by
  cases op with
  | push val =>
    obtain ⟨after, pushed, -⟩ := spush_valid holds.valid val
    obtain ⟨later, segments⟩ := holds.push pushed
    exact ⟨after, by simp only [StackOp.exec, StackOp.onList, pushed], later, segments⟩
  | pop =>
    have sp := holds.sp_eq
    by_cases occupied : stack.base < stack.sp
    · obtain ⟨val, after, popped, -⟩ := spop_valid holds.valid occupied
      obtain ⟨later, top, segments⟩ := holds.pop popped
      have some_ : stack.base < words.length := sp ▸ occupied
      simp only [StackOp.exec, StackOp.onList, popped, if_pos some_, top]
      exact ⟨after, rfl, later, segments⟩
    · have none_ : ¬stack.base < words.length := sp ▸ occupied
      simp only [StackOp.exec, StackOp.onList, spop_empty cfg (Nat.le_of_not_lt occupied), if_neg none_]
      exact ⟨stack, rfl, holds, rfl⟩

theorem StackOp.run_onList {cfg : Config} {stack : Stack} {words : List Word}
    (holds : stack.Holds cfg words) (ops : List (StackOp Word)) :
    ∃ after, StackOp.run cfg ops stack = .ok ((StackOp.runList stack.base ops words).1, after) ∧
      after.Holds cfg (StackOp.runList stack.base ops words).2 ∧ after.segments = stack.segments := by
  induction ops generalizing stack words with
  | nil => exact ⟨stack, rfl, holds, rfl⟩
  | cons op ops ih =>
    obtain ⟨mid, first, mid_holds, mid_segments⟩ := op.exec_onList holds
    obtain ⟨after, rest, after_holds, after_segments⟩ := ih mid_holds
    have base : mid.base = stack.base := congrArg Segments.base mid_segments
    rw [base] at rest after_holds
    refine ⟨after, ?_, after_holds, after_segments.trans mid_segments⟩
    simp only [StackOp.run, first, rest, StackOp.runList]

/-- A stack that represents `words`, the first `floor` of which stay. -/
structure Stack.Represents (cfg : Config) (floor : Nat) (stack : Stack) (words : List Word) : Prop where
  below : stack.ops.take stack.sp = words
  count : stack.sp = words.length
  fails : spop cfg stack = .ok none ↔ stack.sp ≤ floor
  pushes : ∀ val, ∃ after, spush cfg stack val = .ok after ∧ stack.sp < after.len
  pops : floor < stack.sp →
    ∃ val after, spop cfg stack = .ok (some (val, after)) ∧ after.sp + 1 = stack.sp ∧ after.sp < after.len
  allocated : stack.ops.length = stack.len
  blocks : ∃ blocks, 0 < blocks ∧ stack.len = blocks * cfg.stackBlockSize
  snug : stack.len - cfg.stackBlockSize ≤ stack.sp
  sp_le : stack.sp ≤ stack.len

theorem Stack.Holds.represents {cfg : Config} {stack : Stack} {words : List Word}
    (holds : stack.Holds cfg words) : stack.Represents cfg stack.base words where
  below := holds.words
  count := holds.sp_eq
  fails := by
    refine ⟨fun failed => ?_, spop_empty cfg⟩
    by_contra occupied
    obtain ⟨val, after, popped, -⟩ := spop_valid holds.valid (Nat.lt_of_not_le occupied)
    rw [failed] at popped
    cases popped
  pushes := by
    intro val
    obtain ⟨after, pushed, effect⟩ := spush_valid holds.valid val
    have := effect.sp
    have := effect.valid.sp_le
    exact ⟨after, pushed, by omega⟩
  pops := by
    intro occupied
    obtain ⟨val, after, popped, effect⟩ := spop_valid holds.valid occupied
    have sp := effect.sp
    have top := (List.getElem?_eq_some_iff.mp effect.top).1
    have kept := holds.valid.length_eq
    have len := effect.len
    -- The cell is read after the shrinking, so it has to be below the new length.
    refine ⟨val, after, popped, sp, ?_⟩
    split at len <;> omega
  allocated := holds.valid.length_eq
  blocks := holds.valid.blocks
  snug := holds.snug
  sp_le := holds.valid.sp_le

/-- Pushing and popping on a new stack is pushing and popping on a list. -/
theorem stack_refines_list (cfg : Config) (lcl lclLen : Nat) (ops : List (StackOp Word)) :
    ∃ stack, StackOp.run cfg ops { newStack cfg with lcl := lcl, lclLen := lclLen } =
        .ok ((StackOp.runList (lcl + lclLen) ops []).1, stack) ∧
      stack.Represents cfg (lcl + lclLen) (StackOp.runList (lcl + lclLen) ops []).2 := by
  let start : Stack := { newStack cfg with lcl := lcl, lclLen := lclLen }
  have valid := newStack_valid cfg
  have holds : start.Holds cfg [] :=
    ⟨⟨valid.length_eq, valid.blocks, valid.sp_le⟩, Nat.le_of_eq (Nat.sub_self _), rfl⟩
  obtain ⟨stack, run, later, segments⟩ := StackOp.run_onList holds ops
  have base : stack.base = lcl + lclLen := congrArg Segments.base segments
  have represents := later.represents
  rw [base] at represents
  exact ⟨stack, run, represents⟩

end Hvme
