import Hvme.Machine.Rules

set_option autoImplicit false

namespace Hvme

open Outcome

def Machine.code (m : Machine) : List (SymbolTable × Insts) :=
  m.prog.files.map fun file => (file.st, file.insts)

structure Quiet (cfg : Config) (m m' : Machine) : Prop where
  valid : m'.prog.stack.Valid cfg
  segments : m'.prog.stack.segments = m.prog.stack.segments
  code : m'.code = m.code
  base_le : m.prog.stack.base ≤ m.prog.stack.sp → m'.prog.stack.base ≤ m'.prog.stack.sp
  cells : m.prog.stack.base ≤ m.prog.stack.sp → ∀ i < m.prog.stack.lcl,
    i < m.prog.stack.arg ∨ m.prog.stack.arg + m.prog.stack.argLen ≤ i →
    m'.prog.stack.ops[i]? = m.prog.stack.ops[i]?

structure Unchanged (m m' : Machine) : Prop where
  sp : m'.prog.stack.sp = m.prog.stack.sp
  cells : ∀ i < m.prog.stack.sp, m'.prog.stack.ops[i]? = m.prog.stack.ops[i]?
  segments : m'.prog.stack.segments = m.prog.stack.segments
  heap : m'.prog.heap = m.prog.heap
  files : m'.prog.files = m.prog.files
  fi : m'.prog.fi = m.prog.fi

def Stops (spoiled : Prop) (m : Machine) (stop : Stop) (m' : Machine) : Prop :=
  ∀ diag, stop = .err diag → (Unchanged m m' ↔ ¬spoiled)

section stops

variable {spoiled : Prop} {m m' : Machine}

@[simp] theorem stops_fault (fault : Fault) : Stops spoiled m (.fault fault) m' := nofun

theorem stops_unchanged {stop : Stop} (unspoiled : ¬spoiled) (unchanged : Unchanged m m') :
    Stops spoiled m stop m' :=
  fun _ _ => iff_of_true unchanged unspoiled

theorem stops_changed {stop : Stop} (spoils : spoiled) (changed : ¬Unchanged m m') :
    Stops spoiled m stop m' :=
  fun _ _ => iff_of_false changed (not_not.mpr spoils)

theorem Unchanged.withIo (m : Machine) (io : Io) : Unchanged m (m.withIo io) :=
  ⟨rfl, fun _ _ => rfl, rfl, rfl, rfl, rfl⟩

@[simp] theorem stops_withIo (stop : Stop) (io : Io) : Stops False m stop (m.withIo io) :=
  stops_unchanged not_false (Unchanged.withIo m io)

end stops

section quiet

variable {cfg : Config} {m m' m'' : Machine}

theorem Quiet.of_stack (valid : m.prog.stack.Valid cfg) (stack : m'.prog.stack = m.prog.stack)
    (code : m'.code = m.code) : Quiet cfg m m' where
  valid := stack ▸ valid
  segments := by rw [stack]
  code := code
  base_le := by rw [stack]; exact id
  cells := fun _ i _ _ => by rw [stack]

theorem Quiet.trans (first : Quiet cfg m m') (second : Quiet cfg m' m'') : Quiet cfg m m'' where
  valid := second.valid
  segments := second.segments.trans first.segments
  code := second.code.trans first.code
  base_le := fun sound => second.base_le (first.base_le sound)
  cells := by
    intro sound i below outside
    have arg : m'.prog.stack.arg = m.prog.stack.arg := congrArg Segments.arg first.segments
    have argLen : m'.prog.stack.argLen = m.prog.stack.argLen := congrArg Segments.argLen first.segments
    have lcl : m'.prog.stack.lcl = m.prog.stack.lcl := congrArg Segments.lcl first.segments
    rw [second.cells (first.base_le sound) i (lcl ▸ below) (by rwa [arg, argLen]),
      first.cells sound i below outside]

theorem lcl_le_base (stack : Stack) : stack.lcl ≤ stack.base := Nat.le_add_right _ _

theorem Pushed.quiet {val : Word} {after : Stack} (pushed : Pushed cfg m.prog.stack val after) :
    Quiet cfg m (m.withStack after) where
  valid := pushed.valid
  segments := pushed.segments
  code := rfl
  base_le := by
    intro sound
    have sp := pushed.sp
    rw [Machine.withStack_stack, Stack.base, pushed.segments]
    exact le_trans sound (by omega)
  cells := by
    intro sound i below _
    have := lcl_le_base m.prog.stack
    exact pushed.below i (by omega)

theorem Popped.quiet {val : Word} {after : Stack} (popped : Popped cfg m.prog.stack val after)
    (word : m.prog.stack.base < m.prog.stack.sp) : Quiet cfg m (m.withStack after) where
  valid := popped.valid
  segments := popped.segments
  code := rfl
  base_le := by
    intro _
    have sp := popped.sp
    rw [Machine.withStack_stack, Stack.base, popped.segments]
    change m.prog.stack.base ≤ _
    omega
  cells := by
    intro _ i below _
    have := lcl_le_base m.prog.stack
    exact popped.below i (by omega)

theorem Stack.Valid.set {stack : Stack} (valid : stack.Valid cfg) (idx : Nat) (val : Word) :
    ({ stack with ops := stack.ops.set idx val } : Stack).Valid cfg where
  length_eq := by simp only [List.length_set, valid.length_eq]
  blocks := valid.blocks
  sp_le := valid.sp_le

theorem Quiet.set (quiet : Quiet cfg m m') {idx : Nat} (val : Word)
    (own : (m.prog.stack.arg ≤ idx ∧ idx < m.prog.stack.arg + m.prog.stack.argLen) ∨ m.prog.stack.lcl ≤ idx) :
    Quiet cfg m (m'.withStack { m'.prog.stack with ops := m'.prog.stack.ops.set idx val }) where
  valid := quiet.valid.set idx val
  segments := quiet.segments
  code := quiet.code
  base_le := quiet.base_le
  cells := by
    intro sound i below outside
    simp only [Machine.withStack_stack]
    rw [List.getElem?_set_ne (by omega), quiet.cells sound i below outside]

theorem code_onFile (m : Machine) (f : File → File)
    (same : ∀ file : File, ((f file).st, (f file).insts) = (file.st, file.insts)) :
    (m.onFile f).code = m.code := by
  simp only [Machine.code, Machine.onFile_files]
  refine List.ext_getElem? fun i => ?_
  simp only [List.getElem?_map, List.getElem?_modify]
  cases m.prog.files[i]? with
  | none => rfl
  | some file =>
    by_cases here : m.prog.fi = i <;> simp [here, same file]

theorem Quiet.onFile (quiet : Quiet cfg m m') (f : File → File)
    (same : ∀ file : File, ((f file).st, (f file).insts) = (file.st, file.insts)) :
    Quiet cfg m (m'.onFile f) :=
  quiet.trans (Quiet.of_stack quiet.valid rfl (code_onFile m' f same))

theorem Quiet.withHeap (quiet : Quiet cfg m m') (heap : Heap) : Quiet cfg m (m'.withHeap heap) :=
  quiet.trans (Quiet.of_stack quiet.valid rfl rfl)

theorem Quiet.withIo (quiet : Quiet cfg m m') (io : Io) : Quiet cfg m (m'.withIo io) :=
  quiet.trans (Quiet.of_stack quiet.valid rfl rfl)

theorem Quiet.refl (valid : m.prog.stack.Valid cfg) : Quiet cfg m m := Quiet.of_stack valid rfl rfl

structure Jumped (m m' : Machine) : Prop where
  stack : m'.prog.stack = m.prog.stack
  heap : m'.prog.heap = m.prog.heap
  code : m'.code = m.code

theorem wp_jumpTo {post : JumpResult × SymVal → Machine → Prop} {stop : Stop → Machine → Prop}
    (key : SymKey) (val : SymVal) (faults : ∀ fault, stop (.fault fault) m)
    (rest : ∀ res val m', (res ≠ .ok → m' = m) → Jumped m m' → post (res, val) m') :
    wp (jumpTo key val) post stop m := by
  have stays : Jumped m m := ⟨rfl, rfl, rfl⟩
  unfold jumpTo
  simp only [wp_bind, wp_activeFile, wp_liftFault, faults, implies_true, true_and]
  rintro file - ⟨_ | _, val⟩ -
  · simp only [wp_bind, wp_get, wp_liftFault, faults, implies_true, true_and]
    rintro buf -
    split
    · exact rest .err _ m (fun _ => rfl) stays
    · simp only [wp_bind, wp_modify, wp_setEi, wp_pure]
      exact rest .ok _ _ (absurd rfl) ⟨rfl, rfl, code_onFile (m.withFi buf.nextFi) _ fun _ => rfl⟩
    · exact rest .multDef _ m (fun _ => rfl) stays
  · simp only [wp_bind, wp_setEi, wp_pure]
    exact rest .ok _ _ (absurd rfl) ⟨rfl, rfl, code_onFile m _ fun _ => rfl⟩

theorem jumpTo_ok {key : SymKey} {val val' : SymVal} {res : JumpResult}
    (run : jumpTo key val m = .ok (res, val') m') : (res ≠ .ok → m' = m) ∧ Jumped m m' := by
  have holds : wp (jumpTo key val) (fun result m' => (result.1 ≠ .ok → m' = m) ∧ Jumped m m')
      (fun _ _ => True) m :=
    wp_jumpTo key val (fun _ => trivial) fun _ _ _ stays jumped => ⟨stays, jumped⟩
  exact holds.returns run

theorem jumpTo_error {key : SymKey} {val : SymVal} {stop : Stop} (run : jumpTo key val m = .error stop m') :
    ∃ fault, stop = .fault fault := by
  have holds : wp (jumpTo key val) (fun _ _ => True) (fun stop _ => ∃ fault, stop = .fault fault) m :=
    wp_jumpTo key val (fun fault => ⟨fault, rfl⟩) fun _ _ _ _ _ => trivial
  exact holds.stops run

theorem Jumped.quiet (jumped : Jumped m m') (valid : m.prog.stack.Valid cfg) : Quiet cfg m m' :=
  Quiet.of_stack valid jumped.stack jumped.code

end quiet

end Hvme
