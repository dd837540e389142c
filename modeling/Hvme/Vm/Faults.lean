import Hvme.Machine.Builtins
import Hvme.Vm.Linking

set_option autoImplicit false

namespace Hvme.Vm

open Execution

def Data.Wrong (inst : Inst) (d : Data) : Prop :=
  match inst.code with
  | .push =>
    match inst.seg with
    | .this => inst.offset.toNat + d.frame.this.toNat = memHeapSize
    | .that => inst.offset.toNat + d.frame.that.toNat = memHeapSize
    | .ptr =>
      inst.offset.toNat = 0 ∧ memHeapSize < d.frame.this.toNat ∨
        inst.offset.toNat = 1 ∧ memHeapSize < d.frame.that.toNat
    | _ => False
  | .pop =>
    match inst.seg with
    | .this => d.frame.work ≠ [] ∧ inst.offset.toNat + d.frame.this.toNat = memHeapSize
    | .that => d.frame.work ≠ [] ∧ inst.offset.toNat + d.frame.that.toNat = memHeapSize
    | _ => False
  | .builtinPrintStr =>
    ∃ addr nchars work, d.frame.work = addr :: nchars :: work ∧ nchars ≠ 0 ∧
      memHeapSize < addr.toNat + nchars.toNat
  | .builtinReadNum => ∃ stdin, scanfUint d.io.stdin = (.mismatch, stdin) ∧ newline ∉ stdin
  | _ => False

section exec

variable {d : Data} (size : d.heap.length = memHeapSize)

theorem Data.pop_wrong {rest : Word → Data → Result} :
    d.pop rest = .wrong ↔ ∃ val work, d.frame.work = val :: work ∧ rest val (d.withWork work) = .wrong := by
  unfold Data.pop
  cases d.frame.work <;> simp

theorem Data.pop_not_wrong {rest : Word → Data → Result} (right : ∀ val d, rest val d ≠ .wrong) : d.pop rest ≠ .wrong := by
  rw [Ne, Data.pop_wrong]
  rintro ⟨val, work, -, wrong⟩
  exact right _ _ wrong

theorem Data.loadFrom_not_wrong (inst : Inst) (entries : List Word) : d.loadFrom inst entries ≠ .wrong := by
  unfold Data.loadFrom
  split <;> simp

theorem Data.storeTo_not_wrong (inst : Inst) (count : Nat) (put : Word → Data → Data) :
    d.storeTo inst count put ≠ .wrong := by
  unfold Data.storeTo
  split
  · exact Data.pop_not_wrong fun _ _ => by simp
  · simp

theorem Data.loadPointer_wrong {ptr : Word} : d.loadPointer ptr = .wrong ↔ memHeapSize < ptr.toNat := by
  unfold Data.loadPointer
  split <;> simp <;> omega

theorem Data.readNum_wrong :
    d.readNum = .wrong ↔ ∃ stdin, scanfUint d.io.stdin = (.mismatch, stdin) ∧ newline ∉ stdin := by
  unfold Data.readNum
  rcases scanfUint d.io.stdin with ⟨_ | _ | value, stdin⟩
  · simp
  -- Without a digit the rest of the line is skipped, up to a newline that has to come.
  · rw [show (∃ rest, (ScanfResult.mismatch, stdin) = (ScanfResult.mismatch, rest) ∧ newline ∉ rest) ↔
      newline ∉ stdin by simp, ← discardLine_diverges]
    cases ended : discardLine stdin with
    | ok rest => simp [ended]
    | error fault =>
      have kind : fault = .diverges := by
        unfold discardLine at ended
        split at ended <;> cases ended
        rfl
      simp [ended, kind]
  · simp only [Prod.mk.injEq, reduceCtorEq, false_and, exists_false, iff_false]
    split <;> simp

include size

theorem Data.load_wrong {addr : Nat} : d.load addr = .wrong ↔ addr = memHeapSize := by
  unfold Data.load
  split
  -- The check lets `memHeapSize` itself pass, where there is no word.
  · next inside =>
    cases found : d.heap[addr]? with
    | some val =>
      have := (List.getElem?_eq_some_iff.mp found).1
      simp only [reduceCtorEq, false_iff]
      omega
    | none =>
      have := List.getElem?_eq_none_iff.mp found
      simp only [true_iff]
      omega
  · next outside =>
    simp only [reduceCtorEq, false_iff]
    omega

theorem Data.store_wrong {addr : Nat} : d.store addr = .wrong ↔ d.frame.work ≠ [] ∧ addr = memHeapSize := by
  unfold Data.store
  split
  · next inside =>
    -- The word is popped first, so that an empty stack is an error and not a fault.
    unfold Data.pop
    cases d.frame.work with
    | nil => simp
    | cons val work =>
      simp only [Data.withWork_heap, size, ne_eq, reduceCtorEq, not_false_eq_true, true_and]
      split
      · simp only [reduceCtorEq, false_iff]
        omega
      · simp only [true_iff]
        omega
  · next outside =>
    simp only [reduceCtorEq, false_iff, not_and]
    omega

theorem Data.printStr_wrong :
    d.printStr = .wrong ↔ ∃ addr nchars work, d.frame.work = addr :: nchars :: work ∧ nchars ≠ 0 ∧
      memHeapSize < addr.toNat + nchars.toNat := by
  unfold Data.printStr
  simp only [Data.pop_wrong, Data.withWork_heap, size]
  constructor
  · rintro ⟨addr, rest, words, nchars, work, rfl, wrong⟩
    split at wrong
    · cases wrong
    · next outside =>
      obtain ⟨some_, beyond⟩ := not_or.mp outside
      exact ⟨addr, nchars, work, words, some_, Nat.lt_of_not_le beyond⟩
  · rintro ⟨addr, nchars, work, words, some_, beyond⟩
    refine ⟨addr, nchars :: work, words, nchars, work, rfl, ?_⟩
    rw [if_neg]
    exact not_or.mpr ⟨some_, Nat.not_le.mpr beyond⟩

theorem Data.exec_wrong (fi : Nat) (inst : Inst) : d.exec fi inst = .wrong ↔ d.Wrong inst := by
  unfold Data.exec Data.Wrong
  cases inst.code with
  | push =>
    simp only [Data.execPush]
    cases inst.seg with
    | this => exact Data.load_wrong size
    | that => exact Data.load_wrong size
    | arg | loc => exact iff_false_intro (Data.loadFrom_not_wrong inst _)
    | const => simp
    | stat | tmp =>
      simp only
      split <;> simp
    | ptr =>
      simp only
      split
      · next first => simp [Data.loadPointer_wrong, first]
      · split
        · next second => simp [Data.loadPointer_wrong, second]
        · next first second => simp [first, second]
  | pop =>
    simp only [Data.execPop]
    cases inst.seg with
    | this => exact Data.store_wrong size
    | that => exact Data.store_wrong size
    | arg | loc | stat | tmp => exact iff_false_intro (Data.storeTo_not_wrong inst _ _)
    | const => exact iff_false_intro (Data.pop_not_wrong fun _ _ => by simp)
    | ptr =>
      simp only [iff_false]
      split
      · exact Data.pop_not_wrong fun _ _ => by simp
      · split
        · exact Data.pop_not_wrong fun _ _ => by simp
        · simp
  | builtinPrintStr => exact Data.printStr_wrong size
  | builtinReadNum => exact Data.readNum_wrong
  | neg | not | builtinPrintChar | builtinPrintNum => exact iff_false_intro (Data.pop_not_wrong fun _ _ => by simp)
  | and | or | eq | lt | gt =>
    exact iff_false_intro (Data.pop_not_wrong fun _ _ => Data.pop_not_wrong fun _ _ => by simp)
  | add | sub =>
    refine iff_false_intro (Data.pop_not_wrong fun _ _ => Data.pop_not_wrong fun _ _ => ?_)
    split <;> simp
  | builtinReadChar =>
    simp only [Data.readChar, iff_false]
    split <;> simp
  | builtinReadStr =>
    refine iff_false_intro (Data.pop_not_wrong fun _ _ => ?_)
    split
    · simp
    · split <;> simp
  | none | goto | ifGoto | call | ret => simp

end exec

def Result.All (P : Data → Prop) : Result → Prop
  | .ok d => P d
  | .error _ _ => True
  | .wrong => True

section size

variable (d : Data) {count : Nat}

theorem Result.all_ite {P : Data → Prop} {c : Prop} [Decidable c] {result result' : Result} (first : result.All P)
    (second : result'.All P) : (if c then result else result').All P := by
  split
  · exact first
  · exact second

theorem Data.pop_all {P : Data → Prop} {rest : Word → Data → Result}
    (later : ∀ val work, (rest val (d.withWork work)).All P) : (d.pop rest).All P := by
  unfold Data.pop
  cases d.frame.work with
  | nil => trivial
  | cons val work => exact later val work

theorem Data.exec_size (fi : Nat) (inst : Inst) : (d.exec fi inst).All fun after => after.heap.length = d.heap.length := by
  unfold Data.exec
  cases inst.code with
  | push =>
    simp only [Data.execPush]
    cases inst.seg <;> simp only [Data.loadFrom, Data.load, Data.loadPointer] <;> (repeat' split) <;>
      first | rfl | trivial
  | pop =>
    simp only [Data.execPop]
    cases inst.seg <;> simp only [Data.storeTo, Data.store] <;> (repeat' split) <;>
      first
      | trivial
      | (refine d.pop_all fun val work => ?_
         first | rfl | exact Result.all_ite (List.length_set ..) trivial)
  | neg | not | builtinPrintChar | builtinPrintNum => exact d.pop_all fun _ _ => rfl
  | and | or | eq | lt | gt => exact d.pop_all fun _ _ => Data.pop_all _ fun _ _ => rfl
  | add | sub | builtinPrintStr =>
    exact d.pop_all fun _ _ => Data.pop_all _ fun _ _ => Result.all_ite rfl trivial
  | builtinReadChar =>
    simp only [Data.readChar]
    split <;> rfl
  | builtinReadNum =>
    simp only [Data.readNum]
    repeat' split
    all_goals first | rfl | trivial
  | builtinReadStr =>
    refine d.pop_all fun _ _ => ?_
    simp only
    repeat' split
    all_goals first | trivial | exact storeChars_length ..
  | none | goto | ifGoto | call | ret => trivial

end size

section runs

variable {Loc : Type} {ctl : Control Loc}

theorem goOn_goes {inst : Inst} {s s' : State Loc} (goes : goOn ctl inst s = .goes s') :
    ∃ d, s.data.exec (ctl.file s.loc) inst = .ok d ∧ s' = { s with loc := ctl.next s.loc, data := d } := by
  unfold goOn at goes
  cases exec : s.data.exec (ctl.file s.loc) inst with
  | ok d =>
    rw [exec] at goes
    exact ⟨d, rfl, (Move.goes.inj goes).symm⟩
  | error why io =>
    rw [exec] at goes
    cases goes
  | wrong =>
    rw [exec] at goes
    cases goes

theorem jump_data {inst : Inst} {s s' : State Loc} (goes : jump ctl inst s = .goes s') : s'.data = s.data := by
  unfold jump at goes
  split at goes <;> cases goes
  rfl

theorem step_size {s s' : State Loc} (goes : Goes (step ctl) s s') : s'.data.heap.length = s.data.heap.length := by
  unfold Goes step at goes
  split at goes
  · cases goes
  · next inst _ =>
    unfold execute at goes
    split at goes
    · rw [jump_data goes]
    · unfold jumpIf at goes
      split at goes
      · cases goes
      · simp only at goes
        split at goes
        · exact congrArg (fun d => d.heap.length) (jump_data goes)
        · cases goes
          rfl
    · unfold call at goes
      simp only at goes
      repeat' split at goes
      all_goals cases goes
      rfl
    · unfold ret at goes
      repeat' split at goes
      all_goals cases goes
      rfl
    · obtain ⟨d, exec, rfl⟩ := goOn_goes goes
      have size := s.data.exec_size (ctl.file s.loc) inst
      rw [exec] at size
      exact size

theorem runs_size {s s' : State Loc} (run : Runs (step ctl) s s') : s'.data.heap.length = s.data.heap.length := by
  induction run with
  | refl => rfl
  | tail _ goes ih => exact (step_size goes).trans ih

/-- The next instruction is one that the source has no answer to. -/
def Broken (ctl : Control Loc) (s : State Loc) : Prop :=
  ∃ inst, ctl.fetch s.loc = some inst ∧ s.data.Wrong inst

theorem jump_not_fault (inst : Inst) (s : State Loc) : jump ctl inst s ≠ .ends .fault := by
  unfold jump fail
  split <;> simp

theorem jumpIf_not_fault (inst : Inst) (s : State Loc) : jumpIf ctl inst s ≠ .ends .fault := by
  unfold jumpIf
  split
  · simp [fail]
  · simp only
    split
    · exact jump_not_fault inst _
    · simp

theorem call_not_fault (inst : Inst) (s : State Loc) : call ctl inst s ≠ .ends .fault := by
  unfold call fail
  simp only
  repeat' split
  all_goals simp

theorem ret_fault (inst : Inst) (s : State Loc) : ret ctl inst s = .ends .fault ↔ s.callers = [] := by
  unfold ret fail
  -- Without a caller the locals lie at 0, and the frame would lie below the stack.
  cases s.callers with
  | nil => simp
  | cons c rest =>
    simp only [reduceCtorEq, iff_false]
    repeat' split
    all_goals simp

theorem goOn_fault (inst : Inst) (s : State Loc) :
    goOn ctl inst s = .ends .fault ↔ s.data.exec (ctl.file s.loc) inst = .wrong := by
  unfold goOn fail
  cases s.data.exec (ctl.file s.loc) inst <;> simp

theorem step_fault {s : State Loc} (size : s.data.heap.length = memHeapSize)
    (inside : ∀ inst, ctl.fetch s.loc = some inst → inst.code = .ret → s.callers ≠ []) :
    step ctl s = .ends .fault ↔ Broken ctl s := by
  unfold step Broken
  cases fetched : ctl.fetch s.loc with
  | none => simp
  | some inst =>
    simp only [Option.some.injEq, exists_eq_left']
    have wrong := Data.exec_wrong size (ctl.file s.loc) inst
    unfold execute
    cases code : inst.code with
    | goto => simp [jump_not_fault, Data.Wrong, code]
    | ifGoto => simp [jumpIf_not_fault, Data.Wrong, code]
    | call => simp [call_not_fault, Data.Wrong, code]
    -- This is what `inside` is for.
    | ret => simp [ret_fault, Data.Wrong, code, inside inst fetched code]
    | _ => simp only [goOn_fault, wrong]

def State.bottom (s : State Loc) : Loc := (s.callers.getLast?.map Caller.loc).getD s.loc

theorem State.bottom_called {s : State Loc} {s' : State Loc} (same : s'.callers = s.callers) (called : s.callers ≠ []) :
    s'.bottom = s.bottom := by
  rw [State.bottom, State.bottom, same, List.getLast?_eq_some_getLast called]
  rfl

theorem State.bottom_alone {s : State Loc} (alone : s.callers = []) : s.bottom = s.loc := by
  rw [State.bottom, alone]
  rfl

theorem jump_callers {inst : Inst} {s s' : State Loc} (goes : jump ctl inst s = .goes s') : s'.callers = s.callers := by
  unfold jump at goes
  split at goes <;> cases goes
  rfl

theorem step_bottom {s s' : State Loc} (goes : Goes (step ctl) s s') :
    s'.bottom = s.bottom ∨ s'.bottom = ctl.next s.bottom ∨
      s.callers = [] ∧ ∃ inst, ctl.fetch s.loc = some inst ∧ (inst.code = .goto ∨ inst.code = .ifGoto) := by
  unfold Goes step at goes
  split at goes
  · cases goes
  · next inst here =>
    -- Without a waiting activation, the bottom one is the active one.
    have moved (same : s'.callers = s.callers) (next : s'.loc = ctl.next s.loc) :
        s'.bottom = s.bottom ∨ s'.bottom = ctl.next s.bottom := by
      by_cases alone : s.callers = []
      · refine .inr ?_
        rw [State.bottom_alone (same.trans alone), State.bottom_alone alone, next]
      · exact .inl (State.bottom_called same alone)
    have jumped (same : s'.callers = s.callers) (jumps : inst.code = .goto ∨ inst.code = .ifGoto) :
        s'.bottom = s.bottom ∨ s'.bottom = ctl.next s.bottom ∨
          s.callers = [] ∧ ∃ inst, ctl.fetch s.loc = some inst ∧ (inst.code = .goto ∨ inst.code = .ifGoto) := by
      by_cases alone : s.callers = []
      · exact .inr (.inr ⟨alone, inst, here, jumps⟩)
      · exact .inl (State.bottom_called same alone)
    unfold execute at goes
    split at goes
    · next code => exact jumped (jump_callers goes) (.inl code)
    · next code =>
      refine jumped ?_ (.inr code)
      unfold jumpIf at goes
      split at goes
      · cases goes
      · simp only at goes
        split at goes
        · exact (jump_callers goes).trans rfl
        · cases goes
          rfl
    · unfold call at goes
      simp only at goes
      repeat' split at goes
      all_goals cases goes
      refine .inl ?_
      rw [State.bottom, State.bottom, List.getLast?_cons]
      cases s.callers.getLast? <;> rfl
    · unfold ret at goes
      split at goes
      · cases goes
      · next c rest callers =>
        repeat' split at goes
        all_goals cases goes
        cases rest with
        | nil =>
          refine .inr (.inl ?_)
          rw [State.bottom, State.bottom, callers]
          rfl
        | cons c' rest =>
          refine .inl ?_
          rw [State.bottom, State.bottom, callers, List.getLast?_cons_cons]
          rfl
    · obtain ⟨d, -, rfl⟩ := goOn_goes goes
      exact (moved rfl rfl).imp_right .inl

end runs

theorem startup_codes : ∀ inst ∈ executables startupLines, inst.code = .push ∨ inst.code = .call := by
  have codes : (executables startupLines).all fun inst => inst.code == .push || inst.code == .call := by
    decide +kernel
  simpa using codes

theorem runs_bottom {files : List (List Line)} {stdin : List Byte} {s : State Spot}
    (run : Runs (interpret files) (launch stdin) s) : s.bottom.lines <:+ startupLines := by
  induction run with
  | refl => exact List.suffix_rfl
  | @tail mid s _ goes ih =>
    rcases step_bottom goes with same | next | ⟨alone, inst, here, jumps⟩
    · rwa [same]
    · rw [next]
      exact (skip_suffix _).trans ih
    · rw [State.bottom_alone alone] at ih
      have member : inst ∈ executables mid.loc.lines :=
        List.mem_of_mem_head? (by rw [← findSome_executables]; exact here)
      rcases startup_codes inst ((ih.filterMap _).subset member) with code | code <;>
        rcases jumps with jumps | jumps <;> cases code.symm.trans jumps

theorem runs_inside {files : List (List Line)} {stdin : List Byte} {s : State Spot} {inst : Inst}
    (run : Runs (interpret files) (launch stdin) s)
    (here : (Control.ofLines (systemLines :: files)).fetch s.loc = some inst) (code : inst.code = .ret) :
    s.callers ≠ [] := by
  intro alone
  have inside := runs_bottom run
  rw [State.bottom_alone alone] at inside
  have member : inst ∈ executables s.loc.lines :=
    List.mem_of_mem_head? (by rw [← findSome_executables]; exact here)
  rcases startup_codes inst ((inside.filterMap _).subset member) with code' | code' <;> cases code.symm.trans code'

/-- A run goes wrong in these ways and in no other. -/
theorem execProg_faults_iff {cfg : Config} {fuel : Nat} {srcs : List Source} {files : List (List Line)} {prog : Program}
    (listed : Listed cfg fuel srcs files) (made : makeProg cfg fuel srcs = .ok (some prog)) (small : Small files)
    (stdin : List Byte)
    (kept : ¬Yields (interpret files) (launch stdin) .lost) :
    (∃ fault, ExecProg cfg prog stdin (.fault fault)) ↔
      ∃ s, Runs (interpret files) (launch stdin) s ∧
        Broken (Control.ofLines (systemLines :: files)) s := by
  have ends := (listed.runs made small stdin).ends_iff kept .fault
  have faults : (∃ fault, ExecProg cfg prog stdin (.fault fault)) ↔
      ∃ ending, ExecProg cfg prog stdin ending ∧ outcome ending = .fault := by
    constructor
    · rintro ⟨fault, ends⟩
      exact ⟨_, ends, rfl⟩
    · rintro ⟨ending, ends, same⟩
      cases ending with
      | fault fault => exact ⟨fault, ends⟩
      | halted io => cases same
      | failed diag io => cases same
  rw [faults, ends]
  have size {s : State Spot}
      (run : Runs (interpret files) (launch stdin) s) :
      s.data.heap.length = memHeapSize := (runs_size run).trans List.length_replicate
  constructor
  · rintro ⟨s, run, ended⟩
    exact ⟨s, run, (step_fault (size run) fun inst => runs_inside run).mp ended⟩
  · rintro ⟨s, run, broken⟩
    exact ⟨s, run, (step_fault (size run) fun inst => runs_inside run).mpr broken⟩

def beyond : List Written :=
  [{ fn := "Sys.vm"
     items := [.function (Ident.ofString "Sys.init") 0, .transfer .push .const 4096, .transfer .pop .ptr 0,
       .transfer .push .const 7, .transfer .pop .this 0] }]

theorem beyond_faults : Yields (interpret (beyond.map Written.lines)) (launch []) .fault := by
  have finished : finish (interpret (beyond.map Written.lines)) 9 (launch []) = some .fault := by
    decide +kernel
  exact yields_of_finish finished

theorem execProg_faults_beyond :
    ∃ fuel prog, makeProg .unitTests fuel (beyond.map Written.source) = .ok (some prog) ∧
      (∃ fault, ExecProg .unitTests prog [] (.fault fault)) ∧
      ∃ s, Runs (interpret (beyond.map Written.lines)) (launch []) s ∧
        Broken (Control.ofLines (systemLines :: beyond.map Written.lines)) s := by
  obtain ⟨fuel, prog, made, listed⟩ := @good_listed .unitTests beyond (by decide +kernel)
  have kept : ¬Yields (interpret (beyond.map Written.lines)) (launch []) .lost := by
    intro lost
    cases beyond_faults.unique lost
  have faults_iff := execProg_faults_iff listed made ⟨by decide +kernel, by decide⟩ [] kept
  obtain ⟨s, run, ended⟩ := beyond_faults
  have size : s.data.heap.length = memHeapSize := (runs_size run).trans List.length_replicate
  have broken := (step_fault size fun _ => runs_inside run).mp ended
  exact ⟨fuel, prog, made, faults_iff.mpr ⟨s, run, broken⟩, s, run, broken⟩

end Hvme.Vm
