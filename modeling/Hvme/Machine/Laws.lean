import Hvme.Lib.Abiding
import Hvme.Machine.Heap

set_option autoImplicit false

namespace Hvme

open Outcome

structure Law (pos : Pos) (R : Machine → Machine → Prop) (S : Stop → Prop) : Prop where
  stack : ∀ m stack, R m (m.withStack stack)
  heap : ∀ m heap, R m (m.withHeap heap)
  io : ∀ m io, R m (m.withIo io)
  ei : ∀ m ei, R m (m.onFile fun file => { file with ei := ei })
  fault : ∀ fault, S (.fault fault)
  err : ∀ text, S (.err { pos := pos, text := text })

section law

variable {R : Machine → Machine → Prop} {S : Stop → Prop} {α β : Type}

namespace Law

variable {pos : Pos} (law : Law pos R S)

include law

theorem fails (fault : Fault) : Abides R S (throw (.fault fault) : ExecM α) := abides_throw (law.fault fault)

theorem errs (text : String) : Abides R S (execErr pos text : ExecM α) := fun _ => law.err text

theorem ctrlFlow (ident : Ident) : Abides R S (ctrlFlowError ident pos : ExecM Unit) :=
  abides_ite (law.errs _) (law.errs _)

theorem setsStack (stack : Stack) : Abides R S (setStack stack) := abides_modify fun m => law.stack m stack

theorem setsHeap (heap : Heap) : Abides R S (setHeap heap) := abides_modify fun m => law.heap m heap

theorem setsIo (io : Io) : Abides R S (setIo io) := abides_modify fun m => law.io m io

theorem setsEi (ei : UInt32) : Abides R S (setEi ei) := abides_modify fun m => law.ei m ei

end Law

theorem Law.lifts [Std.Refl R] {pos : Pos} (law : Law pos R S) (x : Except Fault α) : Abides R S (liftFault x) := by
  cases x with
  | error fault => exact law.fails fault
  | ok a => exact abides_pure a

theorem Law.asserts [Std.Refl R] {pos : Pos} (law : Law pos R S) (cond : Bool) : Abides R S (assert_ cond) :=
  abides_ite (abides_pure _) (law.fails _)

variable [Std.Refl R] [IsTrans Machine R]

theorem abides_getStack : Abides R S getStack := .get_bind fun _ => abides_pure _

theorem abides_getHeap : Abides R S getHeap := .get_bind fun _ => abides_pure _

variable {pos : Pos} (law : Law pos R S) (cfg : Config)

include law

namespace Law

theorem bumpsSp (count : Nat) : Abides R S (bumpSp count) := abides_getStack.bind fun _ => law.setsStack _

theorem readsFile : Abides R S activeFile := by
  refine .get_bind fun m => ?_
  cases m.prog.files[m.prog.fi]? with
  | none => exact law.fails _
  | some file => exact abides_pure file

theorem readsInst : Abides R S activeInst := by
  refine law.readsFile.bind fun file => ?_
  cases file.insts.cell[file.ei.toNat]? with
  | none => exact law.fails _
  | some inst => exact abides_pure inst

theorem readsCell (idx : Nat) : Abides R S (getCell idx) := by
  refine abides_getStack.bind fun stack => ?_
  cases stack.ops[idx]? with
  | none => exact law.fails _
  | some val => exact abides_pure val

theorem setsCell (idx : Nat) (val : Word) : Abides R S (setCell idx val) :=
  abides_getStack.bind fun _ => abides_ite (law.setsStack _) (law.fails _)

theorem readsFrame (frame : Addr) (back : Nat) : Abides R S (frameCell frame back) :=
  abides_ite (law.readsCell _) (law.fails _)

theorem pushes (val : Word) : Abides R S (execSpush cfg val) :=
  abides_getStack.bind fun _ => (law.lifts _).bind fun _ => law.setsStack _

theorem popsOne : Abides R S (execSpop cfg pos) := by
  refine abides_getStack.bind fun stack => (law.lifts _).bind fun popped => ?_
  cases popped with
  | none => exact law.errs _
  | some popped => exact (law.setsStack _).bind fun _ => abides_pure _

theorem pops {f : Word → ExecM β} (later : ∀ val, Abides R S (f val)) : Abides R S (execSpop cfg pos >>= f) :=
  (law.popsOne cfg).bind later

theorem add : Abides R S (execAdd cfg pos) := by
  refine law.pops cfg fun y => law.pops cfg fun x => ?_
  exact abides_ite (law.pushes cfg _) ((law.bumpsSp 2).bind fun _ => law.errs _)

theorem sub : Abides R S (execSub cfg pos) := by
  refine law.pops cfg fun y => law.pops cfg fun x => ?_
  exact abides_ite (law.pushes cfg _) ((law.bumpsSp 2).bind fun _ => law.errs _)

theorem unary (f : Word → Word) : Abides R S (execUnary f cfg pos) := law.pops cfg fun _ => law.pushes cfg _

theorem binary (f : Word → Word → Word) : Abides R S (execBinary f cfg pos) :=
  law.pops cfg fun _ => law.pops cfg fun _ => law.pushes cfg _

section jumps

variable (moves : ∀ m fi, R m (Machine.withFi m fi))

include moves

theorem jump (key : SymKey) (val : SymVal) : Abides R S (jumpTo key val) := by
  refine law.readsFile.bind fun file => (law.lifts _).bind ?_
  -- The name is looked up in the other files where the active one does not hold it.
  rintro ⟨_ | _, val⟩
  · refine .get_bind fun m => (law.lifts _).bind fun buf => ?_
    split
    · exact abides_pure _
    · refine (abides_modify fun m => moves m _).bind fun _ => ?_
      exact (law.setsEi _).bind fun _ => abides_pure _
    · exact abides_pure _
  · exact (law.setsEi _).bind fun _ => abides_pure _

theorem goto : Abides R S (execGoto pos) := by
  refine law.readsInst.bind fun inst => (law.jump moves _ _).bind ?_
  rintro ⟨_ | _ | _, val⟩
  · exact abides_pure _
  · exact law.ctrlFlow _
  · exact law.errs _

theorem ifGoto : Abides R S (execIfGoto cfg pos) := by
  refine law.pops cfg fun val => ?_
  refine abides_ite (law.readsInst.bind fun inst => (law.jump moves _ _).bind ?_) (abides_pure _)
  rintro ⟨_ | _ | _, val⟩
  · exact abides_pure _
  · exact (law.bumpsSp 1).bind fun _ => law.ctrlFlow _
  · exact (law.bumpsSp 1).bind fun _ => law.errs _

theorem call : Abides R S (execCall cfg pos) := by
  refine law.readsInst.bind fun inst => abides_getStack.bind fun stack => abides_getHeap.bind fun heap => ?_
  refine law.readsFile.bind fun file => .get_bind fun m => ?_
  refine abides_ite (law.errs _) ((law.jump moves _ _).bind ?_)
  rintro ⟨_ | _ | _, val⟩
  · -- The eight words of the frame.
    iterate 8 refine (law.pushes cfg _).bind fun _ => ?_
    refine abides_getStack.bind fun stack => (law.lifts _).bind fun stack => ?_
    exact (law.setsStack stack).bind fun _ => law.setsEi _
  · exact law.ctrlFlow _
  · exact law.errs _

theorem ret : Abides R S (execRet cfg pos) := by
  have cell {f : Word → ExecM Unit} (frame : Addr) (back : Nat) (later : ∀ val, Abides R S (f val)) :
      Abides R S (frameCell frame back >>= f) := (law.readsFrame frame back).bind later
  refine abides_getStack.bind fun stack => cell _ 8 fun retEi => cell _ 7 fun retFi => ?_
  -- The returned word is stored over the first argument before the rest of the frame is read.
  refine law.pops cfg fun retVal => abides_getStack.bind fun stack => (law.setsCell _ _).bind fun _ => ?_
  refine abides_getStack.bind fun stack => (law.setsStack _).bind fun _ => abides_getHeap.bind fun heap => ?_
  refine cell _ 1 fun that => cell _ 2 fun this => (law.setsHeap _).bind fun _ => ?_
  refine cell _ 3 fun argLen => cell _ 4 fun arg => cell _ 5 fun lclLen => cell _ 6 fun lcl => ?_
  refine abides_getStack.bind fun stack => (law.setsStack _).bind fun _ => .get_bind fun m => ?_
  exact abides_ite ((abides_modify fun m => moves m _).bind fun _ => law.setsEi _) (law.fails _)

end jumps

theorem builtinPrint (text : Word → List Byte) :
    Abides R S (execSpop cfg pos >>= fun val => get >>= fun m => setIo (hvmeFprintf (text val) m.io)) :=
  law.pops cfg fun _ => .get_bind fun _ => law.setsIo _

theorem builtinPrintStr : Abides R S (execBuiltinPrintStr cfg pos) := by
  refine law.pops cfg fun strStart => law.pops cfg fun nchars => abides_getHeap.bind fun heap => .get_bind fun m => ?_
  exact (law.lifts _).bind fun io => law.setsIo io

theorem builtinReadChar : Abides R S (execBuiltinReadChar cfg) := by
  refine .get_bind fun m => ?_
  simp only
  split
  · exact law.pushes cfg _
  · exact (law.setsIo _).bind fun _ => law.pushes cfg _

theorem builtinReadNum : Abides R S (execBuiltinReadNum cfg pos) := by
  refine .get_bind fun m => (law.setsIo _).bind fun _ => ?_
  split
  · exact law.errs _
  · exact (law.lifts _).bind fun stdin => (law.setsIo _).bind fun _ => law.errs _
  · exact abides_ite (law.errs _) (law.pushes cfg _)

end Law

end law

section instructions

variable {R : Machine → Machine → Prop} {S : Stop → Prop} [Std.Refl R] [IsTrans Machine R]

theorem Law.pop (cfg : Config) (inst : Inst) (law : Law inst.pos R S)
    (memories : inst.seg = .stat ∨ inst.seg = .tmp → ∀ mem, Abides R S (setMem mem)) :
    Abides R S (execPop cfg inst) := by
  refine abides_getStack.bind fun stack => abides_getHeap.bind fun heap => ?_
  cases seg : inst.seg with
  | arg | loc => exact abides_ite (law.pops cfg fun _ => law.setsCell _ _) (abides_ite (law.errs _) (law.errs _))
  | stat =>
    exact abides_ite (law.pops cfg fun _ => law.readsFile.bind fun _ => memories (.inl seg) _) (law.errs _)
  | tmp =>
    exact abides_ite (law.pops cfg fun _ => law.readsFile.bind fun _ => memories (.inr seg) _) (law.errs _)
  | const => exact law.pops cfg fun _ => abides_pure _
  | this | that =>
    exact abides_ite (law.pops cfg fun _ => (law.lifts _).bind fun heap => law.setsHeap heap) (law.errs _)
  | ptr =>
    exact abides_ite (law.pops cfg fun _ => law.setsHeap _)
      (abides_ite (law.pops cfg fun _ => law.setsHeap _) (law.errs _))

theorem Law.push (cfg : Config) (inst : Inst) (law : Law inst.pos R S) : Abides R S (execPush cfg inst) := by
  have pushed (val : Word) : Abides R S (execSpush cfg val) := law.pushes cfg val
  refine abides_getStack.bind fun stack => abides_getHeap.bind fun heap => ?_
  cases inst.seg with
  | arg | loc => exact abides_ite ((law.readsCell _).bind pushed) (abides_ite (law.errs _) (law.errs _))
  | stat | tmp => exact abides_ite (law.readsFile.bind fun _ => pushed _) (law.errs _)
  | const => exact pushed _
  | this | that => exact abides_ite ((law.lifts _).bind pushed) (law.errs _)
  | ptr =>
    exact abides_ite ((law.asserts _).bind fun _ => pushed _)
      (abides_ite ((law.asserts _).bind fun _ => pushed _) (law.errs _))

theorem execSpop_inst (cfg : Config) (pos : Pos) (m : Machine) :
    wp (execSpop cfg pos) (fun _ last => last.inst = m.inst) (fun _ _ => True) m := by
  simp only [execSpop, wp_bind, wp_getStack, wp_liftFault]
  refine ⟨fun _ _ => trivial, fun result _ => ?_⟩
  cases result with
  | none => exact trivial
  | some result => rfl

theorem Law.builtinReadStr (cfg : Config) {m : Machine} {inst : Inst} (here : m.inst = some inst)
    (law : Law inst.pos R S) : wp (execBuiltinReadStr cfg inst.pos) (fun _ m' => R m m') (fun stop _ => S stop) m := by
  -- Not a case of `Abides`: which instruction the message names depends on the machine.
  rw [execBuiltinReadStr, wp_bind]
  refine ((law.popsOne cfg m).and (execSpop_inst cfg inst.pos m)).mono (fun heapAddr mid popped => ?_) fun _ _ => And.left
  obtain ⟨allowed, same⟩ := popped
  simp only [wp_bind, wp_get]
  split
  · exact law.err _
  · simp only [wp_bind, wp_setIo, wp_ite, wp_getHeap, wp_setHeap, wp_activeInst, Machine.withIo_inst]
    have read (io : Io) : R m (mid.withIo io) := trans_of R allowed (law.io mid io)
    refine ⟨fun _ => ⟨fun _ => law.fault _, fun inst' here' => ?_⟩, fun _ => ?_⟩
    · -- The overflow names the active instruction, which the pop has left alone.
      rw [same, here] at here'
      cases here'
      exact law.err _
    · refine (law.pushes cfg _ _).mono (fun _ _ pushed => ?_) fun _ _ => id
      exact trans_of R (trans_of R (read _) (law.heap _ _)) pushed

theorem Law.exec (cfg : Config) {m : Machine} {inst : Inst} (here : m.inst = some inst) (law : Law inst.pos R S)
    (moves : inst.code ≠ .pop → ∀ m fi, R m (Machine.withFi m fi))
    (memories : inst.code = .pop → inst.seg = .stat ∨ inst.seg = .tmp → ∀ mem, Abides R S (setMem mem)) :
    wp (execInst cfg) (fun _ m' => R m m') (fun stop _ => S stop) m := by
  unfold execInst
  simp only [wp_bind, wp_activeInst, here, reduceCtorEq, false_implies, true_and, Option.some.injEq, forall_eq']
  cases code : inst.code with
  | none => exact law.err _
  | push => exact law.push cfg inst m
  | pop => exact law.pop cfg inst (memories code) m
  | add => exact law.add cfg m
  | sub => exact law.sub cfg m
  | neg | not => exact law.unary cfg _ m
  | and | or | eq | lt | gt => exact law.binary cfg _ m
  | goto => exact law.goto (moves (by simp [code])) m
  | ifGoto => exact law.ifGoto cfg (moves (by simp [code])) m
  | call => exact law.call cfg (moves (by simp [code])) m
  | ret => exact law.ret cfg (moves (by simp [code])) m
  | builtinPrintChar | builtinPrintNum => exact law.builtinPrint cfg _ m
  | builtinPrintStr => exact law.builtinPrintStr cfg m
  | builtinReadChar => exact law.builtinReadChar cfg m
  | builtinReadNum => exact law.builtinReadNum cfg m
  | builtinReadStr => exact law.builtinReadStr cfg here

theorem Law.round (cfg : Config) {m : Machine} (faults : ∀ fault, S (.fault fault))
    (laws : ∀ inst, m.inst = some inst → Law inst.pos R S)
    (moves : ∀ inst, m.inst = some inst → inst.code ≠ .pop → ∀ m fi, R m (Machine.withFi m fi))
    (memories : ∀ inst, m.inst = some inst → inst.code = .pop → inst.seg = .stat ∨ inst.seg = .tmp →
      ∀ mem, Abides R S (setMem mem)) :
    wp (execRound cfg) (fun _ m' => R m m') (fun stop _ => S stop) m := by
  simp only [execRound, wp_bind, wp_activeFile, wp_ite, wp_pure]
  refine ⟨fun _ => faults _, fun file there => ⟨fun inside => ?_, fun _ => refl_of R m⟩⟩
  have here : m.inst = some file.insts.cell[file.ei.toNat] := by
    rw [Machine.inst, there, Option.bind_some, List.getElem?_eq_getElem inside]
  have law := laws _ here
  refine (law.exec cfg here (moves _ here) (memories _ here)).mono (fun _ mid allowed => ?_) fun _ _ => id
  simp only [incEi, wp_bind, wp_activeFile, wp_setEi]
  exact ⟨fun _ => faults _, fun file _ => trans_of R allowed (law.ei mid _)⟩

end instructions

theorem execRound_blames {cfg : Config} {m m' : Machine} {diag : Diag}
    (failed : execRound cfg m = .error (.err diag) m') : ∃ inst, m.inst = some inst ∧ diag.pos = inst.pos := by
  -- Any change will do here, only the messages matter.
  let anything (_ _ : Machine) : Prop := True
  let blamed (stop : Stop) : Prop := ∀ diag, stop = .err diag → ∃ inst, m.inst = some inst ∧ diag.pos = inst.pos
  have : Std.Refl anything := ⟨fun _ => trivial⟩
  have : IsTrans Machine anything := ⟨fun _ _ _ _ _ => trivial⟩
  have faults (fault : Fault) : blamed (.fault fault) := by
    intro diag same
    cases same
  have laws (inst : Inst) (here : m.inst = some inst) : Law inst.pos anything blamed := by
    refine ⟨fun _ _ => trivial, fun _ _ => trivial, fun _ _ => trivial, fun _ _ => trivial, faults, ?_⟩
    intro text diag same
    cases same
    exact ⟨inst, here, rfl⟩
  have round := Law.round cfg faults laws (fun _ _ _ _ _ => trivial) fun _ _ _ _ _ _ => trivial
  exact round.stops failed diag rfl

section memories

variable {cfg : Config} {m m' : Machine} {j : Nat}

def Machine.memAt (m : Machine) (j : Nat) : Option Memory := m.prog.files[j]?.map File.mem

def Machine.Writes (m : Machine) (j : Nat) : Prop :=
  m.prog.fi = j ∧ ∃ inst, m.inst = some inst ∧ inst.code = .pop ∧ (inst.seg = .stat ∨ inst.seg = .tmp)

theorem memAt_onFile (m : Machine) {f : File → File} (same : m.prog.fi = j → ∀ file, (f file).mem = file.mem) :
    (m.onFile f).memAt j = m.memAt j := by
  simp only [Machine.memAt, Machine.onFile_files, List.getElem?_modify]
  cases m.prog.files[j]? with
  | none => rfl
  | some file =>
    by_cases active : m.prog.fi = j
    · simp [active, same active]
    · simp [active]

theorem Steps.memAt (steps : Steps cfg m m') (unwritten : ¬m.Writes j) : m'.memAt j = m.memAt j := by
  let silent (_ : Stop) : Prop := True
  by_cases other : m.prog.fi ≠ j ∧ ∃ inst, m.inst = some inst ∧ inst.code = .pop
  · -- A pop stays in the file, whose memory is another one.
    obtain ⟨other, inst, here, code⟩ := other
    let kept (m m' : Machine) : Prop := m'.prog.fi = m.prog.fi ∧ (m.prog.fi ≠ j → m'.memAt j = m.memAt j)
    have : Std.Refl kept := ⟨fun _ => ⟨rfl, fun _ => rfl⟩⟩
    have : IsTrans Machine kept := by
      refine ⟨fun a b c first second => ⟨second.1.trans first.1, fun away => ?_⟩⟩
      exact (second.2 (first.1 ▸ away)).trans (first.2 away)
    have law (pos : Pos) : Law pos kept silent := by
      refine ⟨fun _ _ => ⟨rfl, fun _ => rfl⟩, fun _ _ => ⟨rfl, fun _ => rfl⟩, fun _ _ => ⟨rfl, fun _ => rfl⟩,
        fun m ei => ⟨rfl, fun _ => ?_⟩, fun _ => trivial, fun _ => trivial⟩
      exact memAt_onFile m fun _ _ => rfl
    have round := Law.round cfg (fun _ => trivial) (fun inst _ => law inst.pos)
      (fun inst' here' differs => absurd (Option.some.inj (here'.symm.trans here) ▸ code) differs)
      fun _ _ _ _ mem => abides_modify fun m => ⟨rfl, fun away => memAt_onFile m fun active => absurd active away⟩
    exact (round.returns steps).2 other
  -- Everything else may change the active file, but writes to no memory, or not to this one.
  · let kept (m m' : Machine) : Prop := m'.memAt j = m.memAt j
    have : Std.Refl kept := ⟨fun _ => rfl⟩
    have : IsTrans Machine kept := ⟨fun _ _ _ first second => Eq.trans second first⟩
    have law (pos : Pos) : Law pos kept silent := by
      refine ⟨fun _ _ => rfl, fun _ _ => rfl, fun _ _ => rfl, fun m ei => ?_, fun _ => trivial, fun _ => trivial⟩
      exact memAt_onFile m fun _ _ => rfl
    have round := Law.round cfg (fun _ => trivial) (fun inst _ => law inst.pos) (fun _ _ _ _ _ => rfl)
      fun inst here code seg => by
        have active : m.prog.fi = j := by_contra fun away => other ⟨away, inst, here, code⟩
        exact absurd ⟨active, inst, here, code, seg⟩ unwritten
    exact round.returns steps

/-- The static and temporary words of a file are its own: as long as none of its instructions pops
to them, they stay as they are. -/
theorem memory_private
    (run : Relation.ReflTransGen (fun m m' => Steps cfg m m' ∧ ¬m.Writes j) m m') : m'.memAt j = m.memAt j := by
  induction run with
  | refl => rfl
  | tail _ step ih => exact (step.1.memAt step.2).trans ih

instance (m : Machine) (j : Nat) : Decidable (m.Writes j) :=
  decidable_of_iff (m.prog.fi = j ∧
      (m.inst.any fun inst => decide (inst.code = .pop ∧ (inst.seg = .stat ∨ inst.seg = .tmp))) = true)
    (by simp [Machine.Writes, Option.any_eq_true])

def Machine.afterSparing (cfg : Config) (j : Nat) : Nat → Machine → Option Machine
  | 0, m => some m
  | count + 1, m =>
    match execRound cfg m with
    | .ok true next => if m.Writes j then none else next.afterSparing cfg j count
    | _ => none

theorem Machine.afterSparing_runs {count : Nat} (ran : m.afterSparing cfg j count = some m') :
    Relation.ReflTransGen (fun m m' => Steps cfg m m' ∧ ¬m.Writes j) m m' := by
  induction count generalizing m with
  | zero =>
    cases ran
    exact .refl
  | succ count ih =>
    rw [Machine.afterSparing] at ran
    split at ran
    · next next step =>
      split at ran
      · cases ran
      · next spares => exact .head ⟨step, spares⟩ (ih ran)
    · cases ran

theorem memory_private_files :
    ∃ prog m m' mem mem',
      makeProg .unitTests 9
        [{ fn := "a.vm", content := some (ascii "function Sys.init 0\npush constant 7\npop static 0\ncall g 0\n") },
          { fn := "b.vm", content := some (ascii "function g 0\npush constant 9\npop static 0\nreturn\n") }] =
        .ok (some prog) ∧
      Reaches .unitTests (Machine.start prog []) m ∧ m.memAt 1 = some mem ∧ mem.static[0]? = some 7 ∧
      Relation.ReflTransGen (fun m m' => Steps .unitTests m m' ∧ ¬m.Writes 1) m m' ∧
      m'.memAt 2 = some mem' ∧ mem'.static[0]? = some 9 ∧ m'.memAt 1 = m.memAt 1 := by
  have ran : ((programOfAll .unitTests
      [{ fn := "a.vm", content := some (ascii "function Sys.init 0\npush constant 7\npop static 0\ncall g 0\n") },
        { fn := "b.vm", content := some (ascii "function g 0\npush constant 9\npop static 0\nreturn\n") }]).bind
      fun prog => (Machine.start prog []).after .unitTests 4).bind (fun m =>
        (m.afterSparing .unitTests 1 3).map fun m' =>
          (m.memAt 1).any (fun mem => decide (mem.static[0]? = some 7)) &&
            (m'.memAt 2).any fun mem => decide (mem.static[0]? = some 9)) = some true := by
    decide +kernel
  obtain ⟨m, bound, ran⟩ := Option.bind_eq_some_iff.mp ran
  obtain ⟨prog, made, after⟩ := Option.bind_eq_some_iff.mp bound
  obtain ⟨m', spared, stored⟩ := Option.map_eq_some_iff.mp ran
  obtain ⟨first, second⟩ := (Bool.and_eq_true_iff ..).mp stored
  obtain ⟨mem, here, seven⟩ := (Option.any_eq_true _ _).mp first
  obtain ⟨mem', there, nine⟩ := (Option.any_eq_true _ _).mp second
  have run := Machine.afterSparing_runs spared
  exact ⟨prog, m, m', mem, mem', programOfAll_made made, Machine.after_reaches after, here, of_decide_eq_true seven, run,
    there, of_decide_eq_true nine, memory_private run⟩

end memories

end Hvme
