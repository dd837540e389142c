import Hvme.Parser.Printing
import Hvme.Vm.State

set_option autoImplicit false

namespace Hvme.Vm

open Execution

structure SameInst (inst other : Inst) : Prop where
  alike : inst.Alike other
  pos : inst.pos = other.pos

section insts

variable {inst other : Inst}

theorem instText_alike (alike : inst.Alike other) : instText inst = instText other := by
  obtain ⟨code, memory, ident, nargs⟩ := alike
  unfold instText
  cases same : inst.code <;> simp only [same] at code memory ident nargs <;> simp only [← code]
  case push | pop =>
    obtain ⟨seg, offset⟩ := memory (by simp)
    rw [seg, offset]
  case goto | ifGoto => rw [ident (by simp)]
  case call => rw [ident (by simp), nargs (by simp)]

theorem SameInst.text (same : SameInst inst other) (why : Error) : why.text inst = why.text other := by
  have printed : instStr inst = instStr other := by
    rw [instStr_eq, instStr_eq, instText_alike same.alike]
  unfold Error.text
  rw [printed]

theorem SameInst.diag (same : SameInst inst other) (why : Error) : why.diag inst = why.diag other := by
  rw [Error.diag, Error.diag, same.pos, same.text]

theorem SameInst.fail {Loc Loc' : Type} {Rel : State Loc → State Loc' → Prop} {Lost : End → Prop}
    (same : SameInst inst other) (why : Error) (io : Io) :
    Matched Rel Eq Lost (@fail Loc inst why io) (@fail Loc' other why io) := by
  refine .ends ?_
  rw [same.diag]

theorem Data.exec_alike (alike : inst.Alike other) (fi : Nat) (d : Data) : d.exec fi inst = d.exec fi other := by
  obtain ⟨code, memory, -, -⟩ := alike
  unfold Data.exec
  cases same : inst.code <;> simp only [same] at code memory <;> simp only [← code]
  case push =>
    obtain ⟨seg, offset⟩ := memory (by simp)
    simp only [Data.execPush, Data.loadFrom, seg, offset]
  case pop =>
    obtain ⟨seg, offset⟩ := memory (by simp)
    simp only [Data.execPop, Data.storeTo, seg, offset]

end insts

def Data.moved (place : Nat → Nat) (d : Data) : Data := { d with memories := d.memories ∘ place }

def Result.moved (place : Nat → Nat) : Result → Result
  | .ok d => .ok (d.moved place)
  | .error why io => .error why io
  | .wrong => .wrong

theorem Result.moved_ite (place : Nat → Nat) (c : Prop) [Decidable c] (result result' : Result) :
    (if c then result else result').moved place = if c then result.moved place else result'.moved place :=
  apply_ite _ _ _ _

section moved

variable {place : Nat → Nat} (fi : Nat) (inst : Inst) (d : Data)

theorem Data.moved_pop (rest : Word → Data → Result) (rest' : Word → Data → Result)
    (later : ∀ val d, rest val (Data.moved place d) = (rest' val d).moved place) :
    (d.moved place).pop rest = (d.pop rest').moved place := by
  unfold Data.pop
  cases work : d.frame.work with
  | nil => simp only [Data.moved, work, Result.moved]
  | cons val work' =>
    simp only [Data.moved, work]
    exact later val (d.withWork work')

theorem Data.moved_setMem (injective : Function.Injective place) (f : Memory → Memory) :
    (d.moved place).setMem fi f = (d.setMem (place fi) f).moved place := by
  -- With an injective `place` no other file shares the memory that is written to.
  simp only [Data.setMem, Data.moved, Function.update_comp_eq_of_injective _ injective, Function.comp_apply]

theorem Data.moved_load (addr : Nat) : (d.moved place).load addr = (d.load addr).moved place := by
  unfold Data.load
  simp only [Data.moved]
  split
  · split <;> rfl
  · rfl

theorem Data.moved_store (addr : Nat) : (d.moved place).store addr = (d.store addr).moved place := by
  unfold Data.store
  split
  · refine Data.moved_pop d _ _ fun val d => ?_
    rw [Result.moved_ite]
    rfl
  · rfl

theorem Data.moved_loadFrom (entries : List Word) :
    (d.moved place).loadFrom inst entries = (d.loadFrom inst entries).moved place := by
  unfold Data.loadFrom
  split <;> rfl

theorem Data.moved_storeTo (size : Nat) (put put' : Word → Data → Data)
    (same : ∀ val d, put val (Data.moved place d) = (put' val d).moved place) :
    (d.moved place).storeTo inst size put = (d.storeTo inst size put').moved place := by
  unfold Data.storeTo
  split
  · exact Data.moved_pop d _ _ fun val d => congrArg Result.ok (same val d)
  · rfl

theorem Data.moved_execPush : (d.moved place).execPush fi inst = (d.execPush (place fi) inst).moved place := by
  unfold Data.execPush
  cases inst.seg with
  | arg => exact Data.moved_loadFrom inst d _
  | loc => exact Data.moved_loadFrom inst d _
  | this => exact Data.moved_load d _
  | that => exact Data.moved_load d _
  | const => rfl
  | stat | tmp =>
    simp only [Result.moved_ite]
    rfl
  | ptr =>
    simp only [Data.loadPointer, Result.moved_ite]
    rfl

theorem Data.moved_execPop (injective : Function.Injective place) :
    (d.moved place).execPop fi inst = (d.execPop (place fi) inst).moved place := by
  unfold Data.execPop
  cases inst.seg with
  | arg => exact Data.moved_storeTo inst d _ _ _ fun _ _ => rfl
  | loc => exact Data.moved_storeTo inst d _ _ _ fun _ _ => rfl
  | stat => exact Data.moved_storeTo inst d _ _ _ fun _ d => Data.moved_setMem fi d injective _
  | tmp => exact Data.moved_storeTo inst d _ _ _ fun _ d => Data.moved_setMem fi d injective _
  | const => exact Data.moved_pop d _ _ fun _ _ => rfl
  | this => exact Data.moved_store d _
  | that => exact Data.moved_store d _
  | ptr =>
    simp only
    split
    · exact Data.moved_pop d _ _ fun _ _ => rfl
    · split
      · exact Data.moved_pop d _ _ fun _ _ => rfl
      · rfl

theorem Data.moved_unary (f : Word → Word) : (d.moved place).unary f = (d.unary f).moved place :=
  Data.moved_pop d _ _ fun _ _ => rfl

theorem Data.moved_binary (f : Word → Word → Word) : (d.moved place).binary f = (d.binary f).moved place :=
  Data.moved_pop d _ _ fun _ d => Data.moved_pop d _ _ fun _ _ => rfl

theorem Data.moved_print (text : Word → List Byte) : (d.moved place).print text = (d.print text).moved place :=
  Data.moved_pop d _ _ fun _ _ => rfl

theorem Data.moved_exec (injective : Function.Injective place) :
    (d.moved place).exec fi inst = (d.exec (place fi) inst).moved place := by
  unfold Data.exec
  cases inst.code with
  | push => exact Data.moved_execPush fi inst d
  | pop => exact Data.moved_execPop fi inst d injective
  | neg | not => exact Data.moved_unary d _
  | and | or | eq | lt | gt => exact Data.moved_binary d _
  | builtinPrintChar | builtinPrintNum => exact Data.moved_print d _
  | none | goto | ifGoto | call | ret => rfl
  | add | sub =>
    refine Data.moved_pop d _ _ fun x d => Data.moved_pop d _ _ fun y d => ?_
    rw [Result.moved_ite]
    rfl
  | builtinPrintStr =>
    refine Data.moved_pop d _ _ fun x d => Data.moved_pop d _ _ fun y d => ?_
    rw [Result.moved_ite]
    rfl
  | builtinReadChar =>
    simp only [Data.readChar, Data.moved]
    split <;> rfl
  | builtinReadNum =>
    simp only [Data.readNum, Data.moved]
    split
    · rfl
    · split <;> rfl
    · split <;> rfl
  | builtinReadStr =>
    refine Data.moved_pop d _ _ fun addr d => ?_
    simp only [Data.moved]
    split
    · rfl
    · split <;> rfl

end moved

def jumpKey (inst : Inst) : Option SymKey :=
  match inst.code with
  | .goto | .ifGoto => some (mkKey inst.ident .label)
  | .call => some (mkKey inst.ident .func)
  | _ => none

inductive SameTarget {Loc Loc' : Type} (R : Loc → Loc' → Prop) : Target Loc → Target Loc' → Prop
  | found {loc : Loc} {loc' : Loc'} (related : R loc loc') (nlocals : UInt16) :
      SameTarget R (.found loc nlocals) (.found loc' nlocals)
  | missing : SameTarget R .missing .missing
  | ambiguous : SameTarget R .ambiguous .ambiguous

structure Reads {Loc Loc' : Type} (ctl : Control Loc) (ctl' : Control Loc') (place : Nat → Nat)
    (R : Loc → Loc' → Prop) (loc : Loc) (loc' : Loc') (inst other : Inst) : Prop where
  same : SameInst inst other
  file : ctl'.file loc' = place (ctl.file loc)
  next : R (ctl.next loc) (ctl'.next loc')
  jumps : ∀ key, jumpKey inst = some key → SameTarget R (ctl.target loc key) (ctl'.target loc' key)

structure Corresponds {Loc Loc' : Type} (ctl : Control Loc) (ctl' : Control Loc') (place : Nat → Nat)
    (R : Loc → Loc' → Prop) : Prop where
  injective : Function.Injective place
  ended : ∀ loc loc', R loc loc' → ctl.fetch loc = none → ctl'.fetch loc' = none
  fetched : ∀ loc loc' inst, R loc loc' → ctl.fetch loc = some inst →
    ∃ other, ctl'.fetch loc' = some other ∧ Reads ctl ctl' place R loc loc' inst other

structure SameCaller {Loc Loc' : Type} (ctl : Control Loc) (ctl' : Control Loc') (R : Loc → Loc' → Prop)
    (c : Caller Loc) (c' : Caller Loc') : Prop where
  next : R (ctl.next c.loc) (ctl'.next c'.loc)
  frame : c.frame = c'.frame

structure Beside {Loc Loc' : Type} (ctl : Control Loc) (ctl' : Control Loc') (place : Nat → Nat)
    (R : Loc → Loc' → Prop) (s : State Loc) (s' : State Loc') : Prop where
  loc : R s.loc s'.loc
  data : s.data = s'.data.moved place
  callers : List.Forall₂ (SameCaller ctl ctl' R) s.callers s'.callers

section steps

variable {Loc Loc' : Type} {ctl : Control Loc} {ctl' : Control Loc'} {place : Nat → Nat} {R : Loc → Loc' → Prop}

theorem lclAbove_same {callers : List (Caller Loc)} {callers' : List (Caller Loc')}
    (same : List.Forall₂ (SameCaller ctl ctl' R) callers callers') (nargs : Nat) :
    lclAbove nargs callers = lclAbove nargs callers' := by
  induction same generalizing nargs with
  | nil => rfl
  | cons first rest ih => rw [lclAbove, lclAbove, first.frame, ih]

variable {s : State Loc} {s' : State Loc'} (beside : Beside ctl ctl' place R s s')

include beside

theorem Beside.frame : s.data.frame = s'.data.frame := by
  rw [beside.data, Data.moved]

theorem Beside.io : s.data.io = s'.data.io := by
  rw [beside.data, Data.moved]

theorem Beside.lcl : s.lcl = s'.lcl := by
  rw [State.lcl, State.lcl, beside.frame, lclAbove_same beside.callers]

theorem Beside.depth : s.depth = s'.depth := by
  rw [State.depth, State.depth, beside.lcl, beside.frame]

variable {inst other : Inst} (reads : Reads ctl ctl' place R s.loc s'.loc inst other)

include reads

omit beside in
theorem Reads.jump {t : State Loc} {t' : State Loc'} (beside' : Beside ctl ctl' place R t t')
    (loc : t.loc = s.loc) (loc' : t'.loc = s'.loc) (jumps : jumpKey inst = some (mkKey inst.ident .label))
    (ident : inst.ident = other.ident) :
    Matched (Beside ctl ctl' place R) Eq (fun _ => False) (jump ctl inst t) (jump ctl' other t') := by
  have there := reads.jumps _ jumps
  unfold Vm.jump
  rw [← ident, loc, loc']
  generalize ctl.target s.loc _ = found, ctl'.target s'.loc _ = found' at there ⊢
  cases there with
  | found related _ => exact .goes { beside' with loc := related }
  | missing =>
    rw [beside'.io]
    exact reads.same.fail _ _
  | ambiguous =>
    rw [beside'.io]
    exact reads.same.fail _ _

theorem Beside.jumpIf (jumps : jumpKey inst = some (mkKey inst.ident .label)) (ident : inst.ident = other.ident) :
    Matched (Beside ctl ctl' place R) Eq (fun _ => False) (jumpIf ctl inst s) (jumpIf ctl' other s') := by
  unfold Vm.jumpIf
  rw [beside.frame]
  cases s'.data.frame.work with
  | nil =>
    rw [beside.io]
    exact reads.same.fail _ _
  | cons val work =>
    have popped : Beside ctl ctl' place R (s.withData (s.data.withWork work)) (s'.withData (s'.data.withWork work)) :=
      { beside with data := by rw [State.withData, beside.data]; rfl }
    simp only
    split
    · exact reads.jump popped rfl rfl jumps ident
    · exact .goes { popped with loc := reads.next }

theorem Beside.call (jumps : jumpKey inst = some (mkKey inst.ident .func)) (ident : inst.ident = other.ident)
    (nargs : inst.nargs = other.nargs) :
    Matched (Beside ctl ctl' place R) Eq (fun _ => False) (call ctl inst s) (call ctl' other s') := by
  have there := reads.jumps _ jumps
  unfold Vm.call
  simp only [← ident, ← nargs, beside.frame, beside.depth, beside.io]
  split
  · exact reads.same.fail _ _
  · generalize ctl.target s.loc _ = found, ctl'.target s'.loc _ = found' at there ⊢
    cases there with
    | found related nlocals =>
      simp only
      split
      · refine .goes { loc := related, data := ?_, callers := .cons ⟨reads.next, rfl⟩ beside.callers }
        rw [beside.data]
        rfl
      · exact .ends rfl
    | missing => exact reads.same.fail _ _
    | ambiguous => exact reads.same.fail _ _

theorem Beside.ret : Matched (Beside ctl ctl' place R) Eq (fun _ => False) (ret ctl inst s) (ret ctl' other s') := by
  have waiting := beside.callers
  unfold Vm.ret
  rw [beside.lcl, beside.frame, beside.io]
  generalize s.callers = callers, s'.callers = callers' at waiting ⊢
  cases waiting with
  | nil => exact .ends rfl
  | cons first rest =>
    simp only
    split
    · exact .ends rfl
    · cases s'.data.frame.work with
      | nil => exact reads.same.fail _ _
      | cons val work =>
        refine .goes { loc := first.next, data := ?_, callers := rest }
        rw [beside.data, first.frame]
        rfl

theorem Beside.goOn (injective : Function.Injective place) :
    Matched (Beside ctl ctl' place R) Eq (fun _ => False) (goOn ctl inst s) (goOn ctl' other s') := by
  unfold Vm.goOn
  rw [beside.data, Data.moved_exec _ _ _ injective, ← reads.file, Data.exec_alike reads.same.alike]
  cases s'.data.exec (ctl'.file s'.loc) other with
  | ok d => exact .goes { loc := reads.next, data := rfl, callers := beside.callers }
  | error why io => exact reads.same.fail _ _
  | wrong => exact .ends rfl

theorem Beside.execute (injective : Function.Injective place) :
    Matched (Beside ctl ctl' place R) Eq (fun _ => False) (execute ctl inst s) (execute ctl' other s') := by
  obtain ⟨code, -, ident, nargs⟩ := reads.same.alike
  unfold Vm.execute
  rw [← code]
  cases same : inst.code
  case goto => exact reads.jump beside rfl rfl (by rw [jumpKey, same]) (ident (by simp [same]))
  case ifGoto => exact beside.jumpIf reads (by rw [jumpKey, same]) (ident (by simp [same]))
  case call => exact beside.call reads (by rw [jumpKey, same]) (ident (by simp [same])) (nargs same)
  case ret => exact beside.ret reads
  all_goals exact beside.goOn reads injective

omit beside reads in
theorem Corresponds.agree (corresponds : Corresponds ctl ctl' place R) :
    Agree (step ctl) (step ctl') (Beside ctl ctl' place R) := by
  intro s s' beside
  unfold step
  cases fetched : ctl.fetch s.loc with
  | none =>
    rw [corresponds.ended _ _ beside.loc fetched]
    exact .ends (by rw [beside.io])
  | some inst =>
    obtain ⟨other, fetched', reads⟩ := corresponds.fetched _ _ inst beside.loc fetched
    rw [fetched']
    exact beside.execute reads corresponds.injective

end steps

end Hvme.Vm
