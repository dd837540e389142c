import Hvme.Vm.Faults

set_option autoImplicit false

namespace Hvme.Vm

open Execution

structure Shape where
  args : Nat
  locals : Nat
  work : Nat
deriving DecidableEq, Repr

def Frame.shape (frame : Frame) : Shape where
  args := frame.args.length
  locals := frame.locals.length
  work := frame.work.length

namespace Shape

def covers (sh : Shape) (inst : Inst) : Bool :=
  match inst.seg with
  | .arg => inst.offset.toNat < sh.args
  | .loc => inst.offset.toNat < sh.locals
  | .stat => inst.offset.toNat < memStatSize
  | .tmp => inst.offset.toNat < memTempSize
  | .ptr => inst.offset.toNat ≤ 1
  | .const | .this | .that => true

def take (sh : Shape) (pops pushes : Nat) : Option Shape :=
  if pops ≤ sh.work then some { sh with work := sh.work - pops + pushes } else none

def exec (inst : Inst) (sh : Shape) : Option Shape :=
  match inst.code with
  | .push => if sh.covers inst then sh.take 0 1 else none
  | .pop => if sh.covers inst then sh.take 1 0 else none
  | .neg | .not | .builtinReadStr => sh.take 1 1
  | .add | .sub | .and | .or | .eq | .lt | .gt => sh.take 2 1
  | .builtinPrintChar | .builtinPrintNum => sh.take 1 0
  | .builtinPrintStr => sh.take 2 0
  | .builtinReadChar | .builtinReadNum => sh.take 0 1
  | .none | .goto | .ifGoto | .call | .ret => none

theorem take_some {sh after : Shape} {pops pushes : Nat} (taken : sh.take pops pushes = some after) :
    pops ≤ sh.work ∧ after = { sh with work := sh.work - pops + pushes } := by
  unfold take at taken
  split at taken
  · next enough =>
    cases taken
    exact ⟨enough, rfl⟩
  · cases taken

theorem covers_some {sh after : Shape} {inst : Inst} {pops pushes : Nat}
    (taken : (if sh.covers inst then sh.take pops pushes else none) = some after) :
    sh.covers inst = true ∧ sh.take pops pushes = some after := by
  split at taken
  · next covered => exact ⟨covered, taken⟩
  · cases taken

end Shape

/-- The errors that the values bring about, and not the sizes of the segments. -/
def Error.Dynamic : Error → Prop
  | .heapAddress _ | .addOverflow _ _ | .subUnderflow _ _ | .readFailed | .notDigits | .tooLarge _ => True
  | _ => False

def Result.Shaped (sh : Shape) : Result → Prop
  | .ok d => d.frame.shape = sh
  | .error why _ => why.Dynamic
  | .wrong => True

section exec

variable {d : Data} {sh : Shape}

theorem Result.shaped_ite {c : Prop} [Decidable c] {result result' : Result} (first : c → result.Shaped sh)
    (second : ¬c → result'.Shaped sh) : (if c then result else result').Shaped sh := by
  split
  · next holds => exact first holds
  · next fails => exact second fails

theorem Data.pop_shaped {rest : Word → Data → Result} (some_ : 0 < d.frame.work.length)
    (later : ∀ val work, work.length + 1 = d.frame.work.length → (rest val (d.withWork work)).Shaped sh) :
    (d.pop rest).Shaped sh := by
  unfold Data.pop
  cases same : d.frame.work with
  | nil =>
    rw [same] at some_
    cases some_
  | cons val work => exact later val work (by rw [same, List.length_cons])

theorem Data.pop_two_shaped {rest : Word → Word → Data → Result} (two : 2 ≤ d.frame.work.length)
    (later : ∀ y x work, work.length + 2 = d.frame.work.length → (rest y x (d.withWork work)).Shaped sh) :
    (d.pop fun y d => d.pop fun x d => rest y x d).Shaped sh := by
  refine Data.pop_shaped (by omega) fun y work first => ?_
  refine Data.pop_shaped (show 0 < work.length by omega) fun x rest' second => ?_
  have second : rest'.length + 1 = work.length := second
  exact later y x rest' (by omega)

theorem taken_shape {pops pushes : Nat} (taken : d.frame.shape.take pops pushes = some sh) {frame : Frame}
    (args : frame.args.length = d.frame.args.length) (locals : frame.locals.length = d.frame.locals.length)
    (work : frame.work.length + pops = d.frame.work.length + pushes) : frame.shape = sh := by
  obtain ⟨enough, rfl⟩ := Shape.take_some taken
  have enough : pops ≤ d.frame.work.length := enough
  rw [Frame.shape, Frame.shape, args, locals, Shape.mk.injEq]
  refine ⟨rfl, rfl, ?_⟩
  change frame.work.length = d.frame.work.length - pops + pushes
  omega

theorem Data.push_shaped (taken : d.frame.shape.take 0 1 = some sh) (val : Word) : (d.push val).frame.shape = sh :=
  taken_shape taken rfl rfl rfl

theorem Data.execPush_shaped (fi : Nat) (inst : Inst) (covered : d.frame.shape.covers inst = true)
    (taken : d.frame.shape.take 0 1 = some sh) : (d.execPush fi inst).Shaped sh := by
  have pushed := Data.push_shaped taken
  have from_ (entries : List Word) (inside : inst.offset.toNat < entries.length) :
      (d.loadFrom inst entries).Shaped sh := by
    rw [Data.loadFrom, List.getElem?_eq_getElem inside]
    exact pushed _
  have load (addr : Nat) : (d.load addr).Shaped sh := by
    refine Result.shaped_ite (fun _ => ?_) fun _ => trivial
    cases d.heap[addr]? with
    | none => trivial
    | some val => exact pushed val
  have pointer (ptr : Word) : (d.loadPointer ptr).Shaped sh :=
    Result.shaped_ite (fun _ => pushed ptr) fun _ => trivial
  -- The heap and the pointers hold values, for which no shape can answer.
  unfold Shape.covers at covered
  unfold Data.execPush
  cases seg : inst.seg with
  | arg =>
    simp only [seg] at covered
    exact from_ d.frame.args (of_decide_eq_true covered)
  | loc =>
    simp only [seg] at covered
    exact from_ d.frame.locals (of_decide_eq_true covered)
  | stat => exact Result.shaped_ite (fun _ => pushed _) fun beyond => absurd (by simpa [seg] using covered) beyond
  | tmp => exact Result.shaped_ite (fun _ => pushed _) fun beyond => absurd (by simpa [seg] using covered) beyond
  | const => exact pushed _
  | this | that => exact load _
  | ptr =>
    have two : inst.offset.toNat ≤ 1 := by simpa [seg] using covered
    refine Result.shaped_ite (fun _ => pointer _) fun other => Result.shaped_ite (fun _ => pointer _) fun another => ?_
    omega

theorem Data.execPop_shaped (fi : Nat) (inst : Inst) (covered : d.frame.shape.covers inst = true)
    (taken : d.frame.shape.take 1 0 = some sh) : (d.execPop fi inst).Shaped sh := by
  have some_ : 0 < d.frame.work.length := (Shape.take_some taken).1
  have pops {put : Word → Data → Data}
      (keeps : ∀ val d, (put val d).frame.work = d.frame.work ∧ (put val d).frame.args.length = d.frame.args.length ∧
        (put val d).frame.locals.length = d.frame.locals.length) :
      (d.pop fun val d => .ok (put val d)).Shaped sh := by
    refine Data.pop_shaped some_ fun val work shorter => ?_
    obtain ⟨same, args, locals⟩ := keeps val (d.withWork work)
    refine taken_shape taken args locals ?_
    rw [same]
    exact shorter
  have store (addr : Nat) : (d.store addr).Shaped sh := by
    refine Result.shaped_ite (fun _ => ?_) fun _ => trivial
    refine Data.pop_shaped some_ fun val work shorter => Result.shaped_ite (fun _ => ?_) fun _ => trivial
    exact taken_shape taken rfl rfl shorter
  unfold Shape.covers at covered
  unfold Data.execPop
  cases seg : inst.seg with
  | arg =>
    simp only [seg] at covered
    refine Result.shaped_ite (fun _ => pops fun _ _ => ⟨rfl, List.length_set .., rfl⟩) fun beyond => ?_
    exact absurd (of_decide_eq_true covered) beyond
  | loc =>
    simp only [seg] at covered
    refine Result.shaped_ite (fun _ => pops fun _ _ => ⟨rfl, rfl, List.length_set ..⟩) fun beyond => ?_
    exact absurd (of_decide_eq_true covered) beyond
  | stat | tmp =>
    refine Result.shaped_ite (fun _ => pops fun _ _ => ⟨rfl, rfl, rfl⟩) fun beyond => ?_
    exact absurd (by simpa [seg] using covered) beyond
  | const => exact pops fun _ _ => ⟨rfl, rfl, rfl⟩
  | this | that => exact store _
  | ptr =>
    have two : inst.offset.toNat ≤ 1 := by simpa [seg] using covered
    refine Result.shaped_ite (fun _ => pops fun _ _ => ⟨rfl, rfl, rfl⟩) fun other => ?_
    refine Result.shaped_ite (fun _ => pops fun _ _ => ⟨rfl, rfl, rfl⟩) fun another => ?_
    omega

theorem Data.unary_shaped (f : Word → Word) (taken : d.frame.shape.take 1 1 = some sh) : (d.unary f).Shaped sh :=
  Data.pop_shaped (Shape.take_some taken).1 fun _ _ shorter => taken_shape taken rfl rfl (congrArg (· + 1) shorter)

theorem Data.binary_shaped (f : Word → Word → Word) (taken : d.frame.shape.take 2 1 = some sh) :
    (d.binary f).Shaped sh :=
  Data.pop_two_shaped (Shape.take_some taken).1 fun _ _ _ shorter =>
    taken_shape taken rfl rfl (congrArg (· + 1) shorter)

theorem Data.exec_shaped (fi : Nat) (inst : Inst) (shaped : d.frame.shape.exec inst = some sh) :
    (d.exec fi inst).Shaped sh := by
  unfold Shape.exec at shaped
  unfold Data.exec
  cases code : inst.code with
  | push =>
    simp only [code] at shaped
    obtain ⟨covered, taken⟩ := Shape.covers_some shaped
    exact Data.execPush_shaped fi inst covered taken
  | pop =>
    simp only [code] at shaped
    obtain ⟨covered, taken⟩ := Shape.covers_some shaped
    exact Data.execPop_shaped fi inst covered taken
  | neg | not =>
    simp only [code] at shaped
    exact Data.unary_shaped _ shaped
  | and | or | eq | lt | gt =>
    simp only [code] at shaped
    exact Data.binary_shaped _ shaped
  | add | sub =>
    simp only [code] at shaped
    refine Data.pop_two_shaped (Shape.take_some shaped).1 fun y x work shorter => ?_
    refine Result.shaped_ite (fun _ => ?_) fun _ => trivial
    exact taken_shape shaped rfl rfl (congrArg (· + 1) shorter)
  | builtinPrintChar | builtinPrintNum =>
    simp only [code] at shaped
    exact Data.pop_shaped (Shape.take_some shaped).1 fun _ _ shorter => taken_shape shaped rfl rfl shorter
  | builtinPrintStr =>
    simp only [code] at shaped
    refine Data.pop_two_shaped (Shape.take_some shaped).1 fun y x work shorter => ?_
    exact Result.shaped_ite (fun _ => taken_shape shaped rfl rfl shorter) fun _ => trivial
  | builtinReadChar =>
    simp only [code] at shaped
    simp only [Data.readChar]
    split <;> exact taken_shape shaped rfl rfl rfl
  | builtinReadNum =>
    simp only [code] at shaped
    simp only [Data.readNum]
    split
    · trivial
    · split <;> trivial
    · exact Result.shaped_ite (fun _ => trivial) fun _ => taken_shape shaped rfl rfl rfl
  | builtinReadStr =>
    simp only [code] at shaped
    refine Data.pop_shaped (Shape.take_some shaped).1 fun addr work shorter => ?_
    simp only
    split
    · trivial
    · exact Result.shaped_ite (fun _ => trivial) fun _ => taken_shape shaped rfl rfl (congrArg (· + 1) shorter)
  | none | goto | ifGoto | call | ret => simp [code] at shaped

end exec

section control

variable {Loc : Type} (ctl : Control Loc) (shapes : Loc → Option Shape)

def Control.arrives (loc : Loc) (key : SymKey) (sh : Nat → Shape) : Bool :=
  match ctl.target loc key with
  | .found target nlocals => shapes target == some (sh nlocals.toNat)
  | .missing | .ambiguous => false

def Control.passes (loc : Loc) (after : Option Shape) : Bool := after.isSome && shapes (ctl.next loc) == after

def Control.checks (loc : Loc) (sh : Shape) : Bool :=
  match ctl.fetch loc with
  | none => true
  | some inst =>
    match inst.code with
    | .goto => ctl.arrives shapes loc (mkKey inst.ident .label) fun _ => sh
    | .ifGoto =>
      ctl.passes shapes loc (sh.take 1 0) &&
        ctl.arrives shapes loc (mkKey inst.ident .label) fun _ => { sh with work := sh.work - 1 }
    | .call =>
      ctl.passes shapes loc (sh.take inst.nargs.toNat 1) &&
        ctl.arrives shapes loc (mkKey inst.ident .func) fun nlocals =>
          { args := inst.nargs.toNat, locals := nlocals, work := 0 }
    -- Whatever the caller is, it has been checked at its call.
    | .ret => 0 < sh.work
    | _ => ctl.passes shapes loc (sh.exec inst)

/-- Every place with a shape takes it to the next ones. -/
def Shaped : Prop := ∀ loc sh, shapes loc = some sh → ctl.checks shapes loc sh = true

structure State.Shaped (s : State Loc) : Prop where
  here : shapes s.loc = some s.data.frame.shape
  callers : ∀ c ∈ s.callers,
    shapes (ctl.next c.loc) = some { c.frame.shape with work := c.frame.work.length + 1 }

inductive Permits (s : State Loc) : Move (State Loc) End → Prop
  | goes {s' : State Loc} (shaped : s'.Shaped ctl shapes) : Permits s (.goes s')
  | halted (io : Io) : Permits s (.ends (.halted io))
  | failed {inst : Inst} {why : Error} (io : Io) (here : ctl.fetch s.loc = some inst) (dynamic : why.Dynamic) :
      Permits s (fail inst why io)
  | fault : Permits s (.ends .fault)
  | lost (deep : 2 ^ 16 ≤ s.lcl) : Permits s (.ends .lost)

variable {ctl shapes} {s : State Loc} {inst : Inst}

theorem Control.arrives_iff {loc : Loc} {key : SymKey} {sh : Nat → Shape}
    (arrives : ctl.arrives shapes loc key sh = true) :
    ∃ target nlocals, ctl.target loc key = .found target nlocals ∧ shapes target = some (sh nlocals.toNat) := by
  unfold Control.arrives at arrives
  split at arrives
  · next target nlocals found => exact ⟨target, nlocals, found, eq_of_beq arrives⟩
  · cases arrives
  · cases arrives

theorem Control.passes_iff {loc : Loc} {after : Option Shape} (passes : ctl.passes shapes loc after = true) :
    ∃ sh, after = some sh ∧ shapes (ctl.next loc) = some sh := by
  obtain ⟨some_, next⟩ := Bool.and_eq_true_iff.mp passes
  obtain ⟨sh, rfl⟩ := Option.isSome_iff_exists.mp some_
  exact ⟨sh, rfl, eq_of_beq next⟩

theorem jump_sound {sh : Shape} (arrives : ctl.arrives shapes s.loc (mkKey inst.ident .label) (fun _ => sh) = true)
    {d : Data} (shape : d.frame.shape = sh) (shaped : s.Shaped ctl shapes) :
    Permits ctl shapes s (jump ctl inst (s.withData d)) := by
  obtain ⟨target, nlocals, found, there⟩ := Control.arrives_iff arrives
  have found : ctl.target (s.withData d).loc (mkKey inst.ident .label) = .found target nlocals := found
  rw [jump, found]
  exact .goes ⟨there.trans (congrArg some shape.symm), shaped.callers⟩

theorem jumpIf_sound (shaped : s.Shaped ctl shapes)
    (passes : ctl.passes shapes s.loc (s.data.frame.shape.take 1 0) = true)
    (arrives : ctl.arrives shapes s.loc (mkKey inst.ident .label)
      (fun _ => { s.data.frame.shape with work := s.data.frame.shape.work - 1 }) = true) :
    Permits ctl shapes s (jumpIf ctl inst s) := by
  obtain ⟨sh, taken, next⟩ := Control.passes_iff passes
  have some_ : 0 < s.data.frame.work.length := (Shape.take_some taken).1
  unfold jumpIf
  split
  · next empty =>
    rw [empty] at some_
    cases some_
  · next val work full =>
    have shorter : work.length + 1 = s.data.frame.work.length := by rw [full, List.length_cons]
    have shape : (s.data.withWork work).frame.shape = sh := taken_shape taken rfl rfl shorter
    obtain ⟨-, rfl⟩ := Shape.take_some taken
    simp only
    split
    · exact jump_sound arrives shape shaped
    · exact .goes ⟨next.trans (congrArg some shape.symm), shaped.callers⟩

theorem call_sound (shaped : s.Shaped ctl shapes)
    (passes : ctl.passes shapes s.loc (s.data.frame.shape.take inst.nargs.toNat 1) = true)
    (arrives : ctl.arrives shapes s.loc (mkKey inst.ident .func)
      (fun nlocals => { args := inst.nargs.toNat, locals := nlocals, work := 0 }) = true) :
    Permits ctl shapes s (call ctl inst s) := by
  obtain ⟨sh, taken, next⟩ := Control.passes_iff passes
  obtain ⟨target, nlocals, found, there⟩ := Control.arrives_iff arrives
  obtain ⟨given, rfl⟩ := Shape.take_some taken
  have given : inst.nargs.toNat ≤ s.data.frame.work.length := given
  have deep : ¬inst.nargs.toNat > s.depth := by
    unfold State.depth
    omega
  simp only [call, deep, if_false, found, given, if_true]
  -- The function starts with the shape of its place, and the caller waits for one word more.
  refine .goes ⟨?_, List.forall_mem_cons.mpr ⟨?_, shaped.callers⟩⟩
  · rw [there, Option.some.injEq, Frame.shape, Shape.mk.injEq]
    refine ⟨?_, List.length_replicate.symm, rfl⟩
    rw [Frame.enter, List.length_reverse, List.length_take, Nat.min_eq_left given]
  · rw [next, Option.some.injEq, Shape.mk.injEq]
    refine ⟨rfl, rfl, ?_⟩
    rw [Frame.leave, List.length_drop]
    rfl

theorem ret_sound (shaped : s.Shaped ctl shapes) (some_ : 0 < s.data.frame.work.length) :
    Permits ctl shapes s (ret ctl inst s) := by
  unfold ret
  split
  · exact .fault
  · next c rest callers =>
    -- The waiting caller already has the shape that it has with its answer.
    obtain ⟨first, others⟩ := List.forall_mem_cons.mp (callers ▸ shaped.callers)
    split
    · next deep => exact .lost deep
    · split
      · next empty =>
        rw [empty] at some_
        cases some_
      · exact .goes ⟨first, others⟩

theorem goOn_sound (here : ctl.fetch s.loc = some inst) (shaped : s.Shaped ctl shapes)
    (passes : ctl.passes shapes s.loc (s.data.frame.shape.exec inst) = true) :
    Permits ctl shapes s (goOn ctl inst s) := by
  obtain ⟨sh, taken, next⟩ := Control.passes_iff passes
  have result := Data.exec_shaped (ctl.file s.loc) inst taken
  unfold goOn
  cases exec : s.data.exec (ctl.file s.loc) inst with
  | ok d =>
    rw [exec] at result
    have shape : d.frame.shape = sh := result
    exact .goes ⟨next.trans (congrArg some shape.symm), shaped.callers⟩
  | error why io =>
    rw [exec] at result
    exact .failed io here result
  | wrong => exact .fault

theorem step_sound (program : Shaped ctl shapes) (shaped : s.Shaped ctl shapes) : Permits ctl shapes s (step ctl s) := by
  have checked := program _ _ shaped.here
  unfold Control.checks at checked
  unfold step
  cases here : ctl.fetch s.loc with
  | none => exact .halted _
  | some inst =>
    simp only [here] at checked
    simp only [execute]
    cases code : inst.code with
    | goto =>
      simp only [code] at checked
      exact jump_sound checked rfl shaped
    | ifGoto =>
      simp only [code, Bool.and_eq_true] at checked
      exact jumpIf_sound shaped checked.1 checked.2
    | call =>
      simp only [code, Bool.and_eq_true] at checked
      exact call_sound shaped checked.1 checked.2
    | ret =>
      simp only [code] at checked
      exact ret_sound shaped (of_decide_eq_true checked)
    | _ =>
      simp only [code] at checked
      exact goOn_sound here shaped checked

theorem runs_shaped (program : Shaped ctl shapes) {s' : State Loc} (run : Runs (step ctl) s s')
    (shaped : s.Shaped ctl shapes) : s'.Shaped ctl shapes := by
  induction run with
  | refl => exact shaped
  | tail _ goes ih =>
    have sound := step_sound program ih
    rw [show step ctl _ = _ from goes] at sound
    cases sound with
    | goes shaped => exact shaped

theorem yields_permitted (program : Shaped ctl shapes) (shaped : s.Shaped ctl shapes) {e : End}
    (ends : Yields (step ctl) s e) : ∃ last, Runs (step ctl) s last ∧ Permits ctl shapes last (.ends e) := by
  obtain ⟨last, run, ended⟩ := ends
  exact ⟨last, run, ended ▸ step_sound program (runs_shaped program run shaped)⟩

theorem lost_deep (program : Shaped ctl shapes) (shaped : s.Shaped ctl shapes) (lost : Yields (step ctl) s .lost) :
    ∃ last, Runs (step ctl) s last ∧ 2 ^ 16 ≤ last.lcl := by
  obtain ⟨last, run, permits⟩ := yields_permitted program shaped lost
  cases permits with
  | lost deep => exact ⟨last, run, deep⟩

theorem failed_dynamic (program : Shaped ctl shapes) (shaped : s.Shaped ctl shapes) {diag : Diag} {io : Io}
    (failed : Yields (step ctl) s (.failed diag io)) :
    ∃ last inst, ∃ why : Error, Runs (step ctl) s last ∧ ctl.fetch last.loc = some inst ∧ why.Dynamic ∧
      diag = why.diag inst := by
  obtain ⟨last, run, permits⟩ := yields_permitted program shaped failed
  cases permits with
  | failed _ here dynamic => exact ⟨last, _, _, run, here, dynamic, rfl⟩

def Control.leadsBelow (ctl : Control Loc) (limit : Loc → Nat) (loc : Loc) (key : SymKey) (lcl : Nat) : Bool :=
  match ctl.target loc key with
  | .found target _ => lcl ≤ limit target
  | .missing | .ambiguous => true

def Control.keepsBelow (ctl : Control Loc) (limit : Loc → Nat) (loc : Loc) (sh : Shape) : Bool :=
  match ctl.fetch loc with
  | none => true
  | some inst =>
    match inst.code with
    | .goto => ctl.leadsBelow limit loc (mkKey inst.ident .label) (limit loc)
    | .ifGoto => limit loc ≤ limit (ctl.next loc) && ctl.leadsBelow limit loc (mkKey inst.ident .label) (limit loc)
    | .call =>
      limit loc ≤ limit (ctl.next loc) &&
        ctl.leadsBelow limit loc (mkKey inst.ident .func) (limit loc + sh.locals + sh.work + 8)
    | .ret => true
    | _ => limit loc ≤ limit (ctl.next loc)

/-- The places with a shape have a limit for where the locals lie, which no instruction goes beyond. -/
structure Limited (ctl : Control Loc) (shapes : Loc → Option Shape) (limit : Loc → Nat) : Prop where
  below : ∀ loc sh, shapes loc = some sh → limit loc < 2 ^ 16
  keeps : ∀ loc sh, shapes loc = some sh → ctl.keepsBelow limit loc sh = true

def StackedBelow (ctl : Control Loc) (limit : Loc → Nat) : List (Caller Loc) → Prop
  | [] => True
  | c :: rest => lclAbove c.frame.args.length rest ≤ limit (ctl.next c.loc) ∧ StackedBelow ctl limit rest

structure State.Below (ctl : Control Loc) (limit : Loc → Nat) (s : State Loc) : Prop where
  here : s.lcl ≤ limit s.loc
  callers : StackedBelow ctl limit s.callers

section limits

variable {limit : Loc → Nat}

theorem Control.leadsBelow_found {loc target : Loc} {key : SymKey} {nlocals : UInt16} {lcl : Nat}
    (leads : ctl.leadsBelow limit loc key lcl = true) (found : ctl.target loc key = .found target nlocals) :
    lcl ≤ limit target := by
  unfold Control.leadsBelow at leads
  rw [found] at leads
  exact of_decide_eq_true leads

theorem Shape.exec_args {sh after : Shape} (taken : sh.exec inst = some after) : after.args = sh.args := by
  unfold Shape.exec at taken
  split at taken
  · obtain ⟨-, rfl⟩ := Shape.take_some (Shape.covers_some taken).2
    rfl
  · obtain ⟨-, rfl⟩ := Shape.take_some (Shape.covers_some taken).2
    rfl
  all_goals first | (obtain ⟨-, rfl⟩ := Shape.take_some taken; rfl) | cases taken

theorem jump_below {s' : State Loc} (goes : jump ctl inst s = .goes s') (callers : StackedBelow ctl limit s.callers)
    (leads : ctl.leadsBelow limit s.loc (mkKey inst.ident .label) (limit s.loc) = true)
    (here : s.lcl ≤ limit s.loc) : s'.Below ctl limit := by
  unfold jump at goes
  split at goes
  · next found =>
    cases goes
    exact ⟨here.trans (Control.leadsBelow_found leads found), callers⟩
  · cases goes
  · cases goes

theorem step_below (program : Shaped ctl shapes) (limited : Limited ctl shapes limit) {s' : State Loc}
    (shaped : s.Shaped ctl shapes) (below : s.Below ctl limit) (goes : Goes (step ctl) s s') : s'.Below ctl limit := by
  have checked := program _ _ shaped.here
  have keeps := limited.keeps _ _ shaped.here
  unfold Control.checks at checked
  unfold Control.keepsBelow at keeps
  unfold Goes step at goes
  cases fetched : ctl.fetch s.loc with
  | none =>
    rw [fetched] at goes
    cases goes
  | some inst =>
    simp only [fetched] at checked keeps goes
    simp only [execute] at goes
    cases code : inst.code with
    | goto =>
      simp only [code] at keeps goes
      exact jump_below goes below.callers keeps below.here
    | ifGoto =>
      simp only [code, Bool.and_eq_true, decide_eq_true_eq] at keeps goes
      unfold jumpIf at goes
      split at goes
      · cases goes
      · simp only at goes
        split at goes
        · exact jump_below goes below.callers keeps.2 below.here
        · cases goes
          exact ⟨below.here.trans keeps.1, below.callers⟩
    | call =>
      simp only [code, Bool.and_eq_true, decide_eq_true_eq] at keeps goes
      unfold call at goes
      simp only at goes
      split at goes
      · cases goes
      · split at goes
        · cases goes
        · cases goes
        · next found =>
          split at goes
          · next given =>
            cases goes
            refine ⟨?_, below.here.trans keeps.1, below.callers⟩
            refine le_trans ?_ (Control.leadsBelow_found keeps.2 found)
            -- The locals of the function lie above all that the caller keeps, and above the saved frame.
            have here := below.here
            unfold State.lcl at here ⊢
            simp only [lclAbove, Frame.enter, Frame.leave, Frame.shape, List.length_reverse, List.length_take,
              List.length_drop, Nat.min_eq_left given]
            omega
          · cases goes
    | ret =>
      simp only [code] at goes
      unfold ret at goes
      split at goes
      · cases goes
      · next c rest callers =>
        have stacked := below.callers
        rw [callers] at stacked
        repeat' split at goes
        all_goals cases goes
        -- The caller finds its locals where they were.
        exact ⟨stacked.1, stacked.2⟩
    | _ =>
      simp only [code, decide_eq_true_eq] at keeps goes checked
      obtain ⟨d, exec, rfl⟩ := goOn_goes goes
      obtain ⟨sh, taken, -⟩ := Control.passes_iff checked
      have shape := Data.exec_shaped (ctl.file s.loc) inst taken
      rw [exec] at shape
      have args : d.frame.args.length = s.data.frame.args.length :=
        (congrArg Shape.args (shape : d.frame.shape = sh)).trans (Shape.exec_args taken)
      refine ⟨?_, below.callers⟩
      have same : State.lcl { s with loc := ctl.next s.loc, data := d } = s.lcl := by
        simp only [State.lcl, args]
      exact same.trans_le (below.here.trans keeps)

theorem runs_below (program : Shaped ctl shapes) (limited : Limited ctl shapes limit) {s' : State Loc}
    (run : Runs (step ctl) s s') (shaped : s.Shaped ctl shapes) (below : s.Below ctl limit) :
    s'.lcl < 2 ^ 16 := by
  -- A limit is only kept where the shapes are right, which they are in every state of the run.
  have both : s'.Below ctl limit := by
    induction run with
    | refl => exact below
    | tail run goes ih => exact step_below program limited (runs_shaped program run shaped) ih goes
  exact both.here.trans_lt (limited.below _ _ (runs_shaped program run shaped).here)

end limits

end control

section programs

def shapeAt (table : List (Spot × Shape)) (spot : Spot) : Option Shape :=
  (table.find? fun entry => entry.1 == spot).map Prod.snd

def bodyShapes (fi args locals : Nat) : List Line → List Nat → List (Spot × Shape)
  | _, [] => []
  | lines, work :: works =>
    ({ fi := fi, lines := lines }, { args := args, locals := locals, work := work }) ::
      bodyShapes fi args locals (skip lines) works

theorem shapeAt_some {table : List (Spot × Shape)} {loc : Spot} {sh : Shape} (known : shapeAt table loc = some sh) :
    ∃ entry ∈ table, entry.1 = loc ∧ entry.2 = sh := by
  obtain ⟨entry, found, rfl⟩ := Option.map_eq_some_iff.mp known
  have here := List.find?_some found
  exact ⟨entry, List.mem_of_find?_eq_some found, eq_of_beq here, rfl⟩

theorem shaped_of_table {ctl : Control Spot} {table : List (Spot × Shape)}
    (checked : (table.all fun entry => ctl.checks (shapeAt table) entry.1 entry.2) = true) :
    Shaped ctl (shapeAt table) := by
  intro loc sh known
  obtain ⟨entry, member, rfl, rfl⟩ := shapeAt_some known
  exact List.all_eq_true.mp checked entry member

theorem launch_shaped {ctl : Control Spot} {shapes : Spot → Option Shape}
    (start : shapes (launch []).loc = some { args := 0, locals := 0, work := 0 }) (stdin : List Byte) :
    (launch stdin).Shaped ctl shapes where
  here := start
  callers := by
    intro c member
    cases member

/-- A program with shapes breaks no activation before its stack is too deep for the words that hold
its addresses, and only its values make it fail. -/
theorem execProg_shaped {cfg : Config} {fuel : Nat} {srcs : List Source} {files : List (List Line)} {prog : Program}
    (listed : Listed cfg fuel srcs files) (made : makeProg cfg fuel srcs = .ok (some prog)) (small : Small files)
    {shapes : Spot → Option Shape} (program : Shaped (Control.ofLines (systemLines :: files)) shapes)
    (start : shapes (launch []).loc = some { args := 0, locals := 0, work := 0 }) (stdin : List Byte) :
    (Yields (interpret files) (launch stdin) .lost →
      ∃ s, Runs (interpret files) (launch stdin) s ∧ 2 ^ 16 ≤ s.lcl) ∧
    ∀ diag io, ExecProg cfg prog stdin (.failed diag io) →
      (∃ s, Runs (interpret files) (launch stdin) s ∧ 2 ^ 16 ≤ s.lcl) ∨
        ∃ s inst, ∃ why : Error, Runs (interpret files) (launch stdin) s ∧
          (Control.ofLines (systemLines :: files)).fetch s.loc = some inst ∧ why.Dynamic ∧ diag = why.diag inst := by
  have launched := @launch_shaped (Control.ofLines (systemLines :: files)) shapes start stdin
  refine ⟨lost_deep program launched, fun diag io ends => ?_⟩
  rcases (listed.runs made small stdin).ends _ ends with failed | lost
  · exact .inr (failed_dynamic program launched failed)
  · exact .inl (lost_deep program launched lost)

def functionShapes (files : List (List Line)) (fi : Nat) (name : String) (args : Nat) (works : List Nat) :
    List (Spot × Shape) :=
  match locate (mkKey (Ident.ofString name) .func) (files.getD fi []) with
  | some (lines, nlocals) => bodyShapes fi args nlocals.toNat lines works
  | none => []

def sampleLimits : List (List (Spot × Shape) × Nat) :=
  let files := systemLines :: sample.map Written.lines
  [(bodyShapes 0 0 0 startupLines [0, 1, 1], 0), (functionShapes files 0 "Sys.print_num" 1 [0, 1, 0, 1], 18),
    (functionShapes files 1 "Sys.init" 1 [0, 1, 1, 1], 9), (functionShapes files 2 "Main.twice" 1 [0, 1, 2, 1], 18)]

def sampleShapes : List (Spot × Shape) := sampleLimits.flatMap Prod.fst

theorem execProg_shaped_sample :
    ∃ fuel prog, makeProg .unitTests fuel (sample.map Written.source) = .ok (some prog) ∧ ∀ stdin,
      (Yields (interpret (sample.map Written.lines)) (launch stdin) .lost →
        ∃ s, Runs (interpret (sample.map Written.lines)) (launch stdin) s ∧ 2 ^ 16 ≤ s.lcl) ∧
      ∀ diag io, ExecProg .unitTests prog stdin (.failed diag io) →
        (∃ s, Runs (interpret (sample.map Written.lines)) (launch stdin) s ∧ 2 ^ 16 ≤ s.lcl) ∨
          ∃ s inst, ∃ why : Error, Runs (interpret (sample.map Written.lines)) (launch stdin) s ∧
            (Control.ofLines (systemLines :: sample.map Written.lines)).fetch s.loc = some inst ∧ why.Dynamic ∧
              diag = why.diag inst := by
  have program : Shaped (Control.ofLines (systemLines :: sample.map Written.lines)) (shapeAt sampleShapes) :=
    shaped_of_table (by decide +kernel)
  obtain ⟨fuel, prog, made, listed⟩ := good_listed sample_good
  exact ⟨fuel, prog, made, execProg_shaped listed made sample_small program (by decide +kernel)⟩

/-- With limits for where the locals lie, which leaves recursion out, a program runs as it is read,
and only its values make it fail. -/
theorem execProg_limited {cfg : Config} {fuel : Nat} {srcs : List Source} {files : List (List Line)} {prog : Program}
    (listed : Listed cfg fuel srcs files) (made : makeProg cfg fuel srcs = .ok (some prog)) (small : Small files)
    {shapes : Spot → Option Shape} {limit : Spot → Nat}
    (program : Shaped (Control.ofLines (systemLines :: files)) shapes)
    (limited : Limited (Control.ofLines (systemLines :: files)) shapes limit)
    (start : shapes (launch []).loc = some { args := 0, locals := 0, work := 0 }) (stdin : List Byte) :
    (∀ result, (∃ ending, ExecProg cfg prog stdin ending ∧ outcome ending = result) ↔
      Yields (interpret files) (launch stdin) result) ∧
    ∀ diag io, ExecProg cfg prog stdin (.failed diag io) →
      ∃ s inst, ∃ why : Error, Runs (interpret files) (launch stdin) s ∧
        (Control.ofLines (systemLines :: files)).fetch s.loc = some inst ∧ why.Dynamic ∧ diag = why.diag inst := by
  have launched := @launch_shaped (Control.ofLines (systemLines :: files)) shapes start stdin
  have kept : ¬Yields (interpret files) (launch stdin) .lost := by
    intro lost
    obtain ⟨s, run, deep⟩ := lost_deep program launched lost
    have below := runs_below program limited run launched ⟨Nat.zero_le _, trivial⟩
    omega
  have ends_iff := (listed.runs made small stdin).ends_iff kept
  refine ⟨ends_iff, fun diag io ends => ?_⟩
  exact failed_dynamic program launched ((ends_iff _).mp ⟨_, ends, rfl⟩)

def limitAt (table : List (List (Spot × Shape) × Nat)) (spot : Spot) : Nat :=
  ((table.find? fun entry => entry.1.any fun place => place.1 == spot).map Prod.snd).getD 0

theorem limited_of_table {ctl : Control Spot} {table : List (Spot × Shape)} {limit : Spot → Nat}
    (checked : (table.all fun entry =>
      decide (limit entry.1 < 2 ^ 16) && ctl.keepsBelow limit entry.1 entry.2) = true) :
    Limited ctl (shapeAt table) limit := by
  have each (loc : Spot) (sh : Shape) (known : shapeAt table loc = some sh) :
      limit loc < 2 ^ 16 ∧ ctl.keepsBelow limit loc sh = true := by
    obtain ⟨entry, member, rfl, rfl⟩ := shapeAt_some known
    simpa only [Bool.and_eq_true, decide_eq_true_eq] using List.all_eq_true.mp checked entry member
  exact ⟨fun loc sh known => (each loc sh known).1, fun loc sh known => (each loc sh known).2⟩

theorem execProg_limited_sample :
    ∃ fuel prog, makeProg .unitTests fuel (sample.map Written.source) = .ok (some prog) ∧ ∀ stdin,
      (∀ result, (∃ ending, ExecProg .unitTests prog stdin ending ∧ outcome ending = result) ↔
        Yields (interpret (sample.map Written.lines)) (launch stdin) result) ∧
      ∀ diag io, ExecProg .unitTests prog stdin (.failed diag io) →
        ∃ s inst, ∃ why : Error, Runs (interpret (sample.map Written.lines)) (launch stdin) s ∧
          (Control.ofLines (systemLines :: sample.map Written.lines)).fetch s.loc = some inst ∧ why.Dynamic ∧
            diag = why.diag inst := by
  have program : Shaped (Control.ofLines (systemLines :: sample.map Written.lines)) (shapeAt sampleShapes) :=
    shaped_of_table (by decide +kernel)
  have limited : Limited (Control.ofLines (systemLines :: sample.map Written.lines)) (shapeAt sampleShapes)
      (limitAt sampleLimits) := limited_of_table (by decide +kernel)
  obtain ⟨fuel, prog, made, listed⟩ := good_listed sample_good
  exact ⟨fuel, prog, made, execProg_limited listed made sample_small program limited (by decide +kernel)⟩

end programs

end Hvme.Vm
