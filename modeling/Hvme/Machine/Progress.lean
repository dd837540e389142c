import Hvme.Machine.Steps

set_option autoImplicit false

namespace Hvme

open Outcome

theorem jumpTo_active {m : Machine} {file : File} {key : SymKey} {val val' : SymVal} (active : m.file = some file)
    (found : getSt file.st key val = .ok (.ok, val')) :
    jumpTo key val m = .ok (.ok, val') (m.onFile fun file => { file with ei := val'.ei }) := by
  have runs : wp (jumpTo key val)
      (fun result m' => result = (.ok, val') ∧ m' = m.onFile fun file => { file with ei := val'.ei })
      (fun _ _ => False) m := by
    unfold jumpTo
    simp only [wp_bind, wp_activeFile, wp_liftFault, wp_setEi, wp_pure, active, found, reduceCtorEq, false_implies,
      implies_true, true_and, Option.some.injEq, Except.ok.injEq, forall_eq', and_self]
  obtain ⟨result, m', run, rfl, rfl⟩ := runs.total
  exact run

section forward

variable {cfg : Config} {m mid : Machine} {inst : Inst} {file : File}

theorem Steps.of_execInst (here : m.inst = some inst) (run : execInst cfg m = .ok () mid)
    (active : mid.file = some file) :
    Steps cfg m (mid.onFile fun other => { other with ei := file.ei + 1 }) := by
  obtain ⟨before_, found⟩ := Machine.file_of_inst here
  have inside : before_.ei.toNat < before_.insts.cell.length := by
    rw [Machine.inst, found] at here
    exact (List.getElem?_eq_some_iff.mp here).1
  have runs : wp (execRound cfg)
      (fun more m' => more = true ∧ m' = mid.onFile fun other => { other with ei := file.ei + 1 })
      (fun _ _ => False) m := by
    unfold execRound
    simp only [wp_bind, wp_activeFile, wp_ite, wp_pure, found, reduceCtorEq, false_implies, true_and,
      Option.some.injEq, forall_eq', inside, not_true_eq_false, forall_const, and_true, wp_of_ok run, incEi, active,
      wp_setEi]
  obtain ⟨more, m', ran, rfl, rfl⟩ := runs.total
  exact ran

theorem execInst_of (here : m.inst = some inst) {x : ExecM Unit} {post : Machine → Prop}
    (is : inst.code = .call ∧ x = execCall cfg inst.pos ∨ inst.code = .push ∧ x = execPush cfg inst ∨
      inst.code = .ret ∧ x = execRet cfg inst.pos)
    (runs : wp x (fun _ m' => post m') (fun _ _ => False) m) :
    ∃ mid, execInst cfg m = .ok () mid ∧ post mid := by
  have whole : wp (execInst cfg) (fun _ m' => post m') (fun _ _ => False) m := by
    unfold execInst
    simp only [wp_bind, wp_activeInst, here, reduceCtorEq, false_implies, true_and, Option.some.injEq, forall_eq']
    rcases is with ⟨code, rfl⟩ | ⟨code, rfl⟩ | ⟨code, rfl⟩ <;> rw [code] <;> exact runs
  obtain ⟨_, mid, run, holds⟩ := whole.total
  exact ⟨mid, run, holds⟩

theorem onFile_ei (active : mid.file = some file) (ei : UInt32) :
    (mid.onFile fun other => { other with ei := ei }).file = some { file with ei := ei } := by
  rw [Machine.onFile_file, active, Option.map_some]

theorem Steps.push_const (valid : m.prog.stack.Valid cfg) (here : m.inst = some inst) (code : inst.code = .push)
    (seg : inst.seg = .const) (active : m.file = some file) :
    ∃ m', Steps cfg m m' ∧ Pushed cfg m.prog.stack inst.offset m'.prog.stack ∧
      m'.file = some { file with ei := file.ei + 1 } := by
  have runs : wp (execPush cfg inst)
      (fun _ mid => Pushed cfg m.prog.stack inst.offset mid.prog.stack ∧ mid.file = some file) (fun _ _ => False) m := by
    unfold execPush
    rw [seg]
    exact wp_execSpush valid _ fun after pushed => ⟨pushed, active⟩
  obtain ⟨mid, run, pushed, active⟩ := execInst_of here (.inr (.inl ⟨code, rfl⟩)) runs
  exact ⟨_, Steps.of_execInst here run active, pushed, onFile_ei active _⟩

theorem Steps.call_found (valid : m.prog.stack.Valid cfg) (here : m.inst = some inst) (code : inst.code = .call)
    (enough : inst.nargs.toNat ≤ m.prog.stack.sp) {val : SymVal} {next : Machine}
    (found : jumpTo (mkKey inst.ident .func) SymVal.junk m = .ok (.ok, val) next) (active : next.file = some file) :
    ∃ mid m', Called cfg inst m mid ∧ Steps cfg m m' ∧ m'.prog.stack = mid.prog.stack ∧
      mid.prog.stack.lclLen = val.nlocals.toNat ∧ m'.file = some { file with ei := val.ei + 1 } := by
  obtain ⟨mid, run, called⟩ := execInst_of here (.inl ⟨code, rfl⟩)
    (wp_execCall valid here inst.pos enough found)
  obtain ⟨val', next', found', lclLen, same⟩ := called.jump
  cases found.symm.trans found'
  have active' : mid.file = some { file with ei := val.ei } := by
    rw [same]
    exact onFile_ei active _
  exact ⟨mid, _, called, Steps.of_execInst here run active', rfl, lclLen, onFile_ei active' _⟩

theorem Steps.ret_returnable (valid : m.prog.stack.Valid cfg) (here : m.inst = some inst) (code : inst.code = .ret)
    (returnable : m.Returnable) :
    ∃ mid m', Returned cfg m mid ∧ Steps cfg m m' ∧ m'.prog.stack = mid.prog.stack := by
  have runs : wp (execRet cfg inst.pos) (fun _ mid => Returned cfg m mid) (fun _ _ => False) m :=
    (execRet_stops valid inst.pos).mono (fun _ _ returned => returned) fun _ _ stop => stop.2 returnable
  obtain ⟨mid, run, returned⟩ := execInst_of here (.inr (.inr ⟨code, rfl⟩)) runs
  obtain ⟨-, -, -, -, -, file, active, -⟩ := returned.jump
  exact ⟨mid, _, returned, Steps.of_execInst here run active, rfl⟩

end forward

end Hvme
