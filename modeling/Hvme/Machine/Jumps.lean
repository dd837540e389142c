import Hvme.Machine.Progress
import Hvme.Symbols.Table
import Mathlib.Data.List.ReduceOption

set_option autoImplicit false

namespace Hvme

open Outcome

def Program.Tabled (cfg : Config) (prog : Program) : Prop :=
  ∀ file ∈ prog.files, file.st.Valid cfg ∧ file.st.UniqueKeys

def Program.Defines (prog : Program) (fi : Nat) (key : SymKey) (val : SymVal) : Prop :=
  ∃ file, prog.files[fi]? = some file ∧ file.st.Binds key val

/-- The active file's own definition, or else the only one that another file has. -/
def Chosen (prog : Program) (key : SymKey) (fi : Nat) (val : SymVal) : Prop :=
  prog.Defines fi key val ∧
    (fi = prog.fi ∨
      (∀ v, ¬prog.Defines prog.fi key v) ∧ ∀ other v, prog.Defines other key v → other = fi)

def Missing (prog : Program) (key : SymKey) : Prop := ∀ fi val, ¬prog.Defines fi key val

def Ambiguous (prog : Program) (key : SymKey) : Prop :=
  (∀ val, ¬prog.Defines prog.fi key val) ∧
    ∃ fi other val val', fi ≠ other ∧ prog.Defines fi key val ∧ prog.Defines other key val'

theorem resolution_cases (prog : Program) (key : SymKey) :
    (∃ fi val, Chosen prog key fi val) ∨ Missing prog key ∨ Ambiguous prog key := by
  by_cases own : ∃ val, prog.Defines prog.fi key val
  next =>
    obtain ⟨val, here⟩ := own
    exact .inl ⟨prog.fi, val, here, .inl rfl⟩
  next =>
    have none_ : ∀ val, ¬prog.Defines prog.fi key val := not_exists.mp own
    by_cases known : ∃ fi val, prog.Defines fi key val
    next =>
      obtain ⟨fi, val, here⟩ := known
      by_cases only : ∀ other v, prog.Defines other key v → other = fi
      next => exact .inl ⟨fi, val, here, .inr ⟨none_, only⟩⟩
      next =>
        simp only [not_forall] at only
        obtain ⟨other, v, there, different⟩ := only
        exact .inr (.inr ⟨none_, fi, other, val, v, Ne.symm different, here, there⟩)
    next =>
      simp only [not_exists] at known
      exact .inr (.inl known)

def find (st : SymbolTable) (key : SymKey) : Option SymVal :=
  match getSt st key SymVal.junk with
  | .ok (.ok, val) => some val
  | _ => none

def answer (found : Option SymVal) (out : SymVal) : GetResult × SymVal :=
  match found with
  | some val => (.ok, val)
  | none => (.err, out)

section find

variable {cfg : Config} {st : SymbolTable} {key : SymKey}

theorem getSt_find (valid : st.Valid cfg) (key : SymKey) (out : SymVal) :
    getSt st key out = .ok (answer (find st key) out) := by
  rcases getSt_cases valid key with missed | ⟨sym, -, -, got⟩
  · rw [find, missed, missed, answer]
  · rw [find, got, got, answer]

theorem mem_of_find (valid : st.Valid cfg) {val : SymVal} (found : find st key = some val) :
    { key := key, val := val } ∈ st.cell := by
  rcases getSt_cases valid key with missed | ⟨sym, member, rfl, got⟩
  · rw [find, missed] at found
    cases found
  · rw [find, got] at found
    cases found
    exact member

theorem find_iff (valid : st.Valid cfg) (unique : st.UniqueKeys) (typed : key.type ≠ .unused) {val : SymVal} :
    find st key = some val ↔ st.Binds key val := by
  constructor
  · exact fun found => ⟨typed, mem_of_find valid found⟩
  · intro bound
    rw [find, getSt_of_binds valid unique bound]

end find

section search

variable {cfg : Config} {key : SymKey} {prev : Nat}

def hits (key : SymKey) (files : List File) (next : Nat) : List (Nat × SymVal) :=
  (files.mapIdx fun i file => (find file.st key).map fun val => (next + i, val)).reduceOption

def gather : List (Nat × SymVal) → JumpBuf → JumpBuf
  | [], buf => buf
  | (fi, val) :: rest, buf =>
    let buf := { val := val, nextFi := fi, nextEi := val.ei, ndefs := buf.ndefs + 1 }
    if buf.ndefs > 1 then buf else gather rest buf

theorem hits_cons (key : SymKey) (file : File) (files : List File) (next : Nat) :
    hits key (file :: files) next =
      ((find file.st key).map fun val => (next, val)).toList ++ hits key files (next + 1) := by
  have later : (fun (i : Nat) (file : File) => (find file.st key).map fun val => (next + (i + 1), val)) =
      fun i file => (find file.st key).map fun val => (next + 1 + i, val) := by
    funext i file
    rw [show next + (i + 1) = next + 1 + i by omega]
  unfold hits
  rw [List.mapIdx_cons, later, Nat.add_zero]
  cases find file.st key <;> simp [List.reduceOption_cons_of_some, List.reduceOption_cons_of_none]

theorem jumpSearch_gather {files : List File} {next : Nat} (tables : ∀ file ∈ files, file.st.Valid cfg)
    (own : ∀ i file, files[i]? = some file → next + i = prev → find file.st key = none) (buf : JumpBuf) :
    jumpSearch key prev files next buf = .ok (gather (hits key files next) buf) := by
  induction files generalizing next buf with
  | nil => rfl
  | cons file files ih =>
    obtain ⟨here, later⟩ := List.forall_mem_cons.mp tables
    have rest := @ih (next + 1) later fun i file found same => own (i + 1) file found (by omega)
    rw [hits_cons, jumpSearch]
    -- The loop skips the active file, which holds no definition where it comes to search.
    by_cases skipped : prev ≠ next
    · rw [if_pos skipped, getSt_find here]
      cases found : find file.st key with
      | none => exact rest buf
      | some val =>
        simp only [answer, Option.map_some, Option.toList_some, List.singleton_append, gather]
        split
        · rfl
        · exact rest _
    · rw [if_neg skipped, own 0 file rfl (not_not.mp skipped).symm]
      exact rest buf

theorem mem_hits {files : List File} {next fi : Nat} {val : SymVal} :
    (fi, val) ∈ hits key files next ↔
      ∃ i file, fi = next + i ∧ files[i]? = some file ∧ find file.st key = some val := by
  rw [hits, List.reduceOption_mem_iff, List.mem_iff_getElem?]
  refine exists_congr fun i => ?_
  simp only [List.getElem?_mapIdx, Option.map_eq_some_iff, Prod.mk.injEq]
  constructor
  · rintro ⟨file, here, val, found, rfl, rfl⟩
    exact ⟨file, rfl, here, found⟩
  · rintro ⟨file, rfl, here, found⟩
    exact ⟨file, here, val, found, rfl, rfl⟩

theorem hits_sorted (key : SymKey) (files : List File) (next : Nat) :
    (hits key files next).Pairwise fun hit later => hit.1 < later.1 := by
  induction files generalizing next with
  | nil => exact .nil
  | cons file files ih =>
    rw [hits_cons, List.pairwise_append]
    refine ⟨by cases find file.st key <;> simp, ih (next + 1), ?_⟩
    rintro hit member ⟨fi, val⟩ later
    obtain ⟨i, _, rfl, -, -⟩ := mem_hits.mp later
    cases found : find file.st key with
    | none => simp [found] at member
    | some val =>
      obtain rfl : hit = (next, val) := by simpa [found] using member
      exact Nat.lt_of_lt_of_le (Nat.lt_succ_self next) (Nat.le_add_right _ i)

theorem hits_one {files : List File} {next : Nat} {hit : Nat × SymVal} (member : hit ∈ hits key files next)
    (only : ∀ other ∈ hits key files next, other.1 = hit.1) : hits key files next = [hit] := by
  have sorted := hits_sorted key files next
  cases known : hits key files next with
  | nil =>
    rw [known] at member
    cases member
  | cons first rest =>
    rw [known] at member only sorted
    cases rest with
    | nil => rw [List.mem_singleton.mp member]
    | cons second rest =>
      have before_ := List.rel_of_pairwise_cons sorted List.mem_cons_self
      rw [only first List.mem_cons_self, only second (List.mem_cons_of_mem _ List.mem_cons_self)] at before_
      exact absurd before_ (Nat.lt_irrefl _)

theorem hits_many {files : List File} {next : Nat} {hit other : Nat × SymVal} (here : hit ∈ hits key files next)
    (there : other ∈ hits key files next) (different : hit.1 ≠ other.1) :
    ∃ first second rest, hits key files next = first :: second :: rest := by
  cases known : hits key files next with
  | nil =>
    rw [known] at here
    cases here
  | cons first rest =>
    cases rest with
    | nil =>
      rw [known, List.mem_singleton] at here there
      exact absurd (by rw [here, there]) different
    | cons second rest => exact ⟨first, second, rest, rfl⟩

end search

abbrev emptyBuf (out : SymVal) : JumpBuf := { val := out, nextFi := 0, nextEi := 0, ndefs := 0 }

def Machine.landed (m : Machine) (fi : Nat) (val : SymVal) : Machine :=
  (m.withFi fi).onFile fun file => { file with ei := val.ei }

section jump

variable {cfg : Config} {m : Machine} {key : SymKey} {fi : Nat} {val : SymVal}

theorem wp_jumpTo_hits {file : File} {out : SymVal} {post : JumpResult × SymVal → Machine → Prop}
    {stop : Stop → Machine → Prop} (valid : ∀ file ∈ m.prog.files, file.st.Valid cfg) (active : m.file = some file)
    (own : ∀ val, find file.st key = some val → post (.ok, val) (m.landed m.prog.fi val))
    (one : find file.st key = none → ∀ fi val, hits key m.prog.files 0 = [(fi, val)] →
      post (.ok, val) (m.landed fi val))
    (none_ : find file.st key = none → hits key m.prog.files 0 = [] → post (.err, out) m)
    (many : find file.st key = none → ∀ first second rest, hits key m.prog.files 0 = first :: second :: rest →
      ∀ val, post (.multDef, val) m) :
    wp (jumpTo key out) post stop m := by
  unfold jumpTo
  simp only [wp_bind, wp_activeFile, wp_liftFault, active, getSt_find (valid file (List.mem_of_getElem? active)),
    reduceCtorEq, false_implies, implies_true, true_and, Option.some.injEq, Except.ok.injEq, forall_eq']
  cases here : find file.st key with
  | some val =>
    simp only [answer, wp_bind, wp_setEi, wp_pure]
    exact own val here
  | none =>
    have searched : jumpSearch key m.prog.fi m.prog.files 0 (emptyBuf out) =
        .ok (gather (hits key m.prog.files 0) (emptyBuf out)) := jumpSearch_gather valid
      (fun i other at_ same => by
        rw [Nat.zero_add] at same
        subst same
        cases active.symm.trans at_
        exact here) (emptyBuf out)
    simp only [answer, wp_bind, wp_get, wp_liftFault, searched, reduceCtorEq, false_implies, implies_true, true_and,
      Except.ok.injEq, forall_eq']
    -- The loop stops at a second definition, so that none, one and more are all it can tell apart.
    cases known : hits key m.prog.files 0 with
    | nil => exact none_ here known
    | cons first rest =>
      obtain ⟨fi, val⟩ := first
      cases rest with
      | nil => exact one here fi val known
      | cons second rest => exact many here _ second rest known _

section tables

variable (tables : m.prog.Tabled cfg) (typed : key.type ≠ .unused)

include tables typed

theorem find_defines {file : File} (here : m.prog.files[fi]? = some file) :
    find file.st key = some val ↔ m.prog.Defines fi key val := by
  obtain ⟨valid, unique⟩ := tables file (List.mem_of_getElem? here)
  rw [find_iff valid unique typed]
  constructor
  · exact fun bound => ⟨file, here, bound⟩
  · rintro ⟨other, there, bound⟩
    cases here.symm.trans there
    exact bound

theorem hits_defines : (fi, val) ∈ hits key m.prog.files 0 ↔ m.prog.Defines fi key val := by
  rw [mem_hits]
  constructor
  · rintro ⟨i, file, rfl, here, found⟩
    rw [Nat.zero_add]
    exact (find_defines tables typed here).mp found
  · rintro ⟨file, here, bound⟩
    exact ⟨fi, file, (Nat.zero_add fi).symm, here, (find_defines tables typed here).mpr ⟨file, here, bound⟩⟩

theorem Chosen.hits_eq (chosen : Chosen m.prog key fi val) (free : ∀ v, ¬m.prog.Defines m.prog.fi key v) :
    hits key m.prog.files 0 = [(fi, val)] := by
  obtain ⟨here, where_⟩ := chosen
  have only := (where_.resolve_left fun own => free val (own ▸ here)).2
  exact hits_one ((hits_defines tables typed).mpr here) fun other member =>
    only other.1 other.2 ((hits_defines tables typed).mp member)

variable (inside : m.prog.fi < m.prog.files.length)

include inside

theorem jumpTo_chosen (chosen : Chosen m.prog key fi val) (out : SymVal) :
    jumpTo key out m = .ok (.ok, val) (m.landed fi val) := by
  have active : m.file = some m.prog.files[m.prog.fi] := List.getElem?_eq_getElem inside
  have missed (none_ : find (m.prog.files[m.prog.fi]).st key = none) : hits key m.prog.files 0 = [(fi, val)] := by
    refine chosen.hits_eq tables typed fun v own => ?_
    rw [(find_defines tables typed active).mpr own] at none_
    cases none_
  have runs : wp (jumpTo key out) (fun result m' => result = (.ok, val) ∧ m' = m.landed fi val)
      (fun _ _ => False) m := by
    apply wp_jumpTo_hits (fun file member => (tables file member).1) active
    next =>
      intro v found
      obtain ⟨here, rfl | ⟨free, -⟩⟩ := chosen
      · cases ((find_defines tables typed active).mpr here).symm.trans found
        exact ⟨rfl, rfl⟩
      · exact absurd ((find_defines tables typed active).mp found) (free v)
    next =>
      intro none_ fi' val' known
      cases (missed none_).symm.trans known
      exact ⟨rfl, rfl⟩
    next =>
      intro none_ known
      cases (missed none_).symm.trans known
    next =>
      intro none_ first second rest known
      cases (missed none_).symm.trans known
  obtain ⟨result, m', run, same, moved⟩ := runs.total
  rw [run, same, moved]

theorem jumpTo_missing (missing : Missing m.prog key) (out : SymVal) :
    jumpTo key out m = .ok (.err, out) m := by
  have active : m.file = some m.prog.files[m.prog.fi] := List.getElem?_eq_getElem inside
  have free (hit : Nat × SymVal) : hit ∉ hits key m.prog.files 0 :=
    fun member => missing _ _ ((hits_defines tables typed).mp member)
  have runs : wp (jumpTo key out) (fun result m' => result = (.err, out) ∧ m' = m) (fun _ _ => False) m := by
    apply wp_jumpTo_hits (fun file member => (tables file member).1) active
    next => exact fun v found => absurd ((find_defines tables typed active).mp found) (missing _ v)
    next => exact fun _ fi val known => absurd (known ▸ List.mem_cons_self) (free (fi, val))
    next => exact fun _ _ => ⟨rfl, rfl⟩
    next => exact fun _ first _ _ known => absurd (known ▸ List.mem_cons_self) (free first)
  obtain ⟨result, m', run, same, stays⟩ := runs.total
  rw [run, same, stays]

theorem jumpTo_ambiguous (many : Ambiguous m.prog key) (out : SymVal) :
    ∃ v, jumpTo key out m = .ok (.multDef, v) m := by
  have active : m.file = some m.prog.files[m.prog.fi] := List.getElem?_eq_getElem inside
  obtain ⟨free, idx, idx', v, v', different, here, there⟩ := many
  obtain ⟨first, second, rest, several⟩ :=
    hits_many ((hits_defines tables typed).mpr here) ((hits_defines tables typed).mpr there) different
  have runs : wp (jumpTo key out) (fun result m' => result.1 = .multDef ∧ m' = m) (fun _ _ => False) m := by
    apply wp_jumpTo_hits (fun file member => (tables file member).1) active
    next => exact fun v found => absurd ((find_defines tables typed active).mp found) (free v)
    next =>
      intro _ fi val known
      cases several.symm.trans known
    next =>
      intro _ known
      cases several.symm.trans known
    next => exact fun _ _ _ _ _ _ => ⟨rfl, rfl⟩
  obtain ⟨⟨res, v⟩, m', run, same, stays⟩ := runs.total
  obtain rfl : res = .multDef := same
  exact ⟨v, by rw [run, stays]⟩

end tables

end jump

-- `inst_addr - 1` and the increment of the main loop, both of 32 bits.
theorem SymVal.ei_succ (val : SymVal) : (val.ei + 1).toNat = val.instAddr % 2 ^ 32 := by
  rw [SymVal.ei, UInt32.sub_add_cancel, UInt32.toNat_ofNat']

def Arrives (fi : Nat) (val : SymVal) (m m' : Machine) : Prop :=
  ∃ file ei, m.prog.files[fi]? = some file ∧ m'.prog.fi = fi ∧ m'.file = some { file with ei := ei } ∧
    ei.toNat = val.instAddr

def JumpsTo (inst : Inst) (key : SymKey) (m : Machine) : Prop :=
  match inst.code with
  | .goto => key = mkKey inst.ident .label
  | .ifGoto => key = mkKey inst.ident .label ∧ m.prog.stack.base < m.prog.stack.sp ∧
      m.prog.stack.ops[m.prog.stack.sp - 1]? ≠ some 0
  | .call => key = mkKey inst.ident .func ∧ inst.nargs.toNat ≤ m.prog.stack.sp
  | _ => False

structure Renamed (σ : Equiv.Perm Nat) (m m2 : Machine) : Prop where
  files : ∀ idx, m2.prog.files[σ idx]? = m.prog.files[idx]?
  fi : m2.prog.fi = σ m.prog.fi
  stack : m2.prog.stack = m.prog.stack
  heap : m2.prog.heap = m.prog.heap
  io : m2.io = m.io

structure JumpLaw (cfg : Config) (key : SymKey) (m : Machine) : Prop where
  found : ∀ fi val, Chosen m.prog key fi val → ∀ out, ∃ mid m',
    jumpTo key out m = .ok (.ok, val) mid ∧ incEi mid = .ok () m' ∧ Arrives fi val m m'
  missing : Missing m.prog key → ∀ out, jumpTo key out m = .ok (.err, out) m
  ambiguous : Ambiguous m.prog key → ∀ out, ∃ val, jumpTo key out m = .ok (.multDef, val) m
  round : ∀ inst fi val, m.inst = some inst → JumpsTo inst key m → Chosen m.prog key fi val →
    ∃ m', Steps cfg m m' ∧ Arrives fi val m m' ∧
      (inst.code = .call → m'.prog.stack.lclLen = val.nlocals.toNat)
  fails : ∀ inst, m.inst = some inst → JumpsTo inst key m →
    Missing m.prog key ∨ Ambiguous m.prog key →
    ∃ diag m', execRound cfg m = .error (.err diag) m' ∧ m'.prog.fi = m.prog.fi ∧
      m'.prog.files = m.prog.files
  renamed : ∀ σ m2, Renamed σ m m2 → ∀ out res val m', jumpTo key out m = .ok (res, val) m' →
    ∃ val2 m2', jumpTo key out m2 = .ok (res, val2) m2' ∧ Renamed σ m' m2' ∧ (res = .ok → val2 = val)

section renamed

variable {cfg : Config} {σ : Equiv.Perm Nat} {m m2 : Machine} {key : SymKey}

theorem Renamed.defines (renamed : Renamed σ m m2) {fi : Nat} {val : SymVal} :
    m2.prog.Defines (σ fi) key val ↔ m.prog.Defines fi key val := by
  simp only [Program.Defines, renamed.files]

theorem Renamed.missing (renamed : Renamed σ m m2) (missing : Missing m.prog key) : Missing m2.prog key := by
  intro fi val found
  rw [← σ.apply_symm_apply fi, renamed.defines] at found
  exact missing _ _ found

theorem Renamed.chosen (renamed : Renamed σ m m2) {fi : Nat} {val : SymVal} (chosen : Chosen m.prog key fi val) :
    Chosen m2.prog key (σ fi) val := by
  obtain ⟨here, where_⟩ := chosen
  refine ⟨renamed.defines.mpr here, ?_⟩
  rcases where_ with rfl | ⟨free, only⟩
  next => exact .inl renamed.fi.symm
  next =>
    refine .inr ⟨?_, ?_⟩
    next =>
      intro v found
      rw [renamed.fi, renamed.defines] at found
      exact free v found
    next =>
      intro other v found
      rw [← σ.apply_symm_apply other, renamed.defines] at found
      rw [← only _ v found, σ.apply_symm_apply]

theorem Renamed.ambiguous (renamed : Renamed σ m m2) (many : Ambiguous m.prog key) : Ambiguous m2.prog key := by
  obtain ⟨free, fi, other, val, val', different, here, there⟩ := many
  refine ⟨?_, σ fi, σ other, val, val', σ.injective.ne different, renamed.defines.mpr here,
    renamed.defines.mpr there⟩
  intro v found
  rw [renamed.fi, renamed.defines] at found
  exact free v found

theorem Renamed.tabled (renamed : Renamed σ m m2) (tables : m.prog.Tabled cfg) : m2.prog.Tabled cfg := by
  intro file member
  obtain ⟨idx, here⟩ := List.mem_iff_getElem?.mp member
  rw [← σ.apply_symm_apply idx, renamed.files] at here
  exact tables file (List.mem_of_getElem? here)

theorem Renamed.inside (renamed : Renamed σ m m2) (inside : m.prog.fi < m.prog.files.length) :
    m2.prog.fi < m2.prog.files.length := by
  have here := List.getElem?_eq_getElem inside
  rw [← renamed.files, ← renamed.fi] at here
  exact (List.getElem?_eq_some_iff.mp here).1

theorem Renamed.onFile (renamed : Renamed σ m m2) (fi : Nat) (f : File → File) :
    Renamed σ ((m.withFi fi).onFile f) ((m2.withFi (σ fi)).onFile f) where
  files := by
    intro idx
    simp only [Machine.onFile_files, Machine.withFi_files, Machine.withFi_fi, List.getElem?_modify, renamed.files,
      σ.apply_eq_iff_eq]
  fi := rfl
  stack := renamed.stack
  heap := renamed.heap
  io := renamed.io

end renamed

section law

variable {cfg : Config} {m : Machine} {key : SymKey} {fi : Nat} {val : SymVal} {inst : Inst}

theorem Machine.landed_file {file : File} (here : m.prog.files[fi]? = some file) :
    (m.landed fi val).file = some { file with ei := val.ei } := by
  have active : (m.withFi fi).file = some file := here
  rw [Machine.landed, Machine.onFile_file, active, Option.map_some]

theorem arrives_of_file {m' : Machine} {file : File} (here : m.prog.files[fi]? = some file) (fi_eq : m'.prog.fi = fi)
    (active : m'.file = some { file with ei := val.ei + 1 }) (small : val.instAddr < 2 ^ 32) :
    Arrives fi val m m' :=
  ⟨file, val.ei + 1, here, fi_eq, active, by rw [SymVal.ei_succ, Nat.mod_eq_of_lt small]⟩

theorem incEi_landed {file : File} (here : m.prog.files[fi]? = some file) :
    incEi (m.landed fi val) =
      .ok () ((m.landed fi val).onFile fun other => { other with ei := val.ei + 1 }) := by
  have runs : wp incEi
      (fun _ m' => m' = (m.landed fi val).onFile fun other => { other with ei := val.ei + 1 })
      (fun _ _ => False) (m.landed fi val) := by
    simp only [incEi, wp_bind, wp_activeFile, wp_setEi, Machine.landed_file here, reduceCtorEq, false_implies, true_and,
      Option.some.injEq, forall_eq']
  obtain ⟨_, m', run, same⟩ := runs.total
  rw [run, same]

variable (tables : m.prog.Tabled cfg) (typed : key.type ≠ .unused) (inside : m.prog.fi < m.prog.files.length)

include tables typed inside

theorem jump_found (chosen : Chosen m.prog key fi val) (small : val.instAddr < 2 ^ 32) (out : SymVal) :
    ∃ mid m', jumpTo key out m = .ok (.ok, val) mid ∧ incEi mid = .ok () m' ∧ Arrives fi val m m' := by
  obtain ⟨file, here, _⟩ := chosen.1
  refine ⟨_, _, jumpTo_chosen tables typed inside chosen out, incEi_landed here, ?_⟩
  apply arrives_of_file here rfl _ small
  rw [Machine.onFile_file, Machine.landed_file here, Option.map_some]

theorem jump_renamed {σ : Equiv.Perm Nat} {m2 m' : Machine} (renamed : Renamed σ m m2) {out v : SymVal}
    {res : JumpResult} (run : jumpTo key out m = .ok (res, v) m') :
    ∃ v2 m2', jumpTo key out m2 = .ok (res, v2) m2' ∧ Renamed σ m' m2' ∧ (res = .ok → v2 = v) := by
  have tables2 := renamed.tabled tables
  have inside2 := renamed.inside inside
  rcases resolution_cases m.prog key with ⟨fi, val, chosen⟩ | missing | many
  next =>
    cases (jumpTo_chosen tables typed inside chosen out).symm.trans run
    exact ⟨_, _, jumpTo_chosen tables2 typed inside2 (renamed.chosen chosen) out, renamed.onFile fi _, fun _ => rfl⟩
  next =>
    cases (jumpTo_missing tables typed inside missing out).symm.trans run
    exact ⟨_, _, jumpTo_missing tables2 typed inside2 (renamed.missing missing) out, renamed, by simp⟩
  next =>
    obtain ⟨_, failed⟩ := jumpTo_ambiguous tables typed inside many out
    cases failed.symm.trans run
    obtain ⟨v2, failed2⟩ := jumpTo_ambiguous tables2 typed inside2 (renamed.ambiguous many) out
    exact ⟨v2, m2, failed2, renamed, by simp⟩

theorem execInst_jumps (valid : m.prog.stack.Valid cfg) (current : m.inst = some inst) (jumps : JumpsTo inst key m)
    (chosen : Chosen m.prog key fi val) {file : File} (here : m.prog.files[fi]? = some file) :
    ∃ mid, execInst cfg m = .ok () mid ∧ mid.prog.fi = fi ∧ mid.file = some { file with ei := val.ei } ∧
      (inst.code = .call → mid.prog.stack.lclLen = val.nlocals.toNat) := by
  have found := jumpTo_chosen tables typed inside chosen SymVal.junk
  have runs : wp (execInst cfg)
      (fun _ mid => mid.prog.fi = fi ∧ mid.file = some { file with ei := val.ei } ∧
        (inst.code = .call → mid.prog.stack.lclLen = val.nlocals.toNat))
      (fun _ _ => False) m := by
    unfold execInst
    simp only [wp_bind, wp_activeInst, current, reduceCtorEq, false_implies, true_and, Option.some.injEq, forall_eq']
    unfold JumpsTo at jumps
    split at jumps
    next code =>
      subst jumps
      simp only [code, execGoto, wp_bind, wp_activeInst, current, reduceCtorEq, false_implies, true_and,
        Option.some.injEq, forall_eq', wp_of_ok found, wp_pure, and_true]
      exact ⟨rfl, Machine.landed_file here⟩
    next code =>
      obtain ⟨same, word, taken⟩ := jumps
      subst same
      simp only [code, execIfGoto, wp_bind, reduceCtorEq, false_implies, and_true]
      apply wp_execSpop valid
      next => exact fun empty => absurd word (Nat.not_lt.mpr empty)
      next =>
        intro top after _ popped
        have sp := popped.sp
        have true_ : top ≠ 0 := by
          rintro rfl
          apply taken
          rw [← popped.top, show m.prog.stack.sp - 1 = after.sp by omega]
        -- A pop changes no file, so the same target is found.
        have found' : jumpTo (mkKey inst.ident .label) SymVal.junk (m.withStack after) =
            .ok (.ok, val) ((m.withStack after).landed fi val) :=
          jumpTo_chosen (m := m.withStack after) tables typed inside chosen _
        simp only [wp_ite, wp_bind, wp_activeInst, Machine.withStack_inst, current, reduceCtorEq, false_implies,
          true_and, Option.some.injEq, forall_eq', wp_of_ok found', wp_pure]
        exact ⟨fun _ => ⟨rfl, Machine.landed_file (m := m.withStack after) here⟩, fun zero => absurd true_ zero⟩
    next code =>
      obtain ⟨same, enough⟩ := jumps
      subst same
      simp only [code]
      apply (wp_execCall valid current inst.pos enough found).mono
      next =>
        intro _ mid called
        obtain ⟨val', next, found', lclLen, moved⟩ := called.jump
        cases found.symm.trans found'
        rw [moved]
        refine ⟨rfl, ?_, fun _ => lclLen⟩
        rw [Machine.withStack_file]
        exact onFile_ei (Machine.landed_file here) val.ei
      next => exact fun _ _ stops => stops
    next => cases jumps
  obtain ⟨_, mid, run, landed⟩ := runs.total
  exact ⟨mid, run, landed⟩

theorem round_jumps (valid : m.prog.stack.Valid cfg) (current : m.inst = some inst) (jumps : JumpsTo inst key m)
    (chosen : Chosen m.prog key fi val) (small : val.instAddr < 2 ^ 32) :
    ∃ m', Steps cfg m m' ∧ Arrives fi val m m' ∧
      (inst.code = .call → m'.prog.stack.lclLen = val.nlocals.toNat) := by
  obtain ⟨file, here, _⟩ := chosen.1
  obtain ⟨mid, run, fi_eq, active, locals⟩ := execInst_jumps tables typed inside valid current jumps chosen here
  refine ⟨_, Steps.of_execInst current run active, ?_, locals⟩
  exact arrives_of_file here fi_eq (onFile_ei active _) small

theorem execInst_lost (valid : m.prog.stack.Valid cfg) (current : m.inst = some inst) (jumps : JumpsTo inst key m)
    (lost : Missing m.prog key ∨ Ambiguous m.prog key) :
    wp (execInst cfg) (fun _ _ => False)
      (fun stop m' => ∃ diag, stop = .err diag ∧ m'.prog.fi = m.prog.fi ∧ m'.prog.files = m.prog.files) m := by
  have failed : ∀ stack, ∃ res v, res ≠ .ok ∧
      jumpTo key SymVal.junk (m.withStack stack) = .ok (res, v) (m.withStack stack) := by
    intro stack
    rcases lost with missing | many
    next => exact ⟨.err, _, by decide, jumpTo_missing (m := m.withStack stack) tables typed inside missing _⟩
    next =>
      obtain ⟨v, run⟩ := jumpTo_ambiguous (m := m.withStack stack) tables typed inside many SymVal.junk
      exact ⟨.multDef, v, by decide, run⟩
  -- Popping a condition does not change what a search finds, so any stack will do here.
  unfold execInst
  simp only [wp_bind, wp_activeInst, current, reduceCtorEq, false_implies, true_and, Option.some.injEq, forall_eq']
  obtain ⟨file, active⟩ := Machine.file_of_inst current
  unfold JumpsTo at jumps
  split at jumps
  next code =>
    subst jumps
    obtain ⟨res, v, unlucky, run⟩ := failed m.prog.stack
    have run : jumpTo (mkKey inst.ident .label) SymVal.junk m = .ok (res, v) m := run
    simp only [code, execGoto, wp_bind, wp_activeInst, current, reduceCtorEq, false_implies, true_and,
      Option.some.injEq, forall_eq', wp_of_ok run]
    cases res <;> simp_all [ctrlFlowError, defErr, wp_ite]
  next code =>
    obtain ⟨same, word, taken⟩ := jumps
    subst same
    simp only [code, execIfGoto, wp_bind]
    apply wp_execSpop valid
    next => exact fun empty => absurd word (Nat.not_lt.mpr empty)
    next =>
      intro top after _ popped
      obtain ⟨res, v, unlucky, run⟩ := failed after
      have sp := popped.sp
      -- The jump is taken: the word popped is the one that `JumpsTo` speaks of.
      have true_ : top ≠ 0 := by
        rintro rfl
        apply taken
        rw [← popped.top, show m.prog.stack.sp - 1 = after.sp by omega]
      simp only [wp_ite, wp_bind, wp_activeInst, Machine.withStack_inst, current, reduceCtorEq, false_implies,
        true_and, Option.some.injEq, forall_eq', wp_of_ok run]
      cases res <;> simp_all [ctrlFlowError, defErr, wp_ite]
  next code =>
    obtain ⟨same, enough⟩ := jumps
    subst same
    obtain ⟨res, v, unlucky, run⟩ := failed m.prog.stack
    have run : jumpTo (mkKey inst.ident .func) SymVal.junk m = .ok (res, v) m := run
    simp only [code, execCall, wp_bind, wp_activeInst, wp_activeFile, wp_getStack, wp_getHeap, wp_get, wp_ite, current,
      active, reduceCtorEq, false_implies, true_and, Option.some.injEq, forall_eq', wp_of_ok run]
    refine ⟨fun many => absurd enough (Nat.not_le.mpr many), fun _ => ?_⟩
    cases res <;> simp_all [ctrlFlowError, defErr, wp_ite]
  next => cases jumps

theorem round_lost (valid : m.prog.stack.Valid cfg) (current : m.inst = some inst) (jumps : JumpsTo inst key m)
    (lost : Missing m.prog key ∨ Ambiguous m.prog key) :
    ∃ diag m', execRound cfg m = .error (.err diag) m' ∧ m'.prog.fi = m.prog.fi ∧
      m'.prog.files = m.prog.files := by
  obtain ⟨stop, m', run, diag, same, fi_eq, files⟩ :=
    (execInst_lost tables typed inside valid current jumps lost).fails
  subst same
  obtain ⟨file, active⟩ := Machine.file_of_inst current
  have running : file.ei.toNat < file.insts.cell.length := by
    rw [Machine.inst, active] at current
    exact (List.getElem?_eq_some_iff.mp current).1
  have whole : wp (execRound cfg) (fun _ _ => False) (fun stop last => stop = .err diag ∧ last = m') m := by
    unfold execRound
    simp only [wp_bind, wp_activeFile, wp_ite, active, reduceCtorEq, false_implies, Option.some.injEq, forall_eq',
      running, not_true_eq_false, forall_const, wp_of_error run, and_self]
  obtain ⟨stop, last, ran, same, stays⟩ := whole.fails
  rw [same, stays] at ran
  exact ⟨diag, m', ran, fi_eq, files⟩

/-- Jumps go where they should if and only if the definitions' addresses fit the 32 bits of `ei`. -/
theorem jumpLaw_iff (valid : m.prog.stack.Valid cfg) :
    JumpLaw cfg key m ↔ ∀ fi val, Chosen m.prog key fi val → val.instAddr < 2 ^ 32 := by
  constructor
  next =>
    intro law fi val chosen
    obtain ⟨mid, m', _, _, file, ei, _, _, _, ei_eq⟩ := law.found fi val chosen SymVal.junk
    rw [← ei_eq]
    exact ei.toNat_lt
  next =>
    intro small
    exact {
      found := fun fi val chosen => jump_found tables typed inside chosen (small fi val chosen)
      missing := jumpTo_missing tables typed inside
      ambiguous := jumpTo_ambiguous tables typed inside
      round := fun inst fi val current jumps chosen =>
        round_jumps tables typed inside valid current jumps chosen (small fi val chosen)
      fails := fun inst current jumps lost => round_lost tables typed inside valid current jumps lost
      renamed := fun σ m2 renamed out res v m' run => jump_renamed tables typed inside renamed run }

end law

def acrossFiles (cfg : Config) (st : SymbolTable) (insts : List Inst) : Machine where
  prog :=
    { files :=
        [{ filename := "a.vm", st := newSt cfg, insts := newInsts none, mem := newMem, ei := 0 },
          { filename := "b.vm", st := st, insts := { newInsts none with cell := insts }, mem := newMem, ei := 0 }]
      fi := 0
      heap := newHeap
      stack := newStack cfg }
  io := Io.init []

theorem single_symbol (cfg : Config) {key : SymKey} (typed : key.type ≠ .unused) (val : SymVal) :
    ∃ st : SymbolTable, st.Valid cfg ∧ st.UniqueKeys ∧ ∀ k v, st.Binds k v ↔ k = key ∧ v = val := by
  obtain ⟨st, _, valid, unique, _, binds⟩ :=
    insertSt_fresh (newSt_valid cfg) (newSt_unique cfg) typed (newSt_binds cfg key) val
  refine ⟨st, valid, unique, fun k v => ?_⟩
  rw [binds, or_iff_right (newSt_binds cfg k v)]

section across

variable {cfg : Config} {st : SymbolTable} {key : SymKey} {val : SymVal} (insts : List Inst)
  (valid : st.Valid cfg) (unique : st.UniqueKeys) (binds : ∀ k v, st.Binds k v ↔ k = key ∧ v = val)

include valid unique in
theorem acrossFiles_tabled : (acrossFiles cfg st insts).prog.Tabled cfg := by
  simp [Program.Tabled, acrossFiles, newSt_valid, newSt_unique, valid, unique]

include binds

theorem acrossFiles_defines {fi : Nat} {v : SymVal} :
    (acrossFiles cfg st insts).prog.Defines fi key v ↔ fi = 1 ∧ v = val := by
  rcases fi with _ | _ | fi <;> simp [Program.Defines, acrossFiles, newSt_binds, binds]

theorem acrossFiles_chosen {fi : Nat} {v : SymVal} :
    Chosen (acrossFiles cfg st insts).prog key fi v ↔ fi = 1 ∧ v = val := by
  simp only [Chosen, acrossFiles_defines insts binds]
  constructor
  next => exact fun chosen => chosen.1
  next =>
    intro here
    refine ⟨here, .inr ⟨?_, fun _ _ there => there.1.trans here.1.symm⟩⟩
    rintro v ⟨own, -⟩
    cases own

end across

theorem jumpLaw_across : ∃ st,
    Chosen (acrossFiles .unitTests st []).prog (mkKey (Ident.ofString "top") .label) 1 (mkLbval 0) ∧
      JumpLaw .unitTests (mkKey (Ident.ofString "top") .label) (acrossFiles .unitTests st []) := by
  have typed : (mkKey (Ident.ofString "top") .label).type ≠ .unused := by decide
  obtain ⟨st, valid, unique, binds⟩ := single_symbol .unitTests typed (mkLbval 0)
  have inside : 0 < (acrossFiles .unitTests st []).prog.files.length := Nat.two_pos
  refine ⟨st, (acrossFiles_chosen [] binds).mpr ⟨rfl, rfl⟩, ?_⟩
  apply (jumpLaw_iff (acrossFiles_tabled [] valid unique) typed inside (newStack_valid _)).mpr
  intro fi v here
  rw [((acrossFiles_chosen [] binds).mp here).2]
  decide

/-- A label behind 2^32 instructions: its address is cut off, and the jump goes to the first one. -/
theorem far_label_missed : ∃ st insts,
    Chosen (acrossFiles .unitTests st insts).prog (mkKey (Ident.ofString "far") .label) 1 (mkLbval (2 ^ 32)) ∧
      insts.length = 2 ^ 32 + 1 ∧
      ¬JumpLaw .unitTests (mkKey (Ident.ofString "far") .label) (acrossFiles .unitTests st insts) := by
  have typed : (mkKey (Ident.ofString "far") .label).type ≠ .unused := by decide
  obtain ⟨st, valid, unique, binds⟩ := single_symbol .unitTests typed (mkLbval (2 ^ 32))
  have chosen : Chosen (acrossFiles .unitTests st (List.replicate (2 ^ 32 + 1) (Inst.bare .neg))).prog _ 1 _ :=
    (acrossFiles_chosen _ binds).mpr ⟨rfl, rfl⟩
  refine ⟨st, _, chosen, List.length_replicate, fun law => ?_⟩
  obtain ⟨mid, m', _, _, file, ei, _, _, _, ei_eq⟩ := law.found 1 _ chosen SymVal.junk
  have small := ei.toNat_lt
  rw [ei_eq] at small
  exact absurd small (lt_irrefl _)

end Hvme
