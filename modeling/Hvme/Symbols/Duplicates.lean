import Hvme.Symbols.Table

set_option autoImplicit false

namespace Hvme

open Probing

theorem insertSt_cases {cfg : Config} {st next : SymbolTable} (valid : st.Valid cfg) {key : SymKey}
    {val : SymVal} {res : InsertResult} (inserted : insertSt cfg st key val = .ok (res, next)) :
    (res = .exists_ ∧ next = st.grow cfg) ∨
      ∃ idx sym, res = .ok ∧ next = (st.grow cfg).fill idx key val ∧
        (st.grow cfg).cell[idx]? = some sym ∧ sym.key.type = .unused ∧
        ∀ passed ∈ before (st.grow cfg).cell ((st.grow cfg).sdLen key) idx,
          passed.key.type ≠ .unused ∧ passed.key ≠ key := by
  obtain ⟨idx, sym, here, -, clear, result⟩ := insertSt_spec valid key val
  rw [inserted] at result
  split at result
  · next unused =>
    cases result
    exact .inr ⟨idx, sym, rfl, rfl, here, unused, fun passed member =>
      (not_stops_iff key passed).mp (clear passed member)⟩
  · split at result
    · cases result
    · cases result
      exact .inl ⟨rfl, rfl⟩

theorem insertSt_valid {cfg : Config} {st next : SymbolTable} (valid : st.Valid cfg) {key : SymKey}
    {val : SymVal} {res : InsertResult} (inserted : insertSt cfg st key val = .ok (res, next)) :
    next.Valid cfg := by
  rcases insertSt_cases valid inserted with ⟨-, rfl⟩ | ⟨idx, sym, -, rfl, here, -⟩
  · exact valid.grow
  · exact valid.grow.fill valid.grow_room here

/-- Probing for `key`, after the growth check, passes no unused cell before one that holds `key`. -/
def SymbolTable.Visible (cfg : Config) (st : SymbolTable) (key : SymKey) : Prop :=
  ∀ (idx : Nat) (sym : Symbol), (st.grow cfg).cell[idx]? = some sym → sym.key = key →
    ∀ passed ∈ before (st.grow cfg).cell ((st.grow cfg).sdLen key) idx, passed.key.type ≠ .unused

section bound

variable {cfg : Config} {st : SymbolTable} {key : SymKey} (val : SymVal)

theorem insertSt_bound (valid : st.Valid cfg) (unique : st.UniqueKeys) {old : SymVal}
    (bound : st.Binds key old) (visible : st.Visible cfg key) :
    insertSt cfg st key val =
      if old = val then .error .assertion else .ok (.exists_, st.grow cfg) := by
  obtain ⟨idx, sym, here, stopped, clear, result⟩ := insertSt_spec valid key val
  have grown := (SymbolTable.grow_binds cfg key old).mpr bound
  obtain ⟨home, there⟩ := List.mem_iff_getElem?.mp grown.2
  have occupied : sym.key.type ≠ .unused := by
    intro unused
    have different : idx ≠ home := by
      rintro rfl
      rw [here] at there
      cases there
      exact bound.1 unused
    -- Either probing comes to the unused cell too early, or it goes on past the key.
    rcases mem_before_or ((st.grow cfg).sdLen key) here there different with early | late
    · exact visible home _ there rfl sym early unused
    · exact ((not_stops_iff key _).mp (clear _ late)).2 rfl
  have same : sym.key = key := ((stops_iff key sym).mp stopped).resolve_left occupied
  have val_eq : sym.val = old := by
    have found := SymbolTable.binds_of_occupied here occupied
    rw [same] at found
    exact (unique.grow cfg).val_eq found grown
  rw [result, if_neg occupied, val_eq]

theorem insertSt_unique {val : SymVal} {next : SymbolTable} {res : InsertResult} (valid : st.Valid cfg)
    (unique : st.UniqueKeys) (visible : ∀ old, st.Binds key old → st.Visible cfg key)
    (inserted : insertSt cfg st key val = .ok (res, next)) : next.UniqueKeys := by
  rcases insertSt_cases valid inserted with ⟨-, rfl⟩ | ⟨idx, sym, stored, rfl, here, unused, clear⟩
  · exact unique.grow cfg
  · refine (unique.grow cfg).fill here fun old bound => ?_
    have bound' := (SymbolTable.grow_binds cfg key old).mp bound
    have refused := insertSt_bound val valid unique bound' (visible old bound')
    rw [inserted, stored] at refused
    split at refused <;> cases refused

theorem insertSt_twice (valid : st.Valid cfg) (unique : st.UniqueKeys)
    {home : Nat} {sym passed : Symbol} (there : (st.grow cfg).cell[home]? = some sym)
    (same : sym.key = key) (typed : key.type ≠ .unused)
    (early : passed ∈ before (st.grow cfg).cell ((st.grow cfg).sdLen key) home)
    (unused : passed.key.type = .unused) :
    ∃ next, insertSt cfg st key val = .ok (.ok, next) ∧ ¬next.UniqueKeys := by
  obtain ⟨idx, found, here, stopped, clear, result⟩ := insertSt_spec valid key val
  have free : found.key.type = .unused := by
    refine ((stops_iff key found).mp stopped).resolve_right fun match_ => ?_
    have at_home : idx = home :=
      unique.grow cfg idx home found sym here there (match_ ▸ typed) (match_.trans same.symm)
    subst at_home
    exact ((not_stops_iff key passed).mp (clear passed early)).1 unused
  have different : home ≠ idx := by
    rintro rfl
    rw [here] at there
    cases there
    exact typed (same ▸ free)
  rw [if_pos free] at result
  refine ⟨_, result, fun twice => different ?_⟩
  exact twice home idx sym { key := key, val := val }
    ((SymbolTable.fill_cell here).mpr (.inr ⟨different, there⟩))
    ((SymbolTable.fill_cell here).mpr (.inl ⟨rfl, rfl⟩)) (same ▸ typed) same

end bound

theorem insertMany_append {cfg : Config} {st mid last : SymbolTable}
    {front back : List (SymKey × SymVal)} {results more : List InsertResult}
    (first : insertMany cfg st front = .ok (results, mid))
    (second : insertMany cfg mid back = .ok (more, last)) :
    insertMany cfg st (front ++ back) = .ok (results ++ more, last) := by
  induction front generalizing st results with
  | nil =>
    cases first
    exact second
  | cons entry front ih =>
    obtain ⟨key, val⟩ := entry
    simp only [insertMany] at first
    split at first
    · cases first
    · next res next inserted =>
      split at first
      · cases first
      · next rest _ run =>
        cases first
        simp [insertMany, inserted, ih run]

theorem insertMany_keeps {cfg : Config} (inv : List (SymKey × SymVal) → SymbolTable → Prop)
    {st last : SymbolTable} {entries : List (SymKey × SymVal)} {results : List InsertResult}
    (run : insertMany cfg st entries = .ok (results, last)) (holds : inv [] st)
    (step : ∀ done key val rest, entries = done ++ (key, val) :: rest → ∀ results mid,
      insertMany cfg st done = .ok (results, mid) → inv done mid → ∀ res next,
      insertSt cfg mid key val = .ok (res, next) → inv (done ++ [(key, val)]) next) :
    inv entries last := by
  induction entries generalizing inv st results with
  | nil =>
    cases run
    exact holds
  | cons entry entries ih =>
    obtain ⟨key, val⟩ := entry
    simp only [insertMany] at run
    split at run
    · cases run
    · next res next inserted =>
      split at run
      · cases run
      · next rest _ tail =>
        cases run
        refine ih (fun done => inv ((key, val) :: done)) tail
          (step [] key val entries rfl [] st rfl holds res next inserted) ?_
        intro done k v later split results mid front
        refine step ((key, val) :: done) k v later (by rw [split]; rfl) (res :: results) mid ?_
        simp [insertMany, inserted, front]

theorem insertMany_valid {cfg : Config} {st last : SymbolTable} (valid : st.Valid cfg)
    {entries : List (SymKey × SymVal)} {results : List InsertResult}
    (run : insertMany cfg st entries = .ok (results, last)) : last.Valid cfg :=
  insertMany_keeps (fun _ => SymbolTable.Valid cfg) run valid
    fun _ _ _ _ _ _ _ _ valid _ _ inserted => insertSt_valid valid inserted

/-- What the table owes its users along the insertions `entries`. -/
structure DuplicatesCaught (cfg : Config) (entries : List (SymKey × SymVal)) : Prop where
  conflict : ∀ done key val rest, entries = done ++ (key, val) :: rest →
    ∀ results st, insertMany cfg (newSt cfg) done = .ok (results, st) →
    ∀ other, st.Binds key other → other ≠ val →
    ∃ next, insertSt cfg st key val = .ok (.exists_, next) ∧
      ∀ k, k.type ≠ .unused → ∀ out, getSt next k out = getSt st k out
  unique : ∀ done, done <+: entries →
    ∀ results st, insertMany cfg (newSt cfg) done = .ok (results, st) → st.UniqueKeys

/-- No growth has left an unused cell between where probing begins and a key that is
inserted again. -/
def VisibleRun (cfg : Config) (entries : List (SymKey × SymVal)) : Prop :=
  ∀ done key val rest, entries = done ++ (key, val) :: rest →
    ∀ results st, insertMany cfg (newSt cfg) done = .ok (results, st) →
    ∀ old, st.Binds key old → st.Visible cfg key

theorem VisibleRun.unique {cfg : Config} {entries done : List (SymKey × SymVal)}
    (visible : VisibleRun cfg entries) (before_ : done <+: entries) {results : List InsertResult}
    {st : SymbolTable} (run : insertMany cfg (newSt cfg) done = .ok (results, st)) :
    st.Valid cfg ∧ st.UniqueKeys := by
  obtain ⟨later, rfl⟩ := before_
  refine insertMany_keeps (fun _ st => st.Valid cfg ∧ st.UniqueKeys) run
    ⟨newSt_valid cfg, newSt_unique cfg⟩ ?_
  rintro front key val rest rfl results mid reached ⟨valid, unique⟩ res next inserted
  refine ⟨insertSt_valid valid inserted, insertSt_unique valid unique ?_ inserted⟩
  exact visible front key val (rest ++ later) (by simp) results mid reached

/-- Duplicate definitions are caught in exactly the runs that insert no key again behind an
unused cell. -/
theorem duplicatesCaught_iff_visible (cfg : Config) (entries : List (SymKey × SymVal)) :
    DuplicatesCaught cfg entries ↔ VisibleRun cfg entries := by
  constructor
  · intro caught done key val rest split results st run old bound home sym there same passed early unused
    have valid := insertMany_valid (newSt_valid cfg) run
    have unique := caught.unique done ⟨_, split.symm⟩ results st run
    obtain ⟨next, inserted, twice⟩ :=
      insertSt_twice val valid unique there same bound.1 early unused
    refine twice (caught.unique (done ++ [(key, val)]) ⟨rest, by simp [split]⟩ (results ++ [.ok]) next ?_)
    exact insertMany_append run (by simp [insertMany, inserted])
  · intro visible
    constructor
    · intro done key val rest split results st run other bound different
      obtain ⟨valid, unique⟩ := visible.unique ⟨_, split.symm⟩ run
      have refused := insertSt_bound val valid unique bound
        (visible done key val rest split results st run other bound)
      rw [if_neg different] at refused
      exact ⟨_, refused, fun k typed out => getSt_grow valid unique typed out⟩
    · intro done before_ results st run
      exact (visible.unique before_ run).2

/-- `label a` is read a second time once five labels have filled the first block. -/
theorem duplicate_after_growth : ¬DuplicatesCaught .unitTests
    (["a", "b", "c", "d", "e", "a"].mapIdx fun i name =>
      (mkKey (Ident.ofString name) .label, mkLbval i)) := by
  intro caught
  let entries := ["a", "b", "c", "d", "e", "a"].mapIdx fun i name =>
    (mkKey (Ident.ofString name) .label, mkLbval i)
  let symbol (i : Nat) : Symbol := { key := mkKey (Ident.ofString "a") .label, val := mkLbval i }
  have twice : ∃ results st, insertMany .unitTests (newSt .unitTests) entries = .ok (results, st) ∧
      st.cell[0]? = some (symbol 0) ∧ st.cell[5]? = some (symbol 5) := by
    have evaluated : (insertMany .unitTests (newSt .unitTests) entries).toOption.map
        (fun ⟨_, st⟩ => (st.cell[0]?, st.cell[5]?)) = some (some (symbol 0), some (symbol 5)) := by
      decide +kernel
    cases run : insertMany .unitTests (newSt .unitTests) entries with
    | error fault => simp [run, Except.toOption] at evaluated
    | ok reached =>
      obtain ⟨results, st⟩ := reached
      simp only [run, Except.toOption, Option.map_some, Option.some.injEq, Prod.mk.injEq] at evaluated
      exact ⟨results, st, rfl, evaluated⟩
  obtain ⟨results, st, run, first, second⟩ := twice
  have same := caught.unique entries List.prefix_rfl results st run 0 5 _ _ first second
    (by decide) rfl
  omega

section packed

variable {cfg : Config} {st : SymbolTable}

def SymbolTable.Packed (st : SymbolTable) : Prop :=
  ∀ (idx : Nat) (sym : Symbol), st.cell[idx]? = some sym → sym.key.type ≠ .unused →
    ∀ passed ∈ before st.cell (st.sdLen sym.key) idx, passed.key.type ≠ .unused

theorem SymbolTable.Packed.visible (packed : st.Packed) (room : st.used < st.len) {key : SymKey}
    {old : SymVal} (bound : st.Binds key old) : st.Visible cfg key := by
  intro idx sym here same passed early
  rw [SymbolTable.grow_of_lt cfg room] at here early
  refine packed idx sym here (same ▸ bound.1) passed ?_
  rwa [same]

theorem insertSt_packed {next : SymbolTable} {key : SymKey} {val : SymVal} {res : InsertResult}
    (valid : st.Valid cfg) (typed : key.type ≠ .unused) (packed : st.Packed) (room : st.used < st.len)
    (inserted : insertSt cfg st key val = .ok (res, next)) : next.Packed := by
  have grown := SymbolTable.grow_of_lt cfg room
  rcases insertSt_cases valid inserted with ⟨-, rfl⟩ | ⟨home, free, -, rfl, there, -, clear⟩
  · rwa [grown]
  · rw [grown] at there clear ⊢
    intro idx sym here occupied passed early
    rcases mem_before_set early with rfl | early
    · exact typed
    · rcases (SymbolTable.fill_cell there).mp here with ⟨rfl, rfl⟩ | ⟨-, old⟩
      · exact (clear passed early).1
      · exact packed idx sym old occupied passed early

theorem insertSt_used_len {next : SymbolTable} {key : SymKey} {val : SymVal} {res : InsertResult}
    (valid : st.Valid cfg) (room : st.used < st.len)
    (inserted : insertSt cfg st key val = .ok (res, next)) :
    next.used ≤ st.used + 1 ∧ next.len = st.len := by
  have grown := SymbolTable.grow_of_lt cfg room
  rcases insertSt_cases valid inserted with ⟨-, rfl⟩ | ⟨home, free, -, rfl, -⟩ <;>
    rw [grown] <;> simp [SymbolTable.fill]

end packed

theorem visibleRun_of_length_le (cfg : Config) (entries : List (SymKey × SymVal))
    (typed : ∀ entry ∈ entries, entry.1.type ≠ .unused)
    (small : entries.length ≤ cfg.stBlockSize + 1) : VisibleRun cfg entries := by
  have start : (newSt cfg).Packed := by
    intro idx sym here occupied
    have same := List.eq_of_mem_replicate (List.mem_of_getElem? here)
    exact absurd (same ▸ rfl) occupied
  intro done key val rest split results st run old bound
  rw [split, List.length_append, List.length_cons] at small
  have reached : st.Valid cfg ∧ st.Packed ∧ st.used ≤ done.length ∧ st.len = cfg.stBlockSize + 1 := by
    refine insertMany_keeps (fun done st => st.Valid cfg ∧ st.Packed ∧ st.used ≤ done.length ∧
      st.len = cfg.stBlockSize + 1) run ⟨newSt_valid cfg, start, Nat.zero_le _, rfl⟩ ?_
    rintro front k v later rfl results mid - ⟨valid, packed, used_le, len_eq⟩ res next inserted
    simp only [List.length_append, List.length_cons] at small ⊢
    have room : mid.used < mid.len := by omega
    have typed' : k.type ≠ .unused := typed (k, v) (by simp [split])
    obtain ⟨used_next, len_next⟩ := insertSt_used_len valid room inserted
    refine ⟨insertSt_valid valid inserted, insertSt_packed valid typed' packed room inserted, ?_, ?_⟩
    · simp only [List.length_nil]; omega
    · omega
  obtain ⟨-, packed, used_le, len_eq⟩ := reached
  exact packed.visible (by omega) bound

end Hvme
