import Hvme.Lib.Probing
import Hvme.Model.St

set_option autoImplicit false

namespace Hvme

open Probing

theorem keysAreEq_iff (a b : SymKey) : keysAreEq a b = true ↔ a = b := by
  rcases a with ⟨aType, aIdent⟩
  rcases b with ⟨bType, bIdent⟩
  simp [keysAreEq, and_comm]

theorem valsAreEq_iff (a b : SymVal) : valsAreEq a b = true ↔ a = b := by
  rcases a with ⟨aAddr, aLocals⟩
  rcases b with ⟨bAddr, bLocals⟩
  simp [valsAreEq]

def Symbol.occupied (sym : Symbol) : Bool := sym.key.type != .unused

def Symbol.stops (key : SymKey) (sym : Symbol) : Bool := !sym.occupied || keysAreEq sym.key key

structure SymbolTable.Valid (cfg : Config) (st : SymbolTable) : Prop where
  length_eq : st.cell.length = st.len
  len_eq : ∃ blocks, 0 < blocks ∧ st.len = 1 + blocks * cfg.stBlockSize
  occupied_le : st.cell.countP Symbol.occupied ≤ st.used
  used_le : st.used ≤ st.len
  offset_eq : st.offset = 0

-- The shift leaves one bit fewer than the logarithm of `len`.
theorem delimHash_lt (hash : UInt64) {len : Nat} (positive : 0 < len) : delimHash hash len < len := by
  have power : 2 ^ Nat.log2 len ≤ len := Nat.log2_self_le (by omega)
  have word : (11400714819323198485 * hash).toNat < 2 ^ 64 := UInt64.toNat_lt _
  unfold delimHash
  generalize (11400714819323198485 * hash).toNat = product at word
  rw [Nat.shiftRight_eq_div_pow]
  refine lt_of_lt_of_le ?_ power
  rw [Nat.div_lt_iff_lt_mul (by positivity), ← pow_add]
  exact lt_of_lt_of_le word (Nat.pow_le_pow_right (by omega) (by omega))

theorem SymbolTable.Valid.sdLen_lt {cfg : Config} {st : SymbolTable} (valid : st.Valid cfg)
    (key : SymKey) : st.sdLen key < st.len := by
  obtain ⟨blocks, positive, len_eq⟩ := valid.len_eq
  have size : 0 < blocks * cfg.stBlockSize := Nat.mul_pos positive (by have := cfg.four_le; omega)
  have := delimHash_lt (djb2hashKey key) (show 0 < st.len - 1 by omega)
  unfold SymbolTable.sdLen
  omega

theorem newSt_valid (cfg : Config) : (newSt cfg).Valid cfg where
  length_eq := by simp [newSt]
  len_eq := ⟨1, by omega, by simp [newSt]; omega⟩
  occupied_le := by simp [newSt, List.countP_replicate, Symbol.occupied, Symbol.zero]
  used_le := by simp [newSt]
  offset_eq := rfl

section grow

variable {cfg : Config} {st : SymbolTable}

theorem SymbolTable.grow_cell (cfg : Config) (st : SymbolTable) :
    ∃ count, (st.grow cfg).cell = st.cell ++ List.replicate count Symbol.zero := by
  unfold SymbolTable.grow
  split
  · exact ⟨_, rfl⟩
  · exact ⟨0, by simp⟩

@[simp] theorem SymbolTable.grow_used (cfg : Config) (st : SymbolTable) : (st.grow cfg).used = st.used := by
  unfold SymbolTable.grow; split <;> rfl

@[simp] theorem SymbolTable.grow_numInst (cfg : Config) (st : SymbolTable) :
    (st.grow cfg).numInst = st.numInst := by
  unfold SymbolTable.grow; split <;> rfl

theorem SymbolTable.grow_of_lt (cfg : Config) (room : st.used < st.len) : st.grow cfg = st := by
  unfold SymbolTable.grow
  rw [if_neg (by omega)]

theorem SymbolTable.Valid.grow (valid : st.Valid cfg) : (st.grow cfg).Valid cfg := by
  obtain ⟨blocks, positive, len_eq⟩ := valid.len_eq
  have length_eq := valid.length_eq
  have occupied_le := valid.occupied_le
  have used_le := valid.used_le
  unfold SymbolTable.grow
  split
  · constructor
    · simp [length_eq]
    · exact ⟨blocks + 1, by omega, by rw [len_eq]; ring⟩
    · simpa [List.countP_append, List.countP_replicate, Symbol.occupied, Symbol.zero] using occupied_le
    · exact le_trans used_le (Nat.le_add_right _ _)
    · exact valid.offset_eq
  · exact valid

theorem SymbolTable.Valid.grow_room (valid : st.Valid cfg) : (st.grow cfg).used < (st.grow cfg).len := by
  have used_le := valid.used_le
  have := cfg.four_le
  unfold SymbolTable.grow
  split
  · exact Nat.lt_of_le_of_lt used_le (Nat.lt_add_of_pos_right (by omega))
  · omega

theorem SymbolTable.Valid.grow_free (valid : st.Valid cfg) :
    ∃ sym ∈ (st.grow cfg).cell, sym.occupied = false := by
  by_contra full
  push Not at full
  have all : (st.grow cfg).cell.countP Symbol.occupied = (st.grow cfg).cell.length := by
    rw [List.countP_eq_length]
    intro sym member
    simpa using full sym member
  have := valid.grow.occupied_le
  have := valid.grow.length_eq
  have := valid.grow_room
  omega

end grow

theorem probeGet_eq (key : SymKey) (cells : List Symbol) (idx : Nat) :
    probeGet key cells idx = idx + cells.findIdx fun sym => keysAreEq sym.key key := by
  induction cells generalizing idx with
  | nil => simp [probeGet]
  | cons sym cells ih =>
    simp only [probeGet, List.findIdx_cons]
    by_cases same : keysAreEq sym.key key = true
    · simp [same]
    · simp only [same, ih]
      simp
      omega

def SymbolTable.lookup (st : SymbolTable) (found : Option Nat) (val : SymVal) :
    Except Fault (GetResult × SymVal) :=
  match found with
  | none => .ok (.err, val)
  | some idx => st.valAt idx

theorem getSt_eq_lookup {cfg : Config} {st : SymbolTable} (valid : st.Valid cfg) (key : SymKey)
    (val : SymVal) :
    getSt st key val =
      st.lookup (search (fun sym => keysAreEq sym.key key) st.cell (st.sdLen key)) val := by
  have length_eq := valid.length_eq
  have sdLen_lt := valid.sdLen_lt key
  have earlier : ((st.cell.take (st.sdLen key)).findIdx fun sym => keysAreEq sym.key key) ≤
      st.sdLen key :=
    le_trans List.findIdx_le_length (List.length_take_le _ _)
  have later : ((st.cell.drop (st.sdLen key)).findIdx fun sym => keysAreEq sym.key key) ≤
      st.len - st.sdLen key :=
    le_trans List.findIdx_le_length (by rw [List.length_drop, length_eq])
  unfold getSt search
  simp only [probeGet_eq, Nat.zero_add]
  by_cases inside : st.sdLen key +
      ((st.cell.drop (st.sdLen key)).findIdx fun sym => keysAreEq sym.key key) < st.cell.length
  · rw [if_neg (by omega), if_pos inside]
    rfl
  · rw [if_pos (by omega), if_neg inside]
    by_cases found : ((st.cell.take (st.sdLen key)).findIdx fun sym => keysAreEq sym.key key) < st.sdLen key
    · rw [if_neg (by omega), if_pos found]
      rfl
    · rw [if_pos (by omega), if_neg found]
      rfl

theorem stops_iff (key : SymKey) (sym : Symbol) :
    sym.stops key = true ↔ sym.key.type = .unused ∨ sym.key = key := by
  simp [Symbol.stops, Symbol.occupied, keysAreEq_iff]

theorem not_stops_iff (key : SymKey) (sym : Symbol) :
    sym.stops key = false ↔ sym.key.type ≠ .unused ∧ sym.key ≠ key := by
  rw [← Bool.not_eq_true, stops_iff, not_or]

def Symbol.settle (sym : Symbol) (val : SymVal) (idx : Nat) : Option Nat :=
  if sym.key.type = .unused ∨ valsAreEq sym.val val = true then some idx else none

theorem probeInsert_eq (key : SymKey) (val : SymVal) (cells : List Symbol) (idx : Nat) :
    probeInsert key val cells idx =
      match cells[cells.findIdx (Symbol.stops key)]? with
      | none => some (idx + cells.length)
      | some sym => sym.settle val (idx + cells.findIdx (Symbol.stops key)) := by
  induction cells generalizing idx with
  | nil => simp [probeInsert]
  | cons sym cells ih =>
    by_cases unused : sym.key.type = .unused
    · have stop : sym.stops key = true := (stops_iff key sym).mpr (.inl unused)
      simp [probeInsert, unused, List.findIdx_cons, stop, Symbol.settle]
    · by_cases same : keysAreEq sym.key key = true
      · have stop : sym.stops key = true :=
          (stops_iff key sym).mpr (.inr ((keysAreEq_iff _ _).mp same))
        simp [probeInsert, unused, same, List.findIdx_cons, stop, Symbol.settle]
      · have go : sym.stops key = false :=
          (not_stops_iff key sym).mpr ⟨unused, fun eq => same ((keysAreEq_iff _ _).mpr eq)⟩
        simp only [probeInsert, if_neg unused, same, ih, List.findIdx_cons, go, Bool.false_eq_true,
          if_false, cond_false, List.getElem?_cons_succ, List.length_cons]
        cases cells[cells.findIdx (Symbol.stops key)]? with
        | none => simp only; congr 1; omega
        | some other => simp only; congr 1; omega

theorem insertIdx_eq {st : SymbolTable} {key : SymKey} {val : SymVal} {idx : Nat} {sym : Symbol}
    (length_eq : st.cell.length = st.len)
    (found : search (Symbol.stops key) st.cell (st.sdLen key) = some idx)
    (here : st.cell[idx]? = some sym) : st.insertIdx key val = sym.settle val idx := by
  have inside := (List.getElem?_eq_some_iff.mp here).1
  unfold SymbolTable.insertIdx
  rw [probeInsert_eq]
  unfold search at found
  simp only at found
  split at found
  · next first =>
    -- The first loop stops at `idx`.
    simp only [Option.some.injEq] at found
    have at_ : (st.cell.drop (st.sdLen key))[(st.cell.drop (st.sdLen key)).findIdx (Symbol.stops key)]? =
        some sym := by
      rw [List.getElem?_drop, found, here]
    rw [at_, found]
    simp only
    cases settled : sym.settle val idx with
    | none => rfl
    | some stop =>
      have same : stop = idx := by
        unfold Symbol.settle at settled
        split at settled <;> simp_all
      simp only [same]
      rw [if_neg (by omega)]
  · next first =>
    -- It runs to the end, and the second loop stops at `idx`.
    split at found
    · next second =>
      simp only [Option.some.injEq] at found
      have past : (st.cell.drop (st.sdLen key))[(st.cell.drop (st.sdLen key)).findIdx (Symbol.stops key)]? =
          none := by
        rw [List.getElem?_drop]
        exact List.getElem?_eq_none (by omega)
      have at_ : (st.cell.take (st.sdLen key))[(st.cell.take (st.sdLen key)).findIdx (Symbol.stops key)]? =
          some sym := by
        rw [List.getElem?_take, if_pos second, found, here]
      rw [past]
      simp only [List.length_drop]
      rw [if_pos (by omega), probeInsert_eq, at_, found]
      simp
    · cases found

def SymbolTable.fill (st : SymbolTable) (idx : Nat) (key : SymKey) (val : SymVal) : SymbolTable :=
  { st with cell := st.cell.set idx { key := key, val := val }, used := st.used + 1 }

theorem insertSt_spec {cfg : Config} {st : SymbolTable} (valid : st.Valid cfg) (key : SymKey) (val : SymVal) :
    ∃ idx sym, (st.grow cfg).cell[idx]? = some sym ∧ sym.stops key = true ∧
      (∀ passed ∈ before (st.grow cfg).cell ((st.grow cfg).sdLen key) idx, passed.stops key = false) ∧
      insertSt cfg st key val =
        if sym.key.type = .unused then .ok (.ok, (st.grow cfg).fill idx key val)
        else if sym.val = val then .error .assertion
        else .ok (.exists_, st.grow cfg) := by
  have grown := valid.grow
  obtain ⟨free, member, unused⟩ := valid.grow_free
  have free_stops : free.stops key = true := by simp [Symbol.stops, unused]
  have bound : (st.grow cfg).sdLen key ≤ (st.grow cfg).cell.length := by
    have := grown.sdLen_lt key
    have := grown.length_eq
    omega
  obtain ⟨idx, sym, found, here, stopped, clear⟩ := search_of_mem _ bound member free_stops
  refine ⟨idx, sym, here, stopped, clear, ?_⟩
  simp only [insertSt, insertIdx_eq grown.length_eq found here, Symbol.settle, valsAreEq_iff]
  by_cases unused : sym.key.type = .unused
  · simp [unused, here, SymbolTable.fill]
  · by_cases same : sym.val = val
    · simp [unused, same, here]
    · simp [unused, same]

def SymbolTable.Binds (st : SymbolTable) (key : SymKey) (val : SymVal) : Prop :=
  key.type ≠ .unused ∧ { key := key, val := val } ∈ st.cell

def SymbolTable.UniqueKeys (st : SymbolTable) : Prop :=
  ∀ (i j : Nat) (a b : Symbol), st.cell[i]? = some a → st.cell[j]? = some b →
    a.key.type ≠ .unused → a.key = b.key → i = j

theorem SymbolTable.binds_of_occupied {st : SymbolTable} {sym : Symbol} {idx : Nat}
    (here : st.cell[idx]? = some sym) (occupied : sym.key.type ≠ .unused) : st.Binds sym.key sym.val :=
  ⟨occupied, List.mem_of_getElem? here⟩

theorem SymbolTable.UniqueKeys.val_eq {st : SymbolTable} (unique : st.UniqueKeys) {key : SymKey}
    {a b : SymVal} (left : st.Binds key a) (right : st.Binds key b) : a = b := by
  obtain ⟨i, here⟩ := List.mem_iff_getElem?.mp left.2
  obtain ⟨j, there⟩ := List.mem_iff_getElem?.mp right.2
  have same := unique i j _ _ here there left.1 rfl
  subst same
  rw [here] at there
  exact congrArg Symbol.val (Option.some.inj there)

section grow

variable (cfg : Config) {st : SymbolTable}

theorem SymbolTable.grow_cell_of_occupied {idx : Nat} {sym : Symbol} (occupied : sym.key.type ≠ .unused) :
    (st.grow cfg).cell[idx]? = some sym ↔ st.cell[idx]? = some sym := by
  obtain ⟨count, cell_eq⟩ := st.grow_cell cfg
  rw [cell_eq, List.getElem?_append]
  split
  · rfl
  · next outside =>
    rw [List.getElem?_eq_none (l := st.cell) (by omega), List.getElem?_replicate]
    constructor
    · intro found
      split at found
      · cases found
        exact absurd rfl occupied
      · cases found
    · intro found
      cases found

theorem SymbolTable.grow_binds (key : SymKey) (val : SymVal) :
    (st.grow cfg).Binds key val ↔ st.Binds key val := by
  refine and_congr_right fun occupied => ?_
  simp only [List.mem_iff_getElem?]
  exact exists_congr fun idx => SymbolTable.grow_cell_of_occupied cfg occupied

theorem SymbolTable.UniqueKeys.grow (unique : st.UniqueKeys) : (st.grow cfg).UniqueKeys := by
  intro i j a b here there occupied same
  exact unique i j a b ((SymbolTable.grow_cell_of_occupied cfg occupied).mp here)
    ((SymbolTable.grow_cell_of_occupied cfg (same ▸ occupied)).mp there) occupied same

end grow

section getSt

variable {cfg : Config} {st : SymbolTable} {key : SymKey}

theorem getSt_cases (valid : st.Valid cfg) (key : SymKey) :
    (∀ out, getSt st key out = .ok (.err, out)) ∨
      ∃ sym ∈ st.cell, sym.key = key ∧ ∀ out, getSt st key out = .ok (.ok, sym.val) := by
  have bound : st.sdLen key ≤ st.cell.length := valid.length_eq ▸ (valid.sdLen_lt key).le
  have looked := getSt_eq_lookup valid key
  cases found : search (fun sym => keysAreEq sym.key key) st.cell (st.sdLen key) with
  | none =>
    rw [found] at looked
    exact .inl looked
  | some idx =>
    obtain ⟨sym, here, same, -⟩ := search_some bound found
    refine .inr ⟨sym, List.mem_of_getElem? here, (keysAreEq_iff _ _).mp same, fun out => ?_⟩
    rw [looked, found]
    simp only [SymbolTable.lookup, SymbolTable.valAt, here, valid.offset_eq, Nat.add_zero]

theorem getSt_of_binds (valid : st.Valid cfg) (unique : st.UniqueKeys) {val : SymVal}
    (bound : st.Binds key val) (out : SymVal) : getSt st key out = .ok (.ok, val) := by
  have inside : st.sdLen key ≤ st.cell.length := by
    have := valid.sdLen_lt key
    have := valid.length_eq
    omega
  obtain ⟨idx, sym, found, here, stopped, -⟩ :=
    search_of_mem (fun sym => keysAreEq sym.key key) inside bound.2
      ((keysAreEq_iff _ _).mpr rfl)
  have same : sym.key = key := (keysAreEq_iff _ _).mp stopped
  have val_eq : sym.val = val := by
    have found : st.Binds sym.key sym.val :=
      SymbolTable.binds_of_occupied here (same ▸ bound.1)
    rw [same] at found
    exact unique.val_eq found bound
  rw [getSt_eq_lookup valid, found]
  simp [SymbolTable.lookup, SymbolTable.valAt, here, valid.offset_eq, ← val_eq]

theorem getSt_of_not_binds (valid : st.Valid cfg) (typed : key.type ≠ .unused)
    (free : ∀ val, ¬st.Binds key val) (out : SymVal) : getSt st key out = .ok (.err, out) := by
  rcases getSt_cases valid key with missed | ⟨sym, member, rfl, -⟩
  · exact missed out
  · exact absurd ⟨typed, member⟩ (free sym.val)

theorem getSt_grow (valid : st.Valid cfg) (unique : st.UniqueKeys) (typed : key.type ≠ .unused)
    (out : SymVal) : getSt (st.grow cfg) key out = getSt st key out := by
  by_cases bound : ∃ val, st.Binds key val
  · obtain ⟨val, bound⟩ := bound
    rw [getSt_of_binds valid unique bound,
      getSt_of_binds valid.grow (unique.grow cfg) ((SymbolTable.grow_binds cfg key val).mpr bound)]
  · have free : ∀ val, ¬st.Binds key val := fun val bind => bound ⟨val, bind⟩
    rw [getSt_of_not_binds valid typed free,
      getSt_of_not_binds valid.grow typed fun val bind =>
        free val ((SymbolTable.grow_binds cfg key val).mp bind)]

end getSt

section fill

variable {cfg : Config} {st : SymbolTable} {idx : Nat} {sym : Symbol} {key : SymKey} {val : SymVal}

theorem SymbolTable.Valid.fill (valid : st.Valid cfg) (room : st.used < st.len)
    (here : st.cell[idx]? = some sym) : (st.fill idx key val).Valid cfg := by
  obtain ⟨inside, same⟩ := List.getElem?_eq_some_iff.mp here
  have occupied_le := valid.occupied_le
  constructor
  · simpa [SymbolTable.fill] using valid.length_eq
  · exact valid.len_eq
  · simp only [SymbolTable.fill, List.countP_set inside]
    split <;> split <;> omega
  · simp only [SymbolTable.fill]; omega
  · exact valid.offset_eq

theorem SymbolTable.fill_cell (here : st.cell[idx]? = some sym) {i : Nat} {other : Symbol} :
    (st.fill idx key val).cell[i]? = some other ↔
      (i = idx ∧ other = { key := key, val := val }) ∨ (i ≠ idx ∧ st.cell[i]? = some other) := by
  have inside := (List.getElem?_eq_some_iff.mp here).1
  rw [SymbolTable.fill, List.getElem?_set]
  by_cases same : idx = i
  · subst same
    simp [inside, eq_comm]
  · simp [same, Ne.symm same]

theorem SymbolTable.fill_binds (here : st.cell[idx]? = some sym) (unused : sym.key.type = .unused)
    (typed : key.type ≠ .unused) (k : SymKey) (v : SymVal) :
    (st.fill idx key val).Binds k v ↔ st.Binds k v ∨ (k = key ∧ v = val) := by
  simp only [SymbolTable.Binds, List.mem_iff_getElem?, SymbolTable.fill_cell here, Symbol.mk.injEq]
  constructor
  · rintro ⟨occupied, i, ⟨rfl, rfl, rfl⟩ | ⟨-, found⟩⟩
    · exact .inr ⟨rfl, rfl⟩
    · exact .inl ⟨occupied, i, found⟩
  · rintro (⟨occupied, i, found⟩ | ⟨rfl, rfl⟩)
    · refine ⟨occupied, i, .inr ⟨?_, found⟩⟩
      rintro rfl
      rw [here] at found
      cases found
      exact occupied unused
    · exact ⟨typed, idx, .inl ⟨rfl, rfl, rfl⟩⟩

theorem SymbolTable.UniqueKeys.fill (unique : st.UniqueKeys) (here : st.cell[idx]? = some sym)
    (fresh : ∀ v, ¬st.Binds key v) : (st.fill idx key val).UniqueKeys := by
  have clash {i : Nat} {a : Symbol} (found : st.cell[i]? = some a) (occupied : a.key.type ≠ .unused)
      (same : a.key = key) : False :=
    fresh a.val (same ▸ SymbolTable.binds_of_occupied found occupied)
  intro i j a b left right occupied same
  rcases (SymbolTable.fill_cell here).mp left with ⟨rfl, rfl⟩ | ⟨-, leftOld⟩ <;>
    rcases (SymbolTable.fill_cell here).mp right with ⟨rfl, rfl⟩ | ⟨-, rightOld⟩
  · rfl
  · exact (clash rightOld (same ▸ occupied) same.symm).elim
  · exact (clash leftOld occupied same).elim
  · exact unique i j a b leftOld rightOld occupied same

end fill

theorem insertSt_fresh {cfg : Config} {st : SymbolTable} {key : SymKey} (valid : st.Valid cfg)
    (unique : st.UniqueKeys) (typed : key.type ≠ .unused) (fresh : ∀ v, ¬st.Binds key v) (val : SymVal) :
    ∃ st', insertSt cfg st key val = .ok (.ok, st') ∧ st'.Valid cfg ∧ st'.UniqueKeys ∧
      st'.numInst = st.numInst ∧ ∀ k v, st'.Binds k v ↔ st.Binds k v ∨ (k = key ∧ v = val) := by
  obtain ⟨idx, sym, here, stopped, -, result⟩ := insertSt_spec valid key val
  have unused : sym.key.type = .unused := by
    by_contra occupied
    rcases (stops_iff key sym).mp stopped with free | same
    · exact occupied free
    · have bound := SymbolTable.binds_of_occupied here occupied
      rw [same] at bound
      exact fresh _ ((SymbolTable.grow_binds _ _ _).mp bound)
  rw [if_pos unused] at result
  refine ⟨_, result, valid.grow.fill valid.grow_room here, (unique.grow cfg).fill here ?_, ?_, ?_⟩
  · exact fun v bound => fresh v ((SymbolTable.grow_binds _ _ _).mp bound)
  · simp [SymbolTable.fill]
  · intro k v
    rw [SymbolTable.fill_binds here unused typed, SymbolTable.grow_binds cfg]

def insertMany (cfg : Config) (st : SymbolTable) :
    List (SymKey × SymVal) → Except Fault (List InsertResult × SymbolTable)
  | [] => .ok ([], st)
  | (key, val) :: entries =>
    match insertSt cfg st key val with
    | .error fault => .error fault
    | .ok (res, st) =>
      match insertMany cfg st entries with
      | .error fault => .error fault
      | .ok (results, st) => .ok (res :: results, st)

theorem newSt_binds (cfg : Config) (key : SymKey) (val : SymVal) : ¬(newSt cfg).Binds key val := by
  rintro ⟨typed, member⟩
  have same := List.eq_of_mem_replicate member
  cases same
  exact typed rfl

theorem newSt_unique (cfg : Config) : (newSt cfg).UniqueKeys := by
  intro i j a b here _ occupied _
  have same := List.eq_of_mem_replicate (List.mem_of_getElem? here)
  cases same
  exact absurd rfl occupied

theorem insertMany_distinct {cfg : Config} {st : SymbolTable} (valid : st.Valid cfg)
    (unique : st.UniqueKeys) (entries : List (SymKey × SymVal))
    (typed : ∀ entry ∈ entries, entry.1.type ≠ .unused) (distinct : (entries.map Prod.fst).Nodup)
    (fresh : ∀ entry ∈ entries, ∀ v, ¬st.Binds entry.1 v) :
    ∃ st', insertMany cfg st entries = .ok (List.replicate entries.length .ok, st') ∧
      st'.Valid cfg ∧ st'.UniqueKeys ∧ st'.numInst = st.numInst ∧
      ∀ k v, st'.Binds k v ↔ st.Binds k v ∨ (k, v) ∈ entries := by
  induction entries generalizing st with
  | nil => exact ⟨st, rfl, valid, unique, rfl, by simp⟩
  | cons entry entries ih =>
    obtain ⟨key, val⟩ := entry
    rw [List.map_cons, List.nodup_cons] at distinct
    obtain ⟨next, inserted, next_valid, next_unique, next_num, next_binds⟩ :=
      insertSt_fresh valid unique (typed _ List.mem_cons_self) (fresh _ List.mem_cons_self) val
    have still_fresh : ∀ entry ∈ entries, ∀ v, ¬next.Binds entry.1 v := by
      intro entry member v bound
      rcases (next_binds _ _).mp bound with old | ⟨same, -⟩
      · exact fresh entry (List.mem_cons_of_mem _ member) v old
      · exact distinct.1 (same ▸ List.mem_map_of_mem member)
    obtain ⟨last, rest, last_valid, last_unique, last_num, last_binds⟩ :=
      ih next_valid next_unique (fun entry member => typed entry (List.mem_cons_of_mem _ member))
        distinct.2 still_fresh
    refine ⟨last, ?_, last_valid, last_unique, last_num.trans next_num, ?_⟩
    · simp [insertMany, inserted, rest, List.replicate_succ]
    · intro k v
      rw [last_binds, next_binds, List.mem_cons, Prod.mk.injEq, or_assoc]

theorem symbolTable_is_map (cfg : Config) (entries : List (SymKey × SymVal))
    (typed : ∀ entry ∈ entries, entry.1.type ≠ .unused) (distinct : (entries.map Prod.fst).Nodup) :
    ∃ st, insertMany cfg (newSt cfg) entries = .ok (List.replicate entries.length .ok, st) ∧
      (∀ key val, (key, val) ∈ entries → ∀ out, getSt st key out = .ok (.ok, val)) ∧
      (∀ key, key.type ≠ .unused → key ∉ entries.map Prod.fst →
        ∀ out, getSt st key out = .ok (.err, out)) := by
  obtain ⟨st, inserted, valid, unique, -, binds⟩ :=
    insertMany_distinct (newSt_valid cfg) (newSt_unique cfg) entries typed distinct
      (fun entry _ v => newSt_binds cfg entry.1 v)
  refine ⟨st, inserted, ?_, ?_⟩
  · intro key val member out
    exact getSt_of_binds valid unique ((binds key val).mpr (.inr member)) out
  · intro key typed absent out
    refine getSt_of_not_binds valid typed (fun val bound => ?_) out
    rcases (binds key val).mp bound with old | member
    · exact newSt_binds cfg key val old
    · exact absent (List.mem_map_of_mem member)

theorem symbolTable_is_map_grown :
    let entries := ["a", "b", "c", "d", "e", "f"].map fun name =>
      (mkKey (Ident.ofString name) .label, mkLbval name.length)
    ∃ st, insertMany .unitTests (newSt .unitTests) entries = .ok (List.replicate 6 .ok, st) ∧
      (∀ key val, (key, val) ∈ entries → ∀ out, getSt st key out = .ok (.ok, val)) ∧
      (∀ key, key.type ≠ .unused → key ∉ entries.map Prod.fst →
        ∀ out, getSt st key out = .ok (.err, out)) :=
  symbolTable_is_map .unitTests _ (by decide) (by decide)

end Hvme
