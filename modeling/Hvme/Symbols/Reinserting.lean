import Hvme.Parser.Language
import Hvme.Symbols.Duplicates

set_option autoImplicit false

namespace Hvme

open Probing

structure SymbolTable.SameSymbols (st next : SymbolTable) : Prop where
  used : next.used = st.used
  occupied : ∀ idx : Nat, next.cell[idx]?.any Symbol.occupied = st.cell[idx]?.any Symbol.occupied
  lookups : ∀ key, key.type ≠ .unused → ∀ out, getSt next key out = getSt st key out

/-- Inserting `key` with `val` is accepted and changes nothing. -/
def SymbolTable.TakesAgain (cfg : Config) (st : SymbolTable) (key : SymKey) (val : SymVal) : Prop :=
  ∃ next, insertSt cfg st key val = .ok (.ok, next) ∧ st.SameSymbols next

/-- Probing for `key`, after the growth check, comes to a cell that holds it with `val`. -/
def SymbolTable.Finds (cfg : Config) (st : SymbolTable) (key : SymKey) (val : SymVal) : Prop :=
  ∃ idx, (st.grow cfg).cell[idx]? = some { key := key, val := val } ∧
    ∀ passed ∈ before (st.grow cfg).cell ((st.grow cfg).sdLen key) idx,
      passed.key.type ≠ .unused ∧ passed.key ≠ key

section insertion

variable {cfg : Config} {st : SymbolTable}

theorem insertSt_ok_used (valid : st.Valid cfg) {next : SymbolTable} {key : SymKey} {val : SymVal}
    (inserted : insertSt cfg st key val = .ok (.ok, next)) : next.used = st.used + 1 := by
  rcases insertSt_cases valid inserted with ⟨refused, -⟩ | ⟨idx, sym, -, rfl, -⟩
  · cases refused
  · rw [SymbolTable.fill, SymbolTable.grow_used]

theorem not_takesAgain (valid : st.Valid cfg) (key : SymKey) (val : SymVal) :
    ¬st.TakesAgain cfg key val := by
  rintro ⟨next, inserted, same⟩
  have used := insertSt_ok_used valid inserted
  rw [same.used] at used
  omega

theorem insertSt_assertion_iff (valid : st.Valid cfg) {key : SymKey} (typed : key.type ≠ .unused)
    (val : SymVal) : insertSt cfg st key val = .error .assertion ↔ st.Finds cfg key val := by
  obtain ⟨idx, sym, here, stopped, clear, result⟩ := insertSt_spec valid key val
  have passes : ∀ passed ∈ before (st.grow cfg).cell ((st.grow cfg).sdLen key) idx,
      passed.key.type ≠ .unused ∧ passed.key ≠ key :=
    fun passed member => (not_stops_iff key passed).mp (clear passed member)
  rw [result]
  constructor
  · intro failed
    split at failed
    · cases failed
    · next occupied =>
      split at failed
      · next equal =>
        have same := ((stops_iff key sym).mp stopped).resolve_left occupied
        exact ⟨idx, by rw [here, ← same, ← equal], passes⟩
      · cases failed
  · rintro ⟨home, there, unstopped⟩
    -- Two cells that stop the search cannot be behind one another.
    have at_home : idx = home := by
      by_contra different
      rcases mem_before_or ((st.grow cfg).sdLen key) here there different with early | late
      · exact absurd ((stops_iff key sym).mp stopped) (not_or.mpr (unstopped sym early))
      · exact (passes _ late).2 rfl
    subst at_home
    rw [here] at there
    cases there
    rw [if_neg typed, if_pos rfl]

end insertion

theorem except_of_map_fst {α β : Type} {result : Except Fault (α × β)} {res : α}
    (mapped : result.map Prod.fst = .ok res) : ∃ b, result = .ok (res, b) := by
  cases result with
  | error fault => cases mapped
  | ok value =>
    cases mapped
    exact ⟨value.2, rfl⟩

theorem enterAll_used {cfg : Config} {st last : SymbolTable} (valid : st.Valid cfg)
    {entries : List (SymKey × SymVal)} (entered : enterAll cfg st entries = .ok (.ok, last)) :
    last.used = st.used + entries.length := by
  induction entries generalizing st with
  | nil =>
    cases entered
    rfl
  | cons entry entries ih =>
    obtain ⟨next, inserted, later⟩ := enterAll_cons.mp entered
    rw [ih (insertSt_valid valid inserted) later, insertSt_ok_used valid inserted, List.length_cons]
    omega

/-- `twice` declares what `once` declares, and one of these a second time at the same address. -/
def DeclaresTwice (addr : Nat) (once twice : List Token) : Prop :=
  ∃ front entry mid back,
    declarations addr (clausesOf once) = front ++ entry :: mid ++ back ∧
    declarations addr (clausesOf twice) = front ++ entry :: mid ++ entry :: back

def ParsesAsOnce (cfg : Config) (insts : Insts) (once twice : Tokens) : Prop :=
  ∀ p st, parse cfg once insts (some (newSt cfg)) = .ok (.ok, p) → p.st = some st →
    ∃ p' st', parse cfg twice insts (some (newSt cfg)) = .ok (.ok, p') ∧ p'.st = some st' ∧
      p'.insts = p.insts ∧ st.SameSymbols st'

theorem parse_used {cfg : Config} {insts : Insts} {tokens : Tokens} {p : Parser}
    (accepted : parse cfg tokens insts (some (newSt cfg)) = .ok (.ok, p)) :
    ∃ st, p.st = some st ∧
      st.used = (declarations insts.cell.length (clausesOf tokens.cell)).length := by
  have cases_ := parse_cases cfg tokens insts (newSt cfg)
  rw [show insts.cell.length + (newSt cfg).numInst = insts.cell.length from rfl] at cases_
  split at cases_
  · rw [accepted] at cases_
    cases cases_
  · obtain ⟨p', failed⟩ := cases_
    rw [accepted] at failed
    cases failed
  · next last entered =>
    split at cases_
    · obtain ⟨p', num, parsed, table, -⟩ := cases_
      rw [accepted] at parsed
      cases parsed
      exact ⟨_, table, (enterAll_used (newSt_valid cfg) entered).trans (Nat.zero_add _)⟩
    · obtain ⟨p', failed⟩ := cases_
      rw [accepted] at failed
      cases failed

theorem not_parsesAsOnce {cfg : Config} {insts : Insts} {once twice : Tokens}
    (repeats : DeclaresTwice insts.cell.length once.cell twice.cell) {p : Parser}
    (accepted : parse cfg once insts (some (newSt cfg)) = .ok (.ok, p)) :
    ¬ParsesAsOnce cfg insts once twice := by
  intro alike
  obtain ⟨st, table, used⟩ := parse_used accepted
  obtain ⟨p', st', again, table', -, same⟩ := alike p st accepted table
  obtain ⟨st'', table'', used'⟩ := parse_used again
  rw [table'] at table''
  cases table''
  obtain ⟨front, entry, mid, back, first, second⟩ := repeats
  have unchanged := same.used
  simp only [used, used', first, second, List.length_append, List.length_cons] at unchanged
  omega

/-- No symbol of a table is taken again without a change, and no declaration is. -/
theorem symbols_not_taken_again (cfg : Config) :
    (∀ entries results st, insertMany cfg (newSt cfg) entries = .ok (results, st) →
      ∀ key val, st.Binds key val → ¬st.TakesAgain cfg key val) ∧
    (∀ insts once twice, DeclaresTwice insts.cell.length once.cell twice.cell →
      (∃ p, parse cfg once insts (some (newSt cfg)) = .ok (.ok, p)) →
      ¬ParsesAsOnce cfg insts once twice) := by
  constructor
  · intro entries results st run key val _
    exact not_takesAgain (insertMany_valid (newSt_valid cfg) run) key val
  · rintro insts once twice repeats ⟨p, accepted⟩
    exact not_parsesAsOnce repeats accepted

theorem symbols_not_taken_again_label :
    let key := mkKey (Ident.ofString "a") .label
    let st := (newSt .unitTests).fill ((newSt .unitTests).sdLen key) key (mkLbval 0)
    let token (t : TokenCode) : Token := { t := t, pos := Pos.zero, uilit := 0, ident := Ident.ofString "a" }
    ¬st.TakesAgain .unitTests key (mkLbval 0) ∧
      ¬ParsesAsOnce .unitTests (newInsts none)
        { cell := [token .label, token .ident], filename := none, cur := Pos.zero }
        { cell := [token .label, token .ident, token .label, token .ident], filename := none,
          cur := Pos.zero } := by
  intro key st token
  have run : insertMany .unitTests (newSt .unitTests) [(key, mkLbval 0)] = .ok ([.ok], st) := by decide
  have accepted : (parse .unitTests
      { cell := [token .label, token .ident], filename := none, cur := Pos.zero } (newInsts none)
      (some (newSt .unitTests))).map Prod.fst = .ok .ok := by
    decide +kernel
  obtain ⟨p, parsed⟩ := except_of_map_fst accepted
  exact ⟨(symbols_not_taken_again .unitTests).1 _ _ _ run _ _ ⟨by decide, by decide⟩,
    (symbols_not_taken_again .unitTests).2 _ _ _ ⟨[], (key, mkLbval 0), [], [], by decide, by decide⟩
      ⟨p, parsed⟩⟩

theorem label_again_aborts :
    let key := mkKey (Ident.ofString "a") .label
    let st := (newSt .unitTests).fill ((newSt .unitTests).sdLen key) key (mkLbval 0)
    let token (t : TokenCode) : Token := { t := t, pos := Pos.zero, uilit := 0, ident := Ident.ofString "a" }
    insertMany .unitTests (newSt .unitTests) [(key, mkLbval 0)] = .ok ([.ok], st) ∧
      st.Binds key (mkLbval 0) ∧ insertSt .unitTests st key (mkLbval 0) = .error .assertion ∧
      ¬st.TakesAgain .unitTests key (mkLbval 0) ∧
      (parse .unitTests
        { cell := [token .label, token .ident, token .label, token .ident], filename := none,
          cur := Pos.zero } (newInsts none) (some (newSt .unitTests))).map Prod.fst = .error .assertion := by
  intro key st token
  have aborts : insertSt .unitTests st key (mkLbval 0) = .error .assertion := by decide
  refine ⟨by decide, ⟨by decide, by decide⟩, aborts, ?_, by decide +kernel⟩
  rintro ⟨next, inserted, -⟩
  rw [aborts] at inserted
  cases inserted

end Hvme
