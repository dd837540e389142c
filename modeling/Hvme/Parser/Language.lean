import Hvme.Parser.Reading

set_option autoImplicit false

namespace Hvme

def Clause.Complete : Clause → Prop
  | .item _ => True
  | .function _ | .call _ => False

theorem items_of_complete {clauses : List Clause} (complete : ∀ clause ∈ clauses, clause.Complete) :
    ∃ items : List Item, clauses = items.map Clause.item := by
  induction clauses with
  | nil => exact ⟨[], rfl⟩
  | cons clause clauses ih =>
    obtain ⟨items, rfl⟩ := ih fun other member => complete other (List.mem_cons_of_mem _ member)
    cases clause with
    | item item => exact ⟨item :: items, rfl⟩
    | function ident => exact (complete _ List.mem_cons_self).elim
    | call ident => exact (complete _ List.mem_cons_self).elim

/-- The clauses that `tokens` starts with. -/
def clausesOf (tokens : List Token) : List Clause :=
  (readClauses tokens.length (tokens.map Token.lexeme)).1

def leftOf (tokens : List Token) : List Lexeme :=
  (readClauses tokens.length (tokens.map Token.lexeme)).2

theorem wellFormed_iff_complete (tokens : List Token) :
    WellFormed tokens ↔ leftOf tokens = [] ∧ ∀ clause ∈ clausesOf tokens, clause.Complete := by
  rw [wellFormed_iff_read]
  constructor
  · rintro ⟨items, read⟩
    refine ⟨congrArg Prod.snd read, ?_⟩
    rw [clausesOf, read]
    intro clause member
    obtain ⟨item, -, rfl⟩ := List.mem_map.mp member
    trivial
  · rintro ⟨nothing, complete⟩
    obtain ⟨items, same⟩ := items_of_complete complete
    exact ⟨items, Prod.ext same nothing⟩

theorem parse_cases (cfg : Config) (tokens : Tokens) (insts : Insts) (st : SymbolTable) :
    match enterAll cfg st (declarations (insts.cell.length + st.numInst) (clausesOf tokens.cell)) with
    | .error fault => parse cfg tokens insts (some st) = .error fault
    | .ok (.exists_, _) => ∃ p, parse cfg tokens insts (some st) = .ok (.err, p)
    | .ok (.ok, last) =>
      if leftOf tokens.cell = [] then
        ∃ p num, parse cfg tokens insts (some st) = .ok (.ok, p) ∧
          p.st = some { last with numInst := num } ∧ Emits insts.cell p.insts.cell (clausesOf tokens.cell)
      else ∃ p, parse cfg tokens insts (some st) = .ok (.err, p) := by
  obtain ⟨result, ends, parsed⟩ := parse_ends cfg tokens insts st
  -- The loop has decided all of it; behind the loop only `num_inst` is set.
  unfold Ends at ends
  unfold clausesOf leftOf
  generalize enterAll cfg st _ = entered at ends ⊢
  rcases entered with fault | ⟨_ | _, last⟩
  · rw [parsed, show result = .error fault from ends]
  · obtain ⟨p, rfl⟩ := ends
    exact ⟨p, parsed⟩
  · simp only at ends ⊢
    split at ends
    · next nothing =>
      obtain ⟨p, rfl, table, emits⟩ := ends
      rw [if_pos nothing]
      exact ⟨_, _, parsed, by rw [table]; rfl, emits⟩
    · next something =>
      obtain ⟨p, rfl⟩ := ends
      rw [if_neg something]
      exact ⟨p, parsed⟩

def Parser.start (tokens : Tokens) (insts : Insts) (st : Option SymbolTable) : Parser where
  its := { tokens := tokens.cell, idx := 0, len := tokens.cell.length }
  insts := insts
  st := st
  diags := []
  warnings := []

def Parser.finish (p : Parser) : Parser :=
  { p with st := p.st.map fun st => { st with numInst := st.numInst + p.insts.cell.length } }

theorem Parser.start_at (tokens : Tokens) (insts : Insts) (st : Option SymbolTable) :
    (Parser.start tokens insts st).its.At tokens.cell := ⟨rfl, rfl⟩

theorem parse_loop (cfg : Config) (tokens : Tokens) (insts : Insts) (st : Option SymbolTable) :
    parse cfg tokens insts st =
      match parseLoop cfg tokens.filename (st.elim 0 SymbolTable.numInst) tokens.cell.length
        (Parser.start tokens insts st) with
      | .error fault => .error fault
      | .ok (.err, p) => .ok (.err, p)
      | .ok (.ok, p) => .ok (.ok, p.finish) := rfl

/-- A token list that is not well formed makes `parse` fail. -/
def SyntaxErrorsReported (cfg : Config) (tokens : Tokens) (insts : Insts) : Prop :=
  ¬WellFormed tokens.cell → ∃ p, parse cfg tokens insts (some (newSt cfg)) = .ok (.err, p)

/-- No `function` or `call` lacks its number, unless there is another error to stop at; and
no declaration is repeated as it is, unless the list is well formed. -/
structure NumbersGiven (cfg : Config) (tokens : Tokens) (insts : Insts) : Prop where
  complete : ∀ last,
    enterAll cfg (newSt cfg) (declarations insts.cell.length (clausesOf tokens.cell)) = .ok (.ok, last) →
    leftOf tokens.cell = [] → ∀ clause ∈ clausesOf tokens.cell, clause.Complete
  aborted : ∀ fault,
    enterAll cfg (newSt cfg) (declarations insts.cell.length (clausesOf tokens.cell)) = .error fault →
    WellFormed tokens.cell

/-- Syntax errors are reported in exactly the lists where no number is missing. -/
theorem syntaxErrorsReported_iff (cfg : Config) (tokens : Tokens) (insts : Insts) :
    SyntaxErrorsReported cfg tokens insts ↔ NumbersGiven cfg tokens insts := by
  have cases_ := parse_cases cfg tokens insts (newSt cfg)
  rw [show insts.cell.length + (newSt cfg).numInst = insts.cell.length from rfl] at cases_
  constructor
  · intro reported
    constructor
    · intro last entered nothing
      rw [entered] at cases_
      simp only [nothing, if_true] at cases_
      obtain ⟨p, num, parsed, -⟩ := cases_
      -- A clause that lacks its number is accepted, so the list would not be reported.
      by_contra incomplete
      obtain ⟨p', failed⟩ := reported fun formed =>
        incomplete ((wellFormed_iff_complete _).mp formed).2
      rw [parsed] at failed
      cases failed
    · intro fault entered
      rw [entered] at cases_
      by_contra malformed
      obtain ⟨p, failed⟩ := reported malformed
      rw [show parse cfg tokens insts (some (newSt cfg)) = .error fault from cases_] at failed
      cases failed
  · intro given malformed
    split at cases_
    · next fault entered => exact absurd (given.aborted fault entered) malformed
    · exact cases_
    · next last entered =>
      split at cases_
      · next nothing =>
        exact absurd ((wellFormed_iff_complete _).mpr ⟨nothing, given.complete last entered nothing⟩) malformed
      · exact cases_

theorem call_without_number_accepted :
    let call : Token := { t := .call, pos := Pos.zero, uilit := 0, ident := Ident.ofString "" }
    let name : Token := { t := .ident, pos := Pos.zero, uilit := 0, ident := Ident.ofString "f" }
    ¬SyntaxErrorsReported .release { cell := [call, name], filename := none, cur := Pos.zero }
      (newInsts none) := by
  intro call name reported
  have malformed : ¬WellFormed [call, name] := by
    rw [wellFormed_iff_complete]
    rintro ⟨-, complete⟩
    exact complete (.call (Ident.ofString "f")) (by decide)
  obtain ⟨p, failed⟩ := reported malformed
  have accepted : (parse .release { cell := [call, name], filename := none, cur := Pos.zero }
      (newInsts none) (some (newSt .release))).map Prod.fst = .ok .ok := by
    rfl
  rw [failed] at accepted
  cases accepted

def Item.key : Item → Option SymKey
  | .label ident => some (mkKey ident .label)
  | .function ident _ => some (mkKey ident .func)
  | _ => none

def Item.nlocals : Item → UInt16
  | .function _ nlocals => nlocals
  | _ => 0

theorem Item.declares (item : Item) (addr : Nat) :
    (Clause.item item).declares addr =
      item.key.map fun key => (key, { instAddr := addr, nlocals := item.nlocals }) := by
  cases item <;> rfl

theorem Item.emits_iff_key (item : Item) : item.emits = true ↔ item.key = none := by
  rw [item.emits_iff 0, item.declares 0, Option.map_eq_none_iff]

theorem Item.key_typed {item : Item} {key : SymKey} (declared : item.key = some key) :
    key.type ≠ .unused := by
  cases item <;> cases declared <;> simp [mkKey]

theorem declarations_keys (addr : Nat) (items : List Item) :
    (declarations addr (items.map Clause.item)).map Prod.fst = items.filterMap Item.key := by
  induction items generalizing addr with
  | nil => rfl
  | cons item items ih =>
    rw [List.map_cons, declarations, item.declares]
    cases key : item.key <;> simp [key, ih]

theorem mem_declarations {addr : Nat} {before_ after : List Item} {item : Item} {key : SymKey}
    (declared : item.key = some key) :
    (key, { instAddr := addr + (before_.filter Item.emits).length, nlocals := item.nlocals }) ∈
      declarations addr ((before_ ++ item :: after).map Clause.item) := by
  induction before_ generalizing addr with
  | nil =>
    rw [List.nil_append, List.map_cons, declarations, item.declares, declared]
    exact List.mem_cons_self
  | cons first before_ ih =>
    rw [List.cons_append, List.map_cons, declarations, first.declares, List.filter_cons]
    cases other : first.key with
    | none =>
      rw [if_pos (first.emits_iff_key.mpr other), List.length_cons]
      have later := @ih (addr + 1)
      rwa [Nat.add_right_comm, Nat.add_assoc] at later
    | some entry =>
      rw [if_neg (by rw [first.emits_iff_key, other]; exact Option.some_ne_none entry)]
      exact List.mem_cons_of_mem _ ih

theorem enterAll_of_insertMany {cfg : Config} {st last : SymbolTable} {entries : List (SymKey × SymVal)}
    (inserted : insertMany cfg st entries = .ok (List.replicate entries.length .ok, last)) :
    enterAll cfg st entries = .ok (.ok, last) := by
  induction entries generalizing st with
  | nil =>
    cases inserted
    rfl
  | cons entry entries ih =>
    obtain ⟨key, val⟩ := entry
    simp only [insertMany] at inserted
    split at inserted
    · cases inserted
    · next res next first =>
      split at inserted
      · cases inserted
      · next results _ rest =>
        obtain ⟨same, rfl⟩ := Prod.mk.inj (Except.ok.inj inserted)
        obtain ⟨rfl, rfl⟩ := List.cons.inj same
        exact enterAll_cons.mpr ⟨next, first, ih rest⟩

/-- A program of distinct declarations is parsed into its instructions and its symbols. -/
theorem parse_translates (cfg : Config) (tokens : Tokens) (filename : Option String) (items : List Item)
    (spelled : tokens.cell.map Token.lexeme = items.flatMap Item.lexemes)
    (distinct : (items.filterMap Item.key).Nodup) :
    ∃ p st, parse cfg tokens (newInsts filename) (some (newSt cfg)) = .ok (.ok, p) ∧ p.st = some st ∧
      p.insts.cell.map Inst.item = (items.filter Item.emits).map some ∧
      (∀ before_ item after key, items = before_ ++ item :: after → item.key = some key →
        ∀ out, getSt st key out =
          .ok (.ok, { instAddr := (before_.filter Item.emits).length, nlocals := item.nlocals })) ∧
      (∀ key, key.type ≠ .unused → key ∉ items.filterMap Item.key →
        ∀ out, getSt st key out = .ok (.err, out)) := by
  have enough : (items.flatMap Item.lexemes).length ≤ tokens.cell.length := by
    rw [← spelled, List.length_map]
  have read := readClauses_items items tokens.cell.length enough
  rw [← spelled] at read
  have clauses : clausesOf tokens.cell = items.map Clause.item := congrArg Prod.fst read
  have nothing : leftOf tokens.cell = [] := congrArg Prod.snd read
  -- Distinct declarations are all entered, whatever their addresses.
  have typed : ∀ entry ∈ declarations 0 (items.map Clause.item), entry.1.type ≠ .unused := by
    intro entry member
    have key := List.mem_map_of_mem (f := Prod.fst) member
    rw [declarations_keys] at key
    obtain ⟨item, -, declared⟩ := List.mem_filterMap.mp key
    exact Item.key_typed declared
  obtain ⟨st, inserted, valid, unique, -, binds⟩ :=
    insertMany_distinct (newSt_valid cfg) (newSt_unique cfg) (declarations 0 (items.map Clause.item)) typed
      (by rwa [declarations_keys]) (fun entry _ v => newSt_binds cfg entry.1 v)
  have cases_ := parse_cases cfg tokens (newInsts filename) (newSt cfg)
  rw [clauses, show (newInsts filename).cell.length + (newSt cfg).numInst = 0 from rfl,
    enterAll_of_insertMany inserted] at cases_
  simp only [nothing, if_true] at cases_
  obtain ⟨p, num, parsed, table, emits⟩ := cases_
  refine ⟨p, _, parsed, table, ?_, ?_, ?_⟩
  · exact emits items rfl
  · rintro before_ item after key rfl declared out
    have member := @mem_declarations 0 before_ after item key declared
    rw [Nat.zero_add] at member
    exact getSt_of_binds valid unique ((binds _ _).mpr (.inr member)) out
  · intro key typed absent out
    refine getSt_of_not_binds valid typed (fun val bound => ?_) out
    rcases (binds key val).mp bound with old | member
    · exact newSt_binds cfg key val old
    · refine absent ?_
      rw [← declarations_keys 0]
      exact List.mem_map_of_mem member

theorem parse_translates_loop :
    let token (t : TokenCode) (uilit : UInt16) (name : String) : Token :=
      { t := t, pos := Pos.zero, uilit := uilit, ident := Ident.ofString name }
    let cell := [token .func 0 "", token .ident 0 "f", token .uint 2 "", token .label 0 "",
      token .ident 0 "top", token .push 0 "", token .loc 0 "", token .uint 1 "", token .goto 0 "",
      token .ident 0 "top"]
    let f := Ident.ofString "f"
    let top := Ident.ofString "top"
    let items : List Item := [.function f 2, .label top, .transfer .push .loc 1, .jump .goto top]
    ∃ p st, parse .unitTests { cell := cell, filename := none, cur := Pos.zero } (newInsts none)
        (some (newSt .unitTests)) = .ok (.ok, p) ∧ p.st = some st ∧
      p.insts.cell.map Inst.item = (items.filter Item.emits).map some ∧
      (∀ before_ item after key, items = before_ ++ item :: after → item.key = some key →
        ∀ out, getSt st key out =
          .ok (.ok, { instAddr := (before_.filter Item.emits).length, nlocals := item.nlocals })) ∧
      (∀ key, key.type ≠ .unused → key ∉ items.filterMap Item.key →
        ∀ out, getSt st key out = .ok (.err, out)) :=
  parse_translates .unitTests _ none _ (by decide) (by decide)

end Hvme
