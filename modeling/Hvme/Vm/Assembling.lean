import Hvme.Parser.Tableless
import Hvme.Vm.Lines

set_option autoImplicit false

namespace Hvme.Vm

open Execution

def operationCode : Operation → InstCode
  | .add => .add
  | .sub => .sub
  | .neg => .neg
  | .eq => .eq
  | .gt => .gt
  | .lt => .lt
  | .and => .and
  | .or => .or
  | .not => .not
  | .ret => .ret

def transferCode : Transfer → InstCode
  | .push => .push
  | .pop => .pop

def jumpCode : Jump → InstCode
  | .goto => .goto
  | .ifGoto => .ifGoto

def lineOf (pos : Pos) : Item → Line
  | .operation op => .executes { Inst.zero with code := operationCode op, pos := pos }
  | .transfer op seg offset =>
    .executes { Inst.zero with code := transferCode op, seg := seg, offset := offset, pos := pos }
  | .jump op target => .executes { Inst.zero with code := jumpCode op, ident := target, pos := pos }
  | .label ident => .declares (mkKey ident .label) 0
  | .function ident nlocals => .declares (mkKey ident .func) nlocals
  | .call ident nargs => .executes { Inst.zero with code := .call, ident := ident, nargs := nargs, pos := pos }

def startOf (filename : String) (tokens : List Token) : Pos :=
  { tokens.head?.elim Pos.zero Token.pos with filename := some filename }

def Clause.lexemes : Clause → List Lexeme
  | .item item => item.lexemes
  | .function ident => [.keyword .func, .name ident]
  | .call ident => [.keyword .call, .name ident]

def linesOf (cfg : Config) (filename : String) : Nat → List Clause → List Token → List Line
  | _, [], _ => []
  | idx, clause :: clauses, tokens =>
    lineOf (startOf filename tokens) (clause.filled (cfg.cellNargs idx)) ::
      linesOf cfg filename (if clause.emits then idx + 1 else idx) clauses (tokens.drop (Clause.lexemes clause).length)

def fileLines (cfg : Config) (filename : String) (tokens : List Token) : List Line :=
  linesOf cfg filename 0 (clausesOf tokens) tokens

theorem filled_emits (clause : Clause) (nargs : UInt16) : (clause.filled nargs).emits = clause.emits := by
  cases clause <;> rfl

theorem filled_declares (clause : Clause) (nargs : UInt16) (addr : Nat) :
    clause.declares addr = (Clause.item (clause.filled nargs)).declares addr := by
  cases clause <;> rfl

theorem readClause_lexemes {lexemes rest : List Lexeme} {clause : Clause}
    (read : readClause lexemes = some (clause, rest)) : lexemes = Clause.lexemes clause ++ rest := by
  unfold readClause at read
  split at read
  · next t tail =>
    split at read
    · next start started =>
      rw [(TokenCode.start_iff t start).mp started]
      cases Start.reads read <;> rfl
    · cases read
  · cases read

theorem lineOf_emits {item : Item} (emits : item.emits = true) (pos : Pos) :
    ∃ inst, lineOf pos item = .executes inst ∧ inst.item = some item ∧ inst.pos = pos := by
  cases item with
  | operation op => exact ⟨_, rfl, by cases op <;> rfl, rfl⟩
  | transfer op seg offset => exact ⟨_, rfl, by cases op <;> rfl, rfl⟩
  | jump op target => exact ⟨_, rfl, by cases op <;> rfl, rfl⟩
  | label ident => cases emits
  | function ident nlocals => cases emits
  | call ident nargs => exact ⟨_, rfl, rfl, rfl⟩

theorem lineOf_declares {item : Item} (silent : item.emits = false) (pos : Pos) :
    ∃ key nlocals, lineOf pos item = .declares key nlocals ∧ item.key = some key ∧ item.nlocals = nlocals := by
  cases item with
  | label ident => exact ⟨_, _, rfl, rfl, rfl⟩
  | function ident nlocals => exact ⟨_, _, rfl, rfl, rfl⟩
  | _ => cases silent

theorem linesOf_entries (cfg : Config) (filename : String) (idx : Nat) (clauses : List Clause) (tokens : List Token)
    (addr : Nat) : entriesOf addr (linesOf cfg filename idx clauses tokens) = declarations addr clauses := by
  induction clauses generalizing idx tokens addr with
  | nil => rfl
  | cons clause clauses ih =>
    rw [linesOf, declarations, filled_declares clause (cfg.cellNargs idx), Item.declares]
    have same := filled_emits clause (cfg.cellNargs idx)
    -- A clause is an instruction or a declaration, never both.
    cases emits : (clause.filled (cfg.cellNargs idx)).emits with
    | true =>
      obtain ⟨inst, line, -, -⟩ := lineOf_emits emits (startOf filename tokens)
      rw [line, (Item.emits_iff_key _).mp emits]
      exact ih _ _ (addr + 1)
    | false =>
      obtain ⟨key, nlocals, line, declared, rfl⟩ := lineOf_declares emits (startOf filename tokens)
      rw [line, declared]
      exact congrArg _ (ih _ _ addr)

theorem linesOf_keys (cfg : Config) (filename : String) (idx : Nat) (clauses : List Clause) (tokens : List Token) :
    (linesOf cfg filename idx clauses tokens).filterMap Line.key = (declarations 0 clauses).map Prod.fst := by
  rw [← linesOf_entries cfg filename idx clauses tokens, entriesOf_keys]

theorem executables_cons (line : Line) (lines : List Line) :
    executables (line :: lines) = line.inst.toList ++ executables lines := by
  cases line <;> rfl

theorem linesOf_insts (cfg : Config) (filename : String) {fuel idx : Nat} {clauses : List Clause} {tokens : List Token}
    (read : readClauses fuel (tokens.map Token.lexeme) = (clauses, [])) :
    (executables (linesOf cfg filename idx clauses tokens)).map Inst.item = (emittedFrom cfg idx clauses).map some ∧
      (executables (linesOf cfg filename idx clauses tokens)).map Inst.pos =
        (placesOf tokens).map fun pos => { pos with filename := some filename } := by
  induction fuel generalizing idx clauses tokens with
  | zero =>
    obtain ⟨rfl, nothing⟩ := Prod.mk.inj read
    rw [List.map_eq_nil_iff.mp nothing]
    exact ⟨rfl, rfl⟩
  | succ fuel ih =>
    rw [readClauses] at read
    split at read
    · obtain ⟨rfl, nothing⟩ := Prod.mk.inj read
      rw [List.map_eq_nil_iff.mp nothing]
      exact ⟨rfl, rfl⟩
    · next clause rest first =>
      obtain ⟨rfl, nothing⟩ := Prod.mk.inj read
      have spelled := readClause_lexemes first
      have left : (tokens.drop (Clause.lexemes clause).length).map Token.lexeme = rest := by
        rw [List.map_drop, spelled, List.drop_left]
      have later : readClauses fuel ((tokens.drop (Clause.lexemes clause).length).map Token.lexeme) =
          ((readClauses fuel rest).1, []) := by
        rw [left, ← nothing]
      obtain ⟨known, placed⟩ := @ih (if clause.emits then idx + 1 else idx) _ _ later
      -- The clause is where its first token is, so that there has to be one.
      cases tokens with
      | nil => cases first
      | cons it more =>
        rw [← left] at first
        rw [linesOf, executables_cons, emittedFrom, placesOf_read (List.drop_suffix _ _) first, List.map_append,
          List.map_append, List.map_append]
        rw [placed]
        have same := filled_emits clause (cfg.cellNargs idx)
        cases emits : clause.emits with
        | true =>
          obtain ⟨inst, line, item_eq, pos⟩ := lineOf_emits (same.trans emits) (startOf filename (it :: more))
          rw [emits, if_pos rfl] at known
          rw [line]
          simp only [Line.inst, Option.toList_some, List.map_singleton, item_eq, pos, if_true]
          exact ⟨congrArg _ known, rfl⟩
        | false =>
          obtain ⟨key, nlocals, line, -, -⟩ := lineOf_declares (same.trans emits) (startOf filename (it :: more))
          rw [line]
          rw [emits] at known
          exact ⟨known, by simp [Line.inst]⟩

theorem sameInsts {insts others : List Inst} {items : List Item} (known : insts.map Inst.item = items.map some)
    (known' : others.map Inst.item = items.map some) (places : insts.map Inst.pos = others.map Inst.pos) :
    List.Forall₂ SameInst insts others := by
  induction items generalizing insts others with
  | nil =>
    rw [List.map_nil, List.map_eq_nil_iff] at known known'
    subst known known'
    exact .nil
  | cons item items ih =>
    obtain ⟨inst, insts, rfl, item_eq, rest⟩ := List.map_eq_cons_iff.mp known
    obtain ⟨other, others, rfl, item_eq', rest'⟩ := List.map_eq_cons_iff.mp known'
    obtain ⟨pos, places⟩ := List.cons.inj places
    exact .cons ⟨(Inst.alike_iff item_eq).mpr item_eq', pos⟩ (ih rest rest' places)

theorem enterAll_distinct (cfg : Config) {clauses : List Clause}
    (distinct : ((declarations 0 clauses).map Prod.fst).Nodup) :
    ∃ st, enterAll cfg (newSt cfg) (declarations 0 clauses) = .ok (.ok, st) ∧ st.Valid cfg ∧
      st.UniqueKeys ∧ ∀ key val, st.Binds key val ↔ (key, val) ∈ declarations 0 clauses := by
  obtain ⟨st, inserted, valid, unique, -, binds⟩ :=
    insertMany_distinct (newSt_valid cfg) (newSt_unique cfg) (declarations 0 clauses) (declarations_typed 0 clauses)
      distinct (fun entry _ v => newSt_binds cfg entry.1 v)
  refine ⟨st, enterAll_of_insertMany inserted, valid, unique, fun key val => ?_⟩
  rw [binds]
  exact or_iff_right (newSt_binds cfg key val)

theorem Compiles.assembled {cfg : Config} {src : Source} {tokens : Tokens} {file : File}
    (compiled : Compiles cfg src tokens file)
    (distinct : ((fileLines cfg src.fn tokens.cell).filterMap Line.key).Nodup) :
    Assembled cfg (file.st, file.insts) (fileLines cfg src.fn tokens.cell) := by
  have bounded := compiled.bounded
  obtain ⟨p, parsed, table, insts⟩ := compiled.parsed
  obtain ⟨nothing, emitted, same, fills⟩ := parse_fills parsed
  obtain ⟨known, placed⟩ := @linesOf_insts cfg src.fn tokens.cell.length 0 (clausesOf tokens.cell) _ (Prod.ext rfl nothing)
  obtain ⟨st, entered, -, unique, binds⟩ := enterAll_distinct cfg (linesOf_keys cfg src.fn 0 _ _ ▸ distinct)
  have cases_ := parse_cases cfg tokens (newInsts (some src.fn)) (newSt cfg)
  rw [show (newInsts (some src.fn)).cell.length + (newSt cfg).numInst = 0 from rfl, entered] at cases_
  simp only [nothing, if_true] at cases_
  obtain ⟨q, num, parsed', table', -⟩ := cases_
  cases parsed'.symm.trans parsed
  have st_eq : file.st = { st with numInst := num } := Option.some.inj (table.symm.trans table')
  have cells : file.insts.cell = emitted := by
    rw [insts, same]
    rfl
  refine ⟨bounded.valid, ?_, distinct, ?_, ?_⟩
  · rw [st_eq]
    exact unique
  · intro key val
    rw [fileLines, linesOf_entries, ← binds, st_eq]
    rfl
  · rw [cells]
    refine sameInsts fills.items known ?_
    rw [fileLines, placed]
    exact fills.places

theorem parse_accepts {cfg : Config} {tokens : Tokens} (filename : Option String) (nothing : leftOf tokens.cell = [])
    (distinct : ((declarations 0 (clausesOf tokens.cell)).map Prod.fst).Nodup) :
    ∃ p st, parse cfg tokens (newInsts filename) (some (newSt cfg)) = .ok (.ok, p) ∧ p.st = some st := by
  obtain ⟨last, entered, -⟩ := enterAll_distinct cfg distinct
  have cases_ := parse_cases cfg tokens (newInsts filename) (newSt cfg)
  rw [show (newInsts filename).cell.length + (newSt cfg).numInst = 0 from rfl, entered] at cases_
  simp only [nothing, if_true] at cases_
  obtain ⟨p, num, parsed, table, -⟩ := cases_
  exact ⟨p, _, parsed, table⟩

theorem clausesOf_items {tokens : List Token} {items : List Item}
    (spelled : tokens.map Token.lexeme = items.flatMap Item.lexemes) :
    clausesOf tokens = items.map Clause.item ∧ leftOf tokens = [] := by
  have enough : (items.flatMap Item.lexemes).length ≤ tokens.length := by
    rw [← spelled, List.length_map]
  have read := readClauses_items items tokens.length enough
  rw [← spelled] at read
  exact ⟨congrArg Prod.fst read, congrArg Prod.snd read⟩

end Hvme.Vm
