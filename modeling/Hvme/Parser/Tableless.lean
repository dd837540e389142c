import Hvme.Parser.Language
import Hvme.Symbols.Reinserting

set_option autoImplicit false

namespace Hvme

def noStWarning (entry : SymKey × SymVal) : Warning :=
  .noSt (entry.1.type = .func) entry.1.ident entry.2.instAddr

structure Parser.Beside (p q : Parser) (st : SymbolTable) : Prop where
  its : p.its = q.its
  insts : p.insts = q.insts
  diags : p.diags = q.diags
  tableless : p.st = none
  table : q.st = some st

def DeclaresBeside (cfg : Config) (st : SymbolTable) (addr : Nat) (d : Except Fault Declared)
    (e : Except Fault Declared) : Option (Clause × List Lexeme) → Prop
  | none => ∃ d' e', d = .ok d' ∧ e = .ok e' ∧ d'.res = .err ∧ e'.res = .err ∧ d'.its = e'.its ∧
      d'.diags = e'.diags ∧ d'.warnings = [] ∧ e'.warnings = [] ∧ d'.st = none ∧ e'.st = some st
  | some (clause, rest) =>
    ∃ entry d', clause.declares addr = some entry ∧ d = .ok d' ∧ d'.res = .ok ∧ d'.its.Left rest ∧
      d'.warnings = [noStWarning entry] ∧ d'.st = none ∧
      match insertSt cfg st entry.1 entry.2 with
      | .error fault => e = .error fault
      | .ok (.exists_, _) => ∃ e', e = .ok e' ∧ e'.res = .err
      | .ok (.ok, next) => ∃ e', e = .ok e' ∧ e'.res = .ok ∧ d'.its = e'.its ∧ d'.diags = e'.diags ∧
          e'.warnings = [] ∧ e'.st = some next

section declarations

variable (cfg : Config) {its : TokenStream} {it : Token} {more : List Token} (st : SymbolTable)
  (addr : Nat) (filename : Option String)

theorem enterSym_beside (at_ : its.At more) {clause : Clause} {key : SymKey} {val : SymVal}
    (declares : clause.declares addr = some (key, val)) (pos : Pos) (diags : List Diag) :
    DeclaresBeside cfg st addr (enterSym cfg its none key val pos filename diags)
      (enterSym cfg its (some st) key val pos filename diags) (some (clause, more.map Token.lexeme)) := by
  refine ⟨(key, val), _, declares, rfl, rfl, ⟨more, at_, rfl⟩, rfl, rfl, ?_⟩
  simp only [enterSym]
  cases insertSt cfg st key val with
  | error fault => rfl
  | ok result =>
    obtain ⟨res, next⟩ := result
    cases res with
    | exists_ => exact ⟨_, rfl, rfl⟩
    | ok => exact ⟨_, rfl, rfl, rfl, rfl, rfl, rfl⟩

theorem functionInst_beside (at_ : its.At (it :: more)) :
    DeclaresBeside cfg st addr (functionInst cfg its none addr filename)
      (functionInst cfg its (some st) addr filename) (Start.function.read (more.map Token.lexeme)) := by
  obtain ⟨after, consumed, left⟩ := at_.next
  simp only [functionInst, consumed]
  rcases left.name_or with ⟨ident, more, identIt, last, spelled, name, consumed, rfl, left⟩ |
    ⟨other, unread⟩
  · simp only [name, if_true, consumed, spelled]
    rcases left.num_or with ⟨nlocals, more, nlocalsIt, last, spelled, number, consumed, rfl, left⟩ |
      ⟨other, unread⟩
    · simp only [number, if_true, consumed, spelled, Start.read]
      exact enterSym_beside cfg st addr filename left rfl _ _
    · rw [if_neg other, if_neg other, Start.read_function_bare unread]
      exact enterSym_beside cfg st addr filename left rfl _ _
  · rw [if_neg other, if_neg other, Start.read_unnamed (by simp) (by simp) unread]
    exact ⟨_, _, rfl, rfl, rfl, rfl, rfl, rfl, rfl, rfl, rfl, rfl⟩

end declarations

def StepsBeside (cfg : Config) (base : Nat) (p q : Parser) (st : SymbolTable)
    (left right : Except Fault (ParseResult × Parser)) : Option (Clause × List Lexeme) → Prop
  | none => ∃ p' q', left = .ok (.err, p') ∧ right = .ok (.err, q') ∧ p'.Beside q' st ∧
      p'.warnings = p.warnings ∧ q'.warnings = q.warnings
  | some (clause, rest) =>
    match clause.declares (p.insts.cell.length + base) with
    | none => ∃ p' q', left = .ok (.ok, p') ∧ right = .ok (.ok, q') ∧ p'.Beside q' st ∧ p'.its.Left rest ∧
        p'.insts.cell.length = p.insts.cell.length + 1 ∧ p'.warnings = p.warnings ∧ q'.warnings = q.warnings
    | some entry => ∃ p', left = .ok (.ok, p') ∧ p'.its.Left rest ∧ p'.insts = p.insts ∧ p'.st = none ∧
        p'.warnings = p.warnings ++ [noStWarning entry] ∧
        match insertSt cfg st entry.1 entry.2 with
        | .error fault => right = .error fault
        | .ok (.exists_, _) => ∃ q', right = .ok (.err, q')
        | .ok (.ok, next) => ∃ q', right = .ok (.ok, q') ∧ p'.Beside q' next ∧ q'.warnings = q.warnings

theorem declare_beside {cfg : Config} {base : Nat} {p q : Parser} {st : SymbolTable} (beside : p.Beside q st)
    {d e : Except Fault Declared} {read : Option (Clause × List Lexeme)}
    (declares : DeclaresBeside cfg st (p.insts.cell.length + base) d e read) :
    StepsBeside cfg base p q st (p.declare d) (q.declare e) read := by
  cases read with
  | none =>
    obtain ⟨d', e', rfl, rfl, failed, failed', its, diags, warnings, warnings', none_, some_⟩ := declares
    refine ⟨_, _, by rw [Parser.declare, failed], by rw [Parser.declare, failed'], ?_, ?_, ?_⟩
    · exact ⟨its, beside.insts, by rw [beside.diags, diags], none_, some_⟩
    · rw [warnings, List.append_nil]
    · rw [warnings', List.append_nil]
  | some read =>
    obtain ⟨clause, rest⟩ := read
    obtain ⟨entry, d', declares, rfl, ok, left, warnings, none_, entered⟩ := declares
    simp only [StepsBeside, declares]
    have passed : p.declare (.ok d') = .ok (.ok,
        { its := d'.its, insts := p.insts, st := d'.st, diags := p.diags ++ d'.diags,
          warnings := p.warnings ++ d'.warnings }) := by rw [Parser.declare, ok]
    refine ⟨_, passed, left, rfl, none_, by rw [warnings], ?_⟩
    -- Without a table nothing is inserted, so nothing can be refused there.
    cases inserted : insertSt cfg st entry.1 entry.2 with
    | error fault =>
      simp only [inserted] at entered
      simp only [entered, Parser.declare]
    | ok result =>
      obtain ⟨res, next⟩ := result
      simp only [inserted] at entered
      cases res with
      | exists_ =>
        obtain ⟨e', rfl, failed⟩ := entered
        exact ⟨_, by rw [Parser.declare, failed]⟩
      | ok =>
        obtain ⟨e', rfl, ok', its, diags, warnings', some_⟩ := entered
        have passed : q.declare (.ok e') = .ok (.ok,
            { its := e'.its, insts := q.insts, st := e'.st, diags := q.diags ++ e'.diags,
              warnings := q.warnings ++ e'.warnings }) := by rw [Parser.declare, ok']
        refine ⟨_, passed, ?_, by rw [warnings', List.append_nil]⟩
        exact ⟨its, beside.insts, by rw [beside.diags, diags], none_, some_⟩

theorem parseStep_label {cfg : Config} {filename : Option String} {base : Nat} {p : Parser}
    (tableless : p.st = none) {it : Token} {more : List Token} (at_ : p.its.At (it :: more))
    (label : it.t = .label) : parseStep cfg filename base p = .error .assertion := by
  unfold parseStep
  simp only [at_.lh, label, tableless, labelMeta, if_true]
  rfl

theorem parseStep_beside (cfg : Config) (filename : Option String) (base : Nat) {p q : Parser}
    {st : SymbolTable} (beside : p.Beside q st) {it : Token} {more : List Token}
    (at_ : p.its.At (it :: more)) (other : it.t ≠ .label) :
    StepsBeside cfg base p q st (parseStep cfg filename base p) (parseStep cfg filename base q)
      (readClause (it.lexeme :: more.map Token.lexeme)) := by
  rw [readClause_token]
  unfold parseStep
  simp only [← beside.its, ← beside.insts, beside.table, beside.tableless, at_.lh, isInstToken_iff]
  cases started : it.t.start with
  | none =>
    exact ⟨_, _, rfl, rfl, ⟨rfl, rfl, by rw [beside.diags], rfl, rfl⟩, rfl, rfl⟩
  | some start =>
    have t := (TokenCode.start_iff it.t start).mp started
    have label : start ≠ .label := by
      rintro rfl
      exact other t
    simp only [Option.isSome_some, Bool.not_true, Bool.false_eq_true, if_false, Option.bind_some]
    -- Only the parsers of declarations see the table, and the label is excluded.
    by_cases function : start = .function
    · subst function
      simp only [t, Start.token]
      have declares := functionInst_beside cfg st (p.insts.cell.length + base) filename at_
      exact declare_beside beside declares
    · have followed := parseFn_follows (p.insts.nextCell cfg) filename at_ started label function
      split
      · next same => exact absurd same other
      · next same =>
        rw [same] at started
        cases started
        exact absurd rfl function
      · generalize parseFn it.t p.its (p.insts.nextCell cfg) filename = parsed at followed ⊢
        cases read : start.read (more.map Token.lexeme) with
        | none =>
          rw [read] at followed
          have failed : parsed.res = .err := followed
          rw [failed]
          exact ⟨_, _, rfl, rfl, ⟨rfl, rfl, by rw [beside.diags], rfl, rfl⟩, rfl, rfl⟩
        | some result =>
          obtain ⟨clause, rest⟩ := result
          rw [read] at followed
          obtain ⟨succeeded, left, -⟩ := followed
          simp only [StepsBeside, Start.read_declares read label function, succeeded]
          refine ⟨_, _, rfl, rfl, ⟨rfl, rfl, by rw [beside.diags], rfl, rfl⟩, left, ?_, rfl, rfl⟩
          exact List.length_append

/-- A label is among what `parse` reads, or is what it stops at. -/
def Labelled (clauses : List Clause) (left : List Lexeme) : Prop :=
  (∃ ident, Clause.item (.label ident) ∈ clauses) ∨ left.head? = some (.keyword .label)

theorem not_labelled_nil : ¬Labelled [] [] := by
  simp [Labelled]

theorem labelled_cons {clause : Clause} {clauses : List Clause} {left : List Lexeme}
    (other : ∀ ident, clause ≠ .item (.label ident)) :
    Labelled (clause :: clauses) left ↔ Labelled clauses left := by
  refine or_congr_left (exists_congr fun ident => ?_)
  rw [List.mem_cons, or_iff_right fun same => other ident same.symm]

theorem Parser.beside_fresh (cfg : Config) {p : Parser} (tableless : p.st = none) :
    p.Beside { p with st := some (newSt cfg) } (newSt cfg) :=
  ⟨rfl, rfl, rfl, tableless, rfl⟩

theorem readClause_label {it : Token} {more : List Token} (other : it.t ≠ .label) {clause : Clause}
    {rest : List Lexeme} (read : readClause (it.lexeme :: more.map Token.lexeme) = some (clause, rest))
    (ident : Ident) : clause ≠ .item (.label ident) := by
  rintro rfl
  have spelled := readClause_some read
  exact other (Token.lexeme_keyword (List.cons.inj spelled).1)

theorem parseLoop_labelled (cfg : Config) (filename : Option String) (base : Nat) (fuel : Nat) {p : Parser}
    (tableless : p.st = none) {tokens : List Token} (at_ : p.its.At tokens) (enough : tokens.length ≤ fuel)
    (labelled : Labelled (readClauses fuel (tokens.map Token.lexeme)).1
      (readClauses fuel (tokens.map Token.lexeme)).2) :
    parseLoop cfg filename base fuel p = .error .assertion := by
  induction fuel generalizing p tokens with
  | zero =>
    obtain rfl : tokens = [] := List.length_eq_zero_iff.mp (by omega)
    exact absurd labelled not_labelled_nil
  | succ fuel ih =>
    cases tokens with
    | nil =>
      rw [List.map_nil, readClauses_nil] at labelled
      exact absurd labelled not_labelled_nil
    | cons it more =>
      rw [parseLoop_cons at_]
      -- Either the label is here, or it comes behind the clause that is read here.
      by_cases label : it.t = .label
      · rw [parseStep_label tableless at_ label]
      · have stepped := parseStep_beside cfg filename base (Parser.beside_fresh cfg tableless) at_ label
        rw [List.map_cons, readClauses] at labelled
        cases read : readClause (it.lexeme :: more.map Token.lexeme) with
        | none =>
          simp only [read, Labelled, List.not_mem_nil, exists_false, false_or, List.head?_cons,
            Option.some.injEq] at labelled
          exact absurd (Token.lexeme_keyword labelled) label
        | some result =>
          obtain ⟨clause, rest⟩ := result
          rw [List.length_cons] at enough
          rw [read] at labelled stepped
          have later := (labelled_cons (readClause_label label read)).mp labelled
          unfold StepsBeside at stepped
          cases declares : clause.declares (p.insts.cell.length + base) with
          | none =>
            simp only [declares] at stepped
            obtain ⟨p', q', step, -, beside, left, -⟩ := stepped
            obtain ⟨tokens, at', rfl, shorter⟩ := left.later read
            simp only [step]
            exact ih beside.tableless at' (by omega) later
          | some entry =>
            simp only [declares] at stepped
            obtain ⟨p', step, left, -, tableless', -⟩ := stepped
            obtain ⟨tokens, at', rfl, shorter⟩ := left.later read
            simp only [step]
            exact ih tableless' at' (by omega) later

theorem labelled_of_start {it : Token} (more : List Token) (label : it.t = .label) (fuel : Nat) :
    Labelled (readClauses (fuel + 1) (it.lexeme :: more.map Token.lexeme)).1
      (readClauses (fuel + 1) (it.lexeme :: more.map Token.lexeme)).2 := by
  have keyword : it.lexeme = .keyword .label := by
    rw [Token.lexeme_of_keyword (by rw [label]; decide) (by rw [label]; decide), label]
  rw [readClauses, readClause_token, label]
  simp only [TokenCode.start, Option.bind_some]
  cases read : Start.label.read (more.map Token.lexeme) with
  | none => exact .inr (by rw [keyword]; rfl)
  | some result =>
    refine .inl ?_
    cases spelled : more.map Token.lexeme with
    | nil =>
      rw [spelled] at read
      cases read
    | cons first rest =>
      rw [spelled] at read
      cases first <;> cases read
      exact ⟨_, List.mem_cons_self⟩

def resultOf (left : List Lexeme) : ParseResult := if left = [] then .ok else .err

theorem parseLoop_beside (cfg : Config) (filename : Option String) (base : Nat) (fuel : Nat) {p q : Parser}
    {st last : SymbolTable} (beside : p.Beside q st) {tokens : List Token} (at_ : p.its.At tokens)
    (enough : tokens.length ≤ fuel)
    (unlabelled : ¬Labelled (readClauses fuel (tokens.map Token.lexeme)).1
      (readClauses fuel (tokens.map Token.lexeme)).2)
    (entered : enterAll cfg st (declarations (p.insts.cell.length + base)
      (readClauses fuel (tokens.map Token.lexeme)).1) = .ok (.ok, last)) :
    ∃ p' q',
      parseLoop cfg filename base fuel p = .ok (resultOf (readClauses fuel (tokens.map Token.lexeme)).2, p') ∧
      parseLoop cfg filename base fuel q = .ok (resultOf (readClauses fuel (tokens.map Token.lexeme)).2, q') ∧
      p'.Beside q' last ∧ q'.warnings = q.warnings ∧
      p'.warnings = p.warnings ++ (declarations (p.insts.cell.length + base)
        (readClauses fuel (tokens.map Token.lexeme)).1).map noStWarning := by
  induction fuel generalizing p q st tokens with
  | zero =>
    obtain rfl : tokens = [] := List.length_eq_zero_iff.mp (by omega)
    cases entered
    exact ⟨p, q, rfl, rfl, beside, rfl, (List.append_nil _).symm⟩
  | succ fuel ih =>
    have at_q : q.its.At tokens := beside.its ▸ at_
    cases tokens with
    | nil =>
      rw [List.map_nil, readClauses_nil] at entered ⊢
      cases entered
      exact ⟨p, q, parseLoop_nil at_ _, parseLoop_nil at_q _, beside, rfl, (List.append_nil _).symm⟩
    | cons it more =>
      rw [parseLoop_cons at_, parseLoop_cons at_q]
      have label : it.t ≠ .label := fun label => unlabelled (labelled_of_start more label fuel)
      rw [List.map_cons, readClauses] at unlabelled entered ⊢
      have stepped := parseStep_beside cfg filename base beside at_ label
      cases read : readClause (it.lexeme :: more.map Token.lexeme) with
      | none =>
        rw [read] at stepped
        obtain ⟨p', q', step, step', beside', warnings, warnings'⟩ := stepped
        simp only [read] at entered
        cases entered
        have failed : resultOf (it.lexeme :: more.map Token.lexeme) = .err := if_neg (List.cons_ne_nil _ _)
        simp only [step, step', failed]
        refine ⟨p', q', rfl, rfl, beside', warnings', ?_⟩
        rw [warnings]
        exact (List.append_nil _).symm
      | some result =>
        obtain ⟨clause, rest⟩ := result
        rw [List.length_cons] at enough
        simp only [read] at unlabelled entered ⊢
        rw [labelled_cons (readClause_label label read)] at unlabelled
        rw [read] at stepped
        unfold StepsBeside at stepped
        cases declares : clause.declares (p.insts.cell.length + base) with
        | none =>
          simp only [declares] at stepped
          obtain ⟨p', q', step, step', beside', left, count, warnings, warnings'⟩ := stepped
          obtain ⟨tokens, at', rfl, shorter⟩ := left.later read
          have addr : p'.insts.cell.length + base = p.insts.cell.length + base + 1 := by omega
          simp only [declarations, declares, ← addr] at entered ⊢
          obtain ⟨p'', q'', run, run', beside'', same', same⟩ := ih beside' at' (by omega) unlabelled entered
          exact ⟨p'', q'', by simp only [step, run], by simp only [step', run'], beside'',
            same'.trans warnings', by rw [same, warnings]⟩
        | some entry =>
          obtain ⟨key, val⟩ := entry
          simp only [declares] at stepped
          obtain ⟨p', step, left, insts, tableless', warnings, entered'⟩ := stepped
          obtain ⟨tokens, at', rfl, shorter⟩ := left.later read
          simp only [declarations, declares] at entered ⊢
          obtain ⟨next, inserted, entered⟩ := enterAll_cons.mp entered
          simp only [inserted] at entered'
          obtain ⟨q', step', beside', warnings'⟩ := entered'
          -- A declaration emits nothing, so the addresses that follow are as they were.
          rw [← insts] at entered ⊢
          obtain ⟨p'', q'', run, run', beside'', same', same⟩ := ih beside' at' (by omega) unlabelled entered
          refine ⟨p'', q'', by simp only [step, run], by simp only [step', run'], beside'',
            same'.trans warnings', ?_⟩
          rw [same, warnings, List.map_cons, List.append_assoc]
          rfl

theorem declares_typed {clause : Clause} {addr : Nat} {key : SymKey} {val : SymVal}
    (declares : clause.declares addr = some (key, val)) : key.type ≠ .unused := by
  unfold Clause.declares at declares
  split at declares <;> cases declares <;> simp [mkKey]

theorem declarations_typed (addr : Nat) (clauses : List Clause) :
    ∀ entry ∈ declarations addr clauses, entry.1.type ≠ .unused := by
  induction clauses generalizing addr with
  | nil => simp [declarations]
  | cons clause clauses ih =>
    rw [declarations]
    split
    · exact ih _
    · next entry declares =>
      exact List.forall_mem_cons.mpr ⟨declares_typed declares, ih _⟩

/-- Probing finds a declaration that an earlier one has entered with the same value. -/
def RepeatsFound (cfg : Config) (st : SymbolTable) (entries : List (SymKey × SymVal)) : Prop :=
  ∃ front key val back mid, entries = front ++ (key, val) :: back ∧
    enterAll cfg st front = .ok (.ok, mid) ∧ mid.Finds cfg key val

theorem insertSt_error {cfg : Config} {st : SymbolTable} (valid : st.Valid cfg) {key : SymKey}
    {val : SymVal} {fault : Fault} (failed : insertSt cfg st key val = .error fault) :
    fault = .assertion := by
  obtain ⟨idx, sym, -, -, -, result⟩ := insertSt_spec valid key val
  rw [failed] at result
  split at result
  · cases result
  · split at result <;> cases result
    rfl

theorem enterAll_error_iff {cfg : Config} {st : SymbolTable} (valid : st.Valid cfg)
    {entries : List (SymKey × SymVal)} (typed : ∀ entry ∈ entries, entry.1.type ≠ .unused) :
    (∃ fault, enterAll cfg st entries = .error fault) ↔ RepeatsFound cfg st entries := by
  induction entries generalizing st with
  | nil => simp [enterAll, RepeatsFound]
  | cons entry entries ih =>
    obtain ⟨key, val⟩ := entry
    have key_typed : key.type ≠ .unused := typed (key, val) List.mem_cons_self
    have rest_typed : ∀ entry ∈ entries, entry.1.type ≠ .unused :=
      fun other member => typed other (List.mem_cons_of_mem _ member)
    -- Whether the first one aborts is known; behind it the induction hypothesis applies to the next table.
    have found_iff := insertSt_assertion_iff valid key_typed val
    constructor
    · rintro ⟨fault, failed⟩
      rw [enterAll] at failed
      cases inserted : insertSt cfg st key val with
      | error fault' =>
        obtain rfl := insertSt_error valid inserted
        exact ⟨[], key, val, entries, st, rfl, rfl, found_iff.mp inserted⟩
      | ok result =>
        obtain ⟨_ | _, next⟩ := result
        · rw [inserted] at failed
          cases failed
        · rw [inserted] at failed
          obtain ⟨front, k, v, back, mid, rfl, entered, found⟩ :=
            (ih (insertSt_valid valid inserted) rest_typed).mp ⟨fault, failed⟩
          exact ⟨(key, val) :: front, k, v, back, mid, rfl, enterAll_cons.mpr ⟨next, inserted, entered⟩, found⟩
    · rintro ⟨_ | ⟨first, front⟩, k, v, back, mid, split_, entered, found⟩
      · cases split_
        cases entered
        exact ⟨.assertion, by rw [enterAll, found_iff.mpr found]⟩
      · cases split_
        obtain ⟨next, inserted, later⟩ := enterAll_cons.mp entered
        obtain ⟨fault, failed⟩ := (ih (insertSt_valid valid inserted) rest_typed).mpr
          ⟨front, k, v, back, mid, rfl, later, found⟩
        exact ⟨fault, by simp only [enterAll, inserted, failed]⟩

/-- Without a table `parse` returns as it does with a fresh one and emits the same instructions; all
that differs are the warnings, one for each declaration. -/
def AgreesTableless (cfg : Config) (tokens : Tokens) (insts : Insts) : Prop :=
  ∃ res p q, parse cfg tokens insts none = .ok (res, p) ∧
    parse cfg tokens insts (some (newSt cfg)) = .ok (res, q) ∧
    p.insts = q.insts ∧ p.diags = q.diags ∧ p.st = none ∧ q.warnings = [] ∧
    p.warnings = (declarations insts.cell.length (clausesOf tokens.cell)).map noStWarning

/-- If no declaration conflicts, parsing without a table agrees with parsing with a fresh one
exactly if there are no labels and no declaration is repeated where it is found. -/
theorem agreesTableless_iff (cfg : Config) (tokens : Tokens) (insts : Insts)
    (compatible : ∀ st, enterAll cfg (newSt cfg)
      (declarations insts.cell.length (clausesOf tokens.cell)) ≠ .ok (.exists_, st)) :
    AgreesTableless cfg tokens insts ↔
      ¬Labelled (clausesOf tokens.cell) (leftOf tokens.cell) ∧
        ¬RepeatsFound cfg (newSt cfg) (declarations insts.cell.length (clausesOf tokens.cell)) := by
  -- Without conflicts, entering the declarations either aborts or succeeds as a whole.
  have aborts_iff := enterAll_error_iff (newSt_valid cfg)
    (declarations_typed insts.cell.length (clausesOf tokens.cell))
  constructor
  · rintro ⟨res, p, q, tableless, fresh, -⟩
    constructor
    · intro labelled
      have failed := parseLoop_labelled cfg tokens.filename 0 tokens.cell.length rfl
        (Parser.start_at tokens insts none) le_rfl labelled
      rw [parse_loop, Option.elim_none, failed] at tableless
      cases tableless
    · intro found
      obtain ⟨fault, failed⟩ := aborts_iff.mpr found
      have cases_ := parse_cases cfg tokens insts (newSt cfg)
      rw [show insts.cell.length + (newSt cfg).numInst = insts.cell.length from rfl, failed, fresh] at cases_
      cases cases_
  · rintro ⟨unlabelled, absent⟩
    obtain ⟨last, entered⟩ : ∃ last, enterAll cfg (newSt cfg)
        (declarations insts.cell.length (clausesOf tokens.cell)) = .ok (.ok, last) := by
      cases all : enterAll cfg (newSt cfg) (declarations insts.cell.length (clausesOf tokens.cell)) with
      | error fault => exact absurd (aborts_iff.mp ⟨fault, all⟩) absent
      | ok result =>
        obtain ⟨_ | _, last⟩ := result
        · exact absurd all (compatible last)
        · exact ⟨last, rfl⟩
    obtain ⟨p, q, run, run', beside, silent, warnings⟩ := parseLoop_beside cfg tokens.filename 0
      tokens.cell.length (Parser.beside_fresh cfg rfl) (Parser.start_at tokens insts none) le_rfl unlabelled
      entered
    have run'' : parseLoop cfg tokens.filename (newSt cfg).numInst tokens.cell.length
        (Parser.start tokens insts (some (newSt cfg))) = .ok (resultOf (leftOf tokens.cell), q) := run'
    rw [AgreesTableless, parse_loop, parse_loop, Option.elim_none, Option.elim_some, run, run'']
    rw [show (readClauses tokens.cell.length (tokens.cell.map Token.lexeme)).2 = leftOf tokens.cell from rfl]
    cases resultOf (leftOf tokens.cell) with
    | ok =>
      have tableless : p.finish.st = none := by rw [Parser.finish, beside.tableless, Option.map_none]
      exact ⟨.ok, p.finish, q.finish, rfl, rfl, beside.insts, beside.diags, tableless, silent, warnings⟩
    | err =>
      exact ⟨.err, p, q, rfl, rfl, beside.insts, beside.diags, beside.tableless, silent, warnings⟩

theorem agreesTableless_function :
    let token (t : TokenCode) (uilit : UInt16) (name : String) : Token :=
      { t := t, pos := Pos.zero, uilit := uilit, ident := Ident.ofString name }
    let tokens : Tokens :=
      { cell := [token .func 0 "", token .ident 0 "f", token .uint 2 "", token .push 0 "", token .loc 0 "",
          token .uint 1 "", token .ret 0 ""], filename := none, cur := Pos.zero }
    AgreesTableless .unitTests tokens (newInsts none) := by
  intro token tokens
  have entered : (enterAll .unitTests (newSt .unitTests) (declarations 0 (clausesOf tokens.cell))).map Prod.fst =
      .ok .ok := by
    decide +kernel
  have unlabelled : clausesOf tokens.cell =
      [.item (.function (Ident.ofString "f") 2), .item (.transfer .push .loc 1), .item (.operation .ret)] := by
    decide
  refine (agreesTableless_iff .unitTests tokens (newInsts none) ?_).mpr ⟨?_, fun found => ?_⟩
  · intro st refused
    rw [show (newInsts none).cell.length = 0 from rfl] at refused
    rw [refused] at entered
    cases entered
  · rintro (⟨ident, member⟩ | first)
    · simp [unlabelled] at member
    · exact absurd first (by decide)
  · obtain ⟨fault, failed⟩ := (enterAll_error_iff (newSt_valid .unitTests) (declarations_typed 0 _)).mpr found
    rw [failed] at entered
    cases entered

theorem label_without_table :
    let token (t : TokenCode) : Token := { t := t, pos := Pos.zero, uilit := 0, ident := Ident.ofString "a" }
    let tokens : Tokens := { cell := [token .label, token .ident], filename := none, cur := Pos.zero }
    (∀ st, enterAll .unitTests (newSt .unitTests) (declarations 0 (clausesOf tokens.cell)) ≠ .ok (.exists_, st)) ∧
      parse .unitTests tokens (newInsts none) none = .error .assertion ∧
      ¬AgreesTableless .unitTests tokens (newInsts none) := by
  intro token tokens
  refine ⟨?_, rfl, ?_⟩
  · have entered : (enterAll .unitTests (newSt .unitTests)
        (declarations 0 (clausesOf tokens.cell))).map Prod.fst = .ok .ok := by
      decide +kernel
    intro st refused
    rw [refused] at entered
    cases entered
  · rintro ⟨res, p, q, tableless, -⟩
    cases tableless

end Hvme
