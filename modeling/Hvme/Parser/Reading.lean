import Hvme.Parser.Grammar
import Hvme.Symbols.Table

set_option autoImplicit false

namespace Hvme

structure TokenStream.At (its : TokenStream) (tokens : List Token) : Prop where
  whole : its.len = its.tokens.length
  rest : its.tokens.drop its.idx = tokens

section stream

variable {its : TokenStream} {it : Token} {more : List Token}

theorem TokenStream.At.lt_iff {tokens : List Token} (at_ : its.At tokens) :
    its.idx < its.len ↔ tokens ≠ [] := by
  rw [at_.whole, ← at_.rest, ne_eq, List.drop_eq_nil_iff]
  omega

theorem TokenStream.At.lh (at_ : its.At (it :: more)) : itsLh its = it := by
  have inside := at_.lt_iff.mpr (List.cons_ne_nil _ _)
  have here : its.tokens[its.idx]? = some it := by
    rw [← List.head?_drop, at_.rest]
    rfl
  simp [itsLh, inside, List.getD_eq_getElem?_getD, here]

theorem TokenStream.At.lh_nil (at_ : its.At []) : itsLh its = noneToken := by
  have outside : ¬its.idx < its.len := fun inside => at_.lt_iff.mp inside rfl
  simp [itsLh, outside]

theorem TokenStream.At.next (at_ : its.At (it :: more)) :
    ∃ after, itsNext its = (it, after) ∧ after.At more := by
  have inside := at_.lt_iff.mpr (List.cons_ne_nil _ _)
  refine ⟨{ its with idx := its.idx + 1 }, ?_, at_.whole, ?_⟩
  · simp [itsNext, at_.lh, inside]
  · rw [← List.drop_drop, at_.rest]
    rfl

theorem TokenStream.At.lh_or {tokens : List Token} (at_ : its.At tokens) :
    (tokens = [] ∧ (itsLh its).t = .none) ∨
      ∃ it more after, tokens = it :: more ∧ itsLh its = it ∧ itsNext its = (it, after) ∧ after.At more := by
  cases tokens with
  | nil => exact .inl ⟨rfl, by rw [at_.lh_nil]; rfl⟩
  | cons it more =>
    obtain ⟨after, consumed, left⟩ := at_.next
    exact .inr ⟨it, more, after, rfl, at_.lh, consumed, left⟩

theorem TokenStream.At.name_or {tokens : List Token} (at_ : its.At tokens) :
    (∃ ident more it after, tokens.map Token.lexeme = .name ident :: more.map Token.lexeme ∧
      (itsLh its).t = .ident ∧ itsNext its = (it, after) ∧ it.ident = ident ∧ after.At more) ∨
    (itsLh its).t ≠ .ident ∧ ∀ ident rest, tokens.map Token.lexeme ≠ .name ident :: rest := by
  rcases at_.lh_or with ⟨rfl, none_⟩ | ⟨it, more, after, rfl, seen, consumed, left⟩
  · exact .inr ⟨by rw [none_]; decide, by simp⟩
  · by_cases t : it.t = .ident
    · refine .inl ⟨it.ident, more, it, after, ?_, by rw [seen, t], consumed, rfl, left⟩
      rw [List.map_cons, Token.lexeme_of_ident t]
    · refine .inr ⟨by rwa [seen], fun ident rest same => t ?_⟩
      exact ((Token.lexeme_name_iff it ident).mp (List.cons.inj same).1).1

theorem TokenStream.At.num_or {tokens : List Token} (at_ : its.At tokens) :
    (∃ value more it after, tokens.map Token.lexeme = .num value :: more.map Token.lexeme ∧
      (itsLh its).t = .uint ∧ itsNext its = (it, after) ∧ it.uilit = value ∧ after.At more) ∨
    (itsLh its).t ≠ .uint ∧ ∀ value rest, tokens.map Token.lexeme ≠ .num value :: rest := by
  rcases at_.lh_or with ⟨rfl, none_⟩ | ⟨it, more, after, rfl, seen, consumed, left⟩
  · exact .inr ⟨by rw [none_]; decide, by simp⟩
  · by_cases t : it.t = .uint
    · refine .inl ⟨it.uilit, more, it, after, ?_, by rw [seen, t], consumed, rfl, left⟩
      rw [List.map_cons, Token.lexeme_of_uint t]
    · refine .inr ⟨by rwa [seen], fun value rest same => t ?_⟩
      exact ((Token.lexeme_num_iff it value).mp (List.cons.inj same).1).1

theorem TokenStream.At.segment_or {tokens : List Token} (at_ : its.At tokens) :
    (∃ t seg more it after, tokens.map Token.lexeme = .keyword t :: more.map Token.lexeme ∧
      t.segment = some seg ∧ (itsLh its).t = t ∧ itsNext its = (it, after) ∧ it.t = t ∧ after.At more) ∨
    (itsLh its).t.segment = none ∧
      ∀ t rest, tokens.map Token.lexeme = .keyword t :: rest → t.segment = none := by
  rcases at_.lh_or with ⟨rfl, none_⟩ | ⟨it, more, after, rfl, seen, consumed, left⟩
  · exact .inr ⟨by rw [none_]; rfl, by simp⟩
  · cases known : it.t.segment with
    | none =>
      refine .inr ⟨by rw [seen, known], fun t rest same => ?_⟩
      rw [← (Token.lexeme_keyword (List.cons.inj same).1), known]
    | some seg =>
      refine .inl ⟨it.t, seg, more, it, after, ?_, known, by rw [seen], consumed, rfl, left⟩
      have t := (TokenCode.segment_iff _ _).mp known
      rw [List.map_cons, Token.lexeme_of_keyword] <;> rw [t] <;> cases seg <;> decide

end stream

def Inst.item (inst : Inst) : Option Item :=
  match inst.code with
  | .none => none
  | .push => some (.transfer .push inst.seg inst.offset)
  | .pop => some (.transfer .pop inst.seg inst.offset)
  | .add => some (.operation .add)
  | .sub => some (.operation .sub)
  | .neg => some (.operation .neg)
  | .and => some (.operation .and)
  | .or => some (.operation .or)
  | .not => some (.operation .not)
  | .eq => some (.operation .eq)
  | .gt => some (.operation .gt)
  | .lt => some (.operation .lt)
  | .goto => some (.jump .goto inst.ident)
  | .ifGoto => some (.jump .ifGoto inst.ident)
  | .call => some (.call inst.ident inst.nargs)
  | .ret => some (.operation .ret)
  | .builtinPrintChar | .builtinPrintNum | .builtinPrintStr => none
  | .builtinReadChar | .builtinReadNum | .builtinReadStr => none

theorem segment_none_iff (t : TokenCode) :
    t.segment = none ↔ ¬(TokenCode.arg.val ≤ t.val ∧ t.val ≤ TokenCode.tmp.val) := by
  cases t <;> decide

theorem Segment.ofToken_eq {t : TokenCode} {seg : Segment} (known : t.segment = some seg) :
    Segment.ofToken t = seg := by
  rw [(TokenCode.segment_iff t seg).mp known]
  cases seg <;> rfl

theorem isInstToken_iff (t : TokenCode) : isInstToken t = t.start.isSome := by
  cases t <;> rfl

def TokenStream.Left (its : TokenStream) (rest : List Lexeme) : Prop :=
  ∃ tokens, its.At tokens ∧ tokens.map Token.lexeme = rest

def Parsed.Follows (parsed : Parsed) : Option (Clause × List Lexeme) → Prop
  | none => parsed.res = .err
  | some (clause, rest) =>
    parsed.res = .ok ∧ parsed.its.Left rest ∧
      ∀ item, clause = .item item → parsed.inst.item = some item

section parsers

variable {its : TokenStream} {it : Token} {more : List Token} (inst : Inst) (filename : Option String)

theorem mapInst_follows (at_ : its.At (it :: more)) {op : Operation} (t : it.t = op.token) :
    (mapInst its inst).Follows ((Start.operation op).read (more.map Token.lexeme)) := by
  obtain ⟨after, consumed, left⟩ := at_.next
  simp only [mapInst, consumed, t, Start.read]
  refine ⟨rfl, ⟨more, left, rfl⟩, ?_⟩
  rintro item ⟨⟩
  cases op <;> rfl

theorem memoryInst_follows (at_ : its.At (it :: more)) {op : Transfer} (t : it.t = op.token) :
    (memoryInst its inst filename).Follows ((Start.transfer op).read (more.map Token.lexeme)) := by
  obtain ⟨after, consumed, left⟩ := at_.next
  simp only [memoryInst, consumed, t]
  rcases left.segment_or with ⟨code, seg, more, segIt, afterSeg, spelled, known, seen, consumed, same, left⟩ |
    ⟨other, unread⟩
  · have range := mt (segment_none_iff code).mpr (by simp [known])
    rw [not_not] at range
    rw [seen, if_pos range, spelled]
    simp only [consumed, same, Segment.ofToken_eq known]
    rcases left.num_or with ⟨offset, more, offsetIt, last, spelled, number, consumed, rfl, left⟩ |
      ⟨other, unread⟩
    · simp only [number, if_true, consumed, spelled, Start.read, known, Option.map_some]
      refine ⟨rfl, ⟨more, left, rfl⟩, ?_⟩
      rintro item ⟨⟩
      cases op <;> rfl
    · rw [if_neg other, Start.read_transfer_none]
      · rfl
      · intro t offset rest same
        exact absurd (List.cons.inj same).2 (unread offset rest)
  · rw [if_neg ((segment_none_iff _).mp other), Start.read_transfer_none]
    · rfl
    · exact fun t offset rest same => unread t _ same

theorem gotoInst_follows (at_ : its.At (it :: more)) {op : Jump} (t : it.t = op.token) :
    (gotoInst its inst filename).Follows ((Start.jump op).read (more.map Token.lexeme)) := by
  obtain ⟨after, consumed, left⟩ := at_.next
  simp only [gotoInst, consumed, t]
  rcases left.name_or with ⟨target, more, identIt, last, spelled, name, consumed, rfl, left⟩ |
    ⟨other, unread⟩
  · simp only [name, if_true, consumed, spelled, Start.read]
    refine ⟨rfl, ⟨more, left, rfl⟩, ?_⟩
    rintro item ⟨⟩
    cases op <;> rfl
  · rw [if_neg other, Start.read_unnamed (by simp) (by simp) unread]
    rfl

theorem callInst_follows (at_ : its.At (it :: more)) (t : it.t = .call) :
    (callInst its inst filename).Follows (Start.call.read (more.map Token.lexeme)) := by
  obtain ⟨after, consumed, left⟩ := at_.next
  simp only [callInst, consumed, t]
  rcases left.name_or with ⟨target, more, identIt, last, spelled, name, consumed, rfl, left⟩ |
    ⟨other, unread⟩
  · simp only [name, if_true, consumed, spelled]
    rcases left.num_or with ⟨nargs, more, nargsIt, last, spelled, number, consumed, rfl, left⟩ |
      ⟨other, unread⟩
    · simp only [number, if_true, consumed, spelled, Start.read]
      refine ⟨rfl, ⟨more, left, rfl⟩, ?_⟩
      rintro item ⟨⟩
      rfl
    · -- The number is missing: the error is printed, but the item counts as parsed.
      rw [if_neg other, Start.read_call_bare unread]
      exact ⟨rfl, ⟨more, left, rfl⟩, fun item same => by cases same⟩
  · rw [if_neg other, Start.read_unnamed (by simp) (by simp) unread]
    rfl

theorem parseFn_follows (at_ : its.At (it :: more)) {start : Start} (started : it.t.start = some start)
    (label : start ≠ .label) (function : start ≠ .function) :
    (parseFn it.t its inst filename).Follows (start.read (more.map Token.lexeme)) := by
  have t := (TokenCode.start_iff it.t start).mp started
  -- The entry of the table that the token selects.
  cases start with
  | operation op =>
    have parser : parseFn it.t its inst filename = mapInst its inst := by
      rw [t]; cases op <;> rfl
    rw [parser]
    exact mapInst_follows inst at_ t
  | transfer op =>
    have parser : parseFn it.t its inst filename = memoryInst its inst filename := by
      rw [t]; cases op <;> rfl
    rw [parser]
    exact memoryInst_follows inst filename at_ t
  | jump op =>
    have parser : parseFn it.t its inst filename = gotoInst its inst filename := by
      rw [t]; cases op <;> rfl
    rw [parser]
    exact gotoInst_follows inst filename at_ t
  | label => exact absurd rfl label
  | function => exact absurd rfl function
  | call =>
    have parser : parseFn it.t its inst filename = callInst its inst filename := by
      rw [t]; rfl
    rw [parser]
    exact callInst_follows inst filename at_ t

end parsers

def Clause.declares (addr : Nat) : Clause → Option (SymKey × SymVal)
  | .item (.label ident) => some (mkKey ident .label, mkLbval addr)
  | .item (.function ident nlocals) => some (mkKey ident .func, mkFnval addr nlocals)
  | .function ident => some (mkKey ident .func, mkFnval addr 0)
  | _ => none

def Enters (cfg : Config) (st : SymbolTable) (key : SymKey) (val : SymVal) (rest : List Lexeme)
    (entered : Except Fault Declared) : Prop :=
  match insertSt cfg st key val with
  | .error fault => entered = .error fault
  | .ok (.exists_, _) => ∃ d, entered = .ok d ∧ d.res = .err
  | .ok (.ok, next) => ∃ d, entered = .ok d ∧ d.res = .ok ∧ d.st = some next ∧ d.its.Left rest

def DeclaredFollows (cfg : Config) (st : SymbolTable) (addr : Nat) (entered : Except Fault Declared) :
    Option (Clause × List Lexeme) → Prop
  | none => ∃ d, entered = .ok d ∧ d.res = .err
  | some (clause, rest) =>
    ∃ key val, clause.declares addr = some (key, val) ∧ Enters cfg st key val rest entered

section declarations

variable (cfg : Config) {its : TokenStream} {it : Token} {more : List Token} (st : SymbolTable)
  (addr : Nat) (filename : Option String)

theorem enterSym_enters (at_ : its.At more) (key : SymKey) (val : SymVal) (pos : Pos) (diags : List Diag) :
    Enters cfg st key val (more.map Token.lexeme)
      (enterSym cfg its (some st) key val pos filename diags) := by
  simp only [Enters, enterSym]
  cases insertSt cfg st key val with
  | error fault => rfl
  | ok result =>
    obtain ⟨res, next⟩ := result
    cases res with
    | exists_ => exact ⟨_, rfl, rfl⟩
    | ok => exact ⟨_, rfl, rfl, rfl, more, at_, rfl⟩

theorem labelMeta_follows (at_ : its.At (it :: more)) :
    DeclaredFollows cfg st addr (labelMeta cfg its (some st) addr filename)
      (Start.label.read (more.map Token.lexeme)) := by
  obtain ⟨after, consumed, left⟩ := at_.next
  unfold labelMeta
  rw [if_neg (by simp)]
  simp only [consumed]
  rcases left.name_or with ⟨ident, more, identIt, last, spelled, name, consumed, rfl, left⟩ |
    ⟨other, unread⟩
  · simp only [name, if_true, consumed, spelled, Start.read]
    exact ⟨_, _, rfl, enterSym_enters cfg st filename left _ _ _ _⟩
  · rw [if_neg other, Start.read_unnamed (by simp) (by simp) unread]
    exact ⟨_, rfl, rfl⟩

theorem functionInst_follows (at_ : its.At (it :: more)) :
    DeclaredFollows cfg st addr (functionInst cfg its (some st) addr filename)
      (Start.function.read (more.map Token.lexeme)) := by
  obtain ⟨after, consumed, left⟩ := at_.next
  simp only [functionInst, consumed]
  rcases left.name_or with ⟨ident, more, identIt, last, spelled, name, consumed, rfl, left⟩ |
    ⟨other, unread⟩
  · simp only [name, if_true, consumed, spelled]
    rcases left.num_or with ⟨nlocals, more, nlocalsIt, last, spelled, number, consumed, rfl, left⟩ |
      ⟨other, unread⟩
    · simp only [number, if_true, consumed, spelled, Start.read]
      exact ⟨_, _, rfl, enterSym_enters cfg st filename left _ _ _ _⟩
    · rw [if_neg other, Start.read_function_bare unread]
      exact ⟨_, _, rfl, enterSym_enters cfg st filename left _ _ _ _⟩
  · rw [if_neg other, Start.read_unnamed (by simp) (by simp) unread]
    exact ⟨_, rfl, rfl⟩

end declarations

theorem Start.read_declares {start : Start} {lexemes rest : List Lexeme} {clause : Clause}
    (read : start.read lexemes = some (clause, rest)) (label : start ≠ .label)
    (function : start ≠ .function) (addr : Nat) : clause.declares addr = none := by
  cases Start.reads read with
  | label ident rest => exact absurd rfl label
  | function ident nlocals rest => exact absurd rfl function
  | functionBare ident rest unread => exact absurd rfl function
  | _ => rfl

def Parser.Follows (cfg : Config) (base : Nat) (p : Parser) (st : SymbolTable)
    (result : Except Fault (ParseResult × Parser)) : Option (Clause × List Lexeme) → Prop
  | none => ∃ p', result = .ok (.err, p')
  | some (clause, rest) =>
    match clause.declares (p.insts.cell.length + base) with
    | none =>
      ∃ p' inst, result = .ok (.ok, p') ∧ p'.st = some st ∧ p'.its.Left rest ∧
        p'.insts.cell = p.insts.cell ++ [inst] ∧ ∀ item, clause = .item item → inst.item = some item
    | some (key, val) =>
      match insertSt cfg st key val with
      | .error fault => result = .error fault
      | .ok (.exists_, _) => ∃ p', result = .ok (.err, p')
      | .ok (.ok, next) =>
        ∃ p', result = .ok (.ok, p') ∧ p'.st = some next ∧ p'.its.Left rest ∧ p'.insts = p.insts

theorem readClause_token (it : Token) (rest : List Lexeme) :
    readClause (it.lexeme :: rest) = it.t.start.bind fun start => start.read rest := by
  by_cases number : it.t = .uint
  · rw [Token.lexeme_of_uint number, number]
    rfl
  · by_cases name : it.t = .ident
    · rw [Token.lexeme_of_ident name, name]
      rfl
    · rw [Token.lexeme_of_keyword number name, readClause]
      cases it.t.start <;> rfl

theorem declare_follows {cfg : Config} {base : Nat} {p : Parser} {st : SymbolTable}
    {entered : Except Fault Declared} {read : Option (Clause × List Lexeme)}
    (declared : DeclaredFollows cfg st (p.insts.cell.length + base) entered read) :
    p.Follows cfg base st (p.declare entered) read := by
  cases read with
  | none =>
    obtain ⟨d, rfl, failed⟩ := declared
    exact ⟨_, by rw [Parser.declare, failed]⟩
  | some read =>
    obtain ⟨clause, rest⟩ := read
    obtain ⟨key, val, declares, enters⟩ := declared
    simp only [Parser.Follows, declares]
    unfold Enters at enters
    cases inserted : insertSt cfg st key val with
    | error fault =>
      simp only [inserted] at enters
      simp only [enters, Parser.declare]
    | ok result =>
      obtain ⟨res, next⟩ := result
      simp only [inserted] at enters
      cases res with
      | exists_ =>
        obtain ⟨d, rfl, failed⟩ := enters
        exact ⟨_, by rw [Parser.declare, failed]⟩
      | ok =>
        obtain ⟨d, rfl, succeeded, table, left⟩ := enters
        have passed : p.declare (.ok d) = .ok (.ok,
            { its := d.its, insts := p.insts, st := d.st, diags := p.diags ++ d.diags,
              warnings := p.warnings ++ d.warnings }) := by rw [Parser.declare, succeeded]
        exact ⟨_, passed, table, left, rfl⟩

theorem parseStep_follows (cfg : Config) (filename : Option String) (base : Nat) {p : Parser}
    {st : SymbolTable} (table : p.st = some st) {it : Token} {more : List Token}
    (at_ : p.its.At (it :: more)) :
    p.Follows cfg base st (parseStep cfg filename base p)
      (readClause (it.lexeme :: more.map Token.lexeme)) := by
  rw [readClause_token]
  unfold parseStep
  simp only [at_.lh, isInstToken_iff, table]
  cases started : it.t.start with
  | none => exact ⟨_, rfl⟩
  | some start =>
    have t := (TokenCode.start_iff it.t start).mp started
    simp only [Option.isSome_some, Bool.not_true, Bool.false_eq_true, if_false, Option.bind_some]
    -- The two declarations have parsers of their own; all other entries are in the table.
    by_cases label : start = .label
    · subst label
      simp only [t, Start.token]
      exact declare_follows (labelMeta_follows cfg st _ filename at_)
    · by_cases function : start = .function
      · subst function
        simp only [t, Start.token]
        exact declare_follows (functionInst_follows cfg st _ filename at_)
      · have followed := parseFn_follows (p.insts.nextCell cfg) filename at_ started label function
        split
        · next same =>
          rw [same] at started
          cases started
          exact absurd rfl label
        · next same =>
          rw [same] at started
          cases started
          exact absurd rfl function
        · generalize parseFn it.t p.its (p.insts.nextCell cfg) filename = parsed at followed ⊢
          cases read : start.read (more.map Token.lexeme) with
          | none =>
            rw [read] at followed
            exact ⟨_, by rw [show parsed.res = .err from followed]⟩
          | some result =>
            obtain ⟨clause, rest⟩ := result
            rw [read] at followed
            obtain ⟨succeeded, left, fills⟩ := followed
            simp only [Parser.Follows, Start.read_declares read label function, succeeded]
            exact ⟨_, _, rfl, rfl, left, rfl, fills⟩

/-- Entering declarations in order, up to the first one that is refused. -/
def enterAll (cfg : Config) (st : SymbolTable) :
    List (SymKey × SymVal) → Except Fault (InsertResult × SymbolTable)
  | [] => .ok (.ok, st)
  | (key, val) :: entries =>
    match insertSt cfg st key val with
    | .error fault => .error fault
    | .ok (.exists_, st) => .ok (.exists_, st)
    | .ok (.ok, st) => enterAll cfg st entries

theorem enterAll_cons {cfg : Config} {st last : SymbolTable} {entry : SymKey × SymVal}
    {entries : List (SymKey × SymVal)} :
    enterAll cfg st (entry :: entries) = .ok (.ok, last) ↔
      ∃ next, insertSt cfg st entry.1 entry.2 = .ok (.ok, next) ∧ enterAll cfg next entries = .ok (.ok, last) := by
  rw [enterAll]
  cases insertSt cfg st entry.1 entry.2 with
  | error fault => simp
  | ok result =>
    obtain ⟨_ | _, next⟩ := result
    · simp
    · simp

def declarations (addr : Nat) : List Clause → List (SymKey × SymVal)
  | [] => []
  | clause :: clauses =>
    match clause.declares addr with
    | none => declarations (addr + 1) clauses
    | some entry => entry :: declarations addr clauses

def Item.emits : Item → Bool
  | .label _ | .function _ _ => false
  | _ => true

theorem Item.emits_iff (item : Item) (addr : Nat) :
    item.emits = true ↔ (Clause.item item).declares addr = none := by
  cases item <;> simp [Item.emits, Clause.declares]

def Emits (before after : List Inst) (clauses : List Clause) : Prop :=
  ∀ items : List Item, clauses = items.map Clause.item →
    after.map Inst.item = before.map Inst.item ++ (items.filter Item.emits).map some

theorem Emits.refl (insts : List Inst) : Emits insts insts [] := by
  rintro (_ | _) ⟨⟩
  simp

theorem Emits.instruction {before after : List Inst} {inst : Inst} {clause : Clause}
    {clauses : List Clause} {addr : Nat} (declares : clause.declares addr = none)
    (fills : ∀ item, clause = .item item → inst.item = some item)
    (later : Emits (before ++ [inst]) after clauses) : Emits before after (clause :: clauses) := by
  rintro (_ | ⟨item, items⟩) same
  · cases same
  · obtain ⟨rfl, rest⟩ := List.cons.inj same
    rw [later items rest, List.filter_cons, if_pos ((item.emits_iff addr).mpr declares)]
    simp [fills item rfl]

theorem Emits.declaration {before after : List Inst} {clause : Clause} {clauses : List Clause}
    {addr : Nat} {entry : SymKey × SymVal} (declares : clause.declares addr = some entry)
    (later : Emits before after clauses) : Emits before after (clause :: clauses) := by
  rintro (_ | ⟨item, items⟩) same
  · cases same
  · obtain ⟨rfl, rest⟩ := List.cons.inj same
    have silent : ¬item.emits = true := by
      rw [item.emits_iff addr, declares]
      exact Option.some_ne_none entry
    rw [later items rest, List.filter_cons, if_neg silent]

def Ends (cfg : Config) (addr : Nat) (st : SymbolTable) (insts : List Inst) (clauses : List Clause)
    (left : List Lexeme) (result : Except Fault (ParseResult × Parser)) : Prop :=
  match enterAll cfg st (declarations addr clauses) with
  | .error fault => result = .error fault
  | .ok (.exists_, _) => ∃ p, result = .ok (.err, p)
  | .ok (.ok, last) =>
    if left = [] then
      ∃ p, result = .ok (.ok, p) ∧ p.st = some last ∧ Emits insts p.insts.cell clauses
    else ∃ p, result = .ok (.err, p)

section ends

variable {cfg : Config} {addr : Nat} {st : SymbolTable} {insts : List Inst} {clause : Clause}
  {clauses : List Clause} {left : List Lexeme} {result : Except Fault (ParseResult × Parser)}

theorem Ends.instruction {inst : Inst} (declares : clause.declares addr = none)
    (fills : ∀ item, clause = .item item → inst.item = some item)
    (later : Ends cfg (addr + 1) st (insts ++ [inst]) clauses left result) :
    Ends cfg addr st insts (clause :: clauses) left result := by
  unfold Ends at later ⊢
  simp only [declarations, declares]
  split at later
  · exact later
  · exact later
  · split at later
    · next nothing =>
      obtain ⟨p, same, table, emits⟩ := later
      rw [if_pos nothing]
      exact ⟨p, same, table, emits.instruction declares fills⟩
    · next something =>
      rw [if_neg something]
      exact later

theorem Ends.declaration {key : SymKey} {val : SymVal} {next : SymbolTable}
    (declares : clause.declares addr = some (key, val))
    (inserted : insertSt cfg st key val = .ok (.ok, next))
    (later : Ends cfg addr next insts clauses left result) :
    Ends cfg addr st insts (clause :: clauses) left result := by
  unfold Ends at later ⊢
  simp only [declarations, declares, enterAll, inserted]
  split at later
  · exact later
  · exact later
  · split at later
    · next nothing =>
      obtain ⟨p, same, table, emits⟩ := later
      rw [if_pos nothing]
      exact ⟨p, same, table, emits.declaration declares⟩
    · next something =>
      rw [if_neg something]
      exact later

end ends

theorem TokenStream.Left.later {its : TokenStream} {it : Token} {more : List Token} {clause : Clause}
    {rest : List Lexeme} (left : its.Left rest)
    (read : readClause (it.lexeme :: more.map Token.lexeme) = some (clause, rest)) :
    ∃ later, its.At later ∧ later.map Token.lexeme = rest ∧ later.length ≤ more.length := by
  obtain ⟨later, at_, rfl⟩ := left
  have shorter := readClause_length read
  rw [List.length_cons, List.length_map, List.length_map] at shorter
  exact ⟨later, at_, rfl, Nat.le_of_lt_succ shorter⟩

section loop

variable {cfg : Config} {filename : Option String} {base : Nat} {p : Parser}

theorem parseLoop_nil (at_ : p.its.At []) (fuel : Nat) : parseLoop cfg filename base fuel p = .ok (.ok, p) := by
  cases fuel with
  | zero => rfl
  | succ fuel => rw [parseLoop, if_neg fun inside => at_.lt_iff.mp inside rfl]

theorem parseLoop_cons {it : Token} {more : List Token} (at_ : p.its.At (it :: more)) (fuel : Nat) :
    parseLoop cfg filename base (fuel + 1) p =
      match parseStep cfg filename base p with
      | .error fault => .error fault
      | .ok (.err, p) => .ok (.err, p)
      | .ok (.ok, p) => parseLoop cfg filename base fuel p := by
  rw [parseLoop]
  exact if_pos (at_.lt_iff.mpr (List.cons_ne_nil _ _))

end loop

theorem parseLoop_ends (cfg : Config) (filename : Option String) (base : Nat) (fuel : Nat) {p : Parser}
    {st : SymbolTable} (table : p.st = some st) {tokens : List Token} (at_ : p.its.At tokens)
    (enough : tokens.length ≤ fuel) :
    Ends cfg (p.insts.cell.length + base) st p.insts.cell
      (readClauses fuel (tokens.map Token.lexeme)).1
      (readClauses fuel (tokens.map Token.lexeme)).2 (parseLoop cfg filename base fuel p) := by
  induction fuel generalizing p st tokens with
  | zero =>
    obtain rfl : tokens = [] := List.length_eq_zero_iff.mp (by omega)
    exact ⟨p, rfl, table, Emits.refl _⟩
  | succ fuel ih =>
    cases tokens with
    | nil =>
      rw [parseLoop_nil at_, List.map_nil, readClauses_nil]
      exact ⟨p, rfl, table, Emits.refl _⟩
    | cons it more =>
      have followed := parseStep_follows cfg filename base table at_
      rw [parseLoop_cons at_, List.map_cons, readClauses]
      cases read : readClause (it.lexeme :: more.map Token.lexeme) with
      | none =>
        rw [read] at followed
        obtain ⟨p', stepped⟩ := followed
        rw [stepped]
        exact ⟨p', rfl⟩
      | some result =>
        obtain ⟨clause, rest⟩ := result
        rw [read] at followed
        rw [List.length_cons] at enough
        unfold Parser.Follows at followed
        cases declares : clause.declares (p.insts.cell.length + base) with
        | none =>
          simp only [declares] at followed
          obtain ⟨p', inst, stepped, table', left, cells, fills⟩ := followed
          obtain ⟨tokens, at', rfl, shorter⟩ := left.later read
          have later := ih table' at' (by omega)
          rw [cells, List.length_append, List.length_singleton, Nat.add_right_comm] at later
          simp only [stepped]
          exact later.instruction declares fills
        | some entry =>
          obtain ⟨key, val⟩ := entry
          simp only [declares] at followed
          cases inserted : insertSt cfg st key val with
          | error fault =>
            simp only [inserted] at followed
            simp only [followed, Ends, declarations, declares, enterAll, inserted]
          | ok entered =>
            obtain ⟨res, next⟩ := entered
            simp only [inserted] at followed
            cases res with
            | exists_ =>
              -- A duplicate ends the loop, so the declarations behind it are not entered.
              obtain ⟨p', stepped⟩ := followed
              simp only [stepped, Ends, declarations, declares, enterAll, inserted]
              exact ⟨p', rfl⟩
            | ok =>
              obtain ⟨p', stepped, table', left, same⟩ := followed
              obtain ⟨tokens, at', rfl, shorter⟩ := left.later read
              have later := ih table' at' (by omega)
              rw [same] at later
              simp only [stepped]
              exact later.declaration declares inserted

theorem parse_ends (cfg : Config) (tokens : Tokens) (insts : Insts) (st : SymbolTable) :
    ∃ result, Ends cfg (insts.cell.length + st.numInst) st insts.cell
        (readClauses tokens.cell.length (tokens.cell.map Token.lexeme)).1
        (readClauses tokens.cell.length (tokens.cell.map Token.lexeme)).2 result ∧
      parse cfg tokens insts (some st) =
        match result with
        | .error fault => .error fault
        | .ok (.err, p) => .ok (.err, p)
        | .ok (.ok, p) =>
          .ok (.ok, { p with st := p.st.map fun st => { st with numInst := st.numInst + p.insts.cell.length } }) := by
  let start : Parser :=
    { its := { tokens := tokens.cell, idx := 0, len := tokens.cell.length }, insts := insts,
      st := some st, diags := [], warnings := [] }
  have at_ : start.its.At tokens.cell := ⟨rfl, rfl⟩
  exact ⟨_, parseLoop_ends cfg tokens.filename st.numInst tokens.cell.length rfl at_ le_rfl, rfl⟩

end Hvme
