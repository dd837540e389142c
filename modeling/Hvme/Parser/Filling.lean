import Hvme.Parser.Tableless

set_option autoImplicit false

namespace Hvme

def Clause.filled (nargs : UInt16) : Clause → Item
  | .item it => it
  | .function ident => .function ident 0
  | .call ident => .call ident nargs

def Clause.emits : Clause → Bool
  | .item it => it.emits
  | .function _ => false
  | .call _ => true

theorem Clause.emits_iff (clause : Clause) (addr : Nat) :
    clause.emits = true ↔ clause.declares addr = none := by
  cases clause with
  | item item => exact item.emits_iff addr
  | function ident => simp [Clause.emits, Clause.declares]
  | call ident => simp [Clause.emits, Clause.declares]

def Config.cellNargs (cfg : Config) (idx : Nat) : UInt16 :=
  if idx < cfg.instBlockSize then 0 else cfg.junkInst.nargs

theorem Insts.nextCell_nargs (cfg : Config) (insts : Insts) :
    (insts.nextCell cfg).nargs = cfg.cellNargs insts.cell.length := by
  unfold Insts.nextCell Config.cellNargs
  split <;> rfl

def emittedFrom (cfg : Config) (idx : Nat) : List Clause → List Item
  | [] => []
  | clause :: clauses =>
    if clause.emits then clause.filled (cfg.cellNargs idx) :: emittedFrom cfg (idx + 1) clauses
    else emittedFrom cfg idx clauses

def Start.emits : Start → Bool
  | .label | .function => false
  | _ => true

def placesOf (tokens : List Token) : List Pos :=
  (tokens.filter fun it => it.t.start.any Start.emits).map Token.pos

theorem placesOf_append (front back : List Token) : placesOf (front ++ back) = placesOf front ++ placesOf back := by
  simp [placesOf]

theorem Start.read_emits {start : Start} {lexemes rest : List Lexeme} {clause : Clause}
    (read : start.read lexemes = some (clause, rest)) : clause.emits = start.emits := by
  cases Start.reads read <;> rfl

theorem Segment.token_start (seg : Segment) : seg.token.start = none := by
  cases seg <;> rfl

theorem Start.read_operands {start : Start} {lexemes rest : List Lexeme} {clause : Clause}
    (read : start.read lexemes = some (clause, rest)) :
    ∃ operands, lexemes = operands ++ rest ∧ ∀ t, Lexeme.keyword t ∈ operands → t.start = none := by
  cases Start.reads read with
  | operation op => exact ⟨[], rfl, by simp⟩
  | transfer op seg offset =>
    refine ⟨[.keyword seg.token, .num offset], rfl, fun t member => ?_⟩
    obtain rfl : t = seg.token := by simpa using member
    exact Segment.token_start seg
  | jump op target => exact ⟨[.name target], rfl, by simp⟩
  | label ident => exact ⟨[.name ident], rfl, by simp⟩
  | function ident nlocals => exact ⟨[.name ident, .num nlocals], rfl, by simp⟩
  | functionBare ident => exact ⟨[.name ident], rfl, by simp⟩
  | call ident nargs => exact ⟨[.name ident, .num nargs], rfl, by simp⟩
  | callBare ident => exact ⟨[.name ident], rfl, by simp⟩

section parsers

variable {its : TokenStream} {it : Token} {more : List Token} (cell : Inst) (filename : Option String)

theorem Start.read_call {start : Start} {lexemes rest : List Lexeme} {ident : Ident}
    (read : start.read lexemes = some (.call ident, rest)) :
    start = .call ∧ lexemes = .name ident :: rest ∧ ∀ value more, rest ≠ .num value :: more := by
  cases Start.reads read with
  | callBare _ _ unread => exact ⟨rfl, rfl, unread⟩

theorem callInst_bare (at_ : its.At (it :: more)) (t : it.t = .call) {ident : Ident} {rest : List Lexeme}
    (read : Start.call.read (more.map Token.lexeme) = some (.call ident, rest)) :
    (callInst its cell filename).inst.item = some (.call ident cell.nargs) := by
  obtain ⟨-, spelled, unread⟩ := Start.read_call read
  obtain ⟨after, consumed, left⟩ := at_.next
  simp only [callInst, consumed, t]
  rcases left.name_or with ⟨target, more, identIt, last, spelled', name, consumed, rfl, left⟩ | ⟨-, other⟩
  · obtain ⟨same, rfl⟩ := List.cons.inj (spelled'.symm.trans spelled)
    cases same
    simp only [name, if_true, consumed]
    rcases left.num_or with ⟨nargs, more, nargsIt, last, spelled, -⟩ | ⟨other, -⟩
    · exact absurd spelled (unread nargs _)
    · rw [if_neg other]
      rfl
  · exact absurd spelled (other ident rest)

theorem memoryInst_pos (its : TokenStream) : (memoryInst its cell filename).inst.pos = (itsLh its).pos := by
  unfold memoryInst
  dsimp only
  split
  · split <;> rfl
  · rfl

theorem gotoInst_pos (its : TokenStream) : (gotoInst its cell filename).inst.pos = (itsLh its).pos := by
  unfold gotoInst
  dsimp only
  split <;> rfl

theorem callInst_pos (its : TokenStream) : (callInst its cell filename).inst.pos = (itsLh its).pos := by
  unfold callInst
  dsimp only
  split
  · split <;> rfl
  · rfl

theorem parseFn_pos (its : TokenStream) (t : TokenCode) :
    (parseFn t its cell filename).inst.pos = (itsLh its).pos := by
  unfold parseFn
  split
  · exact callInst_pos cell filename its
  · exact gotoInst_pos cell filename its
  · exact gotoInst_pos cell filename its
  · exact memoryInst_pos cell filename its
  · exact memoryInst_pos cell filename its
  · rfl

theorem parseFn_fills (at_ : its.At (it :: more)) {start : Start} (started : it.t.start = some start)
    (label : start ≠ .label) (function : start ≠ .function) {clause : Clause} {rest : List Lexeme}
    (read : start.read (more.map Token.lexeme) = some (clause, rest)) :
    (parseFn it.t its cell filename).inst.item = some (clause.filled cell.nargs) := by
  have followed := parseFn_follows cell filename at_ started label function
  rw [read] at followed
  obtain ⟨-, -, fills⟩ := followed
  cases clause with
  | item item => exact fills item rfl
  | function ident =>
    have declares := Start.read_declares read label function 0
    cases declares
  | call ident =>
    obtain ⟨rfl, -, -⟩ := Start.read_call read
    have t := (TokenCode.start_iff it.t .call).mp started
    rw [show parseFn it.t its cell filename = callInst its cell filename by rw [t]; rfl]
    exact callInst_bare cell filename at_ t read

end parsers

section tokens

variable (its : TokenStream) (inst : Inst) (filename : Option String)

@[simp] theorem itsNext_tokens : (itsNext its).2.tokens = its.tokens := by
  unfold itsNext
  dsimp only
  split <;> rfl

theorem parseFn_tokens (t : TokenCode) : (parseFn t its inst filename).its.tokens = its.tokens := by
  unfold parseFn
  split <;> simp only [callInst, gotoInst, ifGotoInst, memoryInst, mapInst] <;> (repeat' split) <;> simp

variable {cfg : Config} {st : Option SymbolTable} {filename : Option String} {d : Declared}

theorem enterSym_its {its : TokenStream} {key : SymKey} {val : SymVal} {pos : Pos} {diags : List Diag}
    (entered : enterSym cfg its st key val pos filename diags = .ok d) : d.its = its := by
  unfold enterSym at entered
  split at entered
  · cases entered
    rfl
  · split at entered <;> cases entered <;> rfl

theorem labelMeta_tokens {its : TokenStream} {addr : Nat}
    (entered : labelMeta cfg its st addr filename = .ok d) : d.its.tokens = its.tokens := by
  unfold labelMeta at entered
  dsimp only at entered
  split at entered
  · cases entered
  · split at entered
    · rw [enterSym_its entered, itsNext_tokens, itsNext_tokens]
    · cases entered
      exact itsNext_tokens its

theorem functionInst_tokens {its : TokenStream} {addr : Nat}
    (entered : functionInst cfg its st addr filename = .ok d) : d.its.tokens = its.tokens := by
  unfold functionInst at entered
  dsimp only at entered
  split at entered
  · split at entered
    · rw [enterSym_its entered, itsNext_tokens, itsNext_tokens, itsNext_tokens]
    · rw [enterSym_its entered, itsNext_tokens, itsNext_tokens]
  · cases entered
    exact itsNext_tokens its

end tokens

theorem Parser.declare_ok {p p' : Parser} {entered : Except Fault Declared} {res : ParseResult}
    (declared : p.declare entered = .ok (res, p')) :
    ∃ d, entered = .ok d ∧ p'.its = d.its ∧ p'.insts = p.insts := by
  cases entered with
  | error fault => cases declared
  | ok d =>
    cases declared
    exact ⟨d, rfl, rfl, rfl⟩

structure Parser.Takes (cfg : Config) (p : Parser) (it : Token) (clause : Clause) (p' : Parser) : Prop where
  tokens : p'.its.tokens = p.its.tokens
  silent : clause.emits = false → p'.insts = p.insts
  fills : clause.emits = true → ∃ inst, p'.insts = { p.insts with cell := p.insts.cell ++ [inst] } ∧
    inst.item = some (clause.filled (cfg.cellNargs p.insts.cell.length)) ∧
    inst.pos = { it.pos with filename := p.insts.filename }

theorem parseStep_reads {cfg : Config} {filename : Option String} {base : Nat} {p p' : Parser}
    {it : Token} {more : List Token} (at_ : p.its.At (it :: more))
    (stepped : parseStep cfg filename base p = .ok (.ok, p')) :
    ∃ clause rest, readClause (it.lexeme :: more.map Token.lexeme) = some (clause, rest) ∧
      p'.its.Left rest := by
  cases table : p.st with
  | some st =>
    have followed := parseStep_follows cfg filename base table at_
    rw [stepped] at followed
    cases read : readClause (it.lexeme :: more.map Token.lexeme) with
    | none =>
      rw [read] at followed
      obtain ⟨p'', same⟩ := followed
      cases same
    | some result =>
      obtain ⟨clause, rest⟩ := result
      refine ⟨clause, rest, rfl, ?_⟩
      rw [read] at followed
      unfold Parser.Follows at followed
      dsimp only at followed
      split at followed
      · obtain ⟨p'', inst, same, -, left, -⟩ := followed
        cases same
        exact left
      · split at followed
        · cases followed
        · obtain ⟨p'', same⟩ := followed
          cases same
        · obtain ⟨p'', same, -, left, -⟩ := followed
          cases same
          exact left
  | none =>
    -- Without a table a label aborts, and the rest goes as with a fresh one.
    have other : it.t ≠ .label := fun label => by
      rw [parseStep_label table at_ label] at stepped
      cases stepped
    have beside := parseStep_beside cfg filename base (Parser.beside_fresh cfg table) at_ other
    rw [stepped] at beside
    cases read : readClause (it.lexeme :: more.map Token.lexeme) with
    | none =>
      rw [read] at beside
      obtain ⟨p'', q, same, -⟩ := beside
      cases same
    | some result =>
      obtain ⟨clause, rest⟩ := result
      refine ⟨clause, rest, rfl, ?_⟩
      rw [read] at beside
      unfold StepsBeside at beside
      dsimp only at beside
      split at beside
      · obtain ⟨p'', q, same, -, -, left, -⟩ := beside
        cases same
        exact left
      · obtain ⟨p'', same, left, -⟩ := beside
        cases same
        exact left

theorem parseStep_emits (cfg : Config) (filename : Option String) (base : Nat) {p : Parser} {it : Token}
    {more : List Token} (at_ : p.its.At (it :: more)) {clause : Clause} {rest : List Lexeme}
    (read : readClause (it.lexeme :: more.map Token.lexeme) = some (clause, rest))
    (emits : clause.emits = true) :
    ∃ p', parseStep cfg filename base p = .ok (.ok, p') ∧ p'.its.Left rest := by
  have declares := (clause.emits_iff (p.insts.cell.length + base)).mp emits
  cases table : p.st with
  | some st =>
    have followed := parseStep_follows cfg filename base table at_
    simp only [read, Parser.Follows, declares] at followed
    obtain ⟨p', inst, stepped, -, left, -⟩ := followed
    exact ⟨p', stepped, left⟩
  | none =>
    have other : it.t ≠ .label := by
      intro label
      rw [readClause_token, label] at read
      rw [Start.read_emits read] at emits
      cases emits
    have beside := parseStep_beside cfg filename base (Parser.beside_fresh cfg table) at_ other
    simp only [read, StepsBeside, declares] at beside
    obtain ⟨p', q, stepped, -, -, left, -⟩ := beside
    exact ⟨p', stepped, left⟩

theorem parseStep_takes {cfg : Config} {filename : Option String} {base : Nat} {p p' : Parser}
    {it : Token} {more : List Token} (at_ : p.its.At (it :: more))
    (stepped : parseStep cfg filename base p = .ok (.ok, p')) {clause : Clause} {rest : List Lexeme}
    (read : readClause (it.lexeme :: more.map Token.lexeme) = some (clause, rest)) :
    p.Takes cfg it clause p' := by
  rw [readClause_token] at read
  obtain ⟨start, started, read⟩ := Option.bind_eq_some_iff.mp read
  have t := (TokenCode.start_iff it.t start).mp started
  have emits := Start.read_emits read
  unfold parseStep at stepped
  simp only [at_.lh, isInstToken_iff, started, Option.isSome_some, Bool.not_true, Bool.false_eq_true,
    if_false] at stepped
  -- The declarations leave the instructions alone; every other parser fills the next cell.
  by_cases label : start = .label
  · subst label
    simp only [t, Start.token] at stepped
    obtain ⟨d, entered, its, insts⟩ := Parser.declare_ok stepped
    exact ⟨by rw [its, labelMeta_tokens entered], fun _ => insts, fun some_ => by rw [emits] at some_; cases some_⟩
  · by_cases function : start = .function
    · subst function
      simp only [t, Start.token] at stepped
      obtain ⟨d, entered, its, insts⟩ := Parser.declare_ok stepped
      exact ⟨by rw [its, functionInst_tokens entered], fun _ => insts,
        fun some_ => by rw [emits] at some_; cases some_⟩
    · have item := parseFn_fills (p.insts.nextCell cfg) filename at_ started label function read
      have pos := parseFn_pos (p.insts.nextCell cfg) filename p.its it.t
      have tokens := parseFn_tokens p.its (p.insts.nextCell cfg) filename it.t
      split at stepped
      · next same =>
        rw [same] at started
        cases started
        exact absurd rfl label
      · next same =>
        rw [same] at started
        cases started
        exact absurd rfl function
      · obtain ⟨-, rfl⟩ := Prod.mk.inj (Except.ok.inj stepped)
        refine ⟨tokens, fun silent => ?_, fun _ => ⟨_, rfl, ?_, ?_⟩⟩
        · cases start <;> first | exact absurd rfl label | exact absurd rfl function | (rw [emits] at silent; cases silent)
        · rw [← Insts.nextCell_nargs, ← item]
          rfl
        · rw [pos, at_.lh]

theorem placesOf_operands {operands : List Token}
    (silent : ∀ t, Lexeme.keyword t ∈ operands.map Token.lexeme → t.start = none) : placesOf operands = [] := by
  rw [placesOf, List.map_eq_nil_iff, List.filter_eq_nil_iff]
  intro it member
  cases started : it.t.start with
  | none => exact Bool.false_ne_true
  | some start =>
    have keyword : it.lexeme = .keyword it.t := by
      refine Token.lexeme_of_keyword ?_ ?_ <;> (intro same; rw [same] at started; cases started)
    rw [silent it.t (keyword ▸ List.mem_map_of_mem member)] at started
    cases started

theorem placesOf_read {it : Token} {more later : List Token} (behind : later <:+ it :: more) {clause : Clause}
    (read : readClause (it.lexeme :: more.map Token.lexeme) = some (clause, later.map Token.lexeme)) :
    placesOf (it :: more) = (if clause.emits then [it.pos] else []) ++ placesOf later := by
  have shorter := readClause_length read
  rw [readClause_token] at read
  obtain ⟨start, started, read⟩ := Option.bind_eq_some_iff.mp read
  obtain ⟨operands, spelled, silent⟩ := Start.read_operands read
  rw [List.length_cons, List.length_map, List.length_map] at shorter
  obtain ⟨front, rfl⟩ := (List.suffix_cons_iff.mp behind).resolve_left fun same => by
    rw [same, List.length_cons] at shorter
    omega
  rw [List.map_append] at spelled
  rw [← List.append_cancel_right spelled] at silent
  rw [← List.singleton_append, placesOf_append, placesOf_append, placesOf_operands silent, List.nil_append,
    Start.read_emits read]
  simp only [placesOf, List.filter_singleton, started, Option.any_some]
  cases start.emits <;> rfl

structure Fills (cfg : Config) (filename : Option String) (idx : Nat) (clauses : List Clause)
    (places : List Pos) (emitted : List Inst) : Prop where
  items : emitted.map Inst.item = (emittedFrom cfg idx clauses).map some
  places : emitted.map Inst.pos = places.map fun pos => { pos with filename := filename }

section fills

variable {cfg : Config} {filename : Option String} {idx : Nat} {clause : Clause} {clauses : List Clause}
  {places : List Pos} {emitted : List Inst}

theorem Fills.declaration {place : Pos} (silent : clause.emits = false)
    (later : Fills cfg filename idx clauses places emitted) :
    Fills cfg filename idx (clause :: clauses) ((if clause.emits then [place] else []) ++ places) emitted := by
  rw [silent, if_neg Bool.false_ne_true]
  refine ⟨?_, later.places⟩
  rw [emittedFrom, silent, if_neg Bool.false_ne_true]
  exact later.items

theorem Fills.instruction {inst : Inst} {place : Pos} (emits : clause.emits = true)
    (item : inst.item = some (clause.filled (cfg.cellNargs idx)))
    (pos : inst.pos = { place with filename := filename })
    (later : Fills cfg filename (idx + 1) clauses places emitted) :
    Fills cfg filename idx (clause :: clauses) ((if clause.emits then [place] else []) ++ places)
      (inst :: emitted) := by
  rw [emits, if_pos rfl]
  constructor
  · rw [emittedFrom, emits, if_pos rfl, List.map_cons, List.map_cons, item, later.items]
  · rw [List.map_cons, pos, later.places]
    rfl

end fills

theorem parseLoop_fills (cfg : Config) (filename : Option String) (base : Nat) (fuel : Nat) {p p' : Parser}
    {tokens : List Token} (at_ : p.its.At tokens) (enough : tokens.length ≤ fuel)
    (run : parseLoop cfg filename base fuel p = .ok (.ok, p')) :
    (readClauses fuel (tokens.map Token.lexeme)).2 = [] ∧
      ∃ emitted, p'.insts = { p.insts with cell := p.insts.cell ++ emitted } ∧
        Fills cfg p.insts.filename p.insts.cell.length (readClauses fuel (tokens.map Token.lexeme)).1
          (placesOf tokens) emitted := by
  induction fuel generalizing p tokens with
  | zero =>
    obtain rfl : tokens = [] := List.length_eq_zero_iff.mp (by omega)
    cases run
    exact ⟨rfl, [], by rw [List.append_nil], rfl, rfl⟩
  | succ fuel ih =>
    cases tokens with
    | nil =>
      rw [parseLoop_nil at_] at run
      cases run
      rw [List.map_nil, readClauses_nil]
      exact ⟨rfl, [], by rw [List.append_nil], rfl, rfl⟩
    | cons it more =>
      rw [parseLoop_cons at_] at run
      split at run
      · cases run
      · cases run
      · next q stepped =>
        obtain ⟨clause, rest, read, left⟩ := parseStep_reads at_ stepped
        have takes := parseStep_takes at_ stepped read
        obtain ⟨later, at', rfl, shorter⟩ := left.later read
        rw [List.length_cons] at enough
        obtain ⟨nothing, emitted, insts, filled⟩ := ih at' (by omega) run
        -- Both are ends of the same list, so the shorter one is an end of the longer.
        have behind : later <:+ it :: more := by
          have rest := at'.rest
          have whole := at_.rest
          rw [takes.tokens] at rest
          refine List.suffix_of_suffix_length_le (rest ▸ List.drop_suffix _ _) (whole ▸ List.drop_suffix _ _) ?_
          exact Nat.le_succ_of_le shorter
        rw [placesOf_read behind read, List.map_cons, readClauses, read]
        refine ⟨nothing, ?_⟩
        cases emits : clause.emits with
        | false =>
          rw [takes.silent emits] at insts filled
          exact ⟨emitted, insts, emits ▸ filled.declaration emits⟩
        | true =>
          obtain ⟨inst, same, item, pos⟩ := takes.fills emits
          rw [same] at insts filled
          rw [List.length_append, List.length_singleton] at filled
          refine ⟨inst :: emitted, ?_, emits ▸ filled.instruction emits item pos⟩
          rw [insts, List.append_assoc]
          rfl

theorem parse_fills {cfg : Config} {tokens : Tokens} {insts : Insts} {st : Option SymbolTable} {p : Parser}
    (parsed : parse cfg tokens insts st = .ok (.ok, p)) :
    leftOf tokens.cell = [] ∧
      ∃ emitted, p.insts = { insts with cell := insts.cell ++ emitted } ∧
        Fills cfg insts.filename insts.cell.length (clausesOf tokens.cell) (placesOf tokens.cell) emitted := by
  rw [parse_loop] at parsed
  split at parsed
  · cases parsed
  · cases parsed
  · next q run =>
    cases parsed
    have filled := parseLoop_fills cfg tokens.filename _ _ (Parser.start_at tokens insts st) le_rfl run
    exact filled

/-- The same instruction: the members that an instruction of this code has are equal. -/
structure Inst.Alike (inst other : Inst) : Prop where
  code : inst.code = other.code
  memory : inst.code = .push ∨ inst.code = .pop → inst.seg = other.seg ∧ inst.offset = other.offset
  ident : inst.code = .goto ∨ inst.code = .ifGoto ∨ inst.code = .call → inst.ident = other.ident
  nargs : inst.code = .call → inst.nargs = other.nargs

theorem Inst.alike_iff {inst other : Inst} {item : Item} (known : inst.item = some item) :
    inst.Alike other ↔ other.item = some item := by
  obtain ⟨code, seg, offset, ident, nargs, pos⟩ := inst
  obtain ⟨code', seg', offset', ident', nargs', pos'⟩ := other
  constructor
  · rintro ⟨same, memory, name, count⟩
    obtain rfl : code = code' := same
    rw [← known]
    cases code <;> simp_all [Inst.item]
  · intro known'
    rw [← known'] at known
    cases code <;> cases code' <;> cases known' <;> simp only [Inst.item] at known <;> cases known <;>
      constructor <;> simp

end Hvme
