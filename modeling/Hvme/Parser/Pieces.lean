import Hvme.Parser.Filling

set_option autoImplicit false

namespace Hvme

section reading

variable {lexemes rest back : List Lexeme} {clause : Clause} (starts : ∀ value more, back ≠ .num value :: more)

include starts

theorem not_num_append (unread : ∀ value more, rest ≠ .num value :: more) (value : UInt16) (more : List Lexeme) :
    rest ++ back ≠ .num value :: more := by
  cases rest with
  | nil => exact starts value more
  | cons first rest =>
    intro same
    exact unread value rest (by rw [(List.cons.inj same).1])

theorem Start.read_append {start : Start} (read : start.read lexemes = some (clause, rest)) :
    start.read (lexemes ++ back) = some (clause, rest ++ back) := by
  cases Start.reads read with
  | transfer op seg offset =>
    simp only [List.cons_append, Start.read, (TokenCode.segment_iff _ seg).mpr rfl, Option.map_some]
  | functionBare ident rest unread =>
    rw [List.cons_append, Start.read_function_bare (not_num_append starts unread)]
  | callBare ident rest unread => rw [List.cons_append, Start.read_call_bare (not_num_append starts unread)]
  | _ => rfl

theorem readClause_append (read : readClause lexemes = some (clause, rest)) :
    readClause (lexemes ++ back) = some (clause, rest ++ back) := by
  unfold readClause at read
  split at read
  · next t tail =>
    split at read
    · next start started =>
      rw [List.cons_append, readClause, started]
      exact Start.read_append starts read
    · cases read
  · cases read

end reading

theorem readClauses_enough {fuel fuel' : Nat} {lexemes : List Lexeme} (enough : lexemes.length ≤ fuel)
    (enough' : lexemes.length ≤ fuel') : readClauses fuel lexemes = readClauses fuel' lexemes := by
  induction fuel generalizing fuel' lexemes with
  | zero =>
    obtain rfl := List.length_eq_zero_iff.mp (Nat.le_zero.mp enough)
    cases fuel' <;> rfl
  | succ fuel ih =>
    cases read : readClause lexemes with
    | none => cases fuel' <;> simp only [readClauses, read]
    | some result =>
      obtain ⟨clause, rest⟩ := result
      have shorter := readClause_length read
      cases fuel' with
      | zero => omega
      | succ fuel' =>
        simp only [readClauses, read]
        rw [ih (show rest.length ≤ fuel by omega) (show rest.length ≤ fuel' by omega)]

theorem readClauses_append {fuel fuel' : Nat} {front back : List Lexeme}
    (enough : (front ++ back).length ≤ fuel) (enough' : front.length ≤ fuel')
    (nothing : (readClauses fuel' front).2 = []) (starts : ∀ value more, back ≠ .num value :: more) :
    readClauses fuel (front ++ back) =
      ((readClauses fuel' front).1 ++ (readClauses back.length back).1, (readClauses back.length back).2) := by
  -- By recursion on the clauses of the front: behind them the reading goes on with the back.
  induction fuel' generalizing fuel front with
  | zero =>
    obtain rfl := List.length_eq_zero_iff.mp (Nat.le_zero.mp enough')
    exact readClauses_enough enough le_rfl
  | succ fuel' ih =>
    rw [readClauses] at nothing ⊢
    cases read : readClause front with
    | none =>
      rw [read] at nothing
      obtain rfl : front = [] := nothing
      exact readClauses_enough enough le_rfl
    | some result =>
      obtain ⟨clause, rest⟩ := result
      have shorter := readClause_length read
      rw [read] at nothing
      rw [List.length_append] at enough
      cases fuel with
      | zero => omega
      | succ fuel =>
        have later := @ih fuel rest (by rw [List.length_append]; omega) (by omega) nothing
        simp only [readClauses, readClause_append starts read, later]
        rfl

theorem starts_of_leftOf {tokens : List Token} (nothing : leftOf tokens = []) (value : UInt16) (more : List Lexeme) :
    tokens.map Token.lexeme ≠ .num value :: more := by
  intro same
  rw [leftOf, same] at nothing
  cases tokens with
  | nil => cases same
  | cons it tokens => cases nothing

theorem clausesOf_append {front back : List Token} (nothing : leftOf front = []) (nothing' : leftOf back = []) :
    clausesOf (front ++ back) = clausesOf front ++ clausesOf back ∧ leftOf (front ++ back) = [] := by
  have read := @readClauses_append (front ++ back).length front.length (front.map Token.lexeme)
    (back.map Token.lexeme) (by rw [← List.map_append, List.length_map]) (by rw [List.length_map]) nothing
    (starts_of_leftOf nothing')
  rw [← List.map_append, List.length_map] at read
  exact ⟨congrArg Prod.fst read, (congrArg Prod.snd read).trans nothing'⟩

def emitting (clauses : List Clause) : List Clause := clauses.filter Clause.emits

theorem emitting_append (front back : List Clause) : emitting (front ++ back) = emitting front ++ emitting back :=
  List.filter_append front back

theorem emittedFrom_getElem (cfg : Config) (idx : Nat) (clauses : List Clause) (k : Nat) :
    (emittedFrom cfg idx clauses)[k]? =
      (emitting clauses)[k]?.map fun clause => clause.filled (cfg.cellNargs (idx + k)) := by
  induction clauses generalizing idx k with
  | nil => rfl
  | cons clause clauses ih =>
    rw [emittedFrom, emitting, List.filter_cons]
    split
    · cases k with
      | zero => rfl
      | succ k =>
        rw [List.getElem?_cons_succ, List.getElem?_cons_succ, ih, Nat.add_right_comm, Nat.add_assoc]
        rfl
    · exact ih idx k

theorem emittedFrom_length (cfg : Config) (idx : Nat) (clauses : List Clause) :
    (emittedFrom cfg idx clauses).length = (emitting clauses).length := by
  induction clauses generalizing idx with
  | nil => rfl
  | cons clause clauses ih =>
    rw [emittedFrom, emitting, List.filter_cons]
    split
    · rw [List.length_cons, List.length_cons, ih]
      rfl
    · exact ih idx

theorem Fills.length {cfg : Config} {filename : Option String} {idx : Nat} {clauses : List Clause}
    {places : List Pos} {emitted : List Inst} (fills : Fills cfg filename idx clauses places emitted) :
    emitted.length = (emitting clauses).length := by
  have lengths := congrArg List.length fills.items
  rwa [List.length_map, List.length_map, emittedFrom_length] at lengths

theorem declarations_append (addr : Nat) (front back : List Clause) :
    declarations addr (front ++ back) =
      declarations addr front ++ declarations (addr + (emitting front).length) back := by
  induction front generalizing addr with
  | nil => rfl
  | cons clause front ih =>
    rw [List.cons_append, declarations, declarations, emitting, List.filter_cons]
    cases declares : clause.declares addr with
    | none =>
      rw [if_pos ((clause.emits_iff addr).mpr declares), List.length_cons, ih, Nat.add_right_comm, Nat.add_assoc]
      rfl
    | some entry =>
      have silent : ¬clause.emits = true := by
        rw [clause.emits_iff addr, declares]
        exact Option.some_ne_none entry
      rw [if_neg silent]
      simp only [ih addr]
      rfl

theorem enterAll_append {cfg : Config} {st mid : SymbolTable} {front : List (SymKey × SymVal)}
    (entered : enterAll cfg st front = .ok (.ok, mid)) (back : List (SymKey × SymVal)) :
    enterAll cfg st (front ++ back) = enterAll cfg mid back := by
  induction front generalizing st with
  | nil =>
    cases entered
    rfl
  | cons entry front ih =>
    obtain ⟨next, inserted, later⟩ := enterAll_cons.mp entered
    rw [List.cons_append, enterAll, inserted]
    exact ih later

def SymbolTable.counting (count : Nat) (st : SymbolTable) : SymbolTable := { st with numInst := count }

theorem insertSt_counting (cfg : Config) (st : SymbolTable) (count : Nat) (key : SymKey) (val : SymVal) :
    insertSt cfg (st.counting count) key val =
      (insertSt cfg st key val).map (Prod.map id (SymbolTable.counting count)) := by
  have grown : (st.counting count).grow cfg = (st.grow cfg).counting count := by
    unfold SymbolTable.grow SymbolTable.counting
    dsimp only
    split <;> rfl
  have idx_eq : ((st.grow cfg).counting count).insertIdx key val = (st.grow cfg).insertIdx key val := rfl
  have cell_eq : ((st.grow cfg).counting count).cell = (st.grow cfg).cell := rfl
  simp only [insertSt, grown, idx_eq, cell_eq]
  cases (st.grow cfg).insertIdx key val with
  | none => rfl
  | some idx =>
    dsimp only
    cases (st.grow cfg).cell[idx]? with
    | none => rfl
    | some sym =>
      dsimp only
      split <;> rfl

theorem enterAll_counting (cfg : Config) (st : SymbolTable) (count : Nat) (entries : List (SymKey × SymVal)) :
    enterAll cfg (st.counting count) entries =
      (enterAll cfg st entries).map (Prod.map id (SymbolTable.counting count)) := by
  induction entries generalizing st with
  | nil => rfl
  | cons entry entries ih =>
    obtain ⟨key, val⟩ := entry
    simp only [enterAll, insertSt_counting]
    cases insertSt cfg st key val with
    | error fault => rfl
    | ok result =>
      obtain ⟨_ | _, next⟩ := result
      · rfl
      · exact ih next

theorem enterAll_numInst {cfg : Config} {st last : SymbolTable} {entries : List (SymKey × SymVal)}
    {res : InsertResult} (entered : enterAll cfg st entries = .ok (res, last)) : last.numInst = st.numInst := by
  have same := enterAll_counting cfg st st.numInst entries
  rw [show st.counting st.numInst = st from rfl, entered] at same
  have tables : last = last.counting st.numInst := (Prod.mk.inj (Except.ok.inj same)).2
  rw [tables]
  rfl

def Config.withJunk (cfg : Config) (junk : Inst) : Config := { cfg with junkInst := junk }

theorem enterAll_withJunk (cfg : Config) (junk : Inst) (st : SymbolTable) (entries : List (SymKey × SymVal)) :
    enterAll (cfg.withJunk junk) st entries = enterAll cfg st entries := by
  induction entries generalizing st with
  | nil => rfl
  | cons entry entries ih =>
    have first : insertSt (cfg.withJunk junk) st entry.1 entry.2 = insertSt cfg st entry.1 entry.2 := rfl
    simp only [enterAll, first, ih]

structure Accepts (cfg : Config) (st : SymbolTable) (tokens : List Token) (next : SymbolTable) : Prop where
  nothing : leftOf tokens = []
  entered : ∃ last, enterAll cfg st (declarations st.numInst (clausesOf tokens)) = .ok (.ok, last) ∧
    next = last.counting (st.numInst + (emitting (clausesOf tokens)).length)

section accepts

variable {cfg : Config} {junk : Inst} {st next : SymbolTable} {tokens : Tokens} {filename : Option String}

theorem Accepts.unique {next' : SymbolTable} (accepts : Accepts cfg st tokens.cell next)
    (accepts' : Accepts cfg st tokens.cell next') : next = next' := by
  obtain ⟨last, entered, rfl⟩ := accepts.entered
  obtain ⟨last', entered', rfl⟩ := accepts'.entered
  rw [entered] at entered'
  cases entered'
  rfl

theorem Accepts.parse (accepts : Accepts cfg st tokens.cell next) (junk : Inst) (filename : Option String) :
    ∃ p, parse (cfg.withJunk junk) tokens (newInsts filename) (some st) = .ok (.ok, p) := by
  obtain ⟨last, entered, -⟩ := accepts.entered
  have cases_ := parse_cases (cfg.withJunk junk) tokens (newInsts filename) st
  rw [show (newInsts filename).cell.length + st.numInst = st.numInst from Nat.zero_add _,
    enterAll_withJunk, entered] at cases_
  simp only [accepts.nothing, if_true] at cases_
  obtain ⟨p, -, parsed, -⟩ := cases_
  exact ⟨p, parsed⟩

theorem accepts_of_parse {p : Parser}
    (parsed : parse (cfg.withJunk junk) tokens (newInsts filename) (some st) = .ok (.ok, p)) :
    (∃ next, Accepts cfg st tokens.cell next ∧ p.st = some next) ∧
      Fills (cfg.withJunk junk) filename 0 (clausesOf tokens.cell) (placesOf tokens.cell) p.insts.cell := by
  obtain ⟨nothing, emitted, insts, fills⟩ := parse_fills parsed
  have cells : p.insts.cell = emitted := by rw [insts]; rfl
  refine ⟨?_, cells ▸ fills⟩
  obtain ⟨result, ends, parsed'⟩ := parse_ends (cfg.withJunk junk) tokens (newInsts filename) st
  rw [parsed'] at parsed
  unfold Ends at ends
  rw [show (newInsts filename).cell.length + st.numInst = st.numInst from Nat.zero_add _] at ends
  rw [enterAll_withJunk] at ends
  cases entered : enterAll cfg st
      (declarations st.numInst (readClauses tokens.cell.length (tokens.cell.map Token.lexeme)).1) with
  | error fault =>
    rw [entered] at ends
    rw [show result = _ from ends] at parsed
    cases parsed
  | ok entered_ =>
    obtain ⟨_ | _, last⟩ := entered_
    · rw [entered] at ends
      obtain ⟨q, rfl⟩ := ends
      cases parsed
    · rw [entered] at ends
      simp only [show (readClauses tokens.cell.length (tokens.cell.map Token.lexeme)).2 = [] from nothing,
        if_true] at ends
      obtain ⟨q, rfl, table, -⟩ := ends
      cases parsed
      refine ⟨_, ⟨nothing, last, entered, rfl⟩, ?_⟩
      simp only [table, Option.map_some]
      -- The loop does not touch `num_inst`; the number of instructions is added at the end.
      rw [← fills.length, ← cells, ← enterAll_numInst entered]
      rfl

theorem Accepts.append {front back : List Token} {last : SymbolTable} (accepts : Accepts cfg st front next)
    (accepts' : Accepts cfg next back last) : Accepts cfg st (front ++ back) last := by
  obtain ⟨clauses, nothing⟩ := clausesOf_append accepts.nothing accepts'.nothing
  obtain ⟨mid, entered, rfl⟩ := accepts.entered
  obtain ⟨last, entered', rfl⟩ := accepts'.entered
  -- The second piece starts with the table of the first, which differs in `num_inst` alone.
  rw [enterAll_counting] at entered'
  cases later : enterAll cfg mid
      (declarations (mid.counting (st.numInst + (emitting (clausesOf front)).length)).numInst (clausesOf back)) with
  | error fault =>
    rw [later] at entered'
    cases entered'
  | ok result =>
    obtain ⟨res, final⟩ := result
    rw [later] at entered'
    obtain ⟨rfl, rfl⟩ := Prod.mk.inj (Except.ok.inj entered')
    refine ⟨nothing, final, ?_, ?_⟩
    · rw [clauses, declarations_append, enterAll_append entered]
      exact later
    · rw [clauses, emitting_append, List.length_append, ← Nat.add_assoc]
      rfl

end accepts

structure Inst.Matches (inst other : Inst) : Prop where
  alike : inst.Alike other
  ln : inst.pos.ln = other.pos.ln
  cl : inst.pos.cl = other.pos.cl

theorem matches_iff {insts others : List Inst} {items items' : List Item}
    (known : insts.map Inst.item = items.map some) (known' : others.map Inst.item = items'.map some)
    (placed : insts.map (fun inst => (inst.pos.ln, inst.pos.cl)) =
      others.map fun inst => (inst.pos.ln, inst.pos.cl)) :
    List.Forall₂ Inst.Matches insts others ↔ items = items' := by
  induction insts generalizing others items items' with
  | nil =>
    obtain rfl := List.map_eq_nil_iff.mp placed.symm
    obtain rfl := List.map_eq_nil_iff.mp known.symm
    obtain rfl := List.map_eq_nil_iff.mp known'.symm
    exact iff_of_true .nil rfl
  | cons inst insts ih =>
    obtain ⟨other, others, rfl, here, placed⟩ := List.map_eq_cons_iff.mp placed.symm
    obtain ⟨item, items, rfl, first, known⟩ := List.map_eq_cons_iff.mp known.symm
    obtain ⟨item', items', rfl, first', known'⟩ := List.map_eq_cons_iff.mp known'.symm
    rw [List.forall₂_cons, ih known.symm known'.symm placed.symm, List.cons.injEq]
    refine and_congr_left fun _ => ?_
    constructor
    · rintro ⟨alike, -, -⟩
      rw [Inst.alike_iff first.symm, ← first'] at alike
      exact (Option.some.inj alike).symm
    · rintro rfl
      obtain ⟨ln, cl⟩ := Prod.mk.inj here
      exact ⟨(Inst.alike_iff first.symm).mpr first'.symm, ln.symm, cl.symm⟩

theorem Fills.placed {cfg : Config} {filename : Option String} {idx : Nat} {clauses : List Clause}
    {places : List Pos} {emitted : List Inst} (fills : Fills cfg filename idx clauses places emitted) :
    emitted.map (fun inst => (inst.pos.ln, inst.pos.cl)) = places.map fun pos => (pos.ln, pos.cl) := by
  have placed := congrArg (List.map fun pos => (pos.ln, pos.cl)) fills.places
  rwa [List.map_map, List.map_map] at placed

theorem emittedFrom_pieces (cfg : Config) {front back : List Clause}
    (given : ∀ idx ident, (emitting (front ++ back))[idx]? = some (.call ident) → idx < cfg.instBlockSize)
    (junk₁ junk₂ junk : Inst) :
    emittedFrom (cfg.withJunk junk) 0 (front ++ back) =
      emittedFrom (cfg.withJunk junk₁) 0 front ++ emittedFrom (cfg.withJunk junk₂) 0 back := by
  refine List.ext_getElem? fun k => ?_
  have same : ∀ clause, (emitting (front ++ back))[k]? = some clause → ∀ junk junk' : Inst, ∀ idx ≤ k,
      clause.filled ((cfg.withJunk junk).cellNargs k) = clause.filled ((cfg.withJunk junk').cellNargs idx) := by
    intro clause here junk junk' idx le
    -- Only a call without its number depends on the cell, and in the first block all cells are zero.
    cases clause with
    | item item => rfl
    | function ident => rfl
    | call ident =>
      have inside : k < cfg.instBlockSize := given k ident here
      have before_ : idx < cfg.instBlockSize := lt_of_le_of_lt le inside
      simp only [Config.cellNargs, Config.withJunk, inside, before_, if_true]
  rw [emittedFrom_getElem, Nat.zero_add, List.getElem?_append, emittedFrom_length]
  rw [emitting_append, List.getElem?_append] at same ⊢
  split
  · next inside =>
    rw [emittedFrom_getElem, Nat.zero_add]
    rw [if_pos inside] at same
    exact Option.map_congr fun clause here => same clause here _ _ k le_rfl
  · next outside =>
    rw [emittedFrom_getElem, Nat.zero_add]
    rw [if_neg outside] at same
    exact Option.map_congr fun clause here => same clause here _ _ _ (Nat.sub_le _ _)

theorem emittedFrom_pieces_differ (cfg : Config) {front back : List Clause} {idx : Nat} {ident : Ident}
    (bare : (emitting (front ++ back))[idx]? = some (.call ident)) (outside : cfg.instBlockSize ≤ idx) :
    emittedFrom (cfg.withJunk { Inst.zero with nargs := 1 }) 0 (front ++ back) ≠
      emittedFrom (cfg.withJunk Inst.zero) 0 front ++ emittedFrom (cfg.withJunk Inst.zero) 0 back := by
  intro same
  have here := congrArg (fun items : List Item => items[idx]?) same
  -- The pieces find zeros, as a new block has them; the whole finds a one.
  have zero : ∀ k, (cfg.withJunk Inst.zero).cellNargs k = 0 := fun k => by
    unfold Config.cellNargs
    split <;> rfl
  have one : (cfg.withJunk { Inst.zero with nargs := 1 }).cellNargs idx = 1 := if_neg (Nat.not_lt.mpr outside)
  simp only [List.getElem?_append, emittedFrom_length, emittedFrom_getElem, Nat.zero_add, zero, one] at here
  rw [bare] at here
  rw [emitting_append, List.getElem?_append] at bare
  split at bare
  · next inside =>
    rw [if_pos inside, bare] at here
    cases here
  · next behind =>
    rw [if_neg behind, bare] at here
    cases here

def PiecesAgree (cfg : Config) (st : SymbolTable) (tokens₁ tokens₂ : Tokens) : Prop :=
  ∀ (junk₁ junk₂ junk : Inst) (filename₁ filename₂ filename : Option String) (p₁ p₂ : Parser) (tokens : Tokens),
    parse (cfg.withJunk junk₁) tokens₁ (newInsts filename₁) (some st) = .ok (.ok, p₁) →
    parse (cfg.withJunk junk₂) tokens₂ (newInsts filename₂) p₁.st = .ok (.ok, p₂) →
    tokens.cell = tokens₁.cell ++ tokens₂.cell →
    ∃ p, parse (cfg.withJunk junk) tokens (newInsts filename) (some st) = .ok (.ok, p) ∧ p.st = p₂.st ∧
      List.Forall₂ Inst.Matches p.insts.cell (cpyInsts p₁.insts p₂.insts).cell

theorem parse_joined {cfg : Config} {st : SymbolTable} {tokens₁ tokens₂ tokens : Tokens} {junk₁ junk₂ : Inst}
    {filename₁ filename₂ : Option String} {p₁ p₂ : Parser}
    (first : parse (cfg.withJunk junk₁) tokens₁ (newInsts filename₁) (some st) = .ok (.ok, p₁))
    (second : parse (cfg.withJunk junk₂) tokens₂ (newInsts filename₂) p₁.st = .ok (.ok, p₂))
    (joined : tokens.cell = tokens₁.cell ++ tokens₂.cell) (junk : Inst) (filename : Option String) :
    ∃ p, parse (cfg.withJunk junk) tokens (newInsts filename) (some st) = .ok (.ok, p) ∧ p.st = p₂.st ∧
      (List.Forall₂ Inst.Matches p.insts.cell (cpyInsts p₁.insts p₂.insts).cell ↔
        emittedFrom (cfg.withJunk junk) 0 (clausesOf tokens₁.cell ++ clausesOf tokens₂.cell) =
          emittedFrom (cfg.withJunk junk₁) 0 (clausesOf tokens₁.cell) ++
            emittedFrom (cfg.withJunk junk₂) 0 (clausesOf tokens₂.cell)) := by
  obtain ⟨⟨mid, accepts₁, table₁⟩, fills₁⟩ := accepts_of_parse first
  rw [table₁] at second
  obtain ⟨⟨last, accepts₂, table₂⟩, fills₂⟩ := accepts_of_parse second
  have accepts := accepts₁.append accepts₂
  rw [← joined] at accepts
  obtain ⟨p, parsed⟩ := accepts.parse junk filename
  obtain ⟨⟨last', accepts', table⟩, fills⟩ := accepts_of_parse parsed
  refine ⟨p, parsed, ?_, ?_⟩
  · rw [table, table₂, accepts'.unique accepts]
  · have clauses := (clausesOf_append accepts₁.nothing accepts₂.nothing).1
    rw [← clauses, ← joined]
    refine matches_iff fills.items ?_ ?_
    · rw [cpyInsts, List.map_append, fills₁.items, fills₂.items, List.map_append]
    · rw [cpyInsts, List.map_append, fills.placed, fills₁.placed, fills₂.placed, joined, placesOf_append,
        List.map_append]

section agree

variable {cfg : Config} {st mid last : SymbolTable} {tokens₁ tokens₂ : Tokens}

theorem PiecesAgree.given (agree : PiecesAgree cfg st tokens₁ tokens₂) (accepts₁ : Accepts cfg st tokens₁.cell mid)
    (accepts₂ : Accepts cfg mid tokens₂.cell last) {idx : Nat} {ident : Ident}
    (bare : (emitting (clausesOf tokens₁.cell ++ clausesOf tokens₂.cell))[idx]? = some (.call ident)) :
    idx < cfg.instBlockSize := by
  by_contra outside
  obtain ⟨p₁, first⟩ := accepts₁.parse Inst.zero none
  obtain ⟨⟨mid', accepts₁', table⟩, -⟩ := accepts_of_parse first
  obtain ⟨p₂, second⟩ := accepts₂.parse Inst.zero none
  rw [accepts₁.unique accepts₁', ← table] at second
  let tokens : Tokens := { cell := tokens₁.cell ++ tokens₂.cell, filename := none, cur := Pos.zero }
  have joined : tokens.cell = tokens₁.cell ++ tokens₂.cell := rfl
  let junk : Inst := { Inst.zero with nargs := 1 }
  obtain ⟨p, parsed, -, matches_⟩ := agree Inst.zero Inst.zero junk none none none p₁ p₂ tokens first second joined
  obtain ⟨p', parsed', -, iff⟩ := parse_joined first second joined junk none
  rw [parsed] at parsed'
  cases parsed'
  exact emittedFrom_pieces_differ cfg bare (Nat.not_lt.mp outside) (iff.mp matches_)

/-- Two accepted lists can be parsed as one exactly if no `call` without its number is beyond the
first block of instructions. -/
theorem piecesAgree_iff {filename₁ filename₂ : Option String} {p₁ p₂ : Parser}
    (first : parse cfg tokens₁ (newInsts filename₁) (some st) = .ok (.ok, p₁))
    (second : parse cfg tokens₂ (newInsts filename₂) p₁.st = .ok (.ok, p₂)) :
    PiecesAgree cfg st tokens₁ tokens₂ ↔
      ∀ idx ident, (emitting (clausesOf (tokens₁.cell ++ tokens₂.cell)))[idx]? = some (.call ident) →
        idx < cfg.instBlockSize := by
  have own : cfg = cfg.withJunk cfg.junkInst := rfl
  rw [own] at first second
  obtain ⟨⟨mid, accepts₁, table⟩, -⟩ := accepts_of_parse first
  rw [table] at second
  obtain ⟨⟨last, accepts₂, -⟩, -⟩ := accepts_of_parse second
  rw [(clausesOf_append accepts₁.nothing accepts₂.nothing).1]
  constructor
  · exact fun agree idx ident bare => agree.given accepts₁ accepts₂ bare
  · intro given junk₁ junk₂ junk f₁ f₂ f q₁ q₂ tokens first second joined
    obtain ⟨p, parsed, table, iff⟩ := parse_joined first second joined junk f
    exact ⟨p, parsed, table, iff.mpr (emittedFrom_pieces cfg given junk₁ junk₂ junk)⟩

end agree

theorem piecesAgree_loop :
    let token (t : TokenCode) (uilit : UInt16) (name : String) : Token :=
      { t := t, pos := Pos.zero, uilit := uilit, ident := Ident.ofString name }
    let tokens₁ : Tokens :=
      { cell := [token .func 0 "", token .ident 0 "f", token .uint 1 "", token .ret 0 ""]
        filename := none
        cur := Pos.zero }
    let tokens₂ : Tokens :=
      { cell := [token .label 0 "", token .ident 0 "top", token .goto 0 "", token .ident 0 "top"]
        filename := none
        cur := Pos.zero }
    PiecesAgree .unitTests (newSt .unitTests) tokens₁ tokens₂ := by
  intro token tokens₁ tokens₂
  have both : ((parse .unitTests tokens₁ (newInsts none) (some (newSt .unitTests))).bind fun result =>
      parse .unitTests tokens₂ (newInsts none) result.2.st).map Prod.fst = .ok .ok := by
    decide +kernel
  obtain ⟨p₁, first⟩ : ∃ p₁, parse .unitTests tokens₁ (newInsts none) (some (newSt .unitTests)) = .ok (.ok, p₁) :=
    except_of_map_fst (by decide +kernel)
  rw [first] at both
  obtain ⟨p₂, second⟩ : ∃ p₂, parse .unitTests tokens₂ (newInsts none) p₁.st = .ok (.ok, p₂) :=
    except_of_map_fst both
  refine (piecesAgree_iff first second).mpr fun idx ident bare => ?_
  have member := List.mem_of_getElem? bare
  rw [show emitting (clausesOf (tokens₁.cell ++ tokens₂.cell)) =
    [.item (.operation .ret), .item (.jump .goto (Ident.ofString "top"))] by decide +kernel] at member
  simp at member

theorem emitting_operations (op : Operation) (count : Nat) :
    emitting (List.replicate count (.item (.operation op))) = List.replicate count (.item (.operation op)) :=
  List.filter_replicate_of_pos rfl

theorem declarations_operations (op : Operation) (count addr : Nat) :
    declarations addr (List.replicate count (.item (.operation op))) = [] := by
  induction count generalizing addr with
  | zero => rfl
  | succ count ih => exact ih (addr + 1)

theorem accepts_operations (cfg : Config) (st : SymbolTable) (count : Nat) {it : Token} {op : Operation}
    (keyword : it.lexeme = .keyword op.token) :
    clausesOf (List.replicate count it) = List.replicate count (.item (.operation op)) ∧
      Accepts cfg st (List.replicate count it) (st.counting (st.numInst + count)) := by
  have spelled : (List.replicate count it).map Token.lexeme =
      (List.replicate count (Item.operation op)).flatMap Item.lexemes := by
    rw [List.map_replicate, List.flatMap_replicate, keyword]
    exact List.flatten_replicate_singleton.symm
  have read := readClauses_items (List.replicate count (Item.operation op)) (List.replicate count it).length
  rw [← spelled, List.length_map] at read
  have clauses : clausesOf (List.replicate count it) = List.replicate count (.item (.operation op)) :=
    (congrArg Prod.fst (read le_rfl)).trans List.map_replicate
  refine ⟨clauses, congrArg Prod.snd (read le_rfl), st, ?_, ?_⟩
  · rw [clauses, declarations_operations]
    rfl
  · rw [clauses, emitting_operations, List.length_replicate]

/-- A block of `add`, and then `call f`, whose number is missing. -/
theorem bare_call_disagrees :
    let token (t : TokenCode) (name : String) : Token :=
      { t := t, pos := Pos.zero, uilit := 0, ident := Ident.ofString name }
    let tokens₁ : Tokens := { cell := List.replicate 0x1000 (token .add ""), filename := none, cur := Pos.zero }
    let tokens₂ : Tokens := { cell := [token .call "", token .ident "f"], filename := none, cur := Pos.zero }
    ¬PiecesAgree .release (newSt .release) tokens₁ tokens₂ := by
  intro token tokens₁ tokens₂ agree
  obtain ⟨clauses, accepts₁⟩ := accepts_operations .release (newSt .release) 0x1000
    (show (token .add "").lexeme = .keyword Operation.add.token by decide)
  have clauses₂ : clausesOf tokens₂.cell = [.call (Ident.ofString "f")] := by
    decide
  have accepts₂ : Accepts .release ((newSt .release).counting ((newSt .release).numInst + 0x1000)) tokens₂.cell _ :=
    ⟨by decide, _, by rw [clauses₂]; rfl, rfl⟩
  have bare : (emitting (clausesOf tokens₁.cell ++ clausesOf tokens₂.cell))[0x1000]? =
      some (.call (Ident.ofString "f")) := by
    rw [emitting_append, clauses, emitting_operations, clauses₂,
      List.getElem?_append_right (by rw [List.length_replicate]), List.length_replicate]
    rfl
  exact absurd (agree.given accepts₁ accepts₂ bare) (by decide)

end Hvme
