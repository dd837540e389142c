import Hvme.Parser.Language
import Hvme.Program.Erasing

set_option autoImplicit false

namespace Hvme

def Token.unplaced (it : Token) : Token := { it with pos := Pos.zero }

@[simp] theorem Token.unplaced_t (it : Token) : it.unplaced.t = it.t := rfl

@[simp] theorem Token.unplaced_uilit (it : Token) : it.unplaced.uilit = it.uilit := rfl

@[simp] theorem Token.unplaced_ident (it : Token) : it.unplaced.ident = it.ident := rfl

@[simp] theorem Token.unplaced_none : noneToken.unplaced = noneToken := rfl

def Inst.unplaced (inst : Inst) : Inst := { inst with pos := Pos.zero }

@[simp] theorem Inst.unplaced_unplaced (inst : Inst) : inst.unplaced.unplaced = inst.unplaced := rfl

def TokenStream.unplaced (its : TokenStream) : TokenStream :=
  { its with tokens := its.tokens.map Token.unplaced }

@[simp] theorem itsLh_unplaced (its : TokenStream) : itsLh its.unplaced = (itsLh its).unplaced := by
  by_cases inside : its.idx < its.len
  · simp only [itsLh, TokenStream.unplaced, inside, if_true, List.getD_eq_getElem?_getD, List.getElem?_map]
    cases its.tokens[its.idx]? <;> rfl
  · simp [itsLh, TokenStream.unplaced, inside]

@[simp] theorem itsNext_unplaced_snd (its : TokenStream) :
    (itsNext its.unplaced).2 = (itsNext its).2.unplaced := by
  by_cases inside : its.idx < its.len <;> simp [itsNext, TokenStream.unplaced, inside]

@[simp] theorem TokenStream.unplaced_unplaced (its : TokenStream) : its.unplaced.unplaced = its.unplaced := by
  simp [TokenStream.unplaced, Function.comp_def, Token.unplaced]

def Parsed.unplaced (parsed : Parsed) : Parsed where
  res := parsed.res
  its := parsed.its.unplaced
  inst := parsed.inst.unplaced
  diags := []

section parsers

variable (its : TokenStream) (inst : Inst) (filename : Option String)

theorem mapInst_unplaced : (mapInst its.unplaced inst).unplaced = (mapInst its inst).unplaced := by
  simp [mapInst, Parsed.unplaced, Inst.unplaced]

theorem memoryInst_unplaced :
    (memoryInst its.unplaced inst filename).unplaced = (memoryInst its inst filename).unplaced := by
  simp only [memoryInst, itsNext_fst, itsNext_unplaced_snd, itsLh_unplaced, Token.unplaced_t,
    Token.unplaced_uilit]
  split
  · split <;> simp [Parsed.unplaced, Inst.unplaced]
  · simp [Parsed.unplaced, Inst.unplaced]

theorem gotoInst_unplaced :
    (gotoInst its.unplaced inst filename).unplaced = (gotoInst its inst filename).unplaced := by
  simp only [gotoInst, itsNext_fst, itsNext_unplaced_snd, itsLh_unplaced, Token.unplaced_t,
    Token.unplaced_ident]
  split <;> simp [Parsed.unplaced, Inst.unplaced]

theorem callInst_unplaced :
    (callInst its.unplaced inst filename).unplaced = (callInst its inst filename).unplaced := by
  simp only [callInst, itsNext_fst, itsNext_unplaced_snd, itsLh_unplaced, Token.unplaced_t,
    Token.unplaced_uilit, Token.unplaced_ident]
  split
  · split <;> simp [Parsed.unplaced, Inst.unplaced]
  · simp [Parsed.unplaced, Inst.unplaced]

theorem parseFn_unplaced (t : TokenCode) :
    (parseFn t its.unplaced inst filename).unplaced = (parseFn t its inst filename).unplaced := by
  unfold parseFn
  split
  · exact callInst_unplaced its inst filename
  · exact gotoInst_unplaced its inst filename
  · exact gotoInst_unplaced its inst filename
  · exact memoryInst_unplaced its inst filename
  · exact memoryInst_unplaced its inst filename
  · exact mapInst_unplaced its inst

end parsers

def Declared.unplaced (d : Declared) : Declared where
  res := d.res
  its := d.its.unplaced
  st := d.st
  diags := []
  warnings := d.warnings

section declarations

variable (cfg : Config) (its : TokenStream) (st : Option SymbolTable) (numInst : Nat)
  (filename : Option String)

theorem enterSym_unplaced (key : SymKey) (val : SymVal) (pos pos' : Pos) (diags diags' : List Diag) :
    (enterSym cfg its.unplaced st key val pos filename diags).map Declared.unplaced =
      (enterSym cfg its st key val pos' filename diags').map Declared.unplaced := by
  cases st with
  | none => simp [enterSym, Except.map, Declared.unplaced]
  | some st =>
    simp only [enterSym]
    rcases insertSt cfg st key val with fault | ⟨_ | _, next⟩ <;> simp [Except.map, Declared.unplaced]

theorem labelMeta_unplaced :
    (labelMeta cfg its.unplaced st numInst filename).map Declared.unplaced =
      (labelMeta cfg its st numInst filename).map Declared.unplaced := by
  simp only [labelMeta, itsNext_fst, itsNext_unplaced_snd, itsLh_unplaced, Token.unplaced_t,
    Token.unplaced_ident]
  split
  · rfl
  · split
    · exact enterSym_unplaced ..
    · simp [Except.map, Declared.unplaced]

theorem functionInst_unplaced :
    (functionInst cfg its.unplaced st numInst filename).map Declared.unplaced =
      (functionInst cfg its st numInst filename).map Declared.unplaced := by
  simp only [functionInst, itsNext_fst, itsNext_unplaced_snd, itsLh_unplaced, Token.unplaced_t,
    Token.unplaced_ident, Token.unplaced_uilit]
  split
  · split <;> exact enterSym_unplaced ..
  · simp [Except.map, Declared.unplaced]

end declarations

def Insts.unplaced (insts : Insts) : Insts := { insts with cell := insts.cell.map Inst.unplaced }

def Parser.unplaced (p : Parser) : Parser where
  its := p.its.unplaced
  insts := p.insts.unplaced
  st := p.st
  diags := []
  warnings := p.warnings

abbrev unplacedResult (result : Except Fault (ParseResult × Parser)) : Except Fault (ParseResult × Parser) :=
  result.map (Prod.map id Parser.unplaced)

@[simp] theorem Insts.length_unplaced (insts : Insts) : insts.unplaced.cell.length = insts.cell.length :=
  List.length_map ..

@[simp] theorem Insts.nextCell_unplaced (cfg : Config) (insts : Insts) :
    insts.unplaced.nextCell cfg = insts.nextCell cfg := by
  simp only [Insts.nextCell, Insts.length_unplaced]

@[simp] theorem Insts.unplaced_unplaced (insts : Insts) : insts.unplaced.unplaced = insts.unplaced := by
  simp [Insts.unplaced]

@[simp] theorem Parser.unplaced_unplaced (p : Parser) : p.unplaced.unplaced = p.unplaced := by
  simp [Parser.unplaced]

theorem Parser.declare_unplaced (p : Parser) {entered entered' : Except Fault Declared}
    (alike : entered.map Declared.unplaced = entered'.map Declared.unplaced) :
    unplacedResult (p.unplaced.declare entered) = unplacedResult (p.declare entered') := by
  cases entered with
  | error fault =>
    cases entered' with
    | error fault' =>
      cases alike
      rfl
    | ok d' => cases alike
  | ok d =>
    cases entered' with
    | error fault' => cases alike
    | ok d' =>
      have same : d.unplaced = d'.unplaced := Except.ok.inj alike
      obtain ⟨res, its, st, -, warnings⟩ := Declared.mk.inj same
      simp [unplacedResult, Except.map, Parser.declare, Parser.unplaced, res, its, st, warnings]

theorem parseStep_unplaced (cfg : Config) (filename : Option String) (stNumInst : Nat) (p : Parser) :
    unplacedResult (parseStep cfg filename stNumInst p.unplaced) =
      unplacedResult (parseStep cfg filename stNumInst p) := by
  have its : p.unplaced.its = p.its.unplaced := rfl
  have insts : p.unplaced.insts = p.insts.unplaced := rfl
  have st : p.unplaced.st = p.st := rfl
  simp only [parseStep, its, insts, st, itsLh_unplaced, Token.unplaced_t, Insts.length_unplaced,
    Insts.nextCell_unplaced]
  split
  · simp [unplacedResult, Except.map, Parser.unplaced]
  · split
    · exact p.declare_unplaced (labelMeta_unplaced ..)
    · exact p.declare_unplaced (functionInst_unplaced ..)
    · have same := parseFn_unplaced p.its (p.insts.nextCell cfg) filename (itsLh p.its).t
      obtain ⟨res, its, inst, -⟩ := Parsed.mk.inj same
      have placed : ∀ (inst : Inst) (filename : Option String),
          Inst.unplaced { inst with pos := { inst.pos with filename := filename } } = inst.unplaced :=
        fun _ _ => rfl
      simp only [unplacedResult, Except.map, Prod.map, id, Parser.unplaced, Insts.unplaced, List.map_append,
        List.map_singleton, placed, res, its, inst]
      simp

theorem parseLoop_unplaced (cfg : Config) (filename : Option String) (stNumInst fuel : Nat) (p : Parser) :
    unplacedResult (parseLoop cfg filename stNumInst fuel p.unplaced) =
      unplacedResult (parseLoop cfg filename stNumInst fuel p) := by
  induction fuel generalizing p with
  | zero => simp [parseLoop, unplacedResult, Except.map]
  | succ fuel ih =>
    have step := parseStep_unplaced cfg filename stNumInst p
    rw [parseLoop, parseLoop]
    show unplacedResult (if p.its.idx < p.its.len then _ else _) = _
    split
    · generalize parseStep cfg filename stNumInst p.unplaced = result at step
      generalize parseStep cfg filename stNumInst p = result' at step
      rcases result with fault | ⟨_ | _, next⟩ <;> rcases result' with fault' | ⟨_ | _, next'⟩ <;>
        simp only [unplacedResult, Except.map, Prod.map, id, Except.ok.injEq, Except.error.injEq, Prod.mk.injEq,
          reduceCtorEq, false_and, true_and] at step ⊢
      · exact step
      · exact step
      · have resumed := (ih next).symm
        rw [step, ih next'] at resumed
        exact resumed
    · simp [unplacedResult, Except.map]

theorem Parser.finish_unplaced (p : Parser) : p.finish.unplaced = p.unplaced.finish := by
  simp [Parser.finish, Parser.unplaced]

theorem parse_unplaced (cfg : Config) (tokens : Tokens) (insts : Insts) (st : Option SymbolTable) :
    unplacedResult (parse cfg { tokens with cell := tokens.cell.map Token.unplaced } insts st) =
      unplacedResult (parse cfg tokens insts st) := by
  let start := Parser.start tokens insts st
  let start' := Parser.start { tokens with cell := tokens.cell.map Token.unplaced } insts st
  have same : start'.unplaced = start.unplaced := by
    simp [start', start, Parser.start, Parser.unplaced, TokenStream.unplaced, Function.comp_def, Token.unplaced]
  have alike := parseLoop_unplaced cfg tokens.filename (st.elim 0 SymbolTable.numInst) tokens.cell.length start'
  rw [same, parseLoop_unplaced] at alike
  rw [parse_loop, parse_loop, List.length_map]
  generalize parseLoop _ _ _ _ start = result at alike ⊢
  generalize parseLoop _ _ _ _ start' = result' at alike ⊢
  rcases result with fault | ⟨_ | _, p⟩ <;> rcases result' with fault' | ⟨_ | _, p'⟩ <;>
    simp only [unplacedResult, Except.map, Prod.map, id, Except.ok.injEq, Except.error.injEq, Prod.mk.injEq,
      reduceCtorEq, false_and, true_and] at alike ⊢
  · exact alike.symm
  · exact alike.symm
  · rw [p.finish_unplaced, alike, p'.finish_unplaced]

def Parser.program (p : Parser) : List Inst × Option SymbolTable := (p.insts.cell.map Inst.unplaced, p.st)

def parsedProgram (result : Except Fault (ParseResult × Parser)) :
    Except Fault (ParseResult × List Inst × Option SymbolTable) :=
  result.map (Prod.map id Parser.program)

theorem parsedProgram_unplaced (result : Except Fault (ParseResult × Parser)) :
    parsedProgram (unplacedResult result) = parsedProgram result := by
  rcases result with fault | ⟨res, p⟩
  · rfl
  · simp [parsedProgram, unplacedResult, Except.map, Parser.program, Parser.unplaced, Insts.unplaced]

theorem parsedProgram_erase (result : Except Fault (ParseResult × Parser)) :
    parsedProgram (result.map (Prod.map id Parser.erase)) = parsedProgram result := by
  rcases result with fault | ⟨res, p⟩ <;> rfl

theorem parse_lexemes (cfg : Config) {tokens tokens' : Tokens} (insts : Insts) (st : Option SymbolTable)
    (filename : tokens.filename = tokens'.filename)
    (lexemes : tokens.cell.map Token.lexeme = tokens'.cell.map Token.lexeme) :
    parsedProgram (parse cfg tokens insts st) = parsedProgram (parse cfg tokens' insts st) := by
  have views := @parse_views cfg { tokens with cell := tokens.cell.map Token.unplaced }
    { tokens' with cell := tokens'.cell.map Token.unplaced } insts st filename ?_
  · rw [← parsedProgram_unplaced, ← parse_unplaced, parsedProgram_unplaced, ← parsedProgram_erase, views,
      parsedProgram_erase, ← parsedProgram_unplaced, parse_unplaced, parsedProgram_unplaced]
  · have view (it : Token) : it.unplaced.view = { lexeme := it.lexeme, pos := Pos.zero } := rfl
    simp only [List.map_map, Function.comp_def, view]
    rw [← Function.comp_def (fun lexeme => ({ lexeme := lexeme, pos := Pos.zero } : View)) Token.lexeme,
      ← List.map_map, lexemes, List.map_map]

end Hvme
