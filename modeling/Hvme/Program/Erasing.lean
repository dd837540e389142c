import Hvme.Model.Parse
import Hvme.Scanner.Lexing

set_option autoImplicit false

namespace Hvme

def Token.erase (it : Token) : Token where
  t := it.t
  pos := it.pos
  uilit := if it.t = .uint then it.uilit else 0
  ident := if it.t = .ident then it.ident else Ident.ofBuf []

@[simp] theorem Token.erase_t (it : Token) : it.erase.t = it.t := rfl

@[simp] theorem Token.erase_pos (it : Token) : it.erase.pos = it.pos := rfl

theorem Token.erase_uilit {it : Token} (t : it.t = .uint) : it.erase.uilit = it.uilit := if_pos t

theorem Token.erase_ident {it : Token} (t : it.t = .ident) : it.erase.ident = it.ident := if_pos t

@[simp] theorem Token.erase_none : noneToken.erase = noneToken := rfl

theorem Token.erase_eq_of_view {it it' : Token} (same : it.view = it'.view) : it.erase = it'.erase := by
  have lexeme : it.lexeme = it'.lexeme := congrArg View.lexeme same
  have pos : it.pos = it'.pos := congrArg View.pos same
  by_cases number : it.t = .uint
  · rw [Token.lexeme_of_uint number] at lexeme
    obtain ⟨t, uilit⟩ := (Token.lexeme_num_iff it' it.uilit).mp lexeme.symm
    simp [Token.erase, number, t, pos, uilit]
  · by_cases name : it.t = .ident
    · rw [Token.lexeme_of_ident name] at lexeme
      obtain ⟨t, ident⟩ := (Token.lexeme_name_iff it' it.ident).mp lexeme.symm
      simp [Token.erase, name, t, pos, ident]
    · rw [Token.lexeme_of_keyword number name] at lexeme
      have t := Token.lexeme_keyword lexeme.symm
      simp [Token.erase, number, name, t, pos]

theorem map_erase_of_views {tokens tokens' : List Token}
    (same : tokens.map Token.view = tokens'.map Token.view) :
    tokens.map Token.erase = tokens'.map Token.erase := by
  induction tokens generalizing tokens' with
  | nil =>
    rw [List.map_eq_nil_iff.mp same.symm]
  | cons it tokens ih =>
    cases tokens' with
    | nil => cases same
    | cons it' tokens' =>
      obtain ⟨first, rest⟩ := List.cons.inj same
      rw [List.map_cons, List.map_cons, Token.erase_eq_of_view first, ih rest]

@[simp] theorem tokenStr_erase (it : Token) : tokenStr it.erase = tokenStr it := by
  cases t : it.t <;> simp [tokenStr, t, Token.erase]

@[simp] theorem displayPos_erase (it prev : Token) (filename : Option String) :
    displayPos it.erase prev.erase filename = displayPos it prev filename := by
  simp [displayPos]

def TokenStream.erase (its : TokenStream) : TokenStream :=
  { its with tokens := its.tokens.map Token.erase }

@[simp] theorem itsLh_erase (its : TokenStream) : itsLh its.erase = (itsLh its).erase := by
  by_cases inside : its.idx < its.len
  · simp only [itsLh, TokenStream.erase, inside, if_true, List.getD_eq_getElem?_getD, List.getElem?_map]
    cases its.tokens[its.idx]? <;> rfl
  · simp [itsLh, TokenStream.erase, inside]

@[simp] theorem itsNext_fst (its : TokenStream) : (itsNext its).1 = itsLh its := rfl

@[simp] theorem itsNext_erase_snd (its : TokenStream) : (itsNext its.erase).2 = (itsNext its).2.erase := by
  by_cases inside : its.idx < its.len <;> simp [itsNext, TokenStream.erase, inside]

@[simp] theorem itsSlice_erase (its : TokenStream) (ol orr : Nat) :
    itsSlice its.erase ol orr = (itsSlice its ol orr).erase := rfl

section messages

variable (its : TokenStream) (expectation : String) (filename : Option String)

@[simp] theorem printExpect3Err_erase :
    printExpect3Err its.erase expectation filename = printExpect3Err its expectation filename := by
  simp [printExpect3Err]

@[simp] theorem printExpect2Err_erase :
    printExpect2Err its.erase expectation filename = printExpect2Err its expectation filename := by
  simp [printExpect2Err]

@[simp] theorem printIdentErr_erase :
    printIdentErr its.erase filename = printIdentErr its filename := by
  simp [printIdentErr]

@[simp] theorem printTokenErr_erase (it : Token) :
    printTokenErr it.erase filename = printTokenErr it filename := by
  simp [printTokenErr]

end messages

def Parsed.erase (parsed : Parsed) : Parsed := { parsed with its := parsed.its.erase }

section parsers

variable (its : TokenStream) (inst : Inst) (filename : Option String)

theorem mapInst_erase : mapInst its.erase inst = (mapInst its inst).erase := by
  simp [mapInst, Parsed.erase]

theorem memoryInst_erase : memoryInst its.erase inst filename = (memoryInst its inst filename).erase := by
  simp only [memoryInst, itsNext_fst, itsNext_erase_snd, itsLh_erase, Token.erase_t, Token.erase_pos]
  split
  · split
    · next number =>
      simp [Token.erase_uilit number, Parsed.erase]
    · simp [Parsed.erase]
  · simp [Parsed.erase]

theorem gotoInst_erase : gotoInst its.erase inst filename = (gotoInst its inst filename).erase := by
  simp only [gotoInst, itsNext_fst, itsNext_erase_snd, itsLh_erase, Token.erase_t, Token.erase_pos]
  split
  · next name => simp [Token.erase_ident name, Parsed.erase]
  · simp [Parsed.erase]

theorem callInst_erase : callInst its.erase inst filename = (callInst its inst filename).erase := by
  simp only [callInst, itsNext_fst, itsNext_erase_snd, itsLh_erase, Token.erase_t, Token.erase_pos]
  split
  · next name =>
    split
    · next number => simp [Token.erase_ident name, Token.erase_uilit number, Parsed.erase]
    · simp [Token.erase_ident name, Parsed.erase]
  · simp [Parsed.erase]

theorem parseFn_erase (t : TokenCode) :
    parseFn t its.erase inst filename = (parseFn t its inst filename).erase := by
  unfold parseFn
  split
  · exact callInst_erase its inst filename
  · exact gotoInst_erase its inst filename
  · exact gotoInst_erase its inst filename
  · exact memoryInst_erase its inst filename
  · exact memoryInst_erase its inst filename
  · exact mapInst_erase its inst

end parsers

def Declared.erase (d : Declared) : Declared := { d with its := d.its.erase }

section declarations

variable (cfg : Config) (its : TokenStream) (st : Option SymbolTable) (numInst : Nat)
  (filename : Option String)

theorem enterSym_erase (key : SymKey) (val : SymVal) (pos : Pos) (diags : List Diag) :
    enterSym cfg its.erase st key val pos filename diags =
      (enterSym cfg its st key val pos filename diags).map Declared.erase := by
  cases st with
  | none => rfl
  | some st =>
    simp only [enterSym]
    rcases insertSt cfg st key val with fault | ⟨_ | _, next⟩ <;> rfl

theorem labelMeta_erase :
    labelMeta cfg its.erase st numInst filename =
      (labelMeta cfg its st numInst filename).map Declared.erase := by
  simp only [labelMeta, itsNext_fst, itsNext_erase_snd, itsLh_erase, Token.erase_t, Token.erase_pos]
  split
  · rfl
  · split
    · next name => rw [Token.erase_ident name, enterSym_erase]
    · rw [itsSlice_erase, printIdentErr_erase]
      rfl

theorem functionInst_erase :
    functionInst cfg its.erase st numInst filename =
      (functionInst cfg its st numInst filename).map Declared.erase := by
  simp only [functionInst, itsNext_fst, itsNext_erase_snd, itsLh_erase, Token.erase_t, Token.erase_pos]
  split
  · next name =>
    split
    · next number => rw [Token.erase_ident name, Token.erase_uilit number, enterSym_erase]
    · rw [Token.erase_ident name, itsSlice_erase, printExpect3Err_erase, enterSym_erase]
  · rw [itsSlice_erase, printIdentErr_erase]
    rfl

end declarations

def Parser.erase (p : Parser) : Parser := { p with its := p.its.erase }

theorem Parser.declare_erase (p : Parser) (entered : Except Fault Declared) :
    p.erase.declare (entered.map Declared.erase) = (p.declare entered).map (Prod.map id Parser.erase) := by
  cases entered <;> rfl

theorem parseStep_erase (cfg : Config) (filename : Option String) (stNumInst : Nat) (p : Parser) :
    parseStep cfg filename stNumInst p.erase =
      (parseStep cfg filename stNumInst p).map (Prod.map id Parser.erase) := by
  have its : p.erase.its = p.its.erase := rfl
  simp only [parseStep, its, itsLh_erase, Token.erase_t]
  split
  · rw [printTokenErr_erase]
    rfl
  · split
    · rw [← Parser.declare_erase, ← labelMeta_erase]
      rfl
    · rw [← Parser.declare_erase, ← functionInst_erase]
      rfl
    · rw [parseFn_erase]
      rfl

theorem parseLoop_erase (cfg : Config) (filename : Option String) (stNumInst fuel : Nat) (p : Parser) :
    parseLoop cfg filename stNumInst fuel p.erase =
      (parseLoop cfg filename stNumInst fuel p).map (Prod.map id Parser.erase) := by
  induction fuel generalizing p with
  | zero => rfl
  | succ fuel ih =>
    rw [parseLoop, parseLoop, parseStep_erase]
    show (if p.its.idx < p.its.len then _ else _) = _
    split
    · rcases parseStep cfg filename stNumInst p with fault | ⟨_ | _, next⟩
      · rfl
      · rfl
      · exact ih next
    · rfl

theorem parse_views (cfg : Config) {tokens tokens' : Tokens} (insts : Insts) (st : Option SymbolTable)
    (filename : tokens.filename = tokens'.filename)
    (views : tokens.cell.map Token.view = tokens'.cell.map Token.view) :
    (parse cfg tokens insts st).map (Prod.map id Parser.erase) =
      (parse cfg tokens' insts st).map (Prod.map id Parser.erase) := by
  have erased : ∀ tokens : Tokens, (parse cfg tokens insts st).map (Prod.map id Parser.erase) =
      parse cfg { tokens with cell := tokens.cell.map Token.erase } insts st := by
    intro tokens
    let start : Parser :=
      { its := { tokens := tokens.cell, idx := 0, len := tokens.cell.length }, insts := insts, st := st,
        diags := [], warnings := [] }
    have loop := parseLoop_erase cfg tokens.filename (st.elim 0 SymbolTable.numInst) tokens.cell.length start
    simp only [start, Parser.erase, TokenStream.erase] at loop
    simp only [parse, List.length_map, loop]
    rcases parseLoop cfg tokens.filename (st.elim 0 SymbolTable.numInst) tokens.cell.length _ with
      fault | ⟨_ | _, p⟩ <;> rfl
  have cur : ∀ tokens : Tokens, parse cfg tokens insts st = parse cfg { tokens with cur := Pos.zero } insts st :=
    fun _ => rfl
  rw [erased, erased, map_erase_of_views views, cur, filename, ← cur]
  rfl

end Hvme
