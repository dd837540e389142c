import Hvme.Model.Scan
import Hvme.Model.St

set_option autoImplicit false

namespace Hvme

structure Insts where
  cell : List Inst
  filename : Option String
deriving DecidableEq, Repr

def newInsts (filename : Option String) : Insts where
  cell := []
  filename := filename

def cpyInsts (dest src : Insts) : Insts := { dest with cell := dest.cell ++ src.cell }

/-- What the next cell holds before it is filled: zero in the first block, which is
`calloc`ed, and anything in the blocks that `realloc` adds. -/
def Insts.nextCell (cfg : Config) (insts : Insts) : Inst :=
  if insts.cell.length < cfg.instBlockSize then Inst.zero else cfg.junkInst

def decimal (n : Nat) : List Byte := (Nat.toDigits 10 n).map fun digit => digit.toNat.toUInt8

def instStrBuf : Nat := 40

/-- `snprintf` keeps what fits the buffer with its terminator. -/
def snprintf (size : Nat) (text : List Byte) : List Byte := text.take (size - 1)

def Segment.name : Segment → String
  | .arg => "argument"
  | .loc => "local"
  | .stat => "static"
  | .const => "constant"
  | .this => "this"
  | .that => "that"
  | .ptr => "pointer"
  | .tmp => "temp"

def InstCode.name : InstCode → String
  | .none => "IC_NONE"
  | .push => "push"
  | .pop => "pop"
  | .add => "add"
  | .sub => "sub"
  | .neg => "neg"
  | .and => "and"
  | .or => "or"
  | .not => "not"
  | .eq => "eq"
  | .gt => "gt"
  | .lt => "lt"
  | .goto => "goto"
  | .ifGoto => "if-goto"
  | .call => "call"
  | .ret => "return"
  | .builtinPrintChar => "<builtin print char>"
  | .builtinPrintNum => "<builtin print num>"
  | .builtinPrintStr => "<builtin print str>"
  | .builtinReadChar => "<builtin read char>"
  | .builtinReadNum => "<builtin read num>"
  | .builtinReadStr => "<builtin read str>"

def instStr (inst : Inst) : List Byte :=
  let code := ascii inst.code.name
  match inst.code with
  | .push | .pop =>
    snprintf instStrBuf (code ++ ascii " " ++ ascii inst.seg.name ++ ascii " " ++ decimal inst.offset.toNat)
  | .goto | .ifGoto => snprintf instStrBuf (code ++ ascii " " ++ inst.ident.chars)
  | .call =>
    snprintf instStrBuf (code ++ ascii " " ++ inst.ident.chars ++ ascii " " ++ decimal inst.nargs.toNat)
  | _ => code

def tokenStrs : List String :=
  ["???", "push", "pop", "argument", "local", "static", "constant", "this", "that", "pointer",
    "temp", "num", "label", "goto", "if-goto", "function", "call", "return",
    "add", "sub", "neg", "eq", "gt", "lt", "and", "or", "not", "ident"]

def tokenStr (it : Token) : String :=
  match it.t with
  | .uint => toString it.uilit
  | .ident => s!"{it.ident.text} (ident)"
  | t => tokenStrs.getD t.val ""

structure TokenStream where
  tokens : List Token
  idx : Nat
  len : Nat

def noneToken : Token where
  t := .none
  pos := Pos.zero
  uilit := 0
  ident := Ident.ofBuf []

def itsLh (its : TokenStream) : Token :=
  if its.idx < its.len then its.tokens.getD its.idx noneToken else noneToken

def itsNext (its : TokenStream) : Token × TokenStream :=
  (itsLh its, if its.idx < its.len then { its with idx := its.idx + 1 } else its)

def itsSlice (its : TokenStream) (ol orr : Nat) : TokenStream where
  tokens := its.tokens
  idx := if ol ≥ its.idx then 0 else its.idx - ol
  len := if orr + its.idx ≤ its.len then orr + its.idx else its.len

def spaces (text : String) : String := String.ofList (List.replicate text.length ' ')

def carets (text : String) : String := String.ofList (List.replicate text.length '^')

def displayPos (it prev : Token) (filename : Option String) : Pos :=
  if it.t = .none then
    { ln := prev.pos.ln, cl := UInt32.ofNat (tokenStr prev).length + prev.pos.cl + 1, filename := filename }
  else { it.pos with filename := filename }

def printMultiDefErr (key : SymKey) (val : SymVal) (pos : Pos) (filename : Option String) : Diag where
  pos := { pos with filename := filename }
  text := s!"multiple definitions of the same {keyTypeName key.type}.\n" ++
    s!"  Won't enter `{key.ident.text}` starting at instruction {val.instAddr + 1}"

def printExpect3Err (its : TokenStream) (expectation : String) (filename : Option String) : Diag :=
  let (first, its) := itsNext its
  let (second, its) := itsNext its
  let (it, _) := itsNext its
  { pos := displayPos it second filename
    text := s!"wrong token, expected {expectation}\n" ++
      s!" | {tokenStr first} {tokenStr second} {tokenStr it}\n" ++
      s!" | {spaces (tokenStr first)} {spaces (tokenStr second)} {carets (tokenStr it)}" }

def printExpect2Err (its : TokenStream) (expectation : String) (filename : Option String) : Diag :=
  let (prev, its) := itsNext its
  let (it, its) := itsNext its
  let (next, _) := itsNext its
  { pos := displayPos it prev filename
    text := s!"wrong token, expected {expectation}\n" ++
      s!" | {tokenStr prev} {tokenStr it} {tokenStr next}\n" ++
      s!" | {spaces (tokenStr prev)} {carets (tokenStr it)}" }

def printTokenErr (it : Token) (filename : Option String) : Diag where
  pos := { it.pos with filename := filename }
  text := s!"wrong start of instruction\n | {tokenStr it}"

def printIdentErr (its : TokenStream) (filename : Option String) : Diag :=
  let (ctrlflow, its) := itsNext its
  let (noIdent, _) := itsNext its
  { pos := displayPos noIdent ctrlflow filename
    text := "wrong token, expected an identifier\n" ++
      s!" | {tokenStr ctrlflow} {tokenStr noIdent}\n" ++
      s!" | {spaces (tokenStr ctrlflow)} {carets (tokenStr noIdent)}" }

inductive ParseResult
  | err
  | ok
deriving DecidableEq, Repr

def InstCode.ofToken : TokenCode → InstCode
  | .push => .push
  | .pop => .pop
  | .add => .add
  | .sub => .sub
  | .neg => .neg
  | .and => .and
  | .or => .or
  | .not => .not
  | .eq => .eq
  | .gt => .gt
  | .lt => .lt
  | .goto => .goto
  | .ifGoto => .ifGoto
  | .call => .call
  | .ret => .ret
  | _ => .none

def Segment.ofToken : TokenCode → Segment
  | .loc => .loc
  | .stat => .stat
  | .const => .const
  | .this => .this
  | .that => .that
  | .ptr => .ptr
  | .tmp => .tmp
  | _ => .arg

structure Parsed where
  res : ParseResult
  its : TokenStream
  inst : Inst
  diags : List Diag

def mapInst (its : TokenStream) (inst : Inst) : Parsed :=
  let (it, its) := itsNext its
  { res := .ok, its := its, inst := { inst with pos := it.pos, code := InstCode.ofToken it.t }, diags := [] }

def memoryInst (its : TokenStream) (inst : Inst) (filename : Option String) : Parsed :=
  let (memIt, its) := itsNext its
  let inst := { inst with pos := memIt.pos, code := InstCode.ofToken memIt.t }
  if TokenCode.arg.val ≤ (itsLh its).t.val ∧ (itsLh its).t.val ≤ TokenCode.tmp.val then
    let (segIt, its) := itsNext its
    let inst := { inst with seg := Segment.ofToken segIt.t }
    if (itsLh its).t = .uint then
      let (offsetIt, its) := itsNext its
      { res := .ok, its := its, inst := { inst with offset := offsetIt.uilit }, diags := [] }
    else
      { res := .err, its := its, inst := inst,
        diags := [printExpect3Err (itsSlice its 2 1) "an offset" filename] }
  else
    { res := .err, its := its, inst := inst,
      diags := [printExpect2Err (itsSlice its 1 1) "a segment" filename] }

def gotoInst (its : TokenStream) (inst : Inst) (filename : Option String) : Parsed :=
  let (gotoIt, its) := itsNext its
  let inst := { inst with pos := gotoIt.pos, code := InstCode.ofToken gotoIt.t }
  if (itsLh its).t = .ident then
    let (identIt, its) := itsNext its
    { res := .ok, its := its, inst := { inst with ident := identIt.ident }, diags := [] }
  else
    { res := .err, its := its, inst := inst, diags := [printIdentErr (itsSlice its 1 1) filename] }

-- The body of `if_goto_inst` is the body of `goto_inst`.
def ifGotoInst (its : TokenStream) (inst : Inst) (filename : Option String) : Parsed :=
  gotoInst its inst filename

def callInst (its : TokenStream) (inst : Inst) (filename : Option String) : Parsed :=
  let (callIt, its) := itsNext its
  let inst := { inst with pos := callIt.pos, code := InstCode.ofToken callIt.t }
  if (itsLh its).t = .ident then
    let (identIt, its) := itsNext its
    let inst := { inst with ident := identIt.ident }
    if (itsLh its).t = .uint then
      let (nargsIt, its) := itsNext its
      { res := .ok, its := its, inst := { inst with nargs := nargsIt.uilit }, diags := [] }
    else
      -- The error is printed and `PARSE_OK` is returned.
      { res := .ok, its := its, inst := inst,
        diags := [printExpect3Err (itsSlice its 2 1) "the number of arguments" filename] }
  else
    { res := .err, its := its, inst := inst, diags := [printIdentErr (itsSlice its 1 1) filename] }

structure Declared where
  res : ParseResult
  its : TokenStream
  st : Option SymbolTable
  diags : List Diag
  warnings : List Warning

/-- Enter a declaration, the tail that `label_meta` and `function_inst` have in common. -/
def enterSym (cfg : Config) (its : TokenStream) (st : Option SymbolTable) (key : SymKey)
    (val : SymVal) (pos : Pos) (filename : Option String) (diags : List Diag) :
    Except Fault Declared :=
  match st with
  | none =>
    .ok { res := .ok, its := its, st := none, diags := diags,
          warnings := [.noSt (key.type = .func) key.ident val.instAddr] }
  | some st =>
    match insertSt cfg st key val with
    | .error fault => .error fault
    | .ok (.exists_, st) =>
      .ok { res := .err, its := its, st := some st,
            diags := diags ++ [printMultiDefErr key val pos filename], warnings := [] }
    | .ok (.ok, st) => .ok { res := .ok, its := its, st := some st, diags := diags, warnings := [] }

def labelMeta (cfg : Config) (its : TokenStream) (st : Option SymbolTable) (numInst : Nat)
    (filename : Option String) : Except Fault Declared :=
  if st = none then .error .assertion
  else
    let (labelIt, its) := itsNext its
    if (itsLh its).t = .ident then
      let (identIt, its) := itsNext its
      enterSym cfg its st (mkKey identIt.ident .label) (mkLbval numInst) labelIt.pos filename []
    else
      .ok { res := .err, its := its, st := st,
            diags := [printIdentErr (itsSlice its 1 1) filename], warnings := [] }

def functionInst (cfg : Config) (its : TokenStream) (st : Option SymbolTable) (numInst : Nat)
    (filename : Option String) : Except Fault Declared :=
  let (funcIt, its) := itsNext its
  if (itsLh its).t = .ident then
    let (identIt, its) := itsNext its
    if (itsLh its).t = .uint then
      let (nlocalsIt, its) := itsNext its
      enterSym cfg its st (mkKey identIt.ident .func) (mkFnval numInst nlocalsIt.uilit) funcIt.pos
        filename []
    else
      -- The error is printed and the function is entered with no locals.
      enterSym cfg its st (mkKey identIt.ident .func) (mkFnval numInst 0) funcIt.pos filename
        [printExpect3Err (itsSlice its 2 1) "the number of locals" filename]
  else
    .ok { res := .err, its := its, st := st,
          diags := [printIdentErr (itsSlice its 1 1) filename], warnings := [] }

/-- The table `parse_fns`; every instruction token but the two declarations has an entry. -/
def parseFn (t : TokenCode) (its : TokenStream) (inst : Inst) (filename : Option String) : Parsed :=
  match t with
  | .call => callInst its inst filename
  | .goto => gotoInst its inst filename
  | .ifGoto => ifGotoInst its inst filename
  | .pop | .push => memoryInst its inst filename
  | _ => mapInst its inst

def isInstToken (t : TokenCode) : Bool :=
  (TokenCode.push.val ≤ t.val && t.val ≤ TokenCode.pop.val) ||
  (TokenCode.add.val ≤ t.val && t.val ≤ TokenCode.not.val) ||
  (TokenCode.label.val ≤ t.val && t.val ≤ TokenCode.ifGoto.val) ||
  (TokenCode.func.val ≤ t.val && t.val ≤ TokenCode.ret.val)

structure Parser where
  its : TokenStream
  insts : Insts
  st : Option SymbolTable
  diags : List Diag
  warnings : List Warning

def Parser.declare (p : Parser) : Except Fault Declared → Except Fault (ParseResult × Parser)
  | .error fault => .error fault
  | .ok d =>
    .ok (d.res, { its := d.its, insts := p.insts, st := d.st, diags := p.diags ++ d.diags,
                  warnings := p.warnings ++ d.warnings })

/-- One iteration of the loop of `parse`; the stream is not at its end. -/
def parseStep (cfg : Config) (filename : Option String) (stNumInst : Nat) (p : Parser) :
    Except Fault (ParseResult × Parser) :=
  let it := itsLh p.its
  if !isInstToken it.t then
    .ok (.err, { p with diags := p.diags ++ [printTokenErr it filename] })
  else
    match it.t with
    | .label => p.declare (labelMeta cfg p.its p.st (p.insts.cell.length + stNumInst) filename)
    | .func => p.declare (functionInst cfg p.its p.st (p.insts.cell.length + stNumInst) filename)
    | t =>
      let parsed := parseFn t p.its (p.insts.nextCell cfg) filename
      let inst := { parsed.inst with pos := { parsed.inst.pos with filename := p.insts.filename } }
      .ok (parsed.res,
        { p with
          its := parsed.its
          insts := { p.insts with cell := p.insts.cell ++ [inst] }
          diags := p.diags ++ parsed.diags })

def parseLoop (cfg : Config) (filename : Option String) (stNumInst : Nat) :
    Nat → Parser → Except Fault (ParseResult × Parser)
  | 0, p => .ok (.ok, p)
  | fuel + 1, p =>
    if p.its.idx < p.its.len then
      match parseStep cfg filename stNumInst p with
      | .error fault => .error fault
      | .ok (.err, p) => .ok (.err, p)
      | .ok (.ok, p) => parseLoop cfg filename stNumInst fuel p
    else .ok (.ok, p)

-- Every iteration consumes a token, so the length of the stream is fuel enough.
def parse (cfg : Config) (tokens : Tokens) (insts : Insts) (st : Option SymbolTable) :
    Except Fault (ParseResult × Parser) :=
  let start : Parser :=
    { its := { tokens := tokens.cell, idx := 0, len := tokens.cell.length }, insts := insts, st := st,
      diags := [], warnings := [] }
  match parseLoop cfg tokens.filename (st.elim 0 SymbolTable.numInst) tokens.cell.length start with
  | .error fault => .error fault
  | .ok (.err, p) => .ok (.err, p)
  | .ok (.ok, p) =>
    .ok (.ok, { p with st := p.st.map fun st => { st with numInst := st.numInst + p.insts.cell.length } })

end Hvme
