import Hvme.Model.Types

set_option autoImplicit false

namespace Hvme

-- <ctype.h> in the C locale.

def isspace (c : Byte) : Bool := c == 32 || (9 ≤ c && c ≤ 13)

def isdigit (c : Byte) : Bool := 48 ≤ c && c ≤ 57

def isalpha (c : Byte) : Bool := (65 ≤ c && c ≤ 90) || (97 ≤ c && c ≤ 122)

def isalnum (c : Byte) : Bool := isalpha c || isdigit c

def newline : Byte := 10

inductive Warning
  | fileExt (filename : String)
  | eofNl
  | satUilit (lit : Nat)
  | truncIdent (ident : List Byte)
  | noSt (isFunc : Bool) (ident : Ident) (instAddr : Nat)
deriving DecidableEq, Repr

def bytesText (bytes : List Byte) : String :=
  String.ofList (bytes.map fun byte => Char.ofNat byte.toNat)

def Warning.text : Warning → String
  | .fileExt filename => s!"file name `{filename}` doesn't end with `.vm`"
  | .eofNl => "no trailing newline at end of file."
  | .satUilit lit => s!"`{lit}` exceeds the range possible 16-bit numbers."
  | .truncIdent ident => s!"`{bytesText ident}` is too long to be an identifier."
  | .noSt _ _ _ => "symbol table doesn't exists."

def Warning.hint : Warning → Option String
  | .fileExt _ => none
  | .eofNl => some "Automatically adding newline after the last character"
  | .satUilit _ => some "Saturating to maximum value 65535"
  | .truncIdent ident =>
      some s!"It's truncated to `{bytesText (ident.take maxIdentLen)}` ({maxIdentLen} chars)"
  | .noSt isFunc ident instAddr =>
      let kind := if isFunc then "function" else "label"
      some s!"Can't enter {kind} `{ident.text}` starting at instruction {instAddr + 1}"

structure Diag where
  pos : Pos
  text : String
deriving DecidableEq, Repr

/-- `cell` holds the first `idx` tokens. The array behind it grows by whole blocks, and
nothing reads the part that is not filled. -/
structure Tokens where
  cell : List Token
  filename : Option String
  cur : Pos
deriving DecidableEq, Repr

def newTokens (filename : Option String) : Tokens where
  cell := []
  filename := filename
  cur := Pos.zero

/-- The variables of static storage: they outlive every call of `scan`. -/
structure Statics where
  insideComment : Bool
  identBuf : List Byte
  uilit : UInt16
deriving DecidableEq, Repr

def Statics.init : Statics where
  insideComment := false
  identBuf := List.replicate (maxIdentLen + 1) 0
  uilit := 0

structure Scanner where
  tokens : Tokens
  statics : Statics
  warnings : List Warning
deriving DecidableEq, Repr

def Scanner.setCur (sc : Scanner) (cur : Pos) : Scanner :=
  { sc with tokens := { sc.tokens with cur := cur } }

def inc (pos : Pos) : Pos := { pos with cl := pos.cl + 1 }

def incby (count : Nat) (pos : Pos) : Pos := { pos with cl := pos.cl + UInt32.ofNat count }

theorem incby_zero (pos : Pos) : incby 0 pos = pos := by simp [incby]

theorem incby_succ (count : Nat) (pos : Pos) : incby (count + 1) pos = incby count (inc pos) := by
  simp only [incby, inc, UInt32.ofNat_add, Pos.mk.injEq, true_and, and_true]
  rw [UInt32.add_assoc, UInt32.add_comm (UInt32.ofNat count)]
  rfl

def incl (pos : Pos) : Pos := { pos with ln := pos.ln + 1, cl := 0 }

/-- What a match function that returns `TOKEN_COMPLETED` consumed and stored. The other
return values are never told apart. -/
structure Match where
  nchars : Nat
  uilit : Option UInt16
  ident : Option (List Byte)
  warning : Option Warning
deriving DecidableEq, Repr

-- Every match function gets `rest`, the bytes from `*offset` up to `len`.

def staticScan (search : String) (rest : List Byte) : Option Match :=
  if (ascii search).isPrefixOf rest then
    some { nchars := (ascii search).length, uilit := none, ident := none, warning := none }
  else none

def uintValue (digits : List Byte) : Nat :=
  digits.foldl (fun value digit => value * 10 + (digit.toNat - 48)) 0

def scanUint (rest : List Byte) : Option Match :=
  let digits := (rest.take 5).takeWhile isdigit
  match rest.drop digits.length with
  | [] => none
  | next :: _ =>
    if !isspace next || digits.isEmpty then none
    else if uintValue digits > 65535 then
      some { nchars := digits.length, uilit := some 65535, ident := none,
             warning := some (.satUilit (uintValue digits)) }
    else
      some { nchars := digits.length, uilit := some (uintValue digits).toUInt16, ident := none,
             warning := none }

def isIdentStart (c : Byte) : Bool := isalpha c || c == 95 || c == 46 || c == 58

def isIdentChar (c : Byte) : Bool := isalnum c || c == 95 || c == 46 || c == 58

def scanIdent (rest : List Byte) : Option Match :=
  match rest with
  | [] => none
  | first :: tail =>
    if isIdentStart first then
      let name := first :: tail.takeWhile isIdentChar
      match rest.drop name.length with
      | [] => none
      | next :: _ =>
        if isspace next then
          some { nchars := name.length, uilit := none, ident := some rest,
                 warning := if name.length > maxIdentLen then some (.truncIdent name) else none }
        else none
    else none

inductive ScanFn
  | push | pop
  | argument | local_ | static | constant | this | that | pointer | temp
  | uint
  | label | goto | ifGoto
  | function | call | return_
  | add | sub | neg | eq | gt | lt | and | or | not
  | ident
  | comment
deriving DecidableEq, Repr

def ScanFn.run : ScanFn → List Byte → Option Match
  | .push => staticScan "push"
  | .pop => staticScan "pop"
  | .argument => staticScan "argument"
  | .local_ => staticScan "local"
  | .static => staticScan "static"
  | .constant => staticScan "constant"
  | .this => staticScan "this"
  | .that => staticScan "that"
  | .pointer => staticScan "pointer"
  | .temp => staticScan "temp"
  | .uint => scanUint
  | .label => staticScan "label"
  | .goto => staticScan "goto"
  | .ifGoto => staticScan "if-goto"
  | .function => staticScan "function"
  | .call => staticScan "call"
  | .return_ => staticScan "return"
  | .add => staticScan "add"
  | .sub => staticScan "sub"
  | .neg => staticScan "neg"
  | .eq => staticScan "eq"
  | .gt => staticScan "gt"
  | .lt => staticScan "lt"
  | .and => staticScan "and"
  | .or => staticScan "or"
  | .not => staticScan "not"
  | .ident => scanIdent
  | .comment => staticScan "//"

def matchFns : List ScanFn :=
  [.push, .pop, .argument, .local_, .static, .constant, .this, .that, .pointer, .temp, .uint,
    .label, .goto, .ifGoto, .function, .call, .return_,
    .add, .sub, .neg, .eq, .gt, .lt, .and, .or, .not, .ident, .comment]

def firstMatch : List ScanFn → Nat → List Byte → Option (Nat × ScanFn × Match)
  | [], _, _ => none
  | fn :: fns, fnIdx, rest =>
    match fn.run rest with
    | some found => some (fnIdx, fn, found)
    | none => firstMatch fns (fnIdx + 1) rest

def strncpy (dest src : List Byte) (count : Nat) : List Byte :=
  let text := (src.take count).takeWhile (· ≠ 0)
  text ++ List.replicate (count - text.length) 0 ++ dest.drop count

def Statics.store (statics : Statics) (found : Match) : Statics where
  insideComment := statics.insideComment
  uilit := found.uilit.getD statics.uilit
  identBuf :=
    match found.ident with
    | none => statics.identBuf
    | some rest =>
      (strncpy statics.identBuf rest (if maxIdentLen > rest.length then rest.length else maxIdentLen)).set
        (if found.nchars ≥ maxIdentLen then maxIdentLen else found.nchars) 0

def tokenFromFn (fnIdx : Nat) (pos : Pos) (statics : Statics) : Token × Statics :=
  ({ t := TokenCode.ofVal (fnIdx + 1)
     pos := pos
     uilit := statics.uilit
     ident := Ident.ofBuf statics.identBuf },
   { statics with
     identBuf := List.replicate maxIdentLen 32 ++ statics.identBuf.drop maxIdentLen
     uilit := 0 })

def eatWs : List Byte → Pos → List Byte × Pos
  | [], pos => ([], pos)
  | c :: rest, pos =>
    if isspace c then eatWs rest (if c == newline then incl pos else inc pos) else (c :: rest, pos)

/-- The number of trailing characters, or `none` for `INTERNAL_SCAN_ERR`. -/
def numTrailing (rest : List Byte) : Option Nat :=
  if rest.any isspace then none else some rest.length

inductive BlkStep
  | next (sc : Scanner) (rest : List Byte)
  -- No function completed at `rest`.
  | stuck (sc : Scanner) (rest : List Byte)

/-- One iteration of the loop of `scan_blk`; `rest` is not empty. -/
def scanBlkStep (sc : Scanner) (rest : List Byte) : BlkStep :=
  if sc.statics.insideComment then
    match rest with
    | [] => .next sc []
    | c :: rest =>
      if c == newline then
        .next { tokens := { sc.tokens with cur := incl sc.tokens.cur }
                statics := { sc.statics with insideComment := false }
                warnings := sc.warnings } rest
      else .next (sc.setCur (inc sc.tokens.cur)) rest
  else
    let (rest, curStart) := eatWs rest sc.tokens.cur
    match firstMatch matchFns 0 rest with
    | none => .stuck (sc.setCur curStart) rest
    | some (fnIdx, fn, found) =>
      let statics := sc.statics.store found
      -- The blanks after a comment's slashes are eaten here too, newlines included.
      let (rest, cur) := eatWs (rest.drop found.nchars) (incby found.nchars curStart)
      let warnings := sc.warnings ++ found.warning.toList
      if fn = .comment then
        .next { tokens := { sc.tokens with cur := cur }
                statics := { statics with insideComment := true }
                warnings := warnings } rest
      else
        let (token, statics) := tokenFromFn fnIdx curStart statics
        .next { tokens := { sc.tokens with cell := sc.tokens.cell ++ [token], cur := cur }
                statics := statics
                warnings := warnings } rest

inductive BlkResult
  | trailing (sc : Scanner) (count : Nat)
  | err (sc : Scanner) (diag : Diag)

def scanErr (rest : List Byte) (tokens : Tokens) : Diag where
  pos := { tokens.cur with filename := tokens.filename }
  -- `strncpy` and `%s` stop at the first NUL.
  text := s!"couldn't scan input\n `{bytesText ((rest.take (rest.length - 1)).takeWhile (· ≠ 0))}`"

def scanBlkLoop : Nat → Scanner → List Byte → BlkResult
  | _, sc, [] => .trailing sc 0
  | 0, sc, rest => .trailing sc rest.length
  | fuel + 1, sc, rest =>
    match scanBlkStep sc rest with
    | .next sc rest => scanBlkLoop fuel sc rest
    | .stuck sc rest =>
      match numTrailing rest with
      | some count => .trailing sc count
      | none => .err sc (scanErr rest sc.tokens)

-- Every iteration that goes on consumes a byte, so the block's length is fuel enough.
def scanBlk (sc : Scanner) (blk : List Byte) : BlkResult :=
  scanBlkLoop blk.length sc blk

def memcpy (dest : List Byte) (at_ : Nat) (src : List Byte) : List Byte :=
  dest.take at_ ++ src ++ dest.drop (at_ + src.length)

/-- The variables of the loop of `scan`: `file` is what `read` has not delivered yet. -/
structure Round where
  sc : Scanner
  blk : List Byte
  bytesCopied : Nat
  file : List Byte

inductive RoundResult
  | again (round : Round)
  | ok (sc : Scanner)
  | err (sc : Scanner) (diag : Diag)

/-- One iteration of the loop of `scan`. `memcpy` is taken to move the bytes even where its
ranges overlap. -/
def scanRound (cfg : Config) (round : Round) : RoundResult :=
  let chunk := round.file.take (cfg.scanBlockSize - round.bytesCopied)
  let blk := memcpy round.blk round.bytesCopied chunk
  let origLen := chunk.length + round.bytesCopied
  let addNl := decide (0 < origLen ∧ origLen < cfg.scanBlockSize ∧ blk[origLen - 1]? ≠ some newline)
  let blk := if addNl then blk.set origLen newline else blk
  let len := if addNl then origLen + 1 else origLen
  let sc := if addNl then { round.sc with warnings := round.sc.warnings ++ [.eofNl] } else round.sc
  match scanBlk sc (blk.take len) with
  | .err sc diag => .err sc diag
  | .trailing sc res =>
    let blk :=
      if res > 0 then memcpy blk 0 ((blk.drop (cfg.scanBlockSize - res)).take res) else blk
    if origLen = cfg.scanBlockSize then
      .again { sc := sc, blk := blk, bytesCopied := res,
               file := round.file.drop (cfg.scanBlockSize - round.bytesCopied) }
    else .ok sc

inductive ScanResult
  | err (diag : Option Diag)
  | ok
deriving DecidableEq, Repr

def scanRounds (cfg : Config) : Nat → Round → Except Fault (ScanResult × Scanner)
  | 0, _ => .error .diverges
  | fuel + 1, round =>
    match scanRound cfg round with
    | .again round => scanRounds cfg fuel round
    | .ok sc => .ok (.ok, sc)
    | .err sc diag => .ok (.err (some diag), sc)

def Round.init (cfg : Config) (sc : Scanner) (file : List Byte) : Round where
  sc := sc
  blk := List.replicate cfg.scanBlockSize cfg.junkByte
  bytesCopied := 0
  file := file

/-- `content` is `none` for a file that cannot be opened. -/
def scan (cfg : Config) (fuel : Nat) (sc : Scanner) (content : Option (List Byte)) :
    Except Fault (ScanResult × Scanner) :=
  match content with
  | none => .ok (.err none, sc)
  | some file => scanRounds cfg fuel (Round.init cfg sc file)

end Hvme
