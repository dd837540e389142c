import Hvme.Model.Scan

set_option autoImplicit false

namespace Hvme

/-- What a token stands for, without its position and the fields its kind does not use. -/
inductive Lexeme
  | keyword (t : TokenCode)
  | num (value : UInt16)
  | name (ident : Ident)
deriving DecidableEq, Repr

def Token.lexeme (it : Token) : Lexeme :=
  match it.t with
  | .uint => .num it.uilit
  | .ident => .name it.ident
  | t => .keyword t

theorem Token.lexeme_of_uint {it : Token} (t : it.t = .uint) : it.lexeme = .num it.uilit := by
  simp [Token.lexeme, t]

theorem Token.lexeme_of_ident {it : Token} (t : it.t = .ident) : it.lexeme = .name it.ident := by
  simp [Token.lexeme, t]

theorem Token.lexeme_of_keyword {it : Token} (number : it.t ≠ .uint) (name : it.t ≠ .ident) :
    it.lexeme = .keyword it.t := by
  unfold Token.lexeme
  split <;> simp_all

theorem Token.lexeme_keyword {it : Token} {t : TokenCode} (same : it.lexeme = .keyword t) : it.t = t := by
  unfold Token.lexeme at same
  split at same <;> simp_all

theorem Token.lexeme_num_iff (it : Token) (value : UInt16) :
    it.lexeme = .num value ↔ it.t = .uint ∧ it.uilit = value := by
  unfold Token.lexeme
  split <;> simp_all

theorem Token.lexeme_name_iff (it : Token) (ident : Ident) :
    it.lexeme = .name ident ↔ it.t = .ident ∧ it.ident = ident := by
  unfold Token.lexeme
  split <;> simp_all

structure View where
  lexeme : Lexeme
  pos : Pos
deriving DecidableEq, Repr

def Token.view (it : Token) : View := { lexeme := it.lexeme, pos := it.pos }

structure Mark where
  inside : Bool
  cur : Pos
deriving DecidableEq, Repr

def Scanner.mark (sc : Scanner) : Mark :=
  { inside := sc.statics.insideComment, cur := sc.tokens.cur }

def Scanner.views (sc : Scanner) : List View := sc.tokens.cell.map Token.view

def ScanFn.token : ScanFn → TokenCode
  | .push => .push
  | .pop => .pop
  | .argument => .arg
  | .local_ => .loc
  | .static => .stat
  | .constant => .const
  | .this => .this
  | .that => .that
  | .pointer => .ptr
  | .temp => .tmp
  | .uint => .uint
  | .label => .label
  | .goto => .goto
  | .ifGoto => .ifGoto
  | .function => .func
  | .call => .call
  | .return_ => .ret
  | .add => .add
  | .sub => .sub
  | .neg => .neg
  | .eq => .eq
  | .gt => .gt
  | .lt => .lt
  | .and => .and
  | .or => .or
  | .not => .not
  | .ident => .ident
  | .comment => .none

def ScanFn.lexeme (fn : ScanFn) (rest : List Byte) (found : Match) : Lexeme :=
  match fn with
  | .uint => .num (found.uilit.getD 0)
  | .ident => .name (Ident.ofBuf (rest.take found.nchars))
  | fn => .keyword fn.token

inductive LexStep
  | next (mark : Mark) (out : List View) (rest : List Byte)
  | stuck (mark : Mark) (rest : List Byte)

def lexStep (mark : Mark) (rest : List Byte) : LexStep :=
  if mark.inside then
    match rest with
    | [] => .next mark [] []
    | c :: rest =>
      if c == newline then .next { inside := false, cur := incl mark.cur } [] rest
      else .next { mark with cur := inc mark.cur } [] rest
  else
    let (rest, start) := eatWs rest mark.cur
    match firstMatch matchFns 0 rest with
    | none => .stuck { mark with cur := start } rest
    | some (_, fn, found) =>
      let (left, cur) := eatWs (rest.drop found.nchars) (incby found.nchars start)
      if fn = .comment then .next { inside := true, cur := cur } [] left
      else .next { mark with cur := cur } [{ lexeme := fn.lexeme rest found, pos := start }] left

theorem matchFns_token (fnIdx : Nat) (fn : ScanFn) (known : matchFns[fnIdx]? = some fn)
    (token : fn ≠ .comment) : TokenCode.ofVal (fnIdx + 1) = fn.token := by
  have all : ∀ idx < matchFns.length, matchFns[idx]? = some fn → fn ≠ .comment →
      TokenCode.ofVal (idx + 1) = fn.token := by
    cases fn <;> decide
  exact all fnIdx (List.getElem?_eq_some_iff.mp known).1 known token

theorem firstMatch_some {fns : List ScanFn} {base fnIdx : Nat} {rest : List Byte} {fn : ScanFn}
    {found : Match} (matched : firstMatch fns base rest = some (fnIdx, fn, found)) :
    base ≤ fnIdx ∧ fns[fnIdx - base]? = some fn ∧ fn.run rest = some found := by
  induction fns generalizing base with
  | nil => cases matched
  | cons first fns ih =>
    rw [firstMatch] at matched
    split at matched
    · next here =>
      cases matched
      exact ⟨le_rfl, by simp, here⟩
    · obtain ⟨later, known, completed⟩ := ih matched
      refine ⟨by omega, ?_, completed⟩
      rwa [show fnIdx - base = fnIdx - (base + 1) + 1 by omega, List.getElem?_cons_succ]

theorem firstMatch_token {rest : List Byte} {fnIdx : Nat} {fn : ScanFn} {found : Match}
    (matched : firstMatch matchFns 0 rest = some (fnIdx, fn, found)) (token : fn ≠ .comment) :
    TokenCode.ofVal (fnIdx + 1) = fn.token :=
  matchFns_token fnIdx fn (firstMatch_some matched).2.1 token

theorem isIdentChar_of_start {c : Byte} (start : isIdentStart c = true) : isIdentChar c = true := by
  simp only [isIdentStart, isIdentChar, isalnum, Bool.or_eq_true] at start ⊢
  tauto

theorem scanIdent_some {rest : List Byte} {found : Match} (matched : scanIdent rest = some found) :
    found.ident = some rest ∧ ∃ name c more, rest = name ++ c :: more ∧ found.nchars = name.length ∧
      name ≠ [] ∧ (∀ b ∈ name, isIdentChar b = true) ∧ isspace c = true := by
  unfold scanIdent at matched
  cases rest with
  | nil => cases matched
  | cons first tail =>
    simp only at matched
    split at matched
    · next start =>
      have parts : first :: tail = (first :: tail.takeWhile isIdentChar) ++ tail.dropWhile isIdentChar := by
        rw [List.cons_append, List.takeWhile_append_dropWhile]
      rw [parts, List.drop_left] at matched
      -- `scan_ident` takes the name only where a byte follows it, and that byte is a blank.
      cases delimiter : tail.dropWhile isIdentChar with
      | nil => simp [delimiter] at matched
      | cons c more =>
        simp only [delimiter] at matched
        split at matched
        · next space =>
          cases matched
          refine ⟨by rw [← delimiter, ← parts], first :: tail.takeWhile isIdentChar, c, more, ?_, rfl,
            List.cons_ne_nil _ _, ?_, space⟩
          · rw [← delimiter, ← parts]
          · intro b member
            rcases List.mem_cons.mp member with rfl | member
            · exact isIdentChar_of_start start
            · exact List.mem_takeWhile_imp member
        · cases matched
    · cases matched

theorem scanUint_some {rest : List Byte} {found : Match} (matched : scanUint rest = some found) :
    ∃ value, found.uilit = some value := by
  unfold scanUint at matched
  simp only at matched
  split at matched
  · cases matched
  · split at matched
    · cases matched
    · split at matched <;> cases matched <;> exact ⟨_, rfl⟩

theorem nonzero_of_isIdentChar {c : Byte} (char : isIdentChar c = true) : (c ≠ 0) := by
  rintro rfl
  exact absurd char (by decide)

theorem strncpy_prefix (dest : List Byte) {front : List Byte} (back : List Byte) {count : Nat}
    (nonzero : ∀ b ∈ front, b ≠ 0) (fits : front.length ≤ count) :
    ∃ tail, strncpy dest (front ++ back) count = front ++ tail ∧ count ≤ front.length + tail.length := by
  have text : ((front ++ back).take count).takeWhile (· ≠ 0) =
      front ++ (back.take (count - front.length)).takeWhile (· ≠ 0) := by
    rw [List.take_append, List.take_of_length_le fits,
      List.takeWhile_append_of_pos (fun b member => by simpa using nonzero b member)]
  refine ⟨(back.take (count - front.length)).takeWhile (· ≠ 0) ++
    List.replicate (count - (front ++ (back.take (count - front.length)).takeWhile (· ≠ 0)).length) 0 ++
    dest.drop count, ?_, ?_⟩
  · simp only [strncpy, text, List.append_assoc]
  · simp only [List.length_append, List.length_replicate]
    omega

theorem Ident.ofBuf_of_prefix {name : List Byte} (nonzero : ∀ b ∈ name, b ≠ 0) {tail : List Byte}
    (ends : maxIdentLen ≤ name.length ∨ ∃ more, tail = 0 :: more) :
    (Ident.ofBuf (name ++ tail)).chars = name.take maxIdentLen := by
  simp only [Ident.ofBuf]
  have whole : ∀ b ∈ name.take maxIdentLen, (decide (b ≠ 0)) = true := fun b member => by
    simpa using nonzero b (List.mem_of_mem_take member)
  by_cases long : maxIdentLen ≤ name.length
  · rw [List.take_append_of_le_length long, List.takeWhile_eq_self_iff.mpr whole]
  · obtain ⟨more, rfl⟩ := ends.resolve_left long
    obtain ⟨room, same⟩ : ∃ room, maxIdentLen - name.length = room + 1 :=
      ⟨maxIdentLen - name.length - 1, by omega⟩
    rw [List.take_append, List.takeWhile_append_of_pos whole, same, List.take_succ_cons,
      List.takeWhile_cons_of_neg (by simp), List.append_nil]

theorem identBuf_chars (dest : List Byte) {name : List Byte} (c : Byte) (more : List Byte)
    (nonzero : ∀ b ∈ name, b ≠ 0) :
    let rest := name ++ c :: more
    let count := if maxIdentLen > rest.length then rest.length else maxIdentLen
    (Ident.ofBuf ((strncpy dest rest count).set
      (if name.length ≥ maxIdentLen then maxIdentLen else name.length) 0)).chars =
      name.take maxIdentLen := by
  intro rest count
  have rest_length : rest.length = name.length + more.length + 1 := by
    simp only [rest, List.length_append, List.length_cons]
    omega
  by_cases long : maxIdentLen ≤ name.length
  · have count_eq : count = maxIdentLen := if_neg (by omega)
    have front : ∀ b ∈ name.take maxIdentLen, b ≠ 0 := fun b member =>
      nonzero b (List.mem_of_mem_take member)
    have rest_eq : rest = name.take maxIdentLen ++ (name.drop maxIdentLen ++ c :: more) := by
      rw [← List.append_assoc, List.take_append_drop]
    have exact_ : (name.take maxIdentLen).length = maxIdentLen := List.length_take_of_le long
    obtain ⟨tail, copied, -⟩ := strncpy_prefix dest (name.drop maxIdentLen ++ c :: more) front exact_.le
    rw [if_pos long, count_eq, rest_eq, copied, List.set_append_right _ _ (by omega),
      Ident.ofBuf_of_prefix front (.inl (by omega)), List.take_take, Nat.min_self]
  · have fits : name.length + 1 ≤ count := by
      simp only [count]
      split <;> omega
    obtain ⟨tail, copied, enough⟩ := strncpy_prefix dest (c :: more) nonzero (Nat.le_of_succ_le fits)
    rw [if_neg long, copied, List.set_append_right _ _ le_rfl, Nat.sub_self]
    refine Ident.ofBuf_of_prefix nonzero (.inr ?_)
    cases tail with
    | nil => simp at enough; omega
    | cons first tail => exact ⟨tail, rfl⟩

theorem Ident.ofBuf_name {name : List Byte} (nonzero : ∀ b ∈ name, b ≠ 0) :
    (Ident.ofBuf name).chars = name.take maxIdentLen := by
  have whole : ∀ b ∈ name.take maxIdentLen, (decide (b ≠ 0)) = true := fun b member => by
    simpa using nonzero b (List.mem_of_mem_take member)
  exact List.takeWhile_eq_self_iff.mpr whole

theorem tokenFromFn_lexeme {rest : List Byte} {fnIdx : Nat} {fn : ScanFn} {found : Match}
    (matched : firstMatch matchFns 0 rest = some (fnIdx, fn, found)) (token : fn ≠ .comment)
    (pos : Pos) (statics : Statics) :
    (tokenFromFn fnIdx pos (statics.store found)).1.view =
      { lexeme := fn.lexeme rest found, pos := pos } := by
  have t : (tokenFromFn fnIdx pos (statics.store found)).1.t = fn.token := firstMatch_token matched token
  have run := (firstMatch_some matched).2.2
  simp only [Token.view, View.mk.injEq]
  refine ⟨?_, rfl⟩
  by_cases number : fn = .uint
  · subst number
    obtain ⟨value, stored⟩ := scanUint_some run
    rw [Token.lexeme_of_uint t]
    simp [tokenFromFn, Statics.store, ScanFn.lexeme, stored]
  · by_cases name : fn = .ident
    · subst name
      obtain ⟨ident, name, c, more, rfl, nchars, -, chars, -⟩ := scanIdent_some run
      have nonzero : ∀ b ∈ name, b ≠ 0 := fun b member => nonzero_of_isIdentChar (chars b member)
      rw [Token.lexeme_of_ident t]
      simp only [ScanFn.lexeme, nchars, List.take_left, Lexeme.name.injEq]
      ext1
      rw [Ident.ofBuf_name nonzero, ← identBuf_chars statics.identBuf c more nonzero]
      simp only [tokenFromFn, Statics.store, ident, nchars]
    · rw [Token.lexeme_of_keyword] <;> rw [t] <;> cases fn <;> simp_all [ScanFn.token, ScanFn.lexeme]

theorem eatWs_rest (rest : List Byte) (pos : Pos) : (eatWs rest pos).1 = rest.dropWhile isspace := by
  induction rest generalizing pos with
  | nil => rfl
  | cons c rest ih =>
    rw [eatWs, List.dropWhile_cons]
    split
    · exact ih _
    · rfl

theorem staticScan_some {search : String} {rest : List Byte} {found : Match} :
    staticScan search rest = some found ↔ ascii search <+: rest ∧
      found = { nchars := (ascii search).length, uilit := none, ident := none, warning := none } := by
  unfold staticScan
  rw [← List.isPrefixOf_iff_prefix]
  split
  · next here => simp [here, eq_comm]
  · next here => simp [here]

theorem scanUint_nchars {rest : List Byte} {found : Match} (matched : scanUint rest = some found) :
    0 < found.nchars ∧ found.nchars ≤ rest.length := by
  unfold scanUint at matched
  simp only at matched
  split at matched
  · cases matched
  · next next more delimiter =>
    have inside : ((rest.take 5).takeWhile isdigit).length < rest.length := by
      have := congrArg List.length delimiter
      rw [List.length_drop, List.length_cons] at this
      omega
    split at matched
    · cases matched
    · next digits =>
      have some_ : 0 < ((rest.take 5).takeWhile isdigit).length := by
        rw [List.length_pos_iff]
        intro none_
        simp [none_] at digits
      split at matched <;> cases matched <;> exact ⟨some_, inside.le⟩

theorem run_nchars {fn : ScanFn} {rest : List Byte} {found : Match} (matched : fn.run rest = some found) :
    0 < found.nchars ∧ found.nchars ≤ rest.length := by
  by_cases number : fn = .uint
  · subst number
    exact scanUint_nchars matched
  · by_cases name : fn = .ident
    · subst name
      obtain ⟨-, name, c, more, rfl, nchars, nonempty, -⟩ := scanIdent_some matched
      rw [nchars, List.length_append]
      exact ⟨List.length_pos_iff.mpr nonempty, Nat.le_add_right _ _⟩
    · obtain ⟨search, positive, same⟩ : ∃ search, 0 < (ascii search).length ∧ fn.run = staticScan search := by
        cases fn <;> first | exact absurd rfl number | exact absurd rfl name | exact ⟨_, by decide, rfl⟩
      rw [same, staticScan_some] at matched
      obtain ⟨here, rfl⟩ := matched
      exact ⟨positive, here.length_le⟩

theorem dropWhile_length_le {α : Type} (p : α → Bool) (xs : List α) :
    (xs.dropWhile p).length ≤ xs.length :=
  (List.dropWhile_suffix p).length_le

theorem lexStep_shorter {mark next : Mark} {bytes rest : List Byte} {out : List View}
    (nonempty : bytes ≠ []) (step : lexStep mark bytes = .next next out rest) :
    rest.length < bytes.length := by
  unfold lexStep at step
  split at step
  · cases bytes with
    | nil => exact absurd rfl nonempty
    | cons c more =>
      simp only at step
      split at step <;> cases step <;> exact Nat.lt_succ_self _
  · simp only [eatWs_rest] at step
    have shrunk := dropWhile_length_le isspace bytes
    split at step
    · cases step
    · next fnIdx fn found matched =>
      obtain ⟨positive, inside⟩ := run_nchars (firstMatch_some matched).2.2
      have left := dropWhile_length_le isspace ((bytes.dropWhile isspace).drop found.nchars)
      rw [List.length_drop] at left
      split at step <;> cases step <;> omega

/-- What is read, where reading stops and what is left there. `opened` says that the last
thing read is the opening of a comment. -/
structure Lexed where
  out : List View
  mark : Mark
  rest : List Byte
  opened : Bool

def Lexed.after (mark : Mark) (out : List View) (rest : List Byte) (next : Mark) (lexed : Lexed) : Lexed where
  out := out ++ lexed.out
  mark := lexed.mark
  rest := lexed.rest
  opened := if rest = [] then !mark.inside && next.inside else lexed.opened

def lex (mark : Mark) (bytes : List Byte) : Lexed :=
  if _ : bytes = [] then { out := [], mark := mark, rest := [], opened := false }
  else
    match _ : lexStep mark bytes with
    | .next next out rest => (lex next rest).after mark out rest next
    | .stuck mark rest => { out := [], mark := mark, rest := rest, opened := false }
termination_by bytes.length
decreasing_by exact lexStep_shorter ‹_› ‹_›

@[simp] theorem lex_nil (mark : Mark) :
    lex mark [] = { out := [], mark := mark, rest := [], opened := false } := by
  rw [lex, dif_pos rfl]

theorem lex_next {mark next : Mark} {bytes rest : List Byte} {out : List View} (nonempty : bytes ≠ [])
    (step : lexStep mark bytes = .next next out rest) :
    lex mark bytes = (lex next rest).after mark out rest next := by
  rw [lex, dif_neg nonempty]
  split
  · next same =>
    rw [step] at same
    cases same
    rfl
  · next same =>
    rw [step] at same
    cases same

theorem lex_stuck {mark next : Mark} {bytes rest : List Byte} (nonempty : bytes ≠ [])
    (step : lexStep mark bytes = .stuck next rest) :
    lex mark bytes = { out := [], mark := next, rest := rest, opened := false } := by
  rw [lex, dif_neg nonempty]
  split
  · next same =>
    rw [step] at same
    cases same
  · next same =>
    rw [step] at same
    cases same
    rfl

theorem numTrailing_eq (rest : List Byte) :
    numTrailing rest = if rest.any isspace then none else some rest.length := rfl

structure Scanner.Reads (sc : Scanner) (out : List View) (mark : Mark) (sc' : Scanner) : Prop where
  views : sc'.views = sc.views ++ out
  mark : sc'.mark = mark
  filename : sc'.tokens.filename = sc.tokens.filename

theorem scanBlkStep_reads (sc : Scanner) {bytes : List Byte} (nonempty : bytes ≠ []) :
    match lexStep sc.mark bytes with
    | .next mark out rest => ∃ sc', scanBlkStep sc bytes = .next sc' rest ∧ sc.Reads out mark sc'
    | .stuck mark rest => ∃ sc', scanBlkStep sc bytes = .stuck sc' rest ∧ sc.Reads [] mark sc' := by
  cases inside : sc.statics.insideComment with
  | true =>
    cases bytes with
    | nil => exact absurd rfl nonempty
    | cons c more =>
      simp only [lexStep, scanBlkStep, Scanner.mark, inside, if_true]
      by_cases end_ : (c == newline) = true
      · simp only [end_, if_true]
        exact ⟨_, rfl, by simp [Scanner.views], rfl, rfl⟩
      · simp only [end_, Bool.false_eq_true, if_false]
        exact ⟨_, rfl, by simp [Scanner.views, Scanner.setCur], by simp [Scanner.mark, Scanner.setCur, inside], rfl⟩
  | false =>
    simp only [lexStep, scanBlkStep, Scanner.mark, inside, Bool.false_eq_true, if_false]
    cases matched : firstMatch matchFns 0 (eatWs bytes sc.tokens.cur).1 with
    | none =>
      exact ⟨_, rfl, by simp [Scanner.views, Scanner.setCur], by simp [Scanner.mark, Scanner.setCur, inside], rfl⟩
    | some result =>
      obtain ⟨fnIdx, fn, found⟩ := result
      simp only
      by_cases opener : fn = .comment
      · simp only [opener, if_true]
        exact ⟨_, rfl, by simp [Scanner.views], rfl, rfl⟩
      · simp only [opener, if_false]
        refine ⟨_, rfl, ?_, ?_, rfl⟩
        · simp only [Scanner.views, List.map_append, List.map_singleton,
            tokenFromFn_lexeme matched opener]
        · simp [Scanner.mark, tokenFromFn, Statics.store, inside]

theorem scanBlkLoop_next {fuel : Nat} {sc sc' : Scanner} {bytes rest : List Byte} (nonempty : bytes ≠ [])
    (step : scanBlkStep sc bytes = .next sc' rest) :
    scanBlkLoop (fuel + 1) sc bytes = scanBlkLoop fuel sc' rest := by
  cases bytes with
  | nil => exact absurd rfl nonempty
  | cons c more => simp only [scanBlkLoop, step]

theorem scanBlkLoop_stuck {fuel : Nat} {sc sc' : Scanner} {bytes rest : List Byte} (nonempty : bytes ≠ [])
    (step : scanBlkStep sc bytes = .stuck sc' rest) :
    scanBlkLoop (fuel + 1) sc bytes =
      match numTrailing rest with
      | some count => .trailing sc' count
      | none => .err sc' (scanErr rest sc'.tokens) := by
  cases bytes with
  | nil => exact absurd rfl nonempty
  | cons c more => cases trailing : numTrailing rest <;> simp only [scanBlkLoop, step, trailing]

theorem scanBlkLoop_reads (fuel : Nat) (sc : Scanner) (bytes : List Byte) (enough : bytes.length ≤ fuel) :
    match numTrailing (lex sc.mark bytes).rest with
    | some count => ∃ sc', scanBlkLoop fuel sc bytes = .trailing sc' count ∧
        sc.Reads (lex sc.mark bytes).out (lex sc.mark bytes).mark sc'
    | none => ∃ sc' diag, scanBlkLoop fuel sc bytes = .err sc' diag ∧
        sc.Reads (lex sc.mark bytes).out (lex sc.mark bytes).mark sc' := by
  induction fuel generalizing sc bytes with
  | zero =>
    obtain rfl : bytes = [] := List.length_eq_zero_iff.mp (by omega)
    simp only [lex_nil]
    exact ⟨sc, rfl, by simp, rfl, rfl⟩
  | succ fuel ih =>
    by_cases nonempty : bytes = []
    · subst nonempty
      simp only [lex_nil]
      exact ⟨sc, rfl, by simp, rfl, rfl⟩
    · have reads := scanBlkStep_reads sc nonempty
      cases step : lexStep sc.mark bytes with
      | next mark out rest =>
        rw [step] at reads
        obtain ⟨sc', stepped, views, rfl, filename⟩ := reads
        -- A step takes at least one byte, so the fuel lasts for the rest.
        have shorter := lexStep_shorter nonempty step
        have later := ih sc' rest (by omega)
        rw [lex_next nonempty step, scanBlkLoop_next nonempty stepped]
        simp only [Lexed.after]
        cases trailing : numTrailing (lex sc'.mark rest).rest with
        | none =>
          rw [trailing] at later
          obtain ⟨last, diag, run, seen⟩ := later
          exact ⟨last, diag, run, by rw [seen.views, views, List.append_assoc], seen.mark,
            seen.filename.trans filename⟩
        | some count =>
          rw [trailing] at later
          obtain ⟨last, run, seen⟩ := later
          exact ⟨last, run, by rw [seen.views, views, List.append_assoc], seen.mark,
            seen.filename.trans filename⟩
      | stuck mark rest =>
        rw [step] at reads
        obtain ⟨sc', stepped, seen⟩ := reads
        rw [lex_stuck nonempty step, scanBlkLoop_stuck nonempty stepped]
        simp only
        cases numTrailing rest with
        | none => exact ⟨_, _, rfl, seen⟩
        | some count => exact ⟨_, rfl, seen⟩

theorem scanBlk_reads (sc : Scanner) (blk : List Byte) :
    match numTrailing (lex sc.mark blk).rest with
    | some count => ∃ sc', scanBlk sc blk = .trailing sc' count ∧
        sc.Reads (lex sc.mark blk).out (lex sc.mark blk).mark sc'
    | none => ∃ sc' diag, scanBlk sc blk = .err sc' diag ∧
        sc.Reads (lex sc.mark blk).out (lex sc.mark blk).mark sc' :=
  scanBlkLoop_reads blk.length sc blk le_rfl

end Hvme
