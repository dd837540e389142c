import Hvme.Model.Parse
import Hvme.Scanner.Lexing

set_option autoImplicit false

namespace Hvme

inductive Operation
  | add | sub | neg | eq | gt | lt | and | or | not | ret
deriving DecidableEq, Repr

inductive Transfer
  | push | pop
deriving DecidableEq, Repr

inductive Jump
  | goto | ifGoto
deriving DecidableEq, Repr

inductive Item
  | operation (op : Operation)
  | transfer (op : Transfer) (seg : Segment) (offset : UInt16)
  | jump (op : Jump) (target : Ident)
  | label (ident : Ident)
  | function (ident : Ident) (nlocals : UInt16)
  | call (ident : Ident) (nargs : UInt16)
deriving DecidableEq, Repr

def Operation.token : Operation → TokenCode
  | .add => .add
  | .sub => .sub
  | .neg => .neg
  | .eq => .eq
  | .gt => .gt
  | .lt => .lt
  | .and => .and
  | .or => .or
  | .not => .not
  | .ret => .ret

def Transfer.token : Transfer → TokenCode
  | .push => .push
  | .pop => .pop

def Jump.token : Jump → TokenCode
  | .goto => .goto
  | .ifGoto => .ifGoto

def Segment.token : Segment → TokenCode
  | .arg => .arg
  | .loc => .loc
  | .stat => .stat
  | .const => .const
  | .this => .this
  | .that => .that
  | .ptr => .ptr
  | .tmp => .tmp

def Item.lexemes : Item → List Lexeme
  | .operation op => [.keyword op.token]
  | .transfer op seg offset => [.keyword op.token, .keyword seg.token, .num offset]
  | .jump op target => [.keyword op.token, .name target]
  | .label ident => [.keyword .label, .name ident]
  | .function ident nlocals => [.keyword .func, .name ident, .num nlocals]
  | .call ident nargs => [.keyword .call, .name ident, .num nargs]

def WellFormed (tokens : List Token) : Prop :=
  ∃ items : List Item, tokens.map Token.lexeme = items.flatMap Item.lexemes

inductive Clause
  | item (item : Item)
  | function (ident : Ident)
  | call (ident : Ident)
deriving DecidableEq, Repr

inductive Start
  | operation (op : Operation)
  | transfer (op : Transfer)
  | jump (op : Jump)
  | label
  | function
  | call

def TokenCode.start : TokenCode → Option Start
  | .add => some (.operation .add)
  | .sub => some (.operation .sub)
  | .neg => some (.operation .neg)
  | .eq => some (.operation .eq)
  | .gt => some (.operation .gt)
  | .lt => some (.operation .lt)
  | .and => some (.operation .and)
  | .or => some (.operation .or)
  | .not => some (.operation .not)
  | .ret => some (.operation .ret)
  | .push => some (.transfer .push)
  | .pop => some (.transfer .pop)
  | .goto => some (.jump .goto)
  | .ifGoto => some (.jump .ifGoto)
  | .label => some .label
  | .func => some .function
  | .call => some .call
  | _ => .none

def Start.token : Start → TokenCode
  | .operation op => op.token
  | .transfer op => op.token
  | .jump op => op.token
  | .label => .label
  | .function => .func
  | .call => .call

theorem TokenCode.start_iff (t : TokenCode) (start : Start) : t.start = some start ↔ t = start.token := by
  constructor
  · intro started
    cases t <;> cases started <;> rfl
  · rintro rfl
    cases start with
    | operation op => cases op <;> rfl
    | transfer op => cases op <;> rfl
    | jump op => cases op <;> rfl
    | label => rfl
    | function => rfl
    | call => rfl

def TokenCode.segment : TokenCode → Option Segment
  | .arg => some .arg
  | .loc => some .loc
  | .stat => some .stat
  | .const => some .const
  | .this => some .this
  | .that => some .that
  | .ptr => some .ptr
  | .tmp => some .tmp
  | _ => .none

theorem TokenCode.segment_iff (t : TokenCode) (seg : Segment) : t.segment = some seg ↔ t = seg.token := by
  cases t <;> cases seg <;> simp [TokenCode.segment, Segment.token]

def Start.read : Start → List Lexeme → Option (Clause × List Lexeme)
  | .operation op, rest => some (.item (.operation op), rest)
  | .transfer op, .keyword seg :: .num offset :: rest =>
    seg.segment.map fun seg => (.item (.transfer op seg offset), rest)
  | .jump op, .name target :: rest => some (.item (.jump op target), rest)
  | .label, .name ident :: rest => some (.item (.label ident), rest)
  | .function, .name ident :: .num nlocals :: rest => some (.item (.function ident nlocals), rest)
  | .function, .name ident :: rest => some (.function ident, rest)
  | .call, .name ident :: .num nargs :: rest => some (.item (.call ident nargs), rest)
  | .call, .name ident :: rest => some (.call ident, rest)
  | _, _ => none

inductive Start.Reads : Start → List Lexeme → Clause → List Lexeme → Prop
  | operation (op : Operation) (rest : List Lexeme) : Reads (.operation op) rest (.item (.operation op)) rest
  | transfer (op : Transfer) (seg : Segment) (offset : UInt16) (rest : List Lexeme) :
      Reads (.transfer op) (.keyword seg.token :: .num offset :: rest) (.item (.transfer op seg offset)) rest
  | jump (op : Jump) (target : Ident) (rest : List Lexeme) :
      Reads (.jump op) (.name target :: rest) (.item (.jump op target)) rest
  | label (ident : Ident) (rest : List Lexeme) : Reads .label (.name ident :: rest) (.item (.label ident)) rest
  | function (ident : Ident) (nlocals : UInt16) (rest : List Lexeme) :
      Reads .function (.name ident :: .num nlocals :: rest) (.item (.function ident nlocals)) rest
  | functionBare (ident : Ident) (rest : List Lexeme) (unread : ∀ value more, rest ≠ .num value :: more) :
      Reads .function (.name ident :: rest) (.function ident) rest
  | call (ident : Ident) (nargs : UInt16) (rest : List Lexeme) :
      Reads .call (.name ident :: .num nargs :: rest) (.item (.call ident nargs)) rest
  | callBare (ident : Ident) (rest : List Lexeme) (unread : ∀ value more, rest ≠ .num value :: more) :
      Reads .call (.name ident :: rest) (.call ident) rest

theorem Start.reads {start : Start} {lexemes rest : List Lexeme} {clause : Clause}
    (read : start.read lexemes = some (clause, rest)) : start.Reads lexemes clause rest := by
  unfold Start.read at read
  split at read
  case h_2 op t offset rest =>
    obtain ⟨seg, known, same⟩ := Option.map_eq_some_iff.mp read
    cases same
    rw [(TokenCode.segment_iff t seg).mp known]
    exact .transfer op seg offset rest
  case h_1 => cases read; exact .operation _ _
  case h_3 => cases read; exact .jump _ _ _
  case h_4 => cases read; exact .label _ _
  case h_5 => cases read; exact .function _ _ _
  case h_6 unread => cases read; exact .functionBare _ _ unread
  case h_7 => cases read; exact .call _ _ _
  case h_8 unread => cases read; exact .callBare _ _ unread
  case h_9 => cases read

def readClause : List Lexeme → Option (Clause × List Lexeme)
  | .keyword t :: rest =>
    match t.start with
    | some start => start.read rest
    | none => none
  | _ => none

def readClauses : Nat → List Lexeme → List Clause × List Lexeme
  | 0, lexemes => ([], lexemes)
  | fuel + 1, lexemes =>
    match readClause lexemes with
    | none => ([], lexemes)
    | some (clause, rest) =>
      let (clauses, left) := readClauses fuel rest
      (clause :: clauses, left)

theorem readClauses_nil (fuel : Nat) : readClauses fuel [] = ([], []) := by
  cases fuel <;> rfl

theorem readClause_item (item : Item) (rest : List Lexeme) :
    readClause (item.lexemes ++ rest) = some (.item item, rest) := by
  cases item with
  | operation op => cases op <;> rfl
  | transfer op seg offset => cases op <;> cases seg <;> rfl
  | jump op target => cases op <;> rfl
  | label ident => rfl
  | function ident nlocals => rfl
  | call ident nargs => rfl

theorem Start.read_item {start : Start} {lexemes rest : List Lexeme} {item : Item}
    (read : start.read lexemes = some (.item item, rest)) :
    .keyword start.token :: lexemes = item.lexemes ++ rest := by
  cases Start.reads read <;> rfl

theorem Start.read_unnamed {start : Start} {lexemes : List Lexeme}
    (operation : ∀ op, start ≠ .operation op) (transfer : ∀ op, start ≠ .transfer op)
    (unread : ∀ ident rest, lexemes ≠ .name ident :: rest) : start.read lexemes = none := by
  unfold Start.read
  split <;> simp_all

theorem Start.read_transfer_none {op : Transfer} {lexemes : List Lexeme}
    (unread : ∀ t offset rest, lexemes = .keyword t :: .num offset :: rest → t.segment = none) :
    (Start.transfer op).read lexemes = none := by
  unfold Start.read
  split <;> simp_all

theorem Start.read_function_bare {ident : Ident} {rest : List Lexeme}
    (unread : ∀ value more, rest ≠ .num value :: more) :
    Start.function.read (.name ident :: rest) = some (.function ident, rest) := by
  unfold Start.read
  split <;> simp_all

theorem Start.read_call_bare {ident : Ident} {rest : List Lexeme}
    (unread : ∀ value more, rest ≠ .num value :: more) :
    Start.call.read (.name ident :: rest) = some (.call ident, rest) := by
  unfold Start.read
  split <;> simp_all

theorem readClause_some {lexemes rest : List Lexeme} {item : Item}
    (read : readClause lexemes = some (.item item, rest)) : lexemes = item.lexemes ++ rest := by
  unfold readClause at read
  split at read
  · next t tail =>
    split at read
    · next start started =>
      rw [(TokenCode.start_iff t start).mp started]
      exact Start.read_item read
    · cases read
  · cases read

theorem Start.read_length {start : Start} {lexemes rest : List Lexeme} {clause : Clause}
    (read : start.read lexemes = some (clause, rest)) : rest.length ≤ lexemes.length := by
  cases Start.reads read <;> simp [Nat.le_succ_of_le]

theorem readClause_length {lexemes rest : List Lexeme} {clause : Clause}
    (read : readClause lexemes = some (clause, rest)) : rest.length < lexemes.length := by
  unfold readClause at read
  split at read
  · split at read
    · exact Nat.lt_succ_of_le (Start.read_length read)
    · cases read
  · cases read

theorem Item.lexemes_length (item : Item) : 0 < item.lexemes.length := by
  cases item <;> simp [Item.lexemes]

theorem readClauses_items (items : List Item) (fuel : Nat)
    (enough : (items.flatMap Item.lexemes).length ≤ fuel) :
    readClauses fuel (items.flatMap Item.lexemes) = (items.map Clause.item, []) := by
  induction items generalizing fuel with
  | nil => cases fuel <;> rfl
  | cons item items ih =>
    rw [List.flatMap_cons, List.length_append] at enough
    have nonempty := item.lexemes_length
    cases fuel with
    | zero => omega
    | succ fuel =>
      rw [List.flatMap_cons, readClauses, readClause_item]
      simp only [ih fuel (by omega), List.map_cons]

theorem readClauses_complete (fuel : Nat) {lexemes : List Lexeme} {items : List Item}
    (read : readClauses fuel lexemes = (items.map Clause.item, [])) :
    lexemes = items.flatMap Item.lexemes := by
  induction fuel generalizing lexemes items with
  | zero =>
    obtain ⟨none_, rfl⟩ := Prod.mk.inj read
    rw [List.map_eq_nil_iff.mp none_.symm]
    rfl
  | succ fuel ih =>
    rw [readClauses] at read
    split at read
    · obtain ⟨none_, rfl⟩ := Prod.mk.inj read
      rw [List.map_eq_nil_iff.mp none_.symm]
      rfl
    · next clause rest first =>
      obtain ⟨same, left⟩ := Prod.mk.inj read
      cases items with
      | nil => cases same
      | cons item items =>
        obtain ⟨rfl, tail⟩ := List.cons.inj same
        rw [readClause_some first, List.flatMap_cons, ih (Prod.ext tail left)]

theorem wellFormed_iff_read (tokens : List Token) :
    WellFormed tokens ↔
      ∃ items : List Item, readClauses tokens.length (tokens.map Token.lexeme) =
        (items.map Clause.item, []) := by
  refine exists_congr fun items => ⟨fun spelled => ?_, readClauses_complete _⟩
  rw [spelled]
  refine readClauses_items items _ ?_
  rw [← spelled, List.length_map]

end Hvme
