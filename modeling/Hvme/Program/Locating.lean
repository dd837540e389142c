import Hvme.Machine.Laws
import Hvme.Program.Relayout
import Hvme.Scanner.Tiles
import Hvme.Vm.Process

set_option autoImplicit false

namespace Hvme

open Execution

/-- The word `text` is in the file, where `pos` says. -/
def Source.SpellsAt (src : Source) (text : String) (pos : Pos) : Prop :=
  ∃ content front rest, src.content = some content ∧ content = front ++ (ascii text ++ rest) ∧
    pos = { posAt front with filename := some src.fn }

section scanning

variable {size : Nat} {inside : Bool} {cur : Pos} {bytes content front : List Byte} {views : List View} {lost : Prop}

theorem Passage.member (passage : Passage size inside cur bytes views lost) (whole : content = front ++ bytes)
    (start : cur = posAt front) {view : View} (member : view ∈ views) :
    ∃ place word rest, content = place ++ (word ++ rest) ∧ IsWord word ∧
      view = { lexeme := wordLexeme word, pos := posAt place } := by
  -- Each piece of the passage moves the place on by what it reads.
  induction passage generalizing front with
  | done => cases member
  | blank _ _ ih | text _ _ ih | lineEnd _ ih =>
    exact ih (whole.trans (List.append_cons ..)) (by rw [start, advance_posAt]) member
  | @comment _ gap _ _ _ _ _ ih =>
    refine @ih (front ++ (ascii "//" ++ gap)) ?_ (by rw [start, advance_posAt]) member
    rw [whole, List.append_assoc, List.append_assoc]
  | @word _ word bytes _ _ here _ _ ih =>
    rcases List.mem_cons.mp member with rfl | member
    · exact ⟨front, word, bytes, whole, here.isWord, by rw [start]⟩
    · exact ih (by rw [whole, List.append_assoc]) (by rw [start, advance_posAt]) member

theorem wordLexeme_keyword {word : List Byte} {t : TokenCode} (same : wordLexeme word = .keyword t) :
    keywordOf word = some t := by
  unfold wordLexeme at same
  split at same
  · next known =>
    cases same
    exact known
  · split at same <;> cases same

theorem keyword_code : ∀ entry ∈ keywords, isInstToken entry.2 = true → entry.2 ≠ .label → entry.2 ≠ .func →
    (InstCode.ofToken entry.2).name = entry.1 := by
  simp [keywords, isInstToken_iff, TokenCode.start, InstCode.ofToken, InstCode.name]

end scanning

structure Inst.StartsAt (filename : Option String) (inst : Inst) (it : Token) : Prop where
  starts : isInstToken it.t = true ∧ it.t ≠ .label ∧ it.t ≠ .func
  code : inst.code = InstCode.ofToken it.t
  pos : inst.pos = { it.pos with filename := filename }

section parsing

variable {cfg : Config} {filename : Option String} {base : Nat}

theorem parseFn_code (its : TokenStream) (cell : Inst) (filename : Option String) (t : TokenCode) :
    (parseFn t its cell filename).inst.code = InstCode.ofToken (itsLh its).t := by
  unfold parseFn
  split <;> simp only [callInst, gotoInst, ifGotoInst, memoryInst, mapInst, itsNext] <;> (repeat' split) <;> rfl

theorem itsLh_member {its : TokenStream} (starts : isInstToken (itsLh its).t = true) : itsLh its ∈ its.tokens := by
  unfold itsLh at starts ⊢
  split at starts
  · next inside =>
    rw [if_pos inside]
    rw [List.getD_eq_getElem?_getD] at starts ⊢
    cases here : its.tokens[its.idx]? with
    | none =>
      rw [here] at starts
      cases starts
    | some it => exact List.mem_of_getElem? here
  · cases starts

structure Parser.Placed (tokens : List Token) (filename : Option String) (p : Parser) : Prop where
  stream : p.its.tokens = tokens
  named : p.insts.filename = filename
  insts : ∀ inst ∈ p.insts.cell, ∃ it ∈ tokens, inst.StartsAt filename it

theorem Parser.Placed.step {tokens : List Token} {name : Option String} {p p' : Parser}
    (placed : p.Placed tokens name) (stepped : parseStep cfg filename base p = .ok (.ok, p')) :
    p'.Placed tokens name := by
  unfold parseStep at stepped
  simp only at stepped
  split at stepped
  · cases stepped
  · next starts =>
    rw [Bool.not_eq_true', Bool.not_eq_false] at starts
    split at stepped
    · obtain ⟨d, entered, its, insts⟩ := Parser.declare_ok stepped
      exact ⟨by rw [its, labelMeta_tokens entered, placed.stream], insts ▸ placed.named, insts ▸ placed.insts⟩
    · obtain ⟨d, entered, its, insts⟩ := Parser.declare_ok stepped
      exact ⟨by rw [its, functionInst_tokens entered, placed.stream], insts ▸ placed.named, insts ▸ placed.insts⟩
    -- Only here is an instruction added, at the position of the token that starts it.
    · next label function =>
      obtain ⟨-, rfl⟩ := Prod.mk.inj (Except.ok.inj stepped)
      refine ⟨(parseFn_tokens ..).trans placed.stream, placed.named, fun inst member => ?_⟩
      rcases List.mem_append.mp member with member | member
      · exact placed.insts inst member
      · obtain rfl := List.mem_singleton.mp member
        refine ⟨itsLh p.its, placed.stream ▸ itsLh_member starts, ⟨starts, label, function⟩, parseFn_code .., ?_⟩
        rw [parseFn_pos, placed.named]

theorem Parser.Placed.loop {tokens : List Token} {name : Option String} {fuel : Nat} {p p' : Parser}
    (placed : p.Placed tokens name) (run : parseLoop cfg filename base fuel p = .ok (.ok, p')) :
    p'.Placed tokens name := by
  induction fuel generalizing p with
  | zero =>
    cases run
    exact placed
  | succ fuel ih =>
    rw [parseLoop] at run
    split at run
    · split at run
      · cases run
      · cases run
      · next stepped => exact ih (placed.step stepped) run
    · cases run
      exact placed

theorem parse_placed {tokens : Tokens} {insts : Insts} {st : Option SymbolTable} {p : Parser} (empty : insts.cell = [])
    (parsed : parse cfg tokens insts st = .ok (.ok, p)) :
    ∀ inst ∈ p.insts.cell, ∃ it ∈ tokens.cell, inst.StartsAt insts.filename it := by
  unfold parse at parsed
  simp only at parsed
  split at parsed
  · cases parsed
  · cases parsed
  · next run =>
    obtain ⟨-, rfl⟩ := Prod.mk.inj (Except.ok.inj parsed)
    refine (Parser.Placed.loop ⟨rfl, rfl, ?_⟩ run).insts
    simp [empty]

end parsing

section files

variable {cfg : Config} {fuel : Nat}

theorem procFile_spells {statics last : Statics} {src : Source} {made : Tokens × File}
    (processed : procFile cfg fuel statics src = .ok (last, some made)) :
    ∀ inst ∈ made.2.insts.cell, src.SpellsAt inst.code.name inst.pos := by
  obtain ⟨content, sc, p, st, here, returns, parsed, -, -, rfl⟩ := procFile_some processed
  intro inst member
  obtain ⟨it, token, starts⟩ := parse_placed rfl parsed inst member
  obtain ⟨-, out, lost, views, passage, -⟩ := scan_passage returns
  have read : it.view ∈ out := by
    have seen : it.view ∈ sc.views := List.mem_map_of_mem token
    rwa [views] at seen
  obtain ⟨place, word, rest, whole, isWord, same⟩ := @Passage.member _ _ _ _ _ [] _ _ passage rfl rfl _ read
  obtain ⟨lexeme, pos⟩ := View.mk.inj same
  obtain ⟨instToken, label, function⟩ := starts.starts
  -- A token that starts an instruction is neither a number nor an identifier.
  have keyword : it.lexeme = .keyword it.t := by
    refine Token.lexeme_of_keyword ?_ ?_ <;> (intro other; rw [other] at instToken; cases instToken)
  obtain ⟨text, known, rfl⟩ := keywordOf_some (wordLexeme_keyword (lexeme.symm.trans keyword))
  have name : inst.code.name = text := by
    rw [starts.code]
    exact keyword_code _ known instToken label function
  -- The passage is one of the file with a newline behind it.
  obtain ⟨rest', -, whole'⟩ := isWord.before_newline whole
  refine ⟨content, place, rest', here, name ▸ whole', ?_⟩
  rw [starts.pos, pos]
  rfl

theorem procFiles_spell {statics last : Statics} {srcs : List Source} {made : List (Tokens × File)}
    (processed : procFiles cfg fuel statics srcs = .ok (last, some made)) {i : Nat} {one : Tokens × File}
    (here : made[i]? = some one) {inst : Inst} (inside : inst ∈ one.2.insts.cell) :
    ∃ src, srcs[i]? = some src ∧ src.SpellsAt inst.code.name inst.pos := by
  induction srcs generalizing statics made i with
  | nil =>
    cases processed
    cases here
  | cons src srcs ih =>
    obtain ⟨_, mid, first, rest, -, this, others, rfl⟩ := procFiles_cons.mp processed
    cases i with
    | zero =>
      cases here
      exact ⟨src, rfl, procFile_spells this inst inside⟩
    | succ i => exact ih others here

end files

section runs

variable {cfg : Config} {m m' : Machine}

theorem Steps.code (steps : Steps cfg m m') (kept : m.Kept cfg) : m'.code = m.code := by
  obtain ⟨inst, mid, -, effect, advances⟩ := steps.effect kept.valid
  rcases effect.cases with ⟨-, called⟩ | ⟨-, returned⟩ | ⟨-, -, quiet⟩
  · exact advances.code.trans called.code
  · exact advances.code.trans returned.code
  · exact advances.code.trans quiet.code

theorem Reaches.code (reaches : Reaches cfg m m') (kept : m.Kept cfg) : m'.code = m.code := by
  induction reaches with
  | refl => rfl
  | tail steps step ih => exact (step.code (Reaches.kept steps kept)).trans ih

theorem Machine.code_of_inst {inst : Inst} (here : m.inst = some inst) :
    ∃ entry, m.code[m.prog.fi]? = some entry ∧ inst ∈ entry.2.cell := by
  obtain ⟨file, active, here⟩ := Option.bind_eq_some_iff.mp here
  refine ⟨(file.st, file.insts), ?_, List.mem_of_getElem? here⟩
  rw [Machine.code, List.getElem?_map, show m.prog.files[m.prog.fi]? = some file from active]
  rfl

theorem move_failed {diag : Diag} {io : Io} (failed : m.move cfg = .ends (.failed diag io)) :
    ∃ m', execRound cfg m = .error (.err diag) m' := by
  unfold Machine.move at failed
  split at failed
  · cases failed
  · cases failed
  · next stopped =>
    cases failed
    exact ⟨_, stopped⟩
  · cases failed

/-- A run that fails points at the keyword of the failed instruction in the file it is in, or into
the system file. -/
theorem execProg_located {fuel : Nat} {srcs : List Source} {prog : Program} {stdin : List Byte} {diag : Diag} {io : Io}
    (made : makeProg cfg fuel srcs = .ok (some prog)) (ends : ExecProg cfg prog stdin (.failed diag io)) :
    ∃ m inst, Reaches cfg (Machine.start prog stdin) m ∧ m.move cfg = .ends (.failed diag io) ∧
      m.inst = some inst ∧ diag.pos = inst.pos ∧
        (m.prog.fi = 0 ∧ inst ∈ Vm.systemInsts.cell ∨
          ∃ i src, m.prog.fi = i + 1 ∧ srcs[i]? = some src ∧ src.SpellsAt inst.code.name diag.pos) := by
  obtain ⟨m, run, ended⟩ := ends
  obtain ⟨m', failed⟩ := move_failed ended
  obtain ⟨inst, here, pos⟩ := execRound_blames failed
  have reaches := reaches_of_runs run
  refine ⟨m, inst, reaches, ended, here, pos, ?_⟩
  -- The instructions of a run are those the program has been made with.
  obtain ⟨entry, known, inside⟩ := Machine.code_of_inst here
  rw [reaches.code (start_kept (makeProg_stack made) stdin)] at known
  obtain ⟨system, _, files, installed, processed, rfl⟩ := makeProg_iff.mp made
  cases fi : m.prog.fi with
  | zero =>
    rw [fi] at known
    cases known
    obtain ⟨other, set, -, -, -, insts, -, -⟩ := Vm.initSystemFile_installs cfg
    cases installed.symm.trans set
    exact .inl ⟨rfl, insts ▸ inside⟩
  | succ i =>
    rw [fi] at known
    have behind : ((files.map Prod.snd).map fun file => (file.st, file.insts))[i]? = some entry := known
    rw [List.map_map, List.getElem?_map] at behind
    obtain ⟨one, there, rfl⟩ := Option.map_eq_some_iff.mp behind
    obtain ⟨src, there, spells⟩ := procFiles_spell processed there inside
    exact .inr ⟨i, src, rfl, there, pos ▸ spells⟩

theorem execProg_located_add :
    ∃ prog diag io m inst, programOf .unitTests "function Sys.init 0\nadd\n" = some prog ∧
      Reaches .unitTests (Machine.start prog []) m ∧ m.move .unitTests = .ends (.failed diag io) ∧
      m.inst = some inst ∧ diag.pos = inst.pos ∧
        (m.prog.fi = 0 ∧ inst ∈ Vm.systemInsts.cell ∨
          ∃ i src, m.prog.fi = i + 1 ∧
            [Source.mk "a.vm" (some (ascii "function Sys.init 0\nadd\n"))][i]? = some src ∧
            src.SpellsAt inst.code.name diag.pos) := by
  have ran : (programOf .unitTests "function Sys.init 0\nadd\n").bind (fun prog =>
      finish (Machine.move .unitTests) 20 (Machine.start prog [])) =
      some (.failed { pos := { ln := 1, cl := 0, filename := some "a.vm" }, text := "stack underflow" }
        { stdin := [], stdout := [], lastStdout := 0 }) := by
    decide +kernel
  obtain ⟨prog, made, finished⟩ := Option.bind_eq_some_iff.mp ran
  obtain ⟨m, inst, located⟩ := execProg_located (programOf_made made) (yields_of_finish finished)
  exact ⟨prog, _, _, m, inst, made, located⟩

end runs

end Hvme
