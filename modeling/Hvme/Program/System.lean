import Hvme.Model.Prog
import Hvme.Symbols.Table

set_option autoImplicit false

namespace Hvme

structure File.Sets (cfg : Config) (file : File) (entries : List (SymKey × SymVal)) (size : Nat) : Prop where
  valid : file.st.Valid cfg
  unique : file.st.UniqueKeys
  binds : ∀ key val, file.st.Binds key val ↔ (key, val) ∈ entries
  size : file.insts.cell.length = size
  ei : file.ei = 0

theorem foldl_addBii_length (body : List Inst) (insts : Insts) :
    (body.foldl addBii insts).cell.length = insts.cell.length + body.length := by
  induction body generalizing insts with
  | nil => rfl
  | cons inst body ih =>
    rw [List.foldl_cons, ih]
    simp only [addBii, List.length_append, List.length_cons, List.length_nil]
    omega

theorem addBuiltin_ok {cfg : Config} {file : File} {entries : List (SymKey × SymVal)} {addr : Nat}
    (sets : file.Sets cfg entries addr) (name : String) (nlocals : UInt16) (body : List Inst)
    (fresh : mkKey (Ident.ofString name) .func ∉ entries.map Prod.fst) :
    ∃ next, addBuiltin cfg name nlocals body file = .ok next ∧
      next.Sets cfg ((mkKey (Ident.ofString name) .func, mkFnval addr nlocals) :: entries)
        (addr + body.length) := by
  have unbound : ∀ v, ¬file.st.Binds (mkKey (Ident.ofString name) .func) v := fun v bound =>
    fresh (List.mem_map_of_mem ((sets.binds _ _).mp bound))
  obtain ⟨st, inserted, valid, unique, -, binds⟩ :=
    insertSt_fresh sets.valid sets.unique (by simp [mkKey]) unbound (mkFnval addr nlocals)
  refine ⟨{ file with st := st, insts := body.foldl addBii file.insts }, ?_, valid, unique, ?_, ?_, sets.ei⟩
  · simp only [addBuiltin, sets.size, inserted]
  · intro key val
    rw [binds, sets.binds, List.mem_cons, Prod.mk.injEq]
    exact or_comm
  · rw [foldl_addBii_length, sets.size]

theorem initSystemFile_ok (cfg : Config) :
    ∃ file, initSystemFile cfg = .ok file ∧ file.st.Valid cfg ∧ file.st.UniqueKeys ∧
      file.insts.cell.length = 22 ∧ file.ei = 20 := by
  let empty : File :=
    { filename := "<system>", st := newSt cfg, insts := newInsts (some "<system>"), mem := newMem, ei := 0 }
  -- Each builtin is added to a table that holds the earlier ones and to instructions that end where it starts.
  have start : empty.Sets cfg [] 0 :=
    ⟨newSt_valid cfg, newSt_unique cfg, fun key val => by simpa using newSt_binds cfg key val, rfl, rfl⟩
  obtain ⟨file₁, printChar, sets⟩ := addBuiltin_ok start "Sys.print_char" 0
    [.pushSeg .arg 0, .bare .builtinPrintChar, .pushSeg .const 0, .bare .ret] (by decide)
  obtain ⟨file₂, printNum, sets⟩ := addBuiltin_ok sets "Sys.print_num" 0
    [.pushSeg .arg 0, .bare .builtinPrintNum, .pushSeg .const 0, .bare .ret] (by decide)
  obtain ⟨file₃, printStr, sets⟩ := addBuiltin_ok sets "Sys.print_str" 0
    [.pushSeg .arg 0, .pushSeg .arg 1, .bare .builtinPrintStr, .pushSeg .const 0, .bare .ret] (by decide)
  obtain ⟨file₄, readChar, sets⟩ := addBuiltin_ok sets "Sys.read_char" 0
    [.bare .builtinReadChar, .bare .ret] (by decide)
  obtain ⟨file₅, readNum, sets⟩ := addBuiltin_ok sets "Sys.read_num" 0
    [.bare .builtinReadNum, .bare .ret] (by decide)
  obtain ⟨file₆, readStr, sets⟩ := addBuiltin_ok sets "Sys.read_str" 1
    [.pushSeg .arg 0, .bare .builtinReadStr, .bare .ret] (by decide)
  -- The entry is the pair behind the builtins: the pushed argument and the call of `Sys.init`.
  have run : initSystemFile cfg = .ok
      { file₆ with
        ei := UInt32.ofNat file₆.insts.cell.length
        insts := [.pushSeg .const 0,
          { Inst.zero with code := .call, ident := Ident.ofString "Sys.init", nargs := 1 }].foldl addBii
            file₆.insts } := by
    simp only [initSystemFile, builtinPrintChar, builtinPrintNum, builtinPrintStr, builtinReadChar,
      builtinReadNum, builtinReadStr]
    change (addBuiltin cfg "Sys.print_char" 0 _ empty >>= _) = _
    simp only [printChar, printNum, printStr, readChar, readNum, readStr, bind, Except.bind]
  refine ⟨_, run, sets.valid, sets.unique, ?_, ?_⟩
  · rw [foldl_addBii_length, sets.size]
    rfl
  · rw [sets.size]
    rfl

end Hvme
