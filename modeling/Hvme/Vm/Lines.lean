import Hvme.Vm.Loading
import Hvme.Vm.Relating

set_option autoImplicit false

namespace Hvme.Vm

open Execution

inductive Line
  | declares (key : SymKey) (nlocals : UInt16)
  | executes (inst : Inst)
deriving DecidableEq, Repr

def Line.inst : Line → Option Inst
  | .declares _ _ => none
  | .executes inst => some inst

def Line.key : Line → Option SymKey
  | .declares key _ => some key
  | .executes _ => none

structure Spot where
  fi : Nat
  lines : List Line
deriving DecidableEq, Repr

def skip : List Line → List Line
  | [] => []
  | .declares _ _ :: lines => skip lines
  | .executes _ :: lines => lines

def locate (key : SymKey) : List Line → Option (List Line × UInt16)
  | [] => none
  | .declares other nlocals :: lines => if other = key then some (lines, nlocals) else locate key lines
  | .executes _ :: lines => locate key lines

def declarationsOf (files : List (List Line)) (key : SymKey) : List (Option (Spot × UInt16)) :=
  files.mapIdx fun fi lines => (locate key lines).map fun found => ({ fi := fi, lines := found.1 }, found.2)

def Control.ofLines (files : List (List Line)) : Control Spot where
  fetch spot := spot.lines.findSome? Line.inst
  file spot := spot.fi
  next spot := { spot with lines := skip spot.lines }
  target spot key := resolve (declarationsOf files key) spot.fi

def executables (lines : List Line) : List Inst := lines.filterMap Line.inst

theorem findSome_executables (lines : List Line) : lines.findSome? Line.inst = (executables lines).head? := by
  induction lines with
  | nil => rfl
  | cons line lines ih =>
    cases line with
    | declares key nlocals => exact ih
    | executes inst => rfl

theorem executables_skip (lines : List Line) : executables (skip lines) = (executables lines).tail := by
  induction lines with
  | nil => rfl
  | cons line lines ih =>
    cases line with
    | declares key nlocals => exact ih
    | executes inst => rfl

def entriesOf (addr : Nat) : List Line → List (SymKey × SymVal)
  | [] => []
  | .declares key nlocals :: lines => (key, { instAddr := addr, nlocals := nlocals }) :: entriesOf addr lines
  | .executes _ :: lines => entriesOf (addr + 1) lines

theorem entriesOf_keys (addr : Nat) (lines : List Line) :
    (entriesOf addr lines).map Prod.fst = lines.filterMap Line.key := by
  induction lines generalizing addr with
  | nil => rfl
  | cons line lines ih =>
    cases line with
    | declares key nlocals => exact congrArg (key :: ·) (ih addr)
    | executes inst => exact ih (addr + 1)

theorem locate_none (key : SymKey) (lines : List Line) :
    locate key lines = none ↔ key ∉ lines.filterMap Line.key := by
  induction lines with
  | nil => simp [locate]
  | cons line lines ih =>
    cases line with
    | declares other nlocals =>
      rw [locate]
      by_cases same : other = key
      · simp [same, Line.key]
      · simp [same, Ne.symm same, Line.key, ih]
    | executes inst => simpa [locate, Line.key] using ih

theorem locate_entry {key : SymKey} {val : SymVal} {addr : Nat} {lines : List Line}
    (distinct : (lines.filterMap Line.key).Nodup) (entry : (key, val) ∈ entriesOf addr lines) :
    addr ≤ val.instAddr ∧ ∃ behind, locate key lines = some (behind, val.nlocals) ∧
      executables behind = (executables lines).drop (val.instAddr - addr) := by
  induction lines generalizing addr with
  | nil => cases entry
  | cons line lines ih =>
    cases line with
    | declares other nlocals =>
      obtain ⟨fresh, distinct⟩ := List.nodup_cons.mp distinct
      rw [locate]
      rcases List.mem_cons.mp entry with here | later
      · cases here
        exact ⟨le_rfl, lines, by rw [if_pos rfl], by rw [Nat.sub_self]; rfl⟩
      -- The name has not been declared before, since no name is declared twice.
      · have known := List.mem_map_of_mem (f := Prod.fst) later
        rw [entriesOf_keys] at known
        rw [if_neg fun same : other = key => fresh (same ▸ known)]
        exact ih distinct later
    | executes inst =>
      obtain ⟨beyond, behind, located, same⟩ := @ih (addr + 1) distinct entry
      refine ⟨by omega, behind, located, ?_⟩
      rw [same, show val.instAddr - addr = val.instAddr - (addr + 1) + 1 by omega]
      rfl

structure Assembled (cfg : Config) (file : SymbolTable × Insts) (lines : List Line) : Prop where
  valid : file.1.Valid cfg
  unique : file.1.UniqueKeys
  distinct : (lines.filterMap Line.key).Nodup
  binds : ∀ key val, file.1.Binds key val ↔ (key, val) ∈ entriesOf 0 lines
  insts : List.Forall₂ SameInst file.2.cell (executables lines)

structure Here (code : Code) (place : Place) (spot : Spot) : Prop where
  fi : place.fi = spot.fi
  insts : ∃ file, code[place.fi]? = some file ∧
    List.Forall₂ SameInst (file.2.cell.drop place.ei) (executables spot.lines)

section assembled

variable {cfg : Config} {file : SymbolTable × Insts} {lines : List Line} {key : SymKey}

theorem Assembled.find_locate (assembled : Assembled cfg file lines) (typed : key.type ≠ .unused) :
    find file.1 key = none ∧ locate key lines = none ∨
      ∃ val behind, find file.1 key = some val ∧ locate key lines = some (behind, val.nlocals) ∧
        List.Forall₂ SameInst (file.2.cell.drop val.instAddr) (executables behind) := by
  have binds (val : SymVal) := (find_iff assembled.valid assembled.unique typed).trans (assembled.binds key val)
  cases found : find file.1 key with
  | none =>
    refine .inl ⟨rfl, ?_⟩
    rw [locate_none, ← entriesOf_keys 0]
    intro declared
    obtain ⟨⟨key, val⟩, entry, rfl⟩ := List.mem_map.mp declared
    rw [(binds val).mpr entry] at found
    cases found
  | some val =>
    obtain ⟨-, behind, located, same⟩ := locate_entry assembled.distinct ((binds val).mp found)
    refine .inr ⟨val, behind, rfl, located, ?_⟩
    rw [same, Nat.sub_zero]
    exact List.forall₂_drop _ assembled.insts

end assembled

theorem jumpKey_typed {inst : Inst} {key : SymKey} (jumps : jumpKey inst = some key) : key.type ≠ .unused := by
  unfold jumpKey at jumps
  split at jumps <;> cases jumps <;> simp [mkKey]

section resolve

variable {Loc Loc' : Type} {R : Loc → Loc' → Prop}

def SameDefinition (R : Loc → Loc' → Prop) : Option (Loc × UInt16) → Option (Loc' × UInt16) → Prop :=
  Option.Rel fun found found' => R found.1 found'.1 ∧ found.2 = found'.2

theorem pick_same {found : List (Loc × UInt16)} {found' : List (Loc' × UInt16)}
    (same : List.Forall₂ (fun found found' => R found.1 found'.1 ∧ found.2 = found'.2) found found') :
    SameTarget R (pick found) (pick found') := by
  cases same with
  | nil => exact .missing
  | @cons one one' _ _ first rest =>
    cases rest with
    | cons second rest => exact .ambiguous
    | nil =>
      obtain ⟨related, nlocals⟩ := first
      rw [pick, pick, ← nlocals]
      exact .found related _

theorem reduceOption_same {A B : Type} {S : A → B → Prop} {defs : List (Option A)} {defs' : List (Option B)}
    (same : List.Forall₂ (Option.Rel S) defs defs') : List.Forall₂ S defs.reduceOption defs'.reduceOption := by
  induction same with
  | nil => exact .nil
  | cons first rest ih =>
    cases first with
    | none => exact ih
    | some related => exact .cons related ih

theorem getD_same {A B : Type} {S : A → B → Prop} {as : List A} {bs : List B} {a : A} {b : B}
    (same : List.Forall₂ S as bs) (outside : S a b) (i : Nat) : S (as.getD i a) (bs.getD i b) := by
  induction same generalizing i with
  | nil => exact outside
  | cons first rest ih =>
    cases i with
    | zero => exact first
    | succ i => exact ih i

theorem resolve_same {defs : List (Option (Loc × UInt16))} {defs' : List (Option (Loc' × UInt16))}
    (same : List.Forall₂ (SameDefinition R) defs defs') (own : Nat) :
    SameTarget R (resolve defs own) (resolve defs' own) := by
  have here := getD_same same .none own
  unfold resolve
  generalize defs.getD own none = found, defs'.getD own none = found' at here ⊢
  cases here with
  | none => exact pick_same (reduceOption_same same)
  | @some one one' both =>
    obtain ⟨related, nlocals⟩ := both
    simp only [← nlocals]
    exact .found related _

end resolve

section assembled

variable {cfg : Config} {code : Code} {files : List (List Line)}

theorem definitions_same (assembled : List.Forall₂ (Assembled cfg) code files) {key : SymKey}
    (typed : key.type ≠ .unused) :
    List.Forall₂ (SameDefinition (Here code)) (definitions code key) (declarationsOf files key) := by
  refine List.forall₂_iff_get.mpr ⟨?_, fun i inside inside' => ?_⟩
  · rw [definitions, declarationsOf, List.length_mapIdx, List.length_mapIdx, assembled.length_eq]
  · simp only [definitions, declarationsOf, List.length_mapIdx] at inside inside'
    simp only [definitions, declarationsOf, List.get_eq_getElem, List.getElem_mapIdx]
    have here := List.Forall₂.get assembled inside inside'
    rcases here.find_locate typed with ⟨found, located⟩ | ⟨val, behind, found, located, insts⟩
    · simp only [List.get_eq_getElem] at found located
      rw [found, located]
      exact .none
    · simp only [List.get_eq_getElem] at found located insts
      rw [found, located]
      exact .some ⟨⟨rfl, _, List.getElem?_eq_getElem inside, insts⟩, rfl⟩

theorem ofCode_fetch {place : Place} {file : SymbolTable × Insts} (here : code[place.fi]? = some file) :
    (Control.ofCode code).fetch place = (file.2.cell.drop place.ei).head? := by
  simp only [List.head?_drop, Control.ofCode, here, Option.bind_some]

theorem assembled_corresponds (assembled : List.Forall₂ (Assembled cfg) code files) :
    Corresponds (Control.ofCode code) (Control.ofLines files) id (Here code) where
  injective := Function.injective_id
  ended := by
    rintro place spot ⟨-, file, here, insts⟩ ended
    rw [ofCode_fetch here] at ended
    rw [List.head?_eq_none_iff.mp ended, List.forall₂_nil_left_iff] at insts
    exact (findSome_executables spot.lines).trans (insts ▸ rfl)
  fetched := by
    rintro place spot inst ⟨fi, file, here, insts⟩ fetched
    rw [ofCode_fetch here] at fetched
    obtain ⟨later, split_⟩ := List.head?_eq_some_iff.mp fetched
    rw [split_] at insts
    obtain ⟨other, later', same, rest, split'⟩ := List.forall₂_cons_left_iff.mp insts
    refine ⟨other, (findSome_executables spot.lines).trans (split' ▸ rfl), same, fi.symm, ⟨fi, file, here, ?_⟩, ?_⟩
    · have after : file.2.cell.drop (place.ei + 1) = later := by
        rw [← List.tail_drop, split_, List.tail_cons]
      simp only [Control.ofCode, Control.ofLines, executables_skip, split', List.tail_cons]
      exact after ▸ rest
    · intro key jumps
      have resolved := resolve_same (definitions_same assembled (jumpKey_typed jumps)) place.fi
      simp only [Control.ofCode, Control.ofLines, ← fi]
      exact resolved

end assembled

end Hvme.Vm
