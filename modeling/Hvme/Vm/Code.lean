import Hvme.Machine.Jumps
import Hvme.Vm.State

set_option autoImplicit false

namespace Hvme.Vm

open Outcome Execution

structure Place where
  fi : Nat
  ei : Nat
deriving DecidableEq, Repr

abbrev Code := List (SymbolTable × Insts)

def definitions (code : Code) (key : SymKey) : List (Option (Place × UInt16)) :=
  code.mapIdx fun fi file => (find file.1 key).map fun val => ({ fi := fi, ei := val.instAddr }, val.nlocals)

def Control.ofCode (code : Code) : Control Place where
  fetch place := code[place.fi]?.bind fun file => file.2.cell[place.ei]?
  file place := place.fi
  next place := { place with ei := place.ei + 1 }
  target place key := resolve (definitions code key) place.fi

section resolve

variable {Loc : Type} {defs : List (Option (Loc × UInt16))} {own : Nat}

theorem resolve_own {loc : Loc} {nlocals : UInt16} (here : defs[own]? = some (some (loc, nlocals))) :
    resolve defs own = .found loc nlocals := by
  simp [resolve, here]

theorem resolve_others (free : defs.getD own none = none) : resolve defs own = pick defs.reduceOption := by
  unfold resolve
  rw [free]

end resolve

def Definition.ofHit (hit : Nat × SymVal) : Place × UInt16 := ({ fi := hit.1, ei := hit.2.instAddr }, hit.2.nlocals)

theorem definitions_hits (m : Machine) (key : SymKey) :
    (definitions m.code key).reduceOption = (hits key m.prog.files 0).map Definition.ofHit := by
  rw [hits, ← List.reduceOption_map, definitions, Machine.code]
  congr 1
  refine List.ext_getElem? fun i => ?_
  simp only [List.getElem?_mapIdx, List.getElem?_map, Option.map_map]
  cases m.prog.files[i]? with
  | none => rfl
  | some file => cases found : find file.st key <;> simp [Definition.ofHit, found]

theorem wp_jumpTo_code {cfg : Config} {m : Machine} {file : File} {key : SymKey} {out : SymVal}
    {post : JumpResult × SymVal → Machine → Prop} {stop : Stop → Machine → Prop}
    (tables : ∀ file ∈ m.code, file.1.Valid cfg) (active : m.file = some file)
    (found : ∀ fi val file, m.prog.files[fi]? = some file → find file.st key = some val →
      resolve (definitions m.code key) m.prog.fi = .found { fi := fi, ei := val.instAddr } val.nlocals →
      post (.ok, val) (m.landed fi val))
    (missing : resolve (definitions m.code key) m.prog.fi = .missing → post (.err, out) m)
    (ambiguous : resolve (definitions m.code key) m.prog.fi = .ambiguous → ∀ val, post (.multDef, val) m) :
    wp (jumpTo key out) post stop m := by
  have valid : ∀ file ∈ m.prog.files, file.st.Valid cfg := fun file member =>
    tables _ (List.mem_map_of_mem member)
  have here : (definitions m.code key)[m.prog.fi]? =
      some ((find file.st key).map fun val => ({ fi := m.prog.fi, ei := val.instAddr }, val.nlocals)) := by
    rw [definitions, List.getElem?_mapIdx, Machine.code, List.getElem?_map,
      show m.prog.files[m.prog.fi]? = some file from active]
    rfl
  have others (none_ : find file.st key = none) :
      resolve (definitions m.code key) m.prog.fi = pick ((hits key m.prog.files 0).map Definition.ofHit) := by
    rw [none_] at here
    rw [resolve_others (by simp [List.getD_eq_getElem?_getD, here]), definitions_hits]
  apply wp_jumpTo_hits valid active
  next =>
    intro val own
    rw [own] at here
    exact found m.prog.fi val file active own (resolve_own here)
  next =>
    intro none_ fi val known
    obtain ⟨i, there, rfl, at_, bound⟩ := mem_hits.mp (known ▸ List.mem_cons_self : (fi, val) ∈ _)
    have resolved := others none_
    rw [known] at resolved
    rw [Nat.zero_add] at resolved ⊢
    exact found i val there at_ bound resolved
  next =>
    intro none_ known
    have resolved := others none_
    rw [known] at resolved
    exact missing resolved
  next =>
    intro none_ first second rest known
    have resolved := others none_
    rw [known] at resolved
    exact ambiguous resolved

end Hvme.Vm
