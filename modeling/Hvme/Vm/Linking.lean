import Hvme.Vm.Writing

set_option autoImplicit false

namespace Hvme.Vm

open Execution

section declarations

variable {files : List (List Line)} {key : SymKey}

theorem mem_declarationsOf {spot : Spot} {nlocals : UInt16} :
    (spot, nlocals) ∈ (declarationsOf files key).reduceOption ↔
      ∃ lines, files[spot.fi]? = some lines ∧ locate key lines = some (spot.lines, nlocals) := by
  rw [List.reduceOption_mem_iff, declarationsOf, List.mem_iff_getElem?]
  simp only [List.getElem?_mapIdx, Option.map_eq_some_iff, Prod.mk.injEq]
  constructor
  · rintro ⟨fi, lines, here, found, located, rfl, rfl⟩
    exact ⟨lines, here, located⟩
  · rintro ⟨lines, here, located⟩
    exact ⟨spot.fi, lines, here, _, located, rfl, rfl⟩

def declarationAt (files : List (List Line)) (key : SymKey) (fi : Nat) : Option (Spot × UInt16) :=
  files[fi]?.bind fun lines => (locate key lines).map fun found => ({ fi := fi, lines := found.1 }, found.2)

theorem declarationsOf_range (files : List (List Line)) (key : SymKey) :
    declarationsOf files key = (List.range files.length).map (declarationAt files key) := by
  refine List.ext_getElem? fun fi => ?_
  rw [declarationsOf, List.getElem?_mapIdx, List.getElem?_map]
  by_cases inside : fi < files.length
  · rw [List.getElem?_range inside, List.getElem?_eq_getElem inside, Option.map_some, Option.map_some, declarationAt,
      List.getElem?_eq_getElem inside, Option.bind_some]
  · rw [List.getElem?_eq_none (by omega), List.getElem?_eq_none (by rw [List.length_range]; omega), Option.map_none,
      Option.map_none]

theorem declarationAt_fi {fi : Nat} {decl : Spot × UInt16} (found : declarationAt files key fi = some decl) :
    decl.1.fi = fi := by
  obtain ⟨lines, -, located⟩ := Option.bind_eq_some_iff.mp found
  obtain ⟨-, -, rfl⟩ := Option.map_eq_some_iff.mp located
  rfl

theorem declarationsOf_getD (files : List (List Line)) (key : SymKey) (fi : Nat) :
    (declarationsOf files key).getD fi none = declarationAt files key fi := by
  rw [List.getD_eq_getElem?_getD, declarationsOf, List.getElem?_mapIdx, declarationAt]
  cases files[fi]? <;> rfl

theorem declarationsOf_nodup (files : List (List Line)) (key : SymKey) :
    (declarationsOf files key).reduceOption.Nodup := by
  rw [declarationsOf_range, List.reduceOption, List.filterMap_map]
  refine List.nodup_range.filterMap fun fi fi' decl here there => ?_
  exact (declarationAt_fi here).symm.trans (declarationAt_fi there)

end declarations

theorem pick_perm {Loc : Type} {found found' : List (Loc × UInt16)} (perm : found.Perm found') :
    pick found = pick found' := by
  induction perm with
  | nil => rfl
  | @cons one rest rest' perm _ =>
    -- Only whether there is none, one or more counts, and of one there is one order.
    cases rest with
    | nil => rw [perm.nil_eq]
    | cons second rest =>
      cases rest' with
      | nil => cases perm.eq_nil
      | cons second' rest' => rfl
  | swap => rfl
  | trans _ _ first second => exact first.trans second

def namesOf (files : List (List Line)) : List SymKey := (files.flatMap executables).filterMap jumpKey

structure Embeds (place : Nat → Nat) (files files' : List (List Line)) : Prop where
  injective : Function.Injective place
  kept : ∀ fi lines, files[fi]? = some lines → files'[place fi]? = some lines
  silent : ∀ fi lines, files'[fi]? = some lines → (∀ own < files.length, place own ≠ fi) →
    ∀ key ∈ namesOf files, locate key lines = none

structure MovedTo (place : Nat → Nat) (files : List (List Line)) (spot spot' : Spot) : Prop where
  fi : spot'.fi = place spot.fi
  lines : spot'.lines = spot.lines
  inside : ∃ lines, files[spot.fi]? = some lines ∧ spot.lines <:+ lines

def moveDecl (place : Nat → Nat) (decl : Spot × UInt16) : Spot × UInt16 := ({ decl.1 with fi := place decl.1.fi }, decl.2)

theorem moveDecl_injective {place : Nat → Nat} (injective : Function.Injective place) :
    Function.Injective (moveDecl place) := by
  rintro ⟨⟨fi, lines⟩, nlocals⟩ ⟨⟨fi', lines'⟩, nlocals'⟩ same
  simp only [moveDecl, Prod.mk.injEq, Spot.mk.injEq] at same
  obtain ⟨⟨fi_eq, rfl⟩, rfl⟩ := same
  rw [injective fi_eq]

theorem locate_suffix {key : SymKey} {lines : List Line} {found : List Line × UInt16}
    (located : locate key lines = some found) : found.1 <:+ lines := by
  induction lines with
  | nil => cases located
  | cons line lines ih =>
    cases line with
    | declares other nlocals =>
      rw [locate] at located
      split at located
      · cases located
        exact List.suffix_cons _ _
      · exact (ih located).trans (List.suffix_cons _ _)
    | executes inst => exact (ih located).trans (List.suffix_cons _ _)

theorem skip_suffix (lines : List Line) : skip lines <:+ lines := by
  induction lines with
  | nil => exact List.suffix_rfl
  | cons line lines ih =>
    cases line with
    | declares key nlocals => exact ih.trans (List.suffix_cons _ _)
    | executes inst => exact List.suffix_cons _ _

section embeds

variable {place : Nat → Nat} {files files' : List (List Line)} (embeds : Embeds place files files') {key : SymKey}

include embeds

theorem Embeds.declarationAt {fi : Nat} {lines : List Line} (here : files[fi]? = some lines) :
    declarationAt files' key (place fi) = (declarationAt files key fi).map (moveDecl place) := by
  rw [Vm.declarationAt, Vm.declarationAt, here, embeds.kept fi lines here, Option.bind_some, Option.bind_some,
    Option.map_map]
  rfl

theorem Embeds.perm (used : key ∈ namesOf files) :
    ((declarationsOf files key).reduceOption.map (moveDecl place)).Perm (declarationsOf files' key).reduceOption := by
  have distinct := (declarationsOf_nodup files key).map (moveDecl_injective embeds.injective)
  refine (List.perm_ext_iff_of_nodup distinct (declarationsOf_nodup files' key)).mpr fun decl => ?_
  rw [List.mem_map]
  constructor
  · rintro ⟨⟨spot, nlocals⟩, member, rfl⟩
    obtain ⟨lines, here, located⟩ := mem_declarationsOf.mp member
    exact mem_declarationsOf.mpr ⟨lines, embeds.kept _ _ here, located⟩
  · obtain ⟨⟨fi, behind⟩, nlocals⟩ := decl
    intro member
    obtain ⟨lines, here, located⟩ := mem_declarationsOf.mp member
    -- A file that is there besides declares nothing of that name.
    obtain ⟨own, inside, rfl⟩ : ∃ own < files.length, place own = fi := by
      by_contra outside
      push Not at outside
      cases located.symm.trans (embeds.silent fi lines here outside key used)
    have same := embeds.kept own _ (List.getElem?_eq_getElem inside)
    cases same.symm.trans here
    exact ⟨({ fi := own, lines := behind }, nlocals), mem_declarationsOf.mpr ⟨_, List.getElem?_eq_getElem inside, located⟩,
      rfl⟩

theorem Embeds.resolve {own : Nat} {lines : List Line} (here : files[own]? = some lines) (used : key ∈ namesOf files) :
    SameTarget (MovedTo place files) (resolve (declarationsOf files key) own)
      (resolve (declarationsOf files' key) (place own)) := by
  have moved {decl : Spot × UInt16} (member : decl ∈ (declarationsOf files key).reduceOption) :
      MovedTo place files decl.1 (moveDecl place decl).1 := by
    obtain ⟨lines, here, located⟩ := mem_declarationsOf.mp member
    exact ⟨rfl, rfl, lines, here, locate_suffix located⟩
  unfold Vm.resolve
  rw [declarationsOf_getD, declarationsOf_getD, embeds.declarationAt here]
  cases found : Vm.declarationAt files key own with
  | some decl =>
    obtain ⟨lines', there, located⟩ := Option.bind_eq_some_iff.mp found
    obtain ⟨behind, located', rfl⟩ := Option.map_eq_some_iff.mp located
    exact .found ⟨rfl, rfl, lines', there, locate_suffix located'⟩ _
  -- The other files' definitions may come in another order.
  | none =>
    rw [Option.map_none, ← pick_perm (embeds.perm used)]
    refine pick_same (List.forall₂_map_right_iff.mpr (List.forall₂_same.mpr fun decl member => ?_))
    exact ⟨moved member, rfl⟩

theorem Embeds.corresponds :
    Corresponds (Control.ofLines files) (Control.ofLines files') place (MovedTo place files) where
  injective := embeds.injective
  ended := by
    rintro spot spot' ⟨-, lines, -⟩ ended
    simpa only [Control.ofLines, lines] using ended
  fetched := by
    rintro spot spot' inst ⟨fi, same, lines, here, suffix⟩ fetched
    have member : inst ∈ executables lines := by
      obtain ⟨line, line_member, is⟩ := List.exists_of_findSome?_eq_some fetched
      exact List.mem_filterMap.mpr ⟨line, suffix.subset line_member, is⟩
    refine ⟨inst, ?_, SameInst.refl inst, fi, ⟨fi, ?_, lines, here, (skip_suffix _).trans suffix⟩, fun key jumps => ?_⟩
    · simpa only [Control.ofLines, same] using fetched
    · simp only [Control.ofLines, same]
    · have used : key ∈ namesOf files :=
        List.mem_filterMap.mpr ⟨inst, List.mem_flatMap.mpr ⟨lines, List.mem_of_getElem? here, member⟩, jumps⟩
      have resolved := embeds.resolve here used
      simpa only [Control.ofLines, fi] using resolved

end embeds

def behindFirst (place : Equiv.Perm Nat) : Equiv.Perm Nat where
  toFun
    | 0 => 0
    | i + 1 => place i + 1
  invFun
    | 0 => 0
    | i + 1 => place.symm i + 1
  left_inv := by
    intro i
    cases i with
    | zero => rfl
    | succ i => simp
  right_inv := by
    intro i
    cases i with
    | zero => rfl
    | succ i => simp

theorem getElem?_behindFirst {A : Type} {place : Equiv.Perm Nat} {as bs : List A} (a : A)
    (same : ∀ i : Nat, bs[place i]? = as[i]?) (i : Nat) : (a :: bs)[behindFirst place i]? = (a :: as)[i]? := by
  cases i with
  | zero => rfl
  | succ i => exact same i

theorem perm_place {A : Type} {as bs : List A} (perm : as.Perm bs) :
    ∃ place : Equiv.Perm Nat, ∀ i : Nat, bs[place i]? = as[i]? := by
  induction perm with
  | nil => exact ⟨1, fun i => rfl⟩
  | cons a rest ih =>
    obtain ⟨place, same⟩ := ih
    exact ⟨behindFirst place, getElem?_behindFirst a same⟩
  | swap a b rest =>
    refine ⟨Equiv.swap 0 1, fun i => ?_⟩
    match i with
    | 0 => rfl
    | 1 => rfl
    | i + 2 => rw [Equiv.swap_apply_of_ne_of_ne (by omega) (by omega)]; rfl
  | trans _ _ first second =>
    obtain ⟨place, same⟩ := first
    obtain ⟨place', same'⟩ := second
    refine ⟨place.trans place', fun i => ?_⟩
    rw [Equiv.trans_apply, same', same]

theorem Embeds.of_perm {place : Equiv.Perm Nat} {files files' : List (List Line)}
    (same : ∀ i : Nat, files'[place i]? = files[i]?) : Embeds place files files' where
  injective := place.injective
  kept := fun fi lines here => (same fi).trans here
  silent := by
    intro fi lines here outside key _
    -- No file is there besides.
    have back := same (place.symm fi)
    rw [Equiv.apply_symm_apply, here] at back
    exact absurd (place.apply_symm_apply fi) (outside _ (List.getElem?_eq_some_iff.mp back.symm).1)

theorem Embeds.of_append {files others : List (List Line)}
    (silent : ∀ lines ∈ others, ∀ key ∈ namesOf files, locate key lines = none) : Embeds id files (files ++ others) where
  injective := Function.injective_id
  kept := by
    intro fi lines here
    exact (List.getElem?_append_left (List.getElem?_eq_some_iff.mp here).1).trans here
  silent := by
    intro fi lines here outside key used
    -- The files besides are those behind.
    have beyond : files.length ≤ fi := by
      by_contra inside
      exact outside fi (Nat.lt_of_not_le inside) rfl
    rw [List.getElem?_append_right beyond] at here
    exact silent lines (List.mem_of_getElem? here) key used

/-- Both programs end, and fail, in the same ways. -/
def SameRuns (cfg : Config) (prog : Program) (cfg' : Config) (prog' : Program) (stdin : List Byte) : Prop :=
  ∀ result, (∃ ending, ExecProg cfg prog stdin ending ∧ outcome ending = result) ↔
    ∃ ending, ExecProg cfg' prog' stdin ending ∧ outcome ending = result

section runs

variable {σ τ : Type} {cfg cfg' : Config} {prog prog' : Program} {stdin : List Byte} {move : σ → Move σ End}
  {move' : τ → Move τ End} {start : σ} {start' : τ}

theorem Implements.ends_iff (implements_ : Implements cfg prog stdin move start) (kept : ¬Yields move start .lost)
    (result : End) :
    (∃ ending, ExecProg cfg prog stdin ending ∧ outcome ending = result) ↔ Yields move start result := by
  constructor
  · rintro ⟨ending, ends, rfl⟩
    exact (implements_.ends ending ends).resolve_right kept
  · intro yields
    refine implements_.ends_back result (fun lost => ?_) yields
    exact kept (lost ▸ yields)

theorem sameRuns_of_agree {R : σ → τ → Prop} (implements_ : Implements cfg prog stdin move start)
    (implements' : Implements cfg' prog' stdin move' start') (agree : Agree move move' R) (related : R start start')
    (kept : ¬Yields move start .lost) : SameRuns cfg prog cfg' prog' stdin := by
  intro result
  have kept' : ¬Yields move' start' .lost := fun lost => kept ((agree.yields_iff related).mpr lost)
  rw [implements_.ends_iff kept, implements'.ends_iff kept', agree.yields_iff related]

end runs

theorem start_moved {place : Nat → Nat} (first : place 0 = 0) (files : List (List Line)) :
    MovedTo place (systemLines :: files) Spot.start Spot.start where
  fi := first.symm
  lines := rfl
  inside := ⟨systemLines, rfl, List.suffix_append _ _⟩

section programs

variable {cfg cfg' : Config} {fuel fuel' : Nat} {srcs srcs' : List Source} {files : List (List Line)}
  {prog prog' : Program}

/-- Neither the order of the files nor the sizes of the build make a difference. -/
theorem execProg_reordered {files' : List (List Line)} (listed : Listed cfg fuel srcs files)
    (made : makeProg cfg fuel srcs = .ok (some prog)) (listed' : Listed cfg' fuel' srcs' files')
    (made' : makeProg cfg' fuel' srcs' = .ok (some prog')) (order : files.Perm files') (small : Small files)
    (stdin : List Byte)
    (kept : ¬Yields (interpret files) (launch stdin) .lost) :
    SameRuns cfg prog cfg' prog' stdin := by
  have small' : Small files' :=
    ⟨fun lines member => small.insts lines (order.mem_iff.mpr member), order.length_eq ▸ small.files⟩
  obtain ⟨place, same⟩ := perm_place order
  have embeds := Embeds.of_perm (getElem?_behindFirst systemLines same)
  exact sameRuns_of_agree (listed.runs made small stdin) (listed'.runs made' small' stdin)
    embeds.corresponds.agree (start_beside (start_moved rfl files) stdin) kept

theorem execProg_reordered_sample :
    ∃ fuel prog fuel' prog', makeProg .unitTests fuel (sample.map Written.source) = .ok (some prog) ∧
      makeProg .release fuel' (sample.reverse.map Written.source) = .ok (some prog') ∧
      SameRuns .unitTests prog .release prog' [] := by
  obtain ⟨fuel, prog, made, listed⟩ := good_listed sample_good
  obtain ⟨fuel', prog', made', listed'⟩ :=
    @good_listed .release sample.reverse (by decide +kernel)
  have order : (sample.map Written.lines).Perm (sample.reverse.map Written.lines) :=
    (List.reverse_perm sample).symm.map _
  exact ⟨fuel, prog, fuel', prog', made, made',
    execProg_reordered listed made listed' made' order sample_small [] sample_kept⟩

/-- Files that take none of the names make no difference. -/
theorem execProg_linked {others : List (List Line)} (listed : Listed cfg fuel srcs files)
    (made : makeProg cfg fuel srcs = .ok (some prog)) (listed' : Listed cfg' fuel' srcs' (files ++ others))
    (made' : makeProg cfg' fuel' srcs' = .ok (some prog'))
    (silent : ∀ lines ∈ others, ∀ key ∈ namesOf (systemLines :: files), locate key lines = none)
    (small : Small (files ++ others)) (stdin : List Byte)
    (kept : ¬Yields (interpret files) (launch stdin) .lost) :
    SameRuns cfg prog cfg' prog' stdin := by
  have count := small.files
  rw [List.length_append] at count
  have small' : Small files :=
    ⟨fun lines member => small.insts lines (List.mem_append_left _ member), by omega⟩
  exact sameRuns_of_agree (listed.runs made small' stdin) (listed'.runs made' small stdin)
    (Embeds.of_append silent).corresponds.agree (start_beside (start_moved rfl files) stdin) kept

def spare : List Written :=
  [{ fn := "Spare.vm", items := [.function (Ident.ofString "Spare.f") 0, .transfer .push .const 0, .operation .ret] }]

theorem execProg_linked_sample :
    ∃ fuel prog fuel' prog', makeProg .unitTests fuel (sample.map Written.source) = .ok (some prog) ∧
      makeProg .unitTests fuel' ((sample ++ spare).map Written.source) = .ok (some prog') ∧
      SameRuns .unitTests prog .unitTests prog' [] := by
  obtain ⟨fuel, prog, made, listed⟩ := good_listed sample_good
  obtain ⟨fuel', prog', made', listed'⟩ :=
    @good_listed .unitTests (sample ++ spare) (by decide +kernel)
  rw [List.map_append] at listed'
  exact ⟨fuel, prog, fuel', prog', made, made',
    execProg_linked listed made listed' made' (by decide +kernel) ⟨by decide +kernel, by decide⟩ [] sample_kept⟩

end programs

end Hvme.Vm
