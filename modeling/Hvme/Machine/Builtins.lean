import Hvme.Machine.Heap

set_option autoImplicit false

namespace Hvme

open Outcome

def Machine.under (m : Machine) : Option Word := m.prog.stack.ops[m.prog.stack.sp - 2]?

theorem Popped.under_eq {cfg : Config} {m : Machine} {y x : Word} {mid after : Stack}
    (popped : Popped cfg m.prog.stack y mid) (popped' : Popped cfg mid x after) : m.under = some x := by
  have sp := popped.sp
  have sp' := popped'.sp
  have at_ : m.prog.stack.sp - 2 = after.sp := by omega
  rw [Machine.under, at_, ← popped.below after.sp (by omega)]
  exact popped'.top

section printing

theorem hvmeFprintf_byte (byte : Byte) (io : Io) :
    (hvmeFprintf [byte] io).stdout = io.stdout ++ [byte].filter (· ≠ 0) := by
  by_cases zero : byte = 0 <;> simp [hvmeFprintf, hvmeFputs, printBufSize, zero]

variable {heap : Heap} {start : Addr} (size : heap.mem.length = memHeapSize)

include size

theorem heapGet_of_lt {addr : Addr} (inside : addr.toNat < memHeapSize) :
    ∃ val, heap.mem[addr.toNat]? = some val ∧ heapGet heap addr = .ok val := by
  have here := List.getElem?_eq_getElem (size ▸ inside)
  exact ⟨_, here, by rw [heapGet, here]⟩

theorem heapGet_of_ge {addr : Addr} (outside : memHeapSize ≤ addr.toNat) :
    heapGet heap addr = .error .outOfBounds := by
  rw [heapGet, List.getElem?_eq_none (size ▸ outside)]

theorem printStrLoop_prints (count : Nat) (i : Addr) (io : Io)
    (inside : start.toNat + i.toNat + count ≤ memHeapSize) :
    ∃ io', printStrLoop heap start count i io = .ok io' ∧ io'.stdout = io.stdout ++
      (((heap.mem.drop (start.toNat + i.toNat)).take count).map UInt16.toUInt8).filter (· ≠ 0) := by
  induction count generalizing i io with
  | zero => exact ⟨io, rfl, by simp⟩
  | succ count ih =>
    have small : memHeapSize < 2 ^ 16 := by decide
    have addr : (start + i).toNat = start.toNat + i.toNat := by
      rw [UInt16.toNat_add]
      omega
    have next : (i + 1).toNat = i.toNat + 1 := by
      rw [UInt16.toNat_add]
      simp only [UInt16.reduceToNat]
      omega
    obtain ⟨val, here, read⟩ := heapGet_of_lt size (show (start + i).toNat < memHeapSize by omega)
    obtain ⟨io', run, printed⟩ := ih (i + 1) (hvmeFprintf [val.toUInt8] io) (by omega)
    rw [addr] at here
    have split : heap.mem.drop (start.toNat + i.toNat) = val :: heap.mem.drop (start.toNat + (i + 1).toNat) := by
      rw [next, ← Nat.add_assoc, List.drop_eq_getElem?_toList_append, here]
      rfl
    refine ⟨io', by rw [printStrLoop, read]; exact run, ?_⟩
    rw [printed, hvmeFprintf_byte, split, List.take_succ_cons, List.map_cons, List.append_assoc, ← List.filter_append]
    rfl

theorem printStrLoop_faults (count : Nat) (i : Addr) (io : Io) (some_ : 0 < count)
    (unwrapped : start.toNat + i.toNat < 2 ^ 16) (outside : memHeapSize < start.toNat + i.toNat + count) :
    printStrLoop heap start count i io = .error .outOfBounds := by
  induction count generalizing i io with
  | zero => exact absurd some_ (lt_irrefl 0)
  | succ count ih =>
    have small : memHeapSize < 2 ^ 16 := by decide
    have addr : (start + i).toNat = start.toNat + i.toNat := by
      rw [UInt16.toNat_add]
      omega
    rcases Nat.lt_or_ge (start.toNat + i.toNat) memHeapSize with below | beyond
    next =>
      have next : (i + 1).toNat = i.toNat + 1 := by
        rw [UInt16.toNat_add]
        simp only [UInt16.reduceToNat]
        omega
      obtain ⟨val, _, read⟩ := heapGet_of_lt size (show (start + i).toNat < memHeapSize by omega)
      rw [printStrLoop, read]
      exact ih (i + 1) _ (by omega) (by omega) (by omega)
    next => rw [printStrLoop, heapGet_of_ge size (addr ▸ beyond)]

end printing

/-- `Sys.print_str` prints the low bytes of `nchars` words, or refuses to leave the heap. -/
def PrintLaw (cfg : Config) (m : Machine) (addr nchars : Word) : Prop :=
  (∃ m' bytes, execInst cfg m = .ok () m' ∧ m'.io.stdout = m.io.stdout ++ bytes ∧ bytes.length = nchars.toNat ∧
    ∀ i < nchars.toNat, ∃ val, m.prog.heap.mem[addr.toNat + i]? = some val ∧ bytes[i]? = some val.toUInt8) ∨
  (memHeapSize < addr.toNat + nchars.toNat ∧ ∃ diag m', execInst cfg m = .error (.err diag) m')

def lowBytes (mem : List Word) (addr count : Nat) : List Byte := ((mem.drop addr).take count).map UInt16.toUInt8

theorem lowBytes_length {mem : List Word} {addr count : Nat} (inside : addr + count ≤ mem.length) :
    (lowBytes mem addr count).length = count := by
  rw [lowBytes, List.length_map, List.length_take, List.length_drop]
  omega

theorem lowBytes_getElem {mem : List Word} {addr count i : Nat} (inside : i < count) :
    (lowBytes mem addr count)[i]? = mem[addr + i]?.map UInt16.toUInt8 := by
  rw [lowBytes, List.getElem?_map, List.getElem?_take_of_lt inside, List.getElem?_drop]

theorem lowBytes_filter {mem : List Word} {addr count : Nat} (inside : addr + count ≤ mem.length) :
    ((lowBytes mem addr count).filter (· ≠ 0)).length = count ↔
      ∀ i < count, ∀ val, mem[addr + i]? = some val → val.toUInt8 ≠ 0 := by
  have length := lowBytes_length inside
  nth_rewrite 2 [← length]
  rw [List.length_filter_eq_length_iff]
  constructor
  next =>
    intro nonzero i within val here
    have listed : (lowBytes mem addr count)[i]? = some val.toUInt8 := by
      rw [lowBytes_getElem within, here]
      rfl
    simpa using nonzero _ (List.mem_of_getElem? listed)
  next =>
    intro nonzero byte member
    obtain ⟨i, listed⟩ := List.mem_iff_getElem?.mp member
    have within : i < count := length ▸ (List.getElem?_eq_some_iff.mp listed).1
    rw [lowBytes_getElem within] at listed
    obtain ⟨val, here, low⟩ := Option.map_eq_some_iff.mp listed
    simpa [← low] using nonzero i within val here

section print

variable {cfg : Config} {m : Machine} {inst : Inst} {addr nchars : Word} (valid : m.prog.stack.Valid cfg)
  (here : m.inst = some inst) (code : inst.code = .builtinPrintStr) (two : m.prog.stack.base + 2 ≤ m.prog.stack.sp)
  (top : m.top = some addr) (under : m.under = some nchars)

include valid here code two top under

theorem wp_printStr {post : Unit → Machine → Prop} {stop : Stop → Machine → Prop}
    (rest : ∀ after, wp (do setIo (← liftFault (printStrLoop m.prog.heap addr nchars.toNat 0 m.io))) post stop
      (m.withStack after)) : wp (execInst cfg) post stop m := by
  unfold execInst
  simp only [wp_bind, wp_activeInst, here, code, reduceCtorEq, false_implies, true_and, Option.some.injEq, forall_eq']
  unfold execBuiltinPrintStr
  apply wp_twoOperands valid two
  intro y x mid after _ popped _ popped'
  cases top.symm.trans popped.top_eq
  cases under.symm.trans (popped.under_eq popped')
  exact rest after

theorem printStr_prints (size : m.prog.heap.mem.length = memHeapSize)
    (inside : addr.toNat + nchars.toNat ≤ memHeapSize) : ∃ m', execInst cfg m = .ok () m' ∧
      m'.io.stdout = m.io.stdout ++ (lowBytes m.prog.heap.mem addr.toNat nchars.toNat).filter (· ≠ 0) := by
  obtain ⟨io', run, printed⟩ := printStrLoop_prints size nchars.toNat 0 m.io inside
  have runs : wp (execInst cfg) (fun _ m' => m'.io = io') (fun _ _ => False) m := by
    apply wp_printStr valid here code two top under
    intro after
    simp only [run, wp_bind, wp_liftFault, wp_setIo, reduceCtorEq, false_implies, implies_true, true_and,
      Except.ok.injEq, forall_eq']
    exact rfl
  obtain ⟨_, m', ran, io⟩ := runs.total
  exact ⟨m', ran, io ▸ printed⟩

theorem printStr_faults (size : m.prog.heap.mem.length = memHeapSize) (some_ : 0 < nchars.toNat)
    (outside : memHeapSize < addr.toNat + nchars.toNat) :
    ∃ m', execInst cfg m = .error (.fault .outOfBounds) m' := by
  have fault := printStrLoop_faults size nchars.toNat 0 m.io some_ addr.toNat_lt outside
  have runs : wp (execInst cfg) (fun _ _ => False) (fun stop _ => stop = .fault .outOfBounds) m := by
    apply wp_printStr valid here code two top under
    intro after
    simp only [fault, wp_bind, wp_liftFault, Except.error.injEq, forall_eq', reduceCtorEq, false_implies,
      implies_true, and_self]
  obtain ⟨stop, m', ran, same⟩ := runs.fails
  exact ⟨m', same ▸ ran⟩

theorem printStr_nothing (none_ : nchars.toNat = 0) :
    ∃ m', execInst cfg m = .ok () m' ∧ m'.io.stdout = m.io.stdout := by
  have runs : wp (execInst cfg) (fun _ m' => m'.io = m.io) (fun _ _ => False) m := by
    apply wp_printStr valid here code two top under
    intro after
    rw [none_]
    exact rfl
  obtain ⟨_, m', ran, io⟩ := runs.total
  exact ⟨m', ran, congrArg Io.stdout io⟩

/-- The builtin prints what it was given if and only if that is in the heap and has no NUL. -/
theorem printLaw_iff (size : m.prog.heap.mem.length = memHeapSize) : PrintLaw cfg m addr nchars ↔
    nchars.toNat = 0 ∨ addr.toNat + nchars.toNat ≤ memHeapSize ∧
      ∀ i < nchars.toNat, ∀ val, m.prog.heap.mem[addr.toNat + i]? = some val → val.toUInt8 ≠ 0 := by
  rcases Nat.eq_zero_or_pos nchars.toNat with none_ | some_
  next =>
    obtain ⟨m', run, printed⟩ := printStr_nothing valid here code two top under none_
    apply iff_of_true _ (.inl none_)
    refine .inl ⟨m', [], run, by rw [printed, List.append_nil], none_.symm, fun i inside => ?_⟩
    omega
  next =>
    rw [or_iff_right (by omega)]
    -- The loop faults where it leaves the heap, so only a range inside is printed.
    rcases Nat.lt_or_ge memHeapSize (addr.toNat + nchars.toNat) with outside | inside
    next =>
      obtain ⟨_, faults⟩ := printStr_faults valid here code two top under size some_ outside
      apply iff_of_false
      · rintro (⟨_, _, run, _⟩ | ⟨_, _, _, run⟩) <;> rw [faults] at run <;> cases run
      · exact fun fits => absurd fits.1 (Nat.not_le.mpr outside)
    next =>
      obtain ⟨m', run, printed⟩ := printStr_prints valid here code two top under size inside
      rw [← size] at inside
      rw [← size, and_iff_right inside, ← lowBytes_filter inside]
      constructor
      next =>
        rintro (⟨_, bytes, ran, output, length, _⟩ | ⟨outside, _⟩)
        next =>
          cases run.symm.trans ran
          rw [← List.append_cancel_left (printed.symm.trans output)] at length
          exact length
        next => exact absurd (size ▸ inside) (Nat.not_le.mpr outside)
      next =>
        intro whole
        -- Nothing is lost if the bytes that are not NUL are as many as all of them.
        have same : (lowBytes m.prog.heap.mem addr.toNat nchars.toNat).filter (· ≠ 0) =
            lowBytes m.prog.heap.mem addr.toNat nchars.toNat :=
          List.filter_eq_self.mpr (List.length_filter_eq_length_iff.mp (whole.trans (lowBytes_length inside).symm))
        rw [same] at printed
        refine .inl ⟨m', _, run, printed, lowBytes_length inside, fun i within => ?_⟩
        have here := List.getElem?_eq_getElem (show addr.toNat + i < m.prog.heap.mem.length by omega)
        exact ⟨_, here, by rw [lowBytes_getElem within, here]; rfl⟩

end print

theorem printLaw_letters :
    ∃ prog m,
      makeProg .unitTests 9 [{ fn := "a.vm", content := some (ascii
        "function Sys.init 0\npush constant 72\npop this 3\npush constant 105\npop this 4\npush constant 2\npush constant 3\ncall Sys.print_str 2\n") }] =
        .ok (some prog) ∧
      Reaches .unitTests (Machine.start prog []) m ∧ (m.prog.heap.mem.drop 3).take 2 = [72, 105] ∧
      PrintLaw .unitTests m 3 2 := by
  have ran : ((programOf .unitTests
      "function Sys.init 0\npush constant 72\npop this 3\npush constant 105\npop this 4\npush constant 2\npush constant 3\ncall Sys.print_str 2\n").bind
      fun prog => (Machine.start prog []).after .unitTests 11).map (fun m => m.inst.any fun inst =>
        decide (inst.code = .builtinPrintStr ∧ m.prog.stack.base + 2 ≤ m.prog.stack.sp ∧
            m.top = some 3 ∧ m.under = some 2 ∧ m.prog.heap.mem.length = memHeapSize ∧
            (m.prog.heap.mem.drop 3).take 2 = [72, 105])) = some true := by
    decide +kernel
  obtain ⟨m, bound, ready⟩ := Option.map_eq_some_iff.mp ran
  obtain ⟨prog, made, after⟩ := Option.bind_eq_some_iff.mp bound
  have reaches := Machine.after_reaches after
  have valid := (reaches.kept (start_kept (makeProg_stack (programOf_made made)) [])).valid
  obtain ⟨inst, here, ready⟩ := (Option.any_eq_true _ _).mp ready
  obtain ⟨code, two, top, under, size, letters⟩ := of_decide_eq_true ready
  refine ⟨prog, m, programOf_made made, reaches, letters,
    (printLaw_iff valid here code two top under size).mpr (.inr ⟨by decide, fun i inside val cell => ?_⟩)⟩
  have member : val ∈ (m.prog.heap.mem.drop 3).take 2 := by
    have inside : i < 2 := inside
    exact List.mem_of_getElem? (by rwa [List.getElem?_take_of_lt inside, List.getElem?_drop])
  rw [letters, List.mem_pair] at member
  rcases member with rfl | rfl <;> decide

/-- The character behind the heap is read. -/
theorem print_behind_heap :
    ∃ prog m m',
      makeProg .unitTests 9 [{ fn := "a.vm", content := some (ascii
        "function Sys.init 0\npush constant 1\npush constant 4096\ncall Sys.print_str 2\n") }] = .ok (some prog) ∧
      Reaches .unitTests (Machine.start prog []) m ∧ m.top = some 4096 ∧ m.under = some 1 ∧
      execInst .unitTests m = .error (.fault .outOfBounds) m' ∧ ¬PrintLaw .unitTests m 4096 1 := by
  have ran : ((programOf .unitTests
      "function Sys.init 0\npush constant 1\npush constant 4096\ncall Sys.print_str 2\n").bind fun prog =>
      (Machine.start prog []).after .unitTests 7).map (fun m => decide (m.top = some 4096 ∧ m.under = some 1) &&
        stopsWith (fun stop _ => decide (stop = .fault .outOfBounds)) (execInst .unitTests m)) = some true := by
    decide +kernel
  obtain ⟨m, bound, ready⟩ := Option.map_eq_some_iff.mp ran
  obtain ⟨prog, made, after⟩ := Option.bind_eq_some_iff.mp bound
  obtain ⟨operands, stops⟩ := Bool.and_eq_true_iff.mp ready
  obtain ⟨top, under⟩ := of_decide_eq_true operands
  obtain ⟨stop, m', faults, out⟩ := of_stopsWith stops
  obtain rfl := of_decide_eq_true out
  refine ⟨prog, m, m', programOf_made made, Machine.after_reaches after, top, under, faults, ?_⟩
  rintro (⟨_, _, run, _⟩ | ⟨_, _, _, run⟩) <;> rw [faults] at run <;> cases run

section storing

theorem storeChars_kept {mem : List Word} {addr : Nat} {chars : List Byte} {i : Nat}
    (outside : i < addr ∨ addr + chars.length ≤ i) : (storeChars mem addr chars)[i]? = mem[i]? := by
  induction chars generalizing mem addr with
  | nil => rfl
  | cons first chars ih =>
    rw [List.length_cons] at outside
    rw [storeChars, ih (by omega), List.getElem?_set_ne (by omega)]

theorem storeChars_stored {mem : List Word} {addr : Nat} {chars : List Byte}
    (inside : addr + chars.length ≤ mem.length) {k : Nat} {c : Byte} (here : chars[k]? = some c) :
    (storeChars mem addr chars)[addr + k]? = some (charToWord c) := by
  induction chars generalizing mem addr k with
  | nil => cases here
  | cons first chars ih =>
    rw [List.length_cons] at inside
    rw [storeChars]
    cases k with
    | zero =>
      cases here
      rw [storeChars_kept (by omega), Nat.add_zero, List.getElem?_set_self (by omega)]
    | succ k =>
      rw [← Nat.add_assoc, Nat.add_right_comm]
      exact ih (by rw [List.length_set]; omega) here

end storing

def nextLine (stdin : List Byte) : List Byte := stdin.takeWhile (· ≠ newline)

/-- `Sys.read_str` stores the next line and pushes its length, or refuses to leave the heap; it
reports where nothing is left to read. -/
structure ReadLaw (cfg : Config) (m : Machine) (addr : Word) : Prop where
  ended : m.io.stdin = [] → ∃ diag m', execInst cfg m = .error (.err diag) m' ∧ m'.prog.heap = m.prog.heap
  stores : m.io.stdin ≠ [] → addr.toNat + (nextLine m.io.stdin).length ≤ memHeapSize → ∃ m', execInst cfg m = .ok () m' ∧
    m'.prog.stack.sp = m.prog.stack.sp ∧ m'.top = some (UInt16.ofNat (nextLine m.io.stdin).length) ∧
    (∀ k c, (nextLine m.io.stdin)[k]? = some c → m'.prog.heap.mem[addr.toNat + k]? = some c.toUInt16) ∧
    ∀ i, i < addr.toNat ∨ addr.toNat + (nextLine m.io.stdin).length ≤ i →
      m'.prog.heap.mem[i]? = m.prog.heap.mem[i]?
  refuses : m.io.stdin ≠ [] → memHeapSize < addr.toNat + (nextLine m.io.stdin).length →
    ∃ diag m', execInst cfg m = .error (.err diag) m' ∧ m'.prog.heap = m.prog.heap

section getline

variable {stdin : List Byte}

theorem getline_terminated (ends : newline ∈ stdin) :
    ∃ rest, getline stdin = some (nextLine stdin ++ [newline], rest) := by
  obtain ⟨rest, tail⟩ : ∃ rest, stdin = nextLine stdin ++ newline :: rest := by
    induction stdin with
    | nil => cases ends
    | cons byte stdin ih =>
      by_cases here : byte = newline
      · exact ⟨stdin, by simp [nextLine, here]⟩
      · obtain ⟨rest, tail⟩ := ih ((List.mem_cons.mp ends).resolve_left (Ne.symm here))
        refine ⟨rest, ?_⟩
        have first : nextLine (byte :: stdin) = byte :: nextLine stdin := by simp [nextLine, here]
        rw [first, List.cons_append, ← tail]
  have some_ : stdin ≠ [] := List.ne_nil_of_mem ends
  refine ⟨stdin.drop ((nextLine stdin).length + 1), ?_⟩
  have after : (stdin.drop (nextLine stdin).length).take 1 = [newline] := by
    nth_rewrite 2 [tail]
    rw [List.drop_left]
    rfl
  simp only [getline, List.isEmpty_iff, some_, if_false]
  exact congrArg (fun last => some (nextLine stdin ++ last, _)) after

theorem getline_unterminated (ends : newline ∉ stdin) (some_ : stdin ≠ []) :
    nextLine stdin = stdin ∧ ∃ rest, getline stdin = some (stdin, rest) := by
  have whole : nextLine stdin = stdin := by
    apply List.takeWhile_eq_self_iff.mpr
    intro byte member
    simp only [ne_eq, decide_eq_true_eq]
    rintro rfl
    exact ends member
  refine ⟨whole, stdin.drop (stdin.length + 1), ?_⟩
  unfold nextLine at whole
  simp only [getline, List.isEmpty_iff, some_, if_false, whole, List.drop_length, List.take_nil, List.append_nil]

end getline

theorem charToWord_eq_iff (c : Byte) : charToWord c = c.toUInt16 ↔ c < 128 := by
  unfold charToWord
  split
  next small => exact iff_of_true rfl small
  next large =>
    apply iff_of_false _ large
    intro same
    exact absurd (UInt16.left_eq_add.mp (UInt16.sub_eq_iff_eq_add.mp same)) (by decide)

section read

variable {cfg : Config} {m : Machine} {inst : Inst} {addr : Word} (valid : m.prog.stack.Valid cfg)
  (here : m.inst = some inst) (code : inst.code = .builtinReadStr) (word : m.prog.stack.base < m.prog.stack.sp)
  (top : m.top = some addr) {buf rest : List Byte} (line : getline m.io.stdin = some (buf, rest))

include valid here code word top line

theorem readStr_stores (inside : addr.toNat + (buf.length - 1) ≤ memHeapSize) :
    ∃ m', execInst cfg m = .ok () m' ∧ m'.prog.stack.sp = m.prog.stack.sp ∧
      m'.top = some (UInt16.ofNat (buf.length - 1)) ∧
      m'.prog.heap.mem = storeChars m.prog.heap.mem addr.toNat (buf.take (buf.length - 1)) := by
  have runs : wp (execInst cfg) (fun _ m' => m'.prog.stack.sp = m.prog.stack.sp ∧
      m'.top = some (UInt16.ofNat (buf.length - 1)) ∧
      m'.prog.heap.mem = storeChars m.prog.heap.mem addr.toNat (buf.take (buf.length - 1))) (fun _ _ => False) m := by
    unfold execInst
    simp only [wp_bind, wp_activeInst, here, code, reduceCtorEq, false_implies, true_and, Option.some.injEq, forall_eq']
    unfold execBuiltinReadStr
    rw [wp_bind]
    apply wp_execSpop valid _ fun empty => absurd word (Nat.not_lt.mpr empty)
    intro val mid _ popped
    cases top.symm.trans popped.top_eq
    simp only [wp_bind, wp_get, Machine.withStack_io, line, wp_setIo, wp_ite, wp_getHeap, wp_setHeap]
    constructor
    next => exact fun outside => absurd inside (Nat.not_le.mpr outside)
    next =>
      intro _
      apply wp_execSpush (m := ((m.withStack mid).withIo _).withHeap _) popped.valid
      intro last pushed
      have sp := popped.sp
      have sp' : last.sp = mid.sp + 1 := pushed.sp
      refine ⟨sp'.trans sp, ?_, rfl⟩
      rw [Machine.top, Machine.withStack_stack, sp', Nat.add_sub_cancel]
      exact pushed.top
  obtain ⟨_, m', run, done⟩ := runs.total
  exact ⟨m', run, done⟩

theorem readStr_refuses (outside : memHeapSize < addr.toNat + (buf.length - 1)) :
    ∃ diag m', execInst cfg m = .error (.err diag) m' ∧ m'.prog.heap = m.prog.heap := by
  have runs : wp (execInst cfg) (fun _ _ => False)
      (fun stop m' => (∃ diag, stop = .err diag) ∧ m'.prog.heap = m.prog.heap) m := by
    unfold execInst
    simp only [wp_bind, wp_activeInst, here, code, reduceCtorEq, false_implies, true_and, Option.some.injEq, forall_eq']
    unfold execBuiltinReadStr
    rw [wp_bind]
    apply wp_execSpop valid _ fun empty => absurd word (Nat.not_lt.mpr empty)
    intro val mid _ popped
    cases top.symm.trans popped.top_eq
    simp only [wp_bind, wp_get, Machine.withStack_io, line, wp_setIo, wp_ite, heapAddrOverflowError, wp_activeInst,
      wp_execErr, Machine.withIo_inst, Machine.withStack_inst, here, reduceCtorEq, false_implies, true_and,
      Option.some.injEq, forall_eq']
    constructor
    next => exact fun _ => ⟨⟨_, rfl⟩, rfl⟩
    next => exact fun inside => absurd outside inside
  obtain ⟨_, m', run, ⟨diag, same⟩, heap⟩ := runs.fails
  exact ⟨diag, m', same ▸ run, heap⟩

omit line

theorem readLaw_terminated (size : m.prog.heap.mem.length = memHeapSize) (ends : newline ∈ m.io.stdin) :
    ReadLaw cfg m addr ↔ memHeapSize < addr.toNat + (nextLine m.io.stdin).length ∨
      ∀ c ∈ nextLine m.io.stdin, c < 128 := by
  obtain ⟨rest, line⟩ := getline_terminated ends
  have some_ : m.io.stdin ≠ [] := List.ne_nil_of_mem ends
  have length : (nextLine m.io.stdin ++ [newline]).length - 1 = (nextLine m.io.stdin).length := by simp
  have chars : (nextLine m.io.stdin ++ [newline]).take (nextLine m.io.stdin).length = nextLine m.io.stdin := by simp
  rcases Nat.lt_or_ge memHeapSize (addr.toNat + (nextLine m.io.stdin).length) with outside | inside
  next =>
    have refused := readStr_refuses valid here code word top line (length ▸ outside)
    exact iff_of_true ⟨fun none_ => absurd none_ some_, fun _ inside => absurd outside (Nat.not_lt.mpr inside),
      fun _ _ => refused⟩ (.inl outside)
  next =>
    obtain ⟨m', run, sp, number, mem⟩ := readStr_stores valid here code word top line (length ▸ inside)
    rw [length] at number mem
    rw [chars] at mem
    rw [or_iff_right (Nat.not_lt.mpr inside)]
    constructor
    next =>
      intro law c member
      obtain ⟨m'', run', _, _, stored, _⟩ := law.stores some_ inside
      cases run.symm.trans run'
      obtain ⟨k, listed⟩ := List.mem_iff_getElem?.mp member
      -- The cell holds the byte sign-extended, which is the byte only below 128.
      have cell := stored k c listed
      rw [mem, storeChars_stored (size ▸ inside) listed] at cell
      exact (charToWord_eq_iff c).mp (Option.some.inj cell)
    next =>
      intro small
      refine ⟨fun none_ => absurd none_ some_,
        fun _ _ => ⟨m', run, sp, number, fun k c listed => ?_, fun i outside => ?_⟩,
        fun _ outside => absurd outside (Nat.not_lt.mpr inside)⟩
      · rw [mem, storeChars_stored (size ▸ inside) listed,
          (charToWord_eq_iff c).mpr (small c (List.mem_of_getElem? listed))]
      · rw [mem, storeChars_kept outside]

theorem readLaw_unterminated (ends : newline ∉ m.io.stdin) (some_ : m.io.stdin ≠ []) :
    ReadLaw cfg m addr ↔ memHeapSize + 1 < addr.toNat + (nextLine m.io.stdin).length := by
  obtain ⟨whole, rest, line⟩ := getline_unterminated ends some_
  have positive : 0 < m.io.stdin.length := List.length_pos_iff.mpr some_
  have refused := readStr_refuses valid here code word top line
  have stored := readStr_stores valid here code word top line
  constructor
  next =>
    intro law
    by_contra fits
    rw [whole] at fits
    obtain ⟨m', run, _, number, _⟩ := stored (by omega)
    rcases Nat.lt_or_ge memHeapSize (addr.toNat + m.io.stdin.length) with outside | inside
    next =>
      obtain ⟨diag, m'', run', _⟩ := law.refuses some_ (whole.symm ▸ outside)
      rw [run] at run'
      cases run'
    next =>
      obtain ⟨m'', run', _, number', _⟩ := law.stores some_ (whole.symm ▸ inside)
      cases run.symm.trans run'
      rw [number, whole] at number'
      -- The length that is pushed is one short of the line, and neither wraps around.
      have same := congrArg UInt16.toNat (Option.some.inj number')
      rw [UInt16.toNat_ofNat', UInt16.toNat_ofNat'] at same
      have small : memHeapSize < 2 ^ 16 := by decide
      omega
  next =>
    intro outside
    rw [whole] at outside
    exact ⟨fun none_ => absurd none_ some_, fun _ inside => by rw [whole] at inside; omega,
      fun _ _ => refused (by omega)⟩

omit top in
theorem readLaw_ended (none_ : m.io.stdin = []) : ReadLaw cfg m addr where
  ended := by
    intro _
    have runs : wp (execInst cfg) (fun _ _ => False)
        (fun stop m' => (∃ diag, stop = .err diag) ∧ m'.prog.heap = m.prog.heap) m := by
      unfold execInst
      simp only [wp_bind, wp_activeInst, here, code, reduceCtorEq, false_implies, true_and, Option.some.injEq,
        forall_eq']
      unfold execBuiltinReadStr
      rw [wp_bind]
      apply wp_execSpop valid _ fun empty => absurd word (Nat.not_lt.mpr empty)
      intro val mid _ _
      simp only [wp_bind, wp_get, Machine.withStack_io, none_]
      exact ⟨⟨_, rfl⟩, rfl⟩
    obtain ⟨_, m', run, ⟨diag, same⟩, heap⟩ := runs.fails
    exact ⟨diag, m', same ▸ run, heap⟩
  stores := fun some_ => absurd none_ some_
  refuses := fun some_ => absurd none_ some_

theorem readLaw_iff (size : m.prog.heap.mem.length = memHeapSize) :
    ReadLaw cfg m addr ↔ m.io.stdin = [] ∨
      newline ∈ m.io.stdin ∧ (memHeapSize < addr.toNat + (nextLine m.io.stdin).length ∨
        ∀ c ∈ nextLine m.io.stdin, c < 128) ∨
      newline ∉ m.io.stdin ∧ memHeapSize + 1 < addr.toNat + (nextLine m.io.stdin).length := by
  by_cases none_ : m.io.stdin = []
  · exact iff_of_true (readLaw_ended valid here code word none_) (.inl none_)
  · rw [or_iff_right none_]
    by_cases ends : newline ∈ m.io.stdin
    · rw [readLaw_terminated valid here code word top size ends]
      simp only [ends, true_and, not_true_eq_false, false_and, or_false]
    · rw [readLaw_unterminated valid here code word top ends none_]
      simp only [ends, false_and, not_false_eq_true, true_and, false_or]

end read

theorem readLaw_line :
    ∃ prog m,
      makeProg .unitTests 9 [{ fn := "a.vm", content := some (ascii
        "function Sys.init 0\npush constant 0\ncall Sys.read_str 1\n") }] = .ok (some prog) ∧
      Reaches .unitTests (Machine.start prog (ascii "ab\n")) m ∧ m.io.stdin = ascii "ab\n" ∧
      ReadLaw .unitTests m 0 := by
  have ran : ((programOf .unitTests "function Sys.init 0\npush constant 0\ncall Sys.read_str 1\n").bind fun prog =>
      (Machine.start prog (ascii "ab\n")).after .unitTests 5).map (fun m => m.inst.any fun inst =>
        decide (inst.code = .builtinReadStr ∧ m.prog.stack.base < m.prog.stack.sp ∧ m.top = some 0 ∧
            m.prog.heap.mem.length = memHeapSize ∧ m.io.stdin = ascii "ab\n")) = some true := by
    decide +kernel
  obtain ⟨m, bound, ready⟩ := Option.map_eq_some_iff.mp ran
  obtain ⟨prog, made, after⟩ := Option.bind_eq_some_iff.mp bound
  have reaches := Machine.after_reaches after
  have valid := (reaches.kept (start_kept (makeProg_stack (programOf_made made)) _)).valid
  obtain ⟨inst, here, ready⟩ := (Option.any_eq_true _ _).mp ready
  obtain ⟨code, word, top, size, stdin⟩ := of_decide_eq_true ready
  refine ⟨prog, m, programOf_made made, reaches, stdin, (readLaw_iff valid here code word top size).mpr ?_⟩
  rw [stdin]
  have small : (nextLine (ascii "ab\n")).all (· < 128) = true := by decide
  exact .inr (.inl ⟨by decide, .inr fun c member => of_decide_eq_true (List.all_eq_true.mp small c member)⟩)

theorem unterminated_line_cut :
    ∃ prog m,
      makeProg .unitTests 9 [{ fn := "a.vm", content := some (ascii
        "function Sys.init 0\npush constant 0\ncall Sys.read_str 1\n") }] = .ok (some prog) ∧
      Reaches .unitTests (Machine.start prog (ascii "ab")) m ∧ m.top = some 0 ∧ m.io.stdin = ascii "ab" ∧
      ¬ReadLaw .unitTests m 0 := by
  have ran : ((programOf .unitTests "function Sys.init 0\npush constant 0\ncall Sys.read_str 1\n").bind fun prog =>
      (Machine.start prog (ascii "ab")).after .unitTests 5).map (fun m => m.inst.any fun inst =>
        decide (inst.code = .builtinReadStr ∧ m.prog.stack.base < m.prog.stack.sp ∧ m.top = some 0 ∧
            m.io.stdin = ascii "ab")) = some true := by
    decide +kernel
  obtain ⟨m, bound, ready⟩ := Option.map_eq_some_iff.mp ran
  obtain ⟨prog, made, after⟩ := Option.bind_eq_some_iff.mp bound
  have reaches := Machine.after_reaches after
  have valid := (reaches.kept (start_kept (makeProg_stack (programOf_made made)) _)).valid
  obtain ⟨inst, here, ready⟩ := (Option.any_eq_true _ _).mp ready
  obtain ⟨code, word, top, stdin⟩ := of_decide_eq_true ready
  refine ⟨prog, m, programOf_made made, reaches, top, stdin, fun law => ?_⟩
  have fits := (readLaw_unterminated valid here code word top (by rw [stdin]; decide) (by rw [stdin]; decide)).mp law
  rw [stdin] at fits
  exact absurd fits (by decide)

def fgetc (stdin : List Byte) : Byte × List Byte :=
  match stdin with
  | [] => (0xFF, [])
  | c :: stdin => (c, stdin)

def fgetcLoop : Nat → List Byte → Option (List Byte)
  | 0, _ => none
  | fuel + 1, stdin => if (fgetc stdin).1 ≠ newline then fgetcLoop fuel (fgetc stdin).2 else some (fgetc stdin).2

section discarding

theorem fgetcLoop_nil (fuel : Nat) : fgetcLoop fuel [] = none := by
  induction fuel with
  | zero => rfl
  | succ fuel ih =>
    rw [fgetcLoop, if_pos (by decide)]
    exact ih

theorem fgetcLoop_iff (stdin rest : List Byte) :
    (∃ fuel, fgetcLoop fuel stdin = some rest) ↔ discardLine stdin = .ok rest := by
  induction stdin with
  | nil =>
    apply iff_of_false
    · rintro ⟨fuel, ends⟩
      rw [fgetcLoop_nil] at ends
      cases ends
    · simp [discardLine]
  | cons c stdin ih =>
    by_cases ends : c = newline
    · have found : discardLine (c :: stdin) = .ok stdin := by simp [discardLine, ends]
      rw [found, Except.ok.injEq]
      constructor
      · rintro ⟨_ | fuel, ended⟩
        · cases ended
        · simpa [fgetcLoop, fgetc, ends] using ended
      · exact fun same => ⟨1, by simp [fgetcLoop, fgetc, ends, same]⟩
    · have skips : discardLine (c :: stdin) = discardLine stdin := by simp [discardLine, ends]
      rw [skips, ← ih]
      constructor
      · rintro ⟨_ | fuel, ended⟩
        · cases ended
        · exact ⟨fuel, by simpa [fgetcLoop, fgetc, ends] using ended⟩
      · rintro ⟨fuel, ended⟩
        exact ⟨fuel + 1, by simpa [fgetcLoop, fgetc, ends] using ended⟩

theorem discardLine_diverges {stdin : List Byte} : discardLine stdin = .error .diverges ↔ newline ∉ stdin := by
  induction stdin with
  | nil => simp [discardLine]
  | cons c stdin ih =>
    by_cases ends : c = newline
    · simp [discardLine, ends]
    · have skips : discardLine (c :: stdin) = discardLine stdin := by simp [discardLine, ends]
      rw [skips, ih, List.mem_cons, not_or, and_iff_right (Ne.symm ends)]

theorem discardLine_ends {stdin : List Byte} (ends : newline ∈ stdin) : ∃ rest, discardLine stdin = .ok rest := by
  cases found : discardLine stdin with
  | ok rest => exact ⟨rest, rfl⟩
  | error fault =>
    have diverges : fault = .diverges := by
      unfold discardLine at found
      split at found
      next =>
        cases found
        rfl
      next => cases found
    exact absurd ends (discardLine_diverges.mp (diverges ▸ found))

end discarding

/-- `Sys.read_num` pushes the number that `scanf` has read, or reports that there is none that fits
and leaves the stack alone. -/
structure ReadNumLaw (cfg : Config) (m : Machine) : Prop where
  pushes : ∀ value, (scanfUint m.io.stdin).1 = .num value → value.toNat ≤ bit16Limit →
    ∃ m', execInst cfg m = .ok () m' ∧ Pushed cfg m.prog.stack value.toUInt16 m'.prog.stack
  reports : (∀ value, (scanfUint m.io.stdin).1 = .num value → bit16Limit < value.toNat) →
    ∃ diag m', execInst cfg m = .error (.err diag) m' ∧ m'.prog.stack = m.prog.stack

section number

variable {cfg : Config} {m : Machine} {inst : Inst} (here : m.inst = some inst) (code : inst.code = .builtinReadNum)

include here code

theorem wp_readNum {post : Unit → Machine → Prop} {stop : Stop → Machine → Prop}
    (holds : wp (execBuiltinReadNum cfg inst.pos) post stop m) : wp (execInst cfg) post stop m := by
  unfold execInst
  simp only [wp_bind, wp_activeInst, here, code, reduceCtorEq, false_implies, true_and, Option.some.injEq, forall_eq']
  exact holds

theorem readNum_reports
    (unread : ∀ value, (scanfUint m.io.stdin).1 = .num value → bit16Limit < value.toNat)
    (ends : (scanfUint m.io.stdin).1 = .mismatch → newline ∈ (scanfUint m.io.stdin).2) :
    ∃ diag m', execInst cfg m = .error (.err diag) m' ∧ m'.prog.stack = m.prog.stack := by
  have runs : wp (execInst cfg) (fun _ _ => False)
      (fun e m' => (∃ diag, e = .err diag) ∧ m'.prog.stack = m.prog.stack) m := by
    apply wp_readNum here code
    unfold execBuiltinReadNum
    simp only [wp_bind, wp_get, wp_setIo]
    cases res : (scanfUint m.io.stdin).1 with
    | eof => exact ⟨⟨_, rfl⟩, rfl⟩
    | mismatch =>
      obtain ⟨rest, found⟩ := discardLine_ends (ends res)
      simp only [found, wp_bind, wp_liftFault, wp_setIo, readNumCharError, wp_execErr, reduceCtorEq, false_implies,
        implies_true, true_and, Except.ok.injEq, forall_eq']
      exact ⟨⟨_, rfl⟩, rfl⟩
    | num value =>
      simp only [wp_ite, readNumOverflowError, wp_execErr]
      exact ⟨fun _ => ⟨⟨_, rfl⟩, rfl⟩, fun fits => absurd (unread value res) fits⟩
  obtain ⟨_, m', run, ⟨diag, same⟩, kept⟩ := runs.fails
  exact ⟨diag, m', same ▸ run, kept⟩

theorem readNum_diverges (res : (scanfUint m.io.stdin).1 = .mismatch) (endless : newline ∉ (scanfUint m.io.stdin).2) :
    ∃ m', execInst cfg m = .error (.fault .diverges) m' := by
  have runs : wp (execInst cfg) (fun _ _ => False) (fun e _ => e = .fault .diverges) m := by
    apply wp_readNum here code
    unfold execBuiltinReadNum
    simp only [wp_bind, wp_get, wp_setIo, res, discardLine_diverges.mpr endless, wp_liftFault, Except.error.injEq,
      forall_eq', reduceCtorEq, false_implies, implies_true, and_self]
  obtain ⟨e, m', run, same⟩ := runs.fails
  exact ⟨m', same ▸ run⟩

theorem readNum_pushes (valid : m.prog.stack.Valid cfg) {value : UInt32} (res : (scanfUint m.io.stdin).1 = .num value)
    (fits : value.toNat ≤ bit16Limit) :
    ∃ m', execInst cfg m = .ok () m' ∧ Pushed cfg m.prog.stack value.toUInt16 m'.prog.stack := by
  have runs : wp (execInst cfg) (fun _ m' => Pushed cfg m.prog.stack value.toUInt16 m'.prog.stack)
      (fun _ _ => False) m := by
    apply wp_readNum here code
    unfold execBuiltinReadNum
    simp only [wp_bind, wp_get, wp_setIo, res, wp_ite]
    constructor
    next => exact fun large => absurd fits (Nat.not_le.mpr large)
    next =>
      intro _
      have valid' : (m.withIo { m.io with stdin := (scanfUint m.io.stdin).2 }).prog.stack.Valid cfg := valid
      exact wp_execSpush valid' _ fun _ pushed => pushed
  obtain ⟨_, m', run, pushed⟩ := runs.total
  exact ⟨m', run, pushed⟩

/-- The builtin finishes if and only if the line it gives up on has an end. -/
theorem readNumLaw_iff (valid : m.prog.stack.Valid cfg) : ReadNumLaw cfg m ↔
    ¬((scanfUint m.io.stdin).1 = .mismatch ∧ newline ∉ (scanfUint m.io.stdin).2) := by
  constructor
  next =>
    rintro law ⟨res, endless⟩
    obtain ⟨_, diverges⟩ := @readNum_diverges cfg m inst here code res endless
    obtain ⟨_, _, run, _⟩ := law.reports fun value num => by simp [res] at num
    rw [diverges] at run
    cases run
  next =>
    intro ends
    exact ⟨fun _ res fits => readNum_pushes here code valid res fits, fun unread =>
      readNum_reports here code unread fun res => not_not.mp fun endless => ends ⟨res, endless⟩⟩

end number

theorem readNumLaw_letter :
    ∃ prog m,
      makeProg .unitTests 9 [{ fn := "a.vm", content := some (ascii "function Sys.init 0\ncall Sys.read_num 0\n") }] =
        .ok (some prog) ∧
      Reaches .unitTests (Machine.start prog (ascii "x\n")) m ∧ m.io.stdin = ascii "x\n" ∧
      ReadNumLaw .unitTests m := by
  have ran : ((programOf .unitTests "function Sys.init 0\ncall Sys.read_num 0\n").bind fun prog =>
      (Machine.start prog (ascii "x\n")).after .unitTests 3).map (fun m => m.inst.any fun inst =>
        decide (inst.code = .builtinReadNum ∧ m.io.stdin = ascii "x\n")) = some true := by
    decide +kernel
  obtain ⟨m, bound, ready⟩ := Option.map_eq_some_iff.mp ran
  obtain ⟨prog, made, after⟩ := Option.bind_eq_some_iff.mp bound
  have reaches := Machine.after_reaches after
  have valid := (reaches.kept (start_kept (makeProg_stack (programOf_made made)) _)).valid
  obtain ⟨inst, here, ready⟩ := (Option.any_eq_true _ _).mp ready
  obtain ⟨code, stdin⟩ := of_decide_eq_true ready
  refine ⟨prog, m, programOf_made made, reaches, stdin, (readNumLaw_iff here code valid).mpr ?_⟩
  rw [stdin]
  decide

/-- A letter that the input ends with is never given up: `fgetc` is called for ever. -/
theorem read_num_hangs :
    ∃ prog m,
      makeProg .unitTests 9 [{ fn := "a.vm", content := some (ascii "function Sys.init 0\ncall Sys.read_num 0\n") }] =
        .ok (some prog) ∧
      Reaches .unitTests (Machine.start prog (ascii "x")) m ∧ m.io.stdin = ascii "x" ∧
      (∀ fuel, fgetcLoop fuel (scanfUint (ascii "x")).2 = none) ∧ ¬ReadNumLaw .unitTests m := by
  -- Three rounds lead through the bootstrap to the builtin instruction.
  have ran : ((programOf .unitTests "function Sys.init 0\ncall Sys.read_num 0\n").bind fun prog =>
      (Machine.start prog (ascii "x")).after .unitTests 3).map (fun m => m.inst.any fun inst =>
        decide (inst.code = .builtinReadNum ∧ m.io.stdin = ascii "x")) = some true := by
    decide +kernel
  obtain ⟨m, bound, ready⟩ := Option.map_eq_some_iff.mp ran
  obtain ⟨prog, made, after⟩ := Option.bind_eq_some_iff.mp bound
  have endless : newline ∉ (scanfUint (ascii "x")).2 := by decide
  obtain ⟨inst, here, ready⟩ := (Option.any_eq_true _ _).mp ready
  obtain ⟨code, stdin⟩ := of_decide_eq_true ready
  refine ⟨prog, m, programOf_made made, Machine.after_reaches after, stdin, fun fuel => ?_, fun law => ?_⟩
  · cases ended : fgetcLoop fuel (scanfUint (ascii "x")).2 with
    | none => rfl
    | some rest =>
      have found := (fgetcLoop_iff _ rest).mp ⟨fuel, ended⟩
      rw [discardLine_diverges.mpr endless] at found
      cases found
  · have res : (scanfUint m.io.stdin).1 = .mismatch := by
      rw [stdin]
      decide
    obtain ⟨_, diverges⟩ := @readNum_diverges .unitTests m inst here code res (stdin.symm ▸ endless)
    obtain ⟨_, _, run, _⟩ := law.reports fun value num => by simp [res] at num
    rw [diverges] at run
    cases run

end Hvme
