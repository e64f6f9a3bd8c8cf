/-
The stack that `add_task` builds for a new program: the strings of `envp` and `argv`
packed downwards from the end of the region, then the two arrays of pointers and the
count.  Before that the arguments are validated and copied to the kernel heap, which panics
when its table is full.  Every byte is written once; the image decodes to the arguments, and
it stays in the region exactly when it is not larger than the region.
-/
import GlitchedOS.Lib.PushDown
import GlitchedOS.Memory.HeapRoom
import GlitchedOS.Paging.Bytes
import GlitchedOS.Process.Scheduler
import Mathlib.Data.List.TakeWhile

namespace GlitchedOS

/-- `strlen` and `memcpy` of a string: its bytes up to the terminator, which is copied
too. -/
def copyString (string : List Byte) : List Byte := string.takeWhile (· ≠ 0) ++ [0]

def wordBytes (n : Nat) : List Byte :=
  (List.range 8).map fun k => BitVec.ofNat 8 (n / 2 ^ (8 * k))

def userStackTop : Nat := userStack + 4096 * 128

namespace DownStack

/-- The loop of `add_task` that packs strings: the pointers to their copies. -/
def pushStrings (st : DownStack Byte) : List (List Byte) → DownStack Byte × List Nat
  | [] => (st, [])
  | string :: rest =>
    match pushStrings st rest with
    | (st, ptrs) =>
      let st := st.push (copyString string)
      (st, st.top :: ptrs)

/-- The loop of `add_task` that pushes pointers, the null pointer first. -/
def pushPointers (st : DownStack Byte) (ptrs : List Nat) : DownStack Byte :=
  st.pushAll ((ptrs ++ [0]).map wordBytes)

end DownStack

/-- The part of `add_task` that builds the stack, from the copies of the arguments in
kernel memory. -/
def buildUserStack (mem : Nat → Byte) (kargv kenvp : List (List Byte)) : DownStack Byte :=
  match DownStack.pushStrings ⟨userStackTop, mem, []⟩ kenvp with
  | (st, envpPtrs) =>
    match st.pushStrings kargv with
    | (st, argvPtrs) =>
      ((st.pushPointers envpPtrs).pushPointers argvPtrs).push (wordBytes kargv.length)

/-- The stack for the copies of the arguments that a caller passes. -/
def argumentStack (mem : Nat → Byte) (argv envp : List (List Byte)) : DownStack Byte :=
  buildUserStack mem (argv.map copyString) (envp.map copyString)

/-- Why there is no stack: the arguments are refused, or the kernel heap panics. -/
inductive AddTaskStop where
  | refused (res : Int)
  | panic (reason : HeapPanic)

/-- What the validation of `add_task` meets in an array of strings that the caller may
read. -/
def argSlot (strings : List (List Byte)) (i : Nat) : UserSlot (List Byte) where
  res := 0
  value := strings[i]?.map fun string =>
    (string, if (string.takeWhile (· ≠ 0)).length < 0x10000 then 0 else eNametoolong)

/-- The validation of `argv`, or of `envp`. -/
def checkStrings (strings : List (List Byte)) : Except Int (List (List Byte)) := do
  let strings ← scanSlots (argSlot strings) maxArgs 0
  if strings.length = maxArgs then .error eInval else .ok strings

/-- The calls of `kmalloc` for the copies of some strings. -/
def copyCalls (strings : List (List Byte)) : List HeapOp :=
  strings.map fun string => .kmalloc (copyString string).length

/-- Calls on the kernel heap up to the first panic. -/
def HeapState.calls (s : HeapState) (ops : List HeapOp) : Except HeapPanic HeapState :=
  ops.foldlM HeapState.call s

/-- The parts of `add_task` that validate `argv` and `envp`, copy them to kernel memory and
build the stack.  The heap is also called between the copies and the stack. -/
def addTaskStack (mem : Nat → Byte) (heap : HeapState) (between : List HeapOp)
    (argv envp : List (List Byte)) : Except AddTaskStop (DownStack Byte) := do
  let argv ← (checkStrings argv).mapError .refused
  let envp ← (checkStrings envp).mapError .refused
  let _ ← (heap.calls (copyCalls argv ++ copyCalls envp ++ between)).mapError .panic
  .ok (argumentStack mem argv envp)

/-- A string as C has it. -/
def NulFree (string : List Byte) : Prop := (0 : Byte) ∉ string

def stringsSize (strings : List (List Byte)) : Nat :=
  (strings.map fun string => string.length + 1).sum

def packedSize (argv envp : List (List Byte)) : Nat :=
  8 + 8 * (argv.length + 1) + 8 * (envp.length + 1) + stringsSize argv + stringsSize envp

/-- What `add_task` checks about its arguments. -/
structure ArgsPass (argv envp : List (List Byte)) : Prop where
  argc : argv.length < maxArgs
  envc : envp.length < maxArgs
  argv : ∀ string ∈ argv, NulFree string ∧ string.length < 0x10000
  envp : ∀ string ∈ envp, NulFree string ∧ string.length < 0x10000

/-- No call on the kernel heap panics before the stack is built. -/
def NoPanic (heap : HeapState) (between : List HeapOp) (argv envp : List (List Byte)) : Prop :=
  Along HeapState.next Succeeds heap (copyCalls argv ++ copyCalls envp ++ between)

def quadAt (mem : Nat → Byte) (addr : Nat) : Nat :=
  ((List.range 8).map fun k => (mem (addr + k)).toNat * 2 ^ (8 * k)).sum

/-- A terminated copy of a string at an address. -/
def StringAt (mem : Nat → Byte) (addr : Nat) (string : List Byte) : Prop :=
  (∀ i b, string[i]? = some b → mem (addr + i) = b ∧ b ≠ 0) ∧ mem (addr + string.length) = 0

/-- The words from an address on are pointers to the strings, and a null pointer. -/
structure StringsAt (mem : Nat → Byte) (addr : Nat) (strings : List (List Byte)) : Prop where
  texts : ∀ i string, strings[i]? = some string → StringAt mem (quadAt mem (addr + 8 * i)) string
  null : quadAt mem (addr + 8 * strings.length) = 0

/-- The memory from the stack pointer on decodes to the arguments. -/
structure Decodes (mem : Nat → Byte) (rsp : Nat) (argv envp : List (List Byte)) : Prop where
  argc : quadAt mem rsp = argv.length
  argvStrings : StringsAt mem (rsp + 8) argv
  envpStrings : StringsAt mem (rsp + 8 + 8 * (argv.length + 1)) envp

variable {mem : Nat → Byte} {addr n : Nat} {string : List Byte} {argv envp : List (List Byte)}

/-! ### Words and strings in memory -/

@[simp] theorem wordBytes_length (n : Nat) : (wordBytes n).length = 8 := by
  simp [wordBytes]

theorem sum_bytes (n : Nat) : ∀ m : Nat,
    ((List.range m).map fun k => n / 2 ^ (8 * k) % 2 ^ 8 * 2 ^ (8 * k)).sum = n % 2 ^ (8 * m)
  | 0 => (Nat.mod_one n).symm
  | m + 1 => by
      rw [List.range_succ, List.map_append, List.sum_append, sum_bytes n m, pow_mul, pow_mul,
        Nat.mod_pow_succ, List.map_singleton, List.sum_singleton, pow_mul, Nat.mul_comm (_ % _)]

theorem quadAt_of_holds (h : DownStack.Holds mem addr (wordBytes n)) (hn : n < 2 ^ 64) :
    quadAt mem addr = n := by
  have hbyte : ∀ k ∈ List.range 8, (mem (addr + k)).toNat * 2 ^ (8 * k) =
      n / 2 ^ (8 * k) % 2 ^ 8 * 2 ^ (8 * k) := by
    intro k hk
    have hget : (wordBytes n)[k]? = some (BitVec.ofNat 8 (n / 2 ^ (8 * k))) := by
      simp [wordBytes, List.mem_range.mp hk]
    rw [h k _ hget, BitVec.toNat_ofNat]
  rw [quadAt, List.map_congr_left hbyte, sum_bytes n 8]
  exact Nat.mod_eq_of_lt hn

theorem takeWhile_of_nulFree (h : NulFree string) : string.takeWhile (· ≠ 0) = string := by
  rw [List.takeWhile_eq_self_iff]
  intro b hb
  exact decide_eq_true fun hzero => h (hzero ▸ hb)

theorem copyString_of_nulFree (h : NulFree string) : copyString string = string ++ [0] := by
  rw [copyString, takeWhile_of_nulFree h]

theorem nulFree_takeWhile (string : List Byte) : NulFree (string.takeWhile (· ≠ 0)) := by
  intro h
  have hne := List.mem_takeWhile_imp h
  simp at hne

theorem copyString_copyString (string : List Byte) :
    copyString (copyString string) = copyString string := by
  have hcopy : copyString string = string.takeWhile (· ≠ 0) ++ [0] := rfl
  have hall : ∀ b ∈ string.takeWhile (· ≠ 0), decide (b ≠ 0) = true := fun b hb =>
    decide_eq_true fun hzero => nulFree_takeWhile string (hzero ▸ hb)
  rw [hcopy, copyString, List.takeWhile_append_of_pos hall]
  simp

theorem stringAt_of_holds (hfree : NulFree string)
    (h : DownStack.Holds mem addr (copyString string)) : StringAt mem addr string := by
  rw [copyString_of_nulFree hfree] at h
  constructor
  · intro i b hb
    obtain ⟨hi, rfl⟩ := List.getElem?_eq_some_iff.mp hb
    refine ⟨h i _ ?_, fun hzero => hfree (hzero ▸ List.getElem_mem hi)⟩
    rw [List.getElem?_append_left hi, hb]
  · exact h string.length 0 (by simp)

/-! ### The four loops -/

namespace DownStack

variable {st : DownStack Byte} {strings : List (List Byte)} {ptrs : List Nat}

theorem pushStrings_fst (st : DownStack Byte) (strings : List (List Byte)) :
    (st.pushStrings strings).1 = st.pushAll (strings.map copyString) := by
  induction strings with
  | nil => rfl
  | cons string strings ih =>
      change (st.pushStrings strings).1.push (copyString string) = _
      rw [ih]
      rfl

theorem pushStrings_ptrs (st : DownStack Byte) (strings : List (List Byte))
    (hroom : ((strings.map copyString).map List.length).sum ≤ st.top) :
    (st.pushStrings strings).2.length = strings.length ∧
      ∀ (i : Nat) (string : List Byte), strings[i]? = some string →
        ∃ p, (st.pushStrings strings).2[i]? = some p ∧ p ≤ st.top ∧
          (st.pushStrings strings).1.top ≤ p ∧
          Holds (st.pushStrings strings).1.mem p (copyString string) := by
  induction strings with
  | nil => exact ⟨rfl, fun i string h => by rw [List.getElem?_nil] at h; cases h⟩
  | cons first strings ih =>
      rw [List.map_cons, List.map_cons, List.sum_cons] at hroom
      obtain ⟨hlength, hptrs⟩ := ih (by omega)
      have hrest := pushed_pushAll st (strings.map copyString) (by omega)
      rw [← pushStrings_fst] at hrest
      have htop := hrest.top
      have hfirst := pushed_push (st.pushStrings strings).1 (copyString first)
        (by omega)
      have htop' := hfirst.top
      refine ⟨congrArg (· + 1) hlength, fun i string h => ?_⟩
      cases i with
      | zero =>
          obtain rfl := Option.some.inj h
          exact ⟨_, rfl, by omega, Nat.le_refl _, holds_push _ _⟩
      | succ i =>
          obtain ⟨p, hp, hhi, hlo, hholds⟩ := hptrs i string h
          exact ⟨p, hp, hhi, Nat.le_trans (Nat.le_of_add_right_le (Nat.le_of_eq htop')) hlo,
            hfirst.holds hlo hholds⟩

theorem sum_wordBytes (words : List Nat) :
    ((words.map wordBytes).map List.length).sum = 8 * words.length := by
  induction words with
  | nil => rfl
  | cons w words ih =>
      rw [List.map_cons, List.map_cons, List.sum_cons, ih, wordBytes_length, List.length_cons]
      omega

theorem pushed_pushPointers (st : DownStack Byte) (ptrs : List Nat)
    (hroom : 8 * (ptrs.length + 1) ≤ st.top) :
    Pushed (8 * (ptrs.length + 1)) st (st.pushPointers ptrs) := by
  have hsize := sum_wordBytes (ptrs ++ [0])
  rw [List.length_append, List.length_singleton] at hsize
  have hpushed := pushed_pushAll st ((ptrs ++ [0]).map wordBytes) (by omega)
  rwa [hsize] at hpushed

/-- The words of an array of pointers, with the null pointer at its end. -/
theorem holds_pushPointers (st : DownStack Byte) (ptrs : List Nat)
    (hroom : 8 * (ptrs.length + 1) ≤ st.top) (i p : Nat)
    (hp : (ptrs ++ [0])[i]? = some p) :
    Holds (st.pushPointers ptrs).mem ((st.pushPointers ptrs).top + 8 * i) (wordBytes p) := by
  have hsize := sum_wordBytes (ptrs ++ [0])
  rw [List.length_append, List.length_singleton] at hsize
  have hi : i < (ptrs ++ [0]).length := (List.getElem?_eq_some_iff.mp hp).1
  have hblock := holds_pushAll st ((ptrs ++ [0]).map wordBytes) (by omega)
    i (wordBytes p) (by rw [List.getElem?_map, hp]; rfl)
  rwa [← List.map_take, sum_wordBytes, List.length_take_of_le hi.le] at hblock

end DownStack

/-- An array of pointers to strings, in a memory that holds both. -/
theorem stringsAt_of_holds {strings : List (List Byte)} {ptrs : List Nat}
    (hfree : ∀ string ∈ strings, NulFree string) (hlength : ptrs.length = strings.length)
    (hwords : ∀ (i p : Nat), (ptrs ++ [0])[i]? = some p →
      DownStack.Holds mem (addr + 8 * i) (wordBytes p))
    (hptrs : ∀ (i : Nat) (string : List Byte), strings[i]? = some string →
      ∃ p, ptrs[i]? = some p ∧ p < 2 ^ 64 ∧ DownStack.Holds mem p (copyString string)) :
    StringsAt mem addr strings := by
  constructor
  · intro i string h
    obtain ⟨p, hp, hlt, hholds⟩ := hptrs i string h
    have hi : i < ptrs.length := (List.getElem?_eq_some_iff.mp hp).1
    rw [quadAt_of_holds (hwords i p (by rw [List.getElem?_append_left hi, hp])) hlt]
    exact stringAt_of_holds (hfree string (List.mem_of_getElem? h)) hholds
  · rw [← hlength]
    exact quadAt_of_holds (hwords ptrs.length 0 (by simp)) (by decide)

/-! ### The whole stack -/

theorem copies_size {strings : List (List Byte)} (hfree : ∀ string ∈ strings, NulFree string) :
    (((strings.map copyString).map copyString).map List.length).sum = stringsSize strings := by
  rw [stringsSize, List.map_map, List.map_map]
  congr 1
  apply List.map_congr_left
  intro string hstring
  change (copyString (copyString string)).length = _
  rw [copyString_copyString, copyString_of_nulFree (hfree string hstring), List.length_append,
    List.length_singleton]

/-- The copies of a list of strings, packed below the top of a stack. -/
theorem pushStrings_copies (st : DownStack Byte) {strings : List (List Byte)}
    (hfree : ∀ string ∈ strings, NulFree string) (hroom : stringsSize strings ≤ st.top) :
    DownStack.Pushed (stringsSize strings) st (st.pushStrings (strings.map copyString)).1 ∧
      (st.pushStrings (strings.map copyString)).2.length = strings.length ∧
      ∀ (i : Nat) (string : List Byte), strings[i]? = some string →
        ∃ p, (st.pushStrings (strings.map copyString)).2[i]? = some p ∧ p ≤ st.top ∧
          (st.pushStrings (strings.map copyString)).1.top ≤ p ∧
          DownStack.Holds (st.pushStrings (strings.map copyString)).1.mem p
            (copyString string) := by
  have hsize := copies_size hfree
  obtain ⟨hlength, hptrs⟩ := DownStack.pushStrings_ptrs st
    (strings.map copyString) (by omega)
  have hpushed := DownStack.pushed_pushAll st
    ((strings.map copyString).map copyString) (by omega)
  rw [hsize, ← DownStack.pushStrings_fst] at hpushed
  refine ⟨hpushed, by rw [hlength, List.length_map], fun i string h => ?_⟩
  obtain ⟨p, hp, hhi, hlo, hholds⟩ := hptrs i (copyString string)
    (by rw [List.getElem?_map, h]; rfl)
  rw [copyString_copyString] at hholds
  exact ⟨p, hp, hhi, hlo, hholds⟩

/-- What is written for the arguments: as many bytes as the image has, below the end of the region,
and they decode to the arguments. -/
theorem argumentStack_spec (mem : Nat → Byte) (hargv : ∀ string ∈ argv, NulFree string)
    (henvp : ∀ string ∈ envp, NulFree string) (hroom : packedSize argv envp ≤ userStackTop) :
    DownStack.Pushed (packedSize argv envp) ⟨userStackTop, mem, []⟩
        (argumentStack mem argv envp) ∧
      Decodes (argumentStack mem argv envp).mem (argumentStack mem argv envp).top argv envp := by
  unfold packedSize at hroom ⊢
  have hend : userStackTop < 2 ^ 64 := by decide
  obtain ⟨hpushE, hlenE, hptrE⟩ :=
    pushStrings_copies ⟨userStackTop, mem, []⟩ henvp (by change _ ≤ userStackTop; omega)
  set start : DownStack Byte := ⟨userStackTop, mem, []⟩ with hstart
  set st₁ := (start.pushStrings (envp.map copyString)).1
  set envpPtrs := (start.pushStrings (envp.map copyString)).2
  have htop₁ : st₁.top + stringsSize envp = userStackTop := hpushE.top
  obtain ⟨hpushA, hlenA, hptrA⟩ := pushStrings_copies st₁ hargv (by omega)
  set st₂ := (st₁.pushStrings (argv.map copyString)).1
  set argvPtrs := (st₁.pushStrings (argv.map copyString)).2
  have htop₂ := hpushA.top
  have hpush₃ := DownStack.pushed_pushPointers st₂ envpPtrs (by omega)
  have hwords₃ := DownStack.holds_pushPointers st₂ envpPtrs (by omega)
  set st₃ := st₂.pushPointers envpPtrs
  have htop₃ := hpush₃.top
  have hpush₄ := DownStack.pushed_pushPointers st₃ argvPtrs (by omega)
  have hwords₄ := DownStack.holds_pushPointers st₃ argvPtrs (by omega)
  set st₄ := st₃.pushPointers argvPtrs
  have htop₄ := hpush₄.top
  have hpush₅ := DownStack.pushed_push st₄ (wordBytes argv.length)
    (by rw [wordBytes_length]; omega)
  have hcount := DownStack.holds_push st₄ (wordBytes argv.length)
  have hstack : argumentStack mem argv envp = st₄.push (wordBytes argv.length) := by
    change st₄.push (wordBytes (argv.map copyString).length) = _
    rw [List.length_map]
  rw [wordBytes_length] at hpush₅
  rw [hstack]
  set st₅ := st₄.push (wordBytes argv.length)
  have htop₅ := hpush₅.top
  have hall := ((((hpushE.trans hpushA).trans hpush₃).trans hpush₄).trans hpush₅)
  have hsize : 8 + (8 * (argvPtrs.length + 1) + (8 * (envpPtrs.length + 1) +
      (stringsSize argv + stringsSize envp))) =
      8 + 8 * (argv.length + 1) + 8 * (envp.length + 1) + stringsSize argv + stringsSize envp := by
    omega
  rw [hsize] at hall
  have hargc : argv.length < 2 ^ 64 := by omega
  refine ⟨hall, quadAt_of_holds hcount hargc, ?_, ?_⟩
  · have haddr : st₅.top + 8 = st₄.top := htop₅
    rw [haddr]
    refine stringsAt_of_holds hargv hlenA (fun i p hp => ?_) fun i string h => ?_
    · exact hpush₅.holds (Nat.le_add_right _ _) (hwords₄ _ _ hp)
    · obtain ⟨p, hp, hhi, hlo, hholds⟩ := hptrA i string h
      refine ⟨p, hp, by omega, ?_⟩
      exact hpush₅.holds (by omega) (hpush₄.holds (by omega) (hpush₃.holds hlo hholds))
  · have haddr : st₅.top + 8 + 8 * (argv.length + 1) = st₃.top := by omega
    rw [haddr]
    refine stringsAt_of_holds henvp hlenE (fun i p hp => ?_) fun i string h => ?_
    · exact hpush₅.holds (by omega) (hpush₄.holds (Nat.le_add_right _ _) (hwords₃ _ _ hp))
    · obtain ⟨p, hp, hhi, hlo, hholds⟩ := hptrE i string h
      have hp64 : p ≤ userStackTop := hhi
      refine ⟨p, hp, by omega, ?_⟩
      exact hpush₅.holds (by omega) (hpush₄.holds (by omega)
        (hpush₃.holds (by omega) (hpushA.holds hlo hholds)))

/-- The bytes written lie in the region exactly when the image fits. -/
theorem inside_iff_of_pushed {size : Nat} {st : DownStack Byte} (hsize : 0 < size)
    (h : DownStack.Pushed size ⟨userStackTop, mem, []⟩ st) :
    (∀ a ∈ st.writes, userStack ≤ a ∧ a < userStackTop) ↔ size ≤ 4096 * 128 := by
  have htop : st.top + size = userStackTop := h.top
  obtain ⟨new, hwrites, -, hmem⟩ := h.writes
  rw [List.nil_append] at hwrites
  have hregion : userStackTop = userStack + 4096 * 128 := rfl
  rw [hwrites]
  constructor
  · intro hinside
    obtain ⟨hlo, -⟩ := hinside st.top ((hmem st.top).mpr ⟨Nat.le_refl _, by
      change st.top < userStackTop
      omega⟩)
    omega
  · intro hfits a ha
    obtain ⟨hlo, hhi⟩ := (hmem a).mp ha
    exact ⟨by omega, hhi⟩

theorem packedSize_pos (argv envp : List (List Byte)) : 0 < packedSize argv envp := by
  unfold packedSize
  omega

theorem stringsSize_le {strings : List (List Byte)}
    (h : ∀ string ∈ strings, NulFree string ∧ string.length < 0x10000) :
    stringsSize strings ≤ 0x10000 * strings.length := by
  have hle := List.sum_le_card_nsmul (strings.map fun string => string.length + 1) 0x10000
      fun n hn => by
    obtain ⟨string, hstring, rfl⟩ := List.mem_map.mp hn
    exact (h string hstring).2
  rw [List.length_map, nsmul_eq_mul, Nat.cast_id, Nat.mul_comm] at hle
  exact hle

/-- Arguments that pass the checks are far from the begin of memory. -/
theorem ArgsPass.packedSize_le (h : ArgsPass argv envp) : packedSize argv envp ≤ userStackTop := by
  have hargc : argv.length < 8192 := h.argc
  have henvc : envp.length < 8192 := h.envc
  have hargv := stringsSize_le h.argv
  have henvp := stringsSize_le h.envp
  unfold packedSize userStackTop userStack
  omega

/-! ### Validation and copies -/

/-- The validation goes through strings that are not too long. -/
theorem scanSlots_argSlot {strings : List (List Byte)}
    (h : ∀ string ∈ strings, NulFree string ∧ string.length < 0x10000) (n i : Nat) :
    scanSlots (argSlot strings) n i = .ok ((strings.drop i).take n) := by
  induction n generalizing i with
  | zero => rfl
  | succ n ih =>
      rw [scanSlots, if_neg (show ¬ (argSlot strings i).res < 0 from Int.lt_irrefl 0)]
      by_cases hi : i < strings.length
      · obtain ⟨hfree, hshort⟩ := h _ (List.getElem_mem hi)
        have hvalue : (argSlot strings i).value = some (strings[i], 0) := by
          rw [argSlot, List.getElem?_eq_getElem hi, Option.map_some, takeWhile_of_nulFree hfree,
            if_pos hshort]
        rw [hvalue, List.drop_eq_getElem_cons hi, List.take_succ_cons]
        dsimp only
        rw [if_neg (Int.lt_irrefl 0), ih]
        rfl
      · have hvalue : (argSlot strings i).value = none := by
          rw [argSlot, List.getElem?_eq_none (Nat.le_of_not_lt hi), Option.map_none]
        rw [hvalue, List.drop_eq_nil_of_le (Nat.le_of_not_lt hi), List.take_nil]

theorem checkStrings_eq {strings : List (List Byte)}
    (h : ∀ string ∈ strings, NulFree string ∧ string.length < 0x10000) :
    checkStrings strings =
      if strings.length < maxArgs then .ok strings else .error eInval := by
  rw [checkStrings, scanSlots_argSlot h, List.drop_zero]
  change (if (strings.take maxArgs).length = maxArgs then _ else _) = _
  rw [List.length_take]
  by_cases hfew : strings.length < maxArgs
  · rw [if_pos hfew, if_neg (by omega), List.take_of_length_le (Nat.le_of_lt hfew)]
  · rw [if_neg hfew, if_pos (by omega)]

theorem HeapState.calls_ok_iff {s : HeapState} {ops : List HeapOp} :
    (∃ s', s.calls ops = .ok s') ↔ Along HeapState.next Succeeds s ops := by
  induction ops generalizing s with
  | nil => exact iff_of_true ⟨s, rfl⟩ trivial
  | cons op ops ih =>
      have hcalls : s.calls (op :: ops) = (s.call op).bind fun s' => s'.calls ops := rfl
      have halong : Along HeapState.next Succeeds s (op :: ops) ↔
          Succeeds s op ∧ Along HeapState.next Succeeds (s.next op) ops := .rfl
      rw [hcalls, halong, Succeeds, HeapState.next, ← ih]
      cases s.call op with
      | error reason => simp [Except.bind]
      | ok s' => simp [Except.bind]

/-- Arguments that pass the checks get their stack exactly when no call panics. -/
theorem addTaskStack_ok_iff {heap : HeapState} {between : List HeapOp} {st : DownStack Byte}
    (hpass : ArgsPass argv envp) :
    addTaskStack mem heap between argv envp = .ok st ↔
      NoPanic heap between argv envp ∧ argumentStack mem argv envp = st := by
  rw [addTaskStack, checkStrings_eq hpass.argv, if_pos hpass.argc, checkStrings_eq hpass.envp,
    if_pos hpass.envc, NoPanic, ← HeapState.calls_ok_iff]
  change ((heap.calls _).mapError AddTaskStop.panic).bind (fun _ => .ok _) = _ ↔ _
  cases heap.calls (copyCalls argv ++ copyCalls envp ++ between) with
  | error reason => simp [Except.mapError, Except.bind]
  | ok s' => simp [Except.mapError, Except.bind]

/-- The stack of a new program decodes to its arguments, and its bytes are written once
each, in the region for the stack. -/
theorem addTaskStack_decodes (mem : Nat → Byte) (heap : HeapState) (between : List HeapOp)
    (argv envp : List (List Byte)) (hpass : ArgsPass argv envp)
    (hheap : NoPanic heap between argv envp) (hfits : packedSize argv envp ≤ 4096 * 128) :
    ∃ st, addTaskStack mem heap between argv envp = .ok st ∧
      Decodes st.mem st.top argv envp ∧ st.writes.Nodup ∧
      ∀ a ∈ st.writes, userStack ≤ a ∧ a < userStackTop := by
  obtain ⟨hpushed, hdecodes⟩ := argumentStack_spec mem (fun string h => (hpass.argv string h).1)
    (fun string h => (hpass.envp string h).1) hpass.packedSize_le
  refine ⟨_, (addTaskStack_ok_iff hpass).mpr ⟨hheap, rfl⟩, hdecodes, ?_,
    (inside_iff_of_pushed (packedSize_pos argv envp) hpushed).mpr hfits⟩
  obtain ⟨new, hwrites, hnodup, -⟩ := hpushed.writes
  rw [List.nil_append] at hwrites
  rw [hwrites]
  exact hnodup

theorem shell_pass : ArgsPass [[115, 104], [45, 99]] [[65, 61, 66]] :=
  ⟨by decide, by decide, by unfold NulFree; decide, by unfold NulFree; decide⟩

theorem shell_noPanic :
    NoPanic (.boot 0x200000) [.kmalloc 5000] [[115, 104], [45, 99]] [[65, 61, 66]] :=
  ⟨⟨_, rfl⟩, ⟨_, rfl⟩, ⟨_, rfl⟩, ⟨_, rfl⟩, trivial⟩

theorem addTaskStack_decodes_shell :
    ∃ st, addTaskStack (fun _ => 0) (.boot 0x200000) [.kmalloc 5000] [[115, 104], [45, 99]]
        [[65, 61, 66]] = .ok st ∧
      Decodes st.mem st.top [[115, 104], [45, 99]] [[65, 61, 66]] ∧ st.writes.Nodup ∧
      ∀ a ∈ st.writes, userStack ≤ a ∧ a < userStackTop :=
  addTaskStack_decodes (fun _ => 0) (.boot 0x200000) [.kmalloc 5000] _ _ shell_pass shell_noPanic
    (by decide)

/-! ### Arguments without a stack -/

def letters (argc : Nat) : List (List Byte) := List.replicate argc [97]

theorem letters_short (argc : Nat) :
    ∀ string ∈ letters argc, NulFree string ∧ string.length < 0x10000 := by
  intro string hstring
  obtain rfl := List.eq_of_mem_replicate hstring
  exact ⟨by unfold NulFree; decide, by decide⟩

theorem letters_pass {argc : Nat} (h : argc < maxArgs) : ArgsPass (letters argc) [] :=
  ⟨by rwa [letters, List.length_replicate], by decide, letters_short argc, List.forall_mem_nil _⟩

theorem packedSize_letters (argc : Nat) : packedSize (letters argc) [] = 24 + 10 * argc := by
  have hstrings : stringsSize (letters argc) = argc * 2 := by
    rw [stringsSize, letters, List.map_replicate, List.sum_replicate, List.length_singleton,
      nsmul_eq_mul, Nat.cast_id]
  have hnil : stringsSize [] = 0 := rfl
  rw [packedSize, hstrings, hnil, letters, List.length_replicate, List.length_nil]
  omega

/-- While blocks of one page are taken from the rest of the heap, each region is one of
them or that rest. -/
def PageOrRest (j : Nat) (r : MappedRegion) : Prop :=
  r.free = false ∨ (2 + (j : Int) ≤ r.pages ∧ r.pages ≤ maxRegionPages)

theorem PageOrRest.split (j : Nat) (r : MappedRegion) (hr : PageOrRest (j + 1) r)
    (hfits : r.fits 1 = true) :
    1 ≠ toSizeT r.pages ∧ PageOrRest j (r.taken 1) ∧ PageOrRest j (r.rest 1) := by
  rcases hr with hused | ⟨hlow, hhigh⟩
  · rw [MappedRegion.fits, hused] at hfits
    cases hfits
  · have hmodest := MappedRegion.Modest.of_fits hfits (by omega) hhigh
    have hpages := hmodest.toSizeT_pages
    refine ⟨by omega, .inl rfl, .inr ?_⟩
    rw [hmodest.rest_pages hfits]
    omega

/-- The table has no entries for the copies of 1100 strings. -/
theorem letters_panic (between : List HeapOp) :
    ¬ NoPanic (.boot 0x200000) between (letters 1100) [] := by
  intro hheap
  have hcopies : copyCalls (letters 1100) = List.replicate 1100 (.kmalloc 2) := by
    rw [copyCalls, letters, List.map_replicate]
    rfl
  rw [NoPanic, hcopies, List.append_assoc] at hheap
  have halong := (Along.append.mp hheap).1
  have hboot : (HeapState.boot 0x200000).heap.map =
      [⟨0xFFFFFFFF80200000, 0x7FDFF, true⟩] := rfl
  obtain ⟨-, -, hfull⟩ := length_of_splits (n := 1) rfl PageOrRest
    (fun j r hr => hr.imp_right fun h => ⟨by omega, h.2⟩) PageOrRest.split 1100
    (.boot 0x200000) (by
      intro r hr
      rw [hboot, List.mem_singleton] at hr
      subst hr
      exact .inr (by decide)) (by rw [hboot]; decide) halong
  rw [hboot] at hfull
  exact absurd hfull (by decide)

/-- 8192 strings are refused, and 1100 are too many for the kernel heap, where the images
have room. -/
theorem addTaskStack_none :
    (packedSize (letters 8192) [] ≤ 4096 * 128 ∧ packedSize (letters 1100) [] ≤ 4096 * 128) ∧
      (∀ string ∈ letters 8192 ++ letters 1100, NulFree string) ∧
      ∀ between, addTaskStack (fun _ => 0) (.boot 0x200000) between (letters 8192) [] =
          .error (.refused eInval) ∧
        ∀ st, addTaskStack (fun _ => 0) (.boot 0x200000) between (letters 1100) [] ≠ .ok st := by
  refine ⟨⟨by rw [packedSize_letters]; decide, by rw [packedSize_letters]; decide⟩,
    fun string hstring => ?_, fun between => ⟨?_, fun st hst => ?_⟩⟩
  · rcases List.mem_append.mp hstring with h | h
    · exact (letters_short _ string h).1
    · exact (letters_short _ string h).1
  · have hmany : ¬ (letters 8192).length < maxArgs := by
      rw [letters, List.length_replicate]
      decide
    rw [addTaskStack, checkStrings_eq (letters_short 8192), if_neg hmany]
    rfl
  · exact letters_panic between ((addTaskStack_ok_iff (letters_pass (by decide))).mp hst).1

end GlitchedOS
