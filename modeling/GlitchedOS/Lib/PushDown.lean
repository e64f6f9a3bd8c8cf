/-
Blocks pushed below one another.  A push moves the top down by the length of a block
and writes the block there; so pushes write each cell below the old top once, leave the
cells above it alone, and what was pushed stays where it is.
-/
import Mathlib.Data.List.Nodup
import Mathlib.Data.List.Range
import Mathlib.Algebra.Order.BigOperators.Group.List
import Mathlib.Tactic.Ring

namespace GlitchedOS

universe u

variable {β : Type u}

/-- A stack in memory that grows down, with the cells written so far in order. -/
structure DownStack (β : Type u) where
  top : Nat
  mem : Nat → β
  writes : List Nat

namespace DownStack

/-- A block written below the top. -/
def push (st : DownStack β) (block : List β) : DownStack β where
  top := st.top - block.length
  mem a :=
    if st.top - block.length ≤ a then block.getD (a - (st.top - block.length)) (st.mem a)
    else st.mem a
  writes := st.writes ++ List.range' (st.top - block.length) block.length

/-- Blocks pushed from the last one to the first one. -/
def pushAll (st : DownStack β) (blocks : List (List β)) : DownStack β :=
  blocks.foldr (fun block st => st.push block) st

/-- The memory holds a block at an address. -/
def Holds (mem : Nat → β) (addr : Nat) (block : List β) : Prop :=
  ∀ i b, block[i]? = some b → mem (addr + i) = b

/-- What pushes of `size` cells in all have done. -/
structure Pushed (size : Nat) (st st' : DownStack β) : Prop where
  top : st'.top + size = st.top
  above : ∀ a, st.top ≤ a → st'.mem a = st.mem a
  writes : ∃ new, st'.writes = st.writes ++ new ∧ new.Nodup ∧
    ∀ a, a ∈ new ↔ st'.top ≤ a ∧ a < st.top

variable {st st' st'' : DownStack β} {block : List β} {blocks : List (List β)} {addr size : Nat}

theorem Pushed.refl (st : DownStack β) : Pushed 0 st st :=
  ⟨rfl, fun _ _ => rfl, [], (List.append_nil _).symm, List.nodup_nil, fun a => by
    rw [List.mem_nil_iff, false_iff]
    omega⟩

theorem Pushed.trans {size' : Nat} (h : Pushed size st st') (h' : Pushed size' st' st'') :
    Pushed (size' + size) st st'' := by
  have htop := h.top
  have htop' := h'.top
  obtain ⟨new, hwrites, hnodup, hmem⟩ := h.writes
  obtain ⟨new', hwrites', hnodup', hmem'⟩ := h'.writes
  refine ⟨by omega, fun a ha => ?_, new ++ new', ?_, ?_, fun a => ?_⟩
  · rw [h'.above a (by omega), h.above a ha]
  · rw [hwrites', hwrites, List.append_assoc]
  · refine hnodup.append hnodup' fun a ha ha' => ?_
    have hold := (hmem a).mp ha
    have hnew := (hmem' a).mp ha'
    omega
  · rw [List.mem_append, hmem, hmem']
    omega

theorem pushed_push (st : DownStack β) (block : List β) (hroom : block.length ≤ st.top) :
    Pushed block.length st (st.push block) := by
  refine ⟨Nat.sub_add_cancel hroom, fun a ha => ?_, _, rfl, List.nodup_range', fun a => ?_⟩
  · have hout : block.length ≤ a - (st.top - block.length) := by omega
    change (if st.top - block.length ≤ a then _ else _) = _
    rw [if_pos (by omega), List.getD_eq_getElem?_getD, List.getElem?_eq_none hout]
    rfl
  · rw [List.mem_range'_1]
    change _ ↔ st.top - block.length ≤ a ∧ a < st.top
    omega

/-- A block is found at the new top. -/
theorem holds_push (st : DownStack β) (block : List β) :
    Holds (st.push block).mem (st.push block).top block := by
  intro i b hb
  have hindex : st.top - block.length + i - (st.top - block.length) = i :=
    Nat.add_sub_cancel_left _ _
  change (if st.top - block.length ≤ st.top - block.length + i then
    block.getD (st.top - block.length + i - (st.top - block.length)) _ else _) = b
  rw [if_pos (Nat.le_add_right _ _), hindex, List.getD_eq_getElem?_getD, hb]
  rfl

/-- Pushes leave what lies above the top alone. -/
theorem Pushed.holds (h : Pushed size st st') (haddr : st.top ≤ addr)
    (hold : Holds st.mem addr block) : Holds st'.mem addr block := by
  intro i b hb
  rw [h.above _ (by omega)]
  exact hold i b hb

/-- The pushes of a list of blocks. -/
theorem pushed_pushAll (st : DownStack β) (blocks : List (List β))
    (hroom : (blocks.map List.length).sum ≤ st.top) :
    Pushed (blocks.map List.length).sum st (st.pushAll blocks) := by
  induction blocks with
  | nil => exact .refl st
  | cons block blocks ih =>
      rw [List.map_cons, List.sum_cons] at hroom ⊢
      have hrest := ih (by omega)
      have htop := hrest.top
      exact hrest.trans (pushed_push _ block (by omega))

/-- Block `i` lies behind the blocks in front of it. -/
theorem holds_pushAll (st : DownStack β) (blocks : List (List β))
    (hroom : (blocks.map List.length).sum ≤ st.top) :
    ∀ i block, blocks[i]? = some block →
      Holds (st.pushAll blocks).mem
        ((st.pushAll blocks).top + ((blocks.take i).map List.length).sum) block := by
  induction blocks with
  | nil =>
      intro i block h
      rw [List.getElem?_nil] at h
      cases h
  | cons first blocks ih =>
      rw [List.map_cons, List.sum_cons] at hroom
      have hrest := (pushed_pushAll st blocks (by omega)).top
      have hfirst := pushed_push (st.pushAll blocks) first (by omega)
      intro i block h
      cases i with
      | zero =>
          obtain rfl := Option.some.inj h
          exact holds_push (st.pushAll blocks) first
      | succ i =>
          have hblock := ih (by omega) i block h
          have htop : (st.pushAll (first :: blocks)).top + first.length = (st.pushAll blocks).top :=
            hfirst.top
          rw [List.take_succ_cons, List.map_cons, List.sum_cons, ← Nat.add_assoc, htop]
          exact hfirst.holds (Nat.le_add_right _ _) hblock

end DownStack

end GlitchedOS
