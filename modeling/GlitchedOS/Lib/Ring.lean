/-
A queue in an array whose ends chase each other.  One cell stays free, so that equal
ends mean an empty queue; the queue is what lies between them.
-/
import Mathlib.Data.List.Range
import Mathlib.Logic.Function.Basic

namespace GlitchedOS

universe u

variable {α : Type u}

/-- The number of cells from the read end to the write end. -/
def ringStored (size readHead writeHead : Nat) : Nat := (writeHead + size - readHead) % size

/-- The cells from the read end to the write end. -/
def ringContents (size : Nat) (buffer : Nat → α) (readHead writeHead : Nat) : List α :=
  (List.range (ringStored size readHead writeHead)).map fun i => buffer ((readHead + i) % size)

section Ring

variable {size readHead writeHead : Nat} {buffer : Nat → α}

@[simp] theorem ringContents_length :
    (ringContents size buffer readHead writeHead).length =
      ringStored size readHead writeHead := by
  simp [ringContents]

@[simp] theorem ringContents_self : ringContents size buffer readHead readHead = [] := by
  simp [ringContents, ringStored]

/-- The queue in terms of the distance between its ends. -/
theorem ringStored_cases (hread : readHead < size) (hwrite : writeHead < size) :
    ringStored size readHead writeHead < size ∧
      (readHead + ringStored size readHead writeHead = writeHead ∨
        readHead + ringStored size readHead writeHead = writeHead + size) := by
  unfold ringStored
  rcases Nat.lt_or_ge writeHead readHead with hlt | hge
  · rw [Nat.mod_eq_of_lt (by omega)]
    omega
  · rw [show writeHead + size - readHead = writeHead - readHead + size by omega,
      Nat.add_mod_right, Nat.mod_eq_of_lt (by omega)]
    omega

/-- Moving an end forward by one. -/
theorem ring_next_cases {head : Nat} (hhead : head < size) :
    (head + 1) % size < size ∧
      ((head + 1) % size = head + 1 ∨ (head + 1) % size = 0 ∧ head + 1 = size) := by
  rcases Nat.lt_or_ge (head + 1) size with hlt | hge
  · rw [Nat.mod_eq_of_lt hlt]
    omega
  · have hsize : head + 1 = size := by omega
    rw [hsize, Nat.mod_self]
    omega

/-- The write end cannot move on exactly when one cell is left. -/
theorem ring_full_iff (hread : readHead < size) (hwrite : writeHead < size) :
    (writeHead + 1) % size = readHead ↔ ringStored size readHead writeHead + 1 = size := by
  have hcases := ringStored_cases hread hwrite
  have hnext := ring_next_cases hwrite
  omega

theorem ringStored_push (hread : readHead < size) (hwrite : writeHead < size)
    (hroom : (writeHead + 1) % size ≠ readHead) :
    ringStored size readHead ((writeHead + 1) % size) =
      ringStored size readHead writeHead + 1 := by
  have hcases := ringStored_cases hread hwrite
  have hnext := ring_next_cases hwrite
  have hcases' := ringStored_cases hread hnext.1
  omega

/-- An item stored at the write end is the last of the queue. -/
theorem ringContents_push (hread : readHead < size) (hwrite : writeHead < size)
    (hroom : (writeHead + 1) % size ≠ readHead) (item : α) :
    ringContents size (Function.update buffer writeHead item) readHead
        ((writeHead + 1) % size) =
      ringContents size buffer readHead writeHead ++ [item] := by
  have hcases := ringStored_cases hread hwrite
  have hlast : (readHead + ringStored size readHead writeHead) % size = writeHead := by
    rcases hcases.2 with heq | heq
    · rw [heq, Nat.mod_eq_of_lt hwrite]
    · rw [heq, Nat.add_mod_right, Nat.mod_eq_of_lt hwrite]
  unfold ringContents
  rw [ringStored_push hread hwrite hroom, List.range_succ, List.map_append]
  refine congrArg₂ (· ++ ·) ?old ?new
  case old =>
    refine List.map_congr_left fun i hi => Function.update_of_ne ?_ _ _
    have hlt := List.mem_range.mp hi
    intro heq
    have hmod : readHead + i = (readHead + i) % size ∨
        readHead + i = (readHead + i) % size + size := by
      rcases Nat.lt_or_ge (readHead + i) size with hin | hout
      · exact .inl (Nat.mod_eq_of_lt hin).symm
      · right
        rw [Nat.mod_eq_sub_mod hout, Nat.mod_eq_of_lt (by omega)]
        omega
    omega
  case new => simp [hlast]

/-- The item at the read end is the first of the queue. -/
theorem ringContents_pop (hread : readHead < size) (hwrite : writeHead < size)
    (hsome : readHead ≠ writeHead) :
    ringContents size buffer readHead writeHead =
      buffer readHead :: ringContents size buffer ((readHead + 1) % size) writeHead := by
  have hcases := ringStored_cases hread hwrite
  have hnext := ring_next_cases hread
  have hcases' := ringStored_cases hnext.1 hwrite
  have hstored : ringStored size readHead writeHead =
      ringStored size ((readHead + 1) % size) writeHead + 1 := by omega
  unfold ringContents
  rw [hstored, List.range_succ_eq_map, List.map_cons, List.map_map]
  refine congrArg₂ List.cons ?_ (List.map_congr_left fun i _ => ?_)
  · rw [Nat.add_zero, Nat.mod_eq_of_lt hread]
  · simp only [Function.comp_apply, Nat.succ_eq_add_one]
    rw [Nat.mod_add_mod, Nat.add_assoc, Nat.add_comm 1 i]

end Ring

end GlitchedOS
