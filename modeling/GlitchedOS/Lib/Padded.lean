/-
Arrays that go on with a blank behind their end.  A write in the middle or behind the end
and a new size are what they do to each element.
-/
import Mathlib.Data.List.GetD

namespace GlitchedOS

universe u

namespace Padded

variable {α : Type u} {blank : α} {xs ys : List α} {offset n i : Nat}

/-- An array with other elements from an offset on. -/
def overwrite (blank : α) (xs : List α) (offset : Nat) (ys : List α) : List α :=
  xs.take offset ++ List.replicate (offset - xs.length) blank ++ ys ++ xs.drop (offset + ys.length)

def resize (blank : α) (xs : List α) (n : Nat) : List α :=
  xs.take n ++ List.replicate (n - xs.length) blank

def slice (xs : List α) (offset size : Nat) : List α := (xs.drop offset).take size

theorem getD_blank : (List.replicate n blank).getD i blank = blank := by
  rw [List.getD_eq_getElem?_getD, List.getElem?_getD_replicate_default_eq]

theorem length_overwrite :
    (overwrite blank xs offset ys).length = max xs.length (offset + ys.length) := by
  simp only [overwrite, List.length_append, List.length_take, List.length_replicate,
    List.length_drop]
  omega

theorem getD_overwrite :
    (overwrite blank xs offset ys).getD i blank =
      if offset ≤ i ∧ i < offset + ys.length then ys.getD (i - offset) blank
      else xs.getD i blank := by
  have hfront : (xs.take offset ++ List.replicate (offset - xs.length) blank).length = offset := by
    rw [List.length_append, List.length_take, List.length_replicate]
    omega
  rw [overwrite, List.append_assoc]
  rcases Nat.lt_or_ge i offset with hlt | hge
  · rw [if_neg (by omega), List.getD_append _ _ _ _ (by rw [hfront]; exact hlt)]
    rcases Nat.lt_or_ge i xs.length with hin | hout
    · rw [List.getD_append _ _ _ _ (by rw [List.length_take]; omega), List.getD_eq_getElem?_getD,
        List.getElem?_take_of_lt hlt, List.getD_eq_getElem?_getD]
    · rw [List.getD_append_right _ _ _ _ (by rw [List.length_take]; omega),
        List.getD_eq_default xs _ hout, getD_blank]
  · rw [List.getD_append_right _ _ _ _ (by rw [hfront]; exact hge), hfront]
    rcases Nat.lt_or_ge i (offset + ys.length) with hin | hout
    · rw [if_pos ⟨hge, hin⟩, List.getD_append _ _ _ _ (by omega)]
    · rw [if_neg (by omega), List.getD_append_right _ _ _ _ (by omega), List.getD_eq_getElem?_getD,
        List.getElem?_drop, List.getD_eq_getElem?_getD]
      congr 2
      omega

theorem length_resize : (resize blank xs n).length = n := by
  rw [resize, List.length_append, List.length_take, List.length_replicate]
  omega

theorem getD_resize :
    (resize blank xs n).getD i blank = if i < n then xs.getD i blank else blank := by
  split
  next hlt =>
    rw [resize]
    rcases Nat.lt_or_ge i xs.length with hin | hout
    · rw [List.getD_append _ _ _ _ (by rw [List.length_take]; omega), List.getD_eq_getElem?_getD,
        List.getElem?_take_of_lt hlt, List.getD_eq_getElem?_getD]
    · rw [List.getD_append_right _ _ _ _ (by rw [List.length_take]; omega),
        List.getD_eq_default xs _ hout, getD_blank]
  next hge =>
    exact List.getD_eq_default _ _ (by rw [length_resize]; omega)

theorem length_slice (xs : List α) (offset size : Nat) :
    (slice xs offset size).length = min size (xs.length - offset) := by
  rw [slice, List.length_take, List.length_drop]

/-- A part of an array, element by element. -/
theorem slice_eq_map (blank : α) (xs : List α) (offset size : Nat) :
    slice xs offset size =
      (List.range' offset (min size (xs.length - offset))).map fun i => xs.getD i blank := by
  refine List.ext_getElem ?_ fun i hi hi' => ?_
  · rw [length_slice, List.length_map, List.length_range']
  · rw [length_slice] at hi
    rw [List.getElem_map, List.getElem_range', Nat.one_mul,
      List.getD_eq_getElem _ _ (by omega)]
    simp only [slice, List.getElem_take, List.getElem_drop]

end Padded

end GlitchedOS
