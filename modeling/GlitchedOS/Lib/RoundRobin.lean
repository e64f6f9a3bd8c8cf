/-
Round robin over a circle.  The members stand in a list that ends with the one served
last; the next one served is the first that is ready, and the list is turned so that it
comes to the end.
-/
import Mathlib.Data.List.Nodup
import Mathlib.Data.List.Chain
import Mathlib.Data.List.Count

namespace GlitchedOS

universe u

variable {α : Type u}

/-- The members of a circle in order, from one of them on. -/
structure Circle (next : α → α) (ring : List α) : Prop where
  ne_nil : ring ≠ []
  nodup : ring.Nodup
  closed : List.IsChain (fun a b => next a = b) (ring ++ ring.head?.toList)

namespace Circle

variable {next next' : α → α} {ring before after : List α}

theorem congr (h : Circle next ring) (hnext : ∀ a, next' a = next a) : Circle next' ring where
  ne_nil := h.ne_nil
  nodup := h.nodup
  closed := h.closed.imp fun a _ hab => (hnext a).trans hab

/-- The circle from another of its members on. -/
theorem turn (h : Circle next (before ++ after)) : Circle next (after ++ before) := by
  cases before with
  | nil => simpa using h
  | cons b rest =>
      cases after with
      | nil => simpa using h
      | cons a after =>
          have hclosed := h.closed
          simp only [List.cons_append, List.head?_cons, Option.toList_some,
            List.append_assoc] at hclosed
          have hfirst : List.IsChain (fun a b => next a = b) (b :: rest ++ [a]) :=
            hclosed.prefix ⟨after ++ [b], by simp⟩
          have hlast : List.IsChain (fun a b => next a = b) (a :: after ++ [b]) :=
            hclosed.suffix ⟨b :: rest, by simp⟩
          have hjoin := hlast.append_overlap hfirst (by simp)
          refine ⟨by simp, ?_, by simpa using hjoin⟩
          exact (List.perm_append_comm.nodup_iff).mp h.nodup

end Circle

/-- Serving one: the first of `waiting` that is ready goes to the end of the list, behind
the members that have been passed over. -/
def serveFrom (ready : α → Bool) : List α → List α → Option α × List α
  | passed, [] => (none, passed)
  | passed, a :: waiting =>
    if ready a then (some a, waiting ++ passed ++ [a])
    else serveFrom ready (passed ++ [a]) waiting

/-- One turn of a round robin. -/
def serve (ready : α → Bool) (order : List α) : Option α × List α := serveFrom ready [] order

/-- The members served when different ones are ready each time. -/
def serveAll : List (α → Bool) → List α → List (Option α)
  | [], _ => []
  | ready :: rest, order => (serve ready order).1 :: serveAll rest (serve ready order).2

section Serve

variable {ready : α → Bool} {passed waiting order skipped later : List α} {a : α}

theorem serveFrom_fst : (serveFrom ready passed waiting).1 = waiting.find? ready := by
  induction waiting generalizing passed with
  | nil => rfl
  | cons b rest ih =>
      rw [serveFrom, List.find?_cons]
      cases hready : ready b with
      | true => simp
      | false => simpa using ih

/-- The one served is the first that is ready. -/
theorem serve_fst : (serve ready order).1 = order.find? ready := serveFrom_fst

theorem serveFrom_none (h : ∀ a ∈ waiting, ready a = false) :
    serveFrom ready passed waiting = (none, passed ++ waiting) := by
  induction waiting generalizing passed with
  | nil => simp [serveFrom]
  | cons b rest ih =>
      rw [serveFrom, if_neg (by simp [h b List.mem_cons_self]),
        ih fun a ha => h a (List.mem_cons_of_mem b ha), List.append_assoc, List.singleton_append]

theorem serveFrom_some (hskip : ∀ b ∈ skipped, ready b = false) (ha : ready a = true) :
    serveFrom ready passed (skipped ++ a :: later) =
      (some a, later ++ (passed ++ skipped) ++ [a]) := by
  induction skipped generalizing passed with
  | nil => simp [serveFrom, ha]
  | cons b rest ih =>
      rw [List.cons_append, serveFrom, if_neg (by simp [hskip b List.mem_cons_self]),
        ih fun c hc => hskip c (List.mem_cons_of_mem b hc), List.append_assoc passed,
        List.singleton_append]

/-- Nobody is ready: the order stays as it is. -/
theorem serve_none (h : ∀ a ∈ order, ready a = false) : serve ready order = (none, order) :=
  serveFrom_none h

/-- The members before the first that is ready are passed over. -/
theorem serve_some (hskip : ∀ b ∈ skipped, ready b = false) (ha : ready a = true) :
    serve ready (skipped ++ a :: later) = (some a, later ++ skipped ++ [a]) :=
  serveFrom_some hskip ha

/-- Either nobody is ready, or the list is split at the one served. -/
theorem serve_cases (ready : α → Bool) (order : List α) :
    ((∀ a ∈ order, ready a = false) ∧ serve ready order = (none, order)) ∨
      ∃ skipped a later, order = skipped ++ a :: later ∧ (∀ b ∈ skipped, ready b = false) ∧
        ready a = true ∧ serve ready order = (some a, later ++ skipped ++ [a]) := by
  cases hfind : order.find? ready with
  | none =>
      have hnone : ∀ a ∈ order, ready a = false := by simpa using List.find?_eq_none.mp hfind
      exact .inl ⟨hnone, serve_none hnone⟩
  | some a =>
      obtain ⟨ha, skipped, later, rfl, hskip⟩ := List.find?_eq_some_iff_append.mp hfind
      have hskip' : ∀ b ∈ skipped, ready b = false := by simpa using hskip
      exact .inr ⟨skipped, a, later, rfl, hskip', ha, serve_some hskip' ha⟩

end Serve

section Fairness

variable {readies : List (α → Bool)} {ready : α → Bool} {t x : α}
  {waiting passed : List α} {outs : List (Option α)}

/-- While a member that is ready waits before `t`, one that waits before `t` is served, and
those passed over come to stand behind `t`. -/
theorem serve_waiting (hx : x ∈ waiting) (hready : ready x = true) (t : α)
    (passed : List α) : ∃ skipped a later, waiting = skipped ++ a :: later ∧
      (∀ b ∈ skipped, ready b = false) ∧
      serve ready (waiting ++ t :: passed) =
        (some a, later ++ t :: (passed ++ skipped ++ [a])) := by
  cases hfind : waiting.find? ready with
  | none => simp [List.find?_eq_none.mp hfind x hx] at hready
  | some a =>
      obtain ⟨ha, skipped, later, rfl, hskip⟩ := List.find?_eq_some_iff_append.mp hfind
      have hskip' : ∀ b ∈ skipped, ready b = false := by simpa using hskip
      refine ⟨skipped, a, later, rfl, hskip', ?_⟩
      rw [List.append_assoc, List.cons_append, serve_some hskip' ha]
      simp

/-- The order after a turn has the same members. -/
theorem nodup_turned {skipped later : List α} {a : α}
    (h : (skipped ++ a :: later ++ t :: passed).Nodup) :
    (later ++ t :: (passed ++ skipped ++ [a])).Nodup := by
  refine (List.Perm.nodup_iff ?_).mp h
  simp only [List.append_assoc, List.cons_append]
  refine (List.perm_append_comm : (skipped ++ _).Perm _).trans ?_
  simp only [List.cons_append, List.append_assoc]
  refine (List.perm_append_singleton a _).symm.trans ?_
  simp

/-- A member that is ready each time and waits before `t` is served before `t` is. -/
theorem served_before (hnodup : (waiting ++ t :: passed).Nodup)
    (hall : ∀ r ∈ readies, r x = true) (hx : x ∈ waiting)
    (houts : serveAll readies (waiting ++ t :: passed) = outs ++ [some t]) : some x ∈ outs := by
  induction readies generalizing waiting passed outs with
  | nil => simp [serveAll] at houts
  | cons ready rest ih =>
      obtain ⟨skipped, a, later, rfl, hskip, hserve⟩ :=
        serve_waiting hx (hall ready List.mem_cons_self) t passed
      have hne : a ≠ t := by
        rintro rfl
        simp [List.nodup_append] at hnodup
      rw [serveAll, hserve] at houts
      cases outs with
      | nil => exact absurd (Option.some.inj (List.cons.inj houts).1) hne
      | cons out outs =>
          obtain ⟨rfl, hrest⟩ := List.cons.inj houts
          have hnot : x ∉ skipped := fun hmem => by
            simp [hskip x hmem] at hall
          rcases List.mem_append.mp hx with hmem | hmem
          · exact absurd hmem hnot
          rcases List.mem_cons.mp hmem with rfl | hlater
          · exact List.mem_cons_self
          · exact List.mem_cons_of_mem _ (ih (nodup_turned hnodup)
              (fun r hr => hall r (List.mem_cons_of_mem ready hr)) hlater hrest)

/-- If `t` is ready each time too, the member is served once when it waits before `t`, and
not at all when it stands behind `t`. -/
theorem count_served [DecidableEq α] (hnodup : (waiting ++ t :: passed).Nodup)
    (hall : ∀ r ∈ readies, r x = true) (ht : ∀ r ∈ readies, r t = true) (hne : x ≠ t)
    (houts : serveAll readies (waiting ++ t :: passed) = outs ++ [some t])
    (hfirst : some t ∉ outs) :
    outs.count (some x) = if x ∈ waiting then 1 else 0 := by
  induction readies generalizing waiting passed outs with
  | nil => simp [serveAll] at houts
  | cons ready rest ih =>
      have hx := hall ready List.mem_cons_self
      by_cases hsome : ∃ y ∈ waiting, ready y = true
      · obtain ⟨y, hy, hyready⟩ := hsome
        obtain ⟨skipped, a, later, rfl, hskip, hserve⟩ := serve_waiting hy hyready t passed
        have hnot : x ∉ skipped := fun hmem => by
          simp [hskip x hmem] at hx
        rw [serveAll, hserve] at houts
        cases outs with
        | nil =>
            obtain rfl := Option.some.inj (List.cons.inj houts).1
            simp [List.nodup_append] at hnodup
        | cons out outs =>
            obtain ⟨rfl, hrest⟩ := List.cons.inj houts
            have hcount := ih (nodup_turned hnodup)
              (fun r hr => hall r (List.mem_cons_of_mem ready hr))
              (fun r hr => ht r (List.mem_cons_of_mem ready hr)) hrest
              fun hmem => hfirst (List.mem_cons_of_mem _ hmem)
            rw [List.count_cons, hcount]
            by_cases hxa : x = a
            · subst hxa
              have hlater : x ∉ later := by
                simp [List.nodup_append] at hnodup
                tauto
              simp [hlater]
            · simp [hnot, hxa, Ne.symm hxa]
      · have hnone : ∀ y ∈ waiting, ready y = false := by simpa using hsome
        have hserve : serve ready (waiting ++ t :: passed) = (some t, passed ++ waiting ++ [t]) :=
          serve_some hnone (ht ready List.mem_cons_self)
        rw [serveAll, hserve] at houts
        cases outs with
        | nil =>
            have hxw : x ∉ waiting := fun hmem => by simp [hnone x hmem] at hx
            simp [hxw]
        | cons out outs =>
            obtain ⟨rfl, -⟩ := List.cons.inj houts
            exact absurd List.mem_cons_self hfirst

end Fairness

end GlitchedOS
