/-
Loops.  One round of a loop goes on to a next state, ends with a result, or is a
fault.  A loop that follows links from one state to the next ends exactly when the
links lead to a stop.
-/
import Mathlib.Logic.Function.Iterate
import Mathlib.Logic.Relation

namespace GlitchedOS

universe u v w

variable {σ : Type u} {ρ : Type v} {τ : Type w}

/-- A loop for at most so many rounds. -/
def runLoop (round : σ → Option (σ ⊕ ρ)) : Nat → σ → Option ρ
  | 0, _ => none
  | fuel + 1, s =>
    match round s with
    | none => none
    | some (.inl s') => runLoop round fuel s'
    | some (.inr r) => some r

namespace Loop

variable {round : σ → Option (σ ⊕ ρ)} {s s' : σ} {r : ρ} {fuel more : Nat}

/-- The loop goes on from one state to another. -/
def Goes (round : σ → Option (σ ⊕ ρ)) (s s' : σ) : Prop :=
  round s = some (.inl s')

/-- The loop ends with a result, after whatever number of rounds. -/
def Ends (round : σ → Option (σ ⊕ ρ)) (s : σ) (r : ρ) : Prop :=
  ∃ fuel, runLoop round fuel s = some r

theorem run_succ : runLoop round (fuel + 1) s =
    match round s with
    | none => none
    | some (.inl s') => runLoop round fuel s'
    | some (.inr r) => some r := rfl

theorem run_done (h : round s = some (.inr r)) : runLoop round (fuel + 1) s = some r := by
  rw [run_succ, h]

theorem run_fault (h : round s = none) : runLoop round fuel s = none := by
  cases fuel with
  | zero => rfl
  | succ fuel => rw [run_succ, h]

/-- Only the first round depends on where the loop starts. -/
theorem run_congr (h : round s = round s') : runLoop round fuel s = runLoop round fuel s' := by
  cases fuel with
  | zero => rfl
  | succ fuel => rw [run_succ, run_succ, h]

theorem run_goes (h : Goes round s s') :
    runLoop round (fuel + 1) s = runLoop round fuel s' := by
  have hround : round s = some (.inl s') := h
  rw [run_succ, hround]

/-- More rounds do not change a result. -/
theorem run_mono (h : runLoop round fuel s = some r) (hle : fuel ≤ more) :
    runLoop round more s = some r := by
  induction fuel generalizing s more with
  | zero => cases h
  | succ fuel ih =>
      obtain ⟨more, rfl⟩ : ∃ k, more = k + 1 := ⟨more - 1, by omega⟩
      cases hround : round s with
      | none => rw [run_fault hround] at h; cases h
      | some next =>
          cases next with
          | inl s' =>
              have hgoes : Goes round s s' := hround
              rw [run_goes hgoes] at h ⊢
              exact ih h (by omega)
          | inr r' =>
              rw [run_done hround] at h ⊢
              exact h

/-- What each round keeps holds of the result. -/
theorem run_invariant (inv : σ → Prop) (post : ρ → Prop)
    (hgoes : ∀ s s', inv s → round s = some (.inl s') → inv s')
    (hdone : ∀ s r, inv s → round s = some (.inr r) → post r) (hs : inv s)
    (h : runLoop round fuel s = some r) : post r := by
  induction fuel generalizing s with
  | zero => cases h
  | succ fuel ih =>
      rw [run_succ] at h
      cases hround : round s with
      | none => rw [hround] at h; cases h
      | some out =>
          rw [hround] at h
          cases out with
          | inl s' => exact ih (hgoes s s' hs hround) h
          | inr r' =>
              obtain rfl := Option.some.inj h
              exact hdone s r' hs hround

theorem Ends.unique {r' : ρ} (h : Ends round s r) (h' : Ends round s r') : r = r' := by
  obtain ⟨fuel, h⟩ := h
  obtain ⟨fuel', h'⟩ := h'
  have hmore := run_mono h (Nat.le_max_left fuel fuel')
  have hmore' := run_mono h' (Nat.le_max_right fuel fuel')
  exact Option.some.inj (hmore.symm.trans hmore')

theorem Ends.now (h : round s = some (.inr r)) : Ends round s r :=
  ⟨1, run_done h⟩

theorem Ends.of_goes (hgoes : Goes round s s') : Ends round s' r → Ends round s r
  | ⟨fuel, h⟩ => ⟨fuel + 1, (run_goes hgoes).trans h⟩

theorem Ends.of_transGen (hgoes : Relation.TransGen (Goes round) s s')
    (h : Ends round s' r) : Ends round s r := by
  induction hgoes using Relation.TransGen.head_induction_on with
  | single hstep => exact h.of_goes hstep
  | head hstep _ ih => exact ih.of_goes hstep

theorem Ends.of_reflTransGen (hgoes : Relation.ReflTransGen (Goes round) s s')
    (h : Ends round s' r) : Ends round s r := by
  induction hgoes using Relation.ReflTransGen.head_induction_on with
  | refl => exact h
  | head hstep _ ih => exact ih.of_goes hstep

theorem run_of_goes (hgoes : Goes round s s') (h : runLoop round fuel s = some r) :
    ∃ less < fuel, runLoop round less s' = some r := by
  cases fuel with
  | zero => cases h
  | succ fuel => exact ⟨fuel, Nat.lt_succ_self fuel, (run_goes hgoes).symm.trans h⟩

/-- A loop that has gone on needs fewer rounds than before. -/
theorem run_of_transGen (hgoes : Relation.TransGen (Goes round) s s')
    (h : runLoop round fuel s = some r) :
    ∃ less < fuel, runLoop round less s' = some r := by
  induction hgoes using Relation.TransGen.head_induction_on generalizing fuel with
  | single hstep => exact run_of_goes hstep h
  | head hstep _ ih =>
      obtain ⟨less, hless, hrun⟩ := run_of_goes hstep h
      obtain ⟨least, hleast, hrun⟩ := ih hrun
      exact ⟨least, Nat.lt_trans hleast hless, hrun⟩

/-- The loop comes to its end through states with these views, one for each round. -/
def Visits (round : σ → Option (σ ⊕ ρ)) (view : σ → τ) : σ → List τ → Prop
  | _, [] => False
  | s, t :: rest => view s = t ∧
      (rest = [] ∧ (∃ r, round s = some (.inr r)) ∨
        ∃ s', Goes round s s' ∧ Visits round view s' rest)

theorem Visits.unique {view : σ → τ} {l l' : List τ} (h : Visits round view s l)
    (h' : Visits round view s l') : l = l' := by
  induction l generalizing s l' with
  | nil => exact absurd h id
  | cons t rest ih =>
      cases l' with
      | nil => exact absurd h' id
      | cons t' rest' =>
          obtain ⟨rfl, hrest⟩ := h
          obtain ⟨rfl, hrest'⟩ := h'
          rcases hrest with ⟨rfl, r, hdone⟩ | ⟨s', hgoes, hrest⟩
          · rcases hrest' with ⟨rfl, -⟩ | ⟨s', hgoes, -⟩
            · rfl
            · cases hdone.symm.trans hgoes
          · rcases hrest' with ⟨-, r, hdone⟩ | ⟨s'', hgoes', hrest'⟩
            · cases hdone.symm.trans hgoes
            · obtain rfl := Sum.inl.inj (Option.some.inj (hgoes.symm.trans hgoes'))
              rw [ih hrest hrest']

theorem not_ends_of_reflTransGen_fault
    (hgoes : Relation.ReflTransGen (Goes round) s s') (hfault : round s' = none) :
    ¬ Ends round s r := by
  rintro ⟨fuel, h⟩
  induction hgoes using Relation.ReflTransGen.head_induction_on generalizing fuel with
  | refl => rw [run_fault hfault] at h; cases h
  | head hstep _ ih =>
      obtain ⟨less, -, hrun⟩ := run_of_goes hstep h
      exact ih less hrun

end Loop

/-- The links from a state lead to a stop, by states that may all be left. -/
def Leads (stops inside : τ → Prop) (next : τ → τ) (t : τ) : Prop :=
  ∃ n, stops (next^[n] t) ∧ ∀ i < n, inside (next^[i] t)

namespace Leads

variable {stops inside : τ → Prop} {next : τ → τ} {t : τ}

theorem now (h : stops t) : Leads stops inside next t :=
  ⟨0, h, fun _ hi => absurd hi (Nat.not_lt_zero _)⟩

theorem later (hinside : inside t) :
    Leads stops inside next (next t) → Leads stops inside next t
  | ⟨n, hstop, hway⟩ => by
      refine ⟨n + 1, hstop, fun i hi => ?_⟩
      cases i with
      | zero => exact hinside
      | succ i => exact hway i (Nat.lt_of_succ_lt_succ hi)

theorem cases (h : Leads stops inside next t) :
    stops t ∨ inside t ∧ Leads stops inside next (next t) := by
  obtain ⟨n, hstop, hway⟩ := h
  cases n with
  | zero => exact .inl hstop
  | succ n =>
      exact .inr ⟨hway 0 (Nat.succ_pos n), n, hstop,
        fun i hi => hway (i + 1) (Nat.succ_lt_succ hi)⟩

/-- Links that never leave a set without a stop lead nowhere. -/
theorem not_of_trap (trap : τ → Prop) (hclosed : ∀ t, trap t → trap (next t))
    (hstops : ∀ t, trap t → ¬ stops t) (ht : trap t) : ¬ Leads stops inside next t := by
  rintro ⟨n, hstop, -⟩
  have htrap : ∀ n, trap (next^[n] t) := by
    intro n
    induction n with
    | zero => exact ht
    | succ n ih =>
        rw [Function.iterate_succ_apply']
        exact hclosed _ ih
  exact hstops _ (htrap n) hstop

/-- A loop that walks along links comes to a result of some kind exactly when they lead
to a stop.  The round that follows a link may be the first one behind it. -/
theorem exists_ends_of_kind_iff {round : σ → Option (σ ⊕ ρ)} {enter : τ → σ} (kind : ρ → Prop)
    (hstop : ∀ t, stops t → ∃ r, kind r ∧ Loop.Ends round (enter t) r)
    (hout : ∀ t, ¬ stops t → ¬ inside t → ∀ r, Loop.Ends round (enter t) r → ¬ kind r)
    (hnext : ∀ t, ¬ stops t → inside t →
      ∃ s, Relation.TransGen (Loop.Goes round) (enter t) s ∧ round s = round (enter (next t))) :
    (∃ r, kind r ∧ Loop.Ends round (enter t) r) ↔ Leads stops inside next t := by
  constructor
  · rintro ⟨r, hkind, fuel, hrun⟩
    induction fuel using Nat.strongRecOn generalizing t with
    | _ fuel ih =>
        by_cases hs : stops t
        · exact now hs
        · by_cases hi : inside t
          · obtain ⟨s, hgoes, hround⟩ := hnext t hs hi
            obtain ⟨less, hless, hrun⟩ := Loop.run_of_transGen hgoes hrun
            exact later hi (ih less hless ((Loop.run_congr hround).symm.trans hrun))
          · exact absurd hkind (hout t hs hi r ⟨fuel, hrun⟩)
  · rintro ⟨n, hend, hway⟩
    induction n generalizing t with
    | zero => exact hstop t hend
    | succ n ih =>
        by_cases hs : stops t
        · exact hstop t hs
        · have hi : inside t := hway 0 (Nat.succ_pos n)
          obtain ⟨s, hgoes, hround⟩ := hnext t hs hi
          obtain ⟨r, hkind, fuel, hrun⟩ := ih hend fun i hi => hway (i + 1) (Nat.succ_lt_succ hi)
          have hs : Loop.Ends round s r := ⟨fuel, (Loop.run_congr hround).trans hrun⟩
          exact ⟨r, hkind, hs.of_transGen hgoes⟩

/-- A loop that walks along links ends exactly when they lead to a stop. -/
theorem exists_ends_iff {round : σ → Option (σ ⊕ ρ)} {enter : τ → σ}
    (hstop : ∀ t, stops t → ∃ r, Loop.Ends round (enter t) r)
    (hout : ∀ t, ¬ stops t → ¬ inside t → ∀ r, ¬ Loop.Ends round (enter t) r)
    (hnext : ∀ t, ¬ stops t → inside t →
      ∃ s, Relation.TransGen (Loop.Goes round) (enter t) s ∧ round s = round (enter (next t))) :
    (∃ r, Loop.Ends round (enter t) r) ↔ Leads stops inside next t := by
  have hkind := exists_ends_of_kind_iff (t := t) (fun _ : ρ => True)
    (fun t hs => (hstop t hs).imp fun _ h => ⟨trivial, h⟩)
    (fun t hs hi r h => absurd h (hout t hs hi r)) hnext
  simpa only [true_and] using hkind

end Leads

end GlitchedOS
