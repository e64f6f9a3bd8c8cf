/-
Runs of a labelled transition system, with the two rules every development
over one uses: an invariant kept by each step holds at the end of a run, and a
relation kept by each step carries a run of the system to the run of a
functional reference.
-/
import Mathlib.Data.List.Basic

namespace GlitchedOS

universe u v w

variable {S : Type u} {A : Type v} {T : Type w}

/-- A finite run, labelled by the actions taken in order. -/
inductive Run (step : S → A → S → Prop) : S → List A → S → Prop
  | nil (state : S) : Run step state [] state
  | cons {start next finish : S} {action : A} {rest : List A}
      (head : step start action next) (tail : Run step next rest finish) :
      Run step start (action :: rest) finish

namespace Run

variable {step : S → A → S → Prop} {start finish : S} {actions : List A}

/-- One step lemma gives the run lemma. -/
theorem invariant (Inv : S → Prop)
    (hstep : ∀ state action next, step state action next → Inv state → Inv next)
    (hrun : Run step start actions finish) (hstart : Inv start) :
    Inv finish := by
  induction hrun with
  | nil state => exact hstart
  | cons head tail ih => exact ih (hstep _ _ _ head hstart)

/-- A simulation by a functional reference, step by step. -/
theorem simulation (Rel : S → T → Prop) (reference : T → A → T)
    (hstep : ∀ state action next abstract, step state action next →
      Rel state abstract → Rel next (reference abstract action))
    (hrun : Run step start actions finish) {abstract : T}
    (hstart : Rel start abstract) :
    Rel finish (actions.foldl reference abstract) := by
  induction hrun generalizing abstract with
  | nil state => exact hstart
  | cons head tail ih => exact ih (hstep _ _ _ _ head hstart)

theorem mono {step' : S → A → S → Prop}
    (hstep : ∀ state action next, step state action next →
      step' state action next)
    (hrun : Run step start actions finish) :
    Run step' start actions finish := by
  induction hrun with
  | nil state => exact .nil state
  | cons head tail ih => exact .cons (hstep _ _ _ head) ih

/-- Steps that are also steps of another system because of their label. -/
theorem mono_of_mem {step' : S → A → S → Prop}
    (hrun : Run step start actions finish)
    (hstep : ∀ state action next, action ∈ actions → step state action next →
      step' state action next) :
    Run step' start actions finish := by
  induction hrun with
  | nil state => exact .nil state
  | cons head tail ih =>
      refine .cons (hstep _ _ _ List.mem_cons_self head) (ih ?_)
      intro state action next hmem
      exact hstep state action next (List.mem_cons_of_mem _ hmem)

/-- Steps that are steps of another system under another label. -/
theorem map {B : Type w} {f : B → A} {labels : List B}
    (hrun : Run (fun state label next => step state (f label) next) start labels finish) :
    Run step start (labels.map f) finish := by
  induction hrun with
  | nil state => exact .nil state
  | cons head tail ih => exact .cons head ih

theorem append {middle : S} {more : List A}
    (hfirst : Run step start actions middle)
    (hsecond : Run step middle more finish) :
    Run step start (actions ++ more) finish := by
  induction hfirst with
  | nil state => exact hsecond
  | cons head tail ih => exact .cons head (ih hsecond)

theorem split {before after : List A} (hrun : Run step start (before ++ after) finish) :
    ∃ middle, Run step start before middle ∧ Run step middle after finish := by
  induction before generalizing start with
  | nil => exact ⟨start, .nil start, hrun⟩
  | cons action rest ih =>
      cases hrun with
      | cons head tail =>
          obtain ⟨middle, hfirst, hsecond⟩ := ih tail
          exact ⟨middle, .cons head hfirst, hsecond⟩

theorem single {action : A} (hstep : step start action finish) :
    Run step start [action] finish :=
  .cons hstep (.nil finish)

theorem of_single {action : A} (hrun : Run step start [action] finish) :
    step start action finish := by
  cases hrun with
  | cons head tail =>
      cases tail
      exact head

end Run

/-- A condition that holds at every step of a run of a deterministic system. -/
def Along (step : S → A → S) (P : S → A → Prop) : S → List A → Prop
  | _, [] => True
  | state, action :: rest => P state action ∧ Along step P (step state action) rest

/-- If a step keeps `Good` exactly when it meets `C`, then the states of a run are
all good exactly when its steps all meet `C`. -/
theorem Along.good_iff {step : S → A → S} {enabled C : S → A → Prop}
    (Inv Good : S → Prop)
    (hstep : ∀ state action, Inv state → Good state → enabled state action →
      Inv (step state action) ∧ (Good (step state action) ↔ C state action)) :
    ∀ {actions : List A} {state : S}, Inv state → Good state →
      Along step enabled state actions →
      (Along step (fun state action => Good (step state action)) state actions ↔
        Along step C state actions)
  | [], _, _, _, _ => Iff.rfl
  | action :: _, state, hinv, hgood, hen => by
      obtain ⟨hinv', hiff⟩ := hstep state action hinv hgood hen.1
      constructor
      · rintro ⟨hgood', hrest⟩
        exact ⟨hiff.mp hgood', (good_iff Inv Good hstep hinv' hgood' hen.2).mp hrest⟩
      · rintro ⟨hc, hrest⟩
        have hgood' := hiff.mpr hc
        exact ⟨hgood', (good_iff Inv Good hstep hinv' hgood' hen.2).mpr hrest⟩

/-- If a step has `P` exactly when it meets `C`, and `P` keeps the invariant this
rests on, then the steps of a run all have `P` exactly when they all meet `C`. -/
theorem Along.iff_of_step {step : S → A → S} {enabled P C : S → A → Prop}
    (Inv : S → Prop)
    (hstep : ∀ state action, Inv state → enabled state action →
      (P state action ↔ C state action) ∧
        (P state action → Inv (step state action))) :
    ∀ {actions : List A} {state : S}, Inv state → Along step enabled state actions →
      (Along step P state actions ↔ Along step C state actions)
  | [], _, _, _ => Iff.rfl
  | action :: _, state, hinv, hen => by
      obtain ⟨hiff, hkeep⟩ := hstep state action hinv hen.1
      constructor
      · rintro ⟨hp, hrest⟩
        exact ⟨hiff.mp hp, (iff_of_step Inv hstep (hkeep hp) hen.2).mp hrest⟩
      · rintro ⟨hc, hrest⟩
        have hp := hiff.mpr hc
        exact ⟨hp, (iff_of_step Inv hstep (hkeep hp) hen.2).mpr hrest⟩

/-- An invariant of the steps that meet `C` holds along a run whose steps do. -/
theorem Along.invariant {step : S → A → S} {C : S → A → Prop} (Inv : S → Prop)
    (hstep : ∀ state action, Inv state → C state action → Inv (step state action)) :
    ∀ {actions : List A} {state : S}, Inv state → Along step C state actions →
      Along step (fun state action => Inv (step state action)) state actions
  | [], _, _, _ => trivial
  | action :: _, state, hinv, hc =>
      ⟨hstep state action hinv hc.1,
        invariant Inv hstep (hstep state action hinv hc.1) hc.2⟩

/-- Steps that meet `C` have `P`, too, if an invariant that they keep gives it. -/
theorem Along.of_invariant {step : S → A → S} {C P : S → A → Prop} (Inv : S → Prop)
    (hstep : ∀ state action, Inv state → C state action →
      P state action ∧ Inv (step state action)) :
    ∀ {actions : List A} {state : S}, Inv state → Along step C state actions →
      Along step P state actions
  | [], _, _, _ => trivial
  | action :: _, state, hinv, hc => by
      obtain ⟨hp, hnext⟩ := hstep state action hinv hc.1
      exact ⟨hp, of_invariant Inv hstep hnext hc.2⟩

/-- A condition on the actions alone. -/
theorem Along.of_forall {step : S → A → S} {C : A → Prop} :
    ∀ {actions : List A} {state : S}, (∀ action ∈ actions, C action) →
      Along step (fun _ action => C action) state actions
  | [], _, _ => trivial
  | _ :: _, _, h =>
      ⟨h _ List.mem_cons_self,
        of_forall fun action hmem => h action (List.mem_cons_of_mem _ hmem)⟩

theorem Along.append {step : S → A → S} {C : S → A → Prop} {more : List A} :
    ∀ {actions : List A} {state : S}, Along step C state (actions ++ more) ↔
      Along step C state actions ∧ Along step C (actions.foldl step state) more
  | [], _ => ⟨fun h => ⟨trivial, h⟩, fun h => h.2⟩
  | _ :: _, _ => (and_congr_right fun _ => Along.append).trans and_assoc.symm

theorem Along.and {step : S → A → S} {C D : S → A → Prop} :
    ∀ {actions : List A} {state : S}, Along step C state actions →
      Along step D state actions →
      Along step (fun state action => C state action ∧ D state action) state actions
  | [], _, _, _ => trivial
  | _ :: _, _, hc, hd => ⟨⟨hc.1, hd.1⟩, hc.2.and hd.2⟩

theorem Along.mono {step : S → A → S} {C D : S → A → Prop}
    (h : ∀ state action, C state action → D state action) :
    ∀ {actions : List A} {state : S}, Along step C state actions →
      Along step D state actions
  | [], _, _ => trivial
  | _ :: _, _, hc => ⟨h _ _ hc.1, mono h hc.2⟩

end GlitchedOS
