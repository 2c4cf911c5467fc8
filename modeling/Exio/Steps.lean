import Mathlib.Logic.Basic
/-!
# Steps — programs as step functions, and what holds along their runs

A concurrent program is a partial function `step : σ → α → Option σ`: in state `s` the action `a` is possible when it has
a next state.  `Reaches step G s t` says that `t` is reached from `s` by actions that all meet `G` where they are taken;
`Always` puts no condition on them.  An invariant is shown once per action (`Reaches.invariant`), and so is that the program
is another one seen through a function of the state (`Reaches.simulate`); that a goal can always be reached is shown by a
measure (`descend`).  A concrete run is a computation (`run`, or `runIf` where the actions have to meet a condition) and
reaches its last state.

`Throughout` and `EachStep` say that a run keeps to a property in every state, and to a condition in every step; where one
step from a good state leads to a good state exactly under the condition, so it is for whole runs (`throughout_iff`).
-/
namespace Steps

variable {σ α : Type}

inductive Reaches (step : σ → α → Option σ) (G : σ → α → Prop) (s : σ) : σ → Prop
  | refl : Reaches step G s s
  | step {t u : σ} {a : α} : Reaches step G s t → G t a → step t a = some u → Reaches step G s u

def Always : σ → α → Prop := fun _ _ => True

/-- **What holds at the start and is kept by every action holds in every state reached.** -/
theorem Reaches.invariant {step : σ → α → Option σ} {G : σ → α → Prop} {s t : σ} {P : σ → Prop}
    (h : Reaches step G s t) (h0 : P s) (hstep : ∀ {t u : σ} {a : α}, P t → G t a → step t a = some u → P u) : P t := by
  induction h with
  | refl => exact h0
  | step _ hG hs ih => exact hstep ih hG hs

theorem Reaches.one {step : σ → α → Option σ} {s t : σ} {a : α} (h : step s a = some t) : Reaches step Always s t :=
  .step .refl trivial h

def run (step : σ → α → Option σ) : σ → List α → Option σ
  | s, []      => some s
  | s, a :: as => (step s a).bind fun t => run step t as

theorem Reaches.trans {step : σ → α → Option σ} {G : σ → α → Prop} {s t u : σ} (h : Reaches step G s t)
    (h' : Reaches step G t u) : Reaches step G s u := by
  induction h' with
  | refl => exact h
  | step _ hG hs ih => exact .step ih hG hs

theorem Reaches.weaken {step : σ → α → Option σ} {G G' : σ → α → Prop} {s t : σ} (h : Reaches step G s t)
    (hG : ∀ s a, G s a → G' s a) : Reaches step G' s t := by
  induction h with
  | refl => exact .refl
  | step _ hg hs ih => exact .step ih (hG _ _ hg) hs

theorem reaches_of_run {step : σ → α → Option σ} : ∀ (as : List α) {s t : σ}, run step s as = some t →
    Reaches step Always s t
  | [], s, t, h => by
    cases h
    exact .refl
  | a :: as, s, t, h => by
    rw [run] at h
    cases hs : step s a with
    | none => rw [hs] at h; cases h
    | some u =>
      rw [hs] at h
      exact Reaches.trans (.step .refl trivial hs) (reaches_of_run as h)

/-- **Descent**: where from every state away from the goal a run brings a measure down, a run leads to the goal. -/
theorem descend {step : σ → α → Option σ} {G : σ → α → Prop} {P Q : σ → Prop} (μ : σ → Nat)
    (hrun : ∀ {s}, P s → ¬ Q s → ∃ t, Reaches step G s t ∧ P t ∧ μ t < μ s) {s : σ} (hs : P s) :
    ∃ t, Reaches step G s t ∧ P t ∧ Q t := by
  by_cases hQ : Q s
  · exact ⟨s, .refl, hs, hQ⟩
  · obtain ⟨t, ht, hP, hlt⟩ := hrun hs hQ
    obtain ⟨u, hu, hgoal⟩ := descend μ hrun hP
    exact ⟨u, ht.trans hu, hgoal⟩
termination_by μ s

/-- **Simulation**: where every step is under `f` a step of another program, or no step there, every run is a run there. -/
theorem Reaches.simulate {τ β : Type} {step : σ → α → Option σ} {step' : τ → β → Option τ} {G : σ → α → Prop}
    {G' : τ → β → Prop} {I : σ → Prop} {f : σ → τ} {s t : σ} (h : Reaches step G s t) (hs : I s)
    (hI : ∀ {s t a}, I s → G s a → step s a = some t → I t)
    (hf : ∀ {s t a}, I s → G s a → step s a = some t → f t = f s ∨ ∃ b, G' (f s) b ∧ step' (f s) b = some (f t)) :
    Reaches step' G' (f s) (f t) := by
  have hboth : I t ∧ Reaches step' G' (f s) (f t) := by
    induction h with
    | refl => exact ⟨hs, .refl⟩
    | step _ hG hstep ih =>
      refine ⟨hI ih.1 hG hstep, ?_⟩
      rcases hf ih.1 hG hstep with heq | ⟨b, hb, hstep'⟩
      · rw [heq]
        exact ih.2
      · exact .step ih.2 hb hstep'
  exact hboth.2

/-- A run that stops at an action that does not meet `G`. -/
def runIf (step : σ → α → Option σ) (G : σ → α → Prop) [∀ s a, Decidable (G s a)] : σ → List α → Option σ
  | s, []      => some s
  | s, a :: as => if G s a then (step s a).bind fun t => runIf step G t as else none

theorem reaches_of_runIf {step : σ → α → Option σ} {G : σ → α → Prop} [∀ s a, Decidable (G s a)] :
    ∀ (as : List α) {s t : σ}, runIf step G s as = some t → Reaches step G s t
  | [], s, t, h => by
    cases h
    exact .refl
  | a :: as, s, t, h => by
    unfold runIf at h
    split at h
    · rename_i hG
      cases hs : step s a with
      | none => rw [hs] at h; cases h
      | some u =>
        rw [hs] at h
        exact Reaches.trans (.step .refl hG hs) (reaches_of_runIf as h)
    · cases h

/-- The property holds in every state of the run. -/
def Throughout (step : σ → α → Option σ) (P : σ → Prop) : σ → List α → Prop
  | s, []      => P s
  | s, a :: as => P s ∧ ∀ t, step s a = some t → Throughout step P t as

/-- Every step of the run meets the condition where it is taken. -/
def EachStep (step : σ → α → Option σ) (C : σ → α → Prop) : σ → List α → Prop
  | _, []      => True
  | s, a :: as => ∀ t, step s a = some t → C s a ∧ EachStep step C t as

theorem eachStep_of_runIf {step : σ → α → Option σ} {C : σ → α → Prop} [∀ s a, Decidable (C s a)] :
    ∀ (as : List α) {s t : σ}, runIf step C s as = some t → EachStep step C s as
  | [], _, _, _ => trivial
  | a :: as, s, t, h => by
    intro u hu
    unfold runIf at h
    split at h
    · rename_i hC
      rw [hu] at h
      exact ⟨hC, eachStep_of_runIf as h⟩
    · cases h

/-- **From one step to whole runs**, over actions `A` and along an invariant `I`. -/
theorem throughout_iff {step : σ → α → Option σ} {I P : σ → Prop} {C : σ → α → Prop} {A : α → Prop}
    (hI : ∀ {s t a}, I s → A a → step s a = some t → I t)
    (hP : ∀ {s t a}, I s → A a → P s → step s a = some t → (P t ↔ C s a)) :
    ∀ (as : List α) {s : σ}, (∀ a ∈ as, A a) → I s → P s → (Throughout step P s as ↔ EachStep step C s as)
  | [], _, _, _, hs => ⟨fun _ => trivial, fun _ => hs⟩
  | a :: as, s, hA, hi, hs => by
    obtain ⟨ha, has⟩ := List.forall_mem_cons.1 hA
    constructor
    · rintro ⟨-, hrest⟩ t ht
      have hthrough := hrest t ht
      have hPt : P t := by
        cases as with
        | nil => exact hthrough
        | cons b bs => exact hthrough.1
      exact ⟨(hP hi ha hs ht).1 hPt, (throughout_iff hI hP as has (hI hi ha ht) hPt).1 hthrough⟩
    · refine fun hrest => ⟨hs, fun t ht => ?_⟩
      obtain ⟨hC, heach⟩ := hrest t ht
      exact (throughout_iff hI hP as has (hI hi ha ht) ((hP hi ha hs ht).2 hC)).2 heach

end Steps
