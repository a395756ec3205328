import Mathlib.Tactic.Common

/-!
# Runs of a transition system

A system is a partial step function: a state and an action give the next state, or
nothing where the action cannot be taken. The rules here carry a property of one step
over to whole runs, also where only the runs whose steps meet a condition are meant.
-/

namespace LibSpaces.Base

section Transition

variable {σ α : Type*} (step : σ → α → Option σ)

/-- The states reached from `start` by steps that are all allowed. -/
inductive Reached (allowed : σ → α → Prop) (start : σ) : σ → Prop
  | start : Reached allowed start start
  | next {s s' : σ} {a : α} (hs : Reached allowed start s) (ha : allowed s a)
      (h : step s a = some s') : Reached allowed start s'

/-- A property holds in the first state of a run and in each one after. -/
def Always (P : σ → Prop) : σ → List α → Prop
  | s, [] => P s
  | s, a :: as => P s ∧ ∀ s', step s a = some s' → Always P s' as

/-- A condition holds of each step that a run takes, in the state before it. -/
def EachStep (C : σ → α → Prop) : σ → List α → Prop
  | _, [] => True
  | s, a :: as => ∀ s', step s a = some s' → C s a ∧ EachStep C s' as

/-- The state that a series of actions leads to. -/
def run : σ → List α → Option σ
  | s, [] => some s
  | s, a :: as => (step s a).bind fun s' ↦ run s' as

variable {step}

/-- What the start satisfies and every allowed step preserves holds in every state reached. -/
theorem Reached.invariant {allowed : σ → α → Prop} {start s : σ} (hs : Reached step allowed start s)
    (Inv : σ → Prop) (hstart : Inv start)
    (hstep : ∀ s s' a, Inv s → allowed s a → step s a = some s' → Inv s') : Inv s := by
  induction hs with
  | start => exact hstart
  | next _ ha h ih => exact hstep _ _ _ ih ha h

/-- The state that a series of allowed actions leads to. -/
def runAllowed (step : σ → α → Option σ) (C : σ → α → Prop) [∀ s a, Decidable (C s a)] :
    σ → List α → Option σ
  | s, [] => some s
  | s, a :: as => if C s a then (step s a).bind fun s' ↦ runAllowed step C s' as else none

/-- A series of allowed steps ends in a state that is reached. -/
theorem reached_of_runAllowed {C : σ → α → Prop} [∀ s a, Decidable (C s a)] {start s t : σ}
    {as : List α} (hs : Reached step C start s) (hrun : runAllowed step C s as = some t) :
    Reached step C start t := by
  induction as generalizing s with
  | nil =>
    simp only [runAllowed, Option.some.injEq] at hrun
    exact hrun ▸ hs
  | cons a as ih =>
    rw [runAllowed] at hrun
    split at hrun
    · next ha =>
      obtain ⟨s', hstep, hrest⟩ := Option.bind_eq_some_iff.mp hrun
      exact ih (.next hs ha hstep) hrest
    · cases hrun

/-- What always holds holds in the last state. -/
theorem Always.last {P : σ → Prop} {s t : σ} {as : List α} (h : Always step P s as)
    (hrun : run step s as = some t) : P t := by
  induction as generalizing s with
  | nil =>
    simp only [run, Option.some.injEq] at hrun
    exact hrun ▸ h
  | cons a as ih =>
    simp only [run, Option.bind_eq_some_iff] at hrun
    obtain ⟨s', hstep, hrest⟩ := hrun
    exact ih (h.2 s' hstep) hrest

/-- A property that breaks exactly at the steps that violate a condition holds along a run
if and only if every step of the run meets the condition. -/
theorem always_iff_eachStep {P Inv : σ → Prop} {C : σ → α → Prop}
    (hP : ∀ s, Inv s → P s)
    (hkeep : ∀ s s' a, Inv s → step s a = some s' → C s a → Inv s')
    (hbreak : ∀ s s' a, Inv s → step s a = some s' → ¬C s a → ¬P s')
    (as : List α) (s : σ) (hs : Inv s) : Always step P s as ↔ EachStep step C s as := by
  induction as generalizing s with
  | nil => simp [Always, EachStep, hP s hs]
  | cons a as ih =>
    constructor
    · rintro ⟨-, hrest⟩ s' hstep
      have hC : C s a := by
        by_contra hn
        have hfirst : P s' := by
          cases as with
          | nil => exact hrest s' hstep
          | cons b bs => exact (hrest s' hstep).1
        exact hbreak s s' a hs hstep hn hfirst
      exact ⟨hC, (ih s' (hkeep s s' a hs hstep hC)).mp (hrest s' hstep)⟩
    · intro hall
      refine ⟨hP s hs, fun s' hstep ↦ ?_⟩
      obtain ⟨hC, hrest⟩ := hall s' hstep
      exact (ih s' (hkeep s s' a hs hstep hC)).mpr hrest

end Transition

section Related

variable {α β γ δ : Type*} {r : α → β → Prop} {q : γ → δ → Prop} {x : Option α} {y : Option β}

/-- Two computations that both fail or have related results stay so when each goes on. -/
theorem rel_bind_of_eq {f : α → Option γ} {g : β → Option δ} (h : Option.Rel r x y)
    (hf : ∀ a b, x = some a → r a b → Option.Rel q (f a) (g b)) :
    Option.Rel q (x.bind f) (y.bind g) := by
  cases h with
  | none => exact .none
  | some hab => exact hf _ _ rfl hab

/-- Related results, each followed by a step that keeps the relation. -/
theorem rel_bind {f : α → Option γ} {g : β → Option δ} (h : Option.Rel r x y)
    (hf : ∀ a b, r a b → Option.Rel q (f a) (g b)) : Option.Rel q (x.bind f) (y.bind g) :=
  rel_bind_of_eq h fun a b _ ↦ hf a b

/-- Two steps that are related at each value, after the same result. -/
theorem rel_bind_same {f : α → Option γ} {g : α → Option δ}
    (hf : ∀ a, Option.Rel q (f a) (g a)) : Option.Rel q (x.bind f) (x.bind g) := by
  cases x with
  | none => exact .none
  | some a => exact hf a

end Related

end LibSpaces.Base
