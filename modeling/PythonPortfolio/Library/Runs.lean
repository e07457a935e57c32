import Mathlib.Order.Basic
import Mathlib.Data.List.Basic

/-!
# Executions of a labelled machine

A machine is a set of start states and a partial step function: `none` means
that the event is not possible in that state. A run records every transition it
made, so that properties of histories (what was sent, who was elected, which
bytes were written) are properties of the trace and need no ghost fields in the
states. Safety results are obtained from two rules: an invariant of the pair of
trace and state, and monotonicity of a state component.
-/

namespace PythonPortfolio.Library

structure Machine (σ ε : Type) where
  start : σ → Prop
  step : σ → ε → Option σ

structure Transition (σ ε : Type) where
  pre : σ
  event : ε
  post : σ

theorem mem_concat {α : Type} {l : List α} {a b : α} : b ∈ l ++ [a] ↔ b ∈ l ∨ b = a := by
  rw [List.mem_append, List.mem_singleton]

/-- What one more transition adds to a history. -/
theorem filterMap_concat {α β : Type} (f : α → Option β) (l : List α) (a : α) :
    (l ++ [a]).filterMap f = l.filterMap f ++ (f a).toList := by
  rw [List.filterMap_append]
  cases hf : f a with
  | none => rw [List.filterMap_cons_none hf]; rfl
  | some b => rw [List.filterMap_cons_some hf]; rfl

/-- `P` holds of every member of a history with what came before it. -/
def Throughout {α : Type} (P : List α → α → Prop) (l : List α) : Prop :=
  ∀ before a after, l = before ++ a :: after → P before a

theorem throughout_nil {α : Type} {P : List α → α → Prop} : Throughout P [] :=
  fun _ _ _ h => by simp at h

theorem throughout_concat {α : Type} {P : List α → α → Prop} {l : List α} {a : α} :
    Throughout P (l ++ [a]) ↔ Throughout P l ∧ P l a := by
  constructor
  · intro h
    refine ⟨fun before b after heq => h before b (after ++ [a]) ?_, h l a [] rfl⟩
    rw [heq, List.append_assoc, List.cons_append]
  · rintro ⟨hl, ha⟩ before b after heq
    rcases List.eq_nil_or_concat after with rfl | ⟨after', last, rfl⟩
    · obtain ⟨rfl, hlast⟩ := List.append_inj' heq rfl
      obtain rfl := (List.cons.inj hlast).1
      exact ha
    · have heq' : l ++ [a] = (before ++ b :: after') ++ [last] := by simpa using heq
      exact hl before b after' (List.append_inj' heq' rfl).1

namespace Machine

variable {σ ε : Type} (M : Machine σ ε)

/-- `M.Run s₀ trace s`: from the start state `s₀` the machine makes exactly the
transitions of `trace`, oldest first, and stands in `s`. -/
inductive Run (s₀ : σ) : List (Transition σ ε) → σ → Prop
  | init (h : M.start s₀) : Run s₀ [] s₀
  | next {trace : List (Transition σ ε)} {s s' : σ} {e : ε}
      (h : Run s₀ trace s) (hs : M.step s e = some s') :
      Run s₀ (trace ++ [⟨s, e, s'⟩]) s'

/-- Perform a list of events, collecting the transitions. -/
def exec (s : σ) : List ε → Option (List (Transition σ ε) × σ)
  | [] => some ([], s)
  | e :: es => do
      let s' ← M.step s e
      let (trace, last) ← exec s' es
      pure (⟨s, e, s'⟩ :: trace, last)

variable {M}

theorem Run.started {s₀ s : σ} {trace : List (Transition σ ε)} (h : M.Run s₀ trace s) :
    M.start s₀ := by
  induction h with
  | init h => exact h
  | next _ _ ih => exact ih

/-- The invariant rule, for properties of the whole history. -/
theorem Run.invariant {P : List (Transition σ ε) → σ → Prop} {s₀ s : σ}
    {trace : List (Transition σ ε)} (h : M.Run s₀ trace s)
    (hstart : ∀ s, M.start s → P [] s)
    (hstep : ∀ trace s e s', P trace s → M.step s e = some s' →
      P (trace ++ [⟨s, e, s'⟩]) s') : P trace s := by
  induction h with
  | init h => exact hstart _ h
  | next _ hs ih => exact hstep _ _ _ _ ih hs

/-- The invariant rule, for properties of states. -/
theorem Run.state_invariant {P : σ → Prop} {s₀ s : σ} {trace : List (Transition σ ε)}
    (h : M.Run s₀ trace s) (hstart : ∀ s, M.start s → P s)
    (hstep : ∀ s e s', P s → M.step s e = some s' → P s') : P s :=
  h.invariant (P := fun _ s => P s) hstart fun _ _ _ _ hp hs => hstep _ _ _ hp hs

/-- When a step keeps a property exactly under a condition, the property holds all along
a run exactly if every step meets the condition. -/
theorem Run.throughout_iff {P : List (Transition σ ε) → σ → Prop}
    {C : List (Transition σ ε) → Transition σ ε → Prop} {s₀ s : σ} {trace : List (Transition σ ε)}
    (h : M.Run s₀ trace s) (hstart : ∀ s, M.start s → P [] s)
    (hstep : ∀ trace s e s', M.Run s₀ trace s → P trace s → M.step s e = some s' →
      (P (trace ++ [⟨s, e, s'⟩]) s' ↔ C trace ⟨s, e, s'⟩)) :
    Throughout (fun before t => P (before ++ [t]) t.post) trace ↔ Throughout C trace := by
  have hboth : (Throughout (fun before t => P (before ++ [t]) t.post) trace ↔
      Throughout C trace) ∧
      (Throughout (fun before t => P (before ++ [t]) t.post) trace → P trace s) := by
    induction h with
    | init h => exact ⟨⟨fun _ => throughout_nil, fun _ => throughout_nil⟩, fun _ => hstart _ h⟩
    | next hrun hs ih =>
      obtain ⟨hiff, hlast⟩ := ih
      refine ⟨?_, fun hall => (throughout_concat.mp hall).2⟩
      rw [throughout_concat, throughout_concat, ← hiff]
      exact and_congr_right fun hall => hstep _ _ _ _ hrun (hlast hall) hs
  exact hboth.1

/-- A transition inside a trace splits the run at its two states. -/
theorem Run.split {s₀ s : σ} {before after : List (Transition σ ε)} {t : Transition σ ε}
    (h : M.Run s₀ (before ++ t :: after) s) :
    M.Run s₀ before t.pre ∧ M.step t.pre t.event = some t.post := by
  generalize htr : before ++ t :: after = trace at h
  induction h generalizing after with
  | init => simp at htr
  | @next trace s s' e hrun hs ih =>
    rcases List.eq_nil_or_concat after with rfl | ⟨after', last, rfl⟩
    · obtain ⟨rfl, hlast⟩ := List.append_inj' htr rfl
      obtain rfl := List.cons.inj hlast |>.1
      exact ⟨hrun, hs⟩
    · have htr' : (before ++ t :: after') ++ [last] = trace ++ [⟨s, e, s'⟩] := by
        simpa using htr
      exact ih (List.append_inj' htr' rfl).1

/-- A component that no step of the run decreases has, at the end of the run,
passed every value it had after an earlier transition. -/
theorem Run.le_of_mem {α : Type} [Preorder α] {f : σ → α} {s₀ s : σ}
    {trace : List (Transition σ ε)} (h : M.Run s₀ trace s)
    (hmono : ∀ trace s e s', M.Run s₀ trace s → M.step s e = some s' → f s ≤ f s')
    {t : Transition σ ε} (ht : t ∈ trace) : f t.post ≤ f s := by
  induction h with
  | init => simp at ht
  | next hrun hs ih =>
    rcases List.mem_append.mp ht with hold | hnew
    · exact (ih hold).trans (hmono _ _ _ _ hrun hs)
    · rw [List.mem_singleton] at hnew
      subst hnew
      exact le_refl _

/-- Such a component grows along the trace. -/
theorem Run.pairwise_le {α : Type} [Preorder α] {f : σ → α} {s₀ s : σ}
    {trace : List (Transition σ ε)} (h : M.Run s₀ trace s)
    (hmono : ∀ trace s e s', M.Run s₀ trace s → M.step s e = some s' → f s ≤ f s') :
    trace.Pairwise fun t u => f t.post ≤ f u.post := by
  induction h with
  | init => exact List.Pairwise.nil
  | next hrun hs ih =>
    refine List.pairwise_append.mpr ⟨ih, List.pairwise_singleton _ _, ?_⟩
    intro t ht u hu
    rw [List.mem_singleton] at hu
    subst hu
    exact (hrun.le_of_mem hmono ht).trans (hmono _ _ _ _ hrun hs)

/-- Any two moments of one run are comparable in such a component. -/
theorem Run.comparable {α : Type} [Preorder α] {f : σ → α} {s₀ s : σ}
    {trace : List (Transition σ ε)} (h : M.Run s₀ trace s)
    (hmono : ∀ trace s e s', M.Run s₀ trace s → M.step s e = some s' → f s ≤ f s')
    {t u : Transition σ ε} (ht : t ∈ trace) (hu : u ∈ trace) :
    f t.post ≤ f u.post ∨ f u.post ≤ f t.post := by
  obtain ⟨before, after, rfl⟩ := List.append_of_mem ht
  have hpair := h.pairwise_le hmono
  obtain ⟨_, htail, hcross⟩ := List.pairwise_append.mp hpair
  rcases List.mem_append.mp hu with hu | hu
  · exact Or.inr (hcross u hu t (by simp))
  · rcases List.mem_cons.mp hu with rfl | hu
    · exact Or.inl (le_refl _)
    · exact Or.inl (List.rel_of_pairwise_cons htail hu)

/-- Identifiers drawn from a counter: no step lets the counter fall, and a step
that issues an identifier issues the counter's new, larger value. The identifiers
of a run strictly increase. -/
theorem Run.issued_increasing {α : Type} [Preorder α] {counter : σ → α}
    {issued : Transition σ ε → Option α} {s₀ s : σ} {trace : List (Transition σ ε)}
    (h : M.Run s₀ trace s)
    (hstep : ∀ trace s e s', M.Run s₀ trace s → M.step s e = some s' →
      (issued ⟨s, e, s'⟩ = none ∧ counter s ≤ counter s') ∨
      (issued ⟨s, e, s'⟩ = some (counter s') ∧ counter s < counter s')) :
    (trace.filterMap issued).Pairwise (· < ·) ∧ ∀ i ∈ trace.filterMap issued, i ≤ counter s := by
  induction h with
  | init => exact ⟨List.Pairwise.nil, by simp⟩
  | next hrun hs ih =>
    obtain ⟨hpair, hle⟩ := ih
    rw [List.filterMap_append]
    rcases hstep _ _ _ _ hrun hs with ⟨hnone, hmono⟩ | ⟨hsome, hlt⟩
    · rw [List.filterMap_cons_none hnone, List.filterMap_nil, List.append_nil]
      exact ⟨hpair, fun i hi => (hle i hi).trans hmono⟩
    · rw [List.filterMap_cons_some hsome, List.filterMap_nil]
      refine ⟨List.pairwise_append.mpr ⟨hpair, List.pairwise_singleton _ _, ?_⟩, ?_⟩
      · intro i hi j hj
        rw [List.mem_singleton] at hj
        subst hj
        exact (hle i hi).trans_lt hlt
      · intro i hi
        rcases List.mem_append.mp hi with hi | hi
        · exact (hle i hi).trans hlt.le
        · exact (List.mem_singleton.mp hi).le

theorem exec_append_run {s₀ s last : σ} {before trace : List (Transition σ ε)} {es : List ε}
    (h : M.Run s₀ before s) (he : M.exec s es = some (trace, last)) :
    M.Run s₀ (before ++ trace) last := by
  induction es generalizing s before trace with
  | nil =>
    obtain ⟨rfl, rfl⟩ : [] = trace ∧ s = last := by simpa [exec] using he
    simpa using h
  | cons e es ih =>
    simp only [exec, Option.bind_eq_bind, Option.bind_eq_some_iff, Option.pure_def,
      Option.some.injEq, Prod.mk.injEq, Prod.exists] at he
    obtain ⟨s', hs, rest, _, hrest, rfl, rfl⟩ := he
    have hrun := ih (h.next hs) hrest
    rwa [List.append_assoc] at hrun

/-- Executing events from a start state is a run. -/
theorem exec_run {s₀ last : σ} {trace : List (Transition σ ε)} {es : List ε}
    (h : M.start s₀) (he : M.exec s₀ es = some (trace, last)) : M.Run s₀ trace last := by
  simpa using exec_append_run (.init h) he

end Machine

end PythonPortfolio.Library
