import Mathlib.Data.List.Basic

/-!
# Services and their refinement

A service answers requests one at a time, each in the state the one before left.
Clients see the answers only, so two services whose answers agree on every list of
requests are interchangeable. A simulation relates their states and is kept by every
request.
-/

namespace PythonPortfolio.Library

structure Service (σ ρ α : Type) where
  initial : σ
  serve : σ → ρ → α × σ

namespace Service

variable {σ τ ρ α : Type} {S : Service σ ρ α} {T : Service τ ρ α}

/-- The answers to the requests, and the state after the last of them. -/
def session (S : Service σ ρ α) (s : σ) : List ρ → List α × σ
  | [] => ([], s)
  | r :: rest =>
    let (answer, s) := S.serve s r
    let (answers, s) := session S s rest
    (answer :: answers, s)

theorem session_concat (s : σ) (requests : List ρ) (r : ρ) :
    S.session s (requests ++ [r]) =
      ((S.session s requests).1 ++ [(S.serve (S.session s requests).2 r).1],
        (S.serve (S.session s requests).2 r).2) := by
  induction requests generalizing s with
  | nil => rfl
  | cons r' rest ih =>
    have hrest := ih (S.serve s r').2
    rw [List.cons_append]
    unfold session
    dsimp only
    rw [hrest, List.cons_append]

def replies (S : Service σ ρ α) (requests : List ρ) : List α := (S.session S.initial requests).1

/-- Related states give the same answer, and are left related. -/
structure Simulates (S : Service σ ρ α) (T : Service τ ρ α) (R : σ → τ → Prop) : Prop where
  initial : R S.initial T.initial
  answer : ∀ s t r, R s t → (S.serve s r).1 = (T.serve t r).1
  next : ∀ s t r, R s t → R (S.serve s r).2 (T.serve t r).2

theorem Simulates.session {R : σ → τ → Prop} (h : S.Simulates T R) {s : σ} {t : τ} (hst : R s t)
    (requests : List ρ) :
    (S.session s requests).1 = (T.session t requests).1 ∧
      R (S.session s requests).2 (T.session t requests).2 := by
  induction requests generalizing s t with
  | nil => exact ⟨rfl, hst⟩
  | cons r rest ih =>
    obtain ⟨hanswers, hlast⟩ := ih (h.next s t r hst)
    exact ⟨congrArg₂ List.cons (h.answer s t r hst) hanswers, hlast⟩

/-- Clients cannot tell the two services apart. -/
theorem Simulates.replies {R : σ → τ → Prop} (h : S.Simulates T R) (requests : List ρ) :
    S.replies requests = T.replies requests :=
  (h.session h.initial requests).1

end Service

end PythonPortfolio.Library
