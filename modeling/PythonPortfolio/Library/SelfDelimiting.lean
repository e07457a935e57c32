import Mathlib.Data.List.Basic

/-!
# Self-delimiting encodings

An encoding is self-delimiting when an encoded value followed by anything shows
where it ends. Then a concatenation of encoded values can be cut in one way only,
provided that what follows the last of them does not itself begin like a value. A
header of fixed width that determines the length is enough.
-/

namespace PythonPortfolio.Library

variable {α β : Type}

/-- On the values of `P`, the encoding shows where it ends. -/
def SelfDelimiting (P : α → Prop) (encode : α → List β) : Prop :=
  ∀ x y s t, P x → P y → encode x ++ s = encode y ++ t → x = y ∧ s = t

/-- No encoded value begins the tail. -/
def BeginsNone (P : α → Prop) (encode : α → List β) (tail : List β) : Prop :=
  ∀ x s, P x → encode x ++ s ≠ tail

variable {P : α → Prop} {encode : α → List β}

/-- A terminator that neither part holds cuts both at the same place. -/
theorem append_cons_inj {c : β} {a b s t : List β} (ha : c ∉ a) (hb : c ∉ b)
    (h : a ++ c :: s = b ++ c :: t) : a = b ∧ s = t := by
  induction a generalizing b with
  | nil =>
    cases b with
    | nil => exact ⟨rfl, (List.cons.inj h).2⟩
    | cons d b => exact absurd ((List.cons.inj h).1 ▸ List.mem_cons_self) hb
  | cons d a ih =>
    cases b with
    | nil => exact absurd ((List.cons.inj h).1.symm ▸ List.mem_cons_self) ha
    | cons d' b =>
      obtain ⟨hd, hrest⟩ := List.cons.inj h
      obtain ⟨rfl, hst⟩ := ih (fun hc => ha (List.mem_cons_of_mem _ hc))
        (fun hc => hb (List.mem_cons_of_mem _ hc)) hrest
      exact ⟨by rw [hd], hst⟩

/-- Where the first `n` entries determine the length, an injective encoding is
self-delimiting. -/
theorem selfDelimiting_of_header (n : Nat) (hlong : ∀ x, P x → n ≤ (encode x).length)
    (hlength : ∀ x y, P x → P y → (encode x).take n = (encode y).take n →
      (encode x).length = (encode y).length)
    (hinj : ∀ x y, P x → P y → encode x = encode y → x = y) : SelfDelimiting P encode := by
  intro x y s t hx hy heq
  have htake : (encode x).take n = (encode y).take n := by
    have h := congrArg (List.take n) heq
    rwa [List.take_append_of_le_length (hlong x hx), List.take_append_of_le_length (hlong y hy)]
      at h
  obtain ⟨hencode, hrest⟩ := List.append_inj heq (hlength x y hx hy htake)
  exact ⟨hinj x y hx hy hencode, hrest⟩

namespace SelfDelimiting

/-- A concatenation determines its values and what follows them. -/
theorem flatMap_inj (h : SelfDelimiting P encode) {xs ys : List α} {s t : List β}
    (hxs : ∀ x ∈ xs, P x) (hys : ∀ y ∈ ys, P y) (hs : BeginsNone P encode s)
    (ht : BeginsNone P encode t) (heq : xs.flatMap encode ++ s = ys.flatMap encode ++ t) :
    xs = ys ∧ s = t := by
  induction xs generalizing ys with
  | nil =>
    cases ys with
    | nil => exact ⟨rfl, heq⟩
    | cons y ys =>
      rw [List.flatMap_cons, List.append_assoc] at heq
      exact absurd heq.symm (hs y _ (hys y List.mem_cons_self))
  | cons x xs ih =>
    have hx := hxs x List.mem_cons_self
    rw [List.flatMap_cons, List.append_assoc] at heq
    cases ys with
    | nil => exact absurd heq (ht x _ hx)
    | cons y ys =>
      rw [List.flatMap_cons, List.append_assoc] at heq
      obtain ⟨rfl, hrest⟩ := h x y _ _ hx (hys y List.mem_cons_self) heq
      obtain ⟨rfl, htail⟩ := ih (fun z hz => hxs z (List.mem_cons_of_mem x hz))
        (fun z hz => hys z (List.mem_cons_of_mem x hz)) hrest
      exact ⟨rfl, htail⟩

end SelfDelimiting

end PythonPortfolio.Library
