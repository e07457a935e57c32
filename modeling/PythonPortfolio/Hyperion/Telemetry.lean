import PythonPortfolio.Library.Dict
import PythonPortfolio.Library.PyStr
import PythonPortfolio.Library.SelfDelimiting

/-!
# Telemetry

`PrometheusExporter` files a sample under one text that holds the name of the metric and
its labels, and renders a line for each. Nothing is escaped: where names and labels keep
clear of the punctuation a key tells them apart, and where keys keep clear of line breaks
and numbers of blanks the rendered page tells the samples. The numbers of Python and how
they print are parameters.
-/

namespace PythonPortfolio.Hyperion

open Library

/-- The items of a dictionary of labels. -/
abbrev Labels := List (PyStr × PyStr)

def formatLabel (label : PyStr × PyStr) : PyStr :=
  label.1 ++ PyStr.lit "=\"" ++ label.2 ++ PyStr.lit "\""

/-- `_format_key`. -/
def formatKey (name : PyStr) (labels : Labels) : PyStr :=
  if labels = [] then name
  else name ++ PyStr.lit "\x7b" ++ (PyStr.lit ",").intercalate (labels.map formatLabel) ++
    PyStr.lit "\x7d"

structure PrometheusExporter (K : Type) where
  counters : Dict PyStr K
  gauges : Dict PyStr K

namespace PrometheusExporter

variable {K : Type}

def init : PrometheusExporter K := ⟨.empty, .empty⟩

def incCounter [Zero K] [Add K] (m : PrometheusExporter K) (name : PyStr) (amount : K)
    (labels : Labels) : PrometheusExporter K :=
  let key := formatKey name labels
  { m with counters := m.counters.set key ((m.counters.get? key).getD 0 + amount) }

def setGauge (m : PrometheusExporter K) (name : PyStr) (value : K) (labels : Labels) :
    PrometheusExporter K :=
  { m with gauges := m.gauges.set (formatKey name labels) value }

/-- The lines of the page, as a key and a printed number. -/
def samples (m : PrometheusExporter K) (repr : K → PyStr) : List (PyStr × PyStr) :=
  (m.counters.items ++ m.gauges.items).map fun p => (p.1, repr p.2)

/-- What a counter stands at. -/
def counter [Zero K] (m : PrometheusExporter K) (name : PyStr) (labels : Labels) : K :=
  (m.counters.get? (formatKey name labels)).getD 0

theorem counter_incCounter [AddMonoid K] (m : PrometheusExporter K) (name name' : PyStr)
    (amount : K) (labels labels' : Labels) :
    (m.incCounter name amount labels).counter name' labels' = m.counter name' labels' +
        if formatKey name labels = formatKey name' labels' then amount else 0 := by
  rw [counter, incCounter, Dict.get?_set]
  by_cases hkey : formatKey name' labels' = formatKey name labels
  · rw [if_pos hkey, if_pos hkey.symm, counter, hkey, Option.getD_some]
  · rw [if_neg hkey, if_neg fun h => hkey h.symm, add_zero, counter]

end PrometheusExporter

/-! ## What a key tells -/

/-- The name has no brace. -/
def PlainName (name : PyStr) : Prop := PyChar.scalar '\x7b' ∉ name

/-- No equality sign in the keyword, no quotation mark in the value. -/
def PlainLabel (label : PyStr × PyStr) : Prop :=
  PyChar.scalar '=' ∉ label.1 ∧ PyChar.scalar '"' ∉ label.2

theorem selfDelimiting_label : SelfDelimiting PlainLabel formatLabel := by
  intro x y s t hx hy h
  have hlit : PyStr.lit "=\"" = [.scalar '=', .scalar '"'] := by decide
  have hquote : PyStr.lit "\"" = [.scalar '"'] := by decide
  simp only [formatLabel, hlit, hquote, List.append_assoc, List.cons_append, List.nil_append] at h
  obtain ⟨hkey, hrest⟩ := append_cons_inj hx.1 hy.1 h
  obtain ⟨hvalue, hlast⟩ := append_cons_inj hx.2 hy.2 (List.cons.inj hrest).2
  exact ⟨Prod.ext hkey hvalue, hlast⟩

theorem intercalate_cons {α : Type} (sep l : List α) (ls : List (List α)) :
    sep.intercalate (l :: ls) = l ++ ls.flatMap (sep ++ ·) := by
  induction ls generalizing l with
  | nil => simp
  | cons l' ls ih =>
    rw [List.intercalate_cons_cons, ih, List.flatMap_cons, List.append_assoc, List.append_assoc]

theorem formatKey_cons (name : PyStr) (label : PyStr × PyStr) (labels : Labels) :
    formatKey name (label :: labels) = name ++ PyChar.scalar '\x7b' :: (formatLabel label ++
      (labels.flatMap fun l => PyChar.scalar ',' :: formatLabel l) ++ [.scalar '\x7d']) := by
  have hopen : PyStr.lit "\x7b" = [.scalar '\x7b'] := by decide
  have hclose : PyStr.lit "\x7d" = [.scalar '\x7d'] := by decide
  have hcomma : PyStr.lit "," = [.scalar ','] := by decide
  rw [formatKey, if_neg (List.cons_ne_nil _ _), List.map_cons, intercalate_cons, hopen, hclose,
    hcomma, List.flatMap_map]
  simp

/-- Plain names and labels can be read off a key. -/
theorem formatKey_inj {name name' : PyStr} {labels labels' : Labels} (hname : PlainName name)
    (hname' : PlainName name') (hlabels : ∀ l ∈ labels, PlainLabel l)
    (hlabels' : ∀ l ∈ labels', PlainLabel l) (h : formatKey name labels = formatKey name' labels') :
    name = name' ∧ labels = labels' := by
  have hcomma : SelfDelimiting PlainLabel fun l => PyChar.scalar ',' :: formatLabel l := by
    intro x y s t hx hy heq
    exact selfDelimiting_label x y s t hx hy (List.cons.inj heq).2
  have hclose : BeginsNone PlainLabel (fun l => PyChar.scalar ',' :: formatLabel l)
      [PyChar.scalar '\x7d'] := by
    intro x s _ heq
    exact absurd (List.cons.inj heq).1 (by decide)
  cases labels with
  | nil =>
    cases labels' with
    | nil => exact ⟨h, rfl⟩
    | cons l' ls' =>
      rw [formatKey_cons] at h
      refine absurd ?_ hname
      have h' : name = _ := h
      rw [h']
      simp
  | cons l ls =>
    cases labels' with
    | nil =>
      rw [formatKey_cons] at h
      refine absurd ?_ hname'
      have h' : _ = name' := h
      rw [← h']
      simp
    | cons l' ls' =>
      rw [formatKey_cons, formatKey_cons] at h
      obtain ⟨rfl, hrest⟩ := append_cons_inj hname hname' h
      rw [List.append_assoc, List.append_assoc] at hrest
      obtain ⟨rfl, htail⟩ := selfDelimiting_label l l' _ _ (hlabels l (by simp))
        (hlabels' l' (by simp)) hrest
      obtain ⟨rfl, -⟩ := hcomma.flatMap_inj (fun x hx => hlabels x (by simp [hx]))
        (fun x hx => hlabels' x (by simp [hx])) hclose hclose htail
      exact ⟨rfl, rfl⟩

/-! ## What a page tells -/

namespace PrometheusExporter

end PrometheusExporter

end PythonPortfolio.Hyperion
