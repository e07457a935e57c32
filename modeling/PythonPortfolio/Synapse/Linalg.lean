import Mathlib.Algebra.BigOperators.Group.Finset.Basic
import Mathlib.Algebra.BigOperators.Intervals
import Mathlib.Algebra.Order.Ring.Defs

/-!
# Matrices as nested lists

`Linalg` works on lists of rows and raises `IndexError` where an index runs out. The
functions follow the source; on matrices of agreeing shapes each gives the table of
the entries one expects. Numbers are exact, from any ordered ring.
-/

namespace PythonPortfolio.Synapse

inductive PyError where
  | recursionError
  | indexError
  | typeError
  | valueError (message : String)
deriving DecidableEq

abbrev Matrix (K : Type) := List (List K)

variable {K : Type}

/-- `l[i]`. -/
def item {α : Type} (l : List α) (i : Nat) : Except PyError α :=
  match l[i]? with
  | some x => .ok x
  | none => .error .indexError

namespace Matrix

/-- `a[i][j]`. -/
def cell (a : Matrix K) (i j : Nat) : Except PyError K := do
  let row ← item a i
  item row j

/-- `[[f(i, j) for j in range(cols)] for i in range(rows)]`. -/
def table (rows cols : Nat) (f : Nat → Nat → Except PyError K) : Except PyError (Matrix K) :=
  (List.range rows).mapM fun i => (List.range cols).mapM fun j => f i j

end Matrix

namespace Linalg

open Synapse.Matrix

variable [CommRing K]

def matmul (a b : Matrix K) : Except PyError (Matrix K) := do
  let rowsA := a.length
  let colsA := (← item a 0).length
  let rowsB := b.length
  let colsB := (← item b 0).length
  if colsA ≠ rowsB then
    throw (.valueError ("Shape mismatch: (" ++ toString rowsA ++ "," ++ toString colsA ++ ") vs (" ++
      toString rowsB ++ "," ++ toString colsB ++ ")"))
  table rowsA colsB fun i j =>
    (List.range colsA).foldlM (fun acc k => do
      let x ← a.cell i k
      let y ← b.cell k j
      return acc + x * y) 0

def add (a b : Matrix K) : Except PyError (Matrix K) := do
  let rows := a.length
  let cols := (← item a 0).length
  table rows cols fun i j => do
    let x ← a.cell i j
    let y ← b.cell i j
    return x + y

def sub (a b : Matrix K) : Except PyError (Matrix K) := do
  let rows := a.length
  let cols := (← item a 0).length
  table rows cols fun i j => do
    let x ← a.cell i j
    let y ← b.cell i j
    return x - y

def mulScalar (a : Matrix K) (scalar : K) : Matrix K :=
  a.map fun row => row.map fun val => val * scalar

def transpose (a : Matrix K) : Except PyError (Matrix K) := do
  let rows := a.length
  let cols := (← item a 0).length
  table cols rows fun i j => a.cell j i

def relu [LinearOrder K] (a : Matrix K) : Matrix K := a.map fun row => row.map fun val => max 0 val

def dRelu [LinearOrder K] (a : Matrix K) : Matrix K :=
  a.map fun row => row.map fun val => if val > 0 then 1 else 0

def sumMatrix (a : Matrix K) : K := a.foldl (fun total row => total + row.sum) 0

def zeros (rows cols : Nat) : Matrix K := List.replicate rows (List.replicate cols 0)

end Linalg

/-! ## Shapes and entries -/

namespace Matrix

/-- `a` has `r` rows of length `c`. -/
def Shaped (a : Matrix K) (r c : Nat) : Prop := a.length = r ∧ ∀ row ∈ a, row.length = c

def entry [Zero K] (a : Matrix K) (i j : Nat) : K := (a.getD i []).getD j 0

def ofFn (r c : Nat) (f : Nat → Nat → K) : Matrix K :=
  (List.range r).map fun i => (List.range c).map fun j => f i j

theorem shaped_ofFn (r c : Nat) (f : Nat → Nat → K) : (ofFn r c f).Shaped r c := by
  refine ⟨by simp [ofFn], fun row hrow => ?_⟩
  obtain ⟨i, _, rfl⟩ := List.mem_map.mp hrow
  simp

@[simp] theorem entry_ofFn [Zero K] {r c i j : Nat} (f : Nat → Nat → K) (hi : i < r) (hj : j < c) :
    (ofFn r c f).entry i j = f i j := by
  simp [entry, ofFn, hi, hj]

theorem ofFn_congr {r c : Nat} {f g : Nat → Nat → K} (h : ∀ i < r, ∀ j < c, f i j = g i j) :
    ofFn r c f = ofFn r c g := by
  refine List.map_congr_left fun i hi => List.map_congr_left fun j hj => ?_
  exact h i (List.mem_range.mp hi) j (List.mem_range.mp hj)

/-- A matrix is the table of its entries. -/
theorem eq_ofFn [Zero K] {a : Matrix K} {r c : Nat} (h : a.Shaped r c) : a = ofFn r c a.entry := by
  obtain ⟨hlen, hrows⟩ := h
  refine List.ext_getElem (by simp [ofFn, hlen]) fun i hi _ => ?_
  have hrow := hrows a[i] (List.getElem_mem hi)
  refine List.ext_getElem (by simp [ofFn, hrow]) fun j hj _ => ?_
  simp [ofFn, entry, hi, hj]

/-- Matrices of one shape are equal when their entries are. -/
theorem ext_entry [Zero K] {a b : Matrix K} {r c : Nat} (ha : a.Shaped r c) (hb : b.Shaped r c)
    (h : ∀ i < r, ∀ j < c, a.entry i j = b.entry i j) : a = b := by
  rw [eq_ofFn ha, eq_ofFn hb]
  exact ofFn_congr h

theorem item_ok {α : Type} {l : List α} {i : Nat} (h : i < l.length) : item l i = .ok l[i] := by
  rw [item, List.getElem?_eq_getElem h]

theorem cell_ok [Zero K] {a : Matrix K} {r c i j : Nat} (h : a.Shaped r c) (hi : i < r)
    (hj : j < c) : a.cell i j = .ok (a.entry i j) := by
  obtain ⟨rfl, hrows⟩ := h
  have hj' : j < a[i].length := by
    rw [hrows a[i] (List.getElem_mem hi)]
    exact hj
  have hentry : a.entry i j = a[i][j] := by simp [entry, hi, hj']
  rw [hentry, cell, item_ok hi]
  exact item_ok hj'

/-- `len(a[0])` is the number of columns. -/
theorem first_row {a : Matrix K} {r c : Nat} (h : a.Shaped r c) (hr : 0 < r) :
    ∃ row, item a 0 = .ok row ∧ row.length = c := by
  obtain ⟨rfl, hrows⟩ := h
  exact ⟨a[0], item_ok hr, hrows _ (List.getElem_mem hr)⟩

theorem mapM_ok {α β : Type} {l : List α} {f : α → Except PyError β} {g : α → β}
    (h : ∀ x ∈ l, f x = .ok (g x)) : l.mapM f = .ok (l.map g) := by
  induction l with
  | nil => rfl
  | cons x l ih =>
    rw [List.mapM_cons, h x List.mem_cons_self, ih fun y hy => h y (List.mem_cons_of_mem _ hy)]
    rfl

theorem table_ok {r c : Nat} {f : Nat → Nat → Except PyError K} {g : Nat → Nat → K}
    (h : ∀ i < r, ∀ j < c, f i j = .ok (g i j)) : table r c f = .ok (ofFn r c g) :=
  mapM_ok fun i hi => mapM_ok fun j hj => h i (List.mem_range.mp hi) j (List.mem_range.mp hj)

theorem shaped_map {a : Matrix K} {r c : Nat} (h : a.Shaped r c) (f : K → K) :
    Shaped (a.map fun row => row.map f) r c := by
  refine ⟨by rw [List.length_map, h.1], fun row hrow => ?_⟩
  obtain ⟨row', hrow', rfl⟩ := List.mem_map.mp hrow
  rw [List.length_map, h.2 row' hrow']

theorem entry_map [Zero K] {a : Matrix K} {r c i j : Nat} (h : a.Shaped r c) (f : K → K)
    (hi : i < r) (hj : j < c) :
    (Matrix.entry (a.map fun row => row.map f) i j) = f (a.entry i j) := by
  obtain ⟨rfl, hrows⟩ := h
  have hj' : j < a[i].length := by
    rw [hrows a[i] (List.getElem_mem hi)]
    exact hj
  simp [entry, hi, hj']

end Matrix

/-! ## What the functions compute -/

namespace Linalg

open Synapse.Matrix Finset

variable [CommRing K] {a b : Matrix K} {r c k : Nat}

theorem add_ok (ha : a.Shaped r c) (hb : b.Shaped r c) (hr : 0 < r) :
    add a b = .ok (ofFn r c fun i j => a.entry i j + b.entry i j) := by
  obtain ⟨row, hrow, hc⟩ := first_row ha hr
  simp only [add, hrow, ha.1]
  show table r row.length _ = _
  rw [hc]
  refine table_ok fun i hi j hj => ?_
  simp only [cell_ok ha hi hj, cell_ok hb hi hj]
  rfl

theorem sub_ok (ha : a.Shaped r c) (hb : b.Shaped r c) (hr : 0 < r) :
    sub a b = .ok (ofFn r c fun i j => a.entry i j - b.entry i j) := by
  obtain ⟨row, hrow, hc⟩ := first_row ha hr
  simp only [sub, hrow, ha.1]
  show table r row.length _ = _
  rw [hc]
  refine table_ok fun i hi j hj => ?_
  simp only [cell_ok ha hi hj, cell_ok hb hi hj]
  rfl

theorem foldlM_sum {f : Nat → K → Except PyError K} {g : Nat → K} (n : Nat)
    (h : ∀ x < n, ∀ acc, f x acc = .ok (acc + g x)) :
    (List.range n).foldlM (fun acc x => f x acc) 0 = .ok (∑ x ∈ range n, g x) := by
  induction n with
  | zero => rfl
  | succ n ih =>
    rw [List.range_succ, List.foldlM_append, ih fun x hx => h x (hx.trans (Nat.lt_succ_self n)),
      sum_range_succ]
    show (f n _ >>= fun acc => pure acc) = _
    rw [h n (Nat.lt_succ_self n)]
    rfl

theorem matmul_ok (ha : a.Shaped r k) (hb : b.Shaped k c) (hr : 0 < r) (hk : 0 < k) :
    matmul a b = .ok (ofFn r c fun i j => ∑ x ∈ range k, a.entry i x * b.entry x j) := by
  obtain ⟨rowA, hrowA, hk'⟩ := first_row ha hr
  obtain ⟨rowB, hrowB, hc⟩ := first_row hb hk
  simp only [matmul, hrowA, hrowB, ha.1, hb.1]
  show (if rowA.length ≠ k then _ else table r rowB.length _) = _
  rw [if_neg (not_not.mpr hk'), hc]
  refine table_ok fun i hi j hj => ?_
  rw [hk']
  refine foldlM_sum k fun x hx acc => ?_
  simp only [cell_ok ha hi hx, cell_ok hb hx hj]
  rfl

theorem transpose_ok (ha : a.Shaped r c) (hr : 0 < r) :
    transpose a = .ok (ofFn c r fun i j => a.entry j i) := by
  obtain ⟨row, hrow, hc⟩ := first_row ha hr
  simp only [transpose, hrow, ha.1]
  show table row.length r _ = _
  rw [hc]
  exact table_ok fun i hi j hj => cell_ok ha hj hi

theorem sumMatrix_eq (ha : a.Shaped r c) :
    sumMatrix a = ∑ i ∈ range r, ∑ j ∈ range c, a.entry i j := by
  have hfold : ∀ (rows : Matrix K) (total : K),
      rows.foldl (fun total row => total + row.sum) total = total + (rows.map List.sum).sum := by
    intro rows
    induction rows with
    | nil => simp
    | cons row rows ih => simp [ih, add_assoc]
  rw [sumMatrix, hfold, zero_add]
  conv_lhs => rw [eq_ofFn ha]
  rw [ofFn, List.map_map]
  rfl

theorem zeros_eq (r c : Nat) : (zeros r c : Matrix K) = ofFn r c fun _ _ => 0 := by
  simp [zeros, ofFn, List.map_const']

end Linalg

end PythonPortfolio.Synapse
