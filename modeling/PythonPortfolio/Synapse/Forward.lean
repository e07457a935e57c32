import Mathlib.Algebra.Order.Ring.Int
import Mathlib.Data.List.Forall2
import PythonPortfolio.Synapse.Graph

/-!
# The forward pass

An expression is evaluated operand by operand, each result a new tensor of the heap.
`+` and `*` take rows and columns from the left operand and look the entries of the
right one up, so they raise only where the right operand is too small: a larger one is
cut down to the size of the left. `@` compares the inner dimensions first.
-/

namespace PythonPortfolio.Synapse

open Synapse.Matrix

variable {K : Type}

/-! ## Cells that are there -/

namespace Matrix

theorem bind_ok {α β : Type} {x : Except PyError α} {f : α → Except PyError β} {z : β} :
    (x >>= f) = .ok z ↔ ∃ y, x = .ok y ∧ f y = .ok z := by
  cases x with
  | error e => exact ⟨fun h => (by cases h), fun ⟨_, h, _⟩ => (by cases h)⟩
  | ok y =>
    constructor
    · exact fun h => ⟨y, rfl, h⟩
    · rintro ⟨y', hy', h⟩
      cases hy'
      exact h

theorem mapM_ok_iff {α β : Type} {l : List α} {f : α → Except PyError β} {ys : List β} :
    l.mapM f = .ok ys ↔ List.Forall₂ (fun x y => f x = .ok y) l ys := by
  induction l generalizing ys with
  | nil =>
    rw [List.mapM_nil, List.forall₂_nil_left_iff]
    exact ⟨fun h => (Except.ok.inj h).symm, fun h => congrArg Except.ok h.symm⟩
  | cons x l ih =>
    rw [List.mapM_cons, List.forall₂_cons_left_iff, bind_ok]
    constructor
    · rintro ⟨y, hx, h⟩
      obtain ⟨ys', hl, h⟩ := bind_ok.mp h
      exact ⟨y, ys', hx, ih.mp hl, (Except.ok.inj h).symm⟩
    · rintro ⟨y, ys', hx, hl, rfl⟩
      exact ⟨y, hx, bind_ok.mpr ⟨ys', ih.mpr hl, rfl⟩⟩

/-- A table that is computed is rectangular, and every cell of it was there. -/
theorem table_cells {r c : Nat} {f : Nat → Nat → Except PyError K} {t : Matrix K}
    (h : table r c f = .ok t) : t.Shaped r c ∧ ∀ i < r, ∀ j < c, ∃ x, f i j = .ok x := by
  have hrows := mapM_ok_iff.mp h
  have hlen : r = t.length := by
    have := hrows.length_eq
    rwa [List.length_range] at this
  have hrow : ∀ i (hi : i < t.length),
      List.Forall₂ (fun j x => f i j = .ok x) (List.range c) t[i] := by
    intro i hi
    have hget := hrows.get (i := i) (by rw [List.length_range, hlen]; exact hi) hi
    rw [List.get_eq_getElem, List.getElem_range] at hget
    exact mapM_ok_iff.mp hget
  refine ⟨⟨hlen.symm, fun row hmem => ?_⟩, fun i hi j hj => ?_⟩
  · obtain ⟨i, hi, rfl⟩ := List.mem_iff_getElem.mp hmem
    have := (hrow i hi).length_eq
    rw [List.length_range] at this
    exact this.symm
  · rw [hlen] at hi
    have hcells := hrow i hi
    have hj' : j < t[i].length := by
      rw [← hcells.length_eq, List.length_range]
      exact hj
    have hget := hcells.get (i := j) (by rw [List.length_range]; exact hj) hj'
    rw [List.get_eq_getElem, List.getElem_range] at hget
    exact ⟨_, hget⟩

theorem item_returns {α : Type} {l : List α} {i : Nat} {x : α} (h : item l i = .ok x) :
    ∃ hi : i < l.length, l[i] = x := by
  by_cases hi : i < l.length
  · rw [item_ok hi] at h
    exact ⟨hi, Except.ok.inj h⟩
  · rw [item, List.getElem?_eq_none (Nat.le_of_not_lt hi)] at h
    cases h

theorem cell_returns {a : Matrix K} {r c i j : Nat} {x : K} (ha : a.Shaped r c)
    (h : a.cell i j = .ok x) : i < r ∧ j < c := by
  obtain ⟨row, hrow, hx⟩ := bind_ok.mp h
  obtain ⟨hi, rfl⟩ := item_returns hrow
  obtain ⟨hj, -⟩ := item_returns hx
  rw [ha.2 a[i] (List.getElem_mem hi)] at hj
  exact ⟨ha.1 ▸ hi, hj⟩

/-- Two matrices combined entry by entry, over the rows and columns of the first: this goes
through when the second is at least as large. -/
theorem table_zip [Zero K] {a b : Matrix K} {r c r' c' : Nat} (f : K → K → K) (ha : a.Shaped r c)
    (hb : b.Shaped r' c') (hr : 0 < r) (hc : 0 < c) :
    (∃ t, table r c (fun i j => do
      let x ← a.cell i j
      let y ← b.cell i j
      return f x y) = .ok t) ↔ r ≤ r' ∧ c ≤ c' := by
  constructor
  · rintro ⟨t, ht⟩
    have hcell : ∀ i < r, ∀ j < c, i < r' ∧ j < c' := by
      intro i hi j hj
      obtain ⟨x, hx⟩ := (table_cells ht).2 i hi j hj
      obtain ⟨_, _, hx⟩ := bind_ok.mp hx
      obtain ⟨_, hy, _⟩ := bind_ok.mp hx
      exact cell_returns hb hy
    have hlast := hcell (r - 1) (by omega) (c - 1) (by omega)
    omega
  · rintro ⟨hr', hc'⟩
    refine ⟨ofFn r c fun i j => f (a.entry i j) (b.entry i j), table_ok fun i hi j hj => ?_⟩
    rw [cell_ok ha hi hj, cell_ok hb (hi.trans_le hr') (hj.trans_le hc')]
    rfl

end Matrix

/-! ## When an operation goes through -/

namespace Heap

variable {h h' : Heap K} {a b r c r' c' : Nat}

theorem HasShape.of_prefix (hs : h.HasShape a r c) (hpre : h <+: h') : h'.HasShape a r c := by
  obtain ⟨ts, rfl⟩ := hpre
  refine ⟨?_, hs.rows, hs.cols, ?_⟩
  · rw [List.length_append]
    exact Nat.lt_add_right _ hs.lt
  · have hdata : Heap.data (h ++ ts) a = h.data a := by
      rw [Heap.data, Heap.data, List.getElem?_append_left hs.lt]
    rw [hdata]
    exact hs.shaped

/-- Tensor `v` of `h'` is the result of `op`, and has `r` rows and `c` columns. -/
structure Creates (h : Heap K) (op : Ctx) (r c : Nat) (h' : Heap K) (v : Nat) : Prop where
  keeps : h <+: h'
  ctx : h'.ctx v = op
  shape : h'.HasShape v r c

theorem creates_tensor (h : Heap K) {data : Matrix K} (op : Ctx) (prev : List Nat) (hr : 0 < r)
    (hc : 0 < c) (hdata : data.Shaped r c) : Creates h op r c (h.tensor data op prev) h.length := by
  obtain ⟨hself, hctx, -, -⟩ := data_tensor_self h data op prev
  refine ⟨List.prefix_append h _, hctx, by simp [tensor], hr, hc, ?_⟩
  rw [hself]
  exact hdata

variable [CommRing K] [LinearOrder K]

/-- Create the result of an operation; `set` is the order in which Python iterates the set
of its operands. -/
def create (set : List Nat → List Nat) (h : Heap K) (op : Ctx) : Except PyError (Heap K × Nat) := do
  let h' ← h.operate (set op.children) op
  return (h', h.length)

/-- The operation goes through exactly when `P`, with a result of shape `(r, c)`. -/
structure Accepts (set : List Nat → List Nat) (h : Heap K) (op : Ctx) (P : Prop) (r c : Nat) :
    Prop where
  goes : P → ∃ h' v, h.create set op = .ok (h', v)
  creates : ∀ h' v, h.create set op = .ok (h', v) → P ∧ Creates h op r c h' v

variable {set : List Nat → List Nat}

/-- An operation that goes through creates a tensor. -/
theorem Accepts.created {op : Ctx} {P : Prop} (haccepts : h.Accepts set op P r c) (hP : P) :
    ∃ h' v, h.create set op = .ok (h', v) ∧ h.Creates op r c h' v := by
  obtain ⟨h', v, hok⟩ := haccepts.goes hP
  exact ⟨h', v, hok, (haccepts.creates h' v hok).2⟩

/-- An operation whose result is computed and then put on the heap. -/
theorem accepts_of_data {op : Ctx} {P : Prop} (data : Except PyError (Matrix K))
    (hop : ∀ prev, h.operate prev op = data >>= fun d => .ok (h.tensor d op prev))
    (hdata : (∃ d, data = .ok d) ↔ P) (hr : 0 < r) (hc : 0 < c)
    (hshape : ∀ d, data = .ok d → d.Shaped r c) : Accepts set h op P r c := by
  constructor
  · intro hP
    obtain ⟨d, hd⟩ := hdata.mpr hP
    exact ⟨_, _, by rw [create, hop, hd]; rfl⟩
  · intro h' v hok
    rw [create, hop] at hok
    simp only [bind_ok] at hok
    obtain ⟨_, ⟨d, hd, htensor⟩, hresult⟩ := hok
    cases htensor
    cases hresult
    exact ⟨hdata.mp ⟨d, hd⟩, creates_tensor h op _ hr hc (hshape d hd)⟩

/-- An operation that combines its operands entry by entry. -/
theorem accepts_zip {op : Ctx} (f : K → K → K) (ha : h.HasShape a r c) (hb : h.HasShape b r' c')
    (hop : ∀ prev, h.operate prev op = (table r c fun i j => do
      let x ← (h.data a).cell i j
      let y ← (h.data b).cell i j
      return f x y) >>= fun d => .ok (h.tensor d op prev)) :
    Accepts set h op (r ≤ r' ∧ c ≤ c') r c :=
  accepts_of_data _ hop (table_zip f ha.shaped hb.shaped ha.rows ha.cols) ha.rows ha.cols
    fun _ hd => (table_cells hd).1

theorem accepts_add (ha : h.HasShape a r c) (hb : h.HasShape b r' c') :
    Accepts set h (.add a b) (r ≤ r' ∧ c ≤ c') r c := by
  obtain ⟨row, hrow, rfl⟩ := first_row ha.shaped ha.rows
  refine accepts_zip (· + ·) ha hb fun prev => ?_
  rw [operate, Heap.add, Linalg.add, hrow, ha.shaped.1]
  rfl

theorem accepts_mul (ha : h.HasShape a r c) (hb : h.HasShape b r' c') :
    Accepts set h (.mul a b) (r ≤ r' ∧ c ≤ c') r c := by
  obtain ⟨row, hrow, rfl⟩ := first_row ha.shaped ha.rows
  refine accepts_zip (· * ·) ha hb fun prev => ?_
  rw [operate, Heap.mul, ha.shaped.1]
  simp only [hrow]
  rfl

omit [LinearOrder K] in
theorem matmul_of_ne {x y : Matrix K} {k k' : Nat} (hx : x.Shaped r k) (hy : y.Shaped k' c)
    (hr : 0 < r) (hk' : 0 < k') (hne : k ≠ k') : ∃ e, Linalg.matmul x y = .error e := by
  obtain ⟨rowX, hrowX, hlenX⟩ := first_row hx hr
  obtain ⟨rowY, hrowY, -⟩ := first_row hy hk'
  rw [Linalg.matmul, hrowX, hrowY, hy.1]
  show ∃ e, (if rowX.length ≠ k' then _ else _) = Except.error e
  rw [if_pos (by rw [hlenX]; exact hne)]
  exact ⟨_, rfl⟩

theorem accepts_matmul {k k' : Nat} (ha : h.HasShape a r k) (hb : h.HasShape b k' c) :
    Accepts set h (.matmul a b) (k = k') r c := by
  refine accepts_of_data (Linalg.matmul (h.data a) (h.data b)) (fun _ => rfl) ⟨?_, ?_⟩ ha.rows
    hb.cols fun d hd => ?_
  · rintro ⟨d, hd⟩
    by_contra hne
    obtain ⟨e, he⟩ := matmul_of_ne ha.shaped hb.shaped ha.rows hb.rows hne
    rw [he] at hd
    cases hd
  · rintro rfl
    exact ⟨_, Linalg.matmul_ok ha.shaped hb.shaped ha.rows hb.rows⟩
  · by_cases hk : k = k'
    · subst hk
      rw [Linalg.matmul_ok ha.shaped hb.shaped ha.rows hb.rows] at hd
      cases hd
      exact shaped_ofFn r c _
    · obtain ⟨e, he⟩ := matmul_of_ne ha.shaped hb.shaped ha.rows hb.rows hk
      rw [he] at hd
      cases hd

theorem accepts_relu (ha : h.HasShape a r c) : Accepts set h (.relu a) True r c := by
  refine accepts_of_data (.ok (Linalg.relu (h.data a))) (fun _ => rfl)
    ⟨fun _ => trivial, fun _ => ⟨_, rfl⟩⟩ ha.rows ha.cols fun d hd => ?_
  cases hd
  exact shaped_map ha.shaped _

theorem accepts_sum : Accepts set h (.sum a) True 1 1 := by
  refine accepts_of_data (.ok [[Linalg.sumMatrix (h.data a)]]) (fun _ => rfl)
    ⟨fun _ => trivial, fun _ => ⟨_, rfl⟩⟩ Nat.one_pos Nat.one_pos fun d hd => ?_
  cases hd
  exact ⟨rfl, by simp⟩

end Heap

/-! ## Expressions -/

/-- A rectangular matrix with at least one row and one column. -/
structure Grid (K : Type) where
  rows : Nat
  cols : Nat
  cells : Matrix K
  rows_pos : 0 < rows
  cols_pos : 0 < cols
  shaped : cells.Shaped rows cols

/-- An expression over the tensors of a heap and new matrices. -/
inductive Expr (K : Type) where
  | tensor (v : Nat)
  | matrix (data : Grid K)
  | add (self other : Expr K)
  | mul (self other : Expr K)
  | matmul (self other : Expr K)
  | relu (self : Expr K)
  | sum (self : Expr K)

namespace Expr

section Eval

variable [CommRing K] [LinearOrder K]

/-- Evaluate operands from left to right, then the operation. -/
def eval (set : List Nat → List Nat) : Expr K → Heap K → Except PyError (Heap K × Nat)
  | .tensor v, h => .ok (h, v)
  | .matrix data, h => .ok (h.tensor data.cells .leaf [], h.length)
  | .add self other, h => do
    let (h, self) ← self.eval set h
    let (h, other) ← other.eval set h
    h.create set (.add self other)
  | .mul self other, h => do
    let (h, self) ← self.eval set h
    let (h, other) ← other.eval set h
    h.create set (.mul self other)
  | .matmul self other, h => do
    let (h, self) ← self.eval set h
    let (h, other) ← other.eval set h
    h.create set (.matmul self other)
  | .relu self, h => do
    let (h, self) ← self.eval set h
    h.create set (.relu self)
  | .sum self, h => do
    let (h, self) ← self.eval set h
    h.create set (.sum self)

end Eval

/-- The shape of an expression, where `agree` compares the rows and the columns of the
operands of `+` and `*`. -/
inductive Sized (agree : Nat → Nat → Prop) (h : Heap K) : Expr K → Nat → Nat → Prop
  | tensor {v r c : Nat} (hs : h.HasShape v r c) : Sized agree h (.tensor v) r c
  | matrix {data : Grid K} : Sized agree h (.matrix data) data.rows data.cols
  | add {x y : Expr K} {r c r' c' : Nat} (hx : Sized agree h x r c) (hy : Sized agree h y r' c')
      (hr : agree r r') (hc : agree c c') : Sized agree h (.add x y) r c
  | mul {x y : Expr K} {r c r' c' : Nat} (hx : Sized agree h x r c) (hy : Sized agree h y r' c')
      (hr : agree r r') (hc : agree c c') : Sized agree h (.mul x y) r c
  | matmul {x y : Expr K} {r k c : Nat} (hx : Sized agree h x r k) (hy : Sized agree h y k c) :
      Sized agree h (.matmul x y) r c
  | relu {x : Expr K} {r c : Nat} (hx : Sized agree h x r c) : Sized agree h (.relu x) r c
  | sum {x : Expr K} {r c : Nat} (hx : Sized agree h x r c) : Sized agree h (.sum x) 1 1

/-- Operands of `+` and `*` have the same shape, inner dimensions of `@` agree. -/
def WellShaped (h : Heap K) : Expr K → Nat → Nat → Prop := Sized (· = ·) h

/-- The left operand of `+` and `*` is no taller and no wider than the right one. -/
def Fits (h : Heap K) : Expr K → Nat → Nat → Prop := Sized (· ≤ ·) h

/-- Tensor `v` is the result of the expression, and every result on the way to it has the
shape of its subexpression. -/
inductive Results (agree : Nat → Nat → Prop) (h : Heap K) : Expr K → Nat → Nat → Nat → Prop
  | tensor {v r c : Nat} (hs : h.HasShape v r c) : Results agree h (.tensor v) v r c
  | matrix {data : Grid K} {v : Nat} (hs : h.HasShape v data.rows data.cols)
      (hdata : h.data v = data.cells) : Results agree h (.matrix data) v data.rows data.cols
  | add {x y : Expr K} {a b v r c r' c' : Nat} (hx : Results agree h x a r c)
      (hy : Results agree h y b r' c') (hr : agree r r') (hc : agree c c')
      (hctx : h.ctx v = .add a b) (hs : h.HasShape v r c) : Results agree h (.add x y) v r c
  | mul {x y : Expr K} {a b v r c r' c' : Nat} (hx : Results agree h x a r c)
      (hy : Results agree h y b r' c') (hr : agree r r') (hc : agree c c')
      (hctx : h.ctx v = .mul a b) (hs : h.HasShape v r c) : Results agree h (.mul x y) v r c
  | matmul {x y : Expr K} {a b v r k c : Nat} (hx : Results agree h x a r k)
      (hy : Results agree h y b k c) (hctx : h.ctx v = .matmul a b) (hs : h.HasShape v r c) :
      Results agree h (.matmul x y) v r c
  | relu {x : Expr K} {a v r c : Nat} (hx : Results agree h x a r c) (hctx : h.ctx v = .relu a)
      (hs : h.HasShape v r c) : Results agree h (.relu x) v r c
  | sum {x : Expr K} {a v r c : Nat} (hx : Results agree h x a r c) (hctx : h.ctx v = .sum a)
      (hs : h.HasShape v 1 1) : Results agree h (.sum x) v 1 1

/-- The tensors an expression starts from. -/
def tensors : Expr K → List Nat
  | .tensor v => [v]
  | .matrix _ => []
  | .add self other | .mul self other | .matmul self other => self.tensors ++ other.tensors
  | .relu self | .sum self => self.tensors

variable {agree : Nat → Nat → Prop} {h h₀ h' : Heap K} {e : Expr K} {v r c : Nat}

theorem Results.shape (hres : Results agree h e v r c) : h.HasShape v r c := by
  cases hres with
  | tensor hs => exact hs
  | matrix hs _ => exact hs
  | add _ _ _ _ _ hs | mul _ _ _ _ _ hs => exact hs
  | matmul _ _ _ hs => exact hs
  | relu _ _ hs | sum _ _ hs => exact hs

/-- Results stay as they are when more tensors are created. -/
theorem Results.of_prefix (hpre : h <+: h') (hres : Results agree h e v r c) :
    Results agree h' e v r c := by
  have hold : ∀ v r c, h.HasShape v r c →
      h'.HasShape v r c ∧ h'.ctx v = h.ctx v ∧ h'.data v = h.data v := by
    intro v r c hs
    refine ⟨hs.of_prefix hpre, ?_⟩
    obtain ⟨ts, rfl⟩ := hpre
    simp only [Heap.ctx, Heap.data, List.getElem?_append_left hs.lt, and_self]
  induction hres with
  | tensor hs => exact .tensor (hold _ _ _ hs).1
  | matrix hs hdata =>
    obtain ⟨hs', -, hdata'⟩ := hold _ _ _ hs
    exact .matrix hs' (hdata'.trans hdata)
  | add _ _ hr hc hctx hs ihx ihy =>
    obtain ⟨hs', hctx', -⟩ := hold _ _ _ hs
    exact .add ihx ihy hr hc (hctx'.trans hctx) hs'
  | mul _ _ hr hc hctx hs ihx ihy =>
    obtain ⟨hs', hctx', -⟩ := hold _ _ _ hs
    exact .mul ihx ihy hr hc (hctx'.trans hctx) hs'
  | matmul _ _ hctx hs ihx ihy =>
    obtain ⟨hs', hctx', -⟩ := hold _ _ _ hs
    exact .matmul ihx ihy (hctx'.trans hctx) hs'
  | relu _ hctx hs ihx =>
    obtain ⟨hs', hctx', -⟩ := hold _ _ _ hs
    exact .relu ihx (hctx'.trans hctx) hs'
  | sum _ hctx hs ihx =>
    obtain ⟨hs', hctx', -⟩ := hold _ _ _ hs
    exact .sum ihx (hctx'.trans hctx) hs'

variable [CommRing K] [LinearOrder K] {set : List Nat → List Nat}

/-- From any heap that holds the tensors of `h₀`, the expression is evaluated, and every
result has its shape. -/
def Evaluates (set : List Nat → List Nat) (agree : Nat → Nat → Prop) (h₀ : Heap K) (e : Expr K)
    (r c : Nat) : Prop :=
  ∀ h, h₀ <+: h → ∃ h' v, e.eval set h = .ok (h', v) ∧ h <+: h' ∧ Results agree h' e v r c

/-- Both operands are evaluated, one after the other, and the operation goes through. -/
theorem Evaluates.binary {x y : Expr K} {r₁ c₁ r₂ c₂ : Nat} {op : Nat → Nat → Ctx} {P : Prop}
    (hx : Evaluates set agree h₀ x r₁ c₁) (hy : Evaluates set agree h₀ y r₂ c₂)
    (heval : ∀ h, e.eval set h = do
      let (h, self) ← x.eval set h
      let (h, other) ← y.eval set h
      h.create set (op self other))
    (haccepts : ∀ {h : Heap K} {a b : Nat}, h.HasShape a r₁ c₁ → h.HasShape b r₂ c₂ →
      h.Accepts set (op a b) P r c)
    (hP : P)
    (hres : ∀ {h : Heap K} {a b v : Nat}, Results agree h x a r₁ c₁ → Results agree h y b r₂ c₂ →
      h.ctx v = op a b → h.HasShape v r c → Results agree h e v r c) :
    Evaluates set agree h₀ e r c := by
  intro h hpre
  obtain ⟨h₁, a, hxok, hpre₁, hresx⟩ := hx h hpre
  obtain ⟨h₂, b, hyok, hpre₂, hresy⟩ := hy h₁ (hpre.trans hpre₁)
  have hresx₂ := hresx.of_prefix hpre₂
  obtain ⟨h₃, v, hok, hnew⟩ := (haccepts hresx₂.shape hresy.shape).created hP
  refine ⟨h₃, v, ?_, (hpre₁.trans hpre₂).trans hnew.keeps, ?_⟩
  · rw [heval]
    exact bind_ok.mpr ⟨_, hxok, bind_ok.mpr ⟨_, hyok, hok⟩⟩
  · exact hres (hresx₂.of_prefix hnew.keeps) (hresy.of_prefix hnew.keeps) hnew.ctx hnew.shape

theorem Evaluates.unary {x : Expr K} {r₁ c₁ : Nat} {op : Nat → Ctx}
    (hx : Evaluates set agree h₀ x r₁ c₁)
    (heval : ∀ h, e.eval set h = do
      let (h, self) ← x.eval set h
      h.create set (op self))
    (haccepts : ∀ {h : Heap K} {a : Nat}, h.HasShape a r₁ c₁ → h.Accepts set (op a) True r c)
    (hres : ∀ {h : Heap K} {a v : Nat}, Results agree h x a r₁ c₁ → h.ctx v = op a →
      h.HasShape v r c → Results agree h e v r c) :
    Evaluates set agree h₀ e r c := by
  intro h hpre
  obtain ⟨h₁, a, hxok, hpre₁, hresx⟩ := hx h hpre
  obtain ⟨h₂, v, hok, hnew⟩ := (haccepts hresx.shape).created trivial
  refine ⟨h₂, v, ?_, hpre₁.trans hnew.keeps, ?_⟩
  · rw [heval]
    exact bind_ok.mpr ⟨_, hxok, hok⟩
  · exact hres (hresx.of_prefix hnew.keeps) hnew.ctx hnew.shape

/-- An expression whose shapes agree is evaluated, and every result has its shape. -/
theorem evaluates_of_sized (hagree : ∀ m n, agree m n → m ≤ n) (hs : e.Sized agree h₀ r c) :
    Evaluates set agree h₀ e r c := by
  induction hs with
  | tensor hs => exact fun h hpre => ⟨h, _, rfl, List.prefix_rfl, .tensor (hs.of_prefix hpre)⟩
  | @matrix data =>
    intro h _
    have hnew := Heap.creates_tensor h .leaf [] data.rows_pos data.cols_pos data.shaped
    exact ⟨_, _, rfl, hnew.keeps, .matrix hnew.shape (Heap.data_tensor_self h _ _ _).1⟩
  | add _ _ hr hc ihx ihy =>
    refine ihx.binary ihy (fun _ => rfl) Heap.accepts_add ⟨hagree _ _ hr, hagree _ _ hc⟩ ?_
    exact fun hx hy hctx hs => .add hx hy hr hc hctx hs
  | mul _ _ hr hc ihx ihy =>
    refine ihx.binary ihy (fun _ => rfl) Heap.accepts_mul ⟨hagree _ _ hr, hagree _ _ hc⟩ ?_
    exact fun hx hy hctx hs => .mul hx hy hr hc hctx hs
  | matmul _ _ ihx ihy => exact ihx.binary ihy (fun _ => rfl) Heap.accepts_matmul rfl .matmul
  | relu _ ihx => exact ihx.unary (fun _ => rfl) Heap.accepts_relu .relu
  | sum _ ihx => exact ihx.unary (fun _ => rfl) (fun _ => Heap.accepts_sum) .sum

/-- What is evaluated from a heap that holds the tensors of `h₀` fits. -/
def Fitted (set : List Nat → List Nat) (h₀ : Heap K) (e : Expr K) : Prop :=
  ∀ h h' v, h₀ <+: h → e.eval set h = .ok (h', v) →
    ∃ r c, e.Fits h₀ r c ∧ h <+: h' ∧ h'.HasShape v r c

theorem Fitted.binary {x y : Expr K} {op : Nat → Nat → Ctx} (hx : Fitted set h₀ x)
    (hy : Fitted set h₀ y)
    (heval : ∀ h, e.eval set h = do
      let (h, self) ← x.eval set h
      let (h, other) ← y.eval set h
      h.create set (op self other))
    (hop : ∀ {h h' : Heap K} {a b v r₁ c₁ r₂ c₂ : Nat}, x.Fits h₀ r₁ c₁ → y.Fits h₀ r₂ c₂ →
      h.HasShape a r₁ c₁ → h.HasShape b r₂ c₂ → h.create set (op a b) = .ok (h', v) →
        ∃ r c, e.Fits h₀ r c ∧ h <+: h' ∧ h'.HasShape v r c) : Fitted set h₀ e := by
  intro h h' v hpre hok
  rw [heval] at hok
  obtain ⟨⟨h₁, a⟩, hxok, hok⟩ := bind_ok.mp hok
  obtain ⟨⟨h₂, b⟩, hyok, hok⟩ := bind_ok.mp hok
  obtain ⟨r₁, c₁, hfx, hpre₁, ha⟩ := hx h h₁ a hpre hxok
  obtain ⟨r₂, c₂, hfy, hpre₂, hb⟩ := hy h₁ h₂ b (hpre.trans hpre₁) hyok
  obtain ⟨r, c, hfits, hpre₃, hs⟩ := hop hfx hfy (ha.of_prefix hpre₂) hb hok
  exact ⟨r, c, hfits, (hpre₁.trans hpre₂).trans hpre₃, hs⟩

theorem Fitted.unary {x : Expr K} {op : Nat → Ctx} (hx : Fitted set h₀ x)
    (heval : ∀ h, e.eval set h = do
      let (h, self) ← x.eval set h
      h.create set (op self))
    (hop : ∀ {h h' : Heap K} {a v r₁ c₁ : Nat}, x.Fits h₀ r₁ c₁ → h.HasShape a r₁ c₁ →
      h.create set (op a) = .ok (h', v) → ∃ r c, e.Fits h₀ r c ∧ h <+: h' ∧ h'.HasShape v r c) :
    Fitted set h₀ e := by
  intro h h' v hpre hok
  rw [heval] at hok
  obtain ⟨⟨h₁, a⟩, hxok, hok⟩ := bind_ok.mp hok
  obtain ⟨r₁, c₁, hfx, hpre₁, ha⟩ := hx h h₁ a hpre hxok
  obtain ⟨r, c, hfits, hpre₂, hs⟩ := hop hfx ha hok
  exact ⟨r, c, hfits, hpre₁.trans hpre₂, hs⟩

/-- An expression over rectangular tensors that is evaluated fits. -/
theorem fitted (hover : ∀ v ∈ e.tensors, ∃ r c, h₀.HasShape v r c) : Fitted set h₀ e := by
  induction e with
  | tensor v =>
    intro h h' w hpre hok
    cases hok
    obtain ⟨r, c, hs⟩ := hover v (List.mem_singleton_self v)
    exact ⟨r, c, .tensor hs, List.prefix_rfl, hs.of_prefix hpre⟩
  | matrix data =>
    intro h h' w _ hok
    cases hok
    have hnew := Heap.creates_tensor h .leaf [] data.rows_pos data.cols_pos data.shaped
    exact ⟨_, _, .matrix, hnew.keeps, hnew.shape⟩
  | add x y ihx ihy =>
    have hx := ihx fun v hv => hover v (List.mem_append_left _ hv)
    have hy := ihy fun v hv => hover v (List.mem_append_right _ hv)
    refine hx.binary hy (fun _ => rfl) fun hfx hfy ha hb hok => ?_
    obtain ⟨⟨hr, hc⟩, hnew⟩ := (Heap.accepts_add ha hb).creates _ _ hok
    exact ⟨_, _, .add hfx hfy hr hc, hnew.keeps, hnew.shape⟩
  | mul x y ihx ihy =>
    have hx := ihx fun v hv => hover v (List.mem_append_left _ hv)
    have hy := ihy fun v hv => hover v (List.mem_append_right _ hv)
    refine hx.binary hy (fun _ => rfl) fun hfx hfy ha hb hok => ?_
    obtain ⟨⟨hr, hc⟩, hnew⟩ := (Heap.accepts_mul ha hb).creates _ _ hok
    exact ⟨_, _, .mul hfx hfy hr hc, hnew.keeps, hnew.shape⟩
  | matmul x y ihx ihy =>
    have hx := ihx fun v hv => hover v (List.mem_append_left _ hv)
    have hy := ihy fun v hv => hover v (List.mem_append_right _ hv)
    refine hx.binary hy (fun _ => rfl) fun hfx hfy ha hb hok => ?_
    obtain ⟨rfl, hnew⟩ := (Heap.accepts_matmul ha hb).creates _ _ hok
    exact ⟨_, _, .matmul hfx hfy, hnew.keeps, hnew.shape⟩
  | relu x ihx =>
    refine (ihx hover).unary (fun _ => rfl) fun hfx ha hok => ?_
    obtain ⟨-, hnew⟩ := (Heap.accepts_relu ha).creates _ _ hok
    exact ⟨_, _, .relu hfx, hnew.keeps, hnew.shape⟩
  | sum x ihx =>
    refine (ihx hover).unary (fun _ => rfl) fun hfx ha hok => ?_
    obtain ⟨-, hnew⟩ := Heap.accepts_sum.creates _ _ hok
    exact ⟨1, 1, .sum hfx, hnew.keeps, hnew.shape⟩

/-- From a heap built by the operations, the expression leaves another one. -/
def Builds (set : List Nat → List Nat) (h₀ : Heap K) (e : Expr K) (r c : Nat) : Prop :=
  ∀ (h h' : Heap K) (v : Nat), h₀ <+: h → h.Built → e.eval set h = .ok (h', v) →
    h'.Built ∧ h <+: h' ∧ h'.HasShape v r c

theorem built_create (hset : ∀ l, (set l).Perm l.dedup) {op : Ctx} (hb : h.Built)
    (ht : h.Typed op r c) (hok : h.create set op = .ok (h', v)) : h'.Built := by
  obtain ⟨h₁, hop, hresult⟩ := bind_ok.mp hok
  cases hresult
  exact .operation hb ht (hset _) hop

theorem Builds.binary {x y : Expr K} {r₁ c₁ r₂ c₂ : Nat} {op : Nat → Nat → Ctx} {P : Prop}
    (hset : ∀ l, (set l).Perm l.dedup) (hx : Builds set h₀ x r₁ c₁) (hy : Builds set h₀ y r₂ c₂)
    (heval : ∀ h, e.eval set h = do
      let (h, self) ← x.eval set h
      let (h, other) ← y.eval set h
      h.create set (op self other))
    (haccepts : ∀ {h : Heap K} {a b : Nat}, h.HasShape a r₁ c₁ → h.HasShape b r₂ c₂ →
      h.Accepts set (op a b) P r c)
    (htyped : ∀ {h : Heap K} {a b : Nat}, h.HasShape a r₁ c₁ → h.HasShape b r₂ c₂ →
      h.Typed (op a b) r c) : Builds set h₀ e r c := by
  intro h h' v hpre hb hok
  rw [heval] at hok
  obtain ⟨⟨h₁, a⟩, hxok, hok⟩ := bind_ok.mp hok
  obtain ⟨⟨h₂, b⟩, hyok, hok⟩ := bind_ok.mp hok
  obtain ⟨hb₁, hpre₁, ha⟩ := hx h h₁ a hpre hb hxok
  obtain ⟨hb₂, hpre₂, hb'⟩ := hy h₁ h₂ b (hpre.trans hpre₁) hb₁ hyok
  have ha₂ := ha.of_prefix hpre₂
  obtain ⟨-, hnew⟩ := (haccepts ha₂ hb').creates h' v hok
  exact ⟨built_create hset hb₂ (htyped ha₂ hb') hok, (hpre₁.trans hpre₂).trans hnew.keeps,
    hnew.shape⟩

theorem Builds.unary {x : Expr K} {r₁ c₁ : Nat} {op : Nat → Ctx} {P : Prop}
    (hset : ∀ l, (set l).Perm l.dedup) (hx : Builds set h₀ x r₁ c₁)
    (heval : ∀ h, e.eval set h = do
      let (h, self) ← x.eval set h
      h.create set (op self))
    (haccepts : ∀ {h : Heap K} {a : Nat}, h.HasShape a r₁ c₁ → h.Accepts set (op a) P r c)
    (htyped : ∀ {h : Heap K} {a : Nat}, h.HasShape a r₁ c₁ → h.Typed (op a) r c) :
    Builds set h₀ e r c := by
  intro h h' v hpre hb hok
  rw [heval] at hok
  obtain ⟨⟨h₁, a⟩, hxok, hok⟩ := bind_ok.mp hok
  obtain ⟨hb₁, hpre₁, ha⟩ := hx h h₁ a hpre hb hxok
  obtain ⟨-, hnew⟩ := (haccepts ha).creates h' v hok
  exact ⟨built_create hset hb₁ (htyped ha) hok, hpre₁.trans hnew.keeps, hnew.shape⟩

/-- The graph of a well-shaped expression is built by operations on operands of agreeing
shapes. -/
theorem builds_of_wellShaped (hset : ∀ l, (set l).Perm l.dedup) (hs : e.WellShaped h₀ r c) :
    Builds set h₀ e r c := by
  induction hs with
  | tensor hs =>
    intro h h' v hpre hb hok
    cases hok
    exact ⟨hb, List.prefix_rfl, hs.of_prefix hpre⟩
  | @matrix data =>
    intro h h' v _ hb hok
    cases hok
    have hnew := Heap.creates_tensor h .leaf [] data.rows_pos data.cols_pos data.shaped
    exact ⟨.leaf hb data.rows_pos data.cols_pos data.shaped, hnew.keeps, hnew.shape⟩
  | add _ _ hr hc ihx ihy =>
    subst hr hc
    exact ihx.binary hset ihy (fun _ => rfl) Heap.accepts_add .add
  | mul _ _ hr hc ihx ihy =>
    subst hr hc
    exact ihx.binary hset ihy (fun _ => rfl) Heap.accepts_mul .mul
  | matmul _ _ ihx ihy => exact ihx.binary hset ihy (fun _ => rfl) Heap.accepts_matmul .matmul
  | relu _ ihx => exact ihx.unary hset (fun _ => rfl) Heap.accepts_relu .relu
  | sum _ ihx => exact ihx.unary hset (fun _ => rfl) (fun _ => Heap.accepts_sum) .sum

/-- The expression goes through exactly when its shapes agree, and then every result on the
way has the shape of its subexpression. -/
def AcceptsWellShaped (set : List Nat → List Nat) (h₀ : Heap K) (e : Expr K) : Prop :=
  ((∃ h v, e.eval set h₀ = .ok (h, v)) ↔ ∃ r c, e.WellShaped h₀ r c) ∧
    ∀ h v r c, e.eval set h₀ = .ok (h, v) → e.WellShaped h₀ r c → Results (· = ·) h e v r c

/-- An expression over rectangular tensors is accepted as it should be unless it fits with
operands of different shapes. -/
theorem eval_accepts_iff (hover : ∀ v ∈ e.tensors, ∃ r c, h₀.HasShape v r c) :
    AcceptsWellShaped set h₀ e ↔ ((∃ r c, e.Fits h₀ r c) → ∃ r c, e.WellShaped h₀ r c) := by
  have hfits : (∃ h v, e.eval set h₀ = .ok (h, v)) ↔ ∃ r c, e.Fits h₀ r c := by
    constructor
    · rintro ⟨h, v, hok⟩
      obtain ⟨r, c, hfits, -⟩ := fitted hover h₀ h v List.prefix_rfl hok
      exact ⟨r, c, hfits⟩
    · rintro ⟨r, c, hfits⟩
      obtain ⟨h, v, hok, -⟩ := evaluates_of_sized (fun _ _ => id) hfits h₀ List.prefix_rfl
      exact ⟨h, v, hok⟩
  constructor
  · rintro ⟨hreturns, -⟩ hf
    exact hreturns.mp (hfits.mpr hf)
  · intro hexact
    refine ⟨⟨fun hok => hexact (hfits.mp hok), ?_⟩, ?_⟩
    · rintro ⟨r, c, hws⟩
      obtain ⟨h, v, hok, -⟩ := evaluates_of_sized (fun _ _ => Nat.le_of_eq) hws h₀ List.prefix_rfl
      exact ⟨h, v, hok⟩
    · intro h v r c hok hws
      obtain ⟨h', v', hok', -, hres⟩ :=
        evaluates_of_sized (fun _ _ => Nat.le_of_eq) hws h₀ List.prefix_rfl
      rw [hok] at hok'
      cases hok'
      exact hres

/-- `x + x` for a tensor of the heap. -/
theorem eval_accepts_iff_doubled :
    AcceptsWellShaped id ([⟨[[2, 3]], none, .leaf, []⟩] : Heap ℤ)
      (.add (.tensor 0) (.tensor 0)) := by
  have hx : Heap.HasShape ([⟨[[2, 3]], none, .leaf, []⟩] : Heap ℤ) 0 1 2 :=
    ⟨by decide, by decide, by decide, rfl, by decide⟩
  have hwell : WellShaped ([⟨[[2, 3]], none, .leaf, []⟩] : Heap ℤ)
      (.add (.tensor 0) (.tensor 0)) 1 2 := .add (.tensor hx) (.tensor hx) rfl rfl
  exact (eval_accepts_iff (by simpa [tensors] using ⟨1, 2, hx⟩)).mpr fun _ => ⟨1, 2, hwell⟩

/-- `Tensor([[1]]) + Tensor([[10, 20], [30, 40]])`. -/
def cut : Expr ℤ :=
  .add (.matrix ⟨1, 1, [[1]], Nat.one_pos, Nat.one_pos, rfl, by decide⟩)
    (.matrix ⟨2, 2, [[10, 20], [30, 40]], Nat.two_pos, Nat.two_pos, rfl, by decide⟩)

/-- The sum of operands of different shapes returns, without three of the entries. -/
theorem cut_accepted : (∃ h, cut.eval id [] = .ok (h, 2) ∧ h.data 2 = [[11]]) ∧
    ¬ AcceptsWellShaped id [] cut := by
  have hok : cut.eval id [] = .ok ([⟨[[1]], none, .leaf, []⟩,
      ⟨[[10, 20], [30, 40]], none, .leaf, []⟩, ⟨[[11]], none, .add 0 1, [0, 1]⟩], 2) := by decide
  refine ⟨⟨_, hok, rfl⟩, fun haccepts => ?_⟩
  obtain ⟨r, c, hwell⟩ := haccepts.1.mp ⟨_, _, hok⟩
  cases hwell with
  | add hx hy hr hc =>
    cases hx
    cases hy
    cases hr

end Expr

end PythonPortfolio.Synapse
