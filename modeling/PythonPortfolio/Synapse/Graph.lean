import PythonPortfolio.Synapse.Tensor

/-!
# Expression graphs

The heaps that arise by creating leaf tensors and applying the operations to tensors
of agreeing shapes. In such a heap every tensor is rectangular, its entries are what
its operation says about the entries of its operands, and operands are older than
results.
-/

namespace PythonPortfolio.Synapse

open Synapse.Matrix Finset

variable {K : Type}

namespace Heap

/-- Tensor `v` has `r` rows and `c` columns, at least one of each. -/
structure HasShape (h : Heap K) (v r c : Nat) : Prop where
  lt : v < h.length
  rows : 0 < r
  cols : 0 < c
  shaped : (h.data v).Shaped r c

def rows (h : Heap K) (v : Nat) : Nat := (h.data v).length

def cols (h : Heap K) (v : Nat) : Nat := ((h.data v).getD 0 []).length

/-- The operands of an operation agree in shape, and give a result of shape `(r, c)`. -/
inductive Typed (h : Heap K) : Ctx → Nat → Nat → Prop
  | add {a b r c : Nat} (ha : h.HasShape a r c) (hb : h.HasShape b r c) : Typed h (.add a b) r c
  | mul {a b r c : Nat} (ha : h.HasShape a r c) (hb : h.HasShape b r c) : Typed h (.mul a b) r c
  | matmul {a b r k c : Nat} (ha : h.HasShape a r k) (hb : h.HasShape b k c) :
      Typed h (.matmul a b) r c
  | relu {a r c : Nat} (ha : h.HasShape a r c) : Typed h (.relu a) r c
  | sum {a r c : Nat} (ha : h.HasShape a r c) : Typed h (.sum a) 1 1

variable [CommRing K] [LinearOrder K]

/-- Apply an operation to tensors of the heap. -/
def operate (h : Heap K) (prev : List Nat) : Ctx → Except PyError (Heap K)
  | .leaf => .ok h
  | .add self other => h.add self other prev
  | .mul self other => h.mul self other prev
  | .matmul self other => h.matmul self other prev
  | .relu self => .ok (h.relu self prev)
  | .sum self => .ok (h.sum self prev)

/-- The heaps built from leaves by operations on operands of agreeing shapes; the sets
`_prev` may be iterated in any order. -/
inductive Built : Heap K → Prop
  | empty : Built []
  | leaf {h : Heap K} {data : Matrix K} {r c : Nat} (hb : Built h) (hr : 0 < r) (hc : 0 < c)
      (hdata : data.Shaped r c) : Built (h.tensor data .leaf [])
  | operation {h h' : Heap K} {op : Ctx} {r c : Nat} {prev : List Nat} (hb : Built h)
      (hop : h.Typed op r c) (hprev : prev.Perm op.children.dedup)
      (hok : h.operate prev op = .ok h') : Built h'

/-- The entries of a result, as a function of those of its operands. -/
def combine (rows cols : Nat → Nat) (x : Nat → Nat → Nat → K) : Ctx → Nat → Nat → K
  | .leaf => fun _ _ => 0
  | .add a b => fun i j => x a i j + x b i j
  | .mul a b => fun i j => x a i j * x b i j
  | .matmul a b => fun i j => ∑ k ∈ range (cols a), x a i k * x b k j
  | .relu a => fun i j => max 0 (x a i j)
  | .sum a => fun _ _ => ∑ i ∈ range (rows a), ∑ j ∈ range (cols a), x a i j

def entries (h : Heap K) (v i j : Nat) : K := (h.data v).entry i j

/-! ## Shapes -/

section Shapes

omit [CommRing K] [LinearOrder K]

variable {h : Heap K} {v r c r' c' : Nat}

theorem HasShape.rows_eq (hs : h.HasShape v r c) : h.rows v = r := hs.shaped.1

theorem HasShape.cols_eq (hs : h.HasShape v r c) : h.cols v = c := by
  obtain ⟨row, hrow, hlen⟩ := first_row hs.shaped hs.rows
  have hlt : 0 < (h.data v).length := by
    rw [hs.shaped.1]
    exact hs.rows
  rw [item_ok hlt] at hrow
  rw [Heap.cols, List.getD_eq_getElem?_getD, List.getElem?_eq_getElem hlt, Option.getD_some,
    Except.ok.inj hrow, hlen]

theorem HasShape.unique (hs : h.HasShape v r c) (hs' : h.HasShape v r' c') : r = r' ∧ c = c' :=
  ⟨hs.rows_eq.symm.trans hs'.rows_eq, hs.cols_eq.symm.trans hs'.cols_eq⟩

theorem data_tensor_of_lt (data : Matrix K) (op : Ctx) (prev : List Nat) (hv : v < h.length) :
    (h.tensor data op prev).data v = h.data v ∧ (h.tensor data op prev).ctx v = h.ctx v ∧
      (h.tensor data op prev).prev v = h.prev v ∧ (h.tensor data op prev).grad v = h.grad v := by
  simp [Heap.data, ctx, Heap.prev, grad, tensor, List.getElem?_append_left hv]

theorem data_tensor_self (h : Heap K) (data : Matrix K) (op : Ctx) (prev : List Nat) :
    (h.tensor data op prev).data h.length = data ∧ (h.tensor data op prev).ctx h.length = op ∧
      (h.tensor data op prev).prev h.length = prev ∧
      (h.tensor data op prev).grad h.length = none := by
  simp [Heap.data, ctx, Heap.prev, grad, tensor]

theorem HasShape.tensor (hs : h.HasShape v r c) {data : Matrix K} {op : Ctx} {prev : List Nat} :
    (h.tensor data op prev).HasShape v r c where
  lt := by
    rw [Heap.tensor, List.length_append]
    exact Nat.lt_add_right _ hs.lt
  rows := hs.rows
  cols := hs.cols
  shaped := by
    rw [(data_tensor_of_lt data op prev hs.lt).1]
    exact hs.shaped

theorem Typed.tensor {op' : Ctx} (ht : h.Typed op' r c) {data : Matrix K} {op : Ctx}
    {prev : List Nat} : (h.tensor data op prev).Typed op' r c := by
  cases ht with
  | add ha hb => exact .add ha.tensor hb.tensor
  | mul ha hb => exact .mul ha.tensor hb.tensor
  | matmul ha hb => exact .matmul ha.tensor hb.tensor
  | relu ha => exact .relu ha.tensor
  | sum ha => exact .sum ha.tensor

theorem Typed.children_lt {op : Ctx} (ht : h.Typed op r c) : ∀ a ∈ op.children, a < h.length := by
  cases ht with
  | add ha hb | mul ha hb | matmul ha hb =>
    intro a hmem
    rcases List.mem_cons.mp hmem with rfl | hmem
    · exact ha.lt
    · rw [List.mem_singleton.mp hmem]
      exact hb.lt
  | relu ha | sum ha =>
    intro a hmem
    rw [List.mem_singleton.mp hmem]
    exact ha.lt

end Shapes

/-! ## What an operation creates -/

variable {h : Heap K} {r c : Nat}

/-- The entries of the result of an operation. -/
def value (h : Heap K) (op : Ctx) : Nat → Nat → K := combine h.rows h.cols h.entries op

/-- On operands of agreeing shapes an operation succeeds with the table of its values. -/
theorem operate_ok {op : Ctx} (ht : h.Typed op r c) (prev : List Nat) :
    h.operate prev op = .ok (h.tensor (ofFn r c (h.value op)) op prev) := by
  cases ht with
  | @add a b _ _ ha hb =>
    rw [operate, Heap.add, Linalg.add_ok ha.shaped hb.shaped ha.rows]
    rfl
  | @mul a b _ _ ha hb =>
    obtain ⟨row, hrow, hc⟩ := first_row ha.shaped ha.rows
    have hdata : ((List.range (h.data a).length).mapM fun r => do
        let row ← item (h.data a) 0
        (List.range row.length).mapM fun c => do
          let x ← (h.data a).cell r c
          let y ← (h.data b).cell r c
          return x * y) = .ok (ofFn r c (h.value (.mul a b))) := by
      rw [ha.shaped.1]
      refine mapM_ok fun i hi => ?_
      rw [hrow]
      show (List.range row.length).mapM _ = _
      rw [hc]
      refine mapM_ok fun j hj => ?_
      rw [cell_ok ha.shaped (List.mem_range.mp hi) (List.mem_range.mp hj),
        cell_ok hb.shaped (List.mem_range.mp hi) (List.mem_range.mp hj)]
      rfl
    rw [operate, Heap.mul, hdata]
    rfl
  | @matmul a b _ k _ ha hb =>
    rw [operate, Heap.matmul, Linalg.matmul_ok ha.shaped hb.shaped ha.rows hb.rows, value, combine,
      ha.cols_eq]
    rfl
  | @relu a _ _ ha =>
    have hdata : Linalg.relu (h.data a) = ofFn r c (h.value (.relu a)) := by
      refine ext_entry (shaped_map ha.shaped _) (shaped_ofFn r c _) fun i hi j hj => ?_
      rw [entry_ofFn _ hi hj, Linalg.relu, entry_map ha.shaped _ hi hj]
      rfl
    rw [operate, Heap.relu, hdata]
  | @sum a r' c' ha =>
    have hdata : [[Linalg.sumMatrix (h.data a)]] = ofFn 1 1 (h.value (.sum a)) := by
      rw [Linalg.sumMatrix_eq ha.shaped, value, combine, ha.rows_eq, ha.cols_eq]
      rfl
    rw [operate, Heap.sum, hdata]

/-- What a heap built by the operations satisfies. -/
structure WellFormed (h : Heap K) : Prop where
  shaped : ∀ v < h.length, ∃ r c, h.HasShape v r c
  computed : ∀ v, h.ctx v ≠ .leaf → ∃ r c, h.HasShape v r c ∧ h.Typed (h.ctx v) r c ∧
    ∀ i < r, ∀ j < c, h.entries v i j = h.value (h.ctx v) i j
  older : ∀ v, ∀ a ∈ (h.ctx v).children, a < v
  prev : ∀ v, (h.prev v).Perm (h.ctx v).children.dedup
  unset : ∀ v, h.grad v = none

omit [CommRing K] [LinearOrder K] in
theorem out_of_range {v : Nat} (hv : h.length ≤ v) :
    h.ctx v = .leaf ∧ h.prev v = [] ∧ h.grad v = none := by
  have hnone : h[v]? = none := List.getElem?_eq_none hv
  simp [ctx, Heap.prev, grad, hnone]

theorem combine_congr {rows rows' cols cols' : Nat → Nat} {x x' : Nat → Nat → Nat → K} {op : Ctx}
    (hop : ∀ a ∈ op.children, rows a = rows' a ∧ cols a = cols' a ∧ x a = x' a) :
    combine rows cols x op = combine rows' cols' x' op := by
  cases op with
  | leaf => rfl
  | add a b | mul a b | matmul a b =>
    obtain ⟨-, hcols, hx⟩ := hop a (by simp [Ctx.children])
    obtain ⟨-, -, hx'⟩ := hop b (by simp [Ctx.children])
    simp only [combine, hcols, hx, hx']
  | relu a | sum a =>
    obtain ⟨hrows, hcols, hx⟩ := hop a (by simp [Ctx.children])
    simp only [combine, hrows, hcols, hx]

theorem value_tensor {op op' : Ctx} (hop : ∀ a ∈ op.children, a < h.length) (data : Matrix K)
    (prev : List Nat) : (h.tensor data op' prev).value op = h.value op := by
  refine combine_congr fun a ha => ?_
  have hdata := (data_tensor_of_lt data op' prev (hop a ha)).1
  refine ⟨?_, ?_, ?_⟩
  · rw [rows, rows, hdata]
  · rw [cols, cols, hdata]
  · funext i j
    rw [entries, entries, hdata]

omit [CommRing K] [LinearOrder K] in
/-- A tensor of the longer heap is an old one, the new one or out of range. -/
theorem tensor_cases (h : Heap K) (data : Matrix K) (op : Ctx) (prev : List Nat) (v : Nat) :
    (v < h.length ∧ (h.tensor data op prev).ctx v = h.ctx v ∧
      (h.tensor data op prev).prev v = h.prev v ∧ (h.tensor data op prev).grad v = h.grad v) ∨
    (v = h.length ∧ (h.tensor data op prev).ctx v = op ∧
      (h.tensor data op prev).prev v = prev ∧ (h.tensor data op prev).grad v = none) ∨
    ((h.tensor data op prev).length ≤ v ∧ (h.tensor data op prev).ctx v = .leaf ∧
      (h.tensor data op prev).prev v = [] ∧ (h.tensor data op prev).grad v = none) := by
  have hlen : (h.tensor data op prev).length = h.length + 1 := by simp [Heap.tensor]
  rcases Nat.lt_trichotomy v h.length with hlt | rfl | hgt
  · exact Or.inl ⟨hlt, (data_tensor_of_lt data op prev hlt).2⟩
  · exact Or.inr (Or.inl ⟨rfl, (data_tensor_self h data op prev).2⟩)
  · have hge : (h.tensor data op prev).length ≤ v := by omega
    exact Or.inr (Or.inr ⟨hge, out_of_range hge⟩)

/-- Creating a tensor from older ones keeps the heap well formed. -/
theorem WellFormed.tensor (hw : h.WellFormed) {op : Ctx} {prev : List Nat} {data : Matrix K}
    (hr : 0 < r) (hc : 0 < c) (hdata : data.Shaped r c) (hprev : prev.Perm op.children.dedup)
    (hop : op ≠ .leaf → h.Typed op r c ∧ ∀ i < r, ∀ j < c, data.entry i j = h.value op i j) :
    (h.tensor data op prev).WellFormed := by
  have hself := (data_tensor_self h data op prev).1
  have hnew : (h.tensor data op prev).HasShape h.length r c :=
    ⟨by simp [Heap.tensor], hr, hc, by rw [hself]; exact hdata⟩
  have hcases := h.tensor_cases data op prev
  constructor
  · intro v hv
    rcases hcases v with ⟨hlt, _⟩ | ⟨rfl, _⟩ | ⟨hge, _⟩
    · obtain ⟨r', c', hs⟩ := hw.shaped v hlt
      exact ⟨r', c', hs.tensor⟩
    · exact ⟨r, c, hnew⟩
    · omega
  · intro v hv
    rcases hcases v with ⟨hlt, hctx, _⟩ | ⟨rfl, hctx, _⟩ | ⟨_, hctx, _⟩
    · rw [hctx] at hv ⊢
      obtain ⟨r', c', hs, ht, hval⟩ := hw.computed v hv
      refine ⟨r', c', hs.tensor, ht.tensor, fun i hi j hj => ?_⟩
      rw [entries, (data_tensor_of_lt data op prev hlt).1, value_tensor ht.children_lt]
      exact hval i hi j hj
    · rw [hctx] at hv ⊢
      obtain ⟨ht, hval⟩ := hop hv
      refine ⟨r, c, hnew, ht.tensor, fun i hi j hj => ?_⟩
      rw [entries, hself, value_tensor ht.children_lt]
      exact hval i hi j hj
    · exact absurd hctx hv
  · intro v a ha
    rcases hcases v with ⟨_, hctx, _⟩ | ⟨rfl, hctx, _⟩ | ⟨_, hctx, _⟩ <;> rw [hctx] at ha
    · exact hw.older v a ha
    · by_cases hleaf : op = .leaf
      · rw [hleaf] at ha
        cases ha
      · exact (hop hleaf).1.children_lt a ha
    · cases ha
  · intro v
    rcases hcases v with ⟨_, hctx, hp, _⟩ | ⟨_, hctx, hp, _⟩ | ⟨_, hctx, hp, _⟩ <;> rw [hctx, hp]
    · exact hw.prev v
    · exact hprev
    · exact List.Perm.nil
  · intro v
    rcases hcases v with ⟨_, _, _, hg⟩ | ⟨_, _, _, hg⟩ | ⟨_, _, _, hg⟩ <;> rw [hg]
    exact hw.unset v

theorem Built.wellFormed (hb : Built h) : h.WellFormed := by
  induction hb with
  | empty =>
    refine ⟨nofun, fun v hv => absurd (out_of_range (Nat.zero_le v)).1 hv, fun v a ha => ?_,
      fun v => List.Perm.nil, fun v => rfl⟩
    cases ha
  | leaf _ hr hc hdata ih => exact ih.tensor hr hc hdata List.Perm.nil fun hop => absurd rfl hop
  | @operation h h' op r c prev _ ht hprev hok ih =>
    rw [operate_ok ht prev] at hok
    cases hok
    have hpos : 0 < r ∧ 0 < c := by
      cases ht with
      | add ha hb | mul ha hb => exact ⟨ha.rows, ha.cols⟩
      | matmul ha hb => exact ⟨ha.rows, hb.cols⟩
      | relu ha => exact ⟨ha.rows, ha.cols⟩
      | sum ha => exact ⟨Nat.one_pos, Nat.one_pos⟩
    exact ih.tensor hpos.1 hpos.2 (shaped_ofFn r c _) hprev fun _ =>
      ⟨ht, fun i hi j hj => entry_ofFn _ hi hj⟩

end Heap

end PythonPortfolio.Synapse
