import PythonPortfolio.Synapse.Optim

/-!
# The training demo

A network of two layers, trained by looping over the samples: each epoch builds a new
graph on top of the parameters, adds up the squared errors, and takes one step against
the gradient. Weights are drawn at random in the source and passed in here. Each
forward pass is followed on a clean copy of the heap, where everything older than the
epoch is a leaf.
-/

namespace PythonPortfolio.Synapse

open Library Synapse.Matrix Finset

/-- `self.weights` and `self.bias`. -/
structure Layer where
  weights : Nat
  bias : Nat

structure MLP where
  l1 : Layer
  l2 : Layer

namespace Layer

variable {K : Type} [CommRing K]

/-- `Layer(n_in, n_out)`, where `randn(n_in, n_out)` gives `weights`. -/
def init (h : Heap K) (weights : Matrix K) (nOut : Nat) : Heap K × Layer :=
  ((h.tensor weights .leaf []).tensor (Linalg.zeros 1 nOut) .leaf [], ⟨h.length, h.length + 1⟩)

/-- `x.matmul(self.weights) + self.bias`. -/
def call [LinearOrder K] (set : List Nat → List Nat) (l : Layer) (h : Heap K) (x : Nat) :
    Except PyError (Heap K × Nat) := do
  let (h, y) ← h.create set (.matmul x l.weights)
  h.create set (.add y l.bias)

def parameters (l : Layer) : List Nat := [l.weights, l.bias]

end Layer

namespace MLP

variable {K : Type} [CommRing K]

/-- `MLP()`, on weights drawn for the two layers. -/
def init (w1 w2 : Matrix K) : Heap K × MLP :=
  let (h, l1) := Layer.init [] w1 4
  let (h, l2) := Layer.init h w2 1
  (h, ⟨l1, l2⟩)

def call [LinearOrder K] (set : List Nat → List Nat) (m : MLP) (h : Heap K) (x : Nat) :
    Except PyError (Heap K × Nat) := do
  let (h, y) ← m.l1.call set h x
  let (h, hidden) ← h.create set (.relu y)
  m.l2.call set h hidden

def parameters (m : MLP) : List Nat := m.l1.parameters ++ m.l2.parameters

end MLP

section Loop

variable {K : Type} [CommRing K] [LinearOrder K]

/-- The body of the loop over the samples: the tensors of `x` and `y`, the prediction,
its squared error, and the sum so far. -/
def addLoss (set : List Nat → List Nat) (model : MLP) (xRaw yRaw : List K) (h : Heap K)
    (totalLoss : Nat) : Except PyError (Heap K × Nat) := do
  let (h, x) := (h.tensor [xRaw] .leaf [], h.length)
  let (h, y) := (h.tensor [yRaw] .leaf [], h.length)
  let (h, pred) ← model.call set h x
  let (h, minus) := (h.tensor [[-1]] .leaf [], h.length)
  let (h, neg) ← h.create set (.mul y minus)
  let (h, diff) ← h.create set (.add pred neg)
  let (h, loss) ← h.create set (.mul diff diff)
  let (h, loss) ← h.create set (.sum loss)
  h.create set (.add totalLoss loss)

def addLosses (set : List Nat → List Nat) (model : MLP) :
    List (List K × List K) → Heap K → Nat → Except PyError (Heap K × Nat)
  | [], h, totalLoss => .ok (h, totalLoss)
  | (xRaw, yRaw) :: samples, h, totalLoss => do
    let (h, totalLoss) ← addLoss set model xRaw yRaw h totalLoss
    addLosses set model samples h totalLoss

/-- One epoch, and the loss it prints. -/
def epoch (set : List Nat → List Nat) (limit : Nat) (model : MLP) (optimizer : SGD K)
    (samples : List (List K × List K)) (h : Heap K) : Except PyError (Heap K × K) := do
  let (h, totalLoss) ← addLosses set model samples (h.tensor [[0]] .leaf []) h.length
  let h ← (optimizer.zeroGrad h).backward limit totalLoss
  let h ← optimizer.step h
  let loss ← (h.data totalLoss).cell 0 0
  return (h, loss)

/-- The training loop, with the loss of every epoch. -/
def train (set : List Nat → List Nat) (limit : Nat) (model : MLP) (optimizer : SGD K)
    (samples : List (List K × List K)) : Nat → Heap K → Except PyError (Heap K × List K)
  | 0, h => .ok (h, [])
  | epochs + 1, h => do
    let (h, loss) ← epoch set limit model optimizer samples h
    let (h, losses) ← train set limit model optimizer samples epochs h
    return (h, loss :: losses)

/-- The final predictions. -/
def predict (set : List Nat → List Nat) (model : MLP) : List (List K) → Heap K →
    Except PyError (List K)
  | [], _ => .ok []
  | xRaw :: xs, h => do
    let (h, x) := (h.tensor [xRaw] .leaf [], h.length)
    let (h, pred) ← model.call set h x
    let out ← (h.data pred).cell 0 0
    let outs ← predict set model xs h
    return out :: outs

/-- The losses and the final predictions, from the weights drawn for the two layers. -/
def main (set : List Nat → List Nat) (limit : Nat) (lr : K) (xs ys : List (List K)) (epochs : Nat)
    (w1 w2 : Matrix K) : Except PyError (List K × List K) := do
  let (h, model) := MLP.init w1 w2
  let (h, losses) ← train set limit model ⟨model.parameters, lr⟩ (xs.zip ys) epochs h
  let outs ← predict set model xs h
  return (losses, outs)

end Loop

/-! ## A clean copy -/

section Mirror

variable {K : Type} {o : SGD K} {n : Nat}

/-- What a pass that starts with `n` tensors can see: what it creates, and the parameters. -/
def Live (o : SGD K) (n v : Nat) : Prop := n ≤ v ∨ v ∈ o.parameters

theorem zeroGrad_tensor {h : Heap K} (hbound : ∀ p ∈ o.parameters, p < h.length) (d : Matrix K)
    (op : Ctx) (prev : List Nat) :
    o.zeroGrad (h.tensor d op prev) = (o.zeroGrad h).tensor d op prev := by
  refine List.ext_getElem? fun v => ?_
  rw [SGD.getElem?_zeroGrad, Heap.tensor, Heap.tensor]
  by_cases hv : v < h.length
  · rw [List.getElem?_append_left hv, List.getElem?_append_left (by rwa [SGD.length_zeroGrad]),
      SGD.getElem?_zeroGrad]
  · rw [if_neg fun hp => hv (hbound v hp), List.getElem?_append_right (Nat.le_of_not_lt hv),
      List.getElem?_append_right (by rw [SGD.length_zeroGrad]; omega), SGD.length_zeroGrad]

theorem Heap.Shows.tensor {seen : Nat → Prop} {h k : Heap K} (hs : Heap.Shows seen h k)
    (hlen : h.length = k.length) (d : Matrix K) (op : Ctx) (prev : List Nat) :
    Heap.Shows seen (h.tensor d op prev) (k.tensor d op prev) := by
  intro v hv
  rw [Heap.tensor, Heap.tensor]
  by_cases hlt : v < h.length
  · rw [List.getElem?_append_left hlt, List.getElem?_append_left (hlen ▸ hlt), hs v hv]
  · rw [List.getElem?_append_right (Nat.le_of_not_lt hlt),
      List.getElem?_append_right (hlen ▸ Nat.le_of_not_lt hlt), hlen]

variable [CommRing K] [LinearOrder K]

/-- `k` is a graph without gradients that holds the live tensors of `h`; the tensors that
were there before are leaves of it. -/
structure Mirror (o : SGD K) (n : Nat) (h k : Heap K) : Prop where
  built : k.Built
  length : h.length = k.length
  bound : ∀ p ∈ o.parameters, p < n
  start : n ≤ k.length
  old : ∀ v < n, k.ctx v = .leaf
  shows : Heap.Shows (Live o n) (o.zeroGrad h) k
  closed : ∀ v, Live o n v → ∀ w ∈ k.prev v, Live o n w

variable {h k : Heap K}

theorem Mirror.data (hm : Mirror o n h k) {v : Nat} (hv : Live o n v) : h.data v = k.data v := by
  rw [← hm.shows.data hv, SGD.data_zeroGrad]

theorem Mirror.tensor (hm : Mirror o n h k) {d : Matrix K} {op : Ctx} {prev : List Nat}
    (hb : (k.tensor d op prev).Built) (hprev : ∀ w ∈ prev, Live o n w) :
    Mirror o n (h.tensor d op prev) (k.tensor d op prev) := by
  have hstart := hm.start
  have hlen := hm.length
  refine ⟨hb, by simp [Heap.tensor, hlen], hm.bound, by simp [Heap.tensor]; omega, fun v hv => ?_,
    ?_, fun v hv w hw => ?_⟩
  · rw [(Heap.data_tensor_of_lt d op prev (hv.trans_le hstart)).2.1]
    exact hm.old v hv
  · rw [zeroGrad_tensor fun p hp => (hm.bound p hp).trans_le (hlen ▸ hstart)]
    exact hm.shows.tensor (by rw [SGD.length_zeroGrad, hlen]) d op prev
  · rcases k.tensor_cases d op prev v with ⟨_, _, hp, _⟩ | ⟨_, _, hp, _⟩ | ⟨_, _, hp, _⟩ <;>
      rw [hp] at hw
    · exact hm.closed v hv w hw
    · exact hprev w hw
    · cases hw

omit [CommRing K] [LinearOrder K] in
theorem Heap.Typed.pos {op : Ctx} {r c : Nat} (ht : k.Typed op r c) : 0 < r ∧ 0 < c := by
  cases ht with
  | add ha hb | mul ha hb => exact ⟨ha.rows, ha.cols⟩
  | matmul ha hb => exact ⟨ha.rows, hb.cols⟩
  | relu ha => exact ⟨ha.rows, ha.cols⟩
  | sum ha => exact ⟨Nat.one_pos, Nat.one_pos⟩

omit [CommRing K] [LinearOrder K] in
theorem Heap.Typed.congr {op : Ctx} {r c : Nat} (ht : k.Typed op r c)
    (hshape : ∀ a ∈ op.children, ∀ r c, k.HasShape a r c → h.HasShape a r c) : h.Typed op r c := by
  cases ht with
  | add ha hb =>
    exact .add (hshape _ List.mem_cons_self _ _ ha)
      (hshape _ (List.mem_cons_of_mem _ List.mem_cons_self) _ _ hb)
  | mul ha hb =>
    exact .mul (hshape _ List.mem_cons_self _ _ ha)
      (hshape _ (List.mem_cons_of_mem _ List.mem_cons_self) _ _ hb)
  | matmul ha hb =>
    exact .matmul (hshape _ List.mem_cons_self _ _ ha)
      (hshape _ (List.mem_cons_of_mem _ List.mem_cons_self) _ _ hb)
  | relu ha => exact .relu (hshape _ List.mem_cons_self _ _ ha)
  | sum ha => exact .sum (hshape _ List.mem_cons_self _ _ ha)

/-- Tensor `v` was made by `op` and has `r` rows and `c` columns. -/
structure Heap.Holds (k : Heap K) (v : Nat) (op : Ctx) (r c : Nat) : Prop where
  ctx : k.ctx v = op
  shape : k.HasShape v r c

omit [CommRing K] [LinearOrder K] in
theorem Heap.Holds.of_prefix {k' : Heap K} {v r c : Nat} {op : Ctx} (hv : k.Holds v op r c)
    (hpre : k <+: k') : k'.Holds v op r c := by
  refine ⟨?_, hv.shape.of_prefix hpre⟩
  obtain ⟨ts, rfl⟩ := hpre
  rw [← hv.ctx, Heap.ctx, Heap.ctx, List.getElem?_append_left hv.shape.lt]

omit [CommRing K] [LinearOrder K] in
theorem Heap.HasShape.data_of_prefix {k' : Heap K} {v r c : Nat} (hs : k.HasShape v r c)
    (hpre : k <+: k') : k'.data v = k.data v := by
  obtain ⟨ts, rfl⟩ := hpre
  rw [Heap.data, Heap.data, List.getElem?_append_left hs.lt]

/-- The computation goes through: it creates tensors up to number `v`, which it returns,
and of the copy with these tensors `P` holds. -/
def Grows (o : SGD K) (n : Nat) (k : Heap K) (x : Except PyError (Heap K × Nat)) (v : Nat)
    (P : Heap K → Prop) : Prop :=
  ∃ h' k', x = .ok (h', v) ∧ Mirror o n h' k' ∧ k <+: k' ∧ k'.length = v + 1 ∧ P k'

theorem Grows.bind {x : Except PyError (Heap K × Nat)} {v w : Nat} {P Q : Heap K → Prop}
    {f : Heap K × Nat → Except PyError (Heap K × Nat)} (hx : Grows o n k x v P)
    (hf : ∀ h' k', Mirror o n h' k' → k <+: k' → k'.length = v + 1 → P k' →
      Grows o n k' (f (h', v)) w Q) : Grows o n k (x >>= f) w Q := by
  obtain ⟨h₁, k₁, rfl, hm, hpre, hlen, hP⟩ := hx
  obtain ⟨h₂, k₂, hok, hm', hpre', hlen', hQ⟩ := hf h₁ k₁ hm hpre hlen hP
  exact ⟨h₂, k₂, hok, hm', hpre.trans hpre', hlen', hQ⟩

theorem Grows.mono {x : Except PyError (Heap K × Nat)} {v : Nat} {P Q : Heap K → Prop}
    (hx : Grows o n k x v P) (hPQ : ∀ k', k <+: k' → P k' → Q k') : Grows o n k x v Q := by
  obtain ⟨h', k', hok, hm, hpre, hlen, hP⟩ := hx
  exact ⟨h', k', hok, hm, hpre, hlen, hPQ k' hpre hP⟩

theorem Grows.after {k₀ : Heap K} {x : Except PyError (Heap K × Nat)} {v : Nat} {P : Heap K → Prop}
    (hx : Grows o n k x v P) (hpre : k₀ <+: k) : Grows o n k₀ x v P := by
  obtain ⟨h', k', hok, hm, hpre', hlen, hP⟩ := hx
  exact ⟨h', k', hok, hm, hpre.trans hpre', hlen, hP⟩

/-- `Tensor(data)`. -/
theorem Mirror.leaf (hm : Mirror o n h k) {v : Nat} (hv : k.length = v) {d : Matrix K} {r c : Nat}
    (hr : 0 < r) (hc : 0 < c) (hd : d.Shaped r c) :
    ∃ k', Mirror o n (h.tensor d .leaf []) k' ∧ k <+: k' ∧ k'.length = v + 1 ∧
      k'.Holds v .leaf r c ∧ k'.data v = d := by
  subst hv
  have hnew := Heap.creates_tensor k .leaf [] hr hc hd
  refine ⟨_, hm.tensor (.leaf hm.built hr hc hd) fun w hw => ?_, hnew.keeps, by simp [Heap.tensor],
    ⟨hnew.ctx, hnew.shape⟩, (Heap.data_tensor_self k d .leaf []).1⟩
  cases hw

/-- An operation on live tensors of agreeing shapes. -/
theorem Mirror.create (hm : Mirror o n h k) {v : Nat} (hv : k.length = v)
    {set : List Nat → List Nat} (hset : ∀ l, (set l).Perm l.dedup) {op : Ctx} {r c : Nat}
    (ht : k.Typed op r c) (hlive : ∀ a ∈ op.children, Live o n a) :
    Grows o n k (h.create set op) v fun k' => k'.Holds v op r c := by
  subst hv
  have hsame : ∀ a ∈ op.children, h.data a = k.data a := fun a ha => hm.data (hlive a ha)
  have hlen := hm.length
  have ht' : h.Typed op r c := ht.congr fun a ha r c hs =>
    ⟨hlen ▸ hs.lt, hs.rows, hs.cols, by rw [hsame a ha]; exact hs.shaped⟩
  have hvalue : h.value op = k.value op := by
    refine Heap.combine_congr fun a ha => ⟨?_, ?_, ?_⟩
    · rw [Heap.rows, Heap.rows, hsame a ha]
    · rw [Heap.cols, Heap.cols, hsame a ha]
    · funext i j
      rw [Heap.entries, Heap.entries, hsame a ha]
  have hok := Heap.operate_ok ht' (set op.children)
  have hok' := Heap.operate_ok ht (set op.children)
  rw [hvalue] at hok
  have hb : (k.tensor (ofFn r c (k.value op)) op (set op.children)).Built :=
    .operation hm.built ht (hset _) hok'
  have hself := Heap.data_tensor_self k (ofFn r c (k.value op)) op (set op.children)
  have hpos := ht.pos
  refine ⟨_, _, ?_, hm.tensor hb fun w hw => hlive w ?_, List.prefix_append _ _,
    by simp [Heap.tensor], hself.2.1, by simp [Heap.tensor], hpos.1, hpos.2, ?_⟩
  · rw [Heap.create, hok, hlen]
    rfl
  · exact List.mem_dedup.mp ((hset _).mem_iff.mp hw)
  · rw [hself.1]
    exact shaped_ofFn r c _

end Mirror

/-! ## The graph of a sample -/

/-- The weights take `r` inputs to `c` outputs. -/
structure Layer.HasShape {K : Type} (h : Heap K) (l : Layer) (r c : Nat) : Prop where
  weights : h.HasShape l.weights r c
  bias : h.HasShape l.bias 1 c

structure MLP.HasShape {K : Type} (h : Heap K) (model : MLP) (m width : Nat) : Prop where
  l1 : model.l1.HasShape h m width
  l2 : model.l2.HasShape h width 1

/-- The tensors that `l(x)` creates, from number `v` on. -/
structure Layer.Graph {K : Type} (k : Heap K) (l : Layer) (r c x v : Nat) : Prop where
  input : k.HasShape x 1 r
  shape : l.HasShape k r c
  product : k.Holds v (.matmul x l.weights) 1 c
  sum : k.Holds (v + 1) (.add v l.bias) 1 c

/-- The tensors that `model(x)` creates, from number `v` on. -/
structure MLP.Graph {K : Type} (k : Heap K) (model : MLP) (m width x v : Nat) : Prop where
  l1 : model.l1.Graph k m width x v
  relu : k.Holds (v + 2) (.relu (v + 1)) 1 width
  l2 : model.l2.Graph k width 1 (v + 2) (v + 3)

section Graph

variable {K : Type} {k k' : Heap K} {n r c m width : Nat}

theorem Layer.HasShape.of_prefix {l : Layer} (hl : l.HasShape k r c) (hpre : k <+: k') :
    l.HasShape k' r c :=
  ⟨hl.weights.of_prefix hpre, hl.bias.of_prefix hpre⟩

theorem MLP.HasShape.of_prefix {model : MLP} (hmodel : model.HasShape k m width)
    (hpre : k <+: k') : model.HasShape k' m width :=
  ⟨hmodel.l1.of_prefix hpre, hmodel.l2.of_prefix hpre⟩

theorem Layer.Graph.of_prefix {l : Layer} {x v : Nat} (hg : l.Graph k r c x v) (hpre : k <+: k') :
    l.Graph k' r c x v :=
  ⟨hg.input.of_prefix hpre, hg.shape.of_prefix hpre, hg.product.of_prefix hpre,
    hg.sum.of_prefix hpre⟩

theorem MLP.Graph.of_prefix {model : MLP} {x v : Nat} (hg : model.Graph k m width x v)
    (hpre : k <+: k') : model.Graph k' m width x v :=
  ⟨hg.l1.of_prefix hpre, hg.relu.of_prefix hpre, hg.l2.of_prefix hpre⟩

variable [CommRing K] [LinearOrder K] {o : SGD K} {h : Heap K} {set : List Nat → List Nat}

theorem Layer.grows {l : Layer} (hset : ∀ l, (set l).Perm l.dedup) (hm : Mirror o n h k)
    {x v : Nat} (hv : k.length = v) (hl : l.HasShape k r c)
    (hlive : ∀ p ∈ l.parameters, p ∈ o.parameters) (hx : k.HasShape x 1 r) (hseen : Live o n x) :
    Grows o n k (l.call set h x) (v + 1) fun k' => l.Graph k' r c x v := by
  have hweights : Live o n l.weights := Or.inr (hlive _ List.mem_cons_self)
  have hbias : Live o n l.bias := Or.inr (hlive _ (List.mem_cons_of_mem _ List.mem_cons_self))
  have hstart := hm.start
  refine (hm.create hv hset (.matmul hx hl.weights) ?_).bind
    fun h₁ k₁ hm₁ hpre₁ hlen₁ hproduct => ?_
  · simpa [Ctx.children] using ⟨hseen, hweights⟩
  have hl₁ := hl.of_prefix hpre₁
  refine (hm₁.create hlen₁ hset (.add hproduct.shape hl₁.bias) ?_).mono fun k₂ hpre₂ hsum => ?_
  · have hnew : Live o n v := Or.inl (hv ▸ hstart)
    simpa [Ctx.children] using ⟨hnew, hbias⟩
  · exact ⟨hx.of_prefix (hpre₁.trans hpre₂), hl₁.of_prefix hpre₂, hproduct.of_prefix hpre₂,
      hsum⟩

theorem MLP.grows {model : MLP} (hset : ∀ l, (set l).Perm l.dedup) (hm : Mirror o n h k)
    {x v : Nat} (hv : k.length = v) (hmodel : model.HasShape k m width)
    (hlive : ∀ p ∈ model.parameters, p ∈ o.parameters) (hx : k.HasShape x 1 m)
    (hseen : Live o n x) :
    Grows o n k (model.call set h x) (v + 4) fun k' => model.Graph k' m width x v := by
  have hstart : n ≤ v := hv ▸ hm.start
  have hlive₁ : ∀ p ∈ model.l1.parameters, p ∈ o.parameters :=
    fun p hp => hlive p (List.mem_append_left _ hp)
  have hlive₂ : ∀ p ∈ model.l2.parameters, p ∈ o.parameters :=
    fun p hp => hlive p (List.mem_append_right _ hp)
  refine (Layer.grows hset hm hv hmodel.l1 hlive₁ hx hseen).bind fun h₁ k₁ hm₁ hpre₁ hlen₁ hl₁ => ?_
  refine (hm₁.create hlen₁ hset (.relu hl₁.sum.shape) ?_).bind fun h₂ k₂ hm₂ hpre₂ hlen₂ hrelu => ?_
  · have hnew : Live o n (v + 1) := Or.inl (by omega)
    simpa [Ctx.children] using hnew
  have hl₂ := hmodel.l2.of_prefix (hpre₁.trans hpre₂)
  refine (Layer.grows hset hm₂ hlen₂ hl₂ hlive₂ hrelu.shape (Or.inl (by omega))).mono ?_
  intro k₃ hpre₃ hl₃
  exact ⟨hl₁.of_prefix (hpre₂.trans hpre₃), hrelu.of_prefix hpre₃, hl₃⟩

end Graph

/-- The tensors that one sample adds, from number `v` on. -/
structure SampleGraph {K : Type} [CommRing K] (k : Heap K) (model : MLP) (m width : Nat)
    (xRaw yRaw : List K) (total v : Nat) : Prop where
  x : k.Holds v .leaf 1 m
  y : k.Holds (v + 1) .leaf 1 1
  pred : model.Graph k m width v (v + 2)
  minus : k.Holds (v + 7) .leaf 1 1
  neg : k.Holds (v + 8) (.mul (v + 1) (v + 7)) 1 1
  diff : k.Holds (v + 9) (.add (v + 6) (v + 8)) 1 1
  square : k.Holds (v + 10) (.mul (v + 9) (v + 9)) 1 1
  loss : k.Holds (v + 11) (.sum (v + 10)) 1 1
  total : k.Holds (v + 12) (.add total (v + 11)) 1 1
  xData : k.data v = [xRaw]
  yData : k.data (v + 1) = [yRaw]
  minusData : k.data (v + 7) = [[-1]]

/-- The losses of the samples are added up: `totalLoss` is the number of the sum. -/
inductive Sums {K : Type} [CommRing K] (k : Heap K) (model : MLP) (m width : Nat) :
    Nat → List (List K × List K) → Nat → Nat → Prop
  | nil {total v : Nat} : Sums k model m width total [] v total
  | cons {xRaw yRaw : List K} {samples : List (List K × List K)} {total v totalLoss : Nat}
      (hfirst : SampleGraph k model m width xRaw yRaw total v)
      (hrest : Sums k model m width (v + 12) samples (v + 13) totalLoss) :
      Sums k model m width total ((xRaw, yRaw) :: samples) v totalLoss

section Samples

variable {K : Type} [CommRing K] [LinearOrder K] {o : SGD K} {h k k' : Heap K}
  {set : List Nat → List Nat} {model : MLP} {n m width total v : Nat}

omit [LinearOrder K] in
theorem SampleGraph.of_prefix {xRaw yRaw : List K}
    (hg : SampleGraph k model m width xRaw yRaw total v) (hpre : k <+: k') :
    SampleGraph k' model m width xRaw yRaw total v where
  x := hg.x.of_prefix hpre
  y := hg.y.of_prefix hpre
  pred := hg.pred.of_prefix hpre
  minus := hg.minus.of_prefix hpre
  neg := hg.neg.of_prefix hpre
  diff := hg.diff.of_prefix hpre
  square := hg.square.of_prefix hpre
  loss := hg.loss.of_prefix hpre
  total := hg.total.of_prefix hpre
  xData := (hg.x.shape.data_of_prefix hpre).trans hg.xData
  yData := (hg.y.shape.data_of_prefix hpre).trans hg.yData
  minusData := (hg.minus.shape.data_of_prefix hpre).trans hg.minusData

omit [CommRing K] [LinearOrder K] in
theorem shaped_row {row : List K} (hrow : row.length = m) : Shaped [row] 1 m :=
  ⟨rfl, fun r hr => by rw [List.mem_singleton.mp hr, hrow]⟩

theorem addLoss_grows (hset : ∀ l, (set l).Perm l.dedup) (hm : Mirror o n h k)
    (hv : k.length = v) (hmodel : model.HasShape k m width)
    (hlive : ∀ p ∈ model.parameters, p ∈ o.parameters) {xRaw yRaw : List K}
    (hx : xRaw.length = m) (hy : yRaw.length = 1) (htotal : k.HasShape total 1 1)
    (hseen : Live o n total) :
    Grows o n k (addLoss set model xRaw yRaw h total) (v + 12) fun k' =>
      SampleGraph k' model m width xRaw yRaw total v := by
  have hstart : n ≤ v := hv ▸ hm.start
  have hnew : ∀ i, Live o n (v + i) := fun i => Or.inl (by omega)
  have hone : Shaped [[(-1 : K)]] 1 1 := shaped_row rfl
  unfold addLoss
  obtain ⟨k₁, hm₁, hpre₁, hlen₁, hxnew, hxData⟩ :=
    hm.leaf hv Nat.one_pos hmodel.l1.weights.rows (shaped_row hx)
  obtain ⟨k₂, hm₂, hpre₂, hlen₂, hynew, hyData⟩ :=
    hm₁.leaf hlen₁ Nat.one_pos Nat.one_pos (shaped_row hy)
  have hnum : h.length = v := hm.length.trans hv
  have hnum₁ : (h.tensor [xRaw] .leaf []).length = v + 1 := hm₁.length.trans hlen₁
  have hpre := hpre₁.trans hpre₂
  have hx₂ := hxnew.of_prefix hpre₂
  simp only [hnum, hnum₁]
  refine Grows.after ?_ hpre
  refine (MLP.grows hset hm₂ hlen₂ (hmodel.of_prefix hpre) hlive hx₂.shape (hnew 0)).bind ?_
  intro h₃ k₃ hm₃ hpre₃ hlen₃ hpred
  obtain ⟨k₄, hm₄, hpre₄, hlen₄, hminus, hminusData⟩ := hm₃.leaf hlen₃ Nat.one_pos Nat.one_pos hone
  have hnum₃ : h₃.length = v + 7 := hm₃.length.trans hlen₃
  simp only [hnum₃]
  refine Grows.after ?_ hpre₄
  have hy₄ := hynew.of_prefix (hpre₃.trans hpre₄)
  refine (hm₄.create hlen₄ hset (.mul hy₄.shape hminus.shape) ?_).bind ?_
  · simpa [Ctx.children] using ⟨hnew 1, hnew 7⟩
  intro h₅ k₅ hm₅ hpre₅ hlen₅ hneg
  have hpred₅ := hpred.of_prefix (hpre₄.trans hpre₅)
  refine (hm₅.create hlen₅ hset (.add hpred₅.l2.sum.shape hneg.shape) ?_).bind ?_
  · simpa [Ctx.children] using ⟨hnew 6, hnew 8⟩
  intro h₆ k₆ hm₆ hpre₆ hlen₆ hdiff
  refine (hm₆.create hlen₆ hset (.mul hdiff.shape hdiff.shape) ?_).bind ?_
  · simpa [Ctx.children] using hnew 9
  intro h₇ k₇ hm₇ hpre₇ hlen₇ hsquare
  refine (hm₇.create hlen₇ hset (.sum hsquare.shape) ?_).bind ?_
  · simpa [Ctx.children] using hnew 10
  intro h₈ k₈ hm₈ hpre₈ hlen₈ hloss
  have hpre₃₈ : k₃ <+: k₈ := hpre₄.trans (hpre₅.trans (hpre₆.trans (hpre₇.trans hpre₈)))
  have htotal₈ := htotal.of_prefix (hpre.trans (hpre₃.trans hpre₃₈))
  refine (hm₈.create hlen₈ hset (.add htotal₈ hloss.shape) ?_).mono ?_
  · simpa [Ctx.children] using ⟨hseen, hnew 11⟩
  intro k₉ hpre₉ htotal₉
  have hpre₅₉ : k₅ <+: k₉ := hpre₆.trans (hpre₇.trans (hpre₈.trans hpre₉))
  have hpre₂₉ : k₂ <+: k₉ := hpre₃.trans (hpre₃₈.trans hpre₉)
  have hpre₄₉ : k₄ <+: k₉ := hpre₅.trans hpre₅₉
  exact
    { x := hx₂.of_prefix hpre₂₉
      y := hynew.of_prefix hpre₂₉
      pred := hpred₅.of_prefix hpre₅₉
      minus := hminus.of_prefix hpre₄₉
      neg := hneg.of_prefix hpre₅₉
      diff := hdiff.of_prefix (hpre₇.trans (hpre₈.trans hpre₉))
      square := hsquare.of_prefix (hpre₈.trans hpre₉)
      loss := hloss.of_prefix hpre₉
      total := htotal₉
      xData := (hxnew.shape.data_of_prefix (hpre₂.trans hpre₂₉)).trans hxData
      yData := (hynew.shape.data_of_prefix hpre₂₉).trans hyData
      minusData := (hminus.shape.data_of_prefix hpre₄₉).trans hminusData }

/-- The losses of the samples are added to what there is. -/
theorem addLosses_ok (hset : ∀ l, (set l).Perm l.dedup) (samples : List (List K × List K)) :
    ∀ {h k : Heap K} {total v : Nat}, Mirror o n h k → k.length = v → model.HasShape k m width →
      (∀ p ∈ model.parameters, p ∈ o.parameters) →
      (∀ s ∈ samples, s.1.length = m ∧ s.2.length = 1) → k.HasShape total 1 1 → n ≤ total →
      ∃ h' k' totalLoss, addLosses set model samples h total = .ok (h', totalLoss) ∧
        Mirror o n h' k' ∧ k <+: k' ∧ Sums k' model m width total samples v totalLoss ∧
        k'.length = v + 13 * samples.length ∧ k'.HasShape totalLoss 1 1 ∧ n ≤ totalLoss := by
  induction samples with
  | nil =>
    intro h k total v hm hv _ _ _ htotal hseen
    exact ⟨h, k, total, rfl, hm, List.prefix_rfl, .nil, hv, htotal, hseen⟩
  | cons s samples ih =>
    intro h k total v hm hv hmodel hlive hsamples htotal hseen
    obtain ⟨hx, hy⟩ := hsamples s List.mem_cons_self
    obtain ⟨h₁, k₁, hok₁, hm₁, hpre₁, hlen₁, hfirst⟩ :=
      addLoss_grows hset hm hv hmodel hlive hx hy htotal (Or.inl hseen)
    have hnew : n ≤ v + 12 := hm.start.trans (by omega)
    obtain ⟨h', k', totalLoss, hok, hm', hpre, hrest, hlen, htotal', hseen'⟩ :=
      ih hm₁ hlen₁ (hmodel.of_prefix hpre₁) hlive
        (fun s' hs' => hsamples s' (List.mem_cons_of_mem _ hs')) hfirst.total.shape hnew
    refine ⟨h', k', totalLoss, ?_, hm', hpre₁.trans hpre, .cons (hfirst.of_prefix hpre) hrest, ?_,
      htotal', hseen'⟩
    · rw [addLosses, hok₁]
      exact hok
    · rw [hlen, List.length_cons]
      omega

end Samples

end PythonPortfolio.Synapse
