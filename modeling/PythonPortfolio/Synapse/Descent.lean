import PythonPortfolio.Library.Perceptron
import PythonPortfolio.Synapse.Depth

/-!
# Training is gradient descent

The graph of an epoch computes the loss of a two-layer perceptron at the parameters, and
its tangents are the slope of that loss. So the training loop returns the iterates of
gradient descent: each epoch prints the loss at the parameters it starts from, and moves
them against the gradient of that loss.
-/

namespace PythonPortfolio.Synapse

open Library Library.Perceptron Synapse.Matrix Finset

section Values

variable {K : Type} [CommRing K] [LinearOrder K]

/-- The parameters in a table of entries. -/
def MLP.read (model : MLP) (m width : Nat) (x : Nat → Nat → Nat → K) :
    Params (Fin m) (Fin width) K where
  w1 i j := x model.l1.weights i j
  b1 j := x model.l1.bias 0 j
  w2 j := x model.l2.weights j 0
  b2 := x model.l2.bias 0 0

def inputs (m : Nat) (xRaw : List K) : Fin m → K := fun i => xRaw.getD i 0

def toSample (m : Nat) (s : List K × List K) : Sample (Fin m) K := ⟨inputs m s.1, s.2.getD 0 0⟩

/-! ## One operation -/

variable {k : Heap K} {model : MLP} {l : Layer} {m width r c t i j x v a b p q s : Nat}

theorem Heap.Holds.entries {op : Ctx} (hw : k.WellFormed) (hv : k.Holds v op r c)
    (hop : op ≠ .leaf) (hp : p < r) (hq : q < c) : k.entries v p q = k.value op p q := by
  obtain ⟨r', c', hs, -, hentries⟩ := hw.computed v (by rwa [hv.ctx])
  obtain ⟨rfl, rfl⟩ := hs.unique hv.shape
  rw [hentries p hp q hq, hv.ctx]

theorem tangent_of_lt (hw : k.WellFormed) (ht : t < v) :
    k.tangent t i j v = k.differential v (k.tangent t i j) :=
  Heap.tangent_of_ne hw (Nat.ne_of_gt ht)

theorem tangent_leaf (hw : k.WellFormed) (hv : k.Holds v .leaf r c) (ht : t < v) :
    k.tangent t i j v = 0 := by
  rw [tangent_of_lt hw ht, Heap.differential, hv.ctx]

section Entries

variable (hw : k.WellFormed) (hp : p < r) (hq : q < c)

include hw hp hq

theorem entries_add (hv : k.Holds v (.add a b) r c) :
    k.entries v p q = k.entries a p q + k.entries b p q := hv.entries hw nofun hp hq

theorem entries_mul (hv : k.Holds v (.mul a b) r c) :
    k.entries v p q = k.entries a p q * k.entries b p q := hv.entries hw nofun hp hq

theorem entries_relu (hv : k.Holds v (.relu a) r c) :
    k.entries v p q = max 0 (k.entries a p q) := hv.entries hw nofun hp hq

theorem entries_matmul (hv : k.Holds v (.matmul a b) r c) (ha : k.HasShape a r s) :
    k.entries v p q = ∑ x ∈ range s, k.entries a p x * k.entries b x q := by
  rw [hv.entries hw nofun hp hq, ← ha.cols_eq]
  rfl

end Entries

section Tangents

variable (hw : k.WellFormed) (ht : t < v)

include hw ht

theorem tangent_add (hv : k.Holds v (.add a b) r c) :
    k.tangent t i j v p q = k.tangent t i j a p q + k.tangent t i j b p q := by
  rw [tangent_of_lt hw ht, Heap.differential, hv.ctx]
  rfl

theorem tangent_mul (hv : k.Holds v (.mul a b) r c) : k.tangent t i j v p q =
    k.entries b p q * k.tangent t i j a p q + k.entries a p q * k.tangent t i j b p q := by
  rw [tangent_of_lt hw ht, Heap.differential, hv.ctx]
  rfl

theorem tangent_relu (hv : k.Holds v (.relu a) r c) :
    k.tangent t i j v p q = gate (k.entries a p q) * k.tangent t i j a p q := by
  rw [tangent_of_lt hw ht, Heap.differential, hv.ctx]
  rfl

theorem tangent_matmul (hv : k.Holds v (.matmul a b) r c) (ha : k.HasShape a r s) :
    k.tangent t i j v p q = ∑ x ∈ range s,
      (k.tangent t i j a p x * k.entries b x q + k.entries a p x * k.tangent t i j b x q) := by
  rw [tangent_of_lt hw ht, Heap.differential, hv.ctx, ← ha.cols_eq, sum_add_distrib]
  rfl

end Tangents

/-! ## The network -/

theorem Layer.Graph.entries (hw : k.WellFormed) (hg : l.Graph k r c x v) (hq : q < c) :
    k.entries (v + 1) 0 q =
      ∑ p ∈ range r, k.entries x 0 p * k.entries l.weights p q + k.entries l.bias 0 q := by
  rw [entries_add hw Nat.one_pos hq hg.sum, entries_matmul hw Nat.one_pos hq hg.product hg.input]

theorem Layer.Graph.tangent (hw : k.WellFormed) (hg : l.Graph k r c x v) (ht : t < v) :
    k.tangent t i j (v + 1) 0 q =
      ∑ p ∈ range r, (k.tangent t i j x 0 p * k.entries l.weights p q +
        k.entries x 0 p * k.tangent t i j l.weights p q) + k.tangent t i j l.bias 0 q := by
  rw [tangent_add hw (Nat.lt_succ_of_lt ht) hg.sum, tangent_matmul hw ht hg.product hg.input]

theorem MLP.Graph.hidden_eq (hw : k.WellFormed) (hg : model.Graph k m width x v) (q : Fin width) :
    k.entries (v + 1) 0 q =
      hidden (model.read m width k.entries) (fun p => k.entries x 0 p) q := by
  rw [hg.l1.entries hw q.isLt, sum_range]
  rfl

theorem MLP.Graph.output_eq (hw : k.WellFormed) (hg : model.Graph k m width x v) :
    k.entries (v + 4) 0 0 = output (model.read m width k.entries) fun p => k.entries x 0 p := by
  rw [hg.l2.entries hw Nat.one_pos, sum_range, output]
  congr 1
  refine sum_congr rfl fun q _ => ?_
  rw [entries_relu hw Nat.one_pos q.isLt hg.relu, hg.hidden_eq hw]
  rfl

/-- The change of the hidden layer, when the input does not change. -/
theorem MLP.Graph.hidden_tangent (hw : k.WellFormed) (hg : model.Graph k m width x v)
    (hx : k.tangent t i j x = 0) (ht : t < v) (q : Fin width) :
    k.tangent t i j (v + 1) 0 q =
      hidden (model.read m width (k.tangent t i j)) (fun p => k.entries x 0 p) q := by
  rw [hg.l1.tangent hw ht, sum_range, hx]
  simp only [Pi.zero_apply, zero_mul, zero_add]
  rfl

theorem MLP.Graph.output_tangent (hw : k.WellFormed) (hg : model.Graph k m width x v)
    (hx : k.tangent t i j x = 0) (ht : t < v) :
    k.tangent t i j (v + 4) 0 0 = outputSlope (model.read m width k.entries)
      (model.read m width (k.tangent t i j)) fun p => k.entries x 0 p := by
  rw [hg.l2.tangent hw (by omega), sum_range, outputSlope]
  congr 1
  refine sum_congr rfl fun q _ => ?_
  rw [tangent_relu hw (by omega) hg.relu, entries_relu hw Nat.one_pos q.isLt hg.relu,
    hg.hidden_tangent hw hx ht, hg.hidden_eq hw]
  rfl

/-! ## A sample -/

section Sample

variable {xRaw yRaw : List K} {total : Nat} (hw : k.WellFormed)
  (hg : SampleGraph k model m width xRaw yRaw total v)

include hw hg

theorem SampleGraph.diff_eq : k.entries (v + 9) 0 0 =
    residual (model.read m width k.entries) (toSample m (xRaw, yRaw)) := by
  have hx : (fun p : Fin m => k.entries v 0 p) = inputs m xRaw := by
    funext p
    rw [Heap.entries, hg.xData]
    rfl
  have hy : k.entries (v + 1) 0 0 = yRaw.getD 0 0 := by
    rw [Heap.entries, hg.yData]
    rfl
  have hminus : k.entries (v + 7) 0 0 = -1 := by
    rw [Heap.entries, hg.minusData]
    rfl
  rw [entries_add hw Nat.one_pos Nat.one_pos hg.diff, entries_mul hw Nat.one_pos Nat.one_pos hg.neg,
    hg.pred.output_eq hw, hx, hy, hminus, Perceptron.residual, toSample]
  ring

theorem SampleGraph.diff_tangent (ht : t < v) : k.tangent t i j (v + 9) 0 0 =
    outputSlope (model.read m width k.entries) (model.read m width (k.tangent t i j))
      (inputs m xRaw) := by
  have hx : (fun p : Fin m => k.entries v 0 p) = inputs m xRaw := by
    funext p
    rw [Heap.entries, hg.xData]
    rfl
  rw [tangent_add hw (by omega) hg.diff, tangent_mul hw (by omega) hg.neg,
    tangent_leaf hw hg.y (by omega), tangent_leaf hw hg.minus (by omega),
    hg.pred.output_tangent hw (tangent_leaf hw hg.x ht) (by omega), hx]
  simp

theorem SampleGraph.total_eq : k.entries (v + 12) 0 0 = k.entries total 0 0 +
    residual (model.read m width k.entries) (toSample m (xRaw, yRaw)) *
      residual (model.read m width k.entries) (toSample m (xRaw, yRaw)) := by
  have hsum : k.entries (v + 11) 0 0 = k.entries (v + 10) 0 0 := by
    rw [hg.loss.entries hw nofun Nat.one_pos Nat.one_pos, Heap.value, Heap.combine,
      hg.square.shape.rows_eq, hg.square.shape.cols_eq]
    simp
  rw [entries_add hw Nat.one_pos Nat.one_pos hg.total, hsum,
    entries_mul hw Nat.one_pos Nat.one_pos hg.square, hg.diff_eq hw]

theorem SampleGraph.total_tangent (ht : t < v) : k.tangent t i j (v + 12) 0 0 =
    k.tangent t i j total 0 0 +
      2 * residual (model.read m width k.entries) (toSample m (xRaw, yRaw)) *
        outputSlope (model.read m width k.entries) (model.read m width (k.tangent t i j))
          (inputs m xRaw) := by
  have hsum : k.tangent t i j (v + 11) 0 0 = k.tangent t i j (v + 10) 0 0 := by
    rw [tangent_of_lt hw (by omega), Heap.differential, hg.loss.ctx]
    simp only [hg.square.shape.rows_eq, hg.square.shape.cols_eq, sum_range_one]
  rw [tangent_add hw (by omega) hg.total, hsum, tangent_mul hw (by omega) hg.square,
    hg.diff_tangent hw ht, hg.diff_eq hw]
  ring

end Sample

/-- The sum is the loss of the samples, added to what there was. -/
theorem Sums.entries {samples : List (List K × List K)} {total totalLoss : Nat}
    (hw : k.WellFormed) (hs : Sums k model m width total samples v totalLoss) :
    k.entries totalLoss 0 0 = k.entries total 0 0 +
      loss (model.read m width k.entries) (samples.map (toSample m)) := by
  induction hs with
  | nil => simp [loss]
  | cons hfirst _ ih =>
    rw [ih, hfirst.total_eq hw, loss, loss, List.map_cons, List.map_cons, List.sum_cons, add_assoc]

theorem Sums.tangent {samples : List (List K × List K)} {total totalLoss : Nat}
    (hw : k.WellFormed) (hs : Sums k model m width total samples v totalLoss) (ht : t < v) :
    k.tangent t i j totalLoss 0 0 = k.tangent t i j total 0 0 +
      slope (model.read m width k.entries) (model.read m width (k.tangent t i j))
        (samples.map (toSample m)) := by
  induction hs with
  | nil => simp [Perceptron.slope]
  | cons hfirst _ ih =>
    rw [ih (by omega), hfirst.total_tangent hw ht, Perceptron.slope, Perceptron.slope,
      List.map_cons, List.map_cons, List.sum_cons, add_assoc]
    rfl

end Values

/-! ## One epoch -/

section Epoch

variable {K : Type} [CommRing K] [LinearOrder K]

/-- The parameters are distinct leaves, and their shapes fit. -/
structure Trainable (h : Heap K) (model : MLP) (m width : Nat) : Prop where
  shape : model.HasShape h m width
  leaf : ∀ p ∈ model.parameters, h.ctx p = .leaf ∧ h.prev p = []
  nodup : model.parameters.Nodup

variable {h : Heap K} {model : MLP} {m width : Nat}

omit [CommRing K] [LinearOrder K] in
theorem MLP.forall_parameters {P : Nat → Prop} : (∀ p ∈ model.parameters, P p) ↔
    P model.l1.weights ∧ P model.l1.bias ∧ P model.l2.weights ∧ P model.l2.bias := by
  simp [MLP.parameters, Layer.parameters]

omit [CommRing K] [LinearOrder K] in
theorem MLP.HasShape.parameter (hs : model.HasShape h m width) :
    ∀ p ∈ model.parameters, ∃ r c, h.HasShape p r c :=
  MLP.forall_parameters.mpr ⟨⟨m, width, hs.l1.weights⟩, ⟨1, width, hs.l1.bias⟩,
    ⟨width, 1, hs.l2.weights⟩, ⟨1, 1, hs.l2.bias⟩⟩

omit [CommRing K] [LinearOrder K] in
theorem MLP.HasShape.transfer {h' : Heap K} (hs : model.HasShape h m width)
    (hshape : ∀ p ∈ model.parameters, ∀ r c, h.HasShape p r c → h'.HasShape p r c) :
    model.HasShape h' m width := by
  obtain ⟨hw1, hb1, hw2, hb2⟩ := MLP.forall_parameters.mp hshape
  exact ⟨⟨hw1 _ _ hs.l1.weights, hb1 _ _ hs.l1.bias⟩, hw2 _ _ hs.l2.weights, hb2 _ _ hs.l2.bias⟩

omit [CommRing K] [LinearOrder K] in
theorem MLP.read_congr {x y : Nat → Nat → Nat → K} (hxy : ∀ p ∈ model.parameters, x p = y p) :
    model.read m width x = model.read m width y := by
  obtain ⟨hw1, hb1, hw2, hb2⟩ := MLP.forall_parameters.mp hxy
  simp only [MLP.read, hw1, hb1, hw2, hb2]

/-- The parameters and nothing else, as leaves without gradients. -/
def clean (ps : List Nat) (h : Heap K) : Heap K :=
  (List.range h.length).map fun v => ⟨if v ∈ ps then h.data v else [[0]], none, .leaf, []⟩

theorem built_leaves {n : Nat} {d : Nat → Matrix K}
    (hd : ∀ v < n, ∃ r c, 0 < r ∧ 0 < c ∧ (d v).Shaped r c) :
    Heap.Built ((List.range n).map fun v => (⟨d v, none, .leaf, []⟩ : Tensor K)) := by
  induction n with
  | zero => exact .empty
  | succ n ih =>
    obtain ⟨r, c, hr, hc, hshaped⟩ := hd n (Nat.lt_succ_self n)
    rw [List.range_succ, List.map_append]
    exact .leaf (ih fun v hv => hd v (Nat.lt_succ_of_lt hv)) hr hc hshaped

omit [LinearOrder K] in
theorem getElem?_clean {ps : List Nat} {v : Nat} (hv : v < h.length) :
    (clean ps h)[v]? = some ⟨if v ∈ ps then h.data v else [[0]], none, .leaf, []⟩ := by
  simp [clean, hv]

theorem mirror_clean {lr : K} (ht : Trainable h model m width) :
    Mirror ⟨model.parameters, lr⟩ h.length h (clean model.parameters h) := by
  have hlen : (clean model.parameters h).length = h.length := by simp [clean]
  have hleaf : ∀ v, (clean model.parameters h).ctx v = .leaf ∧
      (clean model.parameters h).prev v = [] := by
    intro v
    by_cases hv : v < h.length
    · simp [Heap.ctx, Heap.prev, getElem?_clean hv]
    · have hout := Heap.out_of_range (h := clean model.parameters h) (v := v) (by omega)
      exact ⟨hout.1, hout.2.1⟩
  refine ⟨built_leaves fun v _ => ?_, hlen.symm, fun p hp => ?_, hlen.ge, fun v _ => (hleaf v).1,
    fun v hv => ?_, fun v _ w hw => ?_⟩
  · by_cases hp : v ∈ model.parameters
    · obtain ⟨r, c, hs⟩ := ht.shape.parameter _ hp
      exact ⟨r, c, hs.rows, hs.cols, by rw [if_pos hp]; exact hs.shaped⟩
    · exact ⟨1, 1, Nat.one_pos, Nat.one_pos, by rw [if_neg hp]; exact shaped_row rfl⟩
  · obtain ⟨r, c, hs⟩ := ht.shape.parameter _ hp
    exact hs.lt
  · rw [SGD.getElem?_zeroGrad]
    rcases hv with hv | hp
    · rw [List.getElem?_eq_none (hlen.le.trans hv), List.getElem?_eq_none hv]
      simp
    · obtain ⟨r, c, hs⟩ := ht.shape.parameter _ hp
      obtain ⟨hctx, hprev⟩ := ht.leaf v hp
      rw [getElem?_clean hs.lt, if_pos hp, if_pos hp]
      simp only [Heap.ctx, Heap.prev, Heap.data, List.getElem?_eq_getElem hs.lt, Option.map_some,
        Option.getD_some] at hctx hprev ⊢
      rw [hctx, hprev]
  · rw [(hleaf v).2] at hw
    cases hw

/-- The parameters of the clean copy are those of the heap. -/
theorem Trainable.clean (ht : Trainable h model m width) :
    model.HasShape (clean model.parameters h) m width ∧
      ∀ p ∈ model.parameters, (clean model.parameters h).data p = h.data p := by
  have hm : Mirror ⟨model.parameters, 0⟩ h.length h (Synapse.clean model.parameters h) :=
    mirror_clean ht
  have hdata : ∀ p ∈ model.parameters, (Synapse.clean model.parameters h).data p = h.data p := by
    intro p hp
    obtain ⟨r, c, hs⟩ := ht.shape.parameter p hp
    rw [Heap.data, getElem?_clean hs.lt, if_pos hp]
    rfl
  refine ⟨ht.shape.transfer fun p hp r c hs => ?_, hdata⟩
  exact ⟨hm.length ▸ hs.lt, hs.rows, hs.cols, by rw [hdata p hp]; exact hs.shaped⟩

/-! ## The gradient, entry by entry -/

section Coordinates

variable {k : Heap K} {t i j : Nat}

theorem tangent_self : k.tangent t i j t = TablePairing.single i j := Propagate.propagate_self

theorem tangent_other (hw : k.WellFormed) {p : Nat} (hleaf : k.ctx p = .leaf) (hp : p ≠ t) :
    k.tangent t i j p = 0 := by
  rw [Heap.tangent_of_ne hw hp, Heap.differential, hleaf]

/-- The slopes for unit changes of the parameters are the entries of the vector. -/
theorem inner_read (hw : k.WellFormed) (hleaf : ∀ p ∈ model.parameters, k.ctx p = .leaf)
    (hnodup : model.parameters.Nodup) (g : Params (Fin m) (Fin width) K) :
    (∀ a b, inner g (model.read m width (k.tangent model.l1.weights (a : Fin m) (b : Fin width))) =
      g.w1 a b) ∧
    (∀ b, inner g (model.read m width (k.tangent model.l1.bias 0 (b : Fin width))) = g.b1 b) ∧
    (∀ b, inner g (model.read m width (k.tangent model.l2.weights (b : Fin width) 0)) = g.w2 b) ∧
    inner g (model.read m width (k.tangent model.l2.bias 0 0)) = g.b2 := by
  simp only [MLP.parameters, Layer.parameters, List.cons_append, List.nil_append, List.mem_cons,
    List.not_mem_nil, or_false, List.nodup_cons, not_or, List.nodup_nil, not_false_eq_true,
    and_true] at hnodup
  obtain ⟨hw1, hb1, hw2, hb2⟩ := MLP.forall_parameters.mp hleaf
  obtain ⟨⟨h12, h13, h14⟩, ⟨h23, h24⟩, h34⟩ := hnodup
  refine ⟨fun a b => ?_, fun b => ?_, fun b => ?_, ?_⟩
  · simp only [Perceptron.inner, MLP.read, tangent_self, tangent_other hw hb1 (Ne.symm h12),
      tangent_other hw hw2 (Ne.symm h13), tangent_other hw hb2 (Ne.symm h14)]
    simp [TablePairing.single, Fin.val_inj, ite_and]
  · simp only [Perceptron.inner, MLP.read, tangent_self, tangent_other hw hw1 h12,
      tangent_other hw hw2 (Ne.symm h23), tangent_other hw hb2 (Ne.symm h24)]
    simp [TablePairing.single, Fin.val_inj]
  · simp only [Perceptron.inner, MLP.read, tangent_self, tangent_other hw hw1 h13,
      tangent_other hw hb1 h23, tangent_other hw hb2 (Ne.symm h34)]
    simp [TablePairing.single, Fin.val_inj]
  · simp only [Perceptron.inner, MLP.read, tangent_self, tangent_other hw hw1 h14,
      tangent_other hw hb1 h24, tangent_other hw hw2 h34]
    simp [TablePairing.single]

end Coordinates

/-- The copy with the graph of the samples on top of the parameters of `h`. -/
structure EpochGraph (h k : Heap K) (model : MLP) (m width : Nat)
    (samples : List (List K × List K)) (totalLoss : Nat) : Prop where
  wellFormed : k.WellFormed
  shape : model.HasShape k m width
  leaf : ∀ p ∈ model.parameters, k.ctx p = .leaf
  data : ∀ p ∈ model.parameters, k.data p = h.data p
  root : k.HasShape totalLoss 1 1
  entries : k.entries totalLoss 0 0 =
    loss (model.read m width h.entries) (samples.map (toSample m))
  tangent : ∀ p ∈ model.parameters, ∀ i j, k.tangent p i j totalLoss 0 0 =
    slope (model.read m width h.entries) (model.read m width (k.tangent p i j))
      (samples.map (toSample m))
  topo : ∀ limit, (∃ topo, k.buildTopo limit totalLoss = .ok topo) ↔
    lossDepth samples.length ≤ limit

variable {set : List Nat → List Nat} {samples : List (List K × List K)} {lr : K}

/-- The forward passes of an epoch. -/
theorem forward_ok (lr : K) (hset : ∀ l, (set l).Perm l.dedup) (ht : Trainable h model m width)
    (hsamples : ∀ s ∈ samples, s.1.length = m ∧ s.2.length = 1) :
    ∃ h' k totalLoss,
      addLosses set model samples (h.tensor [[0]] .leaf []) h.length = .ok (h', totalLoss) ∧
      Mirror ⟨model.parameters, lr⟩ h.length h' k ∧ EpochGraph h k model m width samples totalLoss ∧
      h.length ≤ totalLoss := by
  have hm : Mirror ⟨model.parameters, lr⟩ h.length h (clean model.parameters h) := mirror_clean ht
  have hzero : Shaped [[(0 : K)]] 1 1 := shaped_row rfl
  obtain ⟨k₁, hm₁, hpre₁, hlen₁, htotal, hdata⟩ :=
    hm.leaf hm.length.symm Nat.one_pos Nat.one_pos hzero
  obtain ⟨hmodel₀, hdata₀⟩ := ht.clean
  obtain ⟨h', k, totalLoss, hok, hm', hpre, hsums, hlen, hroot, hge⟩ :=
    addLosses_ok hset samples hm₁ hlen₁ (hmodel₀.of_prefix hpre₁) (fun _ hp => hp) hsamples
      htotal.shape (le_refl _)
  have hw := hm'.built.wellFormed
  have hparam : ∀ p ∈ model.parameters, k.ctx p = .leaf ∧ k.data p = h.data p := by
    intro p hp
    obtain ⟨r, c, hs⟩ := hmodel₀.parameter p hp
    have hheld : (clean model.parameters h).Holds p .leaf r c := ⟨hm.old p (hm.bound p hp), hs⟩
    exact ⟨(hheld.of_prefix (hpre₁.trans hpre)).ctx,
      (hs.data_of_prefix (hpre₁.trans hpre)).trans (hdata₀ p hp)⟩
  have hread : model.read m width k.entries = model.read m width h.entries := by
    refine MLP.read_congr fun p hp => ?_
    funext i j
    rw [Heap.entries, Heap.entries, (hparam p hp).2]
  have hstart : k.entries h.length 0 0 = 0 := by
    rw [Heap.entries, htotal.shape.data_of_prefix hpre, hdata]
    rfl
  refine ⟨h', k, totalLoss, hok, hm', ⟨hw, hmodel₀.of_prefix (hpre₁.trans hpre),
    fun p hp => (hparam p hp).1, fun p hp => (hparam p hp).2, hroot, ?_, fun p hp i j => ?_,
    fun limit => ?_⟩, hge⟩
  · rw [hsums.entries hw, hstart, zero_add, hread]
  · have hlt : p < h.length := hm.bound p hp
    rw [hsums.tangent hw (Nat.lt_succ_of_lt hlt),
      tangent_leaf hw (htotal.of_prefix hpre) hlt, Pi.zero_apply, Pi.zero_apply, zero_add, hread]
  · exact hsums.buildTopo_iff hw (fun p hp => ⟨(hparam p hp).1, Nat.lt_succ_of_lt (hm.bound p hp)⟩)
      (htotal.of_prefix hpre) (Nat.lt_succ_self _)

/-- An epoch prints the loss at the parameters it starts from, and takes one step of
gradient descent. -/
theorem epoch_ok (lr : K) (hset : ∀ l, (set l).Perm l.dedup) {limit : Nat}
    (hlimit : lossDepth samples.length ≤ limit) (ht : Trainable h model m width)
    (hsamples : ∀ s ∈ samples, s.1.length = m ∧ s.2.length = 1) :
    ∃ h', epoch set limit model ⟨model.parameters, lr⟩ samples h =
        .ok (h', loss (model.read m width h.entries) (samples.map (toSample m))) ∧
      Trainable h' model m width ∧
      model.read m width h'.entries = (model.read m width h.entries).descend lr
        (gradient (model.read m width h.entries) (samples.map (toSample m))) := by
  obtain ⟨h₁, k, totalLoss, hok₁, hm, hg, hge⟩ := forward_ok lr hset ht hsamples
  have hw := hg.wellFormed
  have hseen : ∀ p ∈ model.parameters, Live ⟨model.parameters, lr⟩ h.length p := fun p hp => .inr hp
  obtain ⟨h₂, h', hok₂, hok₃, hnew⟩ := SGD.descends hw hg.root ((hg.topo limit).mpr hlimit)
    hm.shows hm.closed (.inl hge) ht.nodup
    fun p hp => ⟨hseen p hp, (hm.bound p hp).trans_le hm.start⟩
  have hroot := hnew totalLoss (.inl hge)
  have hkept : h'.data totalLoss = k.data totalLoss :=
    hroot.kept fun hp => absurd (hm.bound _ hp) (Nat.not_lt.mpr hge)
  have hcell : (h'.data totalLoss).cell 0 0 =
      .ok (loss (model.read m width h.entries) (samples.map (toSample m))) := by
    rw [hkept, cell_ok hg.root.shaped Nat.one_pos Nat.one_pos, ← hg.entries]
    rfl
  refine ⟨h', ?_, ⟨?_, fun p hp => ?_, ht.nodup⟩, ?_⟩
  · simp only [epoch, hok₁, bind, Except.bind, hok₂, hok₃, hcell]
    rfl
  · exact hg.shape.transfer fun p hp => (hnew p (hseen p hp)).shape
  · have hp' := hnew p (hseen p hp)
    refine ⟨hp'.ctx.trans (hg.leaf p hp), hp'.prev.trans ?_⟩
    have hperm := hw.prev p
    rw [hg.leaf p hp] at hperm
    exact hperm.eq_nil
  · have hmoved : ∀ p ∈ model.parameters, ∀ r c, k.HasShape p r c → ∀ i < r, ∀ j < c,
        h'.entries p i j = h.entries p i j - lr *
          inner (gradient (model.read m width h.entries) (samples.map (toSample m)))
            (model.read m width (k.tangent p i j)) := by
      intro p hp r c hs i hi j hj
      rw [(hnew p (hseen p hp)).moved hp r c hs i hi j hj, hg.tangent p hp, slope_eq_inner,
        Heap.entries, Heap.entries, hg.data p hp]
    obtain ⟨hmw1, hmb1, hmw2, hmb2⟩ := MLP.forall_parameters.mp hmoved
    obtain ⟨hw1, hb1, hw2, hb2⟩ := inner_read hw hg.leaf ht.nodup
      (gradient (model.read m width h.entries) (samples.map (toSample m)))
    refine Params.ext (funext fun a => funext fun b => ?_) (funext fun b => ?_)
      (funext fun b => ?_) ?_
    · exact (hmw1 _ _ hg.shape.l1.weights a a.isLt b b.isLt).trans (by rw [hw1]; rfl)
    · exact (hmb1 _ _ hg.shape.l1.bias 0 Nat.one_pos b b.isLt).trans (by rw [hb1]; rfl)
    · exact (hmw2 _ _ hg.shape.l2.weights b b.isLt 0 Nat.one_pos).trans (by rw [hw2]; rfl)
    · exact (hmb2 _ _ hg.shape.l2.bias 0 Nat.one_pos 0 Nat.one_pos).trans (by rw [hb2]; rfl)

/-- Within a lower limit, the recursion of the backward pass is cut off. -/
theorem epoch_error (lr : K) (hset : ∀ l, (set l).Perm l.dedup) {limit : Nat}
    (hlimit : limit < lossDepth samples.length) (ht : Trainable h model m width)
    (hsamples : ∀ s ∈ samples, s.1.length = m ∧ s.2.length = 1) :
    epoch set limit model ⟨model.parameters, lr⟩ samples h = .error .recursionError := by
  obtain ⟨h₁, k, totalLoss, hok₁, hm, hg, hge⟩ := forward_ok lr hset ht hsamples
  have hcut := Heap.buildTopo_error (mt (hg.topo limit).mp (Nat.not_le.mpr hlimit))
  rw [← hm.shows.buildTopo hm.closed (.inl hge)] at hcut
  simp only [epoch, hok₁, bind, Except.bind, Heap.backward, hcut]

end Epoch

/-! ## The run -/

section Run

variable {K : Type} [CommRing K] [LinearOrder K] {set : List Nat → List Nat} {h : Heap K}
  {model : MLP} {m width limit : Nat} {lr : K} {samples : List (List K × List K)}

/-- Gradient descent on the loss of the samples. -/
def iterate (lr : K) (samples : List (Sample (Fin m) K)) (θ : Params (Fin m) (Fin width) K) :
    Nat → Params (Fin m) (Fin width) K
  | 0 => θ
  | e + 1 => iterate lr samples (θ.descend lr (gradient θ samples)) e

theorem train_ok (lr : K) (hset : ∀ l, (set l).Perm l.dedup)
    (hlimit : lossDepth samples.length ≤ limit)
    (hsamples : ∀ s ∈ samples, s.1.length = m ∧ s.2.length = 1) (epochs : Nat) :
    ∀ {h : Heap K}, Trainable h model m width →
      ∃ h', train set limit model ⟨model.parameters, lr⟩ samples epochs h =
          .ok (h', (List.range epochs).map fun e => loss
            (iterate lr (samples.map (toSample m)) (model.read m width h.entries) e)
            (samples.map (toSample m))) ∧
        Trainable h' model m width ∧ model.read m width h'.entries =
          iterate lr (samples.map (toSample m)) (model.read m width h.entries) epochs := by
  induction epochs with
  | zero => exact fun ht => ⟨_, rfl, ht, rfl⟩
  | succ epochs ih =>
    intro h ht
    obtain ⟨h₁, hok₁, ht₁, hread₁⟩ := epoch_ok lr hset hlimit ht hsamples
    obtain ⟨h', hok, ht', hread⟩ := ih ht₁
    rw [hread₁] at hok hread
    refine ⟨h', ?_, ht', hread⟩
    rw [train, hok₁]
    simp only [bind, Except.bind, hok, List.range_succ_eq_map, List.map_cons, List.map_map]
    rfl

omit [LinearOrder K] in
theorem MLP.HasShape.read_of_prefix {k k' : Heap K} (hs : model.HasShape k m width)
    (hpre : k <+: k') : model.read m width k'.entries = model.read m width k.entries := by
  refine MLP.read_congr fun p hp => ?_
  obtain ⟨r, c, hp⟩ := hs.parameter p hp
  funext i j
  rw [Heap.entries, Heap.entries, hp.data_of_prefix hpre]

theorem predict_mirror {o : SGD K} {n : Nat} (hset : ∀ l, (set l).Perm l.dedup)
    (hlive : ∀ p ∈ model.parameters, p ∈ o.parameters) (xs : List (List K))
    (hxs : ∀ x ∈ xs, x.length = m) : ∀ {h k : Heap K}, Mirror o n h k →
      model.HasShape k m width → predict set model xs h =
        .ok (xs.map fun x => output (model.read m width k.entries) (inputs m x)) := by
  induction xs with
  | nil => exact fun _ _ => rfl
  | cons xRaw xs ih =>
    intro h k hm hmodel
    obtain ⟨k₁, hm₁, hpre₁, hlen₁, hx, hxData⟩ := hm.leaf rfl Nat.one_pos hmodel.l1.weights.rows
      (shaped_row (hxs xRaw List.mem_cons_self))
    obtain ⟨h₂, k₂, hok, hm₂, hpre₂, hlen₂, hg⟩ := MLP.grows hset hm₁ hlen₁
      (hmodel.of_prefix hpre₁) hlive hx.shape (.inl hm.start)
    have hpre := hpre₁.trans hpre₂
    have hread := hmodel.read_of_prefix hpre
    have hinput : (fun p : Fin m => k₂.entries k.length 0 p) = inputs m xRaw := by
      funext p
      rw [Heap.entries, hx.shape.data_of_prefix hpre₂, hxData]
      rfl
    have hstart := hm.start
    have hnew : Live o n (k.length + 1 + 4) := .inl (by omega)
    have hcell : (h₂.data (k.length + 1 + 4)).cell 0 0 =
        .ok (output (model.read m width k.entries) (inputs m xRaw)) := by
      rw [hm₂.data hnew, cell_ok hg.l2.sum.shape.shaped Nat.one_pos Nat.one_pos, ← hread, ← hinput,
        ← hg.output_eq hm₂.built.wellFormed]
      rfl
    have hrest := ih (fun x hx => hxs x (List.mem_cons_of_mem _ hx)) hm₂ (hmodel.of_prefix hpre)
    rw [hread] at hrest
    rw [predict]
    simp only [hm.length, hok, bind, Except.bind, hcell, hrest]
    rfl

/-- Every prediction is the output of the network at the parameters. -/
theorem predict_ok (hset : ∀ l, (set l).Perm l.dedup) (xs : List (List K))
    (hxs : ∀ x ∈ xs, x.length = m) (ht : Trainable h model m width) :
    predict set model xs h =
      .ok (xs.map fun x => output (model.read m width h.entries) (inputs m x)) := by
  obtain ⟨hshape, hdata⟩ := ht.clean
  have hm : Mirror ⟨model.parameters, 0⟩ h.length h (clean model.parameters h) := mirror_clean ht
  have hread : model.read m width (clean model.parameters h).entries =
      model.read m width h.entries := by
    refine MLP.read_congr fun p hp => ?_
    funext i j
    rw [Heap.entries, Heap.entries, hdata p hp]
  rw [← hread]
  exact predict_mirror hset (fun _ hp => hp) xs hxs hm hshape

/-- The parameters at the start: the weights drawn, and no biases. -/
def drawn (m : Nat) (w1 w2 : Matrix K) : Params (Fin m) (Fin 4) K where
  w1 i j := w1.entry i j
  b1 _ := 0
  w2 j := w2.entry j 0
  b2 := 0

omit [LinearOrder K] in
theorem init_trainable {w1 w2 : Matrix K} (hm : 0 < m) (hw1 : w1.Shaped m 4)
    (hw2 : w2.Shaped 4 1) :
    Trainable (MLP.init w1 w2).1 (MLP.init w1 w2).2 m 4 ∧
      (MLP.init w1 w2).2.read m 4 (MLP.init w1 w2).1.entries = drawn m w1 w2 := by
  have hzeros : ∀ c, Matrix.Shaped (Linalg.zeros 1 c : Matrix K) 1 c :=
    fun c => ⟨rfl, by simp [Linalg.zeros]⟩
  refine ⟨⟨⟨⟨?_, ?_⟩, ?_, ?_⟩, ?_, ?_⟩, ?_⟩
  · exact ⟨(by decide : 0 < 4), hm, by decide, hw1⟩
  · exact ⟨(by decide : 1 < 4), by decide, by decide, hzeros 4⟩
  · exact ⟨(by decide : 2 < 4), by decide, by decide, hw2⟩
  · exact ⟨(by decide : 3 < 4), by decide, by decide, hzeros 1⟩
  · exact MLP.forall_parameters.mpr ⟨⟨rfl, rfl⟩, ⟨rfl, rfl⟩, ⟨rfl, rfl⟩, rfl, rfl⟩
  · show [0, 1, 2, 3].Nodup
    decide
  · refine Params.ext rfl (funext fun j => ?_) rfl rfl
    show Matrix.entry (Linalg.zeros 1 4 : Matrix K) 0 j = 0
    rw [Linalg.zeros_eq, entry_ofFn _ Nat.one_pos j.isLt]

omit [CommRing K] [LinearOrder K] in
theorem sample_shapes {xs ys : List (List K)} (hxs : ∀ x ∈ xs, x.length = m)
    (hys : ∀ y ∈ ys, y.length = 1) : ∀ s ∈ xs.zip ys, s.1.length = m ∧ s.2.length = 1 := by
  intro s hs
  obtain ⟨hx, hy⟩ := List.of_mem_zip hs
  exact ⟨hxs _ hx, hys _ hy⟩

/-- The two halves of `main`, from the weights drawn. -/
theorem trained_ok (lr : K) (hset : ∀ l, (set l).Perm l.dedup) {xs ys : List (List K)}
    (hlimit : lossDepth (xs.zip ys).length ≤ limit) (hm : 0 < m) (hxs : ∀ x ∈ xs, x.length = m)
    (hys : ∀ y ∈ ys, y.length = 1) {w1 w2 : Matrix K} (hw1 : w1.Shaped m 4)
    (hw2 : w2.Shaped 4 1) (epochs : Nat) :
    ∃ h', train set limit (MLP.init w1 w2).2 ⟨(MLP.init w1 w2).2.parameters, lr⟩ (xs.zip ys) epochs
        (MLP.init w1 w2).1 = .ok (h', (List.range epochs).map fun e => loss
          (iterate lr ((xs.zip ys).map (toSample m)) (drawn m w1 w2) e)
          ((xs.zip ys).map (toSample m))) ∧
      predict set (MLP.init w1 w2).2 xs h' = .ok (xs.map fun x => output
        (iterate lr ((xs.zip ys).map (toSample m)) (drawn m w1 w2) epochs) (inputs m x)) := by
  obtain ⟨ht, hread⟩ := init_trainable hm hw1 hw2
  obtain ⟨h', hok, ht', hread'⟩ := train_ok lr hset hlimit (sample_shapes hxs hys) epochs ht
  have hpredict := predict_ok hset xs hxs ht'
  rw [hread', hread] at hpredict
  rw [hread] at hok
  exact ⟨h', hok, hpredict⟩

theorem main_of_trained {xs ys : List (List K)} {epochs : Nat} {w1 w2 : Matrix K} {h' : Heap K}
    {losses outs : List K}
    (hok : train set limit (MLP.init w1 w2).2 ⟨(MLP.init w1 w2).2.parameters, lr⟩ (xs.zip ys) epochs
      (MLP.init w1 w2).1 = .ok (h', losses))
    (hpredict : predict set (MLP.init w1 w2).2 xs h' = .ok outs) :
    main set limit lr xs ys epochs w1 w2 = .ok (losses, outs) := by
  simp only [main, hok, bind, Except.bind, hpredict]
  rfl

/-- How many samples the recursion limit of Python allows: `main` returns if the limit
leaves `build_topo` nine calls more than there are samples, and otherwise the first epoch
already ends in a `RecursionError`, whatever the samples, the weights, and the order in
which `build_topo` goes through the operands. -/
theorem main_recursion (hset : ∀ l, (set l).Perm l.dedup) {xs ys : List (List K)}
    (hne : xs.zip ys ≠ []) (hm : 0 < m) (hxs : ∀ x ∈ xs, x.length = m)
    (hys : ∀ y ∈ ys, y.length = 1) {w1 w2 : Matrix K} (hw1 : w1.Shaped m 4)
    (hw2 : w2.Shaped 4 1) {epochs : Nat} (hepochs : 0 < epochs) :
    ((∃ r, main set limit lr xs ys epochs w1 w2 = .ok r) ↔
      (xs.zip ys).length + 9 ≤ limit) ∧
    (main set limit lr xs ys epochs w1 w2 = .error .recursionError ↔
      limit < (xs.zip ys).length + 9) := by
  have hdepth := lossDepth_of_pos (List.length_pos_iff.mpr hne)
  have hreturns : (xs.zip ys).length + 9 ≤ limit →
      ∃ r, main set limit lr xs ys epochs w1 w2 = .ok r := by
    intro hlimit
    obtain ⟨h', hok, hpredict⟩ :=
      trained_ok lr hset (hdepth ▸ hlimit) hm hxs hys hw1 hw2 epochs
    exact ⟨_, main_of_trained hok hpredict⟩
  have hraises : limit < (xs.zip ys).length + 9 →
      main set limit lr xs ys epochs w1 w2 = .error .recursionError := by
    intro hlimit
    obtain ⟨ht, -⟩ := init_trainable hm hw1 hw2
    have hcut := epoch_error lr hset (hdepth ▸ hlimit) ht (sample_shapes hxs hys)
    obtain ⟨e, rfl⟩ := Nat.exists_eq_succ_of_ne_zero hepochs.ne'
    simp only [main, train, hcut, bind, Except.bind]
  constructor
  · refine ⟨fun ⟨r, hr⟩ => ?_, hreturns⟩
    by_contra hlimit
    rw [hraises (Nat.not_le.mp hlimit)] at hr
    cases hr
  · refine ⟨fun hr => ?_, hraises⟩
    by_contra hlimit
    obtain ⟨r, hok⟩ := hreturns (Nat.not_lt.mp hlimit)
    rw [hr] at hok
    cases hok

/-- Within 1000 calls, 991 samples can be trained on and 992 cannot. -/
theorem main_recursion_thousand :
    let train := fun n : Nat => main List.dedup 1000 (1 / 10 : ℚ) (List.replicate n [0, 0])
      (List.replicate n [0]) 500 [[1, 2, 0, -1], [-1, 1, 1, 0]] [[1], [-2], [1], [1]]
    (∃ r, train 991 = .ok r) ∧ train 992 = .error .recursionError := by
  intro train
  have hboth : ∀ n, 0 < n → ((∃ r, train n = .ok r) ↔ n + 9 ≤ 1000) ∧
      (train n = .error .recursionError ↔ 1000 < n + 9) := by
    intro n hn
    have hxs : ∀ x ∈ List.replicate n [(0 : ℚ), 0], x.length = 2 := fun x hx => by
      rw [List.eq_of_mem_replicate hx]
      rfl
    have hys : ∀ y ∈ List.replicate n [(0 : ℚ)], y.length = 1 := fun y hy => by
      rw [List.eq_of_mem_replicate hy]
      rfl
    have hlength :
        ((List.replicate n [(0 : ℚ), 0]).zip (List.replicate n [(0 : ℚ)])).length = n := by
      simp
    have hne : (List.replicate n [(0 : ℚ), 0]).zip (List.replicate n [(0 : ℚ)]) ≠ [] :=
      List.ne_nil_of_length_pos (hlength.symm ▸ hn)
    have hw1 : Matrix.Shaped ([[1, 2, 0, -1], [-1, 1, 1, 0]] : Matrix ℚ) 2 4 := ⟨rfl, by decide⟩
    have hw2 : Matrix.Shaped ([[1], [-2], [1], [1]] : Matrix ℚ) 4 1 := ⟨rfl, by decide⟩
    have hmain : ((∃ r, train n = .ok r) ↔ _) ∧ (train n = .error .recursionError ↔ _) :=
      main_recursion (fun l => List.Perm.refl _) hne (by decide) hxs hys hw1 hw2 (by decide)
    rwa [hlength] at hmain
  exact ⟨(hboth 991 (by decide)).1.mpr (by decide), (hboth 992 (by decide)).2.mpr (by decide)⟩

end Run

/-! ## Improvement -/

/-- A small enough learning rate makes the second loss less than the first, unless the
gradient vanishes or a hidden unit is given 0. -/
theorem train_improves {set : List Nat → List Nat} (hset : ∀ l, (set l).Perm l.dedup)
    {h : Heap ℝ} {model : MLP} {m width limit : Nat} {samples : List (List ℝ × List ℝ)}
    (hlimit : lossDepth samples.length ≤ limit)
    (hsamples : ∀ s ∈ samples, s.1.length = m ∧ s.2.length = 1) (ht : Trainable h model m width)
    (hsmooth : Smooth (model.read m width h.entries) (samples.map (toSample m)))
    (hgradient : gradient (model.read m width h.entries) (samples.map (toSample m)) ≠
      ⟨0, 0, 0, 0⟩) :
    ∃ ε > 0, ∀ lr, 0 < lr → lr < ε → ∃ h' before after,
      train set limit model ⟨model.parameters, lr⟩ samples 2 h = .ok (h', [before, after]) ∧
        after < before := by
  obtain ⟨ε, hε, hdescent⟩ := exists_descent hsmooth hgradient
  refine ⟨ε, hε, fun lr hpos hlt => ?_⟩
  obtain ⟨h', hok, -⟩ := train_ok lr hset hlimit hsamples 2 ht
  exact ⟨h', _, _, hok, hdescent lr hpos hlt⟩

/-- One input, one hidden unit: weights 1, no biases. -/
def line : Heap ℝ := [⟨[[1]], none, .leaf, []⟩, ⟨[[0]], none, .leaf, []⟩, ⟨[[1]], none, .leaf, []⟩,
  ⟨[[0]], none, .leaf, []⟩]

theorem line_trainable : Trainable line ⟨⟨0, 1⟩, ⟨2, 3⟩⟩ 1 1 := by
  have hshape : ∀ v < 4, line.HasShape v 1 1 := by
    intro v hv
    refine ⟨hv, by decide, by decide, ?_⟩
    interval_cases v <;> exact shaped_row rfl
  refine ⟨⟨⟨hshape 0 (by decide), hshape 1 (by decide)⟩, hshape 2 (by decide),
      hshape 3 (by decide)⟩,
    MLP.forall_parameters.mpr ⟨⟨rfl, rfl⟩, ⟨rfl, rfl⟩, ⟨rfl, rfl⟩, rfl, rfl⟩, ?_⟩
  show [0, 1, 2, 3].Nodup
  decide

theorem train_improves_line : ∃ ε > 0, ∀ lr, 0 < lr → lr < ε → ∃ h' before after,
    train List.dedup 1000 ⟨⟨0, 1⟩, ⟨2, 3⟩⟩ ⟨[0, 1, 2, 3], lr⟩ [([1], [0])] 2 line =
      .ok (h', [before, after]) ∧ after < before := by
  have hread : MLP.read ⟨⟨0, 1⟩, ⟨2, 3⟩⟩ 1 1 line.entries =
      (⟨fun _ _ => 1, fun _ => 0, fun _ => 1, 0⟩ : Params (Fin 1) (Fin 1) ℝ) := by
    refine Params.ext (funext fun a => funext fun b => ?_) (funext fun b => ?_)
      (funext fun b => ?_) ?_
    all_goals simp [MLP.read, Heap.entries, Heap.data, line, Matrix.entry]
  have hinput : inputs 1 [(1 : ℝ)] = fun _ => 1 := by
    funext a
    simp [inputs]
  refine train_improves (fun l => List.Perm.refl _) (by decide) (by simp) line_trainable ?_ ?_
  · rw [hread]
    intro s hs b
    obtain rfl : s = toSample 1 ([1], [0]) := by simpa using hs
    simp [Perceptron.hidden, toSample, hinput]
  · rw [hread]
    intro hzero
    have hb2 := congrArg Params.b2 hzero
    simp [Perceptron.gradient, spread, Perceptron.residual, output, Perceptron.hidden, toSample,
      hinput] at hb2

end PythonPortfolio.Synapse
