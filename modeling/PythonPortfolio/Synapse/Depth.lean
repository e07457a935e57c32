import PythonPortfolio.Synapse.Training

/-!
# The recursion of an epoch

`build_topo` calls itself along the operations, and Python bounds how deep it may go. The
losses of an epoch are added one after the other, so the chain below their sum grows with
every sample, and whatever the order in which operands are visited, the tensor of the
first input is only found at its end.
-/

namespace PythonPortfolio.Synapse

open Library TopoSort

/-- The tensors of the longest chain below the sum of so many losses. -/
def lossDepth : Nat → Nat
  | 0 => 1
  | n + 1 => n + 10

theorem lossDepth_of_pos {n : Nat} (h : 0 < n) : lossDepth n = n + 9 := by
  obtain ⟨n, rfl⟩ := Nat.exists_eq_succ_of_ne_zero h.ne'
  rw [lossDepth]

section Chains

variable {K : Type} [CommRing K] [LinearOrder K] {k : Heap K} {op : Ctx} {model : MLP}
  {t u r c n m width v total : Nat}

omit [CommRing K] [LinearOrder K] in
/-- `build_topo` succeeds exactly if the search does. -/
theorem Heap.buildTopo_some {limit root : Nat} :
    (∃ topo, k.buildTopo limit root = .ok topo) ↔ ∃ s, visit k.prev limit .start root = some s := by
  rw [Heap.buildTopo]
  cases visit k.prev limit .start root with
  | none => simp
  | some s => simp

omit [CommRing K] [LinearOrder K] in
theorem Heap.buildTopo_error {limit root : Nat} (h : ¬ ∃ topo, k.buildTopo limit root = .ok topo) :
    k.buildTopo limit root = .error .recursionError := by
  rw [Heap.buildTopo] at h ⊢
  cases hvisit : visit k.prev limit .start root with
  | none => rfl
  | some s =>
    rw [hvisit] at h
    exact absurd ⟨_, rfl⟩ h

theorem Heap.Holds.shallow (hu : k.Holds u op r c) (hw : k.WellFormed)
    (h : ∀ a ∈ op.children, Shallow k.prev n a) : Shallow k.prev (n + 1) u :=
  fun w hmem => h w (hu.ctx ▸ hw.mem_prev.mp hmem)

theorem Heap.Holds.far (hu : k.Holds u op r c) (hw : k.WellFormed) (hne : t ≠ u)
    (h : ∀ a ∈ op.children, Far k.prev t n a) : Far k.prev t (n + 1) u :=
  .step hne fun w hmem => h w (hu.ctx ▸ hw.mem_prev.mp hmem)

theorem Heap.Holds.reaches (hu : k.Holds u op r c) (hw : k.WellFormed) {a : Nat}
    (ha : a ∈ op.children) (h : Reaches k.prev a t) : Reaches k.prev u t :=
  .head (hw.mem_prev.mpr (hu.ctx ▸ ha)) h

/-- A chain through a layer takes two more tensors. -/
theorem Layer.Graph.shallow {l : Layer} {x : Nat} (hg : l.Graph k r c x v) (hw : k.WellFormed)
    (hx : Shallow k.prev (n + 1) x) (hparams : ∀ p ∈ l.parameters, Shallow k.prev 1 p) :
    Shallow k.prev (n + 3) (v + 1) := by
  have hweights := (hparams _ List.mem_cons_self).mono (Nat.le_add_left 1 n)
  have hbias := (hparams _ (List.mem_cons_of_mem _ List.mem_cons_self)).mono
    (Nat.le_add_left 1 (n + 1))
  have hproduct : Shallow k.prev (n + 2) v :=
    hg.product.shallow hw (by simpa [Ctx.children] using ⟨hx, hweights⟩)
  exact hg.sum.shallow hw (by simpa [Ctx.children] using ⟨hproduct, hbias⟩)

theorem Layer.Graph.far {l : Layer} {x : Nat} (hg : l.Graph k r c x v) (hw : k.WellFormed)
    (hlt : t < v) (hx : Far k.prev t n x)
    (hparams : ∀ p ∈ l.parameters, ∀ n, Far k.prev t n p) : Far k.prev t (n + 2) (v + 1) := by
  have hweights := hparams _ List.mem_cons_self n
  have hbias := hparams _ (List.mem_cons_of_mem _ List.mem_cons_self) (n + 1)
  have hproduct : Far k.prev t (n + 1) v :=
    hg.product.far hw (by omega) (by simpa [Ctx.children] using ⟨hx, hweights⟩)
  exact hg.sum.far hw (by omega) (by simpa [Ctx.children] using ⟨hproduct, hbias⟩)

theorem Layer.Graph.reaches {l : Layer} {x : Nat} (hg : l.Graph k r c x v) (hw : k.WellFormed)
    (hx : Reaches k.prev x t) : Reaches k.prev (v + 1) t :=
  hg.sum.reaches hw (by simp [Ctx.children]) (hg.product.reaches hw (by simp [Ctx.children]) hx)

variable {xRaw yRaw : List K}

/-- No chain below the loss of a sample is longer than nine tensors. -/
theorem SampleGraph.shallow (hg : SampleGraph k model m width xRaw yRaw total v)
    (hw : k.WellFormed) (hparams : ∀ p ∈ model.parameters, Shallow k.prev 1 p) :
    Shallow k.prev 9 (v + 11) := by
  have hleaf : ∀ {u r c}, k.Holds u .leaf r c → Shallow k.prev 1 u :=
    fun hu => hu.shallow hw (by simp [Ctx.children])
  have hl1 := hg.pred.l1.shallow hw (hleaf hg.x) fun p hp => hparams p (List.mem_append_left _ hp)
  have hrelu : Shallow k.prev 4 (v + 4) :=
    hg.pred.relu.shallow hw (by simpa [Ctx.children] using hl1)
  have hpred := hg.pred.l2.shallow hw hrelu fun p hp => hparams p (List.mem_append_right _ hp)
  have hneg : Shallow k.prev 2 (v + 8) :=
    hg.neg.shallow hw (by simpa [Ctx.children] using ⟨hleaf hg.y, hleaf hg.minus⟩)
  have hdiff : Shallow k.prev 7 (v + 9) :=
    hg.diff.shallow hw (by simpa [Ctx.children] using ⟨hpred, hneg.mono (by decide)⟩)
  have hsquare : Shallow k.prev 8 (v + 10) :=
    hg.square.shallow hw (by simpa [Ctx.children] using hdiff)
  exact hg.loss.shallow hw (by simpa [Ctx.children] using hsquare)

/-- From the loss of a sample to its input it is eight tensors. -/
theorem SampleGraph.far (hg : SampleGraph k model m width xRaw yRaw total v) (hw : k.WellFormed)
    (hle : t ≤ v) (hx : Far k.prev t n v)
    (hparams : ∀ p ∈ model.parameters, ∀ n, Far k.prev t n p) : Far k.prev t (n + 8) (v + 11) := by
  have hleaf : ∀ {u r c}, t < u → k.Holds u .leaf r c → ∀ n, Far k.prev t (n + 1) u :=
    fun hlt hu n => hu.far hw (by omega) (by simp [Ctx.children])
  have hl1 := hg.pred.l1.far hw (by omega) hx fun p hp => hparams p (List.mem_append_left _ hp)
  have hrelu : Far k.prev t (n + 3) (v + 4) :=
    hg.pred.relu.far hw (by omega) (by simpa [Ctx.children] using hl1)
  have hpred := hg.pred.l2.far hw (by omega) hrelu
    fun p hp => hparams p (List.mem_append_right _ hp)
  have hneg : Far k.prev t (n + 5) (v + 8) :=
    hg.neg.far hw (by omega) (by simpa [Ctx.children] using
      ⟨hleaf (by omega) hg.y (n + 3), hleaf (by omega) hg.minus (n + 3)⟩)
  have hdiff : Far k.prev t (n + 6) (v + 9) :=
    hg.diff.far hw (by omega) (by simpa [Ctx.children] using ⟨hpred, hneg⟩)
  have hsquare : Far k.prev t (n + 7) (v + 10) :=
    hg.square.far hw (by omega) (by simpa [Ctx.children] using hdiff)
  exact hg.loss.far hw (by omega) (by simpa [Ctx.children] using hsquare)

theorem SampleGraph.reaches (hg : SampleGraph k model m width xRaw yRaw total v)
    (hw : k.WellFormed) : Reaches k.prev (v + 12) v := by
  have hrelu : Reaches k.prev (v + 4) v :=
    hg.pred.relu.reaches hw (by simp [Ctx.children]) (hg.pred.l1.reaches hw .refl)
  have hdiff : Reaches k.prev (v + 9) v :=
    hg.diff.reaches hw (by simp [Ctx.children]) (hg.pred.l2.reaches hw hrelu)
  have hsquare : Reaches k.prev (v + 10) v := hg.square.reaches hw (by simp [Ctx.children]) hdiff
  have hloss : Reaches k.prev (v + 11) v := hg.loss.reaches hw (by simp [Ctx.children]) hsquare
  exact hg.total.reaches hw (by simp [Ctx.children]) hloss

variable {samples : List (List K × List K)} {totalLoss : Nat}

theorem Sums.shallow (h : Sums k model m width total samples v totalLoss) (hw : k.WellFormed)
    (hparams : ∀ p ∈ model.parameters, Shallow k.prev 1 p) (htotal : Shallow k.prev (n + 9) total) :
    Shallow k.prev (n + 9 + samples.length) totalLoss := by
  induction h generalizing n with
  | nil => exact htotal
  | @cons _ _ samples total v totalLoss hfirst hrest ih =>
    have hloss := (hfirst.shallow hw hparams).mono (Nat.le_add_left 9 n)
    have hsum : Shallow k.prev (n + 1 + 9) (v + 12) :=
      hfirst.total.shallow hw (by simpa [Ctx.children] using ⟨htotal, hloss⟩)
    have hlast := ih hsum
    rwa [show n + 1 + 9 + samples.length = n + 9 + (samples.length + 1) by omega] at hlast

theorem Sums.far (h : Sums k model m width total samples v totalLoss) (hw : k.WellFormed)
    (hlt : t < v) (hparams : ∀ p ∈ model.parameters, ∀ n, Far k.prev t n p)
    (htotal : Far k.prev t n total) : Far k.prev t (n + samples.length) totalLoss := by
  induction h generalizing n with
  | nil => exact htotal
  | @cons _ _ samples total v totalLoss hfirst hrest ih =>
    have hx : Far k.prev t (n + 1) v := hfirst.x.far hw hlt.ne (by simp [Ctx.children])
    have hloss := (hfirst.far hw hlt.le hx hparams).mono (show n ≤ n + 1 + 8 by omega)
    have hsum : Far k.prev t (n + 1) (v + 12) :=
      hfirst.total.far hw (by omega) (by simpa [Ctx.children] using ⟨htotal, hloss⟩)
    have hlast := ih (by omega) hsum
    rwa [show n + 1 + samples.length = n + (samples.length + 1) by omega] at hlast

theorem Sums.reaches (h : Sums k model m width total samples v totalLoss) (hw : k.WellFormed) :
    Reaches k.prev totalLoss total := by
  induction h with
  | nil => exact .refl
  | cons hfirst _ ih => exact ih.trans (hfirst.total.reaches hw (by simp [Ctx.children]) .refl)

/-- The tensor of the first input is at the end of the longest chain, and of the shortest
to it: so deep the recursion must go. -/
theorem Sums.buildTopo_iff (h : Sums k model m width total samples v totalLoss)
    (hw : k.WellFormed) (hparams : ∀ p ∈ model.parameters, k.ctx p = .leaf ∧ p < v)
    (htotal : k.Holds total .leaf 1 1) (hlt : total < v) {limit : Nat} :
    (∃ topo, k.buildTopo limit totalLoss = .ok topo) ↔ lossDepth samples.length ≤ limit := by
  rw [Heap.buildTopo_some]
  have hleaf : ∀ p ∈ model.parameters, Shallow k.prev 1 p := by
    intro p hp w hmem
    have hchild := hw.mem_prev.mp hmem
    rw [(hparams p hp).1] at hchild
    cases hchild
  have hzero : Shallow k.prev 1 total := htotal.shallow hw (by simp [Ctx.children])
  cases h with
  | nil =>
    constructor
    · rintro ⟨s, hs⟩
      cases limit with
      | zero => cases hs
      | succ limit => exact Nat.succ_le_succ (Nat.zero_le limit)
    · exact fun hle => visit_shallow (hzero.mono hle) _
  | @cons _ _ samples _ _ _ hfirst hrest =>
    constructor
    · rintro ⟨s, hs⟩
      have hfar : ∀ p < v, ∀ n, Far k.prev v n p := fun p hp n => far_of_lt hw.prev_lt hp
      have hloss : Far k.prev v 9 (v + 11) := hfirst.far hw le_rfl .self
        fun p hp => hfar p (hparams p hp).2
      have hsum : Far k.prev v 10 (v + 12) := hfirst.total.far hw (by omega)
        (by simpa [Ctx.children] using ⟨hfar total hlt 9, hloss⟩)
      have hlast := hrest.far hw (by omega) (fun p hp => hfar p (hparams p hp).2) hsum
      have hreach := (hrest.reaches hw).trans (hfirst.reaches hw)
      have hdeep := hlast limit (visit_root_within hw.prev_lt hs hreach)
      rw [List.length_cons, lossDepth]
      omega
    · intro hle
      have hsum : Shallow k.prev (1 + 9) (v + 12) := hfirst.total.shallow hw
        (by simpa [Ctx.children] using ⟨hzero.mono (by decide), hfirst.shallow hw hleaf⟩)
      rw [List.length_cons, lossDepth] at hle
      exact visit_shallow ((hrest.shallow hw hleaf hsum).mono (by omega)) _

end Chains

end PythonPortfolio.Synapse
