import Mathlib.Algebra.Order.Ring.Int
import PythonPortfolio.Synapse.Sweep

/-!
# The order of a backward pass

On any graph without cycles `build_topo` lists what the root depends on, each tensor
once and after its operands. So the pass runs each closure once, when all consumers of
its tensor have run: the gradient is there by then, and no closure that runs later
touches it.
-/

namespace PythonPortfolio.Synapse

open Library Library.ReverseSweep Synapse.Matrix

namespace Heap

variable {K : Type}

/-! ## What a closure leaves alone -/

/-- Only gradients of the listed tensors have changed. -/
structure Framed (targets : List Nat) (h h' : Heap K) : Prop where
  ctx : h'.ctx = h.ctx
  prev : h'.prev = h.prev
  grad : ∀ w, w ∉ targets → h'.grad w = h.grad w

/-- A computation that changes only gradients of the listed tensors. -/
def Touches (targets : List Nat) (h : Heap K) (step : Except PyError (Heap K)) : Prop :=
  ∀ h', step = .ok h' → Framed targets h h'

namespace Touches

variable {h : Heap K} {targets : List Nat} {v : Nat}

theorem ok : Touches targets h (.ok h) := by
  intro h' hok
  obtain rfl := Except.ok.inj hok
  exact ⟨rfl, rfl, fun _ _ => rfl⟩

theorem setGrad (hv : v ∈ targets) (g : Matrix K) : Touches targets h (.ok (h.setGrad v g)) := by
  intro h' hok
  obtain rfl := Except.ok.inj hok
  refine ⟨funext fun _ => ctx_setGrad, funext fun _ => prev_setGrad, fun w hw => ?_⟩
  exact grad_setGrad_of_ne fun he => hw (he ▸ hv)

/-- Something is read first. -/
theorem read {α : Type} {x : Except PyError α} {f : α → Except PyError (Heap K)}
    (hf : ∀ a, Touches targets h (f a)) : Touches targets h (x >>= f) := by
  intro h' hok
  cases x with
  | error e => cases hok
  | ok a => exact hf a h' hok

/-- One step after another. -/
theorem bind {step : Except PyError (Heap K)} {f : Heap K → Except PyError (Heap K)}
    (hstep : Touches targets h step) (hf : ∀ h', h'.ctx = h.ctx → Touches targets h' (f h')) :
    Touches targets h (step >>= f) := by
  intro h' hok
  cases hs : step with
  | error e =>
    rw [hs] at hok
    cases hok
  | ok h₁ =>
    rw [hs] at hok
    have hfirst := hstep h₁ hs
    have hlater := hf h₁ hfirst.ctx h' hok
    exact ⟨hlater.ctx.trans hfirst.ctx, hlater.prev.trans hfirst.prev,
      fun w hw => (hlater.grad w hw).trans (hfirst.grad w hw)⟩

variable [CommRing K]

theorem ensureGrad (hv : v ∈ targets) : Touches targets h (h.ensureGrad v) := by
  unfold Heap.ensureGrad Heap.initGrad
  split
  · exact read fun row => setGrad hv _
  · exact ok

theorem addGrad (hv : v ∈ targets) (d : Matrix K) : Touches targets h (h.addGrad v d) :=
  read fun _ => read fun _ => setGrad hv _

section Closures

variable {self other out : Nat} (hself : self ∈ targets) (hother : other ∈ targets)

include hself

theorem backwardRelu [LinearOrder K] : Touches targets h (h.backwardRelu self out) :=
  bind (ensureGrad hself) fun _ _ => read fun _ => read fun _ => read fun _ => addGrad hself _

theorem backwardSum : Touches targets h (h.backwardSum self out) :=
  bind (ensureGrad hself) fun _ _ => read fun _ => read fun _ => read fun _ => addGrad hself _

include hother

/-- Both operands of a closure get a gradient before anything is added. -/
theorem ensureBoth {f : Heap K → Except PyError (Heap K)} (hf : ∀ h', Touches targets h' (f h')) :
    Touches targets h (do
      let h ← h.ensureGrad self
      let h ← h.ensureGrad other
      f h) :=
  bind (ensureGrad hself) fun _ _ => bind (ensureGrad hother) fun h' _ => hf h'

theorem backwardAdd : Touches targets h (h.backwardAdd self other out) :=
  ensureBoth hself hother fun _ => read fun _ => bind (addGrad hself _) fun _ _ =>
    read fun _ => addGrad hother _

theorem backwardMul : Touches targets h (h.backwardMul self other out) :=
  ensureBoth hself hother fun _ => read fun _ => read fun _ => read fun _ =>
    bind (addGrad hself _) fun _ _ => read fun _ => read fun _ => addGrad hother _

theorem backwardMatmul : Touches targets h (h.backwardMatmul self other out) :=
  ensureBoth hself hother fun _ => read fun _ => read fun _ => read fun _ => read fun _ =>
    read fun _ => read fun _ => bind (addGrad hself _) fun _ _ => addGrad hother _

end Closures

variable [LinearOrder K]

/-- A closure touches the operands of its tensor only. -/
theorem runCtx (hv : ∀ a ∈ (h.ctx v).children, a ∈ targets) :
    Touches targets h (h.runCtx v) := by
  unfold Heap.runCtx
  cases hctx : h.ctx v with
  | leaf => exact ok
  | add self other | mul self other | matmul self other =>
    rw [hctx] at hv
    have hself : self ∈ targets := hv self List.mem_cons_self
    have hother : other ∈ targets := hv other (List.mem_cons_of_mem _ List.mem_cons_self)
    first
      | exact backwardAdd hself hother
      | exact backwardMul hself hother
      | exact backwardMatmul hself hother
  | relu self | sum self =>
    rw [hctx] at hv
    have hself : self ∈ targets := hv self List.mem_cons_self
    first
      | exact backwardRelu hself
      | exact backwardSum hself

theorem foldlM (order : List Nat) : ∀ h : Heap K,
    (∀ u ∈ order, ∀ a ∈ (h.ctx u).children, a ∈ targets) →
      Touches targets h (order.foldlM Heap.runCtx h) := by
  induction order with
  | nil => exact fun h _ => ok
  | cons u rest ih =>
    intro h horder
    refine bind (runCtx (horder u List.mem_cons_self)) fun h' hctx => ih h' fun v hv => ?_
    rw [hctx]
    exact horder v (List.mem_cons_of_mem _ hv)

/-- A sweep touches operands of the tensors it visits. -/
theorem sweep (order : List Nat) (h : Heap K) :
    Touches (order.flatMap fun w => (h.ctx w).children) h (order.foldlM Heap.runCtx h) :=
  foldlM order h fun u hu _ ha => List.mem_flatMap.mpr ⟨u, hu, ha⟩

end Touches

/-! ## The topological order -/

variable {h₀ h : Heap K} {root limit : Nat}

/-- The inner nodes of the graph are tensors of the heap. -/
theorem mem_range_of_prev {v : Nat} (hv : h.prev v ≠ []) : v ∈ Finset.range h.length := by
  refine Finset.mem_range.mpr (Nat.lt_of_not_le fun hle => hv ?_)
  exact (out_of_range hle).2.1

/-- On a graph without cycles, `build_topo` has sorted what it returns. -/
theorem sorted_of_acyclic (hacyclic : TopoSort.Acyclic h.prev) {topo : List Nat}
    (hok : h.buildTopo limit root = .ok topo) : Sorted h root topo := by
  obtain ⟨rank, hdown, -⟩ := hacyclic.exists_rank fun _ => mem_range_of_prev
  unfold buildTopo at hok
  cases hvisit : TopoSort.visit h.prev limit .start root with
  | none =>
    rw [hvisit] at hok
    cases hok
  | some s =>
    rw [hvisit] at hok
    cases hok
    obtain ⟨hnodup, hmem, hordered⟩ := TopoSort.visit_root_of_some hdown hvisit
    exact ⟨hnodup, hmem, hordered⟩

/-- The recursion goes no deeper than there are tensors. -/
theorem buildTopo_of_acyclic (hacyclic : TopoSort.Acyclic h.prev) (hlimit : h.length < limit) :
    ∃ topo, h.buildTopo limit root = .ok topo := by
  obtain ⟨rank, hdown, hrank⟩ := hacyclic.exists_rank fun _ => mem_range_of_prev
  have hdepth : rank root < limit := by
    have := hrank root
    rw [Finset.card_range] at this
    omega
  obtain ⟨s, hvisit, _⟩ := TopoSort.visit_root hdown hdepth
  exact ⟨s.topo, by rw [buildTopo, hvisit]⟩

/-! ## The sweep -/

variable [CommRing K] [LinearOrder K]

/-- Each closure of the order runs on a gradient that is there and stays as it is. -/
def Complete (h : Heap K) (order : List Nat) : Prop :=
  ∀ before v after, order = before ++ v :: after → ∃ h₁ h₂, before.foldlM runCtx h = .ok h₁ ∧
    (h₁.grad v).isSome = true ∧ h₁.runCtx v = .ok h₂ ∧
    ∀ mid rest, after = mid ++ rest → ∃ h₃, mid.foldlM runCtx h₂ = .ok h₃ ∧
      h₃.grad v = h₁.grad v

/-- The graph of `h₀` with some gradients of the right shapes. -/
structure StateOf (h₀ h : Heap K) : Prop where
  same : SameGraph h₀ h
  prev : h.prev = h₀.prev
  shaped : ∀ v r c m, h₀.HasShape v r c → h.grad v = some m → m.Shaped r c

variable {g : Nat → Nat → Nat → K} {order : List Nat}

omit [LinearOrder K] in
theorem StateOf.matches (hs : StateOf h₀ h) : Matches h₀ h h.gradEntry :=
  ⟨hs.same, hs.shaped, fun _ _ _ _ _ _ _ _ => rfl⟩

omit [CommRing K] [LinearOrder K] in
theorem Fed.of_append {l l' : List Nat} (hfed : Fed h₀ h (l ++ l')) : Fed h₀ h l :=
  fun before u after hsplit => hfed before u (after ++ l') (by rw [hsplit]; simp)

/-- No tensor of the order is an operand of itself or of a later one. -/
def Upstream (h₀ : Heap K) (order : List Nat) : Prop :=
  ∀ before v after, order = before ++ v :: after → ∀ u ∈ v :: after, v ∉ (h₀.ctx u).children

omit [CommRing K] [LinearOrder K] in
theorem Upstream.tail {u : Nat} (hup : Upstream h₀ (u :: order)) : Upstream h₀ order :=
  fun before v after hsplit => hup (u :: before) v after (by rw [hsplit]; rfl)

theorem complete_of_fed (hw : h₀.WellFormed) (hm : Matches h₀ h g) (hfed : Fed h₀ h order)
    (hup : Upstream h₀ order) : Complete h order := by
  induction order generalizing h g with
  | nil =>
    intro before v after hsplit
    simp at hsplit
  | cons u order ih =>
    obtain ⟨h₁, hok, hm₁, hkeeps, hchildren⟩ := runsAs hw hm hfed.head
    have hrest := hfed.tail hkeeps hchildren
    intro before v after hsplit
    cases before with
    | cons w before =>
      obtain ⟨rfl, hsplit'⟩ := List.cons.inj hsplit
      obtain ⟨h₂, h₃, hbefore, hlater⟩ := ih hm₁ hrest hup.tail before v after hsplit'
      exact ⟨h₂, h₃, by rw [List.foldlM_cons, hok]; exact hbefore, hlater⟩
    | nil =>
      obtain ⟨rfl, rfl⟩ := List.cons.inj hsplit
      refine ⟨h, h₁, rfl, hfed.head, hok, fun mid rest hmid => ?_⟩
      subst hmid
      obtain ⟨h₂, hfold, _⟩ := foldlM_runCtx hw hm₁ hrest.of_append
      refine ⟨h₂, hfold, ?_⟩
      -- neither `u` nor what runs later has `u` as an operand
      have hclear := hup [] u (mid ++ rest) rfl
      have hall : (u :: mid).foldlM runCtx h = .ok h₂ := by
        rw [List.foldlM_cons, hok]
        exact hfold
      refine (Touches.sweep (u :: mid) h h₂ hall).grad u fun hmem => ?_
      obtain ⟨w, hw, ha⟩ := List.mem_flatMap.mp hmem
      rw [hm.same.ctx] at ha
      refine hclear w ?_ ha
      exact List.cons_subset_cons u (List.subset_append_left mid rest) hw

omit [CommRing K] [LinearOrder K] in
theorem StateOf.buildTopo (hs : StateOf h₀ h) :
    h.buildTopo limit root = h₀.buildTopo limit root := by
  rw [Heap.buildTopo, Heap.buildTopo, hs.prev]

theorem Sorted.upstream {topo : List Nat} (hw : h₀.WellFormed) (hs : Sorted h₀ root topo) :
    Upstream h₀ topo.reverse := by
  intro before v after hsplit u hu hv
  rcases List.mem_cons.mp hu with rfl | hafter
  · exact absurd (hw.older u u hv) (Nat.lt_irrefl u)
  · have htopo : u ∈ topo := by
      rw [← List.mem_reverse, hsplit]
      exact List.mem_append_right _ hu
    have hbefore := hs.ordered.mem_before hs.nodup hsplit htopo (hw.mem_prev.mpr hv)
    have hnodup : (before ++ v :: after).Nodup := hsplit ▸ List.nodup_reverse.mpr hs.nodup
    exact (List.nodup_append.mp hnodup).2.2 u hbefore u hu rfl

/-- With a gradient at the root, every closure that the root depends on runs once, on a
complete gradient. -/
theorem complete_backward (hw : h₀.WellFormed) (hs : StateOf h₀ h) (hroot : h₀.HasShape root 1 1)
    {topo : List Nat} (htopo : h.buildTopo limit root = .ok topo) :
    Complete (h.setGrad root [[1]]) topo.reverse := by
  rw [hs.buildTopo] at htopo
  have hsorted := buildTopo_sorted hw htopo
  have hshaped : Matrix.Shaped ([[1]] : Matrix K) 1 1 := ⟨rfl, by simp⟩
  obtain ⟨hm, _, hself⟩ := hs.matches.setGrad hroot hshaped
    (x := Matrix.entry [[1]]) fun _ _ _ _ => rfl
  have hset : ((h.setGrad root [[1]]).grad root).isSome = true := by
    rw [hself]
    rfl
  exact complete_of_fed hw hm (hsorted.fed hw hset) (hsorted.upstream hw)

/-- On a graph without cycles the order is found and lists what the root depends on, each
tensor once and after its operands; and on a graph built by the operations the pass runs
each closure of the order once, on a gradient that is there and stays as it is. -/
theorem backward_visits :
    (∀ (h : Heap K) (root limit : Nat), TopoSort.Acyclic h.prev →
      (h.length < limit → ∃ topo, h.buildTopo limit root = .ok topo) ∧
      ∀ topo, h.buildTopo limit root = .ok topo → Sorted h root topo) ∧
    ∀ (h₀ h : Heap K) (root limit : Nat) (topo : List Nat), Built h₀ → StateOf h₀ h →
      h₀.HasShape root 1 1 → h.buildTopo limit root = .ok topo →
      TopoSort.Acyclic h.prev ∧
        h.backward limit root = topo.reverse.foldlM runCtx (h.setGrad root [[1]]) ∧
        Complete (h.setGrad root [[1]]) topo.reverse := by
  refine ⟨fun h root limit hacyclic => ⟨buildTopo_of_acyclic hacyclic, fun topo =>
    sorted_of_acyclic hacyclic⟩, fun h₀ h root limit topo hb hs hroot htopo => ?_⟩
  have hw := hb.wellFormed
  refine ⟨?_, by rw [backward, htopo]; rfl, complete_backward hw hs hroot htopo⟩
  rw [hs.prev]
  exact TopoSort.acyclic_of_rank hw.prev_lt

/-- `x = 2` and `x + x`. -/
def doubled : Heap ℤ := [⟨[[2]], none, .leaf, []⟩, ⟨[[4]], none, .add 0 0, [0]⟩]

theorem doubled_built : Built doubled := by
  have hx : Built ([⟨[[2]], none, .leaf, []⟩] : Heap ℤ) :=
    .leaf .empty Nat.one_pos Nat.one_pos ⟨rfl, by simp⟩
  have hshape : HasShape ([⟨[[2]], none, .leaf, []⟩] : Heap ℤ) 0 1 1 :=
    ⟨by decide, by decide, by decide, rfl, by decide⟩
  exact .operation hx (.add hshape hshape) (List.Perm.refl [0]) (by decide)

theorem backward_visits_doubled : doubled.buildTopo 3 1 = .ok [0, 1] ∧
    Sorted doubled 1 [0, 1] ∧ Complete (doubled.setGrad 1 [[1]]) [1, 0] := by
  have htopo : doubled.buildTopo 3 1 = .ok [0, 1] := by decide
  have hstate : StateOf doubled doubled := ⟨⟨rfl, fun _ => rfl, fun _ => rfl⟩, rfl,
    (matches_unset doubled_built.wellFormed).shaped⟩
  obtain ⟨hdag, hpass⟩ := backward_visits (K := ℤ)
  obtain ⟨hacyclic, -, hcomplete⟩ := hpass doubled doubled 1 3 _ doubled_built hstate
    ⟨by decide, by decide, by decide, rfl, by decide⟩ htopo
  exact ⟨htopo, (hdag doubled 1 3 hacyclic).2 _ htopo, hcomplete⟩

end Heap

end PythonPortfolio.Synapse
