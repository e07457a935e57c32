import PythonPortfolio.Synapse.Accumulation
import PythonPortfolio.Synapse.Forward

/-!
# The optimizer

`zero_grad` clears the gradients of the parameters and of nothing else, and `step`
replaces the data of each parameter that has a gradient. Tensors of earlier passes stay
in the heap with data and gradients that fit their parameters no longer. A backward pass
does not see them: it depends only on the tensors its root depends on.
-/

namespace PythonPortfolio.Synapse

open Library Synapse.Matrix Finset

structure SGD (K : Type) where
  parameters : List Nat
  lr : K

namespace Heap

variable {K : Type}

def setData (h : Heap K) (v : Nat) (d : Matrix K) : Heap K :=
  h.modify v fun t => { t with data := d }

/-- `v.grad = None`. -/
def clearGrad (h : Heap K) (v : Nat) : Heap K := h.modify v fun t => { t with grad := none }

end Heap

namespace SGD

variable {K : Type}

def zeroGrad (o : SGD K) (h : Heap K) : Heap K := o.parameters.foldl Heap.clearGrad h

/-- What `step` does to one parameter. -/
def update [CommRing K] (lr : K) (h : Heap K) (p : Nat) : Except PyError (Heap K) :=
  match h.grad p with
  | none => .ok h
  | some grad => do
    let updateDelta := Linalg.mulScalar grad lr
    let data ← Linalg.sub (h.data p) updateDelta
    return h.setData p data

def step [CommRing K] (o : SGD K) (h : Heap K) : Except PyError (Heap K) :=
  o.parameters.foldlM (update o.lr) h

end SGD

/-! ## What the optimizer changes -/

namespace Heap

variable {K : Type} {h : Heap K} {v w : Nat} {d : Matrix K}

@[simp] theorem ctx_setData : (h.setData v d).ctx w = h.ctx w := by
  by_cases hvw : v = w <;> simp [ctx, setData, hvw, Function.comp_def]

@[simp] theorem prev_setData : (h.setData v d).prev w = h.prev w := by
  by_cases hvw : v = w <;> simp [Heap.prev, setData, hvw, Function.comp_def]

@[simp] theorem grad_setData : (h.setData v d).grad w = h.grad w := by
  by_cases hvw : v = w <;> simp [grad, setData, hvw, Option.bind_map]

@[simp] theorem length_setData : (h.setData v d).length = h.length := List.length_modify _ _ _

theorem data_setData_self (hv : v < h.length) : (h.setData v d).data v = d := by
  simp [Heap.data, setData, hv]

theorem data_setData_of_ne (hvw : v ≠ w) : (h.setData v d).data w = h.data w := by
  simp [Heap.data, setData, hvw]

theorem getElem?_clearGrad :
    (h.clearGrad v)[w]? = if v = w then h[w]?.map fun t => { t with grad := none } else h[w]? := by
  by_cases hvw : v = w <;> simp [clearGrad, hvw]

end Heap

namespace SGD

variable {K : Type} {o : SGD K} {h : Heap K} {v : Nat}

theorem getElem?_zeroGrad : (o.zeroGrad h)[v]? =
    if v ∈ o.parameters then h[v]?.map fun t => { t with grad := none } else h[v]? := by
  unfold zeroGrad
  generalize o.parameters = ps
  induction ps generalizing h with
  | nil => simp
  | cons p ps ih =>
    rw [List.foldl_cons, ih, Heap.getElem?_clearGrad]
    by_cases hp : p = v
    · subst hp
      by_cases hv : p ∈ ps <;> simp [hv, Function.comp_def]
    · simp [hp, Ne.symm hp]

theorem length_zeroGrad : (o.zeroGrad h).length = h.length := by
  unfold zeroGrad
  generalize o.parameters = ps
  induction ps generalizing h with
  | nil => rfl
  | cons p ps ih => rw [List.foldl_cons, ih, Heap.clearGrad, List.length_modify]

theorem data_zeroGrad : (o.zeroGrad h).data v = h.data v := by
  rw [Heap.data, getElem?_zeroGrad]
  split <;> simp [Heap.data, Function.comp_def]

variable [CommRing K]

/-- `h'` is `h` with new data for the listed parameters: what they were less `lr` times
their gradients. -/
structure Stepped (lr : K) (ps : List Nat) (h h' : Heap K) : Prop where
  length : h'.length = h.length
  ctx : h'.ctx = h.ctx
  prev : h'.prev = h.prev
  grad : h'.grad = h.grad
  data : ∀ v, v ∉ ps → h'.data v = h.data v
  shape : ∀ v r c, h.HasShape v r c → h'.HasShape v r c
  entries : ∀ p ∈ ps, ∀ r c, h.HasShape p r c → ∀ i < r, ∀ j < c,
    h'.entries p i j = h.entries p i j - lr * h.gradEntry p i j

/-- The gradient of `p`, if there is one, has the shape of its data. -/
def Ready (h : Heap K) (p : Nat) : Prop :=
  ∃ r c, h.HasShape p r c ∧ ∀ g, h.grad p = some g → g.Shaped r c

theorem update_ok {p : Nat} (hp : Ready h p) (lr : K) :
    ∃ h', update lr h p = .ok h' ∧ Stepped lr [p] h h' := by
  obtain ⟨r, c, hs, hgrad⟩ := hp
  unfold update
  cases hg : h.grad p with
  | none =>
    refine ⟨h, rfl, rfl, rfl, rfl, rfl, fun _ _ => rfl, fun _ _ _ hv => hv, ?_⟩
    intro q hq r' c' _ i _ j _
    rw [List.mem_singleton.mp hq, Heap.gradEntry, hg]
    simp [entry]
  | some g =>
    have hshape := hgrad g hg
    have hdelta : (Linalg.mulScalar g lr).Shaped r c := shaped_map hshape _
    have hself := fun d => Heap.data_setData_self (d := d) hs.lt
    refine ⟨h.setData p (ofFn r c fun i j =>
      (h.data p).entry i j - (Linalg.mulScalar g lr).entry i j), ?_, ?_⟩
    · simp only [bind, Except.bind, Linalg.sub_ok hs.shaped hdelta hs.rows]
      rfl
    refine ⟨Heap.length_setData, funext fun _ => Heap.ctx_setData,
      funext fun _ => Heap.prev_setData, funext fun _ => Heap.grad_setData, fun v hv => ?_,
      fun v r' c' hv => ?_, ?_⟩
    · exact Heap.data_setData_of_ne fun he => hv (List.mem_singleton.mpr he.symm)
    · refine ⟨by rw [Heap.length_setData]; exact hv.lt, hv.rows, hv.cols, ?_⟩
      by_cases hpv : p = v
      · subst hpv
        obtain ⟨rfl, rfl⟩ := hs.unique hv
        rw [hself]
        exact shaped_ofFn _ _ _
      · rw [Heap.data_setData_of_ne hpv]
        exact hv.shaped
    · intro q hq r' c' hq' i hi j hj
      obtain rfl := List.mem_singleton.mp hq
      obtain ⟨rfl, rfl⟩ := hs.unique hq'
      rw [Heap.entries, hself, entry_ofFn _ hi hj, Linalg.mulScalar, entry_map hshape _ hi hj,
        Heap.gradEntry, hg, mul_comm lr]
      rfl

theorem Ready.step {lr : K} {ps : List Nat} {h' : Heap K} {p : Nat} (hp : Ready h p)
    (hs : Stepped lr ps h h') : Ready h' p := by
  obtain ⟨r, c, hshape, hgrad⟩ := hp
  exact ⟨r, c, hs.shape p r c hshape, fun g hg => hgrad g (by rw [← hs.grad]; exact hg)⟩

/-- `step` updates every parameter once. -/
theorem step_ok (hnodup : o.parameters.Nodup) (hready : ∀ p ∈ o.parameters, Ready h p) :
    ∃ h', o.step h = .ok h' ∧ Stepped o.lr o.parameters h h' := by
  unfold step
  generalize o.parameters = ps at hnodup hready
  induction ps generalizing h with
  | nil =>
    exact ⟨h, rfl, rfl, rfl, rfl, rfl, fun _ _ => rfl, fun _ _ _ hv => hv, fun p hp => by cases hp⟩
  | cons p ps ih =>
    obtain ⟨hp, hrest⟩ := List.nodup_cons.mp hnodup
    obtain ⟨h₁, hok, hone⟩ := update_ok (hready p List.mem_cons_self) o.lr
    obtain ⟨h', hok', hall⟩ := ih hrest fun q hq => (hready q (List.mem_cons_of_mem _ hq)).step hone
    refine ⟨h', by rw [List.foldlM_cons, hok]; exact hok', hall.length.trans hone.length,
      hall.ctx.trans hone.ctx, hall.prev.trans hone.prev, hall.grad.trans hone.grad, ?_,
      fun v r c hv => hall.shape v r c (hone.shape v r c hv), ?_⟩
    · intro v hv
      obtain ⟨hvp, hvps⟩ := not_or.mp (fun hor => hv (List.mem_cons.mpr hor))
      rw [hall.data v hvps, hone.data v fun hmem => hvp (List.mem_singleton.mp hmem)]
    · intro q hq r c hs i hi j hj
      rcases List.mem_cons.mp hq with rfl | hq
      · have hold : h'.entries q i j = h₁.entries q i j := by
          rw [Heap.entries, Heap.entries, hall.data q hp]
        rw [hold]
        exact hone.entries q (List.mem_singleton_self q) r c hs i hi j hj
      · have hqp : q ∉ [p] := fun hmem => hp (List.mem_singleton.mp hmem ▸ hq)
        rw [hall.entries q hq r c (hone.shape q r c hs) i hi j hj]
        rw [Heap.entries, hone.data q hqp, Heap.gradEntry, hone.grad]
        rfl

end SGD

/-! ## What a pass sees -/

namespace Heap

variable {K : Type} {seen : Nat → Prop} {h k : Heap K} {v : Nat}

/-- The two heaps have the same tensors where they are seen. -/
def Shows (seen : Nat → Prop) (h k : Heap K) : Prop := ∀ v, seen v → h[v]? = k[v]?

theorem Shows.data (hs : Shows seen h k) (hv : seen v) : h.data v = k.data v := by
  rw [Heap.data, Heap.data, hs v hv]

theorem Shows.grad (hs : Shows seen h k) (hv : seen v) : h.grad v = k.grad v := by
  rw [Heap.grad, Heap.grad, hs v hv]

theorem Shows.ctx (hs : Shows seen h k) (hv : seen v) : h.ctx v = k.ctx v := by
  rw [Heap.ctx, Heap.ctx, hs v hv]

theorem Shows.prev (hs : Shows seen h k) (hv : seen v) : h.prev v = k.prev v := by
  rw [Heap.prev, Heap.prev, hs v hv]

theorem Shows.gradOf (hs : Shows seen h k) (hv : seen v) : h.gradOf v = k.gradOf v := by
  unfold Heap.gradOf
  rw [hs.grad hv]

theorem Shows.setGrad (hs : Shows seen h k) (v : Nat) (g : Matrix K) :
    Shows seen (h.setGrad v g) (k.setGrad v g) := by
  intro w hw
  rw [Heap.setGrad, Heap.setGrad, List.getElem?_modify, List.getElem?_modify, hs w hw]

/-- If the second computation returns, so does the first, with a heap that looks the same. -/
def Follows (seen : Nat → Prop) (x y : Except PyError (Heap K)) : Prop :=
  ∀ k', y = .ok k' → ∃ h', x = .ok h' ∧ Shows seen h' k'

theorem follows_ok (hs : Shows seen h k) : Follows seen (.ok h) (.ok k) := by
  intro k' hok
  obtain rfl := Except.ok.inj hok
  exact ⟨h, rfl, hs⟩

/-- Both read the same first. -/
theorem Follows.read {α : Type} {x : Except PyError α} {f f' : α → Except PyError (Heap K)}
    (hf : ∀ a, Follows seen (f a) (f' a)) : Follows seen (x >>= f) (x >>= f') := by
  intro k' hok
  cases x with
  | error e => cases hok
  | ok a => exact hf a k' hok

theorem Follows.bind {x y : Except PyError (Heap K)} {f f' : Heap K → Except PyError (Heap K)}
    (hxy : Follows seen x y) (hf : ∀ h' k', Shows seen h' k' → Follows seen (f h') (f' k')) :
    Follows seen (x >>= f) (y >>= f') := by
  intro k' hok
  cases y with
  | error e => cases hok
  | ok k₁ =>
    obtain ⟨h₁, rfl, hs⟩ := hxy k₁ rfl
    exact hf h₁ k₁ hs k' hok

variable [CommRing K]

theorem Shows.ensureGrad (hs : Shows seen h k) (hv : seen v) :
    Follows seen (h.ensureGrad v) (k.ensureGrad v) := by
  unfold Heap.ensureGrad initGrad
  rw [hs.grad hv, hs.data hv]
  split
  · exact .read fun row => follows_ok (hs.setGrad v _)
  · exact follows_ok hs

theorem Shows.addGrad (hs : Shows seen h k) (hv : seen v) (d : Matrix K) :
    Follows seen (h.addGrad v d) (k.addGrad v d) := by
  unfold Heap.addGrad
  rw [hs.gradOf hv]
  exact .read fun g => .read fun g => follows_ok (hs.setGrad v g)

section Closures

variable {self other out : Nat} (hs : Shows seen h k) (hout : seen out) (hself : seen self)

include hs hout hself

theorem Shows.backwardRelu [LinearOrder K] :
    Follows seen (h.backwardRelu self out) (k.backwardRelu self out) := by
  refine (hs.ensureGrad hself).bind fun h' k' hs' => ?_
  rw [hs'.data hself, hs'.gradOf hout]
  exact .read fun _ => .read fun _ => .read fun _ => hs'.addGrad hself _

theorem Shows.backwardSum : Follows seen (h.backwardSum self out) (k.backwardSum self out) := by
  refine (hs.ensureGrad hself).bind fun h' k' hs' => ?_
  rw [hs'.data hself, hs'.gradOf hout]
  exact .read fun _ => .read fun _ => .read fun _ => hs'.addGrad hself _

variable (hother : seen other)

include hother

omit hout in
/-- Both operands of a closure get a gradient before anything is added. -/
theorem Shows.ensureBoth {f f' : Heap K → Except PyError (Heap K)}
    (hf : ∀ h' k', Shows seen h' k' → Follows seen (f h') (f' k')) :
    Follows seen (do
      let h ← h.ensureGrad self
      let h ← h.ensureGrad other
      f h) (do
      let k ← k.ensureGrad self
      let k ← k.ensureGrad other
      f' k) :=
  (hs.ensureGrad hself).bind fun _ _ hs₁ => (hs₁.ensureGrad hother).bind hf

theorem Shows.backwardAdd :
    Follows seen (h.backwardAdd self other out) (k.backwardAdd self other out) := by
  refine hs.ensureBoth hself hother fun h' k' hs' => ?_
  rw [hs'.gradOf hout]
  refine .read fun _ => (hs'.addGrad hself _).bind fun h'' k'' hs'' => ?_
  rw [hs''.gradOf hout]
  exact .read fun _ => hs''.addGrad hother _

theorem Shows.backwardMul :
    Follows seen (h.backwardMul self other out) (k.backwardMul self other out) := by
  refine hs.ensureBoth hself hother fun h' k' hs' => ?_
  rw [hs'.gradOf hout, hs'.data hother]
  refine .read fun _ => .read fun _ => .read fun _ =>
    (hs'.addGrad hself _).bind fun h'' k'' hs'' => ?_
  rw [hs''.gradOf hout, hs''.data hself]
  exact .read fun _ => .read fun _ => hs''.addGrad hother _

theorem Shows.backwardMatmul :
    Follows seen (h.backwardMatmul self other out) (k.backwardMatmul self other out) := by
  refine hs.ensureBoth hself hother fun h' k' hs' => ?_
  rw [hs'.gradOf hout, hs'.data hother, hs'.data hself]
  exact .read fun _ => .read fun _ => .read fun _ => .read fun _ => .read fun _ => .read fun _ =>
    (hs'.addGrad hself _).bind fun _ _ hs'' => hs''.addGrad hother _

end Closures

variable [LinearOrder K]

/-- A closure reads and writes its tensor and the operands of it. -/
theorem Shows.runCtx (hs : Shows seen h k) (hv : seen v)
    (hclosed : ∀ a ∈ (k.ctx v).children, seen a) : Follows seen (h.runCtx v) (k.runCtx v) := by
  unfold Heap.runCtx
  rw [hs.ctx hv]
  cases hctx : k.ctx v with
  | leaf => exact follows_ok hs
  | add self other | mul self other | matmul self other =>
    rw [hctx] at hclosed
    have hself : seen self := hclosed self List.mem_cons_self
    have hother : seen other := hclosed other (List.mem_cons_of_mem _ List.mem_cons_self)
    first
      | exact hs.backwardAdd hv hself hother
      | exact hs.backwardMul hv hself hother
      | exact hs.backwardMatmul hv hself hother
  | relu self | sum self =>
    rw [hctx] at hclosed
    have hself : seen self := hclosed self List.mem_cons_self
    first
      | exact hs.backwardRelu hv hself
      | exact hs.backwardSum hv hself

theorem Shows.foldlM (order : List Nat) : ∀ {h k : Heap K}, Shows seen h k →
    (∀ u ∈ order, seen u ∧ ∀ a ∈ (k.ctx u).children, seen a) →
      Follows seen (order.foldlM Heap.runCtx h) (order.foldlM Heap.runCtx k) := by
  induction order with
  | nil => exact fun hs _ => follows_ok hs
  | cons u rest ih =>
    intro h k hs horder k' hok
    obtain ⟨hu, hchildren⟩ := horder u List.mem_cons_self
    rw [List.foldlM_cons] at hok ⊢
    obtain ⟨k₁, hfirst, hrest⟩ := bind_ok.mp hok
    obtain ⟨h₁, hrun, hs₁⟩ := hs.runCtx hu hchildren k₁ hfirst
    have hctx := (Touches.runCtx (fun _ ha => ha) k₁ hfirst).ctx
    rw [hrun]
    refine ih hs₁ (fun w hw => ?_) k' hrest
    rw [hctx]
    exact horder w (List.mem_cons_of_mem _ hw)

omit [CommRing K] [LinearOrder K] in
/-- The search sees only what its root depends on. -/
theorem Shows.buildTopo (hs : Shows seen h k) (hclosed : ∀ v, seen v → ∀ w ∈ k.prev v, seen w)
    {root : Nat} (hroot : seen root) (limit : Nat) :
    h.buildTopo limit root = k.buildTopo limit root := by
  have hvisit := TopoSort.visit_congr (fun v hv => (hs.prev hv).symm) hclosed limit
    TopoSort.Search.start root hroot
  rw [Heap.buildTopo, Heap.buildTopo, hvisit]

/-- A backward pass sees only what its root depends on. -/
theorem Shows.backward (hs : Shows seen h k) (hw : k.WellFormed)
    (hclosed : ∀ v, seen v → ∀ w ∈ k.prev v, seen w) {limit root : Nat} (hroot : seen root) :
    Follows seen (h.backward limit root) (k.backward limit root) := by
  have hreach : ∀ u, TopoSort.Reaches k.prev root u → seen u := by
    intro u hu
    induction hu with
    | refl => exact hroot
    | tail _ hw ih => exact hclosed _ ih _ hw
  intro k' hok
  obtain ⟨topo, htopo⟩ := buildTopo_of_backward hok
  rw [Heap.backward, htopo] at hok
  rw [Heap.backward, hs.buildTopo hclosed hroot, htopo]
  refine Shows.foldlM _ (hs.setGrad root _) (fun u hu => ?_) k' hok
  have hu' := hreach u (((buildTopo_sorted hw htopo).mem u).mp (List.mem_reverse.mp hu))
  refine ⟨hu', fun a ha => hclosed u hu' a (hw.mem_prev.mpr ?_)⟩
  rwa [ctx_setGrad] at ha

omit [CommRing K] [LinearOrder K] in
theorem Shows.hasShape {r c : Nat} (hs : Shows seen h k) (hv : seen v) (hk : k.HasShape v r c) :
    h.HasShape v r c := by
  refine ⟨?_, hk.rows, hk.cols, ?_⟩
  · have hsome : (h[v]?).isSome = true := by
      rw [hs v hv]
      simpa using hk.lt
    simpa using hsome
  · rw [hs.data hv]
    exact hk.shaped

end Heap

/-! ## One iteration -/

variable {K : Type} [CommRing K] [LinearOrder K] {o : SGD K} {h k : Heap K} {seen : Nat → Prop}
  {limit root : Nat}

/-- The tensors of `k` in `h'`: each parameter has moved against the derivatives of the
root, and the others are as they were. -/
structure SGD.Descended (o : SGD K) (k : Heap K) (root : Nat) (h' : Heap K) (v : Nat) : Prop where
  ctx : h'.ctx v = k.ctx v
  prev : h'.prev v = k.prev v
  shape : ∀ r c, k.HasShape v r c → h'.HasShape v r c
  kept : v ∉ o.parameters → h'.data v = k.data v
  moved : v ∈ o.parameters → ∀ r c, k.HasShape v r c → ∀ i < r, ∀ j < c,
    h'.entries v i j = k.entries v i j - o.lr * k.tangent v i j root 0 0

/-- `zero_grad`, `backward` and `step`, on a heap that shows a graph built by the operations
wherever the root and the parameters can see. -/
theorem SGD.descends (hw : k.WellFormed) (hroot : k.HasShape root 1 1)
    (htopo : ∃ topo, k.buildTopo limit root = .ok topo) (hs : Heap.Shows seen (o.zeroGrad h) k)
    (hclosed : ∀ v, seen v → ∀ w ∈ k.prev v, seen w) (hseen : seen root)
    (hnodup : o.parameters.Nodup) (hparams : ∀ p ∈ o.parameters, seen p ∧ p < k.length) :
    ∃ h₁ h', (o.zeroGrad h).backward limit root = .ok h₁ ∧ o.step h₁ = .ok h' ∧
      ∀ v, seen v → o.Descended k root h' v := by
  obtain ⟨topo, htopo⟩ := htopo
  obtain ⟨k₁, hok, -, -⟩ := Heap.backward_ok hw (Heap.matches_unset hw) hroot
    (Heap.buildTopo_sorted hw htopo) htopo
  obtain ⟨g, hm, -, htangent⟩ := Heap.backward_alone hw hroot hok
  obtain ⟨h₁, hok₁, hs₁⟩ := hs.backward hw hclosed hseen k₁ hok
  have hshape₁ : ∀ v r c, k.HasShape v r c → k₁.HasShape v r c := fun v r c hv =>
    ⟨by rw [hm.same.length]; exact hv.lt, hv.rows, hv.cols, by rw [hm.same.data]; exact hv.shaped⟩
  have hready : ∀ p ∈ o.parameters, SGD.Ready h₁ p := by
    intro p hp
    obtain ⟨hsp, hlt⟩ := hparams p hp
    obtain ⟨r, c, hshape⟩ := hw.shaped p hlt
    refine ⟨r, c, hs₁.hasShape hsp (hshape₁ p r c hshape), fun m hgrad => ?_⟩
    rw [hs₁.grad hsp] at hgrad
    exact hm.shaped p r c m hshape hgrad
  obtain ⟨h', hok', hstep⟩ := SGD.step_ok hnodup hready
  refine ⟨h₁, h', hok₁, hok', fun v hv => ⟨?_, ?_, fun r c hshape => ?_, fun hnot => ?_, ?_⟩⟩
  · rw [hstep.ctx, hs₁.ctx hv, hm.same.ctx]
  · rw [hstep.prev, hs₁.prev hv, Heap.prev_backward hok]
  · exact hstep.shape v r c (hs₁.hasShape hv (hshape₁ v r c hshape))
  · rw [hstep.data v hnot, hs₁.data hv, hm.same.data]
  · intro hp r c hshape i hi j hj
    have hgrad : h₁.gradEntry v i j = k.tangent v i j root 0 0 := by
      rw [Heap.gradEntry, hs₁.grad hv]
      exact (hm.entries v r c hshape i hi j hj).trans (htangent v r c hshape i hi j hj)
    have hentry : h₁.entries v i j = k.entries v i j := by
      rw [Heap.entries, Heap.entries, hs₁.data hv, hm.same.data]
    rw [hstep.entries v hp r c (hs₁.hasShape hv (hshape₁ v r c hshape)) i hi j hj, hentry, hgrad]

end PythonPortfolio.Synapse
