import Mathlib.Algebra.Group.Pi.Basic
import PythonPortfolio.Library.ReverseSweep
import PythonPortfolio.Synapse.Graph

/-!
# The backward pass as a sweep

Run on the reversed topological order, the closures add to the gradients what the
abstract sweep passes on: each closure adds to its operands the transposed image of
the gradient of its output. Missing gradients count as zero.
-/

namespace PythonPortfolio.Synapse

open Library Library.ReverseSweep Synapse.Matrix Finset

namespace Heap

variable {K : Type}

section Updates

variable {h : Heap K} {v w : Nat} {g : Matrix K}

@[simp] theorem data_setGrad : (h.setGrad v g).data w = h.data w := by
  by_cases hvw : v = w <;> simp [Heap.data, setGrad, hvw, Function.comp_def]

@[simp] theorem ctx_setGrad : (h.setGrad v g).ctx w = h.ctx w := by
  by_cases hvw : v = w <;> simp [ctx, setGrad, hvw, Function.comp_def]

@[simp] theorem prev_setGrad : (h.setGrad v g).prev w = h.prev w := by
  by_cases hvw : v = w <;> simp [Heap.prev, setGrad, hvw, Function.comp_def]

@[simp] theorem length_setGrad : (h.setGrad v g).length = h.length := List.length_modify _ _ _

theorem grad_setGrad_self (hv : v < h.length) : (h.setGrad v g).grad v = some g := by
  simp [grad, setGrad, hv]

theorem grad_setGrad_of_ne (hvw : v ≠ w) : (h.setGrad v g).grad w = h.grad w := by
  simp [grad, setGrad, hvw]

/-- Two states of the gradients of one graph. -/
structure SameGraph (h₀ h : Heap K) : Prop where
  length : h.length = h₀.length
  data : ∀ v, h.data v = h₀.data v
  ctx : ∀ v, h.ctx v = h₀.ctx v

theorem SameGraph.setGrad {h₀ : Heap K} (hs : SameGraph h₀ h) : SameGraph h₀ (h.setGrad v g) where
  length := by rw [length_setGrad, hs.length]
  data w := by rw [data_setGrad, hs.data]
  ctx w := by rw [ctx_setGrad, hs.ctx]

end Updates

variable [CommRing K]

/-- The gradient of `v`, zero where there is none. -/
def gradEntry (h : Heap K) (v i j : Nat) : K := ((h.grad v).getD []).entry i j

/-- `relu'`, with the value 0 at 0. -/
def gate [LinearOrder K] (x : K) : K := if x > 0 then 1 else 0

/-- What the closure of `v` passes on from the gradient `m`. -/
def adjoint [LinearOrder K] (h : Heap K) (v : Nat) (m : Nat → Nat → K) : List (Nat × (Nat → Nat → K)) :=
  match h.ctx v with
  | .leaf => []
  | .add a b => [(a, m), (b, m)]
  | .mul a b => [(a, fun i j => h.entries b i j * m i j), (b, fun i j => h.entries a i j * m i j)]
  | .matmul a b =>
    [(a, fun i j => ∑ k ∈ range (h.cols b), m i k * h.entries b j k),
      (b, fun i j => ∑ k ∈ range (h.rows a), h.entries a k i * m k j)]
  | .relu a => [(a, fun i j => gate (h.entries a i j) * m i j)]
  | .sum a => [(a, fun _ _ => m 0 0)]

theorem mem_adjoint [LinearOrder K] {h : Heap K} {v : Nat} {m : Nat → Nat → K}
    {c : Nat × (Nat → Nat → K)} (hc : c ∈ h.adjoint v m) : c.1 ∈ (h.ctx v).children := by
  unfold adjoint at hc
  cases hctx : h.ctx v <;> rw [hctx] at hc <;> simp only [Ctx.children]
  case leaf => cases hc
  case add | mul | matmul =>
    rcases List.mem_cons.mp hc with rfl | hc
    · exact List.mem_cons_self
    · rw [List.mem_singleton.mp hc]
      exact List.mem_cons_of_mem _ List.mem_cons_self
  case relu | sum =>
    rw [List.mem_singleton.mp hc]
    exact List.mem_cons_self

/-- The gradients of `h`, a state of the graph `h₀`, are those of `g`. -/
structure Matches (h₀ h : Heap K) (g : Nat → Nat → Nat → K) : Prop where
  same : SameGraph h₀ h
  shaped : ∀ v r c m, h₀.HasShape v r c → h.grad v = some m → m.Shaped r c
  entries : ∀ v r c, h₀.HasShape v r c → ∀ i < r, ∀ j < c, h.gradEntry v i j = g v i j

/-- No gradient is lost. -/
def Keeps (h h' : Heap K) : Prop := ∀ w, (h.grad w).isSome = true → (h'.grad w).isSome = true

variable {h₀ h : Heap K} {g : Nat → Nat → Nat → K} {a b r c k : Nat}

/-- Setting a gradient. -/
theorem Matches.setGrad (hm : Matches h₀ h g) (ha : h₀.HasShape a r c) {d : Matrix K}
    (hd : d.Shaped r c) {x : Nat → Nat → K} (hx : ∀ i < r, ∀ j < c, d.entry i j = x i j) :
    Matches h₀ (h.setGrad a d) (Function.update g a x) ∧ Keeps h (h.setGrad a d) ∧
      (h.setGrad a d).grad a = some d := by
  have hlt : a < h.length := by
    rw [hm.same.length]
    exact ha.lt
  have hself := grad_setGrad_self (g := d) hlt
  refine ⟨⟨hm.same.setGrad, fun v r' c' m hv hgrad => ?_, fun v r' c' hv i hi j hj => ?_⟩,
    fun w hw => ?_, hself⟩
  · by_cases hva : a = v
    · subst hva
      obtain ⟨rfl, rfl⟩ := ha.unique hv
      rw [hself] at hgrad
      rwa [← Option.some.inj hgrad]
    · rw [grad_setGrad_of_ne hva] at hgrad
      exact hm.shaped v r' c' m hv hgrad
  · by_cases hva : a = v
    · subst hva
      obtain ⟨rfl, rfl⟩ := ha.unique hv
      rw [gradEntry, hself, Function.update_self]
      exact hx i hi j hj
    · rw [gradEntry, grad_setGrad_of_ne hva, Function.update_of_ne (Ne.symm hva)]
      exact hm.entries v r' c' hv i hi j hj
  · by_cases hva : a = w
    · subst hva
      rw [hself]
      rfl
    · rwa [grad_setGrad_of_ne hva]

/-- A missing gradient is replaced by zeros, which changes no entry. -/
theorem ensureGrad_ok (hm : Matches h₀ h g) (ha : h₀.HasShape a r c) :
    ∃ h', h.ensureGrad a = .ok h' ∧ Matches h₀ h' g ∧ Keeps h h' ∧
      (h'.grad a).isSome = true ∧ ∀ w, (h.grad w).isSome = true → h'.grad w = h.grad w := by
  unfold ensureGrad
  cases hgrad : h.grad a with
  | some m => exact ⟨h, rfl, hm, fun _ hw => hw, by rw [hgrad]; rfl, fun _ _ => rfl⟩
  | none =>
    have hdata := ha.shaped
    rw [← hm.same.data] at hdata
    obtain ⟨row, hrow, hc⟩ := first_row hdata ha.rows
    have hzero : ∀ i < r, ∀ j < c, (Linalg.zeros r c : Matrix K).entry i j = g a i j := by
      intro i hi j hj
      rw [Linalg.zeros_eq, entry_ofFn _ hi hj, ← hm.entries a r c ha i hi j hj, gradEntry, hgrad]
      rfl
    have hzeros : (Linalg.zeros r c : Matrix K).Shaped r c := by
      rw [Linalg.zeros_eq]
      exact shaped_ofFn r c _
    obtain ⟨hm', hkeeps, hself⟩ := hm.setGrad ha hzeros hzero
    rw [Function.update_eq_self] at hm'
    refine ⟨h.setGrad a (Linalg.zeros r c), ?_, hm', hkeeps, by rw [hself]; rfl, fun w hw => ?_⟩
    · simp only [Option.isNone_none, if_true, initGrad, hrow, hdata.1]
      show Except.ok (h.setGrad a (Linalg.zeros r row.length)) = _
      rw [hc]
    · refine grad_setGrad_of_ne fun he => ?_
      rw [← he, hgrad] at hw
      cases hw

/-- Adding to a gradient. -/
theorem addGrad_ok (hm : Matches h₀ h g) (ha : h₀.HasShape a r c) (hgrad : (h.grad a).isSome = true)
    {d : Matrix K} (hd : d.Shaped r c) {x : Nat → Nat → K}
    (hx : ∀ i < r, ∀ j < c, d.entry i j = x i j) :
    ∃ h', h.addGrad a d = .ok h' ∧ Matches h₀ h' (Function.update g a (g a + x)) ∧ Keeps h h' ∧
      ∀ w, w ≠ a → h'.grad w = h.grad w := by
  obtain ⟨m, hgrad⟩ := Option.isSome_iff_exists.mp hgrad
  have hshape := hm.shaped a r c m ha hgrad
  have hentries := hm.entries a r c ha
  have hsum : ∀ i < r, ∀ j < c,
      (ofFn r c fun i j => m.entry i j + d.entry i j).entry i j = (g a + x) i j := by
    intro i hi j hj
    have := hentries i hi j hj
    rw [gradEntry, hgrad] at this
    rw [entry_ofFn _ hi hj, hx i hi j hj, Pi.add_apply, Pi.add_apply, ← this]
    rfl
  obtain ⟨hm', hkeeps, _⟩ := hm.setGrad ha (shaped_ofFn r c _) hsum
  refine ⟨_, ?_, hm', hkeeps, fun w hw => grad_setGrad_of_ne (Ne.symm hw)⟩
  simp only [addGrad, gradOf, hgrad, bind, Except.bind, Linalg.add_ok hshape hd ha.rows]
  rfl

/-- The states a binary closure of `v` goes through: both operands get a gradient to add
to, then `a` receives `da` and `b` receives `db`; the gradient of `v` stays. -/
structure BinaryRun (h₀ h h₁ h₂ h₃ h₄ : Heap K) (v a b : Nat) (m da db : Matrix K) : Prop where
  ensureFirst : h.ensureGrad a = .ok h₁
  ensureSecond : h₁.ensureGrad b = .ok h₂
  addFirst : h₂.addGrad a da = .ok h₃
  addSecond : h₃.addGrad b db = .ok h₄
  same₂ : SameGraph h₀ h₂
  same₃ : SameGraph h₀ h₃
  grad₂ : h₂.grad v = some m
  grad₃ : h₃.grad v = some m
  keeps : Keeps h h₄
  first : (h₄.grad a).isSome = true
  second : (h₄.grad b).isSome = true

theorem binaryRun (hm : Matches h₀ h g) {v ra ca rb cb : Nat} (ha : h₀.HasShape a ra ca)
    (hb : h₀.HasShape b rb cb) (hav : v ≠ a) {m : Matrix K} (hv : h.grad v = some m)
    {da db : Matrix K} (hda : da.Shaped ra ca) (hdb : db.Shaped rb cb) {x y : Nat → Nat → K}
    (hx : ∀ i < ra, ∀ j < ca, da.entry i j = x i j)
    (hy : ∀ i < rb, ∀ j < cb, db.entry i j = y i j) :
    ∃ h₁ h₂ h₃ h₄, BinaryRun h₀ h h₁ h₂ h₃ h₄ v a b m da db ∧
      Matches h₀ h₄ (accumulate g [(a, x), (b, y)]) := by
  have hset : (h.grad v).isSome = true := by rw [hv]; rfl
  obtain ⟨h₁, hok₁, hm₁, hkeeps₁, hself₁, hsame₁⟩ := ensureGrad_ok hm ha
  obtain ⟨h₂, hok₂, hm₂, hkeeps₂, hself₂, hsame₂⟩ := ensureGrad_ok hm₁ hb
  obtain ⟨h₃, hok₃, hm₃, hkeeps₃, hother₃⟩ := addGrad_ok hm₂ ha (hkeeps₂ a hself₁) hda hx
  obtain ⟨h₄, hok₄, hm₄, hkeeps₄, _⟩ := addGrad_ok hm₃ hb (hkeeps₃ b hself₂) hdb hy
  have hgrad₂ : h₂.grad v = some m := by
    rw [hsame₂ v (hkeeps₁ v hset), hsame₁ v hset, hv]
  refine ⟨h₁, h₂, h₃, h₄, ⟨hok₁, hok₂, hok₃, hok₄, hm₂.same, hm₃.same, hgrad₂, ?_, ?_, ?_, ?_⟩, hm₄⟩
  · rw [hother₃ v hav, hgrad₂]
  · exact fun w hw => hkeeps₄ w (hkeeps₃ w (hkeeps₂ w (hkeeps₁ w hw)))
  · exact hkeeps₄ a (hkeeps₃ a (hkeeps₂ a hself₁))
  · exact hkeeps₄ b (hkeeps₃ b hself₂)

theorem hadamard_ok {x y : Matrix K} (hx : x.Shaped r c) (hy : y.Shaped r c) :
    hadamard r c x y = .ok (ofFn r c fun i j => x.entry i j * y.entry i j) := by
  refine table_ok fun i hi j hj => ?_
  rw [cell_ok hx hi hj, cell_ok hy hi hj]
  rfl

variable [LinearOrder K]

/-- The closure of a tensor with a gradient succeeds and passes on what the abstract
sweep does. -/
def RunsAs (h₀ h : Heap K) (g : Nat → Nat → Nat → K) (v : Nat) : Prop :=
  ∃ h', h.runCtx v = .ok h' ∧ Matches h₀ h' (accumulate g (h₀.adjoint v (g v))) ∧ Keeps h h' ∧
    ∀ a ∈ (h₀.ctx v).children, (h'.grad a).isSome = true

theorem RunsAs.binary {h₁ h₂ h₃ h₄ : Heap K} {v : Nat} {m da db : Matrix K} {x y : Nat → Nat → K}
    (hrun : BinaryRun h₀ h h₁ h₂ h₃ h₄ v a b m da db)
    (hm : Matches h₀ h₄ (accumulate g [(a, x), (b, y)])) (hok : h.runCtx v = .ok h₄)
    (hadjoint : h₀.adjoint v (g v) = [(a, x), (b, y)]) (hchildren : (h₀.ctx v).children = [a, b]) :
    RunsAs h₀ h g v := by
  refine ⟨h₄, hok, by rw [hadjoint]; exact hm, hrun.keeps, fun w hw => ?_⟩
  rw [hchildren] at hw
  rcases List.mem_cons.mp hw with rfl | hw
  · exact hrun.first
  · rw [List.mem_singleton.mp hw]
    exact hrun.second

variable {v : Nat} {m : Matrix K}

theorem runsAs_add (hm : Matches h₀ h g) (hctx : h₀.ctx v = .add a b) (ha : h₀.HasShape a r c)
    (hb : h₀.HasShape b r c) (hav : v ≠ a) (hv : h.grad v = some m) (hshape : m.Shaped r c)
    (hentry : ∀ i < r, ∀ j < c, m.entry i j = g v i j) : RunsAs h₀ h g v := by
  obtain ⟨h₁, h₂, h₃, h₄, hrun, hm'⟩ := binaryRun hm ha hb hav hv hshape hshape hentry hentry
  refine .binary hrun hm' ?_ (by rw [adjoint, hctx]) (by rw [hctx]; rfl)
  simp only [runCtx, hm.same.ctx, hctx, backwardAdd, bind, Except.bind, gradOf, hrun.ensureFirst,
    hrun.ensureSecond, hrun.grad₂, hrun.addFirst, hrun.grad₃, hrun.addSecond]

theorem runsAs_mul (hm : Matches h₀ h g) (hctx : h₀.ctx v = .mul a b) (ha : h₀.HasShape a r c)
    (hb : h₀.HasShape b r c) (hav : v ≠ a) (hv : h.grad v = some m) (hshape : m.Shaped r c)
    (hentry : ∀ i < r, ∀ j < c, m.entry i j = g v i j) : RunsAs h₀ h g v := by
  obtain ⟨row, hrow, hc⟩ := first_row hshape ha.rows
  obtain ⟨h₁, h₂, h₃, h₄, hrun, hm'⟩ := binaryRun hm ha hb hav hv
    (shaped_ofFn r c fun i j => (h₀.data b).entry i j * m.entry i j)
    (shaped_ofFn r c fun i j => (h₀.data a).entry i j * m.entry i j)
    (x := fun i j => h₀.entries b i j * g v i j) (y := fun i j => h₀.entries a i j * g v i j)
    (fun i hi j hj => by rw [entry_ofFn _ hi hj, hentry i hi j hj]; rfl)
    (fun i hi j hj => by rw [entry_ofFn _ hi hj, hentry i hi j hj]; rfl)
  refine .binary hrun hm' ?_ (by rw [adjoint, hctx]) (by rw [hctx]; rfl)
  simp only [runCtx, hm.same.ctx, hctx, backwardMul, bind, Except.bind, gradOf, hrun.ensureFirst,
    hrun.ensureSecond, hrun.grad₂, hrow, hshape.1, hc, hrun.same₂.data,
    hadamard_ok hb.shaped hshape, hrun.addFirst, hrun.same₃.data, hrun.grad₃,
    hadamard_ok ha.shaped hshape, hrun.addSecond]

theorem runsAs_matmul (hm : Matches h₀ h g) (hctx : h₀.ctx v = .matmul a b)
    (ha : h₀.HasShape a r k) (hb : h₀.HasShape b k c) (hav : v ≠ a) (hv : h.grad v = some m)
    (hshape : m.Shaped r c) (hentry : ∀ i < r, ∀ j < c, m.entry i j = g v i j) :
    RunsAs h₀ h g v := by
  have hself := Linalg.matmul_ok hshape (shaped_ofFn c k fun i j => (h₀.data b).entry j i) ha.rows
    hb.cols
  have hother := Linalg.matmul_ok (shaped_ofFn k r fun i j => (h₀.data a).entry j i) hshape ha.cols
    ha.rows
  have hx : ∀ i < r, ∀ j < k,
      (ofFn r k fun i j => ∑ l ∈ range c,
        m.entry i l * (ofFn c k fun i j => (h₀.data b).entry j i).entry l j).entry i j =
      ∑ l ∈ range (h₀.cols b), g v i l * h₀.entries b j l := by
    intro i hi j hj
    rw [entry_ofFn _ hi hj, hb.cols_eq]
    refine sum_congr rfl fun l hl => ?_
    rw [entry_ofFn _ (mem_range.mp hl) hj, hentry i hi l (mem_range.mp hl)]
    rfl
  have hy : ∀ i < k, ∀ j < c,
      (ofFn k c fun i j => ∑ l ∈ range r,
        (ofFn k r fun i j => (h₀.data a).entry j i).entry i l * m.entry l j).entry i j =
      ∑ l ∈ range (h₀.rows a), h₀.entries a l i * g v l j := by
    intro i hi j hj
    rw [entry_ofFn _ hi hj, ha.rows_eq]
    refine sum_congr rfl fun l hl => ?_
    rw [entry_ofFn _ hi (mem_range.mp hl), hentry l (mem_range.mp hl) j hj]
    rfl
  obtain ⟨h₁, h₂, h₃, h₄, hrun, hm'⟩ := binaryRun hm ha hb hav hv (shaped_ofFn r k _)
    (shaped_ofFn k c _) hx hy
  refine .binary hrun hm' ?_ (by rw [adjoint, hctx]) (by rw [hctx]; rfl)
  simp only [runCtx, hm.same.ctx, hctx, backwardMatmul, bind, Except.bind, gradOf, hrun.ensureFirst,
    hrun.ensureSecond, hrun.grad₂, hrun.same₂.data, Linalg.transpose_ok hb.shaped hb.rows, hself,
    Linalg.transpose_ok ha.shaped ha.rows, hother, hrun.addFirst, hrun.addSecond]

/-- The closure of a tensor with one operand. -/
theorem RunsAs.unary {d : Matrix K} {x : Nat → Nat → K} (hm : Matches h₀ h g)
    (ha : h₀.HasShape a r c) (hd : d.Shaped r c) (hx : ∀ i < r, ∀ j < c, d.entry i j = x i j)
    (hv : h.grad v = some m) (hadjoint : h₀.adjoint v (g v) = [(a, x)])
    (hchildren : (h₀.ctx v).children = [a])
    (hrun : ∀ h₁ h₂ : Heap K, h.ensureGrad a = .ok h₁ → SameGraph h₀ h₁ → h₁.grad v = some m →
      h₁.addGrad a d = .ok h₂ → h.runCtx v = .ok h₂) : RunsAs h₀ h g v := by
  obtain ⟨h₁, hok₁, hm₁, hkeeps₁, hself₁, hsame₁⟩ := ensureGrad_ok hm ha
  obtain ⟨h₂, hok₂, hm₂, hkeeps₂, _⟩ := addGrad_ok hm₁ ha hself₁ hd hx
  have hgrad : h₁.grad v = some m := by
    rw [hsame₁ v (by rw [hv]; rfl), hv]
  refine ⟨h₂, hrun h₁ h₂ hok₁ hm₁.same hgrad hok₂, by rw [hadjoint]; exact hm₂,
    fun w hw => hkeeps₂ w (hkeeps₁ w hw), fun w hw => ?_⟩
  rw [hchildren] at hw
  rw [List.mem_singleton.mp hw]
  exact hkeeps₂ a hself₁

theorem runsAs_relu (hm : Matches h₀ h g) (hctx : h₀.ctx v = .relu a) (ha : h₀.HasShape a r c)
    (hv : h.grad v = some m) (hshape : m.Shaped r c)
    (hentry : ∀ i < r, ∀ j < c, m.entry i j = g v i j) : RunsAs h₀ h g v := by
  have hd : (Linalg.dRelu (h₀.data a)).Shaped r c := shaped_map ha.shaped _
  obtain ⟨row, hrow, hc⟩ := first_row hd ha.rows
  have hx : ∀ i < r, ∀ j < c,
      (ofFn r c fun i j => (Linalg.dRelu (h₀.data a)).entry i j * m.entry i j).entry i j =
        gate (h₀.entries a i j) * g v i j := by
    intro i hi j hj
    rw [entry_ofFn _ hi hj, hentry i hi j hj, Linalg.dRelu, entry_map ha.shaped _ hi hj]
    rfl
  refine .unary hm ha (shaped_ofFn r c _) hx hv (by rw [adjoint, hctx]) (by rw [hctx]; rfl) ?_
  intro h₁ h₂ hensure hsame hgrad hadd
  simp only [runCtx, hm.same.ctx, hctx, backwardRelu, bind, Except.bind, gradOf, hensure,
    hsame.data, hrow, hd.1, hc, hgrad, hadamard_ok hd hshape, hadd]

theorem runsAs_sum (hm : Matches h₀ h g) (hctx : h₀.ctx v = .sum a) (ha : h₀.HasShape a r c)
    (hv : h.grad v = some m) (hshape : m.Shaped 1 1) (hentry : m.entry 0 0 = g v 0 0) :
    RunsAs h₀ h g v := by
  have hcell : m.cell 0 0 = .ok (g v 0 0) := by
    rw [cell_ok hshape Nat.one_pos Nat.one_pos, hentry]
  have hspread : List.replicate r (List.replicate c (g v 0 0)) = ofFn r c fun _ _ => g v 0 0 := by
    simp [ofFn, List.map_const']
  obtain ⟨row, hrow, hc⟩ := first_row ha.shaped ha.rows
  refine .unary hm ha (shaped_ofFn r c fun _ _ => g v 0 0) (fun i hi j hj => entry_ofFn _ hi hj) hv
    (by rw [adjoint, hctx]) (by rw [hctx]; rfl) ?_
  intro h₁ h₂ hensure hsame hgrad hadd
  simp only [runCtx, hm.same.ctx, hctx, backwardSum, bind, Except.bind, gradOf, hensure, hgrad,
    hcell, hsame.data, hrow, ha.shaped.1, hc, hspread, hadd]

/-- Whatever the operation, the closure of a tensor with a gradient runs as the sweep does. -/
theorem runsAs (hw : h₀.WellFormed) (hm : Matches h₀ h g) (hset : (h.grad v).isSome = true) :
    RunsAs h₀ h g v := by
  by_cases hleaf : h₀.ctx v = .leaf
  · refine ⟨h, by rw [runCtx, hm.same.ctx, hleaf], ?_, fun _ hw => hw, fun w hw => ?_⟩
    · rw [adjoint, hleaf]
      exact hm
    · rw [hleaf] at hw
      cases hw
  obtain ⟨r, c, hs, ht, _⟩ := hw.computed v hleaf
  obtain ⟨m, hv⟩ := Option.isSome_iff_exists.mp hset
  have hshape := hm.shaped v r c m hs hv
  have hentry : ∀ i < r, ∀ j < c, m.entry i j = g v i j := by
    intro i hi j hj
    rw [← hm.entries v r c hs i hi j hj, gradEntry, hv]
    rfl
  have hne : ∀ a ∈ (h₀.ctx v).children, v ≠ a := fun a ha => (hw.older v a ha).ne'
  generalize hctx : h₀.ctx v = op at ht hne
  cases ht with
  | add ha hb => exact runsAs_add hm hctx ha hb (hne _ List.mem_cons_self) hv hshape hentry
  | mul ha hb => exact runsAs_mul hm hctx ha hb (hne _ List.mem_cons_self) hv hshape hentry
  | matmul ha hb => exact runsAs_matmul hm hctx ha hb (hne _ List.mem_cons_self) hv hshape hentry
  | relu ha => exact runsAs_relu hm hctx ha hv hshape hentry
  | sum ha =>
    exact runsAs_sum hm hctx ha hv hshape (hentry 0 Nat.one_pos 0 Nat.one_pos)

/-- Each tensor of the order has a gradient by the time it is reached: it has one now, or
an earlier tensor uses it. -/
def Fed (h₀ h : Heap K) (order : List Nat) : Prop :=
  ∀ before u after, order = before ++ u :: after →
    (h.grad u).isSome = true ∨ ∃ w ∈ before, u ∈ (h₀.ctx w).children

omit [CommRing K] [LinearOrder K] in
theorem Fed.head {u : Nat} {rest : List Nat} (hfed : Fed h₀ h (u :: rest)) :
    (h.grad u).isSome = true :=
  (hfed [] u rest rfl).resolve_right fun ⟨_, hmem, _⟩ => List.not_mem_nil hmem

omit [CommRing K] [LinearOrder K] in
/-- The operands of a closure that has run have gradients. -/
theorem Fed.tail {u : Nat} {rest : List Nat} {h₁ : Heap K} (hfed : Fed h₀ h (u :: rest))
    (hkeeps : Keeps h h₁) (hchildren : ∀ a ∈ (h₀.ctx u).children, (h₁.grad a).isSome = true) :
    Fed h₀ h₁ rest := by
  intro before v after hsplit
  rcases hfed (u :: before) v after (by rw [hsplit]; rfl) with hv | ⟨w, hmem, hv⟩
  · exact Or.inl (hkeeps v hv)
  · rcases List.mem_cons.mp hmem with rfl | hmem
    · exact Or.inl (hchildren v hv)
    · exact Or.inr ⟨w, hmem, hv⟩

/-- Running the closures in order gives the gradients of the sweep. -/
theorem foldlM_runCtx (hw : h₀.WellFormed) {order : List Nat} (hm : Matches h₀ h g)
    (hfed : Fed h₀ h order) :
    ∃ h', order.foldlM runCtx h = .ok h' ∧ Matches h₀ h' (sweep h₀.adjoint g order) ∧
      ∀ u, (h.grad u).isSome = true ∨ u ∈ order → (h'.grad u).isSome = true := by
  induction order generalizing h g with
  | nil => exact ⟨h, rfl, hm, fun u hu => hu.resolve_right List.not_mem_nil⟩
  | cons u rest ih =>
    have hset := hfed.head
    obtain ⟨h₁, hok, hm₁, hkeeps, hchildren⟩ := runsAs hw hm hset
    obtain ⟨h', hfold, hm', hset'⟩ := ih hm₁ (hfed.tail hkeeps hchildren)
    refine ⟨h', by rw [List.foldlM_cons, hok]; exact hfold, hm', fun v hv => hset' v ?_⟩
    rcases hv with hv | hv
    · exact Or.inl (hkeeps v hv)
    · rcases List.mem_cons.mp hv with rfl | hv
      · exact Or.inl (hkeeps v hset)
      · exact Or.inr hv

/-! ## The whole pass -/

theorem WellFormed.mem_prev (hw : h₀.WellFormed) {w : Nat} :
    w ∈ h₀.prev v ↔ w ∈ (h₀.ctx v).children := by
  rw [(hw.prev v).mem_iff, List.mem_dedup]

theorem WellFormed.prev_lt (hw : h₀.WellFormed) : ∀ v, ∀ w ∈ h₀.prev v, w < v :=
  fun v w hw' => hw.older v w (hw.mem_prev.mp hw')

/-- `topo` lists what the root depends on, each tensor once and after its operands. -/
structure Sorted (h : Heap K) (root : Nat) (topo : List Nat) : Prop where
  nodup : topo.Nodup
  mem : ∀ u, u ∈ topo ↔ TopoSort.Reaches h.prev root u
  ordered : TopoSort.Ordered h.prev topo

theorem buildTopo_ok (hw : h₀.WellFormed) {limit root : Nat} (hlimit : root < limit) :
    ∃ topo, h₀.buildTopo limit root = .ok topo := by
  obtain ⟨s, hvisit, _⟩ := TopoSort.visit_root hw.prev_lt hlimit
  exact ⟨s.topo, by rw [buildTopo, hvisit]⟩

/-- A pass that returns has got its order. -/
theorem buildTopo_of_backward {limit root : Nat} {h' : Heap K}
    (hok : h.backward limit root = .ok h') : ∃ topo, h.buildTopo limit root = .ok topo := by
  cases htopo : h.buildTopo limit root with
  | error e =>
    rw [backward, htopo] at hok
    cases hok
  | ok topo => exact ⟨topo, rfl⟩

theorem buildTopo_sorted (hw : h₀.WellFormed) {limit root : Nat} {topo : List Nat}
    (hok : h₀.buildTopo limit root = .ok topo) : Sorted h₀ root topo := by
  unfold buildTopo at hok
  cases hvisit : TopoSort.visit h₀.prev limit .start root with
  | none =>
    rw [hvisit] at hok
    cases hok
  | some s =>
    rw [hvisit] at hok
    cases hok
    obtain ⟨hnodup, hmem, hordered⟩ := TopoSort.visit_root_of_some hw.prev_lt hvisit
    exact ⟨hnodup, hmem, hordered⟩

theorem Sorted.forward {topo : List Nat} {root : Nat} (hw : h₀.WellFormed)
    (hs : Sorted h₀ root topo) : Forward h₀.adjoint topo.reverse :=
  forward_of_split fun _ _ _ hsplit _ _ hc =>
    hs.ordered.mem_after hsplit (hw.mem_prev.mpr (mem_adjoint hc))

/-- Once the root has a gradient, every tensor it depends on is fed. -/
theorem Sorted.fed {topo : List Nat} {root : Nat} (hw : h₀.WellFormed) (hs : Sorted h₀ root topo)
    (hroot : (h.grad root).isSome = true) : Fed h₀ h topo.reverse := by
  intro before u after hsplit
  have hu : u ∈ topo := by
    rw [← List.mem_reverse, hsplit]
    exact List.mem_append_right _ List.mem_cons_self
  rcases Relation.ReflTransGen.cases_tail ((hs.mem u).mp hu) with rfl | ⟨w, hreach, hmem⟩
  · exact Or.inl hroot
  · exact Or.inr ⟨w, hs.ordered.mem_before hs.nodup hsplit ((hs.mem w).mpr hreach) hmem,
      hw.mem_prev.mp hmem⟩

/-- Before any backward pass all gradients count as zero. -/
theorem matches_unset (hw : h₀.WellFormed) : Matches h₀ h₀ 0 where
  same := ⟨rfl, fun _ => rfl, fun _ => rfl⟩
  shaped v _ _ _ _ hv := by
    rw [hw.unset v] at hv
    cases hv
  entries v _ _ _ _ _ _ _ := by
    rw [gradEntry, hw.unset v]
    rfl

/-- The gradients at the start of the sweep: 1 at the root. -/
def seeded (g : Nat → Nat → Nat → K) (root : Nat) : Nat → Nat → Nat → K :=
  Function.update g root fun _ _ => 1

/-- A backward pass that gets its order runs the sweep from the root. -/
theorem backward_ok (hw : h₀.WellFormed) (hm : Matches h₀ h g) {limit root : Nat}
    (hroot : h₀.HasShape root 1 1) {topo : List Nat} (hsorted : Sorted h₀ root topo)
    (htopo : h.buildTopo limit root = .ok topo) :
    ∃ h', h.backward limit root = .ok h' ∧
      Matches h₀ h' (sweep h₀.adjoint (seeded g root) topo.reverse) ∧
      ∀ u ∈ topo, (h'.grad u).isSome = true := by
  have hone : ∀ i < 1, ∀ j < 1, Matrix.entry ([[1]] : Matrix K) i j = 1 := by
    intro i hi j hj
    obtain rfl : i = 0 := by omega
    obtain rfl : j = 0 := by omega
    rfl
  have hshaped : Matrix.Shaped ([[1]] : Matrix K) 1 1 := ⟨rfl, by simp⟩
  obtain ⟨hm₁, _, hself⟩ := hm.setGrad hroot hshaped hone
  have hset : ((h.setGrad root [[1]]).grad root).isSome = true := by
    rw [hself]
    rfl
  obtain ⟨h', hfold, hm', hset'⟩ := foldlM_runCtx hw hm₁ (hsorted.fed hw hset)
  refine ⟨h', ?_, hm', fun u hu => hset' u (Or.inr (List.mem_reverse.mpr hu))⟩
  rw [backward, htopo]
  exact hfold

end Heap

end PythonPortfolio.Synapse
