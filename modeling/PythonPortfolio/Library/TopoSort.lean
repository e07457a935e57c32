import Mathlib.Data.Finset.Card
import Mathlib.Data.List.Nodup
import Mathlib.Logic.Relation

/-!
# Depth-first topological sort

`visit` is the usual recursion with a set of visited nodes and a list to which every
node is appended after its successors. Nodes being worked on are visited but not yet
listed; on a graph whose successors go down in rank they all lie above the node at
hand, so a node found visited is already listed. The result lists exactly the nodes
reachable from the root, each once and after its successors.
-/

namespace PythonPortfolio.Library.TopoSort

variable {α : Type}

structure Search (α : Type) where
  visited : List α
  topo : List α

def Search.start : Search α := ⟨[], []⟩

/-- The recursion depth is bounded by `fuel`. -/
def visit [DecidableEq α] (succ : α → List α) : Nat → Search α → α → Option (Search α)
  | 0, _, _ => none
  | fuel + 1, s, v =>
    if v ∈ s.visited then some s
    else
      ((succ v).foldlM (visit succ fuel) ⟨v :: s.visited, s.topo⟩).map fun s =>
        ⟨s.visited, s.topo ++ [v]⟩

def Reaches (succ : α → List α) : α → α → Prop := Relation.ReflTransGen fun v w => w ∈ succ v

/-- Each member of the list comes after its successors. -/
def Ordered (succ : α → List α) (topo : List α) : Prop :=
  ∀ before v after, topo = before ++ v :: after → ∀ w ∈ succ v, w ∈ before

variable (succ : α → List α)

structure Sound (s : Search α) : Prop where
  nodup : s.topo.Nodup
  visited : ∀ u ∈ s.topo, u ∈ s.visited
  ordered : Ordered succ s.topo

/-- What a search from some roots does: the open nodes stay the same, and what it lists
is new and reachable. -/
structure Extends (roots : List α) (s s' : Search α) : Prop where
  sound : Sound succ s'
  listed : ∀ u ∈ s.topo, u ∈ s'.topo
  visited : ∀ u ∈ s.visited, u ∈ s'.visited
  opened : ∀ u ∈ s'.visited, u ∉ s'.topo → u ∈ s.visited ∧ u ∉ s.topo
  fresh : ∀ u ∈ s'.topo, u ∈ s.topo ∨ u ∉ s.visited ∧ ∃ r ∈ roots, Reaches succ r u
  roots : ∀ r ∈ roots, r ∈ s'.topo

variable {succ}

theorem Extends.refl {s : Search α} (hs : Sound succ s) {roots : List α}
    (hroots : ∀ r ∈ roots, r ∈ s.topo) : Extends succ roots s s :=
  ⟨hs, fun _ h => h, fun _ h => h, fun _ h h' => ⟨h, h'⟩, fun _ h => Or.inl h, hroots⟩

theorem Extends.cons {r : α} {roots : List α} {s s' s'' : Search α}
    (h : Extends succ [r] s s') (h' : Extends succ roots s' s'') :
    Extends succ (r :: roots) s s'' where
  sound := h'.sound
  listed u hu := h'.listed u (h.listed u hu)
  visited u hu := h'.visited u (h.visited u hu)
  opened u hu hnot := by
    obtain ⟨hv, hn⟩ := h'.opened u hu hnot
    exact h.opened u hv hn
  fresh u hu := by
    rcases h'.fresh u hu with hmid | ⟨hnot, r', hr', hreach⟩
    · rcases h.fresh u hmid with hold | ⟨hnot, r', hr', hreach⟩
      · exact Or.inl hold
      · obtain rfl := List.mem_singleton.mp hr'
        exact Or.inr ⟨hnot, r', List.mem_cons_self, hreach⟩
    · exact Or.inr ⟨fun hv => hnot (h.visited u hv), r', List.mem_cons_of_mem _ hr', hreach⟩
  roots r' hr' := by
    rcases List.mem_cons.mp hr' with rfl | hr'
    · exact h'.listed r' (h.roots r' List.mem_cons_self)
    · exact h'.roots r' hr'

theorem Ordered.concat {topo : List α} {v : α} (h : Ordered succ topo)
    (hv : ∀ w ∈ succ v, w ∈ topo) : Ordered succ (topo ++ [v]) := by
  intro before u after heq w hw
  rcases List.eq_nil_or_concat after with rfl | ⟨after', last, rfl⟩
  · obtain ⟨rfl, hlast⟩ := List.append_inj' heq rfl
    obtain rfl := (List.cons.inj hlast).1
    exact hv w hw
  · have heq' : topo ++ [v] = (before ++ u :: after') ++ [last] := by simpa using heq
    exact h before u after' (List.append_inj' heq' rfl).1 w hw

theorem mem_of_reaches {topo : List α} (h : Ordered succ topo) {v u : α}
    (hreach : Reaches succ v u) (hv : v ∈ topo) : u ∈ topo := by
  induction hreach with
  | refl => exact hv
  | tail _ hw ih =>
    obtain ⟨before, after, rfl⟩ := List.append_of_mem ih
    exact List.mem_append_left _ (h before _ after rfl _ hw)

/-- Read backwards, a sorted list has the successors of each node after it. -/
theorem Ordered.mem_after {topo before after : List α} {v w : α} (h : Ordered succ topo)
    (hsplit : topo.reverse = before ++ v :: after) (hw : w ∈ succ v) : w ∈ after := by
  have htopo : topo = after.reverse ++ v :: before.reverse := by
    rw [← List.reverse_reverse topo, hsplit]
    simp
  exact List.mem_reverse.mp (h _ v _ htopo w hw)

/-- What comes later in the reversed list has its successors there too. -/
theorem Ordered.closed_after {topo before after : List α} {v u w : α} (h : Ordered succ topo)
    (hsplit : topo.reverse = before ++ v :: after) (hu : u ∈ after) (hw : w ∈ succ u) :
    w ∈ after := by
  obtain ⟨mid, after', rfl⟩ := List.append_of_mem hu
  have hsplit' : topo.reverse = (before ++ v :: mid) ++ u :: after' := by
    rw [hsplit, List.append_assoc, List.cons_append]
  have hlater : w ∈ after' := h.mem_after hsplit' hw
  exact List.mem_append_right _ (List.mem_cons_of_mem _ hlater)

/-- Read backwards, a sorted list has a node after all whose successor it is. -/
theorem Ordered.mem_before {topo before after : List α} {v w : α} (h : Ordered succ topo)
    (hnodup : topo.Nodup) (hsplit : topo.reverse = before ++ w :: after) (hv : v ∈ topo)
    (hw : w ∈ succ v) : v ∈ before := by
  have hnodup' : (before ++ w :: after).Nodup := hsplit ▸ List.nodup_reverse.mpr hnodup
  have hnot : w ∉ after := (List.nodup_cons.mp (List.nodup_append.mp hnodup').2.1).1
  have hmem : v ∈ before ++ w :: after := hsplit ▸ List.mem_reverse.mpr hv
  rcases List.mem_append.mp hmem with hbefore | hrest
  · exact hbefore
  rcases List.mem_cons.mp hrest with rfl | hafter
  · exact absurd (h.mem_after hsplit hw) hnot
  · exact absurd (h.closed_after hsplit hafter hw) hnot

/-- The open nodes lie above `v`. -/
def Above (rank : α → Nat) (s : Search α) (v : α) : Prop :=
  ∀ u ∈ s.visited, u ∉ s.topo → rank v < rank u

/-! ## Ranks -/

/-- No node can be reached from one of its successors. -/
def Acyclic (succ : α → List α) : Prop := ∀ v, ∀ w ∈ succ v, ¬ Reaches succ w v

theorem acyclic_of_rank {rank : α → Nat} (hdown : ∀ v, ∀ w ∈ succ v, rank w < rank v) :
    Acyclic succ := by
  have hle : ∀ {v u : α}, Reaches succ v u → rank u ≤ rank v := by
    intro v u hreach
    induction hreach with
    | refl => exact Nat.le_refl _
    | tail _ hw ih => exact (hdown _ _ hw).le.trans ih
  exact fun v w hw hreach => absurd (hdown v w hw) (Nat.not_lt.mpr (hle hreach))

open Classical in
/-- A node of a finite graph without cycles reaches more of the inner nodes than its
successors do. -/
theorem Acyclic.exists_rank (h : Acyclic succ) {inner : Finset α}
    (hinner : ∀ v, succ v ≠ [] → v ∈ inner) :
    ∃ rank : α → Nat, (∀ v, ∀ w ∈ succ v, rank w < rank v) ∧ ∀ v, rank v ≤ inner.card := by
  refine ⟨fun v => (inner.filter (Reaches succ v)).card, fun v w hw => ?_,
    fun v => Finset.card_filter_le _ _⟩
  refine Finset.card_lt_card
    ((Finset.ssubset_iff_of_subset fun u hu => ?_).mpr ⟨v, ?_, fun hv => ?_⟩)
  · obtain ⟨hmem, hreach⟩ := Finset.mem_filter.mp hu
    exact Finset.mem_filter.mpr ⟨hmem, .head hw hreach⟩
  · exact Finset.mem_filter.mpr ⟨hinner v (List.ne_nil_of_mem hw), .refl⟩
  · exact h v w hw (Finset.mem_filter.mp hv).2

variable [DecidableEq α]

/-- Searching from several nodes, given what searching from one does. -/
theorem foldlM_visit {rank : α → Nat} {fuel : Nat}
    (ih : ∀ (s : Search α) (v : α), rank v < fuel → Sound succ s → Above rank s v →
      ∃ s', visit succ fuel s v = some s' ∧ Extends succ [v] s s')
    (roots : List α) (s : Search α) (hs : Sound succ s)
    (hroots : ∀ r ∈ roots, rank r < fuel ∧ Above rank s r) :
    ∃ s', roots.foldlM (visit succ fuel) s = some s' ∧ Extends succ roots s s' := by
  induction roots generalizing s with
  | nil => exact ⟨s, rfl, .refl hs nofun⟩
  | cons r roots ihr =>
    obtain ⟨hrank, habove⟩ := hroots r List.mem_cons_self
    obtain ⟨s', hvisit, hext⟩ := ih s r hrank hs habove
    obtain ⟨s'', hfold, hext'⟩ := ihr s' hext.sound fun r' hr' => by
      obtain ⟨hrank', habove'⟩ := hroots r' (List.mem_cons_of_mem _ hr')
      refine ⟨hrank', fun u hu hnot => ?_⟩
      obtain ⟨hu', hnot'⟩ := hext.opened u hu hnot
      exact habove' u hu' hnot'
    exact ⟨s'', by rw [List.foldlM_cons, hvisit]; exact hfold, hext.cons hext'⟩

omit [DecidableEq α] in
/-- A node is closed when the search has been through its successors. -/
theorem Extends.close {s s' : Search α} {v : α} (hs : Sound succ s) (hv : v ∉ s.visited)
    (hext : Extends succ (succ v) ⟨v :: s.visited, s.topo⟩ s') :
    Extends succ [v] s ⟨s'.visited, s'.topo ++ [v]⟩ := by
  have hnot : v ∉ s'.topo := by
    intro hmem
    rcases hext.fresh v hmem with hold | ⟨hfresh, _⟩
    · exact hv (hs.visited v hold)
    · exact hfresh List.mem_cons_self
  constructor
  · refine ⟨?_, fun u hu => ?_, hext.sound.ordered.concat hext.roots⟩
    · refine List.nodup_append.mpr ⟨hext.sound.nodup, List.nodup_singleton v, ?_⟩
      intro u hu w hw huw
      rw [List.mem_singleton.mp hw] at huw
      exact hnot (huw ▸ hu)
    · rcases List.mem_append.mp hu with hu | hu
      · exact hext.sound.visited u hu
      · rw [List.mem_singleton.mp hu]
        exact hext.visited v List.mem_cons_self
  · exact fun u hu => List.mem_append_left _ (hext.listed u hu)
  · exact fun u hu => hext.visited u (List.mem_cons_of_mem _ hu)
  · intro u hu hnotu
    obtain ⟨hnot', hne⟩ := not_or.mp (fun h => hnotu (List.mem_append.mpr h))
    obtain ⟨hmem, htopo⟩ := hext.opened u hu hnot'
    rcases List.mem_cons.mp hmem with rfl | hmem
    · exact absurd (List.mem_singleton.mpr rfl) hne
    · exact ⟨hmem, htopo⟩
  · intro u hu
    rcases List.mem_append.mp hu with hu | hu
    · rcases hext.fresh u hu with hold | ⟨hfresh, w, hw, hreach⟩
      · exact Or.inl hold
      · exact Or.inr ⟨fun h => hfresh (List.mem_cons_of_mem _ h), v, List.mem_cons_self,
          .head hw hreach⟩
    · rw [List.mem_singleton.mp hu]
      exact Or.inr ⟨hv, v, List.mem_cons_self, .refl⟩
  · intro r hr
    exact List.mem_append_right _ hr

/-- The search from one node. -/
theorem visit_extends {rank : α → Nat} (hdown : ∀ v, ∀ w ∈ succ v, rank w < rank v) (fuel : Nat) :
    ∀ (s : Search α) (v : α), rank v < fuel → Sound succ s → Above rank s v →
      ∃ s', visit succ fuel s v = some s' ∧ Extends succ [v] s s' := by
  induction fuel with
  | zero => exact fun s v hlt => absurd hlt (Nat.not_lt_zero _)
  | succ fuel ih =>
    intro s v hfuel hs habove
    by_cases hv : v ∈ s.visited
    · -- an open node lies above `v`, so `v` is not open
      have hlisted : v ∈ s.topo := by
        by_contra hnot
        exact absurd (habove v hv hnot) (Nat.lt_irrefl _)
      refine ⟨s, by rw [visit, if_pos hv], .refl hs fun r hr => ?_⟩
      rwa [List.mem_singleton.mp hr]
    · have hentered : Sound succ ⟨v :: s.visited, s.topo⟩ :=
        ⟨hs.nodup, fun u hu => List.mem_cons_of_mem _ (hs.visited u hu), hs.ordered⟩
      have hchildren : ∀ w ∈ succ v, rank w < fuel ∧ Above rank ⟨v :: s.visited, s.topo⟩ w := by
        intro w hw
        have hlt := hdown v w hw
        refine ⟨by omega, fun u hu hnot => ?_⟩
        rcases List.mem_cons.mp hu with rfl | hu
        · exact hlt
        · exact Nat.lt_trans hlt (habove u hu hnot)
      obtain ⟨s', hfold, hext⟩ := foldlM_visit ih (succ v) _ hentered hchildren
      exact ⟨⟨s'.visited, s'.topo ++ [v]⟩, by rw [visit, if_neg hv, hfold]; rfl, hext.close hs hv⟩

/-- The sorted list: what is reachable from the root, each node once and after its
successors. -/
theorem visit_root {rank : α → Nat} (hdown : ∀ v, ∀ w ∈ succ v, rank w < rank v) {root : α}
    {fuel : Nat} (hfuel : rank root < fuel) :
    ∃ s, visit succ fuel Search.start root = some s ∧ s.topo.Nodup ∧
      (∀ u, u ∈ s.topo ↔ Reaches succ root u) ∧ Ordered succ s.topo := by
  have hstart : Sound succ (Search.start : Search α) :=
    ⟨List.nodup_nil, nofun, fun before v after heq => by simp [Search.start] at heq⟩
  obtain ⟨s, hvisit, hext⟩ := visit_extends hdown fuel Search.start root hfuel hstart nofun
  refine ⟨s, hvisit, hext.sound.nodup, fun u => ⟨fun hu => ?_, fun hreach => ?_⟩,
    hext.sound.ordered⟩
  · rcases hext.fresh u hu with hold | ⟨_, r, hr, hreach⟩
    · cases hold
    · rwa [List.mem_singleton.mp hr] at hreach
  · exact mem_of_reaches hext.sound.ordered hreach (hext.roots root List.mem_cons_self)

/-! ## The bound on the depth -/

omit [DecidableEq α] in
theorem foldlM_mono {f f' : Search α → α → Option (Search α)}
    (h : ∀ s v s', f s v = some s' → f' s v = some s') {roots : List α} {s s' : Search α}
    (hfold : roots.foldlM f s = some s') : roots.foldlM f' s = some s' := by
  induction roots generalizing s with
  | nil => exact hfold
  | cons r roots ih =>
    rw [List.foldlM_cons] at hfold ⊢
    obtain ⟨mid, hmid, hrest⟩ := Option.bind_eq_some_iff.mp hfold
    exact Option.bind_eq_some_iff.mpr ⟨mid, h s r mid hmid, ih hrest⟩

/-- A deeper recursion finds the same. -/
theorem visit_mono {fuel fuel' : Nat} (hle : fuel ≤ fuel') :
    ∀ (s : Search α) (v : α) (s' : Search α),
      visit succ fuel s v = some s' → visit succ fuel' s v = some s' := by
  induction fuel generalizing fuel' with
  | zero => exact fun _ _ _ h => nomatch h
  | succ fuel ih =>
    intro s v s' h
    obtain ⟨fuel', rfl⟩ : ∃ n, fuel' = n + 1 := ⟨fuel' - 1, by omega⟩
    rw [visit] at h ⊢
    by_cases hv : v ∈ s.visited
    · rwa [if_pos hv] at h ⊢
    · rw [if_neg hv] at h ⊢
      obtain ⟨mid, hmid, rfl⟩ := Option.map_eq_some_iff.mp h
      rw [foldlM_mono (ih (Nat.le_of_succ_le_succ hle)) hmid]
      rfl

/-- Whatever the bound, a search that succeeds has sorted what is reachable. -/
theorem visit_root_of_some {rank : α → Nat} (hdown : ∀ v, ∀ w ∈ succ v, rank w < rank v) {root : α}
    {fuel : Nat} {s : Search α} (hvisit : visit succ fuel Search.start root = some s) :
    s.topo.Nodup ∧ (∀ u, u ∈ s.topo ↔ Reaches succ root u) ∧ Ordered succ s.topo := by
  have hdeep : rank root < max fuel (rank root + 1) := by omega
  obtain ⟨s', hvisit', hsorted⟩ := visit_root hdown hdeep
  rw [visit_mono (Nat.le_max_left _ _) _ _ _ hvisit] at hvisit'
  rwa [Option.some.inj hvisit']

/-- Some chain of at most `n` nodes leads from `v` to `u`. -/
def Within (succ : α → List α) : Nat → α → α → Prop
  | 0, _, _ => False
  | n + 1, v, u => u = v ∨ ∃ w ∈ succ v, Within succ n w u

/-- No chain from `v` has more than `n` nodes. -/
def Shallow (succ : α → List α) : Nat → α → Prop
  | 0, _ => False
  | n + 1, v => ∀ w ∈ succ v, Shallow succ n w

/-- No chain of fewer than `n` nodes leads from `v` to `u`. -/
def Far (succ : α → List α) (u : α) (n : Nat) (v : α) : Prop := ∀ m, Within succ m v u → n ≤ m

section Depth

omit [DecidableEq α]

variable {u v : α} {n m : Nat}

theorem Shallow.mono (h : Shallow succ n v) (hle : n ≤ m) : Shallow succ m v := by
  induction n generalizing v m with
  | zero => exact h.elim
  | succ n ih =>
    obtain ⟨m, rfl⟩ : ∃ m', m = m' + 1 := ⟨m - 1, by omega⟩
    exact fun w hw => ih (h w hw) (Nat.le_of_succ_le_succ hle)

theorem Far.self : Far succ v 1 v := fun m h => by
  cases m with
  | zero => exact h.elim
  | succ m => omega

theorem Far.step (hne : u ≠ v) (h : ∀ w ∈ succ v, Far succ u n w) : Far succ u (n + 1) v := by
  intro m hm
  cases m with
  | zero => exact hm.elim
  | succ m =>
    rcases hm with heq | ⟨w, hw, hm⟩
    · exact absurd heq hne
    · exact Nat.succ_le_succ (h w hw m hm)

theorem Far.mono (h : Far succ u n v) (hle : m ≤ n) : Far succ u m v :=
  fun k hk => hle.trans (h k hk)

/-- What is higher than all that `v` leads to is not reached at all. -/
theorem far_of_lt {rank : α → Nat} (hdown : ∀ v, ∀ w ∈ succ v, rank w < rank v)
    (hlt : rank v < rank u) : Far succ u n v := by
  intro m hm
  induction m generalizing v with
  | zero => exact hm.elim
  | succ m ih =>
    rcases hm with rfl | ⟨w, hw, hm⟩
    · exact absurd hlt (Nat.lt_irrefl _)
    · exact (ih ((hdown v w hw).trans hlt) hm).trans (Nat.le_succ m)

end Depth

/-- Where no chain is longer than the bound, the search succeeds. -/
theorem visit_shallow {fuel : Nat} {v : α} (h : Shallow succ fuel v) (s : Search α) :
    ∃ s', visit succ fuel s v = some s' := by
  induction fuel generalizing s v with
  | zero => exact h.elim
  | succ fuel ih =>
    have hfold : ∀ (roots : List α) (s : Search α), (∀ r ∈ roots, Shallow succ fuel r) →
        ∃ s', roots.foldlM (visit succ fuel) s = some s' := by
      intro roots
      induction roots with
      | nil => exact fun s _ => ⟨s, rfl⟩
      | cons r roots ihr =>
        intro s hroots
        obtain ⟨mid, hmid⟩ := ih (hroots r List.mem_cons_self) s
        obtain ⟨s', hs'⟩ := ihr mid fun r' hr' => hroots r' (List.mem_cons_of_mem _ hr')
        exact ⟨s', by rw [List.foldlM_cons, hmid]; exact hs'⟩
    rw [visit]
    by_cases hv : v ∈ s.visited
    · exact ⟨s, if_pos hv⟩
    · obtain ⟨s', hs'⟩ := hfold (succ v) ⟨v :: s.visited, s.topo⟩ h
      exact ⟨_, by rw [if_neg hv, hs', Option.map_some]⟩

/-- What the search lists it has reached within the bound. -/
theorem visit_within {fuel : Nat} : ∀ {s : Search α} {v : α} {s' : Search α},
    visit succ fuel s v = some s' → ∀ u ∈ s'.topo, u ∈ s.topo ∨ Within succ fuel v u := by
  induction fuel with
  | zero => exact fun h => nomatch h
  | succ fuel ih =>
    have hfold : ∀ (roots : List α) (s s' : Search α),
        roots.foldlM (visit succ fuel) s = some s' →
          ∀ u ∈ s'.topo, u ∈ s.topo ∨ ∃ r ∈ roots, Within succ fuel r u := by
      intro roots
      induction roots with
      | nil =>
        rintro s s' ⟨⟩ u hu
        exact Or.inl hu
      | cons r roots ihr =>
        intro s s' h u hu
        rw [List.foldlM_cons] at h
        obtain ⟨mid, hmid, hrest⟩ := Option.bind_eq_some_iff.mp h
        rcases ihr mid s' hrest u hu with hold | ⟨r', hr', hnear⟩
        · exact (ih hmid u hold).imp_right fun hnear => ⟨r, List.mem_cons_self, hnear⟩
        · exact Or.inr ⟨r', List.mem_cons_of_mem _ hr', hnear⟩
    intro s v s' h u hu
    rw [visit] at h
    by_cases hv : v ∈ s.visited
    · rw [if_pos hv] at h
      cases h
      exact Or.inl hu
    · rw [if_neg hv] at h
      obtain ⟨mid, hmid, rfl⟩ := Option.map_eq_some_iff.mp h
      rcases List.mem_append.mp hu with hu | hu
      · rcases hfold (succ v) _ mid hmid u hu with hold | hnear
        · exact Or.inl hold
        · exact Or.inr (Or.inr hnear)
      · exact Or.inr (Or.inl (List.mem_singleton.mp hu))

/-- A search that succeeds has reached everything within the bound. -/
theorem visit_root_within {rank : α → Nat} (hdown : ∀ v, ∀ w ∈ succ v, rank w < rank v)
    {root : α} {fuel : Nat} {s : Search α} (hvisit : visit succ fuel Search.start root = some s)
    {u : α} (hu : Reaches succ root u) : Within succ fuel root u := by
  rcases visit_within hvisit u (((visit_root_of_some hdown hvisit).2.1 u).mpr hu) with hold | hnear
  · cases hold
  · exact hnear

/-! ## Graphs that look the same from the root -/

/-- The search sees only what can be reached: on a closed set it does not matter what the
successors elsewhere are. -/
theorem visit_congr {succ succ' : α → List α} {seen : α → Prop}
    (hsame : ∀ v, seen v → succ v = succ' v) (hclosed : ∀ v, seen v → ∀ w ∈ succ v, seen w)
    (fuel : Nat) : ∀ (s : Search α) (v : α), seen v →
      visit succ fuel s v = visit succ' fuel s v := by
  induction fuel with
  | zero => exact fun _ _ _ => rfl
  | succ fuel ih =>
    intro s v hv
    have hfold : ∀ (roots : List α) (s : Search α), (∀ r ∈ roots, seen r) →
        roots.foldlM (visit succ fuel) s = roots.foldlM (visit succ' fuel) s := by
      intro roots
      induction roots with
      | nil => exact fun _ _ => rfl
      | cons r roots ihr =>
        intro s hroots
        rw [List.foldlM_cons, List.foldlM_cons, ih s r (hroots r List.mem_cons_self)]
        exact congrArg _ (funext fun s' => ihr s' fun r' hr' =>
          hroots r' (List.mem_cons_of_mem _ hr'))
    rw [visit, visit, hfold _ _ (hclosed v hv), hsame v hv]

end PythonPortfolio.Library.TopoSort
