import Mathlib.Data.List.Perm.Basic
import PythonPortfolio.Helix.Cluster

/-!
# Election safety

A request for a vote and the answer to it occupy one slot: candidate, voter and
term. A candidacy opens fresh slots, answering a request moves a slot from the
request to the reply, and counting a reply closes it, so that no voter is counted
twice. Each counted reply is backed by the ballot of its sender at an earlier
moment, the ballots of one node only move forward, and two majorities share a
voter.
-/

namespace PythonPortfolio.Helix

open Library Library.BigEndian

/-- Candidate, voter and term of a vote that is asked for or on its way back. -/
abbrev Slot := Addr × Addr × Int

def Datagram.slot (d : Datagram) : Option Slot :=
  match Packet.unpack d.data with
  | none => none
  | some p => match p.msgType with
    | .voteReq => some (d.src, d.dst, p.term)
    | .voteResp => some (d.dst, d.src, p.term)
    | _ => none

theorem slot_request (src dst : Addr) {data : Bytes} {req : Packet}
    (hu : Packet.unpack data = some req) (hm : req.msgType = .voteReq) :
    (Datagram.mk src dst data).slot = some (src, dst, req.term) := by
  simp only [Datagram.slot, hu, hm]

/-- A reply has the slot of the request it answers. -/
theorem slot_reply (src dst : Addr) {data : Bytes} {resp : Packet}
    (hu : Packet.unpack data = some resp) (hm : resp.msgType = .voteResp) :
    (Datagram.mk src dst data).slot = some (dst, src, resp.term) := by
  simp only [Datagram.slot, hu, hm]

def World.slots (w : World) : List Slot := w.network.filterMap Datagram.slot

abbrev WorldStep := Transition World ClusterEvent

/-- Node `i` becomes the leader of term `T`. -/
def WorldStep.Elects (t : WorldStep) (i T : Int) : Prop :=
  (t.pre.hosts i).node.state ≠ .leader ∧ (t.post.hosts i).node.state = .leader ∧
    (t.post.hosts i).node.currentTerm = T

/-- At some moment of the history `v` has voted for `c` in term `T`. -/
def Voted (trace : List WorldStep) (v c T : Int) : Prop :=
  ∃ t ∈ trace, (t.post.hosts v).node.ballot = ⟨T, some c⟩

theorem Voted.append {trace : List WorldStep} {v c T : Int} (h : Voted trace v c T)
    (t : WorldStep) : Voted (trace ++ [t]) v c T := by
  obtain ⟨u, hu, hb⟩ := h
  exact ⟨u, List.mem_append_left _ hu, hb⟩

theorem Voted.last {trace : List WorldStep} {t : WorldStep} {v c T : Int}
    (h : (t.post.hosts v).node.ballot = ⟨T, some c⟩) : Voted (trace ++ [t]) v c T :=
  ⟨t, by simp, h⟩

namespace Cluster

variable {C : Cluster}

/-- A datagram of the election: a request of a candidate to a peer, or the answer
of a voter who has voted. -/
structure Legit (C : Cluster) (trace : List WorldStep) (w : World) (d : Datagram) : Prop where
  request : ∀ p, Packet.unpack d.data = some p → p.msgType = .voteReq →
    ∃ c ∈ C.ids, ∃ v ∈ C.ids, v ≠ c ∧ d.src = C.address c ∧ d.dst = C.address v ∧
      p.srcId = c ∧ p.term ≤ (w.hosts c).node.currentTerm
  reply : ∀ p, Packet.unpack d.data = some p → p.msgType = .voteResp →
    ∃ c ∈ C.ids, ∃ v ∈ C.ids, v ≠ c ∧ d.src = C.address v ∧ d.dst = C.address c ∧
      p.srcId = v ∧ p.term ≤ (w.hosts c).node.currentTerm ∧ Voted trace v c p.term

/-- The votes counted by `i` in term `T`: its own, and those of distinct voters
whose slots are closed. -/
structure Backed (C : Cluster) (trace : List WorldStep) (slots : List Slot) (i T : Int)
    (votes : Nat) : Prop where
  self : Voted trace i i T
  voters : ∃ V : List Int, V.Nodup ∧ V.length + 1 = votes ∧
    ∀ v ∈ V, v ∈ C.ids ∧ v ≠ i ∧ Voted trace v i T ∧ (C.address i, C.address v, T) ∉ slots

/-- The inductive invariant of a cluster. -/
structure Fair (C : Cluster) (trace : List WorldStep) (w : World) : Prop where
  settled : ∀ i, (w.hosts i).Settled
  nodeId : ∀ i, (w.hosts i).node.nodeId = i
  peers : ∀ i, (w.hosts i).node.peers = C.peers i
  legit : ∀ d ∈ w.network, Legit C trace w d
  slots : w.slots.Nodup
  tally : ∀ i ∈ C.ids, (w.hosts i).node.state = .candidate →
    Backed C trace w.slots i (w.hosts i).node.currentTerm (w.hosts i).node.votesReceived
  elected : ∀ t ∈ trace, ∀ i T, t.Elects i T →
    ∃ S, Majority C.ids.toFinset S ∧ ∀ v ∈ S, Voted trace v i T

/-! ## Slots and votes -/

/-- An open slot belongs to a candidate that has reached its term. -/
theorem Legit.slot {trace : List WorldStep} {w : World} {d : Datagram} (h : Legit C trace w d)
    {a b : Addr} {T : Int} (hs : d.slot = some (a, b, T)) :
    ∃ c ∈ C.ids, a = C.address c ∧ T ≤ (w.hosts c).node.currentTerm := by
  unfold Datagram.slot at hs
  split at hs
  · cases hs
  · next p hp =>
    split at hs
    · next hm =>
      obtain ⟨c, hc, _, _, _, hsrc, _, _, hT⟩ := h.request p hp hm
      cases hs
      exact ⟨c, hc, hsrc, hT⟩
    · next hm =>
      obtain ⟨c, hc, _, _, _, _, hdst, _, hT, _⟩ := h.reply p hp hm
      cases hs
      exact ⟨c, hc, hdst, hT⟩
    · cases hs

theorem Legit.mono {trace trace' : List WorldStep} {w w' : World} {d : Datagram}
    (h : Legit C trace w d)
    (hterm : ∀ i, (w.hosts i).node.currentTerm ≤ (w'.hosts i).node.currentTerm)
    (hvoted : ∀ v c T, Voted trace v c T → Voted trace' v c T) : Legit C trace' w' d where
  request p hp hm := by
    obtain ⟨c, hc, v, hv, hne, hsrc, hdst, hid, hT⟩ := h.request p hp hm
    exact ⟨c, hc, v, hv, hne, hsrc, hdst, hid, hT.trans (hterm c)⟩
  reply p hp hm := by
    obtain ⟨c, hc, v, hv, hne, hsrc, hdst, hid, hT, hvt⟩ := h.reply p hp hm
    exact ⟨c, hc, v, hv, hne, hsrc, hdst, hid, hT.trans (hterm c), hvoted _ _ _ hvt⟩

theorem Backed.mono {trace trace' : List WorldStep} {slots slots' : List Slot} {i T : Int}
    {votes : Nat} (h : Backed C trace slots i T votes)
    (hvoted : ∀ v c T, Voted trace v c T → Voted trace' v c T)
    (hslots : ∀ b, (C.address i, b, T) ∈ slots' → (C.address i, b, T) ∈ slots) :
    Backed C trace' slots' i T votes where
  self := hvoted _ _ _ h.self
  voters := by
    obtain ⟨V, hnodup, hlen, hV⟩ := h.voters
    refine ⟨V, hnodup, hlen, fun v hv => ?_⟩
    obtain ⟨hmem, hne, hvt, hslot⟩ := hV v hv
    exact ⟨hmem, hne, hvoted _ _ _ hvt, fun hin => hslot (hslots _ hin)⟩

/-- Counting a reply whose slot was open and is now closed. -/
theorem Backed.count {trace : List WorldStep} {slots slots' : List Slot} {i T v : Int}
    {votes : Nat} (h : Backed C trace slots i T votes) (hv : v ∈ C.ids) (hne : v ≠ i)
    (hvoted : Voted trace v i T)
    (hperm : ((C.address i, C.address v, T) :: slots').Perm slots) (hslots : slots.Nodup) :
    Backed C trace slots' i T (votes + 1) where
  self := h.self
  voters := by
    obtain ⟨V, hnodup, hlen, hV⟩ := h.voters
    have hclosed : (C.address i, C.address v, T) ∉ slots' :=
      (List.nodup_cons.mp (hperm.nodup_iff.mpr hslots)).1
    have hnew : v ∉ V := fun hin => (hV v hin).2.2.2 (hperm.mem_iff.mp (by simp))
    refine ⟨v :: V, List.nodup_cons.mpr ⟨hnew, hnodup⟩, by simp [hlen], fun u hu => ?_⟩
    rcases List.mem_cons.mp hu with rfl | hu
    · exact ⟨hv, hne, hvoted, hclosed⟩
    · obtain ⟨hmem, hune, hvt, hslot⟩ := hV u hu
      exact ⟨hmem, hune, hvt, fun hin => hslot (hperm.mem_iff.mp (List.mem_cons_of_mem _ hin))⟩

/-- As many votes as the quorum are votes of a majority. -/
theorem Backed.majority {trace : List WorldStep} {slots : List Slot} {i T : Int} {votes : Nat}
    (h : Backed C trace slots i T votes) (hi : i ∈ C.ids)
    (hq : ((C.peers i).size + 1) / 2 + 1 ≤ votes) :
    ∃ S, Majority C.ids.toFinset S ∧ ∀ v ∈ S, Voted trace v i T := by
  obtain ⟨V, hnodup, hlen, hV⟩ := h.voters
  have hiV : i ∉ V := fun hin => (hV i hin).2.1 rfl
  have hall : (i :: V).Nodup := List.nodup_cons.mpr ⟨hiV, hnodup⟩
  refine ⟨(i :: V).toFinset, ⟨?_, ?_⟩, ?_⟩
  · intro v hv
    rcases List.mem_cons.mp (List.mem_toFinset.mp hv) with rfl | hv
    · exact List.mem_toFinset.mpr hi
    · exact List.mem_toFinset.mpr (hV v hv).1
  · have hsize := C.size_peers hi
    rw [List.toFinset_card_of_nodup hall, List.toFinset_card_of_nodup C.nodup, ← hsize,
      List.length_cons, hlen]
    omega
  · intro v hv
    rcases List.mem_cons.mp (List.mem_toFinset.mp hv) with rfl | hv
    · exact h.self
    · exact (hV v hv).2.2.1

/-! ## One step -/

/-- What a step does to one host. -/
theorem hosts_step {w w' : World} (h : StepCase C w w') (j : Int) :
    w'.hosts j = w.hosts j ∨ (∃ c, w'.hosts j = (w.hosts j).run c) ∨
      w'.hosts j = (w.hosts j).restart := by
  cases h with
  | own i hi c hc h =>
    subst h
    by_cases hj : j = i
    · subst hj
      exact Or.inr (Or.inl ⟨c, hosts_act_self w j c⟩)
    · exact Or.inl (hosts_act_of_ne hj w c)
  | delivered k d rest hperm i hi hd h =>
    subst h
    by_cases hj : j = i
    · subst hj
      exact Or.inr (Or.inl ⟨_, hosts_act_self _ j _⟩)
    · exact Or.inl (hosts_act_of_ne hj _ _)
  | lost rest hsub h =>
    subst h
    exact Or.inl rfl
  | crashed i hi h =>
    subst h
    by_cases hj : j = i
    · subst hj
      exact Or.inr (Or.inr (by simp [World.crash]))
    · exact Or.inl (by simp [World.crash, hj])

theorem ballot_restart {h : Host} (hs : h.Settled) : h.restart.node.ballot = h.node.ballot := hs

/-- A step moves no ballot back. -/
theorem ballot_le_step {w w' : World} (hw : ∀ i, (w.hosts i).Settled) (h : StepCase C w w')
    (j : Int) : (w.hosts j).node.ballot ≤ (w'.hosts j).node.ballot := by
  rcases hosts_step h j with he | ⟨c, he⟩ | he
  · rw [he]
  · rw [he]
    exact (w.hosts j).ballot_le_run c
  · rw [he, ballot_restart (hw j)]

theorem settled_step {w w' : World} (hw : ∀ i, (w.hosts i).Settled) (h : StepCase C w w')
    (j : Int) : (w'.hosts j).Settled := by
  rcases hosts_step h j with he | ⟨c, he⟩ | he
  · rw [he]
    exact hw j
  · rw [he]
    exact Host.settled_run (hw j) c
  · rw [he]
    exact Host.settled_boot _ _ _

theorem config_step {w w' : World} (h : StepCase C w w') (j : Int) :
    (w'.hosts j).node.nodeId = (w.hosts j).node.nodeId ∧
      (w'.hosts j).node.peers = (w.hosts j).node.peers := by
  rcases hosts_step h j with he | ⟨c, he⟩ | he
  · rw [he]
    exact ⟨rfl, rfl⟩
  · rw [he]
    exact ⟨((w.hosts j).run_config c).nodeId, ((w.hosts j).run_config c).peers⟩
  · rw [he]
    exact ⟨rfl, rfl⟩

/-- Node `i` takes `c`, either on its own or out of the network, and `rest` is
what the network still holds. -/
def Takes (C : Cluster) (w : World) (i : Int) (c : Cause) (rest : List Datagram) : Prop :=
  (c.packet = none ∧ rest = w.network) ∨
    ∃ d, (d :: rest).Perm w.network ∧ d.dst = C.address i ∧ c = .datagram d.data d.src

theorem Takes.subset {w : World} {i : Int} {c : Cause} {rest : List Datagram}
    (h : Takes C w i c rest) {d : Datagram} (hd : d ∈ rest) : d ∈ w.network := by
  rcases h with ⟨_, rfl⟩ | ⟨e, hperm, _, _⟩
  · exact hd
  · exact hperm.mem_iff.mp (List.mem_cons_of_mem _ hd)

/-- The slots of the datagrams a handler of `i` sends: none, the fresh ones of a
candidacy, or the slot of the request that is answered. -/
inductive NewSlots (C : Cluster) (w : World) (i : Int) (c : Cause) (new : List Slot) : Prop
  | none (h : new = [])
  | candidacy (hc : c = .tick true) (hn : ((w.hosts i).run c).node = (w.hosts i).node.candidacy)
      (h : new = (C.peers i).items.map fun p =>
        (C.address i, Addr.loopback p.2, (w.hosts i).node.currentTerm + 1))
  | answer (data : Bytes) (addr : Addr) (hc : c = .datagram data addr) (req : Packet)
      (hu : Packet.unpack data = some req) (hm : req.msgType = .voteReq)
      (h : new = [(addr, C.address i, req.term)])

/-- What `i` puts into the network when it handles `c`. -/
def outbox (C : Cluster) (w : World) (i : Int) (c : Cause) : List Datagram :=
  ((w.hosts i).sends c).map (C.post i)

theorem newSlots {w : World} {i : Int} (hpeers : (w.hosts i).node.peers = C.peers i) (c : Cause) :
    NewSlots C w i c ((C.outbox w i c).filterMap Datagram.slot) := by
  unfold outbox
  cases (w.hosts i).sendStep_run c with
  | heartbeats ho =>
    refine .none (List.filterMap_eq_nil_iff.mpr fun d hd => ?_)
    obtain ⟨o, hmem, rfl⟩ := List.mem_map.mp hd
    obtain ⟨pkt, hu, hm⟩ := ho o hmem
    simp [Datagram.slot, Cluster.post, hu, hm]
  | requests hc hn data hd ho =>
    refine .candidacy hc hn ?_
    have hslot : ∀ a, (C.post i (data, a)).slot =
        some (C.address i, a, (w.hosts i).node.currentTerm + 1) :=
      fun a => slot_request (C.address i) a (Packet.unpack_pack hd) rfl
    rw [ho, hpeers]
    induction (C.peers i).items with
    | nil => rfl
    | cons p ps ih =>
      rw [List.map_cons, List.map_cons, List.map_cons, List.filterMap_cons_some (hslot _), ih]
  | reply data addr hc req hu hm ht hv resp hr ho =>
    refine .answer data addr hc req hu hm ?_
    rw [ho]
    simp [Datagram.slot, Cluster.post, Packet.unpack_pack hr]

section Act

variable {trace : List WorldStep} {w : World} {i : Int} {c : Cause} {rest : List Datagram}

theorem slots_act : (C.act ⟨w.hosts, rest⟩ i c).slots =
    rest.filterMap Datagram.slot ++ (C.outbox w i c).filterMap Datagram.slot := by
  simp [World.slots, act, outbox]

theorem Takes.slots_subset (ht : Takes C w i c rest) {s : Slot}
    (hs : s ∈ rest.filterMap Datagram.slot) : s ∈ w.slots := by
  obtain ⟨d, hd, hds⟩ := List.mem_filterMap.mp hs
  exact List.mem_filterMap.mpr ⟨d, ht.subset hd, hds⟩

theorem Takes.slots_nodup (hf : Fair C trace w) (ht : Takes C w i c rest) :
    (rest.filterMap Datagram.slot).Nodup := by
  rcases ht with ⟨_, rfl⟩ | ⟨d, hperm, _, _⟩
  · exact hf.slots
  · have hnodup := (hperm.filterMap Datagram.slot).nodup_iff.mpr hf.slots
    rw [List.filterMap_cons] at hnodup
    split at hnodup
    · exact hnodup
    · exact (List.nodup_cons.mp hnodup).2

/-- The slot of a datagram that was taken out is closed. -/
theorem Takes.slot_closed (ht : Takes C w i c rest) {data : Bytes} {addr : Addr}
    (hc : c = .datagram data addr) {s : Slot}
    (hs : (Datagram.mk addr (C.address i) data).slot = some s) :
    (s :: rest.filterMap Datagram.slot).Perm w.slots := by
  rcases ht with ⟨hp, _⟩ | ⟨d, hperm, hdst, hd⟩
  · rw [hc, Cause.packet] at hp
    simp [Datagram.slot, hp] at hs
  · obtain ⟨rfl, rfl⟩ := Cause.datagram.inj (hc.symm.trans hd)
    obtain ⟨src, dst, data⟩ := d
    dsimp only at hdst hs
    subst hdst
    have hslots := hperm.filterMap Datagram.slot
    rwa [List.filterMap_cons_some hs] at hslots

/-- A step of `i` opens no slot in a term that its candidate has reached before. -/
theorem old_slots (hf : Fair C trace w) (hi : i ∈ C.ids) (ht : Takes C w i c rest) {j : Int}
    (hj : j ∈ C.ids) {b : Addr} {T : Int} (hT : T ≤ (w.hosts j).node.currentTerm)
    (hs : (C.address j, b, T) ∈ (C.act ⟨w.hosts, rest⟩ i c).slots) :
    (C.address j, b, T) ∈ w.slots := by
  rw [slots_act] at hs
  rcases List.mem_append.mp hs with hs | hs
  · exact ht.slots_subset hs
  · cases C.newSlots (hf.peers i) c with
    | none h => simp [h] at hs
    | candidacy hc hn h =>
      rw [h] at hs
      obtain ⟨p, _, hp⟩ := List.mem_map.mp hs
      simp only [Prod.mk.injEq] at hp
      have hij := address_inj hi hj hp.1
      subst hij
      omega
    | answer data addr hc req hu hm h =>
      rw [h, List.mem_singleton] at hs
      have hslot := slot_request addr (C.address i) hu hm
      rw [hs]
      exact (ht.slot_closed hc hslot).mem_iff.mp (by simp)

theorem nodup_act (hf : Fair C trace w) (hi : i ∈ C.ids) (ht : Takes C w i c rest) :
    (C.act ⟨w.hosts, rest⟩ i c).slots.Nodup := by
  rw [slots_act]
  have hrest := ht.slots_nodup hf
  cases C.newSlots (hf.peers i) c with
  | none h => simpa [h] using hrest
  | candidacy hc hn h =>
    rw [h]
    refine List.nodup_append.mpr ⟨hrest, ?_, ?_⟩
    · refine List.Nodup.map_on ?_ (C.peers i).nodup.of_map
      intro p hp q hq heq
      simp only [Prod.mk.injEq, true_and, and_true] at heq
      have hpC := (C.mem_peers i hi p).mp hp
      have hqC := (C.mem_peers i hi q).mp hq
      rw [address_of_mem_peers hi hp, address_of_mem_peers hi hq] at heq
      have hid := address_inj hpC.1 hqC.1 heq
      exact Prod.ext hid (by rw [hpC.2.2, hqC.2.2, hid])
    · -- every open slot of `i` is of a term it has reached, the new ones are of the next
      rintro ⟨a, b, T⟩ hs s hnew rfl
      obtain ⟨d, hd, hds⟩ := List.mem_filterMap.mp hs
      obtain ⟨p, _, hp⟩ := List.mem_map.mp hnew
      obtain ⟨c', hc', ha, hT⟩ := (hf.legit d (ht.subset hd)).slot hds
      simp only [Prod.mk.injEq] at hp
      have hic := address_inj hi hc' (hp.1.trans ha)
      subst hic
      omega
  | answer data addr hc req hu hm h =>
    have hslot := slot_request addr (C.address i) hu hm
    have hnodup := (ht.slot_closed hc hslot).nodup_iff.mpr hf.slots
    rw [h]
    exact (List.perm_append_singleton _ _).nodup_iff.mpr hnodup

/-- A reply counted by its candidate. -/
theorem count_act (hf : Fair C trace w) (hi : i ∈ C.ids) (ht : Takes C w i c rest) {v : Int}
    (hr : c.respondent (w.hosts i).node.currentTerm = some v) {votes : Nat}
    (hb : Backed C trace w.slots i (w.hosts i).node.currentTerm votes) :
    Backed C trace (C.act ⟨w.hosts, rest⟩ i c).slots i (w.hosts i).node.currentTerm
      (votes + 1) := by
  unfold Cause.respondent at hr
  split at hr
  · next p hp =>
    obtain ⟨⟨hm, hT⟩, heq⟩ := Option.ite_none_right_eq_some.mp hr
    obtain rfl := Option.some.inj heq
    rcases ht with ⟨hnone, _⟩ | ⟨d, hperm, hdst, rfl⟩
    · rw [hnone] at hp
      cases hp
    · have ht : Takes C w i (.datagram d.data d.src) rest := Or.inr ⟨d, hperm, hdst, rfl⟩
      have hd : d ∈ w.network := hperm.mem_iff.mp (by simp)
      obtain ⟨c', hc', v, hv, hne, hsrc, hdst', hid, _, hvoted⟩ := (hf.legit d hd).reply p hp hm
      obtain rfl := address_inj hi hc' (hdst.symm.trans hdst')
      have hclosed := ht.slot_closed rfl (slot_reply d.src (C.address i) hp hm)
      rw [hsrc] at hclosed
      have hnew : (C.outbox w i (.datagram d.data d.src)).filterMap Datagram.slot = [] := by
        cases C.newSlots (hf.peers i) (.datagram d.data d.src) with
        | none h => exact h
        | candidacy hc => cases hc
        | answer data addr hc req hu hm' =>
          cases hc
          rw [show Packet.unpack d.data = some p from hp] at hu
          obtain rfl := Option.some.inj hu
          rw [hm] at hm'
          cases hm'
      rw [slots_act, hnew, List.append_nil, ← hT]
      exact (hT ▸ hb).count hv hne hvoted hclosed hf.slots
  · cases hr

/-- What a node sends is legitimate after the step that sends it. -/
theorem legit_act (hf : Fair C trace w) (hi : i ∈ C.ids) (ht : Takes C w i c rest)
    {t : WorldStep} (hpost : t.post = C.act ⟨w.hosts, rest⟩ i c)
    (hterm : ∀ j, (w.hosts j).node.currentTerm ≤ (t.post.hosts j).node.currentTerm)
    {d : Datagram} (hd : d ∈ C.outbox w i c) : Legit C (trace ++ [t]) t.post d := by
  obtain ⟨o, hmem, rfl⟩ := List.mem_map.mp hd
  have hhost : t.post.hosts i = (w.hosts i).run c := by
    rw [hpost]
    exact hosts_act_self _ i c
  cases (w.hosts i).sendStep_run c with
  | heartbeats ho =>
    obtain ⟨pkt, hu, hm⟩ := ho o hmem
    constructor
    all_goals
      intro p hp hkind
      obtain rfl : pkt = p := Option.some.inj (hu.symm.trans hp)
      rw [hm] at hkind
      cases hkind
  | requests hc hn data hpack ho =>
    rw [ho, hf.peers i] at hmem
    obtain ⟨q, hq, rfl⟩ := List.mem_map.mp hmem
    have hu := Packet.unpack_pack hpack
    constructor
    · intro p hp hkind
      obtain rfl := Option.some.inj (hu.symm.trans hp)
      have hqC := (C.mem_peers i hi q).mp hq
      refine ⟨i, hi, q.1, hqC.1, hqC.2.1, rfl, address_of_mem_peers hi hq, hf.nodeId i, ?_⟩
      rw [hhost, hn]
      exact le_refl _
    · intro p hp hkind
      obtain rfl := Option.some.inj (hu.symm.trans hp)
      cases hkind
  | reply data addr hc req hu hm hT hv resp hpack ho =>
    rw [ho, List.mem_singleton] at hmem
    subst hmem
    rcases ht with ⟨hnone, _⟩ | ⟨d, hperm, hdst, hd⟩
    · rw [hc, Cause.packet, hu] at hnone
      cases hnone
    · obtain ⟨rfl, rfl⟩ := Cause.datagram.inj (hc.symm.trans hd)
      have hin : d ∈ w.network := hperm.mem_iff.mp (by simp)
      obtain ⟨c', hc', v, hv', hne, hsrc, hdst', hid, hle⟩ := (hf.legit d hin).request req hu hm
      obtain rfl := address_inj hi hv' (hdst.symm.trans hdst')
      have hu' := Packet.unpack_pack hpack
      constructor
      · intro p hp hkind
        obtain rfl := Option.some.inj (hu'.symm.trans hp)
        cases hkind
      · intro p hp _
        obtain rfl := Option.some.inj (hu'.symm.trans hp)
        refine ⟨c', hc', i, hi, hne, rfl, hsrc, hf.nodeId i, hle.trans (hterm c'), .last ?_⟩
        rw [hhost, RaftNode.ballot, hT, hv, hid]

end Act

section Step

variable {trace : List WorldStep} {w w' : World} {e : ClusterEvent}

theorem term_le_step (hf : Fair C trace w) (h : StepCase C w w') (j : Int) :
    (w.hosts j).node.currentTerm ≤ (w'.hosts j).node.currentTerm :=
  Ballot.term_le (ballot_le_step hf.settled h j)

/-- A step in which no host takes over a candidacy or an office keeps the
invariant, provided it opens no slot. -/
theorem fair_quiet (hf : Fair C trace w) (h : StepCase C w w')
    (hnet : w'.network.Sublist w.network)
    (hquiet : ∀ j, w'.hosts j = w.hosts j ∨ (w'.hosts j).node.state = .follower) :
    Fair C (trace ++ [⟨w, e, w'⟩]) w' where
  settled := settled_step hf.settled h
  nodeId j := (config_step h j).1.trans (hf.nodeId j)
  peers j := (config_step h j).2.trans (hf.peers j)
  legit d hd := (hf.legit d (hnet.subset hd)).mono (term_le_step hf h) fun _ _ _ hv => hv.append _
  slots := (hnet.filterMap _).nodup hf.slots
  tally j hj hcand := by
    rcases hquiet j with he | hs
    · rw [he] at hcand ⊢
      exact (hf.tally j hj hcand).mono (fun _ _ _ hv => hv.append _)
        fun _ hs => (hnet.filterMap _).subset hs
    · rw [hs] at hcand
      cases hcand
  elected t ht j T hel := by
    rcases mem_concat.mp ht with ht | rfl
    · obtain ⟨S, hS, hv⟩ := hf.elected t ht j T hel
      exact ⟨S, hS, fun v hvS => (hv v hvS).append _⟩
    · obtain ⟨hpre, hpost, _⟩ := hel
      dsimp only at hpre hpost
      rcases hquiet j with he | hs
      · rw [he] at hpost
        exact absurd hpost hpre
      · rw [hs] at hpost
        cases hpost

/-- The tally of a candidate after node `i` has acted. -/
theorem tally_act (hf : Fair C trace w) {i : Int} (hi : i ∈ C.ids) {c : Cause}
    {rest : List Datagram} (ht : Takes C w i c rest) {j : Int} (hj : j ∈ C.ids)
    (hcand : ((C.act ⟨w.hosts, rest⟩ i c).hosts j).node.state = .candidate) :
    Backed C (trace ++ [⟨w, e, C.act ⟨w.hosts, rest⟩ i c⟩]) (C.act ⟨w.hosts, rest⟩ i c).slots j
      ((C.act ⟨w.hosts, rest⟩ i c).hosts j).node.currentTerm
      ((C.act ⟨w.hosts, rest⟩ i c).hosts j).node.votesReceived := by
  have hkeep : ∀ v k T, Voted trace v k T →
      Voted (trace ++ [⟨w, e, C.act ⟨w.hosts, rest⟩ i c⟩]) v k T := fun _ _ _ hv => hv.append _
  have hself : (C.act ⟨w.hosts, rest⟩ i c).hosts i = (w.hosts i).run c := hosts_act_self _ i c
  have hslots : ∀ b,
      (C.address j, b, (w.hosts j).node.currentTerm) ∈ (C.act ⟨w.hosts, rest⟩ i c).slots →
        (C.address j, b, (w.hosts j).node.currentTerm) ∈ w.slots :=
    fun b hs => old_slots hf hi ht hj (le_refl _) hs
  by_cases hji : j = i
  · subst hji
    rw [hself] at hcand ⊢
    cases (w.hosts j).roleStep_run c with
    | follower hs => rw [hcand] at hs; cases hs
    | candidacy _ _ hn =>
      refine ⟨.last ?_, [], List.nodup_nil, by rw [hn]; rfl, by simp⟩
      dsimp only
      rw [hself, hn, RaftNode.ballot, RaftNode.candidacy, hf.nodeId j]
    | counting hs _ hT hv _ =>
      rw [hT, hv]
      cases hr : c.respondent (w.hosts j).node.currentTerm with
      | none => exact (hf.tally j hj hs).mono hkeep hslots
      | some v => exact (count_act hf hj ht hr (hf.tally j hj hs)).mono hkeep fun _ hin => hin
    | elected _ hs => rw [hcand] at hs; cases hs
    | reigning _ hs => rw [hcand] at hs; cases hs
  · rw [hosts_act_of_ne hji _ c] at hcand ⊢
    exact (hf.tally j hj hcand).mono hkeep hslots

/-- Whoever takes office when node `i` acts has been elected. -/
theorem elected_act (hf : Fair C trace w) {i : Int} (hi : i ∈ C.ids) {c : Cause}
    {rest : List Datagram} (ht : Takes C w i c rest) {j T : Int}
    (hel : WorldStep.Elects ⟨w, e, C.act ⟨w.hosts, rest⟩ i c⟩ j T) :
    ∃ S, Majority C.ids.toFinset S ∧
      ∀ v ∈ S, Voted (trace ++ [⟨w, e, C.act ⟨w.hosts, rest⟩ i c⟩]) v j T := by
  obtain ⟨hpre, hpost, hT⟩ := hel
  dsimp only at hpre hpost hT
  by_cases hji : j = i
  · subst hji
    rw [hosts_act_self] at hpost hT
    cases (w.hosts j).roleStep_run c with
    | follower hs => rw [hpost] at hs; cases hs
    | candidacy _ _ hn => rw [hn] at hpost; cases hpost
    | counting _ hs => rw [hpost] at hs; cases hs
    | reigning hs => exact absurd hs hpre
    | elected hs _ hterm v hr hv hq =>
      have hb := count_act hf hi ht hr (hf.tally j hi hs)
      rw [hv, RaftNode.quorum, hf.peers j] at hq
      obtain ⟨S, hS, hvS⟩ := hb.majority hi hq
      rw [← hT, hterm]
      exact ⟨S, hS, fun v hvm => (hvS v hvm).append _⟩
  · rw [hosts_act_of_ne hji _ c] at hpost
    exact absurd hpost hpre

/-- A step in which node `i` acts keeps the invariant. -/
theorem fair_act (hf : Fair C trace w) {i : Int} (hi : i ∈ C.ids) {c : Cause}
    {rest : List Datagram} (ht : Takes C w i c rest)
    (h : StepCase C w (C.act ⟨w.hosts, rest⟩ i c)) :
    Fair C (trace ++ [⟨w, e, C.act ⟨w.hosts, rest⟩ i c⟩]) (C.act ⟨w.hosts, rest⟩ i c) where
  settled := settled_step hf.settled h
  nodeId j := (config_step h j).1.trans (hf.nodeId j)
  peers j := (config_step h j).2.trans (hf.peers j)
  legit d hd := by
    rcases List.mem_append.mp hd with hd | hd
    · exact (hf.legit d (ht.subset hd)).mono (term_le_step hf h) fun _ _ _ hv => hv.append _
    · exact legit_act hf hi ht rfl (term_le_step hf h) hd
  slots := nodup_act hf hi ht
  tally _ hj hcand := tally_act hf hi ht hj hcand
  elected t hmem j T hel := by
    rcases mem_concat.mp hmem with hold | rfl
    · obtain ⟨S, hS, hv⟩ := hf.elected t hold j T hel
      exact ⟨S, hS, fun v hvS => (hv v hvS).append _⟩
    · exact elected_act hf hi ht hel

theorem fair_step (hf : Fair C trace w) (hs : C.step w e = some w') :
    Fair C (trace ++ [⟨w, e, w'⟩]) w' := by
  have h := step_cases hs
  cases h with
  | own i hi c hc heq =>
    subst heq
    exact fair_act hf hi (Or.inl ⟨hc, rfl⟩) (step_cases hs)
  | delivered k d rest hperm i hi hd heq =>
    subst heq
    exact fair_act hf hi (Or.inr ⟨d, hperm, hd, rfl⟩) (step_cases hs)
  | lost rest hsub heq =>
    subst heq
    exact fair_quiet hf (step_cases hs) hsub fun _ => Or.inl rfl
  | crashed i hi heq =>
    subst heq
    refine fair_quiet hf (step_cases hs) (List.Sublist.refl _) fun j => ?_
    by_cases hj : j = i
    · subst hj
      exact Or.inr (by simp [World.crash, Host.restart, Host.boot, RaftNode.init])
    · exact Or.inl (by simp [World.crash, hj])

theorem fair_genesis : Fair C [] C.genesis where
  settled _ := Host.settled_boot _ _ _
  nodeId _ := rfl
  peers _ := rfl
  legit d hd := by cases hd
  slots := List.nodup_nil
  tally i _ h := by cases h
  elected t ht := by cases ht

theorem fair_run {w₀ : World} (h : C.machine.Run w₀ trace w) : Fair C trace w := by
  refine h.invariant ?_ fun _ _ _ _ hf hs => fair_step hf hs
  rintro _ rfl
  exact fair_genesis

/-- In one term a node votes for at most one candidate, over the whole history. -/
theorem voted_unique {w₀ : World} (h : C.machine.Run w₀ trace w) {v c c' T : Int}
    (hc : Voted trace v c T) (hc' : Voted trace v c' T) : c = c' := by
  obtain ⟨t, ht, hb⟩ := hc
  obtain ⟨u, hu, hb'⟩ := hc'
  have hmono : ∀ trace w e w', C.machine.Run w₀ trace w → C.machine.step w e = some w' →
      (w.hosts v).node.ballot ≤ (w'.hosts v).node.ballot :=
    fun _ _ _ _ hrun hs => ballot_le_step (fair_run hrun).settled (step_cases hs) v
  have hcmp := h.comparable hmono ht hu
  refine Ballot.vote_unique hcmp ?_ (congrArg Ballot.vote hb) (congrArg Ballot.vote hb')
  rw [hb, hb']

/-- Election safety: no two nodes become leaders of one term. -/
theorem election_safety {w₀ : World} (h : C.machine.Run w₀ trace w) {t u : WorldStep}
    (ht : t ∈ trace) (hu : u ∈ trace) {i j T : Int} (hi : t.Elects i T) (hj : u.Elects j T) :
    i = j := by
  obtain ⟨A, hA, hvA⟩ := (fair_run h).elected t ht i T hi
  obtain ⟨B, hB, hvB⟩ := (fair_run h).elected u hu j T hj
  have honest : ∀ v c c', Voted trace v c T → Voted trace v c' T → c = c' :=
    fun _ _ _ hv hv' => voted_unique h hv hv'
  exact Majority.winner_unique honest hA hvA hB hvB

end Step

end Cluster

/-- The three nodes of the simulation. -/
def threeCluster : Cluster where
  ids := [1, 2, 3]
  nodup := by decide
  port i := 9000 + i
  port_inj := by intros; omega
  peers i := ⟨([1, 2, 3].filter fun j => j ≠ i).map fun j => (j, 9000 + j), by
    rw [List.map_map]
    exact (List.Nodup.filter _ (by decide)).map fun _ _ h => h⟩
  mem_peers i _ p := by
    simp only [List.mem_map, List.mem_filter, decide_eq_true_eq]
    constructor
    · intro hx
      obtain ⟨j, ⟨hj, hne⟩, rfl⟩ := hx
      exact ⟨hj, hne, rfl⟩
    · intro hx
      obtain ⟨hj, hne, hp⟩ := hx
      exact ⟨p.1, ⟨hj, hne⟩, Prod.ext rfl hp.symm⟩

/-- Node 1 stands, node 2 answers, the request to node 3 is lost, node 1 counts. -/
def oneLost : List ClusterEvent := [.tick 1 true, .deliver 0, .lose 0, .deliver 0]

theorem election_safety_three : ∃ trace w,
    threeCluster.machine.Run threeCluster.genesis trace w ∧
    ∃ t ∈ trace, WorldStep.Elects t 1 1 ∧ ∀ u ∈ trace, ∀ j, WorldStep.Elects u j 1 → 1 = j := by
  have hexec : ∃ (a b c d : WorldStep) (w : World), threeCluster.machine.exec
      threeCluster.genesis oneLost = some ([a, b, c, d], w) ∧ d.Elects 1 1 :=
    ⟨_, _, _, _, _, rfl, fun h => NodeState.noConfusion h, rfl, rfl⟩
  obtain ⟨a, b, c, d, w, hexec, helects⟩ := hexec
  have hrun := Machine.exec_run (M := threeCluster.machine) rfl hexec
  have hd : d ∈ [a, b, c, d] := by simp
  exact ⟨_, w, hrun, d, hd, helects, fun u hu j hj =>
    Cluster.election_safety hrun hd hu helects hj⟩

end PythonPortfolio.Helix
