import Mathlib.Data.List.DropRight
import Mathlib.Data.List.Perm.Subperm
import PythonPortfolio.Library.Runs
import PythonPortfolio.Helix.Handlers

/-!
# What a Helix leader has been told

A single node is run against an arbitrary sequence of loop iterations and
datagrams. `votes_received` is a bare counter: it grows with every `VOTE_RESP` of
the current term that arrives while the node is a candidate, whoever sent it and
however often. Exactly the quorum's number of replies has been counted when the
node enters `LEADER`, so a majority of distinct peers stands behind it precisely
when no counted reply was a repetition or came from outside `peers`.
-/

namespace PythonPortfolio.Helix

open Library Library.BigEndian

/-- One node, started from any state file, under any timeouts and datagrams. -/
def nodeMachine (nodeId : Int) (peers : Dict Int Int) : Machine Host Cause where
  start h := ∃ d, h = Host.boot nodeId peers d
  step h c := some (h.run c)

abbrev NodeStep := Transition Host Cause

def EntersLeader (t : NodeStep) (T : Int) : Prop :=
  t.pre.node.state ≠ .leader ∧ t.post.node.state = .leader ∧ t.post.node.currentTerm = T

instance (t : NodeStep) (T : Int) : Decidable (EntersLeader t T) :=
  inferInstanceAs (Decidable (_ ∧ _ ∧ _))

def BecomesCandidate (t : NodeStep) (T : Int) : Prop :=
  t.pre.node.currentTerm ≠ T ∧ t.post.node.state = .candidate ∧ t.post.node.currentTerm = T

instance (t : NodeStep) (T : Int) : Decidable (BecomesCandidate t T) :=
  inferInstanceAs (Decidable (_ ∧ _ ∧ _))

/-- The transitions after the last candidacy in term `T`. -/
def sinceCandidacy (T : Int) (trace : List NodeStep) : List NodeStep :=
  trace.rtakeWhile fun t => decide (¬ BecomesCandidate t T)

/-- The `src_id`s of the `VOTE_RESP`s of term `T`, in order of arrival. -/
def respondents (T : Int) (trace : List NodeStep) : List Int :=
  trace.filterMap fun t => t.event.respondent T

/-- Enough pairwise distinct members of `peers` are among `ids`. -/
def RealMajority (peers : Dict Int Int) (ids : List Int) : Prop :=
  ∃ voters : List Int, voters.Nodup ∧ (peers.size + 1) / 2 ≤ voters.length ∧
    ∀ v ∈ voters, v ∈ peers.keys ∧ v ∈ ids

/-- The node became candidate in `T` and has since heard from a majority. -/
def HasMajority (peers : Dict Int Int) (T : Int) (trace : List NodeStep) : Prop :=
  (∃ t ∈ trace, BecomesCandidate t T) ∧
    RealMajority peers (respondents T (sinceCandidacy T trace))

/-- What the counter of a candidate counts. -/
structure Tally (peers : Dict Int Int) (trace : List NodeStep) (h : Host) : Prop where
  config : h.node.peers = peers
  candidacy : h.node.state = .candidate → ∃ t ∈ trace, BecomesCandidate t h.node.currentTerm
  votes : h.node.state = .candidate → h.node.votesReceived =
    (respondents h.node.currentTerm (sinceCandidacy h.node.currentTerm trace)).length + 1
  short : h.node.state = .candidate →
    h.node.votesReceived < h.node.quorum ∨ h.node.votesReceived = 1

theorem sinceCandidacy_concat {T : Int} {trace : List NodeStep} {t : NodeStep}
    (h : ¬ BecomesCandidate t T) :
    sinceCandidacy T (trace ++ [t]) = sinceCandidacy T trace ++ [t] :=
  List.rtakeWhile_concat_pos _ _ _ (by simpa using h)

theorem sinceCandidacy_candidacy {T : Int} {trace : List NodeStep} {t : NodeStep}
    (h : BecomesCandidate t T) : sinceCandidacy T (trace ++ [t]) = [] :=
  List.rtakeWhile_concat_neg _ _ _ (by simpa using h)

theorem respondents_concat (T : Int) (trace : List NodeStep) (t : NodeStep) :
    respondents T (trace ++ [t]) = respondents T trace ++ (t.event.respondent T).toList := by
  simp only [respondents, List.filterMap_append]
  cases h : t.event.respondent T <;> simp [h]

theorem not_becomesCandidate_of_term {t : NodeStep} {T : Int}
    (h : t.post.node.currentTerm = t.pre.node.currentTerm) : ¬ BecomesCandidate t T :=
  fun hc => hc.1 (h.symm.trans hc.2.2)

theorem tally_step {peers : Dict Int Int} {trace : List NodeStep} {h : Host} {c : Cause}
    (ht : Tally peers trace h) : Tally peers (trace ++ [⟨h, c, h.run c⟩]) (h.run c) := by
  have hcfg := h.run_config c
  have hquorum : (h.run c).node.quorum = h.node.quorum := by
    simp only [RaftNode.quorum, hcfg.peers]
  have hpeers := hcfg.peers.trans ht.config
  cases h.roleStep_run c with
  | follower hs =>
    constructor
    · exact hpeers
    all_goals intro hc; rw [hs] at hc; cases hc
  | candidacy _ _ hn =>
    have hb : BecomesCandidate ⟨h, c, h.run c⟩ (h.run c).node.currentTerm := by
      refine ⟨?_, ?_, rfl⟩ <;> simp [hn, RaftNode.candidacy]
    refine ⟨hpeers, fun _ => ⟨_, by simp, hb⟩, fun _ => ?_, fun _ => Or.inr ?_⟩
    · rw [sinceCandidacy_candidacy hb, hn]
      rfl
    · rw [hn]
      rfl
  | counting hs _ hterm hv hq =>
    have hnb : ¬ BecomesCandidate ⟨h, c, h.run c⟩ h.node.currentTerm :=
      not_becomesCandidate_of_term hterm
    constructor
    · exact hpeers
    all_goals intro _
    · obtain ⟨t, hmem, hb⟩ := ht.candidacy hs
      exact ⟨t, List.mem_append_left _ hmem, hterm ▸ hb⟩
    · rw [hterm, sinceCandidacy_concat hnb, respondents_concat, List.length_append, hv,
        ht.votes hs]
      simp only
      omega
    · rw [hquorum]
      rcases hq with hq | hq
      · exact Or.inl hq
      · rw [hq]
        exact ht.short hs
  | elected _ hs' | reigning _ hs' =>
    constructor
    · exact hpeers
    all_goals intro hc; rw [hs'] at hc; cases hc

theorem tally_run {nodeId : Int} {peers : Dict Int Int} {h₀ h : Host} {trace : List NodeStep}
    (hrun : (nodeMachine nodeId peers).Run h₀ trace h) : Tally peers trace h := by
  refine hrun.invariant (P := Tally peers) ?_ ?_
  · rintro _ ⟨d, rfl⟩
    constructor
    · rfl
    all_goals intro hc; cases hc
  · rintro trace h c h' ht hs
    obtain rfl := Option.some.inj hs
    exact tally_step ht

/-- As many distinct peers as the list is long are in the list exactly when the
list repeats no one and stays inside `peers`. -/
theorem realMajority_iff {peers : Dict Int Int} {ids : List Int}
    (hlen : ids.length = (peers.size + 1) / 2) :
    RealMajority peers ids ↔ ids.Nodup ∧ ∀ v ∈ ids, v ∈ peers.keys := by
  constructor
  · intro hx
    obtain ⟨voters, hnodup, hcard, hmem⟩ := hx
    have hsub : voters.Subperm ids := hnodup.subperm fun v hv => (hmem v hv).2
    have hperm : voters.Perm ids := hsub.perm_of_length_le (by omega)
    exact ⟨hperm.nodup_iff.mp hnodup, fun v hv => (hmem v (hperm.mem_iff.mpr hv)).1⟩
  · intro hx
    obtain ⟨hnodup, hmem⟩ := hx
    exact ⟨ids, hnodup, hlen.ge, fun v hv => ⟨hmem v hv, hv⟩⟩

/-- Whenever a node enters `LEADER` in term `T`, a majority of distinct peers has
answered it since its candidacy if and only if it has no peers at all or the
replies of term `T` that arrived since then came from pairwise distinct members
of `peers`. -/
theorem leader_majority_iff {nodeId : Int} {peers : Dict Int Int} {h₀ h : Host}
    {before : List NodeStep} {enter : NodeStep} {T : Int}
    (hrun : (nodeMachine nodeId peers).Run h₀ (before ++ [enter]) h)
    (he : EntersLeader enter T) :
    HasMajority peers T (before ++ [enter]) ↔
      peers.size = 0 ∨
      (respondents T (sinceCandidacy T (before ++ [enter]))).Nodup ∧
        ∀ v ∈ respondents T (sinceCandidacy T (before ++ [enter])), v ∈ peers.keys := by
  obtain ⟨hpre, hstep⟩ := hrun.split
  have htally := tally_run hpre
  obtain ⟨pre, c, post⟩ := enter
  obtain rfl : pre.run c = post := Option.some.inj hstep
  obtain ⟨hne, hl, hT⟩ := he
  dsimp only at hne hl hT htally
  have hrole := pre.roleStep_run c
  cases hrole with
  | follower hs => rw [hl] at hs; cases hs
  | candidacy _ _ hn => rw [hn] at hl; cases hl
  | counting _ hs' => rw [hl] at hs'; cases hs'
  | reigning hs => exact absurd hs hne
  | elected hs _ hterm i hr hv hq =>
    have hTpre : pre.node.currentTerm = T := hterm.symm.trans hT
    have hnb : ¬ BecomesCandidate ⟨pre, c, pre.run c⟩ T := not_becomesCandidate_of_term hterm
    have hcand : ∃ t ∈ before ++ [⟨pre, c, pre.run c⟩], BecomesCandidate t T := by
      obtain ⟨t, hmem, hb⟩ := htally.candidacy hs
      exact ⟨t, List.mem_append_left _ hmem, hTpre ▸ hb⟩
    have hlen : (respondents T (sinceCandidacy T (before ++ [⟨pre, c, pre.run c⟩]))).length =
        pre.node.votesReceived := by
      rw [sinceCandidacy_concat hnb, respondents_concat, List.length_append, ← hTpre, hr,
        htally.votes hs]
      rfl
    have hquorum : pre.node.quorum = (peers.size + 1) / 2 + 1 := by
      rw [RaftNode.quorum, htally.config]
    have hopen := htally.short hs
    rw [hv] at hq
    unfold HasMajority
    rw [and_iff_right hcand]
    by_cases hz : peers.size = 0
    · refine iff_of_true ⟨[], List.nodup_nil, by simp [hz], by simp⟩ (Or.inl hz)
    · rw [or_iff_right hz]
      exact realMajority_iff (by omega)

theorem nodeMachine_start (nodeId : Int) (peers : Dict Int Int) (d : Disk) :
    (nodeMachine nodeId peers).start (Host.boot nodeId peers d) := ⟨d, rfl⟩

/-- Node 1 of the three-node simulation. -/
def threePeers : Dict Int Int := ⟨[(2, 9002), (3, 9003)], by decide⟩

/-- Node 1 of a five-node cluster. -/
def fivePeers : Dict Int Int := ⟨[(2, 9002), (3, 9003), (4, 9004), (5, 9005)], by decide⟩

/-- `VOTE_RESP` of term 1 from node 2. -/
def voteOfTwo : Bytes := [0x48, 0x58, 2, 0, 0, 0, 0, 0, 0, 0, 1, 0, 0, 0, 2, 0, 0, 0, 0]

/-- The transition a cause makes. -/
def Host.move (h : Host) (c : Cause) : NodeStep := ⟨h, c, h.run c⟩

def threeCandidate : NodeStep := (Host.boot 1 threePeers .fresh).move (.tick true)

def threeElected : NodeStep :=
  threeCandidate.post.move (.datagram voteOfTwo (.loopback 9002))

theorem leader_majority_three :
    HasMajority threePeers 1 ([threeCandidate] ++ [threeElected]) := by
  have hrun : (nodeMachine 1 threePeers).Run (Host.boot 1 threePeers .fresh)
      ([threeCandidate] ++ [threeElected]) threeElected.post :=
    .next (.next (.init (nodeMachine_start _ _ _)) rfl) rfl
  exact (leader_majority_iff hrun (by decide)).mpr (Or.inr (by decide))

def fiveCandidate : NodeStep := (Host.boot 1 fivePeers .fresh).move (.tick true)

def fiveFirst : NodeStep :=
  fiveCandidate.post.move (.datagram voteOfTwo (.loopback 9002))

/-- The same datagram a second time. -/
def fiveElected : NodeStep :=
  fiveFirst.post.move (.datagram voteOfTwo (.loopback 9002))

/-- Three votes are the quorum of five, and one duplicated reply makes two of them. -/
theorem duplicate_reply_elects :
    ¬ ∀ (nodeId : Int) (peers : Dict Int Int) (h₀ h : Host) (before : List NodeStep)
        (enter : NodeStep) (T : Int),
      (nodeMachine nodeId peers).Run h₀ (before ++ [enter]) h → EntersLeader enter T →
        HasMajority peers T (before ++ [enter]) := by
  intro hall
  have hrun : (nodeMachine 1 fivePeers).Run (Host.boot 1 fivePeers .fresh)
      ([fiveCandidate, fiveFirst] ++ [fiveElected]) fiveElected.post :=
    .next (.next (.next (.init (nodeMachine_start _ _ _)) rfl) rfl) rfl
  obtain ⟨_, voters, hnodup, hlen, hmem⟩ := hall _ _ _ _ _ _ 1 hrun (by decide)
  have hres : respondents 1 (sinceCandidacy 1 ([fiveCandidate, fiveFirst] ++ [fiveElected])) =
      [2, 2] := by decide
  have honly : ∀ v ∈ voters, v = 2 := by
    intro v hv
    have := (hmem v hv).2
    rw [hres] at this
    simpa using this
  have hle : voters.length ≤ [(2 : Int)].length :=
    (hnodup.subperm fun v hv => by simp [honly v hv]).length_le
  have hsize : (fivePeers.size + 1) / 2 = 2 := rfl
  simp only [List.length_singleton] at hle
  omega

end PythonPortfolio.Helix
