import PythonPortfolio.Nebula.Raft

/-!
# Who can lead the graph cluster

`_become_candidate` asks nobody for a vote: behind its `await` it looks at the list of
peers only. So a node that has peers never leads; it stays a candidate, which
`_main_loop` never lets stand again, until a message of a newer term makes it a follower.
A node alone leads as soon as its wait is over.
-/

namespace PythonPortfolio.Nebula

open Library

variable {trace : List RaftStep} {n n₀ : RaftNode}

/-- A message of a newer term arrived. -/
def Newer (t : RaftStep) : Prop :=
  ∃ msg, t.event = .message msg ∧ t.pre.currentTerm < msg.term

/-- The node has stood for election and seen no newer term since. -/
def Standing (trace : List RaftStep) : Prop :=
  ∃ before t after, trace = before ++ t :: after ∧ t.event = .timeout ∧
    ∀ u ∈ after, ¬ Newer u

/-- The wait after it stood is over as well. -/
def Elected (trace : List RaftStep) : Prop :=
  ∃ before t after, trace = before ++ t :: after ∧ t.event = .timeout ∧
    (∀ u ∈ after, ¬ Newer u) ∧ ∃ u ∈ after, u.event = .resume

theorem Elected.standing (h : Elected trace) : Standing trace := by
  obtain ⟨before, t, after, htr, ht, hquiet, -⟩ := h
  exact ⟨before, t, after, htr, ht, hquiet⟩

/-- A history that ends with `u`, cut at one of its members. -/
theorem concat_eq_append_cons {before after : List RaftStep} {t u : RaftStep}
    (h : trace ++ [u] = before ++ t :: after) :
    (before = trace ∧ t = u ∧ after = []) ∨
      ∃ after', after = after' ++ [u] ∧ trace = before ++ t :: after' := by
  rcases List.eq_nil_or_concat' after with rfl | ⟨after', last, rfl⟩
  · obtain ⟨rfl, hlast⟩ := List.append_inj' h rfl
    exact Or.inl ⟨rfl, (List.cons.inj hlast).1.symm, rfl⟩
  · have h' : trace ++ [u] = (before ++ t :: after') ++ [last] := by simpa using h
    obtain ⟨rfl, hlast⟩ := List.append_inj' h' rfl
    rw [(List.cons.inj hlast).1]
    exact Or.inr ⟨after', rfl, rfl⟩

theorem standing_concat {u : RaftStep} :
    Standing (trace ++ [u]) ↔ u.event = .timeout ∨ Standing trace ∧ ¬ Newer u := by
  constructor
  · intro hx
    obtain ⟨before, t, after, htr, ht, hquiet⟩ := hx
    rcases concat_eq_append_cons htr with ⟨-, rfl, -⟩ | ⟨after', rfl, rfl⟩
    · exact Or.inl ht
    · exact Or.inr ⟨⟨before, t, after', rfl, ht, fun w hw => hquiet w (by simp [hw])⟩,
        hquiet u (by simp)⟩
  · intro hx
    rcases hx with hu | ⟨⟨before, t, after, rfl, ht, hquiet⟩, hu⟩
    · exact ⟨trace, u, [], rfl, hu, fun w hw => by cases hw⟩
    · refine ⟨before, t, after ++ [u], by simp, ht, fun w hw => ?_⟩
      rcases mem_concat.mp hw with hw | rfl
      · exact hquiet w hw
      · exact hu

theorem elected_concat {u : RaftStep} :
    Elected (trace ++ [u]) ↔
      (Elected trace ∧ ¬ Newer u) ∨ (Standing trace ∧ u.event = .resume) := by
  constructor
  · intro hx
    obtain ⟨before, t, after, htr, ht, hquiet, w, hw, hresume⟩ := hx
    rcases concat_eq_append_cons htr with ⟨-, -, rfl⟩ | ⟨after', rfl, rfl⟩
    · cases hw
    · have hquiet' : ∀ w ∈ after', ¬ Newer w := fun w hw => hquiet w (by simp [hw])
      rcases mem_concat.mp hw with hw | rfl
      · exact Or.inl ⟨⟨before, t, after', rfl, ht, hquiet', w, hw, hresume⟩, hquiet u (by simp)⟩
      · exact Or.inr ⟨⟨before, t, after', rfl, ht, hquiet'⟩, hresume⟩
  · intro hx
    rcases hx with ⟨⟨before, t, after, rfl, ht, hquiet, w, hw, hresume⟩, hu⟩ |
      ⟨⟨before, t, after, rfl, ht, hquiet⟩, hu⟩
    · refine ⟨before, t, after ++ [u], by simp, ht, fun w hw => ?_, w, by simp [hw], hresume⟩
      rcases mem_concat.mp hw with hw | rfl
      · exact hquiet w hw
      · exact hu
    · refine ⟨before, t, after ++ [u], by simp, ht, fun w hw => ?_, u, by simp, hu⟩
      rcases mem_concat.mp hw with hw | rfl
      · exact hquiet w hw
      · intro hnew
        obtain ⟨msg, hmsg, -⟩ := hnew
        rw [hu] at hmsg
        cases hmsg

/-- What the history says about the role of the node. -/
structure Role (trace : List RaftStep) (n : RaftNode) : Prop where
  stands : n.state ≠ .follower ↔ Standing trace
  leads : n.state = .leader ↔ n.peers = [] ∧ Elected trace

/-- A step that is neither a timeout nor a resumption nor brings a newer term. -/
theorem Role.quiet {n' : RaftNode} {t : RaftStep} (h : Role trace n) (hstate : n'.state = n.state)
    (hpeers : n'.peers = n.peers) (hnew : ¬ Newer t) (htimeout : t.event ≠ .timeout)
    (hresume : t.event ≠ .resume) : Role (trace ++ [t]) n' := by
  constructor
  · rw [standing_concat, hstate, h.stands]
    simp [hnew, htimeout]
  · rw [elected_concat, hstate, hpeers, h.leads]
    simp [hnew, hresume]

theorem role_timeout (h : Role trace n) (hstate : n.state = .follower) :
    Role (trace ++ [⟨n, .timeout, n.becomeCandidate⟩]) n.becomeCandidate := by
  have hno : ¬ Standing trace := fun hs => h.stands.mpr hs hstate
  constructor
  · exact iff_of_true (by simp [RaftNode.becomeCandidate]) (standing_concat.mpr (Or.inl rfl))
  · refine iff_of_false (by simp [RaftNode.becomeCandidate]) fun hx => ?_
    rcases elected_concat.mp hx.2 with ⟨hel, -⟩ | ⟨hst, -⟩
    · exact hno hel.standing
    · exact hno hst

/-- Behind its wait a candidate leads if it has no peers. -/
theorem role_resume (h : Role trace n) : Role (trace ++ [⟨n, .resume, n.resume⟩]) n.resume := by
  have hquiet : ¬ Newer ⟨n, .resume, n.resume⟩ := fun hx => by
    obtain ⟨msg, hmsg, -⟩ := hx
    cases hmsg
  have hstanding : Standing (trace ++ [⟨n, .resume, n.resume⟩]) ↔ Standing trace := by
    rw [standing_concat]
    simp [hquiet]
  have helected : Elected (trace ++ [⟨n, .resume, n.resume⟩]) ↔ Standing trace := by
    rw [elected_concat]
    constructor
    · intro hx
      rcases hx with ⟨hel, -⟩ | ⟨hst, -⟩
      · exact hel.standing
      · exact hst
    · exact fun hst => Or.inr ⟨hst, rfl⟩
  have hstands := h.stands
  have hleads := h.leads
  constructor
  · rw [hstanding, ← hstands]
    unfold RaftNode.resume RaftNode.becomeLeader
    dsimp only
    split
    · split
      · exact Iff.rfl
      · next hc => simp [not_not.mp hc]
    · exact Iff.rfl
  · rw [helected, ← hstands]
    unfold RaftNode.resume RaftNode.becomeLeader
    dsimp only
    split
    · next hp =>
      have hpeers : n.peers = [] := List.length_eq_zero_iff.mp hp
      split
      · next hc =>
        cases hs : n.state with
        | follower => simp
        | candidate => exact absurd hs hc
        | leader => simp [hpeers]
      · next hc => simp [not_not.mp hc, hpeers]
    · next hp =>
      have hpeers : n.peers ≠ [] := fun hx => hp (List.length_eq_zero_iff.mpr hx)
      rw [hleads]
      simp [hpeers]

theorem role_message {msg : RaftMessage} (h : Role trace n) :
    Role (trace ++ [⟨n, .message msg, n.onMessage msg⟩]) (n.onMessage msg) := by
  by_cases hterm : msg.term > n.currentTerm
  · have hnew : Newer ⟨n, .message msg, n.onMessage msg⟩ := ⟨msg, rfl, hterm⟩
    have hstate : (n.onMessage msg).state = .follower := by
      unfold RaftNode.onMessage
      rw [if_pos hterm]
      dsimp only
      split <;> rfl
    constructor
    · rw [standing_concat, hstate]
      simp [hnew]
    · rw [elected_concat, hstate]
      simp [hnew]
  · have hquiet : ¬ Newer ⟨n, .message msg, n.onMessage msg⟩ := fun hx => by
      obtain ⟨msg', hmsg, hlt⟩ := hx
      cases hmsg
      exact hterm hlt
    refine h.quiet ?_ ?_ hquiet nofun nofun
    all_goals
      unfold RaftNode.onMessage
      rw [if_neg hterm]
      dsimp only
      split <;> rfl

theorem role_run (h : raftMachine.Run n₀ trace n) : Role trace n := by
  refine h.invariant (P := Role) ?_ fun trace n e n' hr hs => ?_
  · rintro _ ⟨nodeId, peers, rfl⟩
    constructor
    · refine iff_of_false (by simp [RaftNode.init]) fun hx => ?_
      obtain ⟨before, t, after, htr, -⟩ := hx
      simp at htr
    · refine iff_of_false (by simp [RaftNode.init]) fun hx => ?_
      obtain ⟨before, t, after, htr, -⟩ := hx.2
      simp at htr
  · cases e with
    | timeout =>
      obtain ⟨⟨-, hstate⟩, heq⟩ := Option.ite_none_right_eq_some.mp hs
      obtain rfl := Option.some.inj heq
      exact role_timeout hr hstate
    | resume =>
      obtain ⟨-, heq⟩ := Option.ite_none_right_eq_some.mp hs
      obtain rfl := Option.some.inj heq
      exact role_resume hr
    | message msg =>
      obtain rfl := Option.some.inj hs
      exact role_message hr

/-- The elections in which the node has stood. -/
def elections (trace : List RaftStep) : Nat := trace.countP fun t => t.event = .timeout

/-- The times that a newer term has made a follower of it. -/
def demotions (trace : List RaftStep) : Nat :=
  trace.countP fun t => t.pre.state ≠ .follower ∧ t.post.state = .follower

/-- Every election but the one it still stands in was ended by a newer term. -/
theorem elections_run (h : raftMachine.Run n₀ trace n) :
    elections trace = demotions trace + if n.state = .follower then 0 else 1 := by
  refine h.invariant (P := fun trace n =>
    elections trace = demotions trace + if n.state = .follower then 0 else 1) ?_
    fun trace n e n' ih hs => ?_
  · rintro _ ⟨nodeId, peers, rfl⟩
    rfl
  · unfold elections demotions at ih ⊢
    rw [List.countP_append, List.countP_append, ih]
    cases step_case hs with
    | timeout hstate => simp [hstate, RaftNode.becomeCandidate]
    | elected hstate => simp [hstate]
    | resumed => simp
    | newer hterm =>
      by_cases hstate : n.state = .follower
      · simp [hstate, RaftNode.stepDown]
      · simp [hstate, RaftNode.stepDown]
    | append hterm htype => simp
    | ignored hterm htype => simp

/-- A node stands for election, or leads, exactly while no newer term has reached it since
it stood; it leads exactly if it also has no peers and waits no longer; and it stands
again only after a newer term. -/
theorem roles_of_history (h : raftMachine.Run n₀ trace n) :
    (n.state ≠ .follower ↔ Standing trace) ∧
      (n.state = .leader ↔ n.peers = [] ∧ Elected trace) ∧
      elections trace = demotions trace + if n.state = .follower then 0 else 1 :=
  ⟨(role_run h).stands, (role_run h).leads, elections_run h⟩

/-- A node with a peer stands once and waits in vain. -/
theorem roles_of_history_pair : ∃ trace n,
    raftMachine.Run (.init "A" ["B"]) trace n ∧ n.state = .candidate ∧ Standing trace ∧
      elections trace = 1 := by
  have hexec : ∃ trace n, raftMachine.exec (.init "A" ["B"])
      [.timeout, .resume, .message ⟨1, "B", "VOTE_RESP"⟩] = some (trace, n) ∧
      n.state = .candidate ∧ demotions trace = 0 := ⟨_, _, rfl, rfl, rfl⟩
  obtain ⟨trace, n, hexec, hstate, hdemotions⟩ := hexec
  have hstart : raftMachine.start (.init "A" ["B"]) := ⟨"A", ["B"], rfl⟩
  have hrun := Machine.exec_run hstart hexec
  obtain ⟨hstands, -, helections⟩ := roles_of_history hrun
  refine ⟨trace, n, hrun, hstate, hstands.mp (by simp [hstate]), ?_⟩
  rw [helections, hdemotions, hstate]
  rfl

end PythonPortfolio.Nebula
