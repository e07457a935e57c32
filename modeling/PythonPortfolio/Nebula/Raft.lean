import PythonPortfolio.Library.Runs

/-!
# What a raft node knows about its leader

`RaftNode` of the graph cluster has one task, `_main_loop`, which is suspended in
`_become_candidate` while it waits; messages may arrive then. An election timeout may
strike whenever the loop looks at a follower, so the clock and the timers are no part
of the state. `leader_id` is set by every `APPEND_REQ`, however old, and an election
timeout leaves it as it is.
-/

namespace PythonPortfolio.Nebula

open Library

inductive RaftState where
  | follower
  | candidate
  | leader
deriving DecidableEq

/-- `msg_type` may be any text. -/
structure RaftMessage where
  term : Int
  srcId : String
  msgType : String
deriving DecidableEq

/-- `suspended` says that `_become_candidate` waits. -/
structure RaftNode where
  nodeId : String
  peers : List String
  currentTerm : Int
  votedFor : Option String
  votesReceived : Option Nat
  state : RaftState
  leaderId : Option String
  suspended : Bool
deriving DecidableEq

namespace RaftNode

def init (nodeId : String) (peers : List String) : RaftNode :=
  ⟨nodeId, peers, 0, none, none, .follower, none, false⟩

/-- `_become_candidate` up to its `await`. -/
def becomeCandidate (n : RaftNode) : RaftNode :=
  { n with
    state := .candidate
    currentTerm := n.currentTerm + 1
    votedFor := some n.nodeId
    votesReceived := some 1
    suspended := true }

def becomeLeader (n : RaftNode) : RaftNode :=
  if n.state ≠ .candidate then n
  else { n with state := .leader, leaderId := some n.nodeId }

/-- `_become_candidate` behind its `await`. -/
def resume (n : RaftNode) : RaftNode :=
  let n := { n with suspended := false }
  if n.peers.length = 0 then n.becomeLeader else n

def stepDown (n : RaftNode) (term : Int) : RaftNode :=
  { n with currentTerm := term, state := .follower, votedFor := none, leaderId := none }

def onMessage (n : RaftNode) (msg : RaftMessage) : RaftNode :=
  let n := if msg.term > n.currentTerm then n.stepDown msg.term else n
  if msg.msgType = "APPEND_REQ" then { n with leaderId := some msg.srcId } else n

end RaftNode

inductive RaftEvent where
  | timeout
  | resume
  | message (msg : RaftMessage)
deriving DecidableEq

def RaftNode.step (n : RaftNode) : RaftEvent → Option RaftNode
  | .timeout => if n.suspended = false ∧ n.state = .follower then some n.becomeCandidate else none
  | .resume => if n.suspended then some n.resume else none
  | .message msg => some (n.onMessage msg)

def raftMachine : Machine RaftNode RaftEvent where
  start n := ∃ nodeId peers, n = .init nodeId peers
  step := RaftNode.step

abbrev RaftStep := Transition RaftNode RaftEvent

/-- An `APPEND_REQ` of the term `T` from `x` has arrived. -/
def Heard (trace : List RaftStep) (x : String) (T : Int) : Prop :=
  ∃ t ∈ trace, ∃ msg, t.event = .message msg ∧ msg.msgType = "APPEND_REQ" ∧ msg.srcId = x ∧
    msg.term = T

/-- The node has become leader in the term `T`. -/
def Won (trace : List RaftStep) (T : Int) : Prop :=
  ∃ t ∈ trace, t.pre.state ≠ .leader ∧ t.post.state = .leader ∧ t.post.currentTerm = T

/-- `x` has shown that it leads the current term. -/
def Leads (trace : List RaftStep) (n : RaftNode) (x : String) : Prop :=
  Heard trace x n.currentTerm ∨ x = n.nodeId ∧ Won trace n.currentTerm

/-- A leader knows of itself, and `leader_id` names a leader of the current term. -/
structure Current (trace : List RaftStep) (n : RaftNode) : Prop where
  office : n.state = .leader → n.leaderId = some n.nodeId
  source : ∀ x, n.leaderId = some x → Leads trace n x

/-- A timeout strikes while no leader is known; an `APPEND_REQ` that is not new reaches no
leader but from itself, and comes from a leader of the current term if it is old. -/
def Fresh (trace : List RaftStep) (t : RaftStep) : Prop :=
  match t.event with
  | .timeout => t.pre.leaderId = none
  | .resume => True
  | .message msg =>
    msg.msgType = "APPEND_REQ" → msg.term ≤ t.pre.currentTerm →
      (t.pre.state = .leader → msg.srcId = t.pre.nodeId) ∧
      (msg.term < t.pre.currentTerm → Leads trace t.pre msg.srcId)

/-! ## What a step does -/

section Step

variable {n n' : RaftNode} {e : RaftEvent} {trace : List RaftStep} {x : String} {T : Int}

inductive StepCase (n : RaftNode) : RaftEvent → RaftNode → Prop
  | timeout (hstate : n.state = .follower) : StepCase n .timeout n.becomeCandidate
  | elected (hstate : n.state = .candidate) : StepCase n .resume
      { n with suspended := false, state := .leader, leaderId := some n.nodeId }
  | resumed : StepCase n .resume { n with suspended := false }
  | newer {msg : RaftMessage} (hterm : n.currentTerm < msg.term) : StepCase n (.message msg)
      { n.stepDown msg.term with
        leaderId := if msg.msgType = "APPEND_REQ" then some msg.srcId else none }
  | append {msg : RaftMessage} (hterm : msg.term ≤ n.currentTerm)
      (htype : msg.msgType = "APPEND_REQ") :
      StepCase n (.message msg) { n with leaderId := some msg.srcId }
  | ignored {msg : RaftMessage} (hterm : msg.term ≤ n.currentTerm)
      (htype : msg.msgType ≠ "APPEND_REQ") : StepCase n (.message msg) n

theorem step_case (h : n.step e = some n') : StepCase n e n' := by
  cases e with
  | timeout =>
    obtain ⟨⟨-, hstate⟩, heq⟩ := Option.ite_none_right_eq_some.mp h
    obtain rfl := Option.some.inj heq
    exact .timeout hstate
  | resume =>
    obtain ⟨-, heq⟩ := Option.ite_none_right_eq_some.mp h
    obtain rfl := Option.some.inj heq
    unfold RaftNode.resume RaftNode.becomeLeader
    dsimp only
    by_cases hpeers : n.peers.length = 0
    · by_cases hstate : n.state = .candidate
      · rw [if_pos hpeers, if_neg (not_not.mpr hstate)]
        exact .elected hstate
      · rw [if_pos hpeers, if_pos hstate]
        exact .resumed
    · rw [if_neg hpeers]
      exact .resumed
  | message msg =>
    obtain rfl := Option.some.inj h
    unfold RaftNode.onMessage
    dsimp only
    by_cases hterm : msg.term > n.currentTerm
    · rw [if_pos hterm]
      have hcase := StepCase.newer (n := n) hterm
      by_cases htype : msg.msgType = "APPEND_REQ"
      · rwa [if_pos htype] at hcase ⊢
      · rwa [if_neg htype] at hcase ⊢
    · rw [if_neg hterm]
      by_cases htype : msg.msgType = "APPEND_REQ"
      · rw [if_pos htype]
        exact .append (Int.not_lt.mp hterm) htype
      · rw [if_neg htype]
        exact .ignored (Int.not_lt.mp hterm) htype

/-- `current_term` never decreases. -/
theorem currentTerm_le_step (h : n.step e = some n') : n.currentTerm ≤ n'.currentTerm := by
  cases step_case h with
  | timeout => exact Int.le_add_one (Int.le_refl _)
  | newer hterm => exact Int.le_of_lt hterm
  | elected | resumed | append | ignored => exact Int.le_refl _

theorem heard_concat {t : RaftStep} : Heard (trace ++ [t]) x T ↔ Heard trace x T ∨
    ∃ msg, t.event = .message msg ∧ msg.msgType = "APPEND_REQ" ∧ msg.srcId = x ∧ msg.term = T := by
  simp only [Heard, mem_concat, or_and_right, exists_or, exists_eq_left]

theorem won_concat {t : RaftStep} : Won (trace ++ [t]) T ↔ Won trace T ∨
    t.pre.state ≠ .leader ∧ t.post.state = .leader ∧ t.post.currentTerm = T := by
  simp only [Won, mem_concat, or_and_right, exists_or, exists_eq_left]

theorem Leads.mono {t : RaftStep} (h : Leads trace n x) (hid : n'.nodeId = n.nodeId)
    (hterm : n'.currentTerm = n.currentTerm) : Leads (trace ++ [t]) n' x := by
  unfold Leads
  rw [hid, hterm, heard_concat, won_concat]
  exact h.imp Or.inl fun hown => ⟨hown.1, Or.inl hown.2⟩

/-- No term of the history is ahead of the node. -/
structure Reached (trace : List RaftStep) (n : RaftNode) : Prop where
  heard : ∀ x T, Heard trace x T → T ≤ n.currentTerm
  won : ∀ T, Won trace T → T ≤ n.currentTerm

theorem reached_step (h : Reached trace n) (hs : n.step e = some n') :
    Reached (trace ++ [⟨n, e, n'⟩]) n' := by
  have hle := currentTerm_le_step hs
  constructor
  · intro x T hx
    rcases heard_concat.mp hx with hold | ⟨msg, hmsg, _, _, rfl⟩
    · exact Int.le_trans (h.heard x T hold) hle
    · dsimp only at hmsg
      subst hmsg
      cases step_case hs with
      | newer => exact Int.le_refl _
      | append hterm | ignored hterm => exact hterm
  · intro T hT
    rcases won_concat.mp hT with hold | ⟨_, _, rfl⟩
    · exact Int.le_trans (h.won T hold) hle
    · exact Int.le_refl _

theorem run_reached {n₀ : RaftNode} (h : raftMachine.Run n₀ trace n) : Reached trace n := by
  refine h.invariant (fun n _ => ⟨fun x T hx => ?_, fun T hT => ?_⟩) fun trace n e n' hr hs =>
    reached_step hr hs
  · obtain ⟨t, ht, _⟩ := hx
    cases ht
  · obtain ⟨t, ht, _⟩ := hT
    cases ht

/-- A timeout keeps `leader_id`, which the new term has not confirmed. -/
theorem current_timeout (hr : Reached trace n) :
    Current (trace ++ [⟨n, .timeout, n.becomeCandidate⟩]) n.becomeCandidate ↔
      n.leaderId = none := by
  constructor
  · intro h
    rw [Option.eq_none_iff_forall_not_mem]
    intro x hx
    rcases h.source x hx with hheard | ⟨_, hwon⟩
    · rcases heard_concat.mp hheard with hold | ⟨msg, hmsg, _⟩
      · have := hr.heard x _ hold
        simp only [RaftNode.becomeCandidate] at this
        omega
      · cases hmsg
    · rcases won_concat.mp hwon with hold | ⟨_, hpost, _⟩
      · have := hr.won _ hold
        simp only [RaftNode.becomeCandidate] at this
        omega
      · cases hpost
  · intro hnone
    refine ⟨nofun, fun x hx => ?_⟩
    rw [RaftNode.becomeCandidate, hnone] at hx
    cases hx

/-- An `APPEND_REQ` that is not new. -/
theorem current_append {msg : RaftMessage} (hterm : msg.term ≤ n.currentTerm)
    (htype : msg.msgType = "APPEND_REQ") :
    Current (trace ++ [⟨n, .message msg, { n with leaderId := some msg.srcId }⟩])
        { n with leaderId := some msg.srcId } ↔
      (n.state = .leader → msg.srcId = n.nodeId) ∧
        (msg.term < n.currentTerm → Leads trace n msg.srcId) := by
  constructor
  · intro h
    refine ⟨fun hstate => Option.some.inj (h.office hstate), fun hlt => ?_⟩
    refine (h.source msg.srcId rfl).imp (fun hheard => ?_) fun hown => ⟨hown.1, ?_⟩
    · rcases heard_concat.mp hheard with hold | ⟨msg', hmsg, _, _, hT⟩
      · exact hold
      · cases hmsg
        exact absurd hT (Int.ne_of_lt hlt)
    · rcases won_concat.mp hown.2 with hold | ⟨hpre, hpost, _⟩
      · exact hold
      · exact absurd hpost hpre
  · rintro ⟨hoffice, hold⟩
    refine ⟨fun hstate => congrArg some (hoffice hstate), fun x hx => ?_⟩
    obtain rfl := Option.some.inj hx
    rcases Int.lt_or_eq_of_le hterm with hlt | heq
    · exact (hold hlt).mono rfl rfl
    · exact Or.inl (heard_concat.mpr (Or.inr ⟨msg, rfl, htype, rfl, heq⟩))

/-- A step keeps the knowledge current exactly if it is fresh. -/
theorem current_step (hr : Reached trace n) (h : Current trace n) (hs : n.step e = some n') :
    Current (trace ++ [⟨n, e, n'⟩]) n' ↔ Fresh trace ⟨n, e, n'⟩ := by
  cases step_case hs with
  | timeout => exact current_timeout hr
  | elected hstate =>
    refine iff_of_true ⟨fun _ => rfl, fun x hx => Or.inr ⟨(Option.some.inj hx).symm, ?_⟩⟩ trivial
    exact won_concat.mpr (Or.inr ⟨by rw [hstate]; nofun, rfl, rfl⟩)
  | resumed => exact iff_of_true ⟨h.office, fun x hx => (h.source x hx).mono rfl rfl⟩ trivial
  | @newer msg hterm =>
    refine iff_of_true ⟨nofun, fun x hx => ?_⟩ fun _ hle => absurd hterm (Int.not_lt.mpr hle)
    obtain ⟨htype, hsrc⟩ := Option.ite_none_right_eq_some.mp hx
    exact Or.inl (heard_concat.mpr (Or.inr ⟨msg, rfl, htype, Option.some.inj hsrc, rfl⟩))
  | append hterm htype =>
    rw [current_append hterm htype]
    exact ⟨fun hfresh _ _ => hfresh, fun hfresh => hfresh htype hterm⟩
  | ignored hterm htype =>
    exact iff_of_true ⟨h.office, fun x hx => (h.source x hx).mono rfl rfl⟩ fun hx => absurd hx htype

end Step

/-- The term never falls; and what a node knows of its leader is current all along a run
exactly if every step is fresh. -/
theorem leader_current_iff {n₀ n : RaftNode} {trace : List RaftStep}
    (h : raftMachine.Run n₀ trace n) :
    (∀ t ∈ trace, t.pre.currentTerm ≤ t.post.currentTerm) ∧
      (Throughout (fun before t => Current (before ++ [t]) t.post) trace ↔
        Throughout Fresh trace) := by
  constructor
  · intro t ht
    obtain ⟨before, after, rfl⟩ := List.append_of_mem ht
    exact currentTerm_le_step h.split.2
  · refine h.throughout_iff ?_ fun _ _ _ _ hrun hc hs => current_step (run_reached hrun) hc hs
    rintro _ ⟨nodeId, peers, rfl⟩
    exact ⟨nofun, nofun⟩

/-- A node without peers, which wins the election of the first term. -/
def lonely : RaftNode := .init "A" []

def lonelyLeader : RaftNode := ⟨"A", [], 1, some "A", some 1, .leader, some "A", false⟩

def lonelyElection : List RaftStep :=
  [⟨lonely, .timeout, lonely.becomeCandidate⟩, ⟨lonely.becomeCandidate, .resume, lonelyLeader⟩]

theorem lonely_run : raftMachine.Run lonely lonelyElection lonelyLeader := by
  have hexec : raftMachine.exec lonely [.timeout, .resume] =
      some (lonelyElection, lonelyLeader) := rfl
  exact Machine.exec_run ⟨"A", [], rfl⟩ hexec

theorem leader_current_lonely :
    Throughout (fun before t => Current (before ++ [t]) t.post) lonelyElection := by
  refine (leader_current_iff lonely_run).2.mpr ?_
  exact throughout_concat.mpr ⟨throughout_concat.mpr ⟨throughout_nil, rfl⟩, trivial⟩

/-- The leader takes an `APPEND_REQ` of an older term for that of its leader. -/
theorem old_append_believed : ¬ ∀ (n₀ n : RaftNode) (trace : List RaftStep),
    raftMachine.Run n₀ trace n →
      Throughout (fun before t => Current (before ++ [t]) t.post) trace := by
  intro hall
  have hrun : raftMachine.Run lonely
      (lonelyElection ++ [⟨lonelyLeader, .message ⟨0, "B", "APPEND_REQ"⟩,
        { lonelyLeader with leaderId := some "B" }⟩]) { lonelyLeader with leaderId := some "B" } :=
    .next lonely_run rfl
  have hcurrent := (throughout_concat.mp (hall _ _ _ hrun)).2
  exact absurd (hcurrent.office rfl) (by decide)

end PythonPortfolio.Nebula
