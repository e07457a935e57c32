import Mathlib.Logic.Function.Basic
import PythonPortfolio.Library.Runs
import PythonPortfolio.Helix.Handlers

/-!
# A cluster of Helix nodes

The nodes share a network that may lose, delay and reorder datagrams, and
delivers each of them at most once. A node may crash between two events and come
back with what its disk holds. Nodes listen on the loopback addresses of their
ports, and a datagram carries the address of the node that sent it, so a reply
sent to `addr` goes to the sender of the request.
-/

namespace PythonPortfolio.Helix

open Library Library.BigEndian

/-- Distinct node ids on distinct ports, each node listing all the others. -/
structure Cluster where
  ids : List Int
  nodup : ids.Nodup
  port : Int → Int
  port_inj : ∀ i ∈ ids, ∀ j ∈ ids, port i = port j → i = j
  peers : Int → Dict Int Int
  mem_peers : ∀ i ∈ ids, ∀ p, p ∈ (peers i).items ↔ p.1 ∈ ids ∧ p.1 ≠ i ∧ p.2 = port p.1

/-- A datagram in flight. -/
structure Datagram where
  src : Addr
  dst : Addr
  data : Bytes
deriving DecidableEq

structure World where
  hosts : Int → Host
  network : List Datagram

namespace World

def drop (w : World) (k : Nat) : World := { w with network := w.network.eraseIdx k }

def crash (w : World) (i : Int) : World :=
  { w with hosts := Function.update w.hosts i (w.hosts i).restart }

end World

inductive ClusterEvent where
  | tick (i : Int) (expired : Bool)
  | heartbeat (i : Int)
  | deliver (k : Nat)
  | lose (k : Nat)
  | crash (i : Int)

namespace Cluster

variable (C : Cluster)

def address (i : Int) : Addr := .loopback (C.port i)

/-- The node that listens on an address. -/
def owner (a : Addr) : Option Int := C.ids.find? fun i => C.address i = a

def post (i : Int) (out : Outgoing) : Datagram := ⟨C.address i, out.2, out.1⟩

/-- Node `i` handles `c` to the end, and its datagrams enter the network. -/
def act (w : World) (i : Int) (c : Cause) : World where
  hosts := Function.update w.hosts i ((w.hosts i).run c)
  network := w.network ++ ((w.hosts i).sends c).map (C.post i)

def step (w : World) : ClusterEvent → Option World
  | .tick i expired => if i ∈ C.ids then some (C.act w i (.tick expired)) else none
  | .heartbeat i => if i ∈ C.ids then some (C.act w i .heartbeat) else none
  | .deliver k => match w.network[k]? with
    | none => none
    | some d => match C.owner d.dst with
      | none => some (w.drop k)
      | some i => some (C.act (w.drop k) i (.datagram d.data d.src))
  | .lose k => if k < w.network.length then some (w.drop k) else none
  | .crash i => if i ∈ C.ids then some (w.crash i) else none

/-- No state files, nothing in flight. -/
def genesis : World := ⟨fun i => Host.boot i (C.peers i) .fresh, []⟩

def machine : Machine World ClusterEvent where
  start w := w = C.genesis
  step := C.step

variable {C}

theorem address_inj {i j : Int} (hi : i ∈ C.ids) (hj : j ∈ C.ids)
    (h : C.address i = C.address j) : i = j :=
  C.port_inj i hi j hj (congrArg Addr.port h)

theorem owner_eq_some {a : Addr} {i : Int} (h : C.owner a = some i) :
    i ∈ C.ids ∧ C.address i = a :=
  ⟨List.mem_of_find?_eq_some h, by simpa using List.find?_some h⟩

theorem keys_peers {i : Int} (hi : i ∈ C.ids) (j : Int) :
    j ∈ (C.peers i).keys ↔ j ∈ C.ids ∧ j ≠ i := by
  constructor
  · intro h
    obtain ⟨p, hp, rfl⟩ := List.mem_map.mp h
    have := (C.mem_peers i hi p).mp hp
    exact ⟨this.1, this.2.1⟩
  · intro hx
    obtain ⟨hj, hne⟩ := hx
    exact List.mem_map.mpr ⟨(j, C.port j), (C.mem_peers i hi _).mpr ⟨hj, hne, rfl⟩, rfl⟩

/-- A node and its peers make up the cluster. -/
theorem size_peers {i : Int} (hi : i ∈ C.ids) : (C.peers i).size + 1 = C.ids.length := by
  have hcons : (i :: (C.peers i).keys).Nodup :=
    List.nodup_cons.mpr ⟨fun h => ((keys_peers hi i).mp h).2 rfl, (C.peers i).nodup⟩
  have hperm : (i :: (C.peers i).keys).Perm C.ids := by
    refine (List.perm_ext_iff_of_nodup hcons C.nodup).mpr fun j => ?_
    rw [List.mem_cons, keys_peers hi]
    by_cases hj : j = i
    · simp [hj, hi]
    · simp [hj]
  have hlen := hperm.length_eq
  rwa [List.length_cons, Dict.length_keys] at hlen

/-- The address `broadcast` uses for a peer is the one that peer listens on. -/
theorem address_of_mem_peers {i : Int} (hi : i ∈ C.ids) {p : Int × Int}
    (hp : p ∈ (C.peers i).items) : Addr.loopback p.2 = C.address p.1 := by
  rw [((C.mem_peers i hi p).mp hp).2.2, address]

@[simp] theorem hosts_act_self (w : World) (i : Int) (c : Cause) :
    (C.act w i c).hosts i = (w.hosts i).run c := by
  simp [act]

theorem hosts_act_of_ne {i j : Int} (h : j ≠ i) (w : World) (c : Cause) :
    (C.act w i c).hosts j = w.hosts j := by
  simp [act, h]

/-- Every transition of a cluster is one of four: a node acts on its own, a node
acts on a delivered datagram, a datagram disappears, a node restarts. -/
inductive StepCase (C : Cluster) (w w' : World) : Prop
  | own (i : Int) (hi : i ∈ C.ids) (c : Cause) (hc : c.packet = none) (h : w' = C.act w i c)
  | delivered (k : Nat) (d : Datagram) (rest : List Datagram)
      (hperm : (d :: rest).Perm w.network) (i : Int) (hi : i ∈ C.ids) (hd : d.dst = C.address i)
      (h : w' = C.act ⟨w.hosts, rest⟩ i (.datagram d.data d.src))
  | lost (rest : List Datagram) (hsub : rest.Sublist w.network) (h : w' = ⟨w.hosts, rest⟩)
  | crashed (i : Int) (hi : i ∈ C.ids) (h : w' = w.crash i)

theorem step_cases {w w' : World} {e : ClusterEvent} (h : C.step w e = some w') :
    StepCase C w w' := by
  cases e with
  | tick i expired =>
    obtain ⟨hi, heq⟩ := Option.ite_none_right_eq_some.mp h
    cases heq
    exact .own i hi _ rfl rfl
  | heartbeat i =>
    obtain ⟨hi, heq⟩ := Option.ite_none_right_eq_some.mp h
    cases heq
    exact .own i hi _ rfl rfl
  | deliver k =>
    simp only [step] at h
    split at h
    · cases h
    · next d hk =>
      obtain ⟨hlt, rfl⟩ := List.getElem?_eq_some_iff.mp hk
      split at h
      · cases h
        exact .lost _ (List.eraseIdx_sublist _ _) rfl
      · next i ho =>
        cases h
        obtain ⟨hi, ha⟩ := owner_eq_some ho
        exact .delivered k _ _ (List.getElem_cons_eraseIdx_perm hlt) i hi ha.symm rfl
  | lose k =>
    obtain ⟨_, heq⟩ := Option.ite_none_right_eq_some.mp h
    cases heq
    exact .lost _ (List.eraseIdx_sublist _ _) rfl
  | crash i =>
    obtain ⟨hi, heq⟩ := Option.ite_none_right_eq_some.mp h
    cases heq
    exact .crashed i hi rfl

end Cluster

end PythonPortfolio.Helix
