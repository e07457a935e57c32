import PythonPortfolio.Library.Runs
import PythonPortfolio.Hyperion.Engine

/-!
# Concurrent writes and reads

The coroutines of `write` and `read` are taken apart at every statement that
touches shared state; locals travel in the program counter. The event loop picks
a coroutine only when none is running, and a running coroutine keeps the control
until it returns or waits for a lock that is held. Every interleaving that
`asyncio` can produce is a run of this machine.
-/

namespace PythonPortfolio.Hyperion

open Library Library.BigEndian

inductive Request where
  | write (key : PyStr) (value : Bytes)
  | read (key : PyStr)
deriving DecidableEq

/-- What a coroutine ends with. -/
inductive Outcome where
  | seq (seqId : Int)
  | value (val : Option Bytes)
  | raised (e : EngineError)
deriving DecidableEq

/-- The statement a coroutine executes next, with its locals: `entry.seq_id` in
`write`, `val` in `read`. -/
inductive Pc (n : Nat) where
  | start
  | putAcquire (i : Fin n) (seqId : Int)
  | putStore (i : Fin n) (seqId : Int)
  | putRelease (i : Fin n) (seqId : Int)
  | writeReturn (seqId : Int)
  | getAcquire (i : Fin n)
  | getLookup (i : Fin n)
  | getRelease (i : Fin n) (val : Option Bytes)
  | readReturn (val : Option Bytes)
  | returned (o : Outcome)
deriving DecidableEq

structure Task (n : Nat) where
  request : Request
  pc : Pc n

/-- What a statement does to the control: go on, wait, or leave. -/
inductive Control (n : Nat) where
  | go (pc : Pc n)
  | suspend
  | done (o : Outcome)

/-- The engine, the coroutines created so far, and the one that is running. -/
structure Loop (n : Nat) where
  engine : HyperionEngine n
  tasks : List (Task n)
  current : Option Nat

inductive LoopEvent where
  | spawn (request : Request)
  | resume (k : Nat)
  | run (env : Environment)

/-- A record of the log, and the coroutine that wrote it. -/
structure LogRecord where
  task : Nat
  seqId : Int
  key : PyStr
  value : Bytes
deriving DecidableEq

def Shard.lock (s : Shard) : Shard := { s with locked := true }

def Shard.unlock (s : Shard) : Shard := { s with locked := false }

namespace HyperionEngine

variable {n : Nat} [NeZero n] (crc32 : Bytes → UInt32)

/-- One statement of a coroutine. -/
def exec (e : HyperionEngine n) (env : Environment) : Request → Pc n →
    Control n × HyperionEngine n
  | .write key value, .start =>
    match e.logEntry crc32 value env with
    | (.error err, e) => (.done (.raised (.wal err)), e)
    | (.ok _, e) =>
      match route crc32 key with
      | none => (.done (.raised .unicodeEncodeError), e)
      | some i => (.go (.putAcquire i e.sequenceId), e)
  | .read key, .start =>
    match route crc32 key with
    | none => (.done (.raised .unicodeEncodeError), e)
    | some i => (.go (.getAcquire i), e)
  | .write _ _, .putAcquire i seqId =>
    if (e.shards i).locked then (.suspend, e)
    else (.go (.putStore i seqId), e.modifyShard i Shard.lock)
  | .write key value, .putStore i seqId =>
    (.go (.putRelease i seqId), e.modifyShard i (·.store key value))
  | .write _ _, .putRelease i seqId => (.go (.writeReturn seqId), e.modifyShard i Shard.unlock)
  | .write _ value, .writeReturn _ => (.done (.seq e.sequenceId), e.countWrite value)
  | .read _, .getAcquire i =>
    if (e.shards i).locked then (.suspend, e)
    else (.go (.getLookup i), e.modifyShard i Shard.lock)
  | .read key, .getLookup i => (.go (.getRelease i ((e.shards i).data.get? key)), e)
  | .read _, .getRelease i val => (.go (.readReturn val), e.modifyShard i Shard.unlock)
  | .read _, .readReturn val => (.done (.value val), e.countRead)
  -- a coroutine never reaches a statement of the other kind
  | _, _ => (.suspend, e)

/-- The record a statement of coroutine `k` adds to the log. -/
def recordOf (e : HyperionEngine n) (env : Environment) (k : Nat) : Request → Pc n →
    Option LogRecord
  | .write key value, .start =>
    match (e.logEntry crc32 value env).1 with
    | .error _ => none
    | .ok _ => some ⟨k, (e.nextEntry crc32 value env).seqId, key, value⟩
  | _, _ => none

end HyperionEngine

/-- The record whose value a statement of coroutine `k` stores in memory. -/
def Pc.applies {n : Nat} (pc : Pc n) (k : Nat) (request : Request) : Option LogRecord :=
  match request, pc with
  | .write key value, .putStore _ seqId => some ⟨k, seqId, key, value⟩
  | _, _ => none

namespace Loop

variable {n : Nat} [NeZero n] (crc32 : Bytes → UInt32)

/-- The loop after the running coroutine `k` has executed a statement. -/
def settle (s : Loop n) (k : Nat) (task : Task n) : Control n × HyperionEngine n → Loop n
  | (.go pc, e) => ⟨e, s.tasks.set k { task with pc := pc }, some k⟩
  | (.suspend, e) => ⟨e, s.tasks, none⟩
  | (.done o, e) => ⟨e, s.tasks.set k { task with pc := .returned o }, none⟩

/-- A coroutine that waits is resumed when its lock is free. -/
def Ready (s : Loop n) : Pc n → Bool
  | .start => true
  | .putAcquire i _ | .getAcquire i => !(s.engine.shards i).locked
  | _ => false

def step (s : Loop n) : LoopEvent → Option (Loop n)
  | .spawn request =>
    if s.current = none then some { s with tasks := s.tasks ++ [⟨request, .start⟩] } else none
  | .resume k =>
    match s.current, s.tasks[k]? with
    | none, some task => if s.Ready task.pc then some { s with current := some k } else none
    | _, _ => none
  | .run env =>
    match s.current with
    | none => none
    | some k =>
      match s.tasks[k]? with
      | none => none
      | some task => some (s.settle k task (s.engine.exec crc32 env task.request task.pc))

/-- An engine around any opened log, no coroutine yet. -/
def machine (n : Nat) [NeZero n] : Machine (Loop n) LoopEvent where
  start s := ∃ wal, s = ⟨.init wal, [], none⟩
  step := step crc32

end Loop

abbrev LoopStep (n : Nat) := Transition (Loop n) LoopEvent

namespace LoopStep

variable {n : Nat} (crc32 : Bytes → UInt32)

/-- The coroutine that executes a statement in this transition. -/
def running (t : LoopStep n) : Option (Nat × Task n) :=
  match t.event, t.pre.current with
  | .run _, some k => t.pre.tasks[k]?.map fun task => (k, task)
  | _, _ => none

/-- The record `write_entry` appends in this transition. -/
def logged (t : LoopStep n) : Option LogRecord :=
  match t.event, t.running with
  | .run env, some (k, task) => t.pre.engine.recordOf crc32 env k task.request task.pc
  | _, _ => none

/-- The record whose value `put` stores in this transition. -/
def applied (t : LoopStep n) : Option LogRecord :=
  t.running.bind fun r => r.2.pc.applies r.1 r.2.request

/-- Coroutine `k`, called with `request`, ends with `o`. -/
def Returns (t : LoopStep n) (k : Nat) (request : Request) (o : Outcome) : Prop :=
  (∃ pc, t.running = some (k, ⟨request, pc⟩)) ∧
    t.post.tasks[k]? = some ⟨request, .returned o⟩

end LoopStep

/-! ## A coroutine left alone

Between free locks the statements of a coroutine add up to the call it stands for.
-/

namespace HyperionEngine

variable {n : Nat} [NeZero n] (crc32 : Bytes → UInt32)

/-- The statements of a coroutine up to its return, unless it has to wait or
`fuel` runs out. -/
def finish (env : Environment) (request : Request) : Nat → Pc n → HyperionEngine n →
    Option (Outcome × HyperionEngine n)
  | 0, _, _ => none
  | fuel + 1, pc, e =>
    match e.exec crc32 env request pc with
    | (.go pc, e) => finish env request fuel pc e
    | (.suspend, _) => none
    | (.done o, e) => some (o, e)

/-- What the caller of a method sees. -/
def outcome {α : Type} (result : α → Outcome) : Except EngineError α → Outcome
  | .ok a => result a
  | .error err => .raised err

omit [NeZero n] in
theorem modifyShard_comp (e : HyperionEngine n) (i : Fin n) (f g : Shard → Shard) :
    (e.modifyShard i f).modifyShard i g = e.modifyShard i (g ∘ f) := by
  unfold modifyShard
  congr 1
  funext j
  by_cases hj : j = i <;> simp [hj]

omit [NeZero n] in
theorem modifyShard_congr {e : HyperionEngine n} {i : Fin n} {f g : Shard → Shard}
    (h : f (e.shards i) = g (e.shards i)) : e.modifyShard i f = e.modifyShard i g := by
  unfold modifyShard
  congr 1
  funext j
  by_cases hj : j = i
  · subst hj
    simp [h]
  · simp [hj]

omit [NeZero n] in
theorem modifyShard_id (e : HyperionEngine n) (i : Fin n) : e.modifyShard i id = e := by
  show { e with shards := fun j => if j = i then e.shards j else e.shards j } = e
  simp only [ite_self]

theorem unlock_of_free {s : Shard} (h : s.locked = false) : s.unlock = s := by
  show { s with locked := false } = s
  rw [← h]

/-- From free locks to its return, the write coroutine does what `write` does. -/
theorem finish_write {e : HyperionEngine n} (hfree : ∀ i, (e.shards i).locked = false)
    (key : PyStr) (value : Bytes) (env : Environment) :
    finish crc32 env (.write key value) 5 .start e =
      some (outcome .seq (e.write crc32 key value env).1, (e.write crc32 key value env).2) := by
  have hshards := logEntry_shards crc32 e value env
  simp only [finish, exec, write]
  generalize e.logEntry crc32 value env = r at hshards ⊢
  obtain ⟨result, e'⟩ := r
  cases result with
  | error err => rfl
  | ok offset =>
    dsimp only at hshards ⊢
    cases hr : route (n := n) crc32 key with
    | none => rfl
    | some i =>
      have hopen : (e'.shards i).locked = false := by rw [hshards, hfree]
      have hstore : ((e'.shards i).lock.store key value).unlock = (e'.shards i).store key value :=
        unlock_of_free (s := (e'.shards i).store key value) hopen
      simp only [hopen, Bool.false_eq_true, if_false, modifyShard_comp]
      rw [modifyShard_congr (g := (·.store key value)) hstore]
      rfl

/-- From free locks to its return, the read coroutine does what `read` does. -/
theorem finish_read {e : HyperionEngine n} (hfree : ∀ i, (e.shards i).locked = false)
    (key : PyStr) (env : Environment) :
    finish crc32 env (.read key) 5 .start e =
      some (outcome .value (e.read crc32 key).1, (e.read crc32 key).2) := by
  simp only [finish, exec, read]
  cases hr : route (n := n) crc32 key with
  | none => rfl
  | some i =>
    have hlock : (e.shards i).lock.unlock = e.shards i := unlock_of_free (s := e.shards i) (hfree i)
    simp only [hfree i, Bool.false_eq_true, if_false, modifyShard_comp, modifyShard_self]
    rw [modifyShard_congr (g := id) hlock, modifyShard_id]
    rfl

end HyperionEngine

namespace Loop

variable {n : Nat} [NeZero n] {crc32 : Bytes → UInt32}

/-- The loop runs an undisturbed coroutine to its return. -/
theorem exec_of_finish {env : Environment} {request : Request} {fuel : Nat} {pc : Pc n}
    {e e' : HyperionEngine n} {o : Outcome} (h : e.finish crc32 env request fuel pc = some (o, e'))
    (k : Nat) (tasks : List (Task n)) (htask : tasks[k]? = some ⟨request, pc⟩) :
    ∃ m trace, (machine crc32 n).exec ⟨e, tasks, some k⟩ (List.replicate m (.run env)) =
      some (trace, ⟨e', tasks.set k ⟨request, .returned o⟩, none⟩) := by
  induction fuel generalizing pc e tasks with
  | zero => cases h
  | succ fuel ih =>
    have hstep : (machine crc32 n).step ⟨e, tasks, some k⟩ (.run env) =
        some (settle ⟨e, tasks, some k⟩ k ⟨request, pc⟩ (e.exec crc32 env request pc)) := by
      simp only [machine, step, htask]
    rw [HyperionEngine.finish] at h
    split at h
    · next pc' e₁ hexec =>
      have hlt : k < tasks.length := (List.getElem?_eq_some_iff.mp htask).1
      obtain ⟨m, trace, hrest⟩ := ih h (tasks.set k ⟨request, pc'⟩)
        (List.getElem?_set_self hlt)
      rw [hexec] at hstep
      refine ⟨m + 1, ?_⟩
      rw [List.replicate_succ, Machine.exec, hstep]
      simp only [settle, Option.bind_eq_bind, Option.bind_some]
      rw [hrest]
      simp only [Option.bind_some, Option.pure_def, List.set_set]
      exact ⟨_, rfl⟩
    · cases h
    · next o' e₁ hexec =>
      obtain ⟨rfl, rfl⟩ := Prod.mk.inj (Option.some.inj h)
      refine ⟨1, ?_⟩
      rw [List.replicate_one, Machine.exec, hstep, hexec]
      exact ⟨_, rfl⟩

end Loop

end PythonPortfolio.Hyperion
