import PythonPortfolio.Hyperion.Recovery
import PythonPortfolio.Hyperion.Coroutines

/-!
# Log order and memory order

A coroutine holds a lock only between two statements without an `await`, so no
lock is held when the loop picks the next coroutine, no coroutine ever waits, and
a write runs from its log append to its return without another write in between.
Hence the shared counter it returns is still the number of its own record, and
values reach memory in the order of their records.
-/

namespace PythonPortfolio.Hyperion

open Library Library.BigEndian

/-- `val` is the payload of the record with the highest number among the records
of `key`, if there is one. -/
def Highest (records : List LogRecord) (key : PyStr) (val : Option Bytes) : Prop :=
  (val = none ∧ ∀ r ∈ records, r.key ≠ key) ∨
  ∃ r ∈ records, r.key = key ∧ val = some r.value ∧
    ∀ r' ∈ records, r'.key = key → r'.seqId ≤ r.seqId

theorem Highest.append_self {records : List LogRecord} {r : LogRecord}
    (h : ∀ r' ∈ records, r'.seqId < r.seqId) :
    Highest (records ++ [r]) r.key (some r.value) := by
  refine Or.inr ⟨r, by simp, rfl, rfl, fun r' hr' _ => ?_⟩
  rcases List.mem_append.mp hr' with hr' | hr'
  · exact (h r' hr').le
  · rw [List.mem_singleton.mp hr']

theorem Highest.append_other {records : List LogRecord} {r : LogRecord} {key : PyStr}
    {val : Option Bytes} (h : Highest records key val) (hne : r.key ≠ key) :
    Highest (records ++ [r]) key val := by
  rcases h with ⟨rfl, hnone⟩ | ⟨best, hmem, hkey, hval, hmax⟩
  · refine Or.inl ⟨rfl, fun r' hr' => ?_⟩
    rcases List.mem_append.mp hr' with hr' | hr'
    · exact hnone r' hr'
    · rwa [List.mem_singleton.mp hr']
  · refine Or.inr ⟨best, List.mem_append_left _ hmem, hkey, hval, fun r' hr' hk => ?_⟩
    rcases List.mem_append.mp hr' with hr' | hr'
    · exact hmax r' hr' hk
    · rw [List.mem_singleton.mp hr'] at hk
      exact absurd hk hne

/-- The lock a coroutine holds before a statement. -/
def Pc.held {n : Nat} : Pc n → Option (Fin n)
  | .putStore i _ | .putRelease i _ | .getLookup i | .getRelease i _ => some i
  | _ => none

section Invariant

variable {n : Nat} [NeZero n] (crc32 : Bytes → UInt32)

/-- The engine against the history: `recs` is the log, `apps` the part of it that
has reached memory. -/
structure Agrees (recs apps : List LogRecord) (e : HyperionEngine n) : Prop where
  sorted : recs.Pairwise fun r r' => r.seqId < r'.seqId
  bound : ∀ r ∈ recs, r.seqId ≤ e.sequenceId
  logged : ∀ r ∈ apps, r ∈ recs
  memory : ∀ key i, HyperionEngine.route crc32 key = some i →
    Highest apps key ((e.shards i).data.get? key)
  counts : ∀ i, (e.shards i).statsKeysCount = (e.shards i).data.size

/-- Exactly the given lock is held. -/
def Locks (e : HyperionEngine n) (held : Option (Fin n)) : Prop :=
  ∀ i, (e.shards i).locked = true ↔ held = some i

/-- Where the running coroutine `k` stands. From its log append on, a write is the
last one to have drawn a number. -/
inductive Placed (recs apps : List LogRecord) (e : HyperionEngine n) (k : Nat) :
    Request → Pc n → Prop
  | start (request : Request) : Placed recs apps e k request .start
  | putAcquire {key : PyStr} {value : Bytes} {i : Fin n}
      (hr : HyperionEngine.route crc32 key = some i) (hrec : ⟨k, e.sequenceId, key, value⟩ ∈ recs)
      (hnew : ∀ r ∈ apps, r.seqId < e.sequenceId) :
      Placed recs apps e k (.write key value) (.putAcquire i e.sequenceId)
  | putStore {key : PyStr} {value : Bytes} {i : Fin n}
      (hr : HyperionEngine.route crc32 key = some i) (hrec : ⟨k, e.sequenceId, key, value⟩ ∈ recs)
      (hnew : ∀ r ∈ apps, r.seqId < e.sequenceId) :
      Placed recs apps e k (.write key value) (.putStore i e.sequenceId)
  | putRelease {key : PyStr} {value : Bytes} {i : Fin n}
      (hrec : ⟨k, e.sequenceId, key, value⟩ ∈ recs) :
      Placed recs apps e k (.write key value) (.putRelease i e.sequenceId)
  | writeReturn {key : PyStr} {value : Bytes} (hrec : ⟨k, e.sequenceId, key, value⟩ ∈ recs) :
      Placed recs apps e k (.write key value) (.writeReturn e.sequenceId)
  | getAcquire {key : PyStr} {i : Fin n} (hr : HyperionEngine.route crc32 key = some i) :
      Placed recs apps e k (.read key) (.getAcquire i)
  | getLookup {key : PyStr} {i : Fin n} (hr : HyperionEngine.route crc32 key = some i) :
      Placed recs apps e k (.read key) (.getLookup i)
  | getRelease {key : PyStr} {i : Fin n} {val : Option Bytes} (hv : Highest apps key val) :
      Placed recs apps e k (.read key) (.getRelease i val)
  | readReturn {key : PyStr} {val : Option Bytes} (hv : Highest apps key val) :
      Placed recs apps e k (.read key) (.readReturn val)

/-- What a returning coroutine may say. -/
def Justified (recs apps : List LogRecord) (k : Nat) (request : Request) : Outcome → Prop
  | .seq seqId => ∃ key value, request = .write key value ∧ ⟨k, seqId, key, value⟩ ∈ recs
  | .value val => ∃ key, request = .read key ∧ Highest apps key val
  | .raised _ => True

/-- The control after a statement of `k`: it goes on well placed, or leaves with a
justified outcome and no lock; it does not wait. -/
def Controlled (recs apps : List LogRecord) (e : HyperionEngine n) (k : Nat) (request : Request) :
    Control n → Prop
  | .go pc => Placed crc32 recs apps e k request pc ∧ Locks e pc.held
  | .suspend => False
  | .done o => Justified recs apps k request o ∧ Locks e none

variable {crc32} {recs apps : List LogRecord} {e : HyperionEngine n} {k : Nat}

omit [NeZero n] in
theorem Locks.free (h : Locks e none) (i : Fin n) : ¬ (e.shards i).locked = true := by
  rw [h i]
  simp

omit [NeZero n] in
theorem Locks.lock (h : Locks e none) (i : Fin n) :
    Locks (e.modifyShard i Shard.lock) (some i) := by
  intro j
  by_cases hj : j = i
  · subst hj
    simp [Shard.lock]
  · rw [e.modifyShard_of_ne hj, h j]
    simp [Ne.symm hj]

omit [NeZero n] in
theorem Locks.unlock {i : Fin n} (h : Locks e (some i)) :
    Locks (e.modifyShard i Shard.unlock) none := by
  intro j
  by_cases hj : j = i
  · subst hj
    simp [Shard.unlock]
  · rw [e.modifyShard_of_ne hj, h j]
    simp [Ne.symm hj]

omit [NeZero n] in
theorem Locks.modify {held : Option (Fin n)} (h : Locks e held) {i : Fin n} {f : Shard → Shard}
    (hf : ∀ s, (f s).locked = s.locked) : Locks (e.modifyShard i f) held := by
  intro j
  by_cases hj : j = i
  · subst hj
    rw [e.modifyShard_self, hf]
    exact h j
  · rw [e.modifyShard_of_ne hj]
    exact h j

/-- Locking and unlocking leave the data alone. -/
theorem Agrees.modify (h : Agrees crc32 recs apps e) {i : Fin n} {f : Shard → Shard}
    (hf : ∀ s, (f s).data = s.data ∧ (f s).statsKeysCount = s.statsKeysCount) :
    Agrees crc32 recs apps (e.modifyShard i f) := by
  have hshards : ∀ j, ((e.modifyShard i f).shards j).data = (e.shards j).data ∧
      ((e.modifyShard i f).shards j).statsKeysCount = (e.shards j).statsKeysCount := by
    intro j
    by_cases hj : j = i
    · subst hj
      rw [e.modifyShard_self]
      exact hf _
    · rw [e.modifyShard_of_ne hj]
      exact ⟨rfl, rfl⟩
  refine ⟨h.sorted, h.bound, h.logged, fun key j hr => ?_, fun j => ?_⟩
  · rw [(hshards j).1]
    exact h.memory key j hr
  · rw [(hshards j).1, (hshards j).2]
    exact h.counts j

/-- A logged entry takes the next number. -/
theorem Agrees.log (h : Agrees crc32 recs apps e) (k : Nat) (key : PyStr) (value : Bytes)
    (env : Environment) :
    Agrees crc32 (recs ++ [⟨k, e.sequenceId + 1, key, value⟩]) apps
      (e.logEntry crc32 value env).2 where
  sorted := by
    refine List.pairwise_append.mpr ⟨h.sorted, List.pairwise_singleton _ _, fun r hr r' hr' => ?_⟩
    have := h.bound r hr
    rw [List.mem_singleton.mp hr']
    show r.seqId < e.sequenceId + 1
    omega
  bound r hr := by
    rw [HyperionEngine.logEntry_sequenceId]
    rcases List.mem_append.mp hr with hr | hr
    · have := h.bound r hr
      omega
    · rw [List.mem_singleton.mp hr]
  logged r hr := List.mem_append_left _ (h.logged r hr)
  memory := h.memory
  counts := h.counts

/-- An entry that is not logged uses up a number all the same. -/
theorem Agrees.skip (h : Agrees crc32 recs apps e) (value : Bytes) (env : Environment) :
    Agrees crc32 recs apps (e.logEntry crc32 value env).2 where
  sorted := h.sorted
  bound r hr := by
    have := h.bound r hr
    rw [HyperionEngine.logEntry_sequenceId]
    omega
  logged := h.logged
  memory := h.memory
  counts := h.counts

/-- Storing the newest record brings memory up to date. -/
theorem Agrees.store (h : Agrees crc32 recs apps e) {key : PyStr} {value : Bytes} {i : Fin n}
    (hr : HyperionEngine.route crc32 key = some i) (hrec : ⟨k, e.sequenceId, key, value⟩ ∈ recs)
    (hnew : ∀ r ∈ apps, r.seqId < e.sequenceId) :
    Agrees crc32 recs (apps ++ [⟨k, e.sequenceId, key, value⟩])
      (e.modifyShard i (·.store key value)) where
  sorted := h.sorted
  bound := h.bound
  logged r hmem := by
    rcases List.mem_append.mp hmem with hmem | hmem
    · exact h.logged r hmem
    · rwa [List.mem_singleton.mp hmem]
  memory key' j hr' := by
    by_cases hkey : key' = key
    · subst hkey
      obtain rfl : i = j := Option.some.inj (hr.symm.trans hr')
      rw [e.modifyShard_self, Shard.store, Dict.get?_set, if_pos rfl]
      exact Highest.append_self (r := ⟨k, e.sequenceId, key', value⟩) hnew
    · refine Highest.append_other ?_ (Ne.symm hkey)
      by_cases hj : j = i
      · subst hj
        rw [e.modifyShard_self, Shard.store, Dict.get?_set, if_neg hkey]
        exact h.memory key' j hr'
      · rw [e.modifyShard_of_ne hj]
        exact h.memory key' j hr'
  counts j := by
    by_cases hj : j = i
    · subst hj
      rw [e.modifyShard_self, Shard.store]
      dsimp only
      by_cases hc : (e.shards j).data.contains key
      · rw [if_pos hc, Dict.size_set_of_mem (Dict.contains_eq_true.mp hc)]
        exact h.counts j
      · rw [if_neg hc, Dict.size_set_of_not_mem fun hm => hc (Dict.contains_eq_true.mpr hm),
          h.counts j]
    · rw [e.modifyShard_of_ne hj]
      exact h.counts j

/-- The first statement of a write. -/
theorem exec_write_start (h : Agrees crc32 recs apps e) (hl : Locks e none) (key : PyStr)
    (value : Bytes) (env : Environment) :
    Agrees crc32 (recs ++ (e.recordOf crc32 env k (.write key value) .start).toList) apps
        (e.exec crc32 env (.write key value) .start).2 ∧
      Controlled crc32 (recs ++ (e.recordOf crc32 env k (.write key value) .start).toList) apps
        (e.exec crc32 env (.write key value) .start).2 k (.write key value)
        (e.exec crc32 env (.write key value) .start).1 := by
  have hskip := h.skip value env
  have hlog := h.log k key value env
  have hseq := HyperionEngine.logEntry_sequenceId crc32 e value env
  have hlocks : Locks (e.logEntry crc32 value env).2 none := hl
  simp only [HyperionEngine.exec, HyperionEngine.recordOf, HyperionEngine.nextEntry]
  generalize e.logEntry crc32 value env = r at hskip hlog hseq hlocks ⊢
  obtain ⟨result, e'⟩ := r
  cases result with
  | error err =>
    simp only [Option.toList_none, List.append_nil]
    exact ⟨hskip, trivial, hlocks⟩
  | ok offset =>
    dsimp only at hlog hseq hlocks ⊢
    rw [Option.toList_some]
    cases hr : HyperionEngine.route (n := n) crc32 key with
    | none => exact ⟨hlog, trivial, hlocks⟩
    | some i =>
      refine ⟨hlog, .putAcquire hr ?_ fun r hmem => ?_, hlocks⟩
      · rw [hseq]
        simp
      · have := h.bound r (h.logged r hmem)
        show r.seqId < e'.sequenceId
        omega

/-- No coroutine is placed behind its return. -/
theorem Placed.not_returned {request : Request} {o : Outcome} :
    ¬ Placed crc32 recs apps e k request (.returned o) := by
  intro h
  cases h

/-- A statement that neither logs nor stores leaves the history as it is. -/
theorem exec_quiet {request : Request} {pc : Pc n} {env : Environment}
    (hrec : e.recordOf crc32 env k request pc = none) (happ : pc.applies k request = none)
    (hagrees : Agrees crc32 recs apps (e.exec crc32 env request pc).2)
    (hcontrol : Controlled crc32 recs apps (e.exec crc32 env request pc).2 k request
      (e.exec crc32 env request pc).1) :
    Agrees crc32 (recs ++ (e.recordOf crc32 env k request pc).toList)
        (apps ++ (pc.applies k request).toList) (e.exec crc32 env request pc).2 ∧
      Controlled crc32 (recs ++ (e.recordOf crc32 env k request pc).toList)
        (apps ++ (pc.applies k request).toList) (e.exec crc32 env request pc).2 k request
        (e.exec crc32 env request pc).1 := by
  rw [hrec, happ, Option.toList_none, List.append_nil, List.append_nil]
  exact ⟨hagrees, hcontrol⟩

/-- Counting a request leaves shards and numbers alone. -/
theorem Agrees.count (h : Agrees crc32 recs apps e) (metrics : Metrics) :
    Agrees crc32 recs apps { e with metrics := metrics } :=
  ⟨h.sorted, h.bound, h.logged, h.memory, h.counts⟩

/-- One statement of the running coroutine. -/
theorem exec_ok (h : Agrees crc32 recs apps e) {request : Request} {pc : Pc n}
    (hp : Placed crc32 recs apps e k request pc) (hl : Locks e pc.held) (env : Environment) :
    Agrees crc32 (recs ++ (e.recordOf crc32 env k request pc).toList)
        (apps ++ (pc.applies k request).toList) (e.exec crc32 env request pc).2 ∧
      Controlled crc32 (recs ++ (e.recordOf crc32 env k request pc).toList)
        (apps ++ (pc.applies k request).toList) (e.exec crc32 env request pc).2 k request
        (e.exec crc32 env request pc).1 := by
  have hlockData : ∀ s : Shard, s.lock.data = s.data ∧ s.lock.statsKeysCount = s.statsKeysCount :=
    fun _ => ⟨rfl, rfl⟩
  have hunlockData : ∀ s : Shard,
      s.unlock.data = s.data ∧ s.unlock.statsKeysCount = s.statsKeysCount := fun _ => ⟨rfl, rfl⟩
  cases hp with
  | start =>
    cases request with
    | write key value =>
      simpa only [Pc.applies, Option.toList_none, List.append_nil] using
        exec_write_start h hl key value env
    | read key =>
      cases hr : HyperionEngine.route (n := n) crc32 key with
      | none =>
        refine exec_quiet rfl rfl ?_ ?_ <;> simp only [HyperionEngine.exec, hr]
        · exact h
        · exact ⟨trivial, hl⟩
      | some i =>
        refine exec_quiet rfl rfl ?_ ?_ <;> simp only [HyperionEngine.exec, hr]
        · exact h
        · exact ⟨.getAcquire hr, hl⟩
  | @putAcquire key value i hr hrec hnew =>
    refine exec_quiet rfl rfl ?_ ?_ <;> rw [HyperionEngine.exec, if_neg (Locks.free hl i)]
    · exact h.modify hlockData
    · exact ⟨.putStore hr hrec hnew, hl.lock i⟩
  | @putStore key value i hr hrec hnew =>
    -- the one statement that stores
    simp only [HyperionEngine.exec, HyperionEngine.recordOf, Pc.applies, Option.toList_none,
      List.append_nil, Option.toList_some]
    exact ⟨h.store hr hrec hnew, .putRelease hrec, hl.modify fun _ => rfl⟩
  | putRelease hrec =>
    exact exec_quiet rfl rfl (h.modify hunlockData) ⟨.writeReturn hrec, hl.unlock⟩
  | writeReturn hrec =>
    exact exec_quiet rfl rfl (h.count _) ⟨⟨_, _, rfl, hrec⟩, hl⟩
  | @getAcquire key i hr =>
    refine exec_quiet rfl rfl ?_ ?_ <;> rw [HyperionEngine.exec, if_neg (Locks.free hl i)]
    · exact h.modify hlockData
    · exact ⟨.getLookup hr, hl.lock i⟩
  | getLookup hr =>
    exact exec_quiet rfl rfl h ⟨.getRelease (h.memory _ _ hr), hl⟩
  | getRelease hv =>
    exact exec_quiet rfl rfl (h.modify hunlockData) ⟨.readReturn hv, hl.unlock⟩
  | readReturn hv =>
    exact exec_quiet rfl rfl (h.count _) ⟨⟨_, rfl, hv⟩, hl⟩

variable (crc32) in
/-- The invariant of the loop: everything but the running coroutine is at rest. -/
structure Orderly (recs apps : List LogRecord) (s : Loop n) : Prop where
  agrees : Agrees crc32 recs apps s.engine
  idle : ∀ k task, s.tasks[k]? = some task → s.current ≠ some k →
    task.pc = .start ∨ ∃ o, task.pc = .returned o
  resting : s.current = none → Locks s.engine none
  running : ∀ k, s.current = some k → ∃ task, s.tasks[k]? = some task ∧
    Placed crc32 recs apps s.engine k task.request task.pc ∧ Locks s.engine task.pc.held

variable {s s' : Loop n}

/-- What a statement of the running coroutine does to the loop. -/
theorem orderly_settle (h : Orderly crc32 recs apps s) (hcur : s.current = some k) {task : Task n}
    (htask : s.tasks[k]? = some task) (env : Environment) :
    Orderly crc32 (recs ++ (s.engine.recordOf crc32 env k task.request task.pc).toList)
        (apps ++ (task.pc.applies k task.request).toList)
        (s.settle k task (s.engine.exec crc32 env task.request task.pc)) ∧
      ∀ o, (s.settle k task (s.engine.exec crc32 env task.request task.pc)).tasks[k]? =
          some ⟨task.request, .returned o⟩ →
        Justified (recs ++ (s.engine.recordOf crc32 env k task.request task.pc).toList)
          (apps ++ (task.pc.applies k task.request).toList) k task.request o := by
  obtain ⟨task', htask', hp, hl⟩ := h.running k hcur
  obtain rfl : task = task' := Option.some.inj (htask.symm.trans htask')
  obtain ⟨hagrees, hcontrol⟩ := exec_ok h.agrees hp hl env
  generalize s.engine.exec crc32 env task.request task.pc = r at hagrees hcontrol ⊢
  obtain ⟨control, e'⟩ := r
  have hlt : k < s.tasks.length := (List.getElem?_eq_some_iff.mp htask).1
  have hother : ∀ pc j task', (s.tasks.set k { task with pc := pc })[j]? = some task' → j ≠ k →
      task'.pc = .start ∨ ∃ o, task'.pc = .returned o := by
    intro pc j task' hj hne
    rw [List.getElem?_set_ne (Ne.symm hne)] at hj
    exact h.idle j task' hj fun he => hne (Option.some.inj (he.symm.trans hcur))
  cases control with
  | suspend => exact hcontrol.elim
  | go pc =>
    obtain ⟨hplaced, hlocks⟩ := hcontrol
    have hnow : (s.tasks.set k { task with pc := pc })[k]? = some { task with pc := pc } :=
      List.getElem?_set_self hlt
    refine ⟨⟨hagrees, fun j task' hj hne => ?_, nofun, fun j hj => ?_⟩, fun o ho => ?_⟩
    · exact hother pc j task' hj fun he => hne (congrArg some he.symm)
    · obtain rfl := Option.some.inj hj
      exact ⟨_, hnow, hplaced, hlocks⟩
    · have hret := Option.some.inj (hnow.symm.trans ho)
      rw [Task.mk.injEq] at hret
      rw [hret.2] at hplaced
      exact hplaced.not_returned.elim
  | done o =>
    obtain ⟨hjust, hlocks⟩ := hcontrol
    have hnow : (s.tasks.set k { task with pc := .returned o })[k]? =
        some { task with pc := .returned o } := List.getElem?_set_self hlt
    refine ⟨⟨hagrees, fun j task' hj _ => ?_, fun _ => hlocks, nofun⟩, fun o' ho => ?_⟩
    · by_cases hjk : j = k
      · subst hjk
        obtain rfl := Option.some.inj (hnow.symm.trans hj)
        exact Or.inr ⟨o, rfl⟩
      · exact hother _ j task' hj hjk
    · have hret := Option.some.inj (hnow.symm.trans ho)
      rw [Task.mk.injEq] at hret
      obtain rfl := Pc.returned.inj hret.2
      exact hjust

theorem orderly_spawn (h : Orderly crc32 recs apps s) (hcur : s.current = none)
    (request : Request) :
    Orderly crc32 recs apps { s with tasks := s.tasks ++ [⟨request, .start⟩] } where
  agrees := h.agrees
  idle k task hk _ := by
    rcases List.mem_append.mp (List.mem_of_getElem? hk) with hold | hnew
    · obtain ⟨j, hj⟩ := List.mem_iff_getElem?.mp hold
      exact h.idle j task hj (by rw [hcur]; simp)
    · rw [List.mem_singleton.mp hnew]
      exact Or.inl rfl
  resting := h.resting
  running k hk := by
    rw [hcur] at hk
    cases hk

/-- The loop resumes a coroutine only at its start: none is ever waiting. -/
theorem orderly_resume (h : Orderly crc32 recs apps s) (hcur : s.current = none) {task : Task n}
    (htask : s.tasks[k]? = some task) (hready : s.Ready task.pc = true) :
    Orderly crc32 recs apps { s with current := some k } where
  agrees := h.agrees
  idle j task' hj _ := h.idle j task' hj (by rw [hcur]; simp)
  resting := nofun
  running j hj := by
    obtain rfl := Option.some.inj hj
    refine ⟨task, htask, ?_⟩
    rcases h.idle k task htask (by rw [hcur]; simp) with hpc | ⟨o, hpc⟩
    · rw [hpc]
      exact ⟨.start _, h.resting hcur⟩
    · rw [hpc] at hready
      cases hready

variable (crc32) in
/-- The records appended in a history, in log order. -/
def records (trace : List (LoopStep n)) : List LogRecord := trace.filterMap (LoopStep.logged crc32)

/-- The records whose values have reached memory, in that order. -/
def stores (trace : List (LoopStep n)) : List LogRecord := trace.filterMap LoopStep.applied

/-- One transition of the loop. -/
theorem orderly_step {trace : List (LoopStep n)} {ev : LoopEvent}
    (h : Orderly crc32 (records crc32 trace) (stores trace) s)
    (hs : Loop.step crc32 s ev = some s') :
    Orderly crc32 (records crc32 (trace ++ [⟨s, ev, s'⟩])) (stores (trace ++ [⟨s, ev, s'⟩])) s' ∧
      ∀ k request o, LoopStep.Returns ⟨s, ev, s'⟩ k request o →
        Justified (records crc32 (trace ++ [⟨s, ev, s'⟩])) (stores (trace ++ [⟨s, ev, s'⟩])) k
          request o := by
  unfold records stores at *
  rw [filterMap_concat, filterMap_concat]
  cases ev with
  | spawn request =>
    obtain ⟨hcur, heq⟩ := Option.ite_none_right_eq_some.mp hs
    cases heq
    have hrest := orderly_spawn h hcur request
    simp only [LoopStep.logged, LoopStep.applied, LoopStep.running, LoopStep.Returns,
      Option.bind_none, Option.toList_none, List.append_nil]
    exact ⟨hrest, by rintro k request o ⟨⟨_, hrun⟩, _⟩; cases hrun⟩
  | resume k =>
    simp only [Loop.step] at hs
    split at hs
    · next task hcur htask =>
      obtain ⟨hready, heq⟩ := Option.ite_none_right_eq_some.mp hs
      cases heq
      have hrest := orderly_resume h hcur htask hready
      simp only [LoopStep.logged, LoopStep.applied, LoopStep.running, LoopStep.Returns,
        Option.bind_none, Option.toList_none, List.append_nil]
      exact ⟨hrest, by rintro k request o ⟨⟨_, hrun⟩, _⟩; cases hrun⟩
    · cases hs
  | run env =>
    simp only [Loop.step] at hs
    split at hs
    · cases hs
    · next k hcur =>
      split at hs
      · cases hs
      · next task htask =>
        cases hs
        obtain ⟨horderly, hreturns⟩ := orderly_settle h hcur htask env
        have hrun : LoopStep.running
            ⟨s, .run env, s.settle k task (s.engine.exec crc32 env task.request task.pc)⟩ =
              some (k, task) := by
          simp only [LoopStep.running, hcur, htask, Option.map_some]
        simp only [LoopStep.logged, LoopStep.applied, LoopStep.Returns, hrun, Option.bind_some]
        refine ⟨horderly, ?_⟩
        rintro k' request o ⟨⟨pc, hk⟩, hpost⟩
        obtain ⟨rfl, rfl⟩ := Prod.mk.inj (Option.some.inj hk)
        exact hreturns o hpost

variable {s₀ : Loop n} {trace : List (LoopStep n)}

theorem orderly_run (h : (Loop.machine crc32 n).Run s₀ trace s) :
    Orderly crc32 (records crc32 trace) (stores trace) s := by
  induction h with
  | init hstart =>
    obtain ⟨wal, rfl⟩ := hstart
    refine ⟨⟨List.Pairwise.nil, nofun, nofun, fun _ _ _ => Or.inl ⟨rfl, nofun⟩, fun _ => rfl⟩,
      nofun, fun _ i => ?_, nofun⟩
    simp [HyperionEngine.init]
  | next _ hs ih => exact (orderly_step ih hs).1

end Invariant

end PythonPortfolio.Hyperion
