import PythonPortfolio.Library.Service
import PythonPortfolio.Hyperion.LogOrder

/-!
# Serial execution

Whatever the event loop interleaves, the engine is the one that serves the calls whole
and one after the other, in the order in which their coroutines began, and every
coroutine returns what its call returns there. A coroutine that began is never kept
waiting: it goes to its return without another one in between.
-/

namespace PythonPortfolio.Hyperion

open Library Library.BigEndian

/-- A call of `write` or `read` that coroutine `task` began, and the surroundings it met. -/
structure Call where
  task : Nat
  request : Request
  env : Environment

namespace HyperionEngine

variable {n : Nat} [NeZero n] (crc32 : Bytes → UInt32)

/-- The call as a whole. -/
def call (e : HyperionEngine n) (c : Call) : Outcome × HyperionEngine n :=
  match c.request with
  | .write key value =>
    (outcome .seq (e.write crc32 key value c.env).1, (e.write crc32 key value c.env).2)
  | .read key => (outcome .value (e.read crc32 key).1, (e.read crc32 key).2)

/-- The engine that serves one call at a time. -/
def serial (e : HyperionEngine n) : Service (HyperionEngine n) Call Outcome := ⟨e, call crc32⟩

/-- Between free locks the statements of a coroutine add up to its call. -/
theorem finish_call {e : HyperionEngine n} (hfree : Locks e none) (c : Call) :
    e.finish crc32 c.env c.request 5 .start = some (e.call crc32 c) := by
  have hopen : ∀ i, (e.shards i).locked = false :=
    fun i => Bool.eq_false_iff.mpr (hfree.free i)
  unfold call
  cases c.request with
  | write key value => exact finish_write crc32 hopen key value c.env
  | read key => exact finish_read crc32 hopen key c.env

/-- Only the first statement looks at the surroundings. -/
theorem exec_env {pc : Pc n} (hpc : pc ≠ .start) (e : HyperionEngine n) (env env' : Environment)
    (request : Request) : e.exec crc32 env request pc = e.exec crc32 env' request pc := by
  cases pc with
  | start => exact absurd rfl hpc
  | _ => cases request <;> rfl

theorem exec_go {e e' : HyperionEngine n} {env : Environment} {request : Request} {pc pc' : Pc n}
    (h : e.exec crc32 env request pc = (.go pc', e')) : pc' ≠ .start := by
  rintro rfl
  unfold exec at h
  split at h <;> (try split at h) <;> (try split at h) <;> cases h

theorem finish_env {pc : Pc n} (hpc : pc ≠ .start) (e : HyperionEngine n) (env env' : Environment)
    (request : Request) (fuel : Nat) :
    e.finish crc32 env request fuel pc = e.finish crc32 env' request fuel pc := by
  induction fuel generalizing e pc with
  | zero => rfl
  | succ fuel ih =>
    rw [finish, finish, exec_env crc32 hpc e env env' request]
    cases hexec : e.exec crc32 env' request pc with
    | mk control e' =>
      cases control with
      | go pc' => exact ih (exec_go crc32 hexec) e'
      | suspend => rfl
      | done o => rfl

/-- Behind its return a coroutine has nothing left to do. -/
theorem not_returned_of_finish {e : HyperionEngine n} {env : Environment} {request : Request}
    {fuel : Nat} {pc : Pc n} {r : Outcome × HyperionEngine n}
    (h : e.finish crc32 env request fuel pc = some r) (o : Outcome) : pc ≠ .returned o := by
  rintro rfl
  cases fuel with
  | zero => cases h
  | succ fuel => cases request <;> cases h

end HyperionEngine

/-- The call a coroutine begins in this transition. -/
def LoopStep.begins {n : Nat} (t : LoopStep n) : Option Call :=
  match t.event, t.running with
  | .run env, some (k, ⟨request, .start⟩) => some ⟨k, request, env⟩
  | _, _ => none

/-- The calls begun in a history, in that order. -/
def begun {n : Nat} (trace : List (LoopStep n)) : List Call := trace.filterMap LoopStep.begins

theorem begun_concat {n : Nat} (trace : List (LoopStep n)) (t : LoopStep n) :
    begun (trace ++ [t]) = begun trace ++ t.begins.toList := filterMap_concat _ _ _

/-- The coroutines that returned are those of the calls, each once and with its answer. -/
structure Accounted {n : Nat} (tasks : List (Task n)) (calls : List Call)
    (answers : List Outcome) : Prop where
  answered : List.Forall₂ (fun c o => tasks[c.task]? = some ⟨c.request, .returned o⟩) calls answers
  once : (calls.map Call.task).Nodup
  only : ∀ k request o, tasks[k]? = some ⟨request, .returned o⟩ → ∃ c ∈ calls, c.task = k

section Invariant

variable {n : Nat} [NeZero n] (crc32 : Bytes → UInt32) (e₀ : HyperionEngine n)

/-- The answers to the calls and the engine after them, served one after the other. -/
abbrev served (calls : List Call) : List Outcome × HyperionEngine n :=
  (HyperionEngine.serial crc32 e₀).session e₀ calls

/-- The loop against the serial engine. What the running coroutine has left to do leads
to where its call leads from the calls before it. -/
inductive Serving (calls : List Call) (s : Loop n) : Prop
  | resting (hengine : s.engine = (served crc32 e₀ calls).2)
      (hcalls : Accounted s.tasks calls (served crc32 e₀ calls).1)
      (hstart : ∀ k task, s.current = some k → s.tasks[k]? = some task → task.pc = .start)
  | amid {before : List Call} {c : Call} {pc : Pc n} {fuel : Nat} (heq : calls = before ++ [c])
      (hcur : s.current = some c.task) (htask : s.tasks[c.task]? = some ⟨c.request, pc⟩)
      (hpc : pc ≠ .start) (hcalls : Accounted s.tasks before (served crc32 e₀ before).1)
      (hleft : ∀ env, s.engine.finish crc32 env c.request fuel pc =
        some ((served crc32 e₀ before).2.call crc32 c))

section Account

variable {tasks : List (Task n)} {calls : List Call} {answers : List Outcome}

omit [NeZero n]

theorem ne_of_returned {j k : Nat} {request request' : Request} {pc : Pc n} {o : Outcome}
    (hj : tasks[j]? = some ⟨request', .returned o⟩) (hk : tasks[k]? = some ⟨request, pc⟩)
    (hpc : ∀ o, pc ≠ .returned o) : k ≠ j := by
  rintro rfl
  exact hpc o (Task.mk.inj (Option.some.inj (hk.symm.trans hj))).2

/-- Moving a coroutine that has not returned keeps the account of the others. -/
theorem Accounted.move (h : Accounted tasks calls answers) {k : Nat} {request : Request}
    {pc pc' : Pc n} (htask : tasks[k]? = some ⟨request, pc⟩) (hpc : ∀ o, pc ≠ .returned o)
    (hpc' : ∀ o, pc' ≠ .returned o) :
    Accounted (tasks.set k ⟨request, pc'⟩) calls answers where
  answered := by
    refine h.answered.imp fun c o hanswer => ?_
    rw [List.getElem?_set_ne (ne_of_returned hanswer htask hpc)]
    exact hanswer
  once := h.once
  only j request' o hj := by
    by_cases hjk : k = j
    · subst hjk
      rw [List.getElem?_set_self (List.getElem?_eq_some_iff.mp htask).1] at hj
      exact absurd (Task.mk.inj (Option.some.inj hj)).2 (hpc' o)
    · rw [List.getElem?_set_ne hjk] at hj
      exact h.only j request' o hj

/-- The coroutine of a further call returns. -/
theorem Accounted.finish (h : Accounted tasks calls answers) {c : Call} {pc : Pc n}
    (htask : tasks[c.task]? = some ⟨c.request, pc⟩) (hpc : ∀ o, pc ≠ .returned o) (o : Outcome) :
    Accounted (tasks.set c.task ⟨c.request, .returned o⟩) (calls ++ [c]) (answers ++ [o]) where
  answered := by
    refine List.rel_append (h.answered.imp fun c' o' hanswer => ?_) (.cons ?_ .nil)
    · rw [List.getElem?_set_ne (ne_of_returned hanswer htask hpc)]
      exact hanswer
    · exact List.getElem?_set_self (List.getElem?_eq_some_iff.mp htask).1
  once := by
    rw [List.map_append, List.nodup_append]
    refine ⟨h.once, List.nodup_singleton _, fun k hk j hj => ?_⟩
    obtain ⟨i, hlt, rfl⟩ := List.mem_iff_getElem.mp hk
    rw [List.length_map] at hlt
    rw [List.getElem_map, List.mem_singleton.mp hj]
    have hanswer := h.answered.get hlt (h.answered.length_eq ▸ hlt)
    exact (ne_of_returned hanswer htask hpc).symm
  only j request' o' hj := by
    by_cases hjk : c.task = j
    · exact ⟨c, mem_concat.mpr (Or.inr rfl), hjk⟩
    · rw [List.getElem?_set_ne hjk] at hj
      obtain ⟨c', hc', htask'⟩ := h.only j request' o' hj
      exact ⟨c', mem_concat.mpr (Or.inl hc'), htask'⟩

theorem Accounted.spawn (h : Accounted tasks calls answers) (request : Request) :
    Accounted (tasks ++ [⟨request, .start⟩]) calls answers where
  answered := h.answered.imp fun c o hanswer => by
    rw [List.getElem?_append_left (List.getElem?_eq_some_iff.mp hanswer).1]
    exact hanswer
  once := h.once
  only j request' o hj := by
    rcases lt_or_ge j tasks.length with hlt | hge
    · rw [List.getElem?_append_left hlt] at hj
      exact h.only j request' o hj
    · rw [List.getElem?_append_right hge] at hj
      have hnew := List.mem_singleton.mp (List.mem_of_getElem? hj)
      cases (Task.mk.inj hnew).2

end Account

variable {crc32 e₀} {s s' : Loop n}

theorem Serving.spawn {calls : List Call} (h : Serving crc32 e₀ calls s) (hcur : s.current = none)
    (request : Request) :
    Serving crc32 e₀ calls { s with tasks := s.tasks ++ [⟨request, .start⟩] } := by
  cases h with
  | resting hengine hcalls hstart =>
    refine .resting hengine (hcalls.spawn request) fun k task hk _ => ?_
    rw [hcur] at hk
    cases hk
  | amid heq hnow => exact absurd (hcur.symm.trans hnow) (by simp)

theorem Serving.resume {calls : List Call} (h : Serving crc32 e₀ calls s) (hcur : s.current = none)
    {k : Nat} (hstart : ∀ task, s.tasks[k]? = some task → task.pc = .start) :
    Serving crc32 e₀ calls { s with current := some k } := by
  cases h with
  | resting hengine hcalls _ =>
    refine .resting hengine hcalls fun j task hj htask => ?_
    obtain rfl := Option.some.inj hj
    exact hstart task htask
  | amid heq hnow => exact absurd (hcur.symm.trans hnow) (by simp)

/-- One more statement of the call that is being served. -/
theorem serving_settle {before : List Call} {c : Call} {pc : Pc n} {fuel : Nat} {env : Environment}
    (hcalls : Accounted s.tasks before (served crc32 e₀ before).1)
    (htask : s.tasks[c.task]? = some ⟨c.request, pc⟩)
    (hleft : s.engine.finish crc32 env c.request fuel pc =
      some ((served crc32 e₀ before).2.call crc32 c)) :
    Serving crc32 e₀ (before ++ [c])
      (s.settle c.task ⟨c.request, pc⟩ (s.engine.exec crc32 env c.request pc)) := by
  have hpc := HyperionEngine.not_returned_of_finish crc32 hleft
  have hlt : c.task < s.tasks.length := (List.getElem?_eq_some_iff.mp htask).1
  cases fuel with
  | zero => cases hleft
  | succ fuel =>
    rw [HyperionEngine.finish] at hleft
    cases hexec : s.engine.exec crc32 env c.request pc with
    | mk control e' =>
      rw [hexec] at hleft
      cases control with
      | suspend => cases hleft
      | go pc' =>
        have hne := HyperionEngine.exec_go crc32 hexec
        have hpc' := HyperionEngine.not_returned_of_finish crc32 hleft
        exact .amid rfl rfl (List.getElem?_set_self hlt) hne (hcalls.move htask hpc hpc')
          fun env' => (HyperionEngine.finish_env crc32 hne e' env' env c.request fuel).trans hleft
      | done o =>
        have hcall := Option.some.inj hleft
        have hserved := Service.session_concat (S := HyperionEngine.serial crc32 e₀) e₀ before c
        refine .resting ?_ ?_ ?_
        · rw [served, hserved]
          exact congrArg Prod.snd hcall
        · rw [served, hserved]
          have hanswer : o = ((served crc32 e₀ before).2.call crc32 c).1 :=
            congrArg Prod.fst hcall
          show Accounted _ _ (_ ++ [((served crc32 e₀ before).2.call crc32 c).1])
          rw [← hanswer]
          exact hcalls.finish htask hpc o
        · intro k task hcur
          cases hcur

/-- A statement of the running coroutine: the first begins a call, the others go on with it. -/
theorem Serving.statement {calls : List Call} (h : Serving crc32 e₀ calls s) {k : Nat}
    (hcur : s.current = some k) {task : Task n} (htask : s.tasks[k]? = some task)
    (hlocks : Locks s.engine task.pc.held) (env : Environment) (s' : Loop n) :
    Serving crc32 e₀ (calls ++ (LoopStep.begins ⟨s, .run env, s'⟩).toList)
      (s.settle k task (s.engine.exec crc32 env task.request task.pc)) := by
  have hrunning : LoopStep.running ⟨s, .run env, s'⟩ = some (k, task) := by
    simp only [LoopStep.running, hcur, htask, Option.map_some]
  obtain ⟨request, pc⟩ := task
  rw [LoopStep.begins, hrunning]
  cases h with
  | resting hengine hcalls hstart =>
    obtain rfl : pc = .start := hstart k _ hcur htask
    have hleft := HyperionEngine.finish_call crc32 hlocks ⟨k, request, env⟩
    exact serving_settle (c := ⟨k, request, env⟩) hcalls htask
      (hleft.trans (congrArg some (by rw [hengine])))
  | @amid before c pc' fuel heq hnow htask' hpc hcalls hleft =>
    obtain rfl : k = c.task := Option.some.inj (hcur.symm.trans hnow)
    obtain ⟨rfl, rfl⟩ := Task.mk.inj (Option.some.inj (htask.symm.trans htask'))
    dsimp only
    split
    · next hfirst => exact absurd (Task.mk.inj (Prod.mk.inj (Option.some.inj hfirst)).2).2 hpc
    · rw [Option.toList_none, List.append_nil, heq]
      exact serving_settle hcalls htask (hleft env)

variable {s₀ : Loop n} {trace : List (LoopStep n)}

/-- One transition of the loop. -/
theorem serving_step (h : (Loop.machine crc32 n).Run s₀ trace s)
    (hserving : Serving crc32 e₀ (begun trace) s) {ev : LoopEvent}
    (hs : Loop.step crc32 s ev = some s') :
    Serving crc32 e₀ (begun (trace ++ [⟨s, ev, s'⟩])) s' := by
  have horderly := orderly_run h
  rw [begun_concat]
  cases ev with
  | spawn request =>
    obtain ⟨hcur, heq⟩ := Option.ite_none_right_eq_some.mp hs
    cases heq
    rw [LoopStep.begins, Option.toList_none, List.append_nil]
    exact hserving.spawn hcur request
  | resume k =>
    simp only [Loop.step] at hs
    split at hs
    · next task hcur htask =>
      obtain ⟨hready, heq⟩ := Option.ite_none_right_eq_some.mp hs
      cases heq
      rw [LoopStep.begins, Option.toList_none, List.append_nil]
      refine hserving.resume hcur fun task' htask' => ?_
      obtain rfl := Option.some.inj (htask.symm.trans htask')
      rcases horderly.idle k task htask (by rw [hcur]; simp) with hstart | ⟨o, hreturned⟩
      · exact hstart
      · rw [hreturned] at hready
        cases hready
    · cases hs
  | run env =>
    simp only [Loop.step] at hs
    split at hs
    · cases hs
    · next k hcur =>
      obtain ⟨task, htask, _, hlocks⟩ := horderly.running k hcur
      rw [htask] at hs
      cases hs
      exact hserving.statement hcur htask hlocks env _

theorem serving_run (h : (Loop.machine crc32 n).Run s₀ trace s) :
    Serving crc32 s₀.engine (begun trace) s := by
  induction h with
  | init hstart =>
    obtain ⟨wal, rfl⟩ := hstart
    exact .resting rfl ⟨.nil, List.nodup_nil, nofun⟩ nofun
  | next h hs ih => exact serving_step h ih hs

/-- The engine is serializable. Between two coroutines it is the one that served the calls
whole, in the order in which they began, and each was answered as there; a coroutine that
was called has not begun or has returned. One that runs goes to its return when the loop
lets it. -/
theorem calls_serializable (h : (Loop.machine crc32 n).Run s₀ trace s) :
    (s.current = none →
      s.engine = (served crc32 s₀.engine (begun trace)).2 ∧
      Accounted s.tasks (begun trace) (served crc32 s₀.engine (begun trace)).1 ∧
      ∀ task ∈ s.tasks, task.pc = .start ∨ ∃ o, task.pc = .returned o) ∧
    ∀ k, s.current = some k → ∀ env, ∃ m rest s',
      (Loop.machine crc32 n).exec s (List.replicate m (.run env)) = some (rest, s') ∧
      s'.current = none ∧ ∃ request o, s'.tasks[k]? = some ⟨request, .returned o⟩ := by
  have horderly := orderly_run h
  have hserving := serving_run h
  constructor
  · intro hidle
    cases hserving with
    | resting hengine hcalls _ =>
      refine ⟨hengine, hcalls, fun task htask => ?_⟩
      obtain ⟨k, hk⟩ := List.mem_iff_getElem?.mp htask
      exact horderly.idle k task hk (by rw [hidle]; simp)
    | amid _ hnow => exact absurd (hidle.symm.trans hnow) (by simp)
  · intro k hcur env
    obtain ⟨task, htask, _, hlocks⟩ := horderly.running k hcur
    obtain ⟨request, pc⟩ := task
    have hleft : ∃ fuel r, s.engine.finish crc32 env request fuel pc = some r := by
      cases hserving with
      | resting _ _ hstart =>
        obtain rfl : pc = .start := hstart k _ hcur htask
        exact ⟨5, _, HyperionEngine.finish_call crc32 hlocks ⟨k, request, env⟩⟩
      | @amid before c pc' fuel _ hnow htask' _ _ hleft =>
        obtain rfl : k = c.task := Option.some.inj (hcur.symm.trans hnow)
        obtain ⟨rfl, rfl⟩ := Task.mk.inj (Option.some.inj (htask.symm.trans htask'))
        exact ⟨fuel, _, hleft env⟩
    obtain ⟨fuel, ⟨o, e⟩, hfinish⟩ := hleft
    have hs : s = ⟨s.engine, s.tasks, some k⟩ := by rw [← hcur]
    obtain ⟨m, rest, hexec⟩ := Loop.exec_of_finish hfinish k s.tasks htask
    rw [← hs] at hexec
    exact ⟨m, rest, _, hexec, rfl, request, o,
      List.getElem?_set_self (List.getElem?_eq_some_iff.mp htask).1⟩

/-- A read of a key is called, then a write of it, and the write is resumed first. -/
theorem calls_serializable_two :
    ∃ trace s, (Loop.machine (fun _ => 0) 1).Run ⟨.fresh 1 0, [], none⟩ trace s ∧
      s.tasks = [⟨.read [.scalar 'a'], .returned (.value (some [1]))⟩,
        ⟨.write [.scalar 'a'] [1], .returned (.seq 1)⟩] ∧
      begun trace = [⟨1, .write [.scalar 'a'] [1], ⟨0, 0, none⟩⟩,
        ⟨0, .read [.scalar 'a'], ⟨0, 0, none⟩⟩] ∧
      s.engine = (served (fun _ => 0) (.fresh 1 0) (begun trace)).2 := by
  have hexec : (Loop.machine (fun _ => 0) 1).exec ⟨.fresh 1 0, [], none⟩
      ([.spawn (.read [.scalar 'a']), .spawn (.write [.scalar 'a'] [1]), .resume 1] ++
        List.replicate 5 (.run ⟨0, 0, none⟩) ++
        .resume 0 :: List.replicate 5 (.run ⟨0, 0, none⟩)) =
      some (_, ⟨_, [⟨.read [.scalar 'a'], .returned (.value (some [1]))⟩,
        ⟨.write [.scalar 'a'] [1], .returned (.seq 1)⟩], none⟩) := rfl
  have hrun := Machine.exec_run (M := Loop.machine (fun _ => 0) 1) ⟨freshManager 0, rfl⟩ hexec
  exact ⟨_, _, hrun, rfl, rfl, ((calls_serializable hrun).1 rfl).1⟩

end Invariant

end PythonPortfolio.Hyperion
