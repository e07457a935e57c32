import PythonPortfolio.Hyperion.Connections

/-!
# What the engine reports

The report of `STATS` and the numbers that `SET` is confirmed with are counters of the
engine. Between the connections they are functions of the requests processed before.
-/

namespace PythonPortfolio.Hyperion

open Library Library.BigEndian

/-- The text of `get_metrics_report`. -/
def reportText (opsWrite opsRead bytesWritten : Nat) (sequenceId : Int) : String :=
  "--- Engine Stats ---\n" ++
    "Writes: " ++ toString opsWrite ++ "\n" ++
    "Reads:  " ++ toString opsRead ++ "\n" ++
    "Bytes:  " ++ megabytes bytesWritten ++ " MB\n" ++
    "SeqID:  " ++ toString sequenceId

namespace HyperionServer

variable {n : Nat} [NeZero n] {crc32 : Bytes → UInt32} {text : CommandError → Bytes}

/-! ## What a request adds -/

/-- A `SET` with a key and a value: it takes a number, whether or not it is confirmed. -/
def Exchange.Numbered (x : Exchange) : Prop :=
  x.command.msgType = 1 ∧ x.command.keyValue.isSome

instance (x : Exchange) : Decidable x.Numbered := inferInstanceAs (Decidable (_ ∧ _))

/-- A `GET` with a key. -/
def Exchange.Reads (x : Exchange) : Prop :=
  x.command.msgType = 2 ∧ (PyStr.decodeUtf8 x.command.payload).isSome

instance (x : Exchange) : Decidable x.Reads := inferInstanceAs (Decidable (_ ∧ _))

def writes (xs : List Exchange) : Nat := (xs.filterMap Exchange.stored).length

def reads (xs : List Exchange) : Nat := xs.countP fun x => x.Reads

def bytesWritten (xs : List Exchange) : Nat :=
  ((xs.filterMap Exchange.stored).map fun p => p.2.length).sum

def numbered (xs : List Exchange) : Nat := xs.countP fun x => x.Numbered

/-- The counters of the engine are those of the requests. -/
structure Counted (xs : List Exchange) (e : HyperionEngine n) : Prop where
  writes : e.metrics.opsWrite = writes xs
  reads : e.metrics.opsRead = reads xs
  bytes : e.metrics.bytesWritten = bytesWritten xs
  sequence : e.sequenceId = numbered xs

/-- What one request does to the counters. -/
inductive CountCase (e : HyperionEngine n) (x : Exchange) (e' : HyperionEngine n) : Prop
  | confirmed (p : PyStr × Bytes) (hstored : x.stored = some p) (hnumbered : x.Numbered)
      (hreads : ¬ x.Reads)
      (hresponse : x.response = ascii "OK_SET:" ++ ascii (toString (e.sequenceId + 1)))
      (hmetrics : e'.metrics =
        ⟨e.metrics.opsWrite + 1, e.metrics.opsRead, e.metrics.bytesWritten + p.2.length⟩)
      (hseq : e'.sequenceId = e.sequenceId + 1)
  | refused (hstored : x.stored = none) (hnumbered : x.Numbered) (hreads : ¬ x.Reads)
      (hmetrics : e'.metrics = e.metrics)
      (hseq : e'.sequenceId = e.sequenceId + 1)
  | read (hstored : x.stored = none) (hnumbered : ¬ x.Numbered) (hreads : x.Reads)
      (hmetrics : e'.metrics =
        ⟨e.metrics.opsWrite, e.metrics.opsRead + 1, e.metrics.bytesWritten⟩)
      (hseq : e'.sequenceId = e.sequenceId)
  | other (hstored : x.stored = none) (hnumbered : ¬ x.Numbered) (hreads : ¬ x.Reads)
      (hmetrics : e'.metrics = e.metrics) (hseq : e'.sequenceId = e.sequenceId)

theorem stored_of_ne {x : Exchange} (h : x.command.msgType ≠ 1) : x.stored = none :=
  if_neg fun hx => h hx.1

theorem stored_of_not_ok {x : Exchange} (h : ¬ ascii "OK_SET:" <+: x.response) :
    x.stored = none :=
  if_neg fun hx => h hx.2

theorem not_reads_of_set {x : Exchange} (h : x.command.msgType = 1) : ¬ x.Reads := fun hx => by
  have := h.symm.trans hx.1
  cases this

/-- A logged write is counted, one that is not logged only takes its number. -/
theorem write_counts (e : HyperionEngine n) {key : PyStr} {i : Fin n}
    (hr : HyperionEngine.route crc32 key = some i) (value : Bytes) (env : Environment) :
    (e.write crc32 key value env).2.sequenceId = e.sequenceId + 1 ∧
    (((e.write crc32 key value env).1 = .ok (e.sequenceId + 1) ∧
      (e.write crc32 key value env).2.metrics =
        ⟨e.metrics.opsWrite + 1, e.metrics.opsRead, e.metrics.bytesWritten + value.length⟩) ∨
    (∃ err, (e.write crc32 key value env).1 = .error err) ∧
      (e.write crc32 key value env).2.metrics = e.metrics) := by
  have hseq := HyperionEngine.logEntry_sequenceId crc32 e value env
  have hmetrics : (e.logEntry crc32 value env).2.metrics = e.metrics := rfl
  unfold HyperionEngine.write
  generalize e.logEntry crc32 value env = r at hseq hmetrics
  obtain ⟨result, e'⟩ := r
  dsimp only at hseq hmetrics
  cases result with
  | error err => exact ⟨hseq, Or.inr ⟨⟨_, rfl⟩, hmetrics⟩⟩
  | ok offset =>
    simp only [hr]
    refine ⟨hseq, Or.inl ⟨congrArg Except.ok hseq, ?_⟩⟩
    rw [← hmetrics]
    rfl

theorem set_case {e e' : HyperionEngine n} {x : Exchange} (htype : x.command.msgType = 1)
    (h : processSet crc32 text e x.command = (x.response, e')) : CountCase e x e' := by
  have hkeyValue : x.command.keyValue = (x.command.payload.idxOf? separator).bind fun sepIdx =>
      (PyStr.decodeUtf8 (x.command.payload.take sepIdx)).map fun key =>
        (key, x.command.payload.drop (sepIdx + 1)) := rfl
  unfold processSet at h
  cases hidx : x.command.payload.idxOf? separator with
  | none =>
    rw [hidx] at h hkeyValue
    obtain ⟨hresponse, rfl⟩ := Prod.mk.inj h
    have herr : (ascii "ERR_FORMAT").head? = some 0x45 := by decide
    refine .other (stored_of_not_ok ?_) (fun hx => ?_) (not_reads_of_set htype) rfl rfl
    · rw [← hresponse]
      exact not_ok_set_of_head herr
    · rw [Exchange.Numbered, hkeyValue] at hx
      exact absurd hx.2 (by simp)
  | some sepIdx =>
    rw [hidx, Option.bind_some] at hkeyValue
    rw [hidx] at h
    dsimp only at h
    cases hkey : PyStr.decodeUtf8 (x.command.payload.take sepIdx) with
    | none =>
      rw [hkey, Option.map_none] at hkeyValue
      rw [hkey] at h
      obtain ⟨hresponse, rfl⟩ := Prod.mk.inj h
      refine .other (stored_of_not_ok ?_) (fun hx => ?_) (not_reads_of_set htype) rfl rfl
      · rw [← hresponse]
        exact not_ok_set_of_head (List.head?_append_of_ne_nil _ (by decide))
      · rw [Exchange.Numbered, hkeyValue] at hx
        exact absurd hx.2 (by simp)
    | some key =>
      rw [hkey, Option.map_some] at hkeyValue
      rw [hkey] at h
      have hnumbered : x.Numbered := ⟨htype, by rw [hkeyValue]; rfl⟩
      obtain ⟨i, hi⟩ := route_of_decodeUtf8 (n := n) crc32 hkey
      have hcounts := write_counts e hi (x.command.payload.drop (sepIdx + 1)) x.command.env
      dsimp only at h
      generalize e.write crc32 key (x.command.payload.drop (sepIdx + 1)) x.command.env = w
        at h hcounts
      obtain ⟨result, e''⟩ := w
      obtain ⟨hseq, ⟨hresult, hmetrics⟩ | ⟨⟨err, hresult⟩, hmetrics⟩⟩ := hcounts
      · dsimp only at hresult hmetrics hseq
        subst hresult
        obtain ⟨hresponse, rfl⟩ := Prod.mk.inj h
        refine .confirmed (key, x.command.payload.drop (sepIdx + 1)) ?_ hnumbered
          (not_reads_of_set htype) hresponse.symm hmetrics hseq
        exact (if_pos ⟨htype, by rw [← hresponse]; exact List.prefix_append _ _⟩).trans hkeyValue
      · dsimp only at hresult hmetrics hseq
        subst hresult
        obtain ⟨hresponse, rfl⟩ := Prod.mk.inj h
        refine .refused (stored_of_not_ok ?_) hnumbered (not_reads_of_set htype) hmetrics hseq
        rw [← hresponse]
        exact not_ok_set_of_head (List.head?_append_of_ne_nil _ (by decide))

/-- Every `GET` with a key is counted, whatever it finds. -/
theorem get_case {e e' : HyperionEngine n} {x : Exchange} (htype : x.command.msgType = 2)
    (h : processGet crc32 e x.command = (x.response, e')) : CountCase e x e' := by
  have hne : x.command.msgType ≠ 1 := by
    rw [htype]
    decide
  unfold processGet at h
  cases hkey : PyStr.decodeUtf8 x.command.payload with
  | none =>
    rw [hkey] at h
    obtain ⟨-, rfl⟩ := Prod.mk.inj h
    refine .other (stored_of_ne hne) (fun hx => hne hx.1) (fun hx => ?_) rfl rfl
    rw [Exchange.Reads, hkey] at hx
    exact absurd hx.2 (by simp)
  | some key =>
    rw [hkey] at h
    dsimp only at h
    obtain ⟨i, hi⟩ := route_of_decodeUtf8 (n := n) crc32 hkey
    have hread : e.read crc32 key = (.ok ((e.shards i).data.get? key), e.countRead) := by
      rw [HyperionEngine.read, hi]
    rw [hread] at h
    have hafter : e' = e.countRead := by
      cases hvalue : (e.shards i).data.get? key with
      | none =>
        rw [hvalue] at h
        exact (Prod.mk.inj h).2.symm
      | some v =>
        rw [hvalue] at h
        exact (Prod.mk.inj h).2.symm
    subst hafter
    exact .read (stored_of_ne hne) (fun hx => hne hx.1) ⟨htype, by rw [hkey]; rfl⟩ rfl rfl

theorem count_case {e e' : HyperionEngine n} {x : Exchange}
    (h : processCommand crc32 text e x.command = (x.response, e')) : CountCase e x e' := by
  by_cases hset : x.command.msgType = 1
  · exact set_case hset (by simpa only [processCommand, hset] using h)
  by_cases hget : x.command.msgType = 2
  · exact get_case hget (by simpa only [processCommand, hget] using h)
  have hsame : e' = e := by
    unfold processCommand at h
    split at h
    · next hx => exact absurd hx hset
    · next hx => exact absurd hx hget
    · exact (Prod.mk.inj h).2.symm
    · exact (Prod.mk.inj h).2.symm
  subst hsame
  exact .other (stored_of_ne hset) (fun hx => hset hx.1) (fun hx => hget hx.1) rfl rfl

/-! ## Every history -/

section Concat

variable (xs : List Exchange) (x : Exchange)

theorem writes_concat : writes (xs ++ [x]) = writes xs + x.stored.toList.length := by
  rw [writes, filterMap_concat, List.length_append, writes]

theorem bytesWritten_concat : bytesWritten (xs ++ [x]) =
    bytesWritten xs + (x.stored.toList.map fun p => p.2.length).sum := by
  rw [bytesWritten, filterMap_concat, List.map_append, List.sum_append, bytesWritten]

theorem reads_concat : reads (xs ++ [x]) = reads xs + if x.Reads then 1 else 0 := by
  rw [reads, List.countP_append, List.countP_singleton, reads]
  simp

theorem numbered_concat : numbered (xs ++ [x]) = numbered xs + if x.Numbered then 1 else 0 := by
  rw [numbered, List.countP_append, List.countP_singleton, numbered]
  simp

end Concat

omit [NeZero n] in
theorem Counted.concat {xs : List Exchange} {e e' : HyperionEngine n} {x : Exchange}
    (h : Counted xs e) (hcase : CountCase e x e') : Counted (xs ++ [x]) e' := by
  cases hcase with
  | confirmed p hstored hnumbered hreads _ hmetrics hseq =>
    constructor
    · rw [writes_concat, hstored, hmetrics, ← h.writes]
      rfl
    · rw [reads_concat, if_neg hreads, hmetrics, ← h.reads]
      rfl
    · rw [bytesWritten_concat, hstored, hmetrics, ← h.bytes]
      simp
    · rw [numbered_concat, if_pos hnumbered, hseq, h.sequence]
      simp
  | refused hstored hnumbered hreads hmetrics hseq =>
    constructor
    · rw [writes_concat, hstored, hmetrics, h.writes]
      rfl
    · rw [reads_concat, if_neg hreads, hmetrics, h.reads]
      rfl
    · rw [bytesWritten_concat, hstored, hmetrics, h.bytes]
      rfl
    · rw [numbered_concat, if_pos hnumbered, hseq, h.sequence]
      simp
  | read hstored hnumbered hreads hmetrics hseq =>
    constructor
    · rw [writes_concat, hstored, hmetrics, ← h.writes]
      rfl
    · rw [reads_concat, if_pos hreads, hmetrics, ← h.reads]
    · rw [bytesWritten_concat, hstored, hmetrics, ← h.bytes]
      rfl
    · rw [numbered_concat, if_neg hnumbered, hseq, h.sequence]
      rfl
  | other hstored hnumbered hreads hmetrics hseq =>
    constructor
    · rw [writes_concat, hstored, hmetrics, h.writes]
      rfl
    · rw [reads_concat, if_neg hreads, hmetrics, h.reads]
      rfl
    · rw [bytesWritten_concat, hstored, hmetrics, h.bytes]
      rfl
    · rw [numbered_concat, if_neg hnumbered, hseq, h.sequence]
      rfl

theorem counted_run {s s₀ : HyperionServer n} {trace : List (ServerStep n)}
    (h : (machine n crc32 text).Run s₀ trace s) :
    Counted (trace.filterMap (exchange crc32 text)) s.engine := by
  induction h with
  | init h =>
    obtain ⟨wal, rfl⟩ := h
    exact ⟨rfl, rfl, rfl, rfl⟩
  | @next trace s s' e _ hs ih =>
    rw [filterMap_concat]
    rcases engine_step (step_case hs) with ⟨hnone, hengine⟩ | ⟨x, hsome, hprocess⟩
    · rw [hnone, Option.toList_none, List.append_nil, hengine]
      exact ih
    · rw [hsome]
      exact ih.concat (count_case hprocess)

section Answer

variable {xs : List Exchange} {e e' : HyperionEngine n} {x : Exchange}

omit [NeZero n] in
theorem Counted.report (h : Counted xs e) : e.metricsReport =
    reportText (HyperionServer.writes xs) (HyperionServer.reads xs) (bytesWritten xs)
      (numbered xs) := by
  have hreport : e.metricsReport = reportText e.metrics.opsWrite e.metrics.opsRead
    e.metrics.bytesWritten e.sequenceId := rfl
  rw [hreport, h.writes, h.reads, h.bytes, h.sequence]

theorem answer_stats (h : Counted xs e)
    (hprocess : processCommand crc32 text e x.command = (x.response, e'))
    (htype : x.command.msgType = 99) :
    x.response = ascii (reportText (writes xs) (reads xs) (bytesWritten xs) (numbered xs)) := by
  have hcommand : processCommand crc32 text e x.command = (ascii e.metricsReport, e) := by
    simp only [processCommand, htype]
  rw [← (Prod.mk.inj (hcommand.symm.trans hprocess)).1, h.report]

omit [NeZero n] in
theorem answer_stored (h : Counted xs e) (hcase : CountCase e x e') (hstored : x.stored.isSome) :
    x.response = ascii "OK_SET:" ++ ascii (toString ((numbered xs : Int) + 1)) := by
  have hnone : x.stored ≠ none := Option.isSome_iff_ne_none.mp hstored
  cases hcase with
  | confirmed p _ _ _ hresponse _ _ => rw [hresponse, h.sequence]
  | refused hno _ _ _ _ => exact absurd hno hnone
  | read hno _ _ _ _ => exact absurd hno hnone
  | other hno _ _ _ _ => exact absurd hno hnone

end Answer

/-- Whichever connections they come from: a `STATS` request is answered with the report on
the requests before it, and the number that a `SET` is confirmed with is its place among
the `SET` requests with a key and a value. -/
theorem statistics_tell {s s₀ : HyperionServer n} {trace : List (ServerStep n)}
    (h : (machine n crc32 text).Run s₀ trace s) :
    Throughout (fun before x =>
      (x.command.msgType = 99 → x.response = ascii (reportText (writes before) (reads before)
        (bytesWritten before) (numbered before))) ∧
      (x.stored.isSome → x.response =
        ascii "OK_SET:" ++ ascii (toString ((numbered before : Int) + 1))))
      (trace.filterMap (exchange crc32 text)) := by
  induction h with
  | init h => exact throughout_nil
  | @next trace s s' e hrun hs ih =>
    rw [filterMap_concat]
    rcases engine_step (step_case hs) with ⟨hnone, -⟩ | ⟨x, hsome, hprocess⟩
    · rw [hnone, Option.toList_none, List.append_nil]
      exact ih
    · rw [hsome]
      have hcounted := counted_run hrun
      exact throughout_concat.mpr ⟨ih, answer_stats hcounted hprocess,
        answer_stored hcounted (count_case hprocess)⟩

theorem statistics_tell_two : ∃ trace s, performed coldStart twoConnections = some (trace, s) ∧
    Throughout (fun before x =>
      (x.command.msgType = 99 → x.response = ascii (reportText (writes before) (reads before)
        (bytesWritten before) (numbered before))) ∧
      (x.stored.isSome → x.response =
        ascii "OK_SET:" ++ ascii (toString ((numbered before : Int) + 1))))
      (trace.filterMap (exchange (n := 1) (fun _ => 0) fun _ => [])) := by
  obtain ⟨trace, s, hexec, hrun⟩ := performed_run isSome_twoConnections
  exact ⟨trace, s, hexec, statistics_tell hrun⟩

end HyperionServer

end PythonPortfolio.Hyperion
