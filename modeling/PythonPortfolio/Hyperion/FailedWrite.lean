import PythonPortfolio.Hyperion.Rotation

/-!
# Writes that raise

`write` draws its sequence number before anything can fail, and looks up the shard
only after the record is in the log. So every write that raises has moved the
counter, and one that raises over its key has also left a record of a value that
memory does not hold.
-/

namespace PythonPortfolio.Hyperion.HyperionEngine

open Library Library.BigEndian

variable {n : Nat} (crc32 : Bytes → UInt32)

/-- The counter, the shards, the metrics and the bytes of the log are as before. -/
structure NoTrace (e e' : HyperionEngine n) : Prop where
  sequenceId : e'.sequenceId = e.sequenceId
  shards : e'.shards = e.shards
  metrics : e'.metrics = e.metrics
  log : SameBytes e.wal.files e'.wal.files

/-- The inputs and states in which `write` does not raise. -/
structure Accepts (e : HyperionEngine n) (key : PyStr) (value : Bytes) (env : Environment) :
    Prop where
  encodable : PyStr.encodeUtf8 key ≠ none
  numbered : FitsSInt 8 (e.sequenceId + 1)
  fits : 32 + value.length ≤ segmentSize
  isOpen : e.wal.currentSegment.closed = false
  room : e.wal.currentSegment.writeCursor + (32 + value.length) ≤ segmentSize ∨ env.fault = none

theorem logEntry_ok_iff (e : HyperionEngine n) (value : Bytes) (env : Environment) :
    (∃ offset, (e.logEntry crc32 value env).1 = .ok offset) ↔
      FitsSInt 8 (e.sequenceId + 1) ∧ 32 + value.length ≤ segmentSize ∧
        e.wal.currentSegment.closed = false ∧
        (e.wal.currentSegment.writeCursor + (32 + value.length) ≤ segmentSize ∨
          env.fault = none) := by
  rw [(e.logEntry_eq crc32 value env).1]
  have hframe := frame_nextEntry_fits crc32 e value env
  cases hf : frame (e.nextEntry crc32 value env) value with
  | none =>
    refine iff_of_false (fun hx => ?_) fun hx => ?_
    · obtain ⟨offset, hok⟩ := hx
      simp only [WalManager.writeEntry, hf] at hok
      cases hok
    · obtain ⟨hfits, hlen, _⟩ := hx
      obtain ⟨packet, hsome⟩ := hframe.mpr ⟨hfits, by unfold segmentSize at hlen; omega⟩
      rw [hf] at hsome
      cases hsome
  | some packet =>
    have hfits := (hframe.mp ⟨packet, hf⟩).1
    rw [WalManager.writeEntry_ok_iff hf env.now env.fault, length_frame hf, and_iff_right hfits]

variable [NeZero n]

/-- A write raises when it is not logged or its key has no shard. -/
theorem write_error_iff (e : HyperionEngine n) (key : PyStr) (value : Bytes)
    (env : Environment) : (∃ err, (e.write crc32 key value env).1 = .error err) ↔
      (¬ ∃ offset, (e.logEntry crc32 value env).1 = .ok offset) ∨
        route (n := n) crc32 key = none := by
  unfold write
  generalize e.logEntry crc32 value env = r
  obtain ⟨result, e'⟩ := r
  cases result with
  | error err => exact iff_of_true ⟨_, rfl⟩ (Or.inl (by simp))
  | ok offset =>
    dsimp only
    cases hr : route (n := n) crc32 key with
    | none => exact iff_of_true ⟨_, rfl⟩ (Or.inr rfl)
    | some i => exact iff_of_false (by simp) (by simp)

/-- What every write that raises leaves: a higher counter, and the shards and metrics
as they were; the log is changed only under a key without a shard. -/
theorem write_failed {e : HyperionEngine n} {key : PyStr} {value : Bytes} {env : Environment}
    (h : ∃ err, (e.write crc32 key value env).1 = .error err) :
    (e.write crc32 key value env).2.sequenceId = e.sequenceId + 1 ∧
      (e.write crc32 key value env).2.shards = e.shards ∧
      (e.write crc32 key value env).2.metrics = e.metrics ∧
      (SameBytes e.wal.files (e.write crc32 key value env).2.wal.files ∨
        PyStr.encodeUtf8 key = none) := by
  have hcause := (write_error_iff crc32 e key value env).mp h
  obtain ⟨hwal, hseq⟩ := e.write_log crc32 key value env
  have hmemory : (e.write crc32 key value env).2.shards = e.shards ∧
      (e.write crc32 key value env).2.metrics = e.metrics := by
    have hlog : (e.logEntry crc32 value env).2.shards = e.shards ∧
        (e.logEntry crc32 value env).2.metrics = e.metrics := ⟨rfl, rfl⟩
    unfold write at h ⊢
    generalize e.logEntry crc32 value env = r at h hlog
    obtain ⟨result, e'⟩ := r
    cases result with
    | error err => exact hlog
    | ok offset =>
      dsimp only at h ⊢
      cases hr : route (n := n) crc32 key with
      | none => exact hlog
      | some i =>
        simp only [hr] at h
        obtain ⟨err, herr⟩ := h
        cases herr
  refine ⟨hseq, hmemory.1, hmemory.2, ?_⟩
  rcases hcause with hlog | hr
  · left
    rw [hwal, (e.logEntry_eq crc32 value env).2]
    rcases e.wal.writeEntry_bytes (e.nextEntry crc32 value env) value env.now env.fault with
      ⟨_, _, hsame⟩ | ⟨m₁, _, _, _, _, hok⟩
    · exact hsame
    · exact absurd ⟨_, (e.logEntry_eq crc32 value env).1.trans (congrArg Prod.fst hok)⟩ hlog
  · exact Or.inr (Option.map_eq_none_iff.mp hr)

theorem write_raises_iff (e : HyperionEngine n) (key : PyStr) (value : Bytes)
    (env : Environment) :
    (∃ err, (e.write crc32 key value env).1 = .error err) ↔ ¬ e.Accepts key value env := by
  rw [write_error_iff, logEntry_ok_iff, route, Option.map_eq_none_iff]
  constructor
  · intro hx hacc
    rcases hx with hlog | hkey
    · exact hlog ⟨hacc.numbered, hacc.fits, hacc.isOpen, hacc.room⟩
    · exact hacc.encodable hkey
  · intro hno
    by_cases hkey : PyStr.encodeUtf8 key = none
    · exact Or.inr hkey
    · exact Or.inl fun hx => hno ⟨hkey, hx.1, hx.2.1, hx.2.2.1, hx.2.2.2⟩

/-- A write meets the promise that a failure leaves no trace exactly when it does not
fail: each one that does has moved the counter. -/
theorem write_noTrace_iff (e : HyperionEngine n) (key : PyStr) (value : Bytes)
    (env : Environment) :
    (((∃ err, (e.write crc32 key value env).1 = .error err) →
        NoTrace e (e.write crc32 key value env).2) ↔ e.Accepts key value env) ∧
    ((∃ err, (e.write crc32 key value env).1 = .error err) →
      (e.write crc32 key value env).2.sequenceId = e.sequenceId + 1) := by
  refine ⟨⟨fun htrace => ?_, fun hacc herr => ?_⟩, fun herr => (write_failed crc32 herr).1⟩
  · by_contra hno
    have herr := (write_raises_iff crc32 e key value env).mpr hno
    have hsame := (htrace herr).sequenceId
    rw [(write_failed crc32 herr).1] at hsame
    omega
  · exact absurd hacc ((write_raises_iff crc32 e key value env).mp herr)

/-- A key that cannot be encoded: the write raises, and the next number is drawn. -/
theorem write_noTrace_iff_sample :
    (∃ err, ((fresh 1 0).write (fun _ => 0) [.surrogate 0] [1] ⟨0, 0, none⟩).1 = .error err) ∧
    ((fresh 1 0).write (fun _ => 0) [.surrogate 0] [1] ⟨0, 0, none⟩).2.sequenceId = 1 := by
  have herr := (write_error_iff (fun _ => 0) (fresh 1 0) [.surrogate 0] [1] ⟨0, 0, none⟩).mpr
    (Or.inr (by decide))
  exact ⟨herr, (write_noTrace_iff (fun _ => 0) (fresh 1 0) _ _ _).2 herr⟩

/-- A value under a key with a lone surrogate: the write raises, and the log has it. -/
theorem unencodable_key_logged :
    ∃ (e : HyperionEngine 1) (key : PyStr) (value : Bytes) (env : Environment),
      e = fresh 1 0 ∧ (e.write (fun _ => 0) key value env).1 = .error .unicodeEncodeError ∧
      ¬ NoTrace e (e.write (fun _ => 0) key value env).2 ∧ ¬ Marked e.wal.files ∧
      Marked (e.write (fun _ => 0) key value env).2.wal.files := by
  have hkey : route (n := 1) (fun _ => 0) [.surrogate 0] = none := by decide
  obtain ⟨offset, hlog⟩ := (logEntry_ok_iff (fun _ => 0) (fresh 1 0) [1] ⟨0, 0, none⟩).mpr
    ⟨by decide, by decide, rfl, Or.inr rfl⟩
  have herr : ((fresh 1 0).write (fun _ => 0) [.surrogate 0] [1] ⟨0, 0, none⟩).1 =
      .error .unicodeEncodeError := by
    unfold write
    generalize (fresh 1 0).logEntry (fun _ => 0) [1] ⟨0, 0, none⟩ = r at hlog
    obtain ⟨result, e'⟩ := r
    dsimp only at hlog
    subst hlog
    simp only [hkey]
  refine ⟨fresh 1 0, [.surrogate 0], [1], ⟨0, 0, none⟩, rfl, herr, fun htrace => ?_,
    (blank_fresh 0).unmarked, (marked_write (fun _ => 0) _ _ _ _).mpr (Or.inr ⟨offset, hlog⟩)⟩
  have hsame := htrace.sequenceId
  rw [(write_failed (fun _ => 0) ⟨_, herr⟩).1] at hsame
  omega

end PythonPortfolio.Hyperion.HyperionEngine
