import PythonPortfolio.Library.PyStr
import PythonPortfolio.Hyperion.Wal

/-!
# The Hyperion storage engine

`HyperionEngine.write` logs the value, then stores it in the shard its key hashes
to. The number of shards is part of the type, so a shard index is always valid.
`crc32` is a parameter, used for the checksum of the payload and for the routing;
what the operating system answers during a call (two readings of the clock and
the outcome of the file operations of a rotation) is an input of the call. This
module has the calls run to their end; suspension is the subject of `Coroutines`.
-/

namespace PythonPortfolio.Hyperion

open Library Library.BigEndian

inductive EngineError where
  | wal (e : WalError)
  | unicodeEncodeError
deriving DecidableEq

structure Shard where
  data : Dict PyStr Bytes
  locked : Bool
  statsKeysCount : Nat

/-- The body of `put`, under the lock. -/
def Shard.store (s : Shard) (key : PyStr) (value : Bytes) : Shard :=
  { s with
    statsKeysCount := if s.data.contains key then s.statsKeysCount else s.statsKeysCount + 1
    data := s.data.set key value }

/-- What the operating system answers during one write. -/
structure Environment where
  timestamp : UInt64
  now : Int
  fault : Option OpenFault

structure Metrics where
  opsWrite : Nat
  opsRead : Nat
  bytesWritten : Nat

structure HyperionEngine (n : Nat) where
  shards : Fin n → Shard
  wal : WalManager
  sequenceId : Int
  metrics : Metrics

namespace HyperionEngine

variable {n : Nat} (crc32 : Bytes → UInt32)

/-- An engine around a manager that has just been opened. -/
def init (wal : WalManager) : HyperionEngine n :=
  ⟨fun _ => ⟨.empty, false, 0⟩, wal, 0, ⟨0, 0, 0⟩⟩

/-- `_get_shard`, as an index. -/
def route [NeZero n] (key : PyStr) : Option (Fin n) :=
  (PyStr.encodeUtf8 key).map fun bs => Fin.ofNat n (crc32 bs).toNat

/-- The part of `write` before the shard is looked up. -/
def logEntry (e : HyperionEngine n) (value : Bytes) (env : Environment) :
    Except WalError Nat × HyperionEngine n :=
  let e := { e with sequenceId := e.sequenceId + 1 }
  let entry : LogEntryMeta := ⟨env.timestamp, e.sequenceId, 0, (crc32 value).toNat⟩
  match e.wal.writeEntry entry value env.now env.fault with
  | (result, wal) => (result, { e with wal := wal })

def modifyShard (e : HyperionEngine n) (i : Fin n) (f : Shard → Shard) : HyperionEngine n :=
  { e with shards := fun j => if j = i then f (e.shards j) else e.shards j }

/-- The telemetry at the end of `write`. -/
def countWrite (e : HyperionEngine n) (value : Bytes) : HyperionEngine n :=
  { e with
    metrics := { e.metrics with
      opsWrite := e.metrics.opsWrite + 1
      bytesWritten := e.metrics.bytesWritten + value.length } }

def countRead (e : HyperionEngine n) : HyperionEngine n :=
  { e with metrics := { e.metrics with opsRead := e.metrics.opsRead + 1 } }

def write [NeZero n] (e : HyperionEngine n) (key : PyStr) (value : Bytes) (env : Environment) :
    Except EngineError Int × HyperionEngine n :=
  match e.logEntry crc32 value env with
  | (.error err, e) => (.error (.wal err), e)
  | (.ok _, e) =>
    match route crc32 key with
    | none => (.error .unicodeEncodeError, e)
    | some i =>
      let e := (e.modifyShard i (·.store key value)).countWrite value
      (.ok e.sequenceId, e)

def read [NeZero n] (e : HyperionEngine n) (key : PyStr) :
    Except EngineError (Option Bytes) × HyperionEngine n :=
  match route crc32 key with
  | none => (.error .unicodeEncodeError, e)
  | some i => (.ok ((e.shards i).data.get? key), e.countRead)

/-! ## Frame facts -/

/-- The metadata `write` logs next. -/
def nextEntry (e : HyperionEngine n) (value : Bytes) (env : Environment) : LogEntryMeta :=
  ⟨env.timestamp, e.sequenceId + 1, 0, (crc32 value).toNat⟩

theorem logEntry_eq (e : HyperionEngine n) (value : Bytes) (env : Environment) :
    (e.logEntry crc32 value env).1 =
        (e.wal.writeEntry (e.nextEntry crc32 value env) value env.now env.fault).1 ∧
      (e.logEntry crc32 value env).2.wal =
        (e.wal.writeEntry (e.nextEntry crc32 value env) value env.now env.fault).2 :=
  ⟨rfl, rfl⟩

@[simp] theorem logEntry_shards (e : HyperionEngine n) (value : Bytes) (env : Environment) :
    (e.logEntry crc32 value env).2.shards = e.shards := rfl

@[simp] theorem logEntry_sequenceId (e : HyperionEngine n) (value : Bytes) (env : Environment) :
    (e.logEntry crc32 value env).2.sequenceId = e.sequenceId + 1 := rfl

@[simp] theorem modifyShard_wal (e : HyperionEngine n) (i : Fin n) (f : Shard → Shard) :
    (e.modifyShard i f).wal = e.wal := rfl

@[simp] theorem modifyShard_sequenceId (e : HyperionEngine n) (i : Fin n) (f : Shard → Shard) :
    (e.modifyShard i f).sequenceId = e.sequenceId := rfl

@[simp] theorem modifyShard_self (e : HyperionEngine n) (i : Fin n) (f : Shard → Shard) :
    (e.modifyShard i f).shards i = f (e.shards i) := by
  simp [modifyShard]

theorem modifyShard_of_ne (e : HyperionEngine n) {i j : Fin n} (h : j ≠ i) (f : Shard → Shard) :
    (e.modifyShard i f).shards j = e.shards j := by
  simp [modifyShard, h]

@[simp] theorem countWrite_shards (e : HyperionEngine n) (value : Bytes) :
    (e.countWrite value).shards = e.shards := rfl

@[simp] theorem countWrite_wal (e : HyperionEngine n) (value : Bytes) :
    (e.countWrite value).wal = e.wal := rfl

@[simp] theorem countWrite_sequenceId (e : HyperionEngine n) (value : Bytes) :
    (e.countWrite value).sequenceId = e.sequenceId := rfl

@[simp] theorem countRead_shards (e : HyperionEngine n) : e.countRead.shards = e.shards := rfl

@[simp] theorem countRead_sequenceId (e : HyperionEngine n) :
    e.countRead.sequenceId = e.sequenceId := rfl

variable [NeZero n]

/-- The log and the sequence number after a write do not depend on its key. -/
theorem write_log (e : HyperionEngine n) (key : PyStr) (value : Bytes) (env : Environment) :
    (e.write crc32 key value env).2.wal = (e.logEntry crc32 value env).2.wal ∧
      (e.write crc32 key value env).2.sequenceId = e.sequenceId + 1 := by
  have hseq := logEntry_sequenceId crc32 e value env
  unfold write
  generalize e.logEntry crc32 value env = r at hseq
  obtain ⟨result, e'⟩ := r
  cases result with
  | error err => exact ⟨rfl, hseq⟩
  | ok offset =>
    dsimp only
    cases route (n := n) crc32 key with
    | none => exact ⟨rfl, hseq⟩
    | some i => exact ⟨rfl, hseq⟩

/-- What a read finds depends on the shards only. -/
def lookup (e : HyperionEngine n) (key : PyStr) : Option Bytes :=
  match route (n := n) crc32 key with
  | none => none
  | some i => (e.shards i).data.get? key

theorem read_eq_ok {key : PyStr} {i : Fin n} (hr : route crc32 key = some i)
    (e : HyperionEngine n) : (e.read crc32 key).1 = .ok (e.lookup crc32 key) := by
  simp only [read, lookup, hr]

theorem read_of_unencodable {key : PyStr} (hr : route (n := n) crc32 key = none)
    (e : HyperionEngine n) : (e.read crc32 key).1 = .error .unicodeEncodeError := by
  simp only [read, hr]

/-- A logged write of an encodable key is what the key then holds, and no other
key is affected. -/
theorem lookup_write {e : HyperionEngine n} {key : PyStr} {value : Bytes} {env : Environment}
    {offset : Nat} (hlog : (e.logEntry crc32 value env).1 = .ok offset) {i : Fin n}
    (hr : route crc32 key = some i) (k : PyStr) :
    (e.write crc32 key value env).2.lookup crc32 k =
      if k = key then some value else e.lookup crc32 k := by
  have hshards := logEntry_shards crc32 e value env
  unfold write
  generalize e.logEntry crc32 value env = r at hlog hshards
  obtain ⟨result, e'⟩ := r
  dsimp only at hlog hshards
  subst hlog
  simp only [hr]
  unfold lookup
  by_cases hk : k = key
  · subst hk
    simp [hr, Shard.store]
  · rw [if_neg hk]
    cases hroute : route (n := n) crc32 k with
    | none => rfl
    | some j =>
      by_cases hj : j = i
      · subst hj
        simp [Shard.store, hk, hshards]
      · simp [modifyShard_of_ne e' hj, hshards]

/-- A logged write of an encodable key returns the number it drew. -/
theorem write_eq_ok {e : HyperionEngine n} {key : PyStr} {value : Bytes} {env : Environment}
    {offset : Nat} (hlog : (e.logEntry crc32 value env).1 = .ok offset) {i : Fin n}
    (hr : route crc32 key = some i) :
    (e.write crc32 key value env).1 = .ok (e.sequenceId + 1) := by
  have hseq := logEntry_sequenceId crc32 e value env
  unfold write
  generalize e.logEntry crc32 value env = r at hlog hseq
  obtain ⟨result, e'⟩ := r
  dsimp only at hlog hseq
  subst hlog
  simp only [hr, countWrite_sequenceId, modifyShard_sequenceId, hseq]

/-- A write that is not logged, or whose key has no shard, stores nothing. -/
theorem lookup_write_failed {e : HyperionEngine n} {key : PyStr} {value : Bytes}
    {env : Environment} (h : (∃ err, (e.logEntry crc32 value env).1 = .error err) ∨
      route (n := n) crc32 key = none) (k : PyStr) :
    (e.write crc32 key value env).2.lookup crc32 k = e.lookup crc32 k := by
  have hshards := logEntry_shards crc32 e value env
  unfold write
  generalize e.logEntry crc32 value env = r at h hshards
  obtain ⟨result, e'⟩ := r
  dsimp only at h hshards
  have hsame : e'.lookup crc32 k = e.lookup crc32 k := by
    simp only [lookup, hshards]
  rcases h with ⟨err, rfl⟩ | hr
  · exact hsame
  · cases result with
    | error err => exact hsame
    | ok offset => simpa only [hr] using hsame

end HyperionEngine

end PythonPortfolio.Hyperion
