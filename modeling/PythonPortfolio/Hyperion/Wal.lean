import PythonPortfolio.Library.BigEndian
import PythonPortfolio.Library.Dict

/-!
# The Hyperion write-ahead log

A segment file is a function from offsets to bytes; `ftruncate` gives it the
length `segmentSize`, so every byte not yet written is zero. The mapping of an
open segment shares its pages with the file. Opening a segment may fail in
`os.open`, in `ftruncate` or in `mmap`; the fault, if any, is an input, and so is
the millisecond reading of the clock that names the new file.
-/

namespace PythonPortfolio.Hyperion

open Library Library.BigEndian

/-- `LogEntryMeta`; the timestamp is the bit pattern of its double. -/
structure LogEntryMeta where
  timestamp : UInt64
  seqId : Int
  partitionId : Int
  crc32 : Int
deriving DecidableEq

/-- `struct.Struct("!dqiI").pack`. -/
def LogEntryMeta.pack (m : LogEntryMeta) : Option Bytes := do
  let seqId ← packSInt 8 m.seqId
  let partitionId ← packSInt 4 m.partitionId
  let crc32 ← packUInt 4 m.crc32
  some (toBytes 8 m.timestamp.toNat ++ seqId ++ partitionId ++ crc32)

/-- The steps of `WalSegment._open` that reach the operating system. -/
inductive OpenFault where
  | osOpen
  | ftruncate
  | mmap
deriving DecidableEq

inductive WalError where
  | structError
  | segmentFull (message : String)
  | storageError (fault : OpenFault)
  | valueError (message : String)
deriving DecidableEq

/-- The bytes of a file; offsets past its end read as zero. -/
abbrev Content := Nat → UInt8

namespace Content

def zero : Content := fun _ => 0

def truncate (c : Content) (size : Nat) : Content := fun i => if i < size then c i else 0

/-- `mmap[offset : offset + len(packet)] = packet`. -/
def write (c : Content) (offset : Nat) (packet : Bytes) : Content := fun i =>
  if offset ≤ i ∧ i < offset + packet.length then packet.getD (i - offset) 0 else c i

def read (c : Content) (offset size : Nat) : Bytes := (List.range' offset size).map c

end Content

/-- The files of the data directory, by name. -/
abbrev Files := Dict String Content

def Files.content (files : Files) (name : String) : Content := (files.get? name).getD .zero

/-- `SEGMENT_SIZE`. -/
def segmentSize : Nat := 64 * 1024 * 1024

structure WalSegment where
  path : String
  writeCursor : Nat
  closed : Bool
deriving DecidableEq

structure WalManager where
  files : Files
  currentSegment : WalSegment
  segmentsHistory : List String

/-- `f"wal_{timestamp}.log"`. -/
def segmentName (timestamp : Int) : String := s!"wal_{timestamp}.log"

/-- What an access to a closed mapping raises. -/
def mmapClosed : WalError := .valueError "mmap closed or invalid"

namespace WalSegment

/-- `WalSegment(path, create=True)`. -/
def create (files : Files) (path : String) (fault : Option OpenFault) :
    Except WalError WalSegment × Files :=
  match fault with
  | some .osOpen => (.error (.storageError .osOpen), files)
  | some .ftruncate =>
    (.error (.storageError .ftruncate), files.set path (files.content path))
  | some .mmap =>
    (.error (.storageError .mmap), files.set path ((files.content path).truncate segmentSize))
  | none =>
    (.ok ⟨path, 0, false⟩, files.set path ((files.content path).truncate segmentSize))

def append (seg : WalSegment) (files : Files) (packet : Bytes) :
    Except WalError Nat × WalSegment × Files :=
  if seg.writeCursor + packet.length > segmentSize then
    (.error (.segmentFull s!"Segment {seg.path} pełny ({seg.writeCursor}/{segmentSize})"),
      seg, files)
  else if seg.closed then (.error mmapClosed, seg, files)
  else
    (.ok seg.writeCursor, { seg with writeCursor := seg.writeCursor + packet.length },
      files.set seg.path ((files.content seg.path).write seg.writeCursor packet))

def readAt (seg : WalSegment) (files : Files) (offset size : Nat) : Except WalError Bytes :=
  if offset + size > segmentSize then .error (.valueError "Read beyond segment boundary")
  else if seg.closed then .error mmapClosed
  else .ok ((files.content seg.path).read offset size)

/-- `sync`, which already fails in testing the truth of a closed mapping. -/
def sync (seg : WalSegment) : Except WalError Unit :=
  if seg.closed then .error mmapClosed else .ok ()

def close (seg : WalSegment) : WalSegment := { seg with closed := true }

end WalSegment

/-- The record `write_entry` appends. -/
def frame (entry : LogEntryMeta) (payload : Bytes) : Option Bytes := do
  let metaBytes ← entry.pack
  let metaLen ← packUInt 4 metaBytes.length
  let payloadLen ← packUInt 4 payload.length
  some (metaLen ++ payloadLen ++ metaBytes ++ payload)

namespace WalManager

/-- `WalManager(data_dir)` on the files the directory already holds. -/
def init (files : Files) (now : Int) (fault : Option OpenFault) :
    Except WalError WalManager × Files :=
  match WalSegment.create files (segmentName now) fault with
  | (.error e, files) => (.error e, files)
  | (.ok seg, files) => (.ok ⟨files, seg, [seg.path]⟩, files)

def rotateSegment (m : WalManager) (now : Int) (fault : Option OpenFault) :
    Except WalError Unit × WalManager :=
  match m.currentSegment.sync with
  | .error e => (.error e, m)
  | .ok () =>
    let m := { m with currentSegment := m.currentSegment.close }
    match WalSegment.create m.files (segmentName now) fault with
    | (.error e, files) => (.error e, { m with files := files })
    | (.ok seg, files) => (.ok (), ⟨files, seg, m.segmentsHistory ++ [seg.path]⟩)

/-- `self.current_segment.append(packet)`. -/
def append (m : WalManager) (packet : Bytes) : Except WalError Nat × WalManager :=
  match m.currentSegment.append m.files packet with
  | (result, seg, files) => (result, { m with files := files, currentSegment := seg })

def writeEntry (m : WalManager) (entry : LogEntryMeta) (payload : Bytes) (now : Int)
    (fault : Option OpenFault) : Except WalError Nat × WalManager :=
  match frame entry payload with
  | none => (.error .structError, m)
  | some packet =>
    match m.append packet with
    | (.error (.segmentFull _), m) =>
      match m.rotateSegment now fault with
      | (.error e, m) => (.error e, m)
      | (.ok (), m) => m.append packet
    | result => result

end WalManager

/-! ## Frames -/

theorem LogEntryMeta.pack_eq_some {m : LogEntryMeta} {bs : Bytes} :
    m.pack = some bs ↔ FitsSInt 8 m.seqId ∧ FitsSInt 4 m.partitionId ∧ FitsUInt 4 m.crc32 ∧
      bs = toBytes 8 m.timestamp.toNat ++ toBytes 8 (m.seqId % (256 ^ 8 : Nat)).toNat ++
        toBytes 4 (m.partitionId % (256 ^ 4 : Nat)).toNat ++ toBytes 4 m.crc32.toNat := by
  unfold LogEntryMeta.pack
  simp only [Option.bind_eq_bind, Option.bind_eq_some_iff, packSInt_eq_some, packUInt_eq_some,
    Option.some.injEq]
  constructor
  · intro hx
    obtain ⟨_, ⟨hs, rfl⟩, _, ⟨hp, rfl⟩, _, ⟨hc, rfl⟩, rfl⟩ := hx
    exact ⟨hs, hp, hc, rfl⟩
  · intro hx
    obtain ⟨hs, hp, hc, rfl⟩ := hx
    exact ⟨_, ⟨hs, rfl⟩, _, ⟨hp, rfl⟩, _, ⟨hc, rfl⟩, rfl⟩

theorem LogEntryMeta.length_pack {m : LogEntryMeta} {bs : Bytes} (h : m.pack = some bs) :
    bs.length = 24 := by
  obtain ⟨_, _, _, rfl⟩ := LogEntryMeta.pack_eq_some.mp h
  simp

/-- A frame exists exactly when the metadata packs and the payload length fits. -/
theorem frame_eq_some {entry : LogEntryMeta} {payload packet : Bytes} :
    frame entry payload = some packet ↔ ∃ metaBytes, entry.pack = some metaBytes ∧
      payload.length < 256 ^ 4 ∧
      packet = toBytes 4 24 ++ toBytes 4 payload.length ++ metaBytes ++ payload := by
  unfold frame
  simp only [Option.bind_eq_bind, Option.bind_eq_some_iff, packUInt_eq_some, Option.some.injEq,
    fitsUInt_natCast]
  constructor
  · intro hx
    obtain ⟨metaBytes, hm, _, ⟨_, rfl⟩, _, ⟨hp, rfl⟩, rfl⟩ := hx
    refine ⟨metaBytes, hm, hp, ?_⟩
    rw [LogEntryMeta.length_pack hm]
    rfl
  · intro hx
    obtain ⟨metaBytes, hm, hp, rfl⟩ := hx
    have hlen := LogEntryMeta.length_pack hm
    refine ⟨metaBytes, hm, _, ⟨?_, rfl⟩, _, ⟨hp, rfl⟩, ?_⟩
    · rw [hlen]
      decide
    · rw [hlen]
      rfl

theorem length_frame {entry : LogEntryMeta} {payload packet : Bytes}
    (h : frame entry payload = some packet) : packet.length = 32 + payload.length := by
  obtain ⟨metaBytes, hm, _, rfl⟩ := frame_eq_some.mp h
  have hlen := LogEntryMeta.length_pack hm
  simp only [List.length_append, length_toBytes]
  omega

end PythonPortfolio.Hyperion
