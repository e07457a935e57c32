import PythonPortfolio.Hyperion.AppendOnly
import PythonPortfolio.Hyperion.Engine

/-!
# What the log says about the store

A record holds the value and a checksum of the value, and no key. Runs that write
the same values under other keys leave the same segments, so a log determines the
store only if it is empty; and it is empty exactly when every segment file
consists of zeros, since each frame begins with the length of its metadata.
-/

namespace PythonPortfolio.Hyperion

open Library Library.BigEndian

/-- The bytes of every segment are the same. -/
def SameBytes (files files' : Files) : Prop :=
  ∀ name i, i < segmentSize → files.content name i = files'.content name i

/-- Some byte of the log is not zero. -/
def Marked (files : Files) : Prop := ∃ name i, i < segmentSize ∧ files.content name i ≠ 0

theorem Marked.of_sameBytes {files files' : Files} (h : Marked files)
    (hs : SameBytes files files') : Marked files' := by
  obtain ⟨name, i, hi, hne⟩ := h
  exact ⟨name, i, hi, hs name i hi ▸ hne⟩

theorem SameBytes.symm {files files' : Files} (h : SameBytes files files') :
    SameBytes files' files := fun name i hi => (h name i hi).symm

theorem sameBytes_set {files : Files} {name : String} {c : Content}
    (h : ∀ i, i < segmentSize → c i = files.content name i) :
    SameBytes files (files.set name c) := by
  intro name' i hi
  rw [Files.content_set]
  split
  · next hn => rw [hn, h i hi]
  · rfl

namespace WalManager

/-- Creating a segment, with or without a fault, changes no byte of a file. -/
theorem create_sameBytes (files : Files) (path : String) (fault : Option OpenFault) :
    SameBytes files (WalSegment.create files path fault).2 := by
  have htruncate : ∀ i, i < segmentSize →
      (files.content path).truncate segmentSize i = files.content path i :=
    fun i hi => if_pos hi
  cases fault with
  | none => exact sameBytes_set htruncate
  | some fault =>
    cases fault with
    | osOpen => exact fun _ _ _ => rfl
    | ftruncate => exact sameBytes_set fun _ _ => rfl
    | mmap => exact sameBytes_set htruncate

/-- A write that fails leaves the bytes of the log; one that succeeds appends its
frame to an open segment. -/
theorem writeEntry_bytes (m : WalManager) (entry : LogEntryMeta) (payload : Bytes) (now : Int)
    (fault : Option OpenFault) :
    (∃ err, (m.writeEntry entry payload now fault).1 = .error err ∧
      SameBytes m.files (m.writeEntry entry payload now fault).2.files) ∨
    ∃ (m₁ : WalManager) (packet : Bytes), frame entry payload = some packet ∧
      m₁.currentSegment.writeCursor + packet.length ≤ segmentSize ∧
      SameBytes m.files m₁.files ∧ m.writeEntry entry payload now fault =
        (.ok m₁.currentSegment.writeCursor, m₁.appended packet) := by
  have hrefl : SameBytes m.files m.files := fun _ _ _ => rfl
  have hopened : SameBytes m.files (opened m.files now m.segmentsHistory).files :=
    create_sameBytes m.files (segmentName now) none
  cases m.writeEntry_outcome entry payload now fault with
  | refused _ h | closed _ _ _ h =>
    rw [h]
    exact Or.inl ⟨_, rfl, hrefl⟩
  | stored packet hf _ hfit h => exact Or.inr ⟨m, packet, hf, hfit, hrefl, h⟩
  | stranded _ _ _ _ f _ h =>
    rw [h]
    exact Or.inl ⟨_, rfl, create_sameBytes m.files (segmentName now) (some f)⟩
  | rotated packet hf _ _ hsize _ h =>
    refine Or.inr ⟨_, packet, hf, ?_, hopened, h⟩
    show 0 + packet.length ≤ segmentSize
    omega
  | oversized _ _ _ _ _ _ message h =>
    rw [h]
    exact Or.inl ⟨_, rfl, hopened⟩

/-- A frame marks the segment it is written to. -/
theorem marked_appended {m : WalManager} {entry : LogEntryMeta} {payload packet : Bytes}
    (hf : frame entry payload = some packet)
    (hfit : m.currentSegment.writeCursor + packet.length ≤ segmentSize) :
    Marked (m.appended packet).files := by
  have hlen := length_frame hf
  refine ⟨m.currentSegment.path, m.currentSegment.writeCursor + 3, by omega, ?_⟩
  show Files.content (Dict.set _ _ _) _ _ ≠ 0
  rw [Files.content_set, if_pos rfl, Content.write, if_pos (by omega), Nat.add_sub_cancel_left]
  obtain ⟨metaBytes, _, _, rfl⟩ := frame_eq_some.mp hf
  show (24 : UInt8) ≠ 0
  decide

/-- A closed segment takes no write and is never replaced. -/
theorem writeEntry_closed {m : WalManager} (hc : m.currentSegment.closed = true)
    (entry : LogEntryMeta) (payload : Bytes) (now : Int) (fault : Option OpenFault) :
    ∃ err, m.writeEntry entry payload now fault = (.error err, m) := by
  cases m.writeEntry_outcome entry payload now fault with
  | refused _ h | closed _ _ _ h => exact ⟨_, h⟩
  | stored _ _ ho | stranded _ _ ho | rotated _ _ ho | oversized _ _ ho =>
    rw [hc] at ho
    cases ho

/-- A frame that no segment holds leaves an empty segment: a new one, or the old
one closed if the rotation fails. -/
theorem writeEntry_oversized {m : WalManager} (hopen : m.currentSegment.closed = false)
    (hcur : m.currentSegment.writeCursor = 0) {entry : LogEntryMeta} {payload packet : Bytes}
    (hf : frame entry payload = some packet) (hsize : segmentSize < packet.length) (now : Int)
    (fault : Option OpenFault) :
    (m.writeEntry entry payload now fault).2.currentSegment.writeCursor = 0 ∧
      (m.writeEntry entry payload now fault).2.currentSegment.closed = fault.isSome := by
  cases m.writeEntry_outcome entry payload now fault with
  | refused hnone =>
    rw [hf] at hnone
    cases hnone
  | closed _ _ hc =>
    rw [hopen] at hc
    cases hc
  | stored packet' hf' _ hfit =>
    obtain rfl := Option.some.inj (hf.symm.trans hf')
    omega
  | stranded _ _ _ _ f hfault h =>
    rw [h, hfault]
    exact ⟨hcur, rfl⟩
  | rotated packet' hf' _ _ hsize' =>
    obtain rfl := Option.some.inj (hf.symm.trans hf')
    omega
  | oversized _ _ _ _ _ hfault _ h =>
    rw [h, hfault]
    exact ⟨rfl, rfl⟩

end WalManager

/-! ## Runs of writes -/

structure WriteCall where
  key : PyStr
  value : Bytes
  env : Environment

/-- The calls under one key instead of their own. -/
def rekey (key : PyStr) (calls : List WriteCall) : List WriteCall :=
  calls.map fun c => { c with key := key }

/-- After `seq` writes without a record, none of the calls leaves a record: each
is too large for a segment or comes too late for a signed sequence number, unless
an earlier one has closed the segment in a rotation that failed. -/
def Unlogged : Nat → List WriteCall → Prop
  | _, [] => True
  | seq, c :: rest =>
    ¬ (seq + 1 < 2 ^ 63 ∧ 32 + c.value.length ≤ segmentSize) ∧
      ((seq + 1 < 2 ^ 63 ∧ c.value.length < 2 ^ 32 ∧ c.env.fault ≠ none) ∨
        Unlogged (seq + 1) rest)

namespace HyperionEngine

variable {n : Nat} [NeZero n] (crc32 : Bytes → UInt32)

def writes (e : HyperionEngine n) (calls : List WriteCall) : HyperionEngine n :=
  calls.foldl (fun e c => (e.write crc32 c.key c.value c.env).2) e

/-- An engine started on an empty directory at millisecond `now`. -/
def fresh (n : Nat) (now : Int) : HyperionEngine n := .init (freshManager now)

@[simp] theorem writes_nil (e : HyperionEngine n) : e.writes crc32 [] = e := rfl

theorem writes_concat (e : HyperionEngine n) (calls : List WriteCall) (c : WriteCall) :
    e.writes crc32 (calls ++ [c]) =
      ((e.writes crc32 calls).write crc32 c.key c.value c.env).2 := by
  rw [writes, List.foldl_append]
  rfl

theorem rekey_concat (key : PyStr) (calls : List WriteCall) (c : WriteCall) :
    rekey key (calls ++ [c]) = rekey key calls ++ [{ c with key := key }] := by
  rw [rekey, List.map_append]
  rfl

/-- The log is marked by a write that is logged, and by nothing else. -/
theorem marked_write (e : HyperionEngine n) (key : PyStr) (value : Bytes) (env : Environment) :
    Marked (e.write crc32 key value env).2.wal.files ↔
      Marked e.wal.files ∨ ∃ offset, (e.logEntry crc32 value env).1 = .ok offset := by
  obtain ⟨hresult, hwal⟩ := e.logEntry_eq crc32 value env
  rw [(e.write_log crc32 key value env).1, hwal, hresult]
  rcases e.wal.writeEntry_bytes (e.nextEntry crc32 value env) value env.now env.fault with
    ⟨err, herr, hsame⟩ | ⟨m₁, packet, hf, hfit, _, hok⟩
  · constructor
    · exact fun hm => Or.inl (hm.of_sameBytes hsame.symm)
    · intro hx
      rcases hx with hm | ⟨offset, hoff⟩
      · exact hm.of_sameBytes hsame
      · rw [herr] at hoff
        cases hoff
  · rw [hok]
    exact iff_of_true (WalManager.marked_appended hf hfit) (Or.inr ⟨_, rfl⟩)

theorem marked_writes {e : HyperionEngine n} (h : Marked e.wal.files) (calls : List WriteCall) :
    Marked (e.writes crc32 calls).wal.files := by
  induction calls generalizing e with
  | nil => exact h
  | cons c rest ih => exact ih ((marked_write crc32 e c.key c.value c.env).mpr (Or.inl h))

/-- An engine without a mark holds no value. -/
theorem lookup_of_not_marked {e : HyperionEngine n} (hempty : ∀ k, e.lookup crc32 k = none)
    {calls : List WriteCall} (h : ¬ Marked (e.writes crc32 calls).wal.files) (k : PyStr) :
    (e.writes crc32 calls).lookup crc32 k = none := by
  induction calls using List.reverseRecOn with
  | nil => exact hempty k
  | append_singleton calls c ih =>
    rw [writes_concat, marked_write, not_or] at h
    rw [writes_concat]
    cases hlog : ((e.writes crc32 calls).logEntry crc32 c.value c.env).1 with
    | ok offset => exact absurd ⟨offset, hlog⟩ h.2
    | error err =>
      rw [lookup_write_failed crc32 (Or.inl ⟨err, hlog⟩)]
      exact ih h.1

/-- If all writes go to one encodable key, a mark shows in that key and no other. -/
theorem lookup_rekey {key : PyStr} {i : Fin n} (hr : route crc32 key = some i)
    {e : HyperionEngine n} (hempty : ∀ k, e.lookup crc32 k = none) (he : ¬ Marked e.wal.files)
    (calls : List WriteCall) :
    (Marked (e.writes crc32 (rekey key calls)).wal.files →
        (e.writes crc32 (rekey key calls)).lookup crc32 key ≠ none) ∧
      ∀ k, k ≠ key → (e.writes crc32 (rekey key calls)).lookup crc32 k = none := by
  induction calls using List.reverseRecOn with
  | nil => exact ⟨fun hm => absurd hm he, fun k _ => hempty k⟩
  | append_singleton calls c ih =>
    obtain ⟨hmark, hother⟩ := ih
    rw [rekey_concat, writes_concat]
    cases hlog : ((e.writes crc32 (rekey key calls)).logEntry crc32 c.value c.env).1 with
    | ok offset =>
      refine ⟨fun _ => ?_, fun k hk => ?_⟩
      · rw [lookup_write crc32 hlog hr, if_pos rfl]
        simp
      · rw [lookup_write crc32 hlog hr, if_neg hk]
        exact hother k hk
    | error err =>
      refine ⟨fun hm => ?_, fun k hk => ?_⟩
      · rw [lookup_write_failed crc32 (Or.inl ⟨err, hlog⟩)]
        rcases (marked_write crc32 _ _ _ _).mp hm with hm | ⟨offset, hoff⟩
        · exact hmark hm
        · rw [hlog] at hoff
          cases hoff
      · rw [lookup_write_failed crc32 (Or.inl ⟨err, hlog⟩)]
        exact hother k hk

/-- The log does not depend on the keys. -/
theorem wal_rekey (key : PyStr) (e : HyperionEngine n) (calls : List WriteCall) :
    (e.writes crc32 (rekey key calls)).wal = (e.writes crc32 calls).wal := by
  have hboth : (e.writes crc32 (rekey key calls)).wal = (e.writes crc32 calls).wal ∧
      (e.writes crc32 (rekey key calls)).sequenceId = (e.writes crc32 calls).sequenceId := by
    induction calls using List.reverseRecOn with
    | nil => exact ⟨rfl, rfl⟩
    | append_singleton calls c ih =>
      obtain ⟨hwal, hseq⟩ := ih
      rw [rekey_concat, writes_concat, writes_concat]
      constructor
      · rw [(write_log ..).1, (write_log ..).1, (logEntry_eq ..).2, (logEntry_eq ..).2, nextEntry,
          nextEntry, hwal, hseq]
      · rw [(write_log ..).2, (write_log ..).2, hseq]
  exact hboth.1

/-! ## When nothing is logged -/

/-- A start without any record: the log unmarked and the cursor at the front. -/
structure Blank (e : HyperionEngine n) (seq : Nat) (closed : Bool) : Prop where
  unmarked : ¬ Marked e.wal.files
  cursor : e.wal.currentSegment.writeCursor = 0
  closed : e.wal.currentSegment.closed = closed
  sequenceId : e.sequenceId = seq

omit [NeZero n] in
theorem frame_nextEntry_fits (e : HyperionEngine n) (value : Bytes) (env : Environment) :
    (∃ packet, frame (e.nextEntry crc32 value env) value = some packet) ↔
      FitsSInt 8 (e.sequenceId + 1) ∧ value.length < 2 ^ 32 := by
  have hcrc : FitsUInt 4 ((crc32 value).toNat : Int) := by
    have := (crc32 value).toNat_lt
    exact fitsUInt_natCast.mpr this
  have hpart : FitsSInt 4 0 := by decide
  constructor
  · intro hx
    obtain ⟨packet, hf⟩ := hx
    obtain ⟨metaBytes, hm, hlen, _⟩ := frame_eq_some.mp hf
    exact ⟨(LogEntryMeta.pack_eq_some.mp hm).1, hlen⟩
  · intro hx
    obtain ⟨hfits, hlen⟩ := hx
    have hpack := LogEntryMeta.pack_eq_some (m := e.nextEntry crc32 value env)
      |>.mpr ⟨hfits, hpart, hcrc, rfl⟩
    exact ⟨_, frame_eq_some.mpr ⟨_, hpack, hlen, rfl⟩⟩

omit [NeZero n] in
theorem frame_nextEntry {e : HyperionEngine n} {seq : Nat} (hseq : e.sequenceId = seq)
    (value : Bytes) (env : Environment) :
    (∃ packet, frame (e.nextEntry crc32 value env) value = some packet) ↔
      seq + 1 < 2 ^ 63 ∧ value.length < 2 ^ 32 := by
  have hsint : FitsSInt 8 (e.sequenceId + 1) ↔ seq + 1 < 2 ^ 63 := by
    rw [hseq]
    unfold FitsSInt
    omega
  rw [frame_nextEntry_fits, hsint]

omit [NeZero n] in
/-- What is logged fits into a segment. -/
theorem fits_of_logged {e : HyperionEngine n} {seq : Nat} (hseq : e.sequenceId = seq)
    {value : Bytes} {env : Environment} {offset : Nat}
    (h : (e.logEntry crc32 value env).1 = .ok offset) :
    seq + 1 < 2 ^ 63 ∧ 32 + value.length ≤ segmentSize := by
  rw [(e.logEntry_eq crc32 value env).1] at h
  rcases e.wal.writeEntry_bytes (e.nextEntry crc32 value env) value env.now env.fault with
    ⟨err, herr, _⟩ | ⟨m₁, packet, hf, hfit, _, _⟩
  · rw [herr] at h
    cases h
  · have hlen := length_frame hf
    refine ⟨((frame_nextEntry crc32 hseq value env).mp ⟨packet, hf⟩).1, ?_⟩
    omega

omit [NeZero n] in
/-- What fits is logged by a blank engine with an open segment. -/
theorem logged_of_fits {e : HyperionEngine n} {seq : Nat} (hb : Blank e seq false)
    {value : Bytes} (hlt : seq + 1 < 2 ^ 63) (hfit : 32 + value.length ≤ segmentSize)
    (env : Environment) : ∃ offset, (e.logEntry crc32 value env).1 = .ok offset := by
  have hlen : value.length < 2 ^ 32 := by
    unfold segmentSize at hfit
    omega
  obtain ⟨packet, hf⟩ := (frame_nextEntry crc32 hb.sequenceId value env).mpr ⟨hlt, hlen⟩
  have hcur : e.wal.currentSegment.writeCursor + packet.length ≤ segmentSize := by
    rw [hb.cursor, length_frame hf]
    omega
  rw [(e.logEntry_eq crc32 value env).1]
  simp only [WalManager.writeEntry, hf, WalManager.append_ok hb.closed hcur]
  exact ⟨_, rfl⟩

/-- A write on a blank engine with an open segment that is not logged. -/
theorem blank_write {e : HyperionEngine n} {seq : Nat} (hb : Blank e seq false) (c : WriteCall)
    (hno : ¬ (seq + 1 < 2 ^ 63 ∧ 32 + c.value.length ≤ segmentSize)) :
    Blank (e.write crc32 c.key c.value c.env).2 (seq + 1)
      (decide (seq + 1 < 2 ^ 63 ∧ c.value.length < 2 ^ 32 ∧ c.env.fault ≠ none)) := by
  obtain ⟨hwal, hseq⟩ := e.write_log crc32 c.key c.value c.env
  have hunmarked : ¬ Marked (e.write crc32 c.key c.value c.env).2.wal.files := by
    rw [marked_write]
    intro hx
    rcases hx with hm | ⟨offset, hlog⟩
    · exact hb.unmarked hm
    · exact hno (fits_of_logged crc32 hb.sequenceId hlog)
  have hseq' : (e.write crc32 c.key c.value c.env).2.sequenceId = ((seq + 1 : Nat) : Int) := by
    rw [hseq, hb.sequenceId]
    rfl
  rw [(e.logEntry_eq crc32 c.value c.env).2] at hwal
  by_cases hframe : seq + 1 < 2 ^ 63 ∧ c.value.length < 2 ^ 32
  · obtain ⟨packet, hf⟩ := (frame_nextEntry crc32 hb.sequenceId c.value c.env).mpr hframe
    have hsize : segmentSize < packet.length := by
      rw [length_frame hf]
      by_contra hle
      exact hno ⟨hframe.1, not_lt.mp hle⟩
    obtain ⟨hcur, hclosed⟩ := WalManager.writeEntry_oversized hb.closed hb.cursor hf hsize
      c.env.now c.env.fault
    refine ⟨hunmarked, hwal ▸ hcur, ?_, hseq'⟩
    rw [hwal, hclosed]
    cases c.env.fault with
    | none => simp
    | some fault => exact (decide_eq_true ⟨hframe.1, hframe.2, by simp⟩).symm
  · have hnone : frame (e.nextEntry crc32 c.value c.env) c.value = none := by
      cases hf : frame (e.nextEntry crc32 c.value c.env) c.value with
      | none => rfl
      | some packet =>
        exact absurd ((frame_nextEntry crc32 hb.sequenceId c.value c.env).mp ⟨packet, hf⟩) hframe
    have hsame : (e.wal.writeEntry (e.nextEntry crc32 c.value c.env) c.value c.env.now
        c.env.fault).2 = e.wal := by
      simp only [WalManager.writeEntry, hnone]
    rw [hsame] at hwal
    refine ⟨hunmarked, hwal ▸ hb.cursor, ?_, hseq'⟩
    rw [hwal, hb.closed, eq_comm, decide_eq_false_iff_not]
    exact fun h => hframe ⟨h.1, h.2.1⟩

/-- A blank engine with a closed segment stays so. -/
theorem blank_write_closed {e : HyperionEngine n} {seq : Nat} (hb : Blank e seq true)
    (c : WriteCall) : Blank (e.write crc32 c.key c.value c.env).2 (seq + 1) true := by
  obtain ⟨err, hw⟩ := WalManager.writeEntry_closed hb.closed (e.nextEntry crc32 c.value c.env)
    c.value c.env.now c.env.fault
  obtain ⟨hwal, hseq⟩ := e.write_log crc32 c.key c.value c.env
  rw [(e.logEntry_eq crc32 c.value c.env).2, hw] at hwal
  refine ⟨?_, ?_, ?_, ?_⟩
  · rw [hwal]
    exact hb.unmarked
  · rw [hwal]
    exact hb.cursor
  · rw [hwal]
    exact hb.closed
  · rw [hseq, hb.sequenceId]
    rfl

theorem unmarked_of_closed {e : HyperionEngine n} {seq : Nat} (hb : Blank e seq true)
    (calls : List WriteCall) : ¬ Marked (e.writes crc32 calls).wal.files := by
  induction calls generalizing e seq with
  | nil => exact hb.unmarked
  | cons c rest ih => exact ih (blank_write_closed crc32 hb c)

/-- From a blank engine, the inputs decide whether anything is ever logged. -/
theorem unmarked_iff {e : HyperionEngine n} {seq : Nat} (hb : Blank e seq false)
    (calls : List WriteCall) :
    ¬ Marked (e.writes crc32 calls).wal.files ↔ Unlogged seq calls := by
  induction calls generalizing e seq with
  | nil => exact iff_of_true hb.unmarked trivial
  | cons c rest ih =>
    rw [Unlogged]
    by_cases hfit : seq + 1 < 2 ^ 63 ∧ 32 + c.value.length ≤ segmentSize
    · obtain ⟨offset, hlog⟩ := logged_of_fits crc32 hb hfit.1 hfit.2 c.env
      have hmark := (marked_write crc32 e c.key c.value c.env).mpr (Or.inr ⟨offset, hlog⟩)
      exact iff_of_false (not_not.mpr (marked_writes crc32 hmark rest)) fun h => h.1 hfit
    · have hblank := blank_write crc32 hb c hfit
      rw [and_iff_right hfit]
      by_cases hfault : seq + 1 < 2 ^ 63 ∧ c.value.length < 2 ^ 32 ∧ c.env.fault ≠ none
      · rw [decide_eq_true hfault] at hblank
        exact iff_of_true (unmarked_of_closed crc32 hblank rest) (Or.inl hfault)
      · rw [decide_eq_false hfault] at hblank
        rw [or_iff_right hfault]
        exact ih hblank

omit [NeZero n] in
theorem blank_fresh (now : Int) : Blank (fresh n now) 0 false where
  unmarked := by
    intro hx
    obtain ⟨name, i, _, hne⟩ := hx
    refine hne ?_
    show Files.content (Dict.set _ _ _) _ _ = 0
    rw [Files.content_set]
    split
    · show (if i < segmentSize then 0 else 0) = (0 : UInt8)
      exact ite_self 0
    · rfl
  cursor := rfl
  closed := rfl
  sequenceId := rfl

theorem lookup_fresh (now : Int) (k : PyStr) : (fresh n now).lookup crc32 k = none := by
  unfold lookup
  split <;> rfl

/-! ## The log and the store -/

/-- The segments written by two runs are byte for byte the same. -/
def SameLog (e e' : HyperionEngine n) : Prop :=
  ∀ name, e.wal.files.get? name = e'.wal.files.get? name

/-- `read` returns the same for every key. -/
def SameStore (e e' : HyperionEngine n) : Prop :=
  ∀ key, (e.read crc32 key).1 = (e'.read crc32 key).1

/-- The log of this run determines the store: every run that leaves the same log
leaves the same store. -/
def LogDetermines (n : Nat) [NeZero n] (now : Int) (calls : List WriteCall) : Prop :=
  ∀ (now' : Int) (calls' : List WriteCall),
    SameLog ((fresh n now).writes crc32 calls) ((fresh n now').writes crc32 calls') →
      SameStore crc32 ((fresh n now).writes crc32 calls) ((fresh n now').writes crc32 calls')

omit [NeZero n] in
theorem marked_of_sameLog {e e' : HyperionEngine n} (hm : Marked e.wal.files)
    (hs : SameLog e e') : Marked e'.wal.files := by
  refine hm.of_sameBytes fun name i _ => ?_
  unfold Files.content
  rw [hs name]

theorem sameStore_of_lookup {e e' : HyperionEngine n}
    (h : ∀ k, e.lookup crc32 k = e'.lookup crc32 k) : SameStore crc32 e e' := by
  intro key
  cases hr : route (n := n) crc32 key with
  | none => rw [read_of_unencodable crc32 hr, read_of_unencodable crc32 hr]
  | some i => rw [read_eq_ok crc32 hr, read_eq_ok crc32 hr, h key]

theorem SameStore.lookup {e e' : HyperionEngine n} (h : SameStore crc32 e e') (k : PyStr) :
    e.lookup crc32 k = e'.lookup crc32 k := by
  cases hr : route (n := n) crc32 k with
  | none => simp only [HyperionEngine.lookup, hr]
  | some i =>
    have := h k
    rw [read_eq_ok crc32 hr, read_eq_ok crc32 hr] at this
    exact Except.ok.inj this

/-- Under two keys the same marked log stands for two stores. -/
theorem store_of_key (now : Int) {calls : List WriteCall} {key : PyStr} {i : Fin n}
    (hr : route crc32 key = some i)
    (hmark : Marked ((fresh n now).writes crc32 calls).wal.files) :
    ((fresh n now).writes crc32 (rekey key calls)).lookup crc32 key ≠ none ∧
      ∀ k, k ≠ key → ((fresh n now).writes crc32 (rekey key calls)).lookup crc32 k = none := by
  obtain ⟨hself, hother⟩ := lookup_rekey crc32 hr (lookup_fresh crc32 now)
    (blank_fresh now).unmarked calls
  rw [wal_rekey] at hself
  exact ⟨hself hmark, hother⟩

theorem not_determined_of_marked {now : Int} {calls : List WriteCall}
    (hmark : Marked ((fresh n now).writes crc32 calls).wal.files) :
    ¬ LogDetermines crc32 n now calls := by
  intro hall
  have hsame : ∀ key, SameStore crc32 ((fresh n now).writes crc32 calls)
      ((fresh n now).writes crc32 (rekey key calls)) := fun key =>
    hall now (rekey key calls) fun name => by rw [wal_rekey]
  have hra : route (n := n) crc32 [.scalar 'a'] = some _ := rfl
  have hrb : route (n := n) crc32 [.scalar 'b'] = some _ := rfl
  obtain ⟨hbound, _⟩ := store_of_key crc32 now hra hmark
  obtain ⟨_, hfree⟩ := store_of_key crc32 now hrb hmark
  have hne : ([.scalar 'a'] : PyStr) ≠ [.scalar 'b'] := by decide
  rw [← (hsame [.scalar 'a']).lookup, (hsame [.scalar 'b']).lookup, hfree _ hne] at hbound
  exact hbound rfl

theorem determined_of_unmarked {now : Int} {calls : List WriteCall}
    (hno : ¬ Marked ((fresh n now).writes crc32 calls).wal.files) :
    LogDetermines crc32 n now calls := by
  intro now' calls' hsame
  have hno' : ¬ Marked ((fresh n now').writes crc32 calls').wal.files := fun hm =>
    hno (marked_of_sameLog hm fun name => (hsame name).symm)
  refine sameStore_of_lookup crc32 fun k => ?_
  rw [lookup_of_not_marked crc32 (lookup_fresh crc32 now) hno,
    lookup_of_not_marked crc32 (lookup_fresh crc32 now') hno']

/-- The log determines the store exactly in the runs that log nothing. -/
theorem log_determines_iff (now : Int) (calls : List WriteCall) :
    LogDetermines crc32 n now calls ↔ Unlogged 0 calls := by
  rw [← unmarked_iff crc32 (blank_fresh (n := n) now) calls]
  constructor
  · exact fun hall hmark => not_determined_of_marked crc32 hmark hall
  · exact determined_of_unmarked crc32

theorem log_determines_one : LogDetermines (fun _ => 0) 1 0 [] :=
  (log_determines_iff (fun _ => 0) 0 []).mpr trivial

/-- One byte under the key `"a"`. -/
def oneWrite : WriteCall := ⟨[.scalar 'a'], [1], ⟨0, 0, none⟩⟩

/-- The byte might as well have been written under another key. -/
theorem log_forgets_keys : ¬ ∀ (crc32 : Bytes → UInt32) (n : Nat) (_ : NeZero n)
    (now now' : Int) (calls calls' : List WriteCall),
    SameLog ((fresh n now).writes crc32 calls) ((fresh n now').writes crc32 calls') →
      SameStore crc32 ((fresh n now).writes crc32 calls) ((fresh n now').writes crc32 calls') := by
  intro hall
  have hdet : LogDetermines (fun _ => 0) 1 0 [oneWrite] := fun now' calls' =>
    hall (fun _ => 0) 1 inferInstance 0 now' [oneWrite] calls'
  refine not_determined_of_marked (fun _ => 0) ?_ hdet
  by_contra hno
  have hun := (unmarked_iff (fun _ => 0) (blank_fresh (n := 1) 0) [oneWrite]).mp hno
  refine hun.1 ⟨by decide, ?_⟩
  show 32 + 1 ≤ 64 * 1024 * 1024
  omega

end HyperionEngine

end PythonPortfolio.Hyperion
