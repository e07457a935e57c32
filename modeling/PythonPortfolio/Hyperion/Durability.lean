import PythonPortfolio.Hyperion.Recovery

/-!
# What a power loss can take

The mapping of a segment is ahead of the disk until `msync`. A rotation syncs the
segment it closes, a round of the flush daemon the segment that is current, and the
operating system may write back any byte of its own accord. A process that ends
leaves its pages with the operating system; a power loss leaves the disk alone.
-/

namespace PythonPortfolio.Hyperion

open Library Library.BigEndian

/-- The task of `flush_daemon`. -/
inductive Daemon where
  | running
  | cancelled
  | ended
deriving DecidableEq

/-- A manager, what the disk holds of its files, and its daemon. -/
structure DurableLog where
  wal : WalManager
  disk : Files
  daemon : Daemon

namespace DurableLog

/-- `current_segment.sync()`, which writes the mapping back as a whole. -/
def sync (d : DurableLog) : Except WalError Unit × DurableLog :=
  match d.wal.currentSegment.sync with
  | .error e => (.error e, d)
  | .ok () =>
    let path := d.wal.currentSegment.path
    (.ok (), { d with disk := d.disk.set path (d.wal.files.content path) })

/-- `_rotate_segment`; the second flush, in `close`, finds nothing to write. -/
def rotateSegment (d : DurableLog) (now : Int) (fault : Option OpenFault) :
    Except WalError Unit × DurableLog :=
  match d.sync with
  | (.error e, d) => (.error e, d)
  | (.ok (), d) =>
    match d.wal.rotateSegment now fault with
    | (result, wal) => (result, { d with wal := wal })

def append (d : DurableLog) (packet : Bytes) : Except WalError Nat × DurableLog :=
  match d.wal.append packet with
  | (result, wal) => (result, { d with wal := wal })

def writeEntry (d : DurableLog) (entry : LogEntryMeta) (payload : Bytes) (now : Int)
    (fault : Option OpenFault) : Except WalError Nat × DurableLog :=
  match frame entry payload with
  | none => (.error .structError, d)
  | some packet =>
    match d.append packet with
    | (.error (.segmentFull _), d) =>
      match d.rotateSegment now fault with
      | (.error e, d) => (.error e, d)
      | (.ok (), d) => d.append packet
    | result => result

/-- One turn of `flush_daemon`: the sync after a sleep, or the last one after a
cancellation. An error of the sync ends the task. -/
def flush (d : DurableLog) : Option DurableLog :=
  match d.daemon, d.sync with
  | .running, (.ok (), d) => some d
  | .running, (.error _, d) => some { d with daemon := .ended }
  | .cancelled, (_, d) => some { d with daemon := .ended }
  | .ended, _ => none

/-- `HyperionEngine.stop`. -/
def stop (d : DurableLog) : DurableLog :=
  let d := { d with daemon := if d.daemon = Daemon.running then .cancelled else d.daemon }
  d.sync.2

/-- The operating system writes back the marked bytes of one file. -/
def writeBack (d : DurableLog) (name : String) (dirty : Nat → Bool) : DurableLog :=
  { d with
    disk := d.disk.set name fun i =>
      if dirty i then d.wal.files.content name i else d.disk.content name i }

/-- A new process, with `files` in the pages of the operating system. -/
def boot (files disk : Files) (now : Int) : Option DurableLog :=
  (WalManager.init files now none).1.toOption.map fun wal => ⟨wal, disk, .running⟩

end DurableLog

inductive DurableEvent where
  | write (entry : LogEntryMeta) (payload : Bytes) (now : Int) (fault : Option OpenFault)
  | flush
  | stop
  | writeBack (name : String) (dirty : Nat → Bool)
  | restart (now : Int)
  | powerLoss (now : Int)

def durableMachine : Machine DurableLog DurableEvent where
  start d := ∃ disk now, DurableLog.boot disk disk now = some d
  step
    | d, .write entry payload now fault => some (d.writeEntry entry payload now fault).2
    | d, .flush => d.flush
    | d, .stop => some d.stop
    | d, .writeBack name dirty => some (d.writeBack name dirty)
    | d, .restart now => DurableLog.boot d.wal.files d.disk now
    | d, .powerLoss now => DurableLog.boot d.disk d.disk now

abbrev DurableStep := Transition DurableLog DurableEvent

/-- A frame for which an open segment has no room. -/
def Overflows (m : WalManager) (entry : LogEntryMeta) (payload : Bytes) : Prop :=
  m.currentSegment.closed = false ∧ ∃ packet, frame entry payload = some packet ∧
    segmentSize < m.currentSegment.writeCursor + packet.length

namespace DurableStep

def stored (t : DurableStep) : Option Stored :=
  match t.event with
  | .write entry payload now fault =>
    match frame entry payload, (t.pre.writeEntry entry payload now fault).1 with
    | some packet, .ok offset => some ⟨t.post.wal.currentSegment.path, offset, packet⟩
    | _, _ => none
  | _ => none

/-- The transition syncs the file: it is the current one of a flush, a stop or a
rotation, and its mapping is open. -/
def Syncs (t : DurableStep) (name : String) : Prop :=
  name = t.pre.wal.currentSegment.path ∧
    match t.event with
    | .write entry payload _ _ => Overflows t.pre.wal entry payload
    | .flush | .stop => t.pre.wal.currentSegment.closed = false
    | _ => False

/-- The transition opens the file with the cursor at zero. -/
def Opens (t : DurableStep) (name : String) : Prop :=
  match t.event with
  | .write entry payload now fault =>
    Overflows t.pre.wal entry payload ∧ fault = none ∧ name = segmentName now
  | .restart now | .powerLoss now => name = segmentName now
  | _ => False

end DurableStep

/-- The record was stored, and its file synced afterwards. -/
def Synced (trace : List DurableStep) (x : Stored) : Prop :=
  ∃ before t after, trace = before ++ t :: after ∧ t.Syncs x.path ∧
    x ∈ before.filterMap DurableStep.stored

theorem synced_concat {trace : List DurableStep} {t : DurableStep} {x : Stored} :
    Synced (trace ++ [t]) x ↔
      Synced trace x ∨ t.Syncs x.path ∧ x ∈ trace.filterMap DurableStep.stored := by
  constructor
  · rintro ⟨before, u, after, heq, hsync, hx⟩
    rcases List.eq_nil_or_concat after with rfl | ⟨after', last, rfl⟩
    · obtain ⟨rfl, hlast⟩ := List.append_inj' heq rfl
      obtain rfl := (List.cons.inj hlast).1
      exact Or.inr ⟨hsync, hx⟩
    · have heq' : trace ++ [t] = (before ++ u :: after') ++ [last] := by simpa using heq
      exact Or.inl ⟨before, u, after', (List.append_inj' heq' rfl).1, hsync, hx⟩
  · rintro (⟨before, u, after, rfl, hsync, hx⟩ | ⟨hsync, hx⟩)
    · exact ⟨before, u, after ++ [t], by simp, hsync, hx⟩
    · exact ⟨trace, t, [], rfl, hsync, hx⟩

/-! ## Bytes on two levels -/

theorem Stored.intact_iff {x : Stored} {files : Files} :
    x.Intact files ↔
      ∀ i (h : i < x.packet.length), files.content x.path (x.offset + i) = x.packet[i] := by
  unfold Stored.Intact
  constructor
  · intro h i hi
    rw [← Content.getElem_read (files.content x.path) x.offset x.packet.length i
      (by simpa using hi)]
    simp only [h]
  · intro h
    refine List.ext_getElem (by simp) fun i hi hi' => ?_
    rw [Content.getElem_read, h i hi']

theorem Stored.Intact.of_content {x : Stored} {files files' : Files} (h : x.Intact files)
    (hc : files'.content x.path = files.content x.path) : x.Intact files' := by
  unfold Stored.Intact
  rw [hc]
  exact h

theorem Stored.Intact.of_sameBytes {x : Stored} {files files' : Files} (h : x.Intact files)
    (hs : SameBytes files files') (hle : x.offset + x.packet.length ≤ segmentSize) :
    x.Intact files' := by
  rw [Stored.intact_iff] at h ⊢
  intro i hi
  rw [← hs x.path _ (by omega), h i hi]

/-- Bytes taken from two intact copies make an intact copy. -/
theorem Stored.Intact.mix {x : Stored} {files disk : Files} (hf : x.Intact files)
    (hd : x.Intact disk) (name : String) (dirty : Nat → Bool) :
    x.Intact (disk.set name fun i =>
      if dirty i then files.content name i else disk.content name i) := by
  rw [Stored.intact_iff] at hf hd ⊢
  intro i hi
  rw [Files.content_set]
  split
  · next hname =>
    subst hname
    show (if dirty _ then _ else _) = _
    split
    · exact hf i hi
    · exact hd i hi
  · exact hd i hi

/-- The invariant of the log and its disk, for the packets stored so far and those of
them whose file was synced afterwards. -/
structure Held (xs : List Stored) (Safe : Stored → Prop) (m : WalManager) (disk : Files) :
    Prop where
  within : ∀ x ∈ xs, x.offset + x.packet.length ≤ segmentSize
  current : ∀ x ∈ xs, x.path = m.currentSegment.path →
    x.Intact m.files ∧ x.offset + x.packet.length ≤ m.currentSegment.writeCursor
  safe : ∀ x, Safe x → x ∈ xs ∧ x.Intact m.files ∧ x.Intact disk
  closed : m.currentSegment.closed = true → ∀ x ∈ xs, x.path = m.currentSegment.path → Safe x

namespace Held

variable {xs : List Stored} {Safe : Stored → Prop} {m : WalManager} {disk : Files}

theorem congr (h : Held xs Safe m disk) {Safe' : Stored → Prop} (hs : ∀ x, Safe' x ↔ Safe x) :
    Held xs Safe' m disk where
  within := h.within
  current := h.current
  safe x hx := h.safe x ((hs x).mp hx)
  closed hc x hx hpath := (hs x).mpr (h.closed hc x hx hpath)

/-- A sync makes the current file safe. -/
theorem sync (h : Held xs Safe m disk) :
    Held xs (fun x => Safe x ∨ x.path = m.currentSegment.path ∧ x ∈ xs) m
      (disk.set m.currentSegment.path (m.files.content m.currentSegment.path)) where
  within := h.within
  current := h.current
  safe x hx := by
    have hdisk : x.path = m.currentSegment.path →
        Files.content (disk.set m.currentSegment.path (m.files.content m.currentSegment.path))
          x.path = m.files.content x.path := by
      intro hpath
      rw [Files.content_set, if_pos hpath, hpath]
    rcases hx with hx | ⟨hpath, hx⟩
    · obtain ⟨hmem, hfile, hold⟩ := h.safe x hx
      refine ⟨hmem, hfile, ?_⟩
      by_cases hpath : x.path = m.currentSegment.path
      · exact hfile.of_content (hdisk hpath)
      · exact hold.of_content (by rw [Files.content_set, if_neg hpath])
    · obtain ⟨hfile, _⟩ := h.current x hx hpath
      exact ⟨hx, hfile, hfile.of_content (hdisk hpath)⟩
  closed _ x hx hpath := Or.inr ⟨hpath, hx⟩

theorem appended (h : Held xs Safe m disk) (ho : m.currentSegment.closed = false)
    {packet : Bytes} (hfit : m.currentSegment.writeCursor + packet.length ≤ segmentSize) :
    Held (xs ++ [⟨m.currentSegment.path, m.currentSegment.writeCursor, packet⟩]) Safe
      (m.appended packet) disk := by
  -- a packet that was intact in the mapping still is, and lies before the new one
  have hkeep : ∀ x ∈ xs, x.Intact m.files → x.Intact (m.appended packet).files := by
    intro x hx hold
    unfold Stored.Intact
    show (Files.content (Dict.set _ _ _) _).read _ _ = _
    rw [Files.content_set]
    by_cases hpath : x.path = m.currentSegment.path
    · rw [if_pos hpath, Content.read_write_of_le _ packet (h.current x hx hpath).2, ← hpath]
      exact hold
    · rw [if_neg hpath]
      exact hold
  refine ⟨fun x hx => ?_, fun x hx hpath => ?_, fun x hx => ?_, fun hc => ?_⟩
  · rcases mem_concat.mp hx with hx | rfl
    · exact h.within x hx
    · exact hfit
  · rcases mem_concat.mp hx with hx | rfl
    · obtain ⟨hold, hle⟩ := h.current x hx hpath
      refine ⟨hkeep x hx hold, ?_⟩
      show _ ≤ m.currentSegment.writeCursor + packet.length
      omega
    · refine ⟨?_, le_refl _⟩
      unfold Stored.Intact
      show (Files.content (Dict.set _ _ _) _).read _ _ = _
      rw [Files.content_set, if_pos rfl, Content.read_write_self]
  · obtain ⟨hmem, hfile, hdisk⟩ := h.safe x hx
    exact ⟨List.mem_append_left _ hmem, hkeep x hmem hfile, hdisk⟩
  · rw [show (m.appended packet).currentSegment.closed = m.currentSegment.closed from rfl, ho]
      at hc
    cases hc

/-- A new segment on files that hold the safe packets. -/
theorem opened (h : Held xs Safe m disk) {files : Files}
    (hsafe : ∀ x, Safe x → x.Intact files) {now : Int}
    (hfresh : ∀ x ∈ xs, x.path ≠ segmentName now) (history : List String) :
    Held xs Safe (WalManager.opened files now history) disk where
  within := h.within
  current x hx hpath := absurd hpath (hfresh x hx)
  safe x hx := by
    obtain ⟨hmem, _, hdisk⟩ := h.safe x hx
    refine ⟨hmem, (hsafe x hx).of_content ?_, hdisk⟩
    show Files.content (Dict.set _ _ _) _ = _
    rw [Files.content_set, if_neg (hfresh x hmem)]
  closed hc := by cases hc

theorem stranded (h : Held xs Safe m disk)
    (hall : ∀ x ∈ xs, x.path = m.currentSegment.path → Safe x) (now : Int) (f : OpenFault) :
    Held xs Safe (m.stranded now f) disk := by
  have hbytes : SameBytes m.files (m.stranded now f).files :=
    WalManager.create_sameBytes m.files (segmentName now) (some f)
  refine ⟨h.within, fun x hx hpath => ?_, fun x hx => ?_, fun _ => hall⟩
  · obtain ⟨hfile, hle⟩ := h.current x hx hpath
    exact ⟨hfile.of_sameBytes hbytes (h.within x hx), hle⟩
  · obtain ⟨hmem, hfile, hdisk⟩ := h.safe x hx
    exact ⟨hmem, hfile.of_sameBytes hbytes (h.within x hmem), hdisk⟩

theorem writeBack (h : Held xs Safe m disk) (name : String) (dirty : Nat → Bool) :
    Held xs Safe m (disk.set name fun i =>
      if dirty i then m.files.content name i else disk.content name i) where
  within := h.within
  current := h.current
  safe x hx := by
    obtain ⟨hmem, hfile, hdisk⟩ := h.safe x hx
    exact ⟨hmem, hfile, hfile.mix hdisk name dirty⟩
  closed := h.closed

end Held

/-! ## What a step does -/

namespace DurableLog

variable {d : DurableLog} {entry : LogEntryMeta} {payload : Bytes}

theorem sync_open (ho : d.wal.currentSegment.closed = false) :
    d.sync = (.ok (), { d with
      disk := d.disk.set d.wal.currentSegment.path
        (d.wal.files.content d.wal.currentSegment.path) }) := by
  simp only [sync, WalSegment.sync, ho, Bool.false_eq_true, if_false]

theorem sync_closed (hc : d.wal.currentSegment.closed = true) :
    d.sync = (.error mmapClosed, d) := by
  simp only [sync, WalSegment.sync, hc, if_true]

/-- A write without a rotation leaves the disk. -/
theorem writeEntry_calm (h : ¬ Overflows d.wal entry payload) (now : Int)
    (fault : Option OpenFault) : d.writeEntry entry payload now fault =
      ((d.wal.writeEntry entry payload now fault).1,
        { d with wal := (d.wal.writeEntry entry payload now fault).2 }) := by
  cases hf : frame entry payload with
  | none => simp only [writeEntry, WalManager.writeEntry, hf]
  | some packet =>
    by_cases hfit : d.wal.currentSegment.writeCursor + packet.length ≤ segmentSize
    · simp only [writeEntry, WalManager.writeEntry, append, hf]
      cases hc : d.wal.currentSegment.closed with
      | true => simp only [WalManager.append_closed hc hfit, mmapClosed]
      | false => simp only [WalManager.append_ok hc hfit]
    · have hover := not_le.mp hfit
      have hc : d.wal.currentSegment.closed = true := by
        by_contra ho
        exact h ⟨Bool.eq_false_iff.mpr ho, packet, hf, hover⟩
      obtain ⟨message, hfull⟩ := WalManager.append_full hover
      simp only [writeEntry, WalManager.writeEntry, append, hf, hfull, rotateSegment,
        sync_closed hc, WalManager.rotateSegment_closed hc]

/-- A write with a rotation syncs the segment that was full. -/
theorem writeEntry_overflow (h : Overflows d.wal entry payload) (now : Int)
    (fault : Option OpenFault) : d.writeEntry entry payload now fault =
      ((d.wal.writeEntry entry payload now fault).1,
        { d.sync.2 with wal := (d.wal.writeEntry entry payload now fault).2 }) := by
  obtain ⟨ho, packet, hf, hover⟩ := h
  obtain ⟨message, hfull⟩ := WalManager.append_full hover
  cases fault with
  | some f =>
    simp only [writeEntry, WalManager.writeEntry, append, hf, hfull, rotateSegment, sync_open ho,
      WalManager.rotateSegment_fault ho]
  | none =>
    simp only [writeEntry, WalManager.writeEntry, append, hf, hfull, rotateSegment, sync_open ho,
      WalManager.rotateSegment_ok ho]

/-- The log itself does what it does without a disk. -/
theorem writeEntry_wal (d : DurableLog) (entry : LogEntryMeta) (payload : Bytes) (now : Int)
    (fault : Option OpenFault) :
    (d.writeEntry entry payload now fault).1 = (d.wal.writeEntry entry payload now fault).1 ∧
      (d.writeEntry entry payload now fault).2.wal =
        (d.wal.writeEntry entry payload now fault).2 := by
  by_cases h : Overflows d.wal entry payload
  · rw [writeEntry_overflow h]
    exact ⟨rfl, rfl⟩
  · rw [writeEntry_calm h]
    exact ⟨rfl, rfl⟩

end DurableLog

/-! ## Steps and runs -/

namespace DurableStep

variable {d d' : DurableLog} {entry : LogEntryMeta} {payload packet : Bytes} {now : Int}
  {fault : Option OpenFault}

theorem stored_ok {offset : Nat} (hf : frame entry payload = some packet)
    (hw : (d.wal.writeEntry entry payload now fault).1 = .ok offset) :
    stored ⟨d, .write entry payload now fault, d'⟩ =
      some ⟨d'.wal.currentSegment.path, offset, packet⟩ := by
  simp only [stored, hf, (d.writeEntry_wal entry payload now fault).1, hw]

theorem stored_error {e : WalError}
    (hw : (d.wal.writeEntry entry payload now fault).1 = .error e) :
    stored ⟨d, .write entry payload now fault, d'⟩ = none := by
  simp only [stored, (d.writeEntry_wal entry payload now fault).1, hw]
  cases frame entry payload <;> rfl

end DurableStep

theorem boot_eq_some {files disk : Files} {now : Int} {d : DurableLog} :
    DurableLog.boot files disk now = some d ↔
      ⟨WalManager.opened files now [], disk, .running⟩ = d := by
  rw [DurableLog.boot, WalManager.init_ok]
  exact Option.some_inj

/-- Neither a flush nor a stop touches the log; both sync an open segment. -/
theorem flush_stop_disk {d d' : DurableLog} {e : DurableEvent} (he : e = .flush ∨ e = .stop)
    (hs : durableMachine.step d e = some d') : d'.wal = d.wal ∧
      d'.disk = if d.wal.currentSegment.closed then d.disk else
        d.disk.set d.wal.currentSegment.path (d.wal.files.content d.wal.currentSegment.path) := by
  rcases he with rfl | rfl
  · change d.flush = some d' at hs
    cases hc : d.wal.currentSegment.closed with
    | true =>
      simp only [DurableLog.flush, DurableLog.sync_closed hc] at hs
      cases hd : d.daemon <;> rw [hd] at hs <;> cases hs <;> exact ⟨rfl, rfl⟩
    | false =>
      simp only [DurableLog.flush, DurableLog.sync_open hc] at hs
      cases hd : d.daemon <;> rw [hd] at hs <;> cases hs <;> exact ⟨rfl, rfl⟩
  · obtain rfl : d.stop = d' := Option.some.inj hs
    cases hc : d.wal.currentSegment.closed with
    | true => rw [DurableLog.stop, DurableLog.sync_closed (by exact hc)]; exact ⟨rfl, rfl⟩
    | false => rw [DurableLog.stop, DurableLog.sync_open (by exact hc)]; exact ⟨rfl, rfl⟩

/-- The packets of a history, and those of them that are safe. -/
abbrev HeldBy (trace : List DurableStep) (d : DurableLog) : Prop :=
  Held (trace.filterMap DurableStep.stored) (Synced trace) d.wal d.disk

variable {trace : List DurableStep} {d d' : DurableLog}

/-- A step that stores and syncs nothing. -/
theorem heldBy_quiet {e : DurableEvent}
    (h : Held (trace.filterMap DurableStep.stored) (Synced trace) d'.wal d'.disk)
    (hstored : DurableStep.stored ⟨d, e, d'⟩ = none)
    (hsync : ∀ name, ¬ DurableStep.Syncs ⟨d, e, d'⟩ name) : HeldBy (trace ++ [⟨d, e, d'⟩]) d' := by
  unfold HeldBy
  rw [filterMap_concat, hstored, Option.toList_none, List.append_nil]
  exact h.congr fun x => by simp [synced_concat, hsync]

/-- A rotation keeps the packets, having synced those of the segment it closes. -/
theorem HeldBy.rotate (h : HeldBy trace d) {entry : LogEntryMeta} {payload : Bytes}
    (hover : Overflows d.wal entry payload) (now : Int) (fault : Option OpenFault)
    (hd : (d.writeEntry entry payload now fault).2 = d')
    (hfresh : fault = none → ∀ x ∈ trace.filterMap DurableStep.stored, x.path ≠ segmentName now) :
    HeldBy (trace ++ [⟨d, .write entry payload now fault, d'⟩]) d' := by
  obtain ⟨ho, packet, hf, hfull⟩ := id hover
  have hsynced : Held (trace.filterMap DurableStep.stored)
      (Synced (trace ++ [⟨d, .write entry payload now fault, d'⟩])) d.wal
      (d.disk.set d.wal.currentSegment.path (d.wal.files.content d.wal.currentSegment.path)) := by
    refine h.sync.congr fun x => ?_
    rw [synced_concat]
    exact or_congr_right (and_congr_left fun _ => and_iff_left hover)
  have hdisk : d'.disk = (d.disk.set d.wal.currentSegment.path
      (d.wal.files.content d.wal.currentSegment.path)) := by
    rw [← hd, DurableLog.writeEntry_overflow hover, DurableLog.sync_open ho]
  have hwal := (d.writeEntry_wal entry payload now fault).2
  rw [hd] at hwal
  unfold HeldBy
  rw [filterMap_concat, hdisk]
  cases d.wal.writeEntry_outcome entry payload now fault with
  | refused hnone =>
    rw [hf] at hnone
    cases hnone
  | closed _ _ hc =>
    rw [ho] at hc
    cases hc
  | stored packet' hf' _ hfit =>
    obtain rfl := Option.some.inj (hf.symm.trans hf')
    omega
  | stranded _ _ _ _ f _ hw =>
    rw [DurableStep.stored_error (congrArg Prod.fst hw), Option.toList_none, List.append_nil, hwal,
      hw]
    exact hsynced.stranded
      (fun x hx hpath => synced_concat.mpr (Or.inr ⟨⟨hpath, hover⟩, hx⟩)) now f
  | rotated packet' hf' _ _ hsize hnone hw =>
    rw [DurableStep.stored_ok hf' (congrArg Prod.fst hw), hwal, hw]
    refine (hsynced.opened (fun x hx => (hsynced.safe x hx).2.1) (hfresh hnone)
      d.wal.segmentsHistory).appended rfl ?_
    show 0 + packet'.length ≤ segmentSize
    omega
  | oversized _ _ _ _ _ hnone _ hw =>
    rw [DurableStep.stored_error (congrArg Prod.fst hw), Option.toList_none, List.append_nil, hwal,
      hw]
    exact hsynced.opened (fun x hx => (hsynced.safe x hx).2.1) (hfresh hnone) d.wal.segmentsHistory

/-- A write without a rotation appends to the current segment or does nothing. -/
theorem HeldBy.write (h : HeldBy trace d) {entry : LogEntryMeta} {payload : Bytes}
    (hcalm : ¬ Overflows d.wal entry payload) (now : Int) (fault : Option OpenFault)
    (hd : (d.writeEntry entry payload now fault).2 = d') :
    HeldBy (trace ++ [⟨d, .write entry payload now fault, d'⟩]) d' := by
  have hnosync : ∀ name, ¬ DurableStep.Syncs ⟨d, .write entry payload now fault, d'⟩ name :=
    fun _ hx => hcalm hx.2
  have hdisk : d'.disk = d.disk := by rw [← hd, DurableLog.writeEntry_calm hcalm]
  have hwal := (d.writeEntry_wal entry payload now fault).2
  rw [hd] at hwal
  cases d.wal.writeEntry_outcome entry payload now fault with
  | refused _ hw | closed _ _ _ hw =>
    refine heldBy_quiet ?_ (DurableStep.stored_error (congrArg Prod.fst hw)) hnosync
    rw [hwal, hw, hdisk]
    exact h
  | stored packet hf ho hfit hw =>
    unfold HeldBy
    rw [filterMap_concat, DurableStep.stored_ok hf (congrArg Prod.fst hw), hdisk, hwal, hw]
    exact (h.appended ho hfit).congr fun x => by simp [synced_concat, hnosync]
  | stranded packet hf ho hfull | rotated packet hf ho hfull | oversized packet hf ho hfull =>
    exact absurd ⟨ho, packet, hf, hfull⟩ hcalm

/-- A new process keeps what is safe, whether the pages survived or only the disk. -/
theorem HeldBy.boot (h : HeldBy trace d) {e : DurableEvent} {files : Files} {now : Int}
    (hsafe : ∀ x, Synced trace x → x.Intact files)
    (hd : DurableLog.boot files d.disk now = some d')
    (hstored : DurableStep.stored ⟨d, e, d'⟩ = none)
    (hsync : ∀ name, ¬ DurableStep.Syncs ⟨d, e, d'⟩ name)
    (hfresh : ∀ x ∈ trace.filterMap DurableStep.stored, x.path ≠ segmentName now) :
    HeldBy (trace ++ [⟨d, e, d'⟩]) d' := by
  obtain rfl := boot_eq_some.mp hd
  exact heldBy_quiet (h.opened hsafe hfresh []) hstored hsync

/-- One step of the log keeps what its history says. -/
theorem HeldBy.step (h : HeldBy trace d) {e : DurableEvent}
    (hs : durableMachine.step d e = some d')
    (hfresh : ∀ name, DurableStep.Opens ⟨d, e, d'⟩ name →
      ∀ x ∈ trace.filterMap DurableStep.stored, x.path ≠ name) :
    HeldBy (trace ++ [⟨d, e, d'⟩]) d' := by
  cases e with
  | write entry payload now fault =>
    have hd : (d.writeEntry entry payload now fault).2 = d' := Option.some.inj hs
    by_cases hover : Overflows d.wal entry payload
    · exact h.rotate hover now fault hd fun hnone => hfresh _ ⟨hover, hnone, rfl⟩
    · exact h.write hover now fault hd
  | flush | stop =>
    all_goals
      obtain ⟨hwal, hdisk⟩ := flush_stop_disk (by simp) hs
      cases hc : d.wal.currentSegment.closed with
      | true =>
        refine heldBy_quiet ?_ rfl fun name hx => ?_
        · rw [hwal, hdisk, if_pos hc]
          exact h
        · have := hx.2
          rw [hc] at this
          cases this
      | false =>
        unfold HeldBy
        rw [filterMap_concat, hwal, hdisk, if_neg (by simp [hc])]
        simp only [DurableStep.stored, Option.toList_none, List.append_nil]
        refine h.sync.congr fun x => ?_
        rw [synced_concat]
        exact or_congr_right (and_congr_left fun _ => and_iff_left hc)
  | writeBack name dirty =>
    obtain rfl : d.writeBack name dirty = d' := Option.some.inj hs
    exact heldBy_quiet (h.writeBack name dirty) rfl fun _ hx => hx.2
  | restart now =>
    exact h.boot (fun x hx => (h.safe x hx).2.1) hs rfl (fun _ hx => hx.2) (hfresh _ rfl)
  | powerLoss now =>
    exact h.boot (fun x hx => (h.safe x hx).2.2) hs rfl (fun _ hx => hx.2) (hfresh _ rfl)

end PythonPortfolio.Hyperion
