import PythonPortfolio.Library.Runs
import PythonPortfolio.Hyperion.Wal

/-!
# What the log keeps

A write appends its frame behind the cursor of the current segment, after at most
one rotation. Rotation and restart name the new segment by the millisecond clock
alone and open it with the cursor at zero, so the bytes of earlier packets stay
where they are as long as no reading names a file that already holds one.
-/

namespace PythonPortfolio.Hyperion

open Library Library.BigEndian

namespace Content

@[simp] theorem length_read (c : Content) (offset size : Nat) :
    (c.read offset size).length = size := by
  simp [read]

theorem getElem_read (c : Content) (offset size i : Nat) (h : i < (c.read offset size).length) :
    (c.read offset size)[i] = c (offset + i) := by
  simp [read]

theorem read_congr {c c' : Content} {offset size : Nat}
    (h : ∀ i, offset ≤ i → i < offset + size → c i = c' i) :
    c.read offset size = c'.read offset size := by
  refine List.map_congr_left fun i hi => ?_
  rw [List.mem_range'_1] at hi
  exact h i hi.1 hi.2

theorem read_write_self (c : Content) (offset : Nat) (packet : Bytes) :
    (c.write offset packet).read offset packet.length = packet := by
  refine List.ext_getElem (by simp) fun i hi hi' => ?_
  rw [getElem_read, write, if_pos (by omega), Nat.add_sub_cancel_left]
  simp [List.getD, hi']

theorem read_write_of_le (c : Content) {offset offset' size : Nat} (packet : Bytes)
    (h : offset + size ≤ offset') : (c.write offset' packet).read offset size =
      c.read offset size :=
  read_congr fun i _ hi => by
    rw [write, if_neg]
    omega

end Content

theorem Files.content_set (files : Files) (name name' : String) (c : Content) :
    Files.content (files.set name c) name' = if name' = name then c else files.content name' := by
  unfold Files.content
  rw [Dict.get?_set]
  split <;> rfl

namespace WalManager

/-- The manager after a rotation or restart that succeeds. -/
def opened (files : Files) (now : Int) (history : List String) : WalManager :=
  ⟨files.set (segmentName now) ((files.content (segmentName now)).truncate segmentSize),
    ⟨segmentName now, 0, false⟩, history ++ [segmentName now]⟩

/-- The manager after an append that succeeds. -/
def appended (m : WalManager) (packet : Bytes) : WalManager :=
  ⟨m.files.set m.currentSegment.path
      ((m.files.content m.currentSegment.path).write m.currentSegment.writeCursor packet),
    { m.currentSegment with writeCursor := m.currentSegment.writeCursor + packet.length },
    m.segmentsHistory⟩

theorem init_ok (files : Files) (now : Int) :
    (init files now none).1 = .ok (opened files now []) := rfl

theorem rotateSegment_ok {m : WalManager} (h : m.currentSegment.closed = false) (now : Int) :
    m.rotateSegment now none = (.ok (), opened m.files now m.segmentsHistory) := by
  simp only [rotateSegment, WalSegment.sync, h]
  rfl

theorem append_ok {m : WalManager} {packet : Bytes} (h : m.currentSegment.closed = false)
    (hfit : m.currentSegment.writeCursor + packet.length ≤ segmentSize) :
    m.append packet = (.ok m.currentSegment.writeCursor, m.appended packet) := by
  simp only [append, WalSegment.append, if_neg (not_lt.mpr hfit), h, Bool.false_eq_true, if_false,
    appended]

theorem append_full {m : WalManager} {packet : Bytes}
    (hfull : segmentSize < m.currentSegment.writeCursor + packet.length) :
    ∃ message, m.append packet = (.error (.segmentFull message), m) := by
  simp only [append, WalSegment.append, if_pos hfull]
  exact ⟨_, rfl⟩

/-- On a new segment there is nothing before the packet. -/
theorem append_opened (files : Files) (now : Int) (history : List String) {packet : Bytes}
    (hsize : packet.length ≤ segmentSize) :
    (opened files now history).append packet =
      (.ok 0, (opened files now history).appended packet) :=
  append_ok rfl (by show 0 + packet.length ≤ segmentSize; omega)

theorem append_opened_full (files : Files) (now : Int) (history : List String) {packet : Bytes}
    (hsize : segmentSize < packet.length) : ∃ message,
      (opened files now history).append packet =
        (.error (.segmentFull message), opened files now history) :=
  append_full (by show segmentSize < 0 + packet.length; omega)

/-- A closed segment takes no append and cannot be rotated. -/
theorem append_closed {m : WalManager} (hc : m.currentSegment.closed = true) {packet : Bytes}
    (hfit : m.currentSegment.writeCursor + packet.length ≤ segmentSize) :
    m.append packet = (.error mmapClosed, m) := by
  simp only [append, WalSegment.append, if_neg (not_lt.mpr hfit), hc, if_true]

theorem rotateSegment_closed {m : WalManager} (hc : m.currentSegment.closed = true) (now : Int)
    (fault : Option OpenFault) : m.rotateSegment now fault = (.error mmapClosed, m) := by
  simp only [rotateSegment, WalSegment.sync, hc, if_true]

/-- The manager after a rotation that could not open the new segment. -/
def stranded (m : WalManager) (now : Int) (fault : OpenFault) : WalManager :=
  { m with
    files := (WalSegment.create m.files (segmentName now) (some fault)).2
    currentSegment := m.currentSegment.close }

theorem rotateSegment_fault {m : WalManager} (h : m.currentSegment.closed = false) (now : Int)
    (fault : OpenFault) :
    m.rotateSegment now (some fault) = (.error (.storageError fault), m.stranded now fault) := by
  cases fault <;> simp only [rotateSegment, WalSegment.sync, h, Bool.false_eq_true, if_false] <;>
    rfl

/-- The outcomes of `write_entry`. -/
inductive WriteOutcome (m : WalManager) (entry : LogEntryMeta) (payload : Bytes) (now : Int)
    (fault : Option OpenFault) : Prop
  | refused (hf : frame entry payload = none)
      (h : m.writeEntry entry payload now fault = (.error .structError, m))
  | closed (packet : Bytes) (hf : frame entry payload = some packet)
      (hc : m.currentSegment.closed = true)
      (h : m.writeEntry entry payload now fault = (.error mmapClosed, m))
  | stored (packet : Bytes) (hf : frame entry payload = some packet)
      (ho : m.currentSegment.closed = false)
      (hfit : m.currentSegment.writeCursor + packet.length ≤ segmentSize)
      (h : m.writeEntry entry payload now fault =
        (.ok m.currentSegment.writeCursor, m.appended packet))
  | stranded (packet : Bytes) (hf : frame entry payload = some packet)
      (ho : m.currentSegment.closed = false)
      (hfull : segmentSize < m.currentSegment.writeCursor + packet.length) (f : OpenFault)
      (hfault : fault = some f)
      (h : m.writeEntry entry payload now fault = (.error (.storageError f), m.stranded now f))
  | rotated (packet : Bytes) (hf : frame entry payload = some packet)
      (ho : m.currentSegment.closed = false)
      (hfull : segmentSize < m.currentSegment.writeCursor + packet.length)
      (hsize : packet.length ≤ segmentSize) (hfault : fault = none)
      (h : m.writeEntry entry payload now fault =
        (.ok 0, (opened m.files now m.segmentsHistory).appended packet))
  | oversized (packet : Bytes) (hf : frame entry payload = some packet)
      (ho : m.currentSegment.closed = false)
      (hfull : segmentSize < m.currentSegment.writeCursor + packet.length)
      (hsize : segmentSize < packet.length) (hfault : fault = none) (message : String)
      (h : m.writeEntry entry payload now fault =
        (.error (.segmentFull message), opened m.files now m.segmentsHistory))

theorem writeEntry_outcome (m : WalManager) (entry : LogEntryMeta) (payload : Bytes) (now : Int)
    (fault : Option OpenFault) : WriteOutcome m entry payload now fault := by
  cases hf : frame entry payload with
  | none => exact .refused hf (by simp only [writeEntry, hf])
  | some packet =>
    cases hc : m.currentSegment.closed with
    | true =>
      refine .closed packet hf hc ?_
      by_cases hfit : m.currentSegment.writeCursor + packet.length ≤ segmentSize
      · simp only [writeEntry, hf, append_closed hc hfit, mmapClosed]
      · obtain ⟨message, hfull⟩ := append_full (not_le.mp hfit)
        simp only [writeEntry, hf, hfull, rotateSegment_closed hc]
    | false =>
      by_cases hfit : m.currentSegment.writeCursor + packet.length ≤ segmentSize
      · exact .stored packet hf hc hfit (by simp only [writeEntry, hf, append_ok hc hfit])
      · have hover := not_le.mp hfit
        obtain ⟨message, hfull⟩ := append_full hover
        cases fault with
        | some f =>
          exact .stranded packet hf hc hover f rfl
            (by simp only [writeEntry, hf, hfull, rotateSegment_fault hc])
        | none =>
          by_cases hsize : packet.length ≤ segmentSize
          · have hnew := append_opened m.files now m.segmentsHistory hsize
            exact .rotated packet hf hc hover hsize rfl
              (by simp only [writeEntry, hf, hfull, rotateSegment_ok hc, hnew])
          · obtain ⟨message', hnew⟩ :=
              append_opened_full m.files now m.segmentsHistory (not_le.mp hsize)
            exact .oversized packet hf hc hover (not_le.mp hsize) rfl message'
              (by simp only [writeEntry, hf, hfull, rotateSegment_ok hc, hnew])

/-- The outcomes of `write_entry` when no file operation fails. -/
inductive WriteCase (m : WalManager) (entry : LogEntryMeta) (payload : Bytes) (now : Int) : Prop
  | refused (hf : frame entry payload = none)
      (h : m.writeEntry entry payload now none = (.error .structError, m))
  | stored (packet : Bytes) (hf : frame entry payload = some packet)
      (hfit : m.currentSegment.writeCursor + packet.length ≤ segmentSize)
      (h : m.writeEntry entry payload now none =
        (.ok m.currentSegment.writeCursor, m.appended packet))
  | rotated (packet : Bytes) (hf : frame entry payload = some packet)
      (hfull : segmentSize < m.currentSegment.writeCursor + packet.length)
      (hsize : packet.length ≤ segmentSize)
      (h : m.writeEntry entry payload now none =
        (.ok 0, (opened m.files now m.segmentsHistory).appended packet))
  | oversized (packet : Bytes) (hf : frame entry payload = some packet)
      (hsize : segmentSize < packet.length) (message : String)
      (h : m.writeEntry entry payload now none =
        (.error (.segmentFull message), opened m.files now m.segmentsHistory))

theorem writeEntry_cases {m : WalManager} (ho : m.currentSegment.closed = false)
    (entry : LogEntryMeta) (payload : Bytes) (now : Int) : WriteCase m entry payload now := by
  cases m.writeEntry_outcome entry payload now none with
  | refused hf h => exact .refused hf h
  | closed packet hf hc h =>
    rw [ho] at hc
    cases hc
  | stored packet hf _ hfit h => exact .stored packet hf hfit h
  | stranded packet hf _ _ f hfault h => cases hfault
  | rotated packet hf _ hfull hsize _ h => exact .rotated packet hf hfull hsize h
  | oversized packet hf _ _ hsize _ message h => exact .oversized packet hf hsize message h

end WalManager

/-! ## Runs -/

inductive WalEvent where
  | write (entry : LogEntryMeta) (payload : Bytes) (now : Int)
  | restart (now : Int)

/-- One manager after another on one directory; no file operation fails. -/
def walMachine : Machine WalManager WalEvent where
  start m := ∃ files now, (WalManager.init files now none).1 = .ok m
  step
    | m, .write entry payload now => some (m.writeEntry entry payload now none).2
    | m, .restart now => (WalManager.init m.files now none).1.toOption

theorem walMachine_write (m : WalManager) (entry : LogEntryMeta) (payload : Bytes) (now : Int) :
    walMachine.step m (.write entry payload now) =
      some (m.writeEntry entry payload now none).2 := rfl

theorem walMachine_restart (m : WalManager) (now : Int) :
    walMachine.step m (.restart now) = some (.opened m.files now []) := rfl

abbrev WalStep := Transition WalManager WalEvent

/-- A packet, and where `write_entry` said it went. -/
structure Stored where
  path : String
  offset : Nat
  packet : Bytes

def WalStep.stored (t : WalStep) : Option Stored :=
  match t.event with
  | .write entry payload now =>
    match frame entry payload, (t.pre.writeEntry entry payload now none).1 with
    | some packet, .ok offset => some ⟨t.post.currentSegment.path, offset, packet⟩
    | _, _ => none
  | .restart _ => none

theorem WalStep.stored_ok {m m' : WalManager} {entry : LogEntryMeta} {payload packet : Bytes}
    {now : Int} {offset : Nat} (hf : frame entry payload = some packet)
    (hw : m.writeEntry entry payload now none = (.ok offset, m')) :
    WalStep.stored ⟨m, .write entry payload now, m'⟩ =
      some ⟨m'.currentSegment.path, offset, packet⟩ := by
  simp only [WalStep.stored, hf, hw]

theorem WalStep.stored_error {m m' : WalManager} {entry : LogEntryMeta} {payload : Bytes}
    {now : Int} {e : WalError} (hw : m.writeEntry entry payload now none = (.error e, m')) :
    WalStep.stored ⟨m, .write entry payload now, m'⟩ = none := by
  simp only [WalStep.stored, hw]
  cases frame entry payload <;> rfl

/-- The packet is in the file where it was written. -/
def Stored.Intact (x : Stored) (files : Files) : Prop :=
  (files.content x.path).read x.offset x.packet.length = x.packet

/-- The file an event opens: a restart always opens one, a write when its frame
does not fit behind the cursor. -/
def WalEvent.opens (m : WalManager) : WalEvent → Option String
  | .restart now => some (segmentName now)
  | .write entry payload now =>
    match frame entry payload with
    | none => none
    | some packet =>
      if segmentSize < m.currentSegment.writeCursor + packet.length then some (segmentName now)
      else none

/-- No reading of the clock names a file that already holds a packet. -/
def FreshNames (trace : List WalStep) : Prop :=
  ∀ before t after, trace = before ++ t :: after → ∀ name, t.event.opens t.pre = some name →
    ∀ x ∈ before.filterMap WalStep.stored, x.path ≠ name

/-- The invariant of the log, for the packets stored so far. -/
structure Kept (xs : List Stored) (m : WalManager) : Prop where
  isOpen : m.currentSegment.closed = false
  intact : ∀ x ∈ xs, x.Intact m.files ∧ x.offset + x.packet.length ≤ segmentSize
  behind : ∀ x ∈ xs, x.path = m.currentSegment.path →
    x.offset + x.packet.length ≤ m.currentSegment.writeCursor

namespace Kept

variable {xs : List Stored} {m : WalManager}

/-- Opening a file without packets moves no byte of a packet. -/
theorem opened (h : Kept xs m) {now : Int} (hfresh : ∀ x ∈ xs, x.path ≠ segmentName now)
    (history : List String) : Kept xs (WalManager.opened m.files now history) where
  isOpen := rfl
  intact x hx := by
    obtain ⟨hread, hle⟩ := h.intact x hx
    refine ⟨?_, hle⟩
    show (Files.content (Dict.set _ _ _) _).read _ _ = _
    rw [Files.content_set, if_neg (hfresh x hx)]
    exact hread
  behind x hx hpath := absurd hpath (hfresh x hx)

/-- Appending behind the cursor moves no byte of a packet. -/
theorem appended (h : Kept xs m) {packet : Bytes}
    (hfit : m.currentSegment.writeCursor + packet.length ≤ segmentSize) :
    Kept (xs ++ [⟨m.currentSegment.path, m.currentSegment.writeCursor, packet⟩])
      (m.appended packet) where
  isOpen := h.isOpen
  intact x hx := by
    unfold Stored.Intact
    show (Files.content (Dict.set _ _ _) _).read _ _ = _ ∧ _
    rw [Files.content_set]
    rcases mem_concat.mp hx with hx | rfl
    · obtain ⟨hread, hle⟩ := h.intact x hx
      refine ⟨?_, hle⟩
      by_cases hpath : x.path = m.currentSegment.path
      · rw [if_pos hpath, Content.read_write_of_le _ packet (h.behind x hx hpath), ← hpath]
        exact hread
      · rw [if_neg hpath]
        exact hread
    · exact ⟨by rw [if_pos rfl, Content.read_write_self], hfit⟩
  behind x hx hpath := by
    show _ ≤ m.currentSegment.writeCursor + packet.length
    rcases mem_concat.mp hx with hx | rfl
    · have := h.behind x hx hpath
      omega
    · exact le_refl _

/-- One event keeps the packets stored before it and the one it stores. -/
theorem step {m' : WalManager} {e : WalEvent} (h : Kept xs m)
    (hs : walMachine.step m e = some m')
    (hfresh : ∀ name, e.opens m = some name → ∀ x ∈ xs, x.path ≠ name) :
    Kept (xs ++ (WalStep.stored ⟨m, e, m'⟩).toList) m' := by
  cases e with
  | write entry payload now =>
    obtain rfl : (m.writeEntry entry payload now none).2 = m' := Option.some.inj hs
    have hopens : ∀ packet, frame entry payload = some packet →
        segmentSize < m.currentSegment.writeCursor + packet.length →
        ∀ x ∈ xs, x.path ≠ segmentName now := fun packet hf hfull =>
      hfresh _ (by simp only [WalEvent.opens, hf, if_pos hfull])
    cases WalManager.writeEntry_cases h.isOpen entry payload now with
    | refused hf hw =>
      rw [hw, WalStep.stored_error hw]
      simpa using h
    | stored packet hf hfit hw =>
      rw [hw, WalStep.stored_ok hf hw]
      exact h.appended hfit
    | rotated packet hf hfull hsize hw =>
      rw [hw, WalStep.stored_ok hf hw]
      refine (h.opened (hopens packet hf hfull) m.segmentsHistory).appended ?_
      show 0 + packet.length ≤ segmentSize
      omega
    | oversized packet hf hsize message hw =>
      rw [hw, WalStep.stored_error hw]
      simpa using h.opened (hopens packet hf (by omega)) m.segmentsHistory
  | restart now =>
    obtain rfl : WalManager.opened m.files now [] = m' := Option.some.inj hs
    simpa [WalStep.stored] using h.opened (hfresh _ rfl) []

end Kept

theorem freshNames_nil : FreshNames [] := by
  intro before t after heq
  simp at heq

theorem freshNames_concat {trace : List WalStep} {t : WalStep} :
    FreshNames (trace ++ [t]) ↔ FreshNames trace ∧ ∀ name, t.event.opens t.pre = some name →
      ∀ x ∈ trace.filterMap WalStep.stored, x.path ≠ name := by
  constructor
  · intro h
    exact ⟨fun before u after heq => h before u (after ++ [t]) (by rw [heq]; simp),
      h trace t [] rfl⟩
  · rintro ⟨hold, hnew⟩ before u after heq
    rcases List.eq_nil_or_concat after with rfl | ⟨after', last, rfl⟩
    · obtain ⟨rfl, hu⟩ := List.append_inj' heq rfl
      obtain rfl := (List.cons.inj hu).1
      exact hnew
    · have heq' : trace ++ [t] = (before ++ u :: after') ++ [last] := by simpa using heq
      exact hold before u after' (List.append_inj' heq' rfl).1

theorem kept_run {m₀ m : WalManager} {trace : List WalStep} (h : walMachine.Run m₀ trace m)
    (hfresh : FreshNames trace) : Kept (trace.filterMap WalStep.stored) m := by
  induction h with
  | init hstart =>
    obtain ⟨files, now, hm⟩ := hstart
    obtain rfl := Except.ok.inj ((WalManager.init_ok files now).symm.trans hm)
    exact ⟨rfl, by simp, by simp⟩
  | next hrun hs ih =>
    obtain ⟨hold, hnew⟩ := freshNames_concat.mp hfresh
    rw [filterMap_concat]
    exact (ih hold).step hs hnew

/-- In every run the current segment is open. -/
theorem open_run {m₀ m : WalManager} {trace : List WalStep} (h : walMachine.Run m₀ trace m) :
    m.currentSegment.closed = false := by
  refine h.state_invariant (P := fun m => m.currentSegment.closed = false) ?_ ?_
  · rintro _ ⟨files, now, hm⟩
    obtain rfl := Except.ok.inj ((WalManager.init_ok files now).symm.trans hm)
    rfl
  · intro m e m' ho hs
    cases e with
    | write entry payload now =>
      obtain rfl : (m.writeEntry entry payload now none).2 = m' := Option.some.inj hs
      cases WalManager.writeEntry_cases ho entry payload now with
      | refused _ hw => rwa [hw]
      | stored packet _ _ hw => rwa [hw]
      | rotated packet _ _ _ hw => rw [hw]; rfl
      | oversized packet _ _ _ hw => rw [hw]; rfl
    | restart now =>
      obtain rfl : WalManager.opened m.files now [] = m' := Option.some.inj hs
      rfl

/-- Every write of a packet that a segment can hold succeeds after at most one
rotation. -/
theorem write_succeeds {m : WalManager} (ho : m.currentSegment.closed = false)
    {entry : LogEntryMeta} {payload packet : Bytes} (now : Int)
    (hf : frame entry payload = some packet) (hsize : packet.length ≤ segmentSize) :
    (∃ offset, (m.writeEntry entry payload now none).1 = .ok offset) ∧
      (m.writeEntry entry payload now none).2.segmentsHistory.length ≤
        m.segmentsHistory.length + 1 := by
  cases WalManager.writeEntry_cases ho entry payload now with
  | refused hnone =>
    rw [hnone] at hf
    cases hf
  | stored _ _ _ hw =>
    rw [hw]
    exact ⟨⟨_, rfl⟩, Nat.le_succ _⟩
  | rotated _ _ _ _ hw =>
    rw [hw]
    exact ⟨⟨_, rfl⟩, by simp [WalManager.appended, WalManager.opened]⟩
  | oversized packet' hf' hsize' =>
    rw [hf] at hf'
    cases hf'
    omega

/-- What an append-only log promises over a run. -/
def AppendOnly (trace : List WalStep) (m : WalManager) : Prop :=
  (∀ t ∈ trace, ∀ entry payload now packet, t.event = .write entry payload now →
    frame entry payload = some packet → packet.length ≤ segmentSize →
      (∃ offset, (t.pre.writeEntry entry payload now none).1 = .ok offset) ∧
        t.post.segmentsHistory.length ≤ t.pre.segmentsHistory.length + 1) ∧
  ∀ x ∈ trace.filterMap WalStep.stored, x.Intact m.files

/-- The log is append-only in every run in which each rotation and restart reads
a millisecond that names no file with packets. -/
theorem append_only {m₀ m : WalManager} {trace : List WalStep} (h : walMachine.Run m₀ trace m)
    (hfresh : FreshNames trace) : AppendOnly trace m := by
  refine ⟨fun t ht entry payload now packet he hf hsize => ?_,
    fun x hx => ((kept_run h hfresh).intact x hx).1⟩
  obtain ⟨before, after, rfl⟩ := List.append_of_mem ht
  obtain ⟨hrun, hstep⟩ := h.split
  rw [he] at hstep
  have hpost : (t.pre.writeEntry entry payload now none).2 = t.post := Option.some.inj hstep
  rw [← hpost]
  exact write_succeeds (open_run hrun) now hf hsize

/-- The first record of an engine, at clock pattern 0. -/
def firstEntry : LogEntryMeta := ⟨0, 1, 0, 0⟩

theorem frame_firstEntry (b : UInt8) : ∃ metaBytes, firstEntry.pack = some metaBytes ∧
    frame firstEntry [b] = some (toBytes 4 24 ++ toBytes 4 1 ++ metaBytes ++ [b]) := by
  have hpack := LogEntryMeta.pack_eq_some.mpr
    ⟨(by decide : FitsSInt 8 firstEntry.seqId), (by decide : FitsSInt 4 firstEntry.partitionId),
      (by decide : FitsUInt 4 firstEntry.crc32), rfl⟩
  have hlen : [b].length < 256 ^ 4 := by
    rw [List.length_singleton]
    decide
  exact ⟨_, hpack, frame_eq_some.mpr ⟨_, hpack, hlen, rfl⟩⟩

/-- A manager on an empty directory at millisecond `now`. -/
def freshManager (now : Int) : WalManager := .opened .empty now []

theorem freshManager_start (now : Int) : walMachine.start (freshManager now) :=
  ⟨.empty, now, rfl⟩

/-- A write that fits makes one transition, opens no file and stores its packet. -/
theorem fitting_write {m : WalManager} (ho : m.currentSegment.closed = false) {entry : LogEntryMeta}
    {payload packet : Bytes} (now : Int) (hf : frame entry payload = some packet)
    (hfit : m.currentSegment.writeCursor + packet.length ≤ segmentSize) :
    walMachine.step m (.write entry payload now) = some (m.appended packet) ∧
      WalEvent.opens m (.write entry payload now) = none ∧
      WalStep.stored ⟨m, .write entry payload now, m.appended packet⟩ =
        some ⟨m.currentSegment.path, m.currentSegment.writeCursor, packet⟩ := by
  have hw : m.writeEntry entry payload now none =
      (.ok m.currentSegment.writeCursor, m.appended packet) := by
    simp only [WalManager.writeEntry, hf, WalManager.append_ok ho hfit]
  refine ⟨?_, ?_, WalStep.stored_ok hf hw⟩
  · rw [walMachine_write, hw]
  · simp only [WalEvent.opens, hf, if_neg (not_lt.mpr hfit)]

theorem fits_firstEntry {b : UInt8} {packet : Bytes} (hf : frame firstEntry [b] = some packet)
    (now : Int) : (freshManager now).currentSegment.writeCursor + packet.length ≤ segmentSize := by
  rw [length_frame hf, List.length_singleton]
  show 0 + (32 + 1) ≤ 64 * 1024 * 1024
  omega

/-- Restarting in the next millisecond keeps the record of the first manager. -/
theorem append_only_restart :
    ∃ trace m, walMachine.Run (freshManager 0) trace m ∧ AppendOnly trace m ∧
      (trace.filterMap WalStep.stored).length = 1 ∧ m.currentSegment.path = segmentName 1 := by
  obtain ⟨metaBytes, _, hf⟩ := frame_firstEntry 1
  generalize toBytes 4 24 ++ toBytes 4 1 ++ metaBytes ++ [1] = packet at hf
  obtain ⟨hstep, hopens, hstored⟩ := fitting_write rfl 0 hf (fits_firstEntry hf 0)
  have hrun := ((Machine.Run.init (freshManager_start 0)).next hstep).next
    (walMachine_restart _ 1)
  refine ⟨_, _, hrun, append_only hrun ?_, ?_, rfl⟩
  · refine freshNames_concat.mpr ⟨freshNames_concat.mpr ⟨freshNames_nil, ?_⟩, ?_⟩
    · intro name hname
      rw [hopens] at hname
      cases hname
    · intro name hname x hx
      obtain rfl : segmentName 1 = name := Option.some.inj hname
      rw [filterMap_concat, hstored] at hx
      obtain rfl := List.mem_singleton.mp hx
      show segmentName 0 ≠ segmentName 1
      decide
  · rw [filterMap_concat, filterMap_concat, hstored]
    rfl

/-- A restart within the millisecond of the previous start overwrites the log. -/
theorem restart_overwrites : ¬ ∀ (m₀ m : WalManager) (trace : List WalStep),
    walMachine.Run m₀ trace m → AppendOnly trace m := by
  intro hall
  obtain ⟨metaBytes, _, hone⟩ := frame_firstEntry 1
  obtain ⟨metaBytes', _, htwo⟩ := frame_firstEntry 2
  generalize hp : toBytes 4 24 ++ toBytes 4 1 ++ metaBytes ++ [1] = one at hone
  generalize hq : toBytes 4 24 ++ toBytes 4 1 ++ metaBytes' ++ [2] = two at htwo
  obtain ⟨hstep₁, _, hstored₁⟩ := fitting_write rfl 0 hone (fits_firstEntry hone 0)
  have hstep₂ := walMachine_restart ((freshManager 0).appended one) 0
  obtain ⟨hstep₃, _, _⟩ := fitting_write
    (m := WalManager.opened ((freshManager 0).appended one).files 0 []) rfl 0 htwo
    (fits_firstEntry htwo 0)
  have hrun := (((Machine.Run.init (freshManager_start 0)).next hstep₁).next hstep₂).next hstep₃
  have hintact := (hall _ _ _ hrun).2 ⟨segmentName 0, 0, one⟩ (by
    rw [filterMap_concat, filterMap_concat, filterMap_concat, hstored₁]
    simp [freshManager, WalManager.opened])
  -- the file now begins with the second frame
  unfold Stored.Intact at hintact
  have hfile : ∃ c : Content, Files.content ((WalManager.opened
      ((freshManager 0).appended one).files 0 []).appended two).files (segmentName 0) =
        c.write 0 two := by
    show ∃ _, Files.content (Dict.set _ _ _) _ = _
    rw [Files.content_set]
    exact ⟨_, if_pos rfl⟩
  obtain ⟨c, hfile⟩ := hfile
  have hlen : one.length = two.length := by rw [length_frame hone, length_frame htwo]; rfl
  dsimp only at hintact
  rw [hfile, hlen, Content.read_write_self] at hintact
  rw [← hp, ← hq] at hintact
  exact absurd (List.append_inj' hintact rfl).2 (by decide)

end PythonPortfolio.Hyperion
