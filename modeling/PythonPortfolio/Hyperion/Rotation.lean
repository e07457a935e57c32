import PythonPortfolio.Hyperion.Recovery

/-!
# Rotations that fail

`_rotate_segment` closes the old segment before it opens the new one. When the
new one cannot be opened, `current_segment` stays the closed one: its mapping
takes no append, and the next rotation already fails in syncing it. The log never
takes a write again.
-/

namespace PythonPortfolio.Hyperion

open Library Library.BigEndian

/-- `m'` can go on where `m` stood: its segment is open, and it is the same file
with the same cursor and the same bytes. -/
structure Resumes (m m' : WalManager) : Prop where
  isOpen : m'.currentSegment.closed = false
  path : m'.currentSegment.path = m.currentSegment.path
  cursor : m'.currentSegment.writeCursor = m.currentSegment.writeCursor
  bytes : ∀ i < segmentSize,
    m'.files.content m.currentSegment.path i = m.files.content m.currentSegment.path i

/-- The call needs a rotation, and a file operation of the rotation fails. -/
def RotationFails (m : WalManager) (entry : LogEntryMeta) (payload : Bytes)
    (fault : Option OpenFault) : Prop :=
  m.currentSegment.closed = false ∧ fault ≠ none ∧ ∃ packet, frame entry payload = some packet ∧
    segmentSize < m.currentSegment.writeCursor + packet.length

namespace WalManager

variable {m : WalManager} {entry : LogEntryMeta} {payload packet : Bytes}

/-- The log takes a frame exactly when a segment can hold it, the current segment is
open, and no rotation is needed that fails. -/
theorem writeEntry_ok_iff (hf : frame entry payload = some packet) (now : Int)
    (fault : Option OpenFault) :
    (∃ offset, (m.writeEntry entry payload now fault).1 = .ok offset) ↔
      packet.length ≤ segmentSize ∧ m.currentSegment.closed = false ∧
        (m.currentSegment.writeCursor + packet.length ≤ segmentSize ∨ fault = none) := by
  cases m.writeEntry_outcome entry payload now fault with
  | refused hnone =>
    rw [hf] at hnone
    cases hnone
  | closed _ _ hc h =>
    rw [h, hc]
    simp
  | stored packet' hf' ho hfit h =>
    obtain rfl := Option.some.inj (hf.symm.trans hf')
    rw [h]
    exact iff_of_true ⟨_, rfl⟩ ⟨by omega, ho, Or.inl hfit⟩
  | stranded packet' hf' _ hfull f hfault h =>
    obtain rfl := Option.some.inj (hf.symm.trans hf')
    rw [h, hfault]
    simp [hfull]
  | rotated packet' hf' ho _ hsize hfault h =>
    obtain rfl := Option.some.inj (hf.symm.trans hf')
    rw [h]
    exact iff_of_true ⟨_, rfl⟩ ⟨hsize, ho, Or.inr hfault⟩
  | oversized packet' hf' _ _ hsize _ message h =>
    obtain rfl := Option.some.inj (hf.symm.trans hf')
    rw [h]
    refine iff_of_false (by simp) fun hx => ?_
    have := hx.1
    omega

/-- A rotation that fails leaves the segment closed. -/
theorem writeEntry_rotationFails {fault : Option OpenFault}
    (h : RotationFails m entry payload fault) (now : Int) :
    ∃ f, (m.writeEntry entry payload now fault).1 = .error (.storageError f) ∧
      (m.writeEntry entry payload now fault).2.currentSegment = m.currentSegment.close := by
  obtain ⟨hopen, hfault, packet, hf, hover⟩ := h
  cases m.writeEntry_outcome entry payload now fault with
  | refused hnone =>
    rw [hf] at hnone
    cases hnone
  | closed _ _ hc =>
    rw [hopen] at hc
    cases hc
  | stored packet' hf' _ hfit =>
    obtain rfl := Option.some.inj (hf.symm.trans hf')
    omega
  | stranded _ _ _ _ f _ h =>
    rw [h]
    exact ⟨f, rfl, rfl⟩
  | rotated _ _ _ _ _ hnone | oversized _ _ _ _ _ hnone => exact absurd hnone hfault

/-- Nothing else raises `StorageError` for a file operation. -/
theorem rotationFails_of_storageError {fault : Option OpenFault} {now : Int} {f : OpenFault}
    (h : (m.writeEntry entry payload now fault).1 = .error (.storageError f)) :
    RotationFails m entry payload fault := by
  cases m.writeEntry_outcome entry payload now fault with
  | stranded packet hf ho hfull f' hfault _ => exact ⟨ho, by simp [hfault], packet, hf, hfull⟩
  | refused _ hw | closed _ _ _ hw | stored _ _ _ _ hw | rotated _ _ _ _ _ _ hw
  | oversized _ _ _ _ _ _ _ hw =>
    rw [hw] at h
    cases h

end WalManager

/-- A call resumes the log after a failed file operation exactly when it meets none:
every rotation that fails closes the log for good. -/
theorem failed_rotation (m : WalManager) (entry : LogEntryMeta) (payload : Bytes) (now : Int)
    (fault : Option OpenFault) :
    (((∃ f, (m.writeEntry entry payload now fault).1 = .error (.storageError f)) →
        Resumes m (m.writeEntry entry payload now fault).2) ↔
      ¬ RotationFails m entry payload fault) ∧
    (RotationFails m entry payload fault → ∀ entry' payload' now' fault', ∃ err,
      (m.writeEntry entry payload now fault).2.writeEntry entry' payload' now' fault' =
        (.error err, (m.writeEntry entry payload now fault).2)) := by
  have hclosed : RotationFails m entry payload fault →
      (m.writeEntry entry payload now fault).2.currentSegment.closed = true := by
    intro h
    obtain ⟨_, _, hseg⟩ := WalManager.writeEntry_rotationFails h now
    rw [hseg]
    rfl
  refine ⟨⟨fun hresumes hfails => ?_, fun hno herr => ?_⟩, fun hfails entry' payload' now' fault' =>
    WalManager.writeEntry_closed (hclosed hfails) entry' payload' now' fault'⟩
  · obtain ⟨f, herr, _⟩ := WalManager.writeEntry_rotationFails hfails now
    have hopen := (hresumes ⟨f, herr⟩).isOpen
    rw [hclosed hfails] at hopen
    cases hopen
  · obtain ⟨f, herr⟩ := herr
    exact absurd (WalManager.rotationFails_of_storageError herr) hno

/-- A payload whose frame fills a segment. -/
def filling : Bytes := List.replicate (segmentSize - 32) 0

theorem frame_filling : ∃ packet, frame firstEntry filling = some packet ∧
    packet.length = segmentSize := by
  have hpack := LogEntryMeta.pack_eq_some.mpr
    ⟨(by decide : FitsSInt 8 firstEntry.seqId), (by decide : FitsSInt 4 firstEntry.partitionId),
      (by decide : FitsUInt 4 firstEntry.crc32), rfl⟩
  have hlen : filling.length = segmentSize - 32 := List.length_replicate
  have hf := frame_eq_some.mpr ⟨_, hpack, by rw [hlen]; decide, rfl⟩
  refine ⟨_, hf, ?_⟩
  rw [length_frame hf, hlen]
  decide

/-- The disk is full when the first segment is. -/
theorem disk_full_closes_log : ¬ ∀ (m₀ m : WalManager) (trace : List WalStep),
    walMachine.Run m₀ trace m → ∀ entry payload now fault f,
      (m.writeEntry entry payload now fault).1 = .error (.storageError f) →
        Resumes m (m.writeEntry entry payload now fault).2 := by
  intro hall
  obtain ⟨packet, hf, hlen⟩ := frame_filling
  have hfit : (freshManager 0).currentSegment.writeCursor + packet.length ≤ segmentSize := by
    rw [hlen]
    exact (Nat.zero_add _).le
  obtain ⟨hstep, _, _⟩ := fitting_write rfl 0 hf hfit
  have hrun := (Machine.Run.init (freshManager_start 0)).next hstep
  have hfails : RotationFails ((freshManager 0).appended packet) firstEntry filling
      (some .ftruncate) := by
    refine ⟨rfl, by simp, packet, hf, ?_⟩
    show segmentSize < 0 + packet.length + packet.length
    rw [hlen]
    decide
  obtain ⟨f, herr, hseg⟩ := WalManager.writeEntry_rotationFails hfails 1
  have hopen := (hall _ _ _ hrun firstEntry filling 1 _ f herr).isOpen
  rw [hseg] at hopen
  cases hopen

end PythonPortfolio.Hyperion
