import PythonPortfolio.Library.SelfDelimiting
import PythonPortfolio.Hyperion.AppendOnly

/-!
# Reading a segment back

The frames in a segment stand one behind the other, without a count and without an
end marker; behind the last one the file is zero. Every frame begins with the
length of its metadata, which is never zero, and with the length of its payload, so
the bytes of the segment can be cut into frames in one way only.
-/

namespace PythonPortfolio.Hyperion

open Library Library.BigEndian

/-! ## Frames -/

theorem LogEntryMeta.pack_inj {a b : LogEntryMeta} {bs : Bytes} (ha : a.pack = some bs)
    (hb : b.pack = some bs) : a = b := by
  obtain ⟨has, hap, hac, rfl⟩ := LogEntryMeta.pack_eq_some.mp ha
  obtain ⟨hbs, hbp, hbc, heq⟩ := LogEntryMeta.pack_eq_some.mp hb
  obtain ⟨heq, hcrc⟩ := List.append_inj' heq (by simp)
  obtain ⟨heq, hpartition⟩ := List.append_inj' heq (by simp)
  obtain ⟨htime, hseq⟩ := List.append_inj' heq (by simp)
  have htime := toBytes_inj a.timestamp.toNat_lt b.timestamp.toNat_lt htime
  have hseq := congrArg unpackSInt hseq
  have hpartition := congrArg unpackSInt hpartition
  have hcrc := congrArg unpackUInt hcrc
  rw [unpackSInt_toBytes has, unpackSInt_toBytes hbs] at hseq
  rw [unpackSInt_toBytes hap, unpackSInt_toBytes hbp] at hpartition
  rw [unpackUInt_toBytes hac, unpackUInt_toBytes hbc] at hcrc
  cases a
  cases b
  simp_all [UInt64.toNat_inj]

/-- What `write_entry` is given. -/
abbrev Record := LogEntryMeta × Bytes

/-- The frame of a record; nothing when the record does not pack. -/
def Record.bytes (x : Record) : Bytes := (frame x.1 x.2).getD []

/-- The fields of the record are in range. -/
def Record.Packs (x : Record) : Prop := (frame x.1 x.2).isSome

theorem Record.bytes_eq {x : Record} (h : x.Packs) : ∃ metaBytes, x.1.pack = some metaBytes ∧
    x.2.length < 256 ^ 4 ∧
    x.bytes = toBytes 4 24 ++ toBytes 4 x.2.length ++ metaBytes ++ x.2 := by
  obtain ⟨packet, hf⟩ := Option.isSome_iff_exists.mp h
  obtain ⟨metaBytes, hm, hlen, rfl⟩ := frame_eq_some.mp hf
  exact ⟨metaBytes, hm, hlen, by rw [Record.bytes, hf]; rfl⟩

/-- The first eight bytes of a frame determine its length. -/
theorem selfDelimiting_frames : SelfDelimiting Record.Packs Record.bytes := by
  refine selfDelimiting_of_header 8 ?_ ?_ ?_
  · intro x hx
    obtain ⟨metaBytes, _, _, heq⟩ := Record.bytes_eq hx
    rw [heq]
    simp only [List.length_append, length_toBytes]
    omega
  · intro x y hx hy htake
    obtain ⟨xmeta, hxm, hxlen, hxeq⟩ := Record.bytes_eq hx
    obtain ⟨ymeta, hym, hylen, hyeq⟩ := Record.bytes_eq hy
    rw [hxeq, hyeq, List.append_assoc _ xmeta, List.append_assoc _ ymeta,
      List.take_left' (by simp), List.take_left' (by simp)] at htake
    have hlen := toBytes_inj hxlen hylen (List.append_cancel_left htake)
    rw [hxeq, hyeq]
    simp only [List.length_append, length_toBytes, LogEntryMeta.length_pack hxm,
      LogEntryMeta.length_pack hym, hlen]
  · intro x y hx hy heq
    obtain ⟨xmeta, hxm, hxlen, hxeq⟩ := Record.bytes_eq hx
    obtain ⟨ymeta, hym, hylen, hyeq⟩ := Record.bytes_eq hy
    rw [hxeq, hyeq, List.append_assoc _ xmeta, List.append_assoc _ ymeta] at heq
    have hbody := (List.append_inj heq (by simp)).2
    obtain ⟨hmeta, hpayload⟩ := List.append_inj hbody
      (by rw [LogEntryMeta.length_pack hxm, LogEntryMeta.length_pack hym])
    rw [hmeta] at hxm
    exact Prod.ext (LogEntryMeta.pack_inj hxm hym) hpayload

/-- A frame begins with a length that is not zero. -/
theorem beginsNone_zeros (n : Nat) :
    BeginsNone Record.Packs Record.bytes (List.replicate n 0) := by
  intro x s hx heq
  obtain ⟨metaBytes, _, _, hbytes⟩ := Record.bytes_eq hx
  have hmem : (24 : UInt8) ∈ List.replicate n 0 := by
    rw [← heq, hbytes]
    have hhead : (24 : UInt8) ∈ toBytes 4 24 := by decide
    simp [hhead]
  exact absurd (List.eq_of_mem_replicate hmem) (by decide)

/-! ## Segments -/

namespace Content

theorem read_append (c : Content) (offset a b : Nat) :
    c.read offset (a + b) = c.read offset a ++ c.read (offset + a) b := by
  rw [read, read, read, ← List.map_append, List.range'_append_1]

theorem read_zeros {c : Content} {offset size : Nat}
    (h : ∀ i, offset ≤ i → i < offset + size → c i = 0) :
    c.read offset size = List.replicate size 0 := by
  refine List.eq_replicate_iff.mpr ⟨by simp, fun b hb => ?_⟩
  obtain ⟨i, hi, rfl⟩ := List.mem_map.mp hb
  rw [List.mem_range'_1] at hi
  exact h i hi.1 hi.2

/-- Reading at the end of what is known to come first. -/
theorem read_of_read_eq {c : Content} {front middle back : Bytes} {offset size : Nat}
    (h : c.read offset size = front ++ middle ++ back) :
    c.read (offset + front.length) middle.length = middle := by
  have hsize : size = front.length + middle.length + back.length := by
    simpa [Nat.add_assoc] using congrArg List.length h
  rw [hsize, read_append, read_append] at h
  have hleft := (List.append_inj h (by simp)).1
  exact (List.append_inj hleft (by simp)).2

end Content

namespace WalManager

/-- The bytes of the current segment. -/
def segmentBytes (m : WalManager) : Bytes :=
  (m.files.content m.currentSegment.path).read 0 segmentSize

/-- The current segment is open and holds nothing. -/
structure Fresh (m : WalManager) : Prop where
  isOpen : m.currentSegment.closed = false
  writeCursor : m.currentSegment.writeCursor = 0
  zeros : ∀ i, i < segmentSize → m.files.content m.currentSegment.path i = 0

theorem fresh_opened {files : Files} {now : Int} (h : files.content (segmentName now) = .zero)
    (history : List String) : (opened files now history).Fresh where
  isOpen := rfl
  writeCursor := rfl
  zeros i _ := by
    show Files.content (Dict.set _ _ _) (segmentName now) i = 0
    rw [Files.content_set, if_pos rfl, h]
    simp [Content.truncate, Content.zero]

/-- Calls of `write_entry`, one after another: each returns its offset, and none
rotates. -/
inductive Stores (m : WalManager) : List Record → List Nat → WalManager → Prop
  | nil : Stores m [] [] m
  | snoc {xs : List Record} {offsets : List Nat} {m₁ m₂ : WalManager} {entry : LogEntryMeta}
      {payload : Bytes} {offset : Nat} {now : Int} {fault : Option OpenFault}
      (h : Stores m xs offsets m₁)
      (hw : m₁.writeEntry entry payload now fault = (.ok offset, m₂))
      (hno : m₂.segmentsHistory = m₁.segmentsHistory) :
      Stores m (xs ++ [(entry, payload)]) (offsets ++ [offset]) m₂

/-- A call that returns without a rotation has appended its frame at the cursor. -/
theorem writeEntry_appends {m m' : WalManager} {entry : LogEntryMeta} {payload : Bytes}
    {now : Int} {fault : Option OpenFault} {offset : Nat}
    (h : m.writeEntry entry payload now fault = (.ok offset, m'))
    (hno : m'.segmentsHistory = m.segmentsHistory) :
    ∃ packet, frame entry payload = some packet ∧
      m.currentSegment.writeCursor + packet.length ≤ segmentSize ∧
      offset = m.currentSegment.writeCursor ∧ m' = m.appended packet := by
  cases m.writeEntry_outcome entry payload now fault with
  | stored packet hf _ hfit hw =>
    obtain ⟨hoffset, hm'⟩ := Prod.mk.inj (h.symm.trans hw)
    exact ⟨packet, hf, hfit, Except.ok.inj hoffset, hm'⟩
  | rotated packet _ _ _ _ _ hw =>
    -- the new segment is in the history
    obtain ⟨_, rfl⟩ := Prod.mk.inj (h.symm.trans hw)
    have hlen := congrArg List.length hno
    simp [appended, opened] at hlen
  | refused _ hw | closed _ _ _ hw | stranded _ _ _ _ _ _ hw | oversized _ _ _ _ _ _ _ hw =>
    rw [hw] at h
    cases h

/-- The invariant of a segment that is filled from the start. -/
structure Filled (xs : List Record) (m : WalManager) : Prop where
  isOpen : m.currentSegment.closed = false
  packs : ∀ x ∈ xs, x.Packs
  within : m.currentSegment.writeCursor ≤ segmentSize
  front : (m.files.content m.currentSegment.path).read 0 m.currentSegment.writeCursor =
    xs.flatMap Record.bytes
  zeros : ∀ i, m.currentSegment.writeCursor ≤ i → i < segmentSize →
    m.files.content m.currentSegment.path i = 0

namespace Filled

variable {xs : List Record} {m : WalManager}

theorem fresh (h : m.Fresh) : Filled [] m where
  isOpen := h.isOpen
  packs x hx := absurd hx List.not_mem_nil
  within := by rw [h.writeCursor]; exact Nat.zero_le _
  front := by rw [h.writeCursor]; rfl
  zeros i _ hi := h.zeros i hi

theorem appended (h : Filled xs m) {entry : LogEntryMeta} {payload packet : Bytes}
    (hf : frame entry payload = some packet)
    (hfit : m.currentSegment.writeCursor + packet.length ≤ segmentSize) :
    Filled (xs ++ [(entry, payload)]) (m.appended packet) := by
  have hcontent : (m.appended packet).files.content (m.appended packet).currentSegment.path =
      (m.files.content m.currentSegment.path).write m.currentSegment.writeCursor packet := by
    show Files.content (Dict.set _ _ _) _ = _
    rw [Files.content_set]
    exact if_pos rfl
  have hcursor : (m.appended packet).currentSegment.writeCursor =
      m.currentSegment.writeCursor + packet.length := rfl
  refine ⟨h.isOpen, fun x hx => ?_, hfit, ?_, fun i hi hlt => ?_⟩
  · rcases mem_concat.mp hx with hx | rfl
    · exact h.packs x hx
    · exact Option.isSome_iff_exists.mpr ⟨packet, hf⟩
  · have hbytes : Record.bytes (entry, payload) = packet := by rw [Record.bytes, hf]; rfl
    rw [hcontent, hcursor, Content.read_append, Nat.zero_add, Content.read_write_self,
      Content.read_write_of_le _ packet (Nat.zero_add _).le, h.front, List.flatMap_append,
      List.flatMap_singleton, hbytes]
  · rw [hcursor] at hi
    rw [hcontent, Content.write, if_neg (by omega)]
    exact h.zeros i (by omega) hlt

/-- The whole segment: the frames, and zeros behind them. -/
theorem segmentBytes (h : Filled xs m) : m.segmentBytes =
    xs.flatMap Record.bytes ++ List.replicate (segmentSize - m.currentSegment.writeCursor) 0 := by
  have hsize : segmentSize = m.currentSegment.writeCursor +
      (segmentSize - m.currentSegment.writeCursor) := by
    have := h.within
    omega
  have hzeros : (m.files.content m.currentSegment.path).read m.currentSegment.writeCursor
      (segmentSize - m.currentSegment.writeCursor) = List.replicate _ 0 :=
    Content.read_zeros fun i hi hlt => h.zeros i hi (hlt.trans_eq hsize.symm)
  unfold WalManager.segmentBytes
  nth_rewrite 1 [hsize]
  rw [Content.read_append, Nat.zero_add, h.front, hzeros]

theorem writeCursor (h : Filled xs m) :
    m.currentSegment.writeCursor = (xs.flatMap Record.bytes).length := by
  rw [← h.front, Content.length_read]

/-- A frame stands behind the frames before it. -/
theorem readAt (h : Filled xs m) {before after : List Record} {x : Record}
    (heq : xs = before ++ x :: after) :
    m.currentSegment.readAt m.files (before.flatMap Record.bytes).length x.bytes.length =
      .ok x.bytes := by
  have hfront := h.front
  rw [heq, List.flatMap_append, List.flatMap_cons, ← List.append_assoc] at hfront
  have hread := Content.read_of_read_eq hfront
  rw [Nat.zero_add] at hread
  have hwithin := h.within
  rw [h.writeCursor, heq, List.flatMap_append, List.flatMap_cons, List.length_append,
    List.length_append] at hwithin
  rw [WalSegment.readAt, if_neg (by omega), h.isOpen, hread]
  rfl

end Filled

theorem Stores.filled {m m' : WalManager} {xs : List Record} {offsets : List Nat}
    (h : Stores m xs offsets m') (hm : m.Fresh) : Filled xs m' := by
  induction h with
  | nil => exact .fresh hm
  | snoc _ hw hno ih =>
    obtain ⟨packet, hf, hfit, _, rfl⟩ := writeEntry_appends hw hno
    exact ih.appended hf hfit

/-- `write_entry` returns the length of the frames before. -/
theorem Stores.offsets {m m' : WalManager} {xs : List Record} {offsets : List Nat}
    (h : Stores m xs offsets m') (hm : m.Fresh) : offsets.length = xs.length ∧
      ∀ before x after, xs = before ++ x :: after →
        offsets[before.length]? = some (before.flatMap Record.bytes).length := by
  induction h with
  | nil => exact ⟨rfl, by simp⟩
  | snoc h hw hno ih =>
    obtain ⟨hlength, hoffsets⟩ := ih
    have hfilled := h.filled hm
    obtain ⟨packet, _, _, rfl, _⟩ := writeEntry_appends hw hno
    refine ⟨by simp [hlength], fun before x after heq => ?_⟩
    rcases List.eq_nil_or_concat' after with rfl | ⟨after', last, rfl⟩
    · obtain ⟨rfl, _⟩ := List.append_inj' heq rfl
      rw [← hlength, List.getElem?_concat_length, hfilled.writeCursor]
    · have heq' := heq.trans (by simp : _ = (before ++ x :: after') ++ [last])
      obtain ⟨rfl, _⟩ := List.append_inj' heq' rfl
      have hold := hoffsets before x after' rfl
      rw [List.getElem?_append_left (List.getElem?_eq_some_iff.mp hold).1, hold]

/-- A fresh segment takes every list of records whose frames fit. -/
theorem stores_of_fits {m : WalManager} (hm : m.Fresh) {xs : List Record}
    (hpacks : ∀ x ∈ xs, x.Packs) (hfit : (xs.flatMap Record.bytes).length ≤ segmentSize) :
    ∃ offsets m', Stores m xs offsets m' := by
  induction xs using List.reverseRecOn with
  | nil => exact ⟨[], m, .nil⟩
  | append_singleton xs x ih =>
    rw [List.flatMap_append, List.flatMap_singleton, List.length_append] at hfit
    obtain ⟨offsets, m₁, hs⟩ := ih (fun y hy => hpacks y (List.mem_append_left _ hy)) (by omega)
    have hfilled := hs.filled hm
    obtain ⟨packet, hf⟩ := Option.isSome_iff_exists.mp (hpacks x (by simp))
    have hbytes : x.bytes = packet := by rw [Record.bytes, hf]; rfl
    rw [← hfilled.writeCursor, hbytes] at hfit
    have hw : m₁.writeEntry x.1 x.2 0 none =
        (.ok m₁.currentSegment.writeCursor, m₁.appended packet) := by
      simp only [writeEntry, hf, append_ok hfilled.isOpen hfit]
    exact ⟨_, _, .snoc hs hw rfl⟩

/-- Two fresh segments with the same bytes were filled with the same records; each
record lies at the total length of the frames before it, and is read back there. -/
theorem segment_records {m n m' n' : WalManager} {xs ys : List Record}
    {offsets offsets' : List Nat} (hm : m.Fresh) (hn : n.Fresh) (hxs : Stores m xs offsets m')
    (hys : Stores n ys offsets' n') :
    (m'.segmentBytes = n'.segmentBytes → xs = ys) ∧
    ∀ before x after, xs = before ++ x :: after → ∃ packet, frame x.1 x.2 = some packet ∧
      offsets[before.length]? = some (before.flatMap Record.bytes).length ∧
      m'.currentSegment.readAt m'.files (before.flatMap Record.bytes).length packet.length =
        .ok packet := by
  have hx := hxs.filled hm
  have hy := hys.filled hn
  refine ⟨fun heq => ?_, fun before x after hsplit => ?_⟩
  · rw [hx.segmentBytes, hy.segmentBytes] at heq
    exact (selfDelimiting_frames.flatMap_inj hx.packs hy.packs (beginsNone_zeros _)
      (beginsNone_zeros _) heq).1
  · obtain ⟨packet, hf⟩ := Option.isSome_iff_exists.mp (hx.packs x (by simp [hsplit]))
    have hbytes : x.bytes = packet := by rw [Record.bytes, hf]; rfl
    have hread := hx.readAt hsplit
    rw [hbytes] at hread
    exact ⟨packet, hf, (hxs.offsets hm).2 before x after hsplit, hread⟩

/-- A record with an empty payload behind another one. -/
theorem segment_records_sample : ∃ offsets m' packet,
    Stores (freshManager 0) [(firstEntry, [1]), (firstEntry, [])] offsets m' ∧
    frame firstEntry [] = some packet ∧ offsets[1]? = some 33 ∧
    m'.currentSegment.readAt m'.files 33 packet.length = .ok packet := by
  have hfresh : (freshManager 0).Fresh := fresh_opened rfl []
  have hpacks : ∀ x ∈ [(firstEntry, [1]), (firstEntry, [])], Record.Packs x := by
    simp only [Record.Packs]
    decide
  obtain ⟨offsets, m', hs⟩ := stores_of_fits hfresh hpacks (by decide +kernel)
  obtain ⟨packet, hf, hoffset, hread⟩ :=
    (segment_records hfresh hfresh hs hs).2 [(firstEntry, [1])] (firstEntry, []) [] rfl
  have hlength : ([(firstEntry, [1])].flatMap Record.bytes).length = 33 := by decide +kernel
  rw [hlength] at hoffset hread
  exact ⟨offsets, m', packet, hs, hf, hoffset, hread⟩

end WalManager

end PythonPortfolio.Hyperion
