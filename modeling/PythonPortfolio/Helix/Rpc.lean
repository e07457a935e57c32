import PythonPortfolio.Library.BigEndian

/-!
# The Helix packet format

A datagram is a nineteen-byte header, `!2sBQI I`, followed by the payload. Packing
raises `struct.error` on a field outside its code's range; unpacking returns
`None` on every format error. Terms and identifiers are Python integers, so the
range checks are part of the model.
-/

namespace PythonPortfolio.Helix

open Library.BigEndian

inductive MessageType where
  | voteReq
  | voteResp
  | appendReq
  | appendResp
deriving DecidableEq

def MessageType.value : MessageType → Int
  | .voteReq => 1
  | .voteResp => 2
  | .appendReq => 3
  | .appendResp => 4

/-- `MessageType(value)`, with `none` for its `ValueError`. -/
def MessageType.ofValue (value : Int) : Option MessageType :=
  if value = 1 then some .voteReq
  else if value = 2 then some .voteResp
  else if value = 3 then some .appendReq
  else if value = 4 then some .appendResp
  else none

structure Packet where
  msgType : MessageType
  term : Int
  srcId : Int
  payload : Bytes
deriving DecidableEq

namespace Packet

/-- `b"HX"`. -/
def magic : Bytes := [0x48, 0x58]

/-- `struct.calcsize("!2sBQI I")`. -/
def headerSize : Nat := 19

def pack (p : Packet) : Option Bytes := do
  let mtype ← packUInt 1 p.msgType.value
  let term ← packUInt 8 p.term
  let srcId ← packUInt 4 p.srcId
  let length ← packUInt 4 p.payload.length
  some (magic ++ mtype ++ term ++ srcId ++ length ++ p.payload)

def unpack (data : Bytes) : Option Packet :=
  if data.length < headerSize then none
  else
    let mtype := unpackUInt ((data.drop 2).take 1)
    let term := unpackUInt ((data.drop 3).take 8)
    let srcId := unpackUInt ((data.drop 11).take 4)
    let length := ofBytes ((data.drop 15).take 4)
    if data.take 2 ≠ magic then none
    else if data.length < headerSize + length then none
    else
      match MessageType.ofValue mtype with
      | none => none
      | some msgType => some ⟨msgType, term, srcId, (data.drop headerSize).take length⟩

end Packet

@[simp] theorem MessageType.ofValue_value (m : MessageType) :
    MessageType.ofValue m.value = some m := by
  cases m <;> rfl

theorem MessageType.packUInt_value (m : MessageType) :
    packUInt 1 m.value = some [UInt8.ofNat m.value.toNat] := by
  cases m <;> rfl

namespace Packet

/-- A packet packs exactly when its three integers fit their codes. -/
theorem pack_eq_some {p : Packet} {data : Bytes} :
    p.pack = some data ↔ FitsUInt 8 p.term ∧ FitsUInt 4 p.srcId ∧ FitsUInt 4 p.payload.length ∧
      data = magic ++ [UInt8.ofNat p.msgType.value.toNat] ++ toBytes 8 p.term.toNat ++
        toBytes 4 p.srcId.toNat ++ toBytes 4 p.payload.length ++ p.payload := by
  unfold pack
  simp only [Option.bind_eq_bind, Option.bind_eq_some_iff, Option.some.injEq]
  constructor
  · intro hx
    obtain ⟨mtype, hmtype, _, hterm, _, hsrc, _, hlen, rfl⟩ := hx
    obtain rfl : [UInt8.ofNat p.msgType.value.toNat] = mtype :=
      Option.some.inj ((MessageType.packUInt_value _).symm.trans hmtype)
    obtain ⟨ht, rfl⟩ := packUInt_eq_some.mp hterm
    obtain ⟨hs, rfl⟩ := packUInt_eq_some.mp hsrc
    obtain ⟨hl, rfl⟩ := packUInt_eq_some.mp hlen
    exact ⟨ht, hs, hl, rfl⟩
  · intro hx
    obtain ⟨ht, hs, hl, rfl⟩ := hx
    exact ⟨_, MessageType.packUInt_value _, _, packUInt_eq_some.mpr ⟨ht, rfl⟩,
      _, packUInt_eq_some.mpr ⟨hs, rfl⟩, _, packUInt_eq_some.mpr ⟨hl, rfl⟩, rfl⟩

/-- What `unpack` makes of a datagram whose header fields are already cut out. -/
theorem unpack_fields (m0 m1 k : UInt8) {T S L : Bytes} (hT : T.length = 8) (hS : S.length = 4)
    (hL : L.length = 4) (body : Bytes) :
    unpack (m0 :: m1 :: k :: (T ++ (S ++ (L ++ body)))) =
      if [m0, m1] ≠ magic then none
      else if body.length < ofBytes L then none
      else
        match MessageType.ofValue (unpackUInt [k]) with
        | none => none
        | some msgType => some ⟨msgType, unpackUInt T, unpackUInt S, body.take (ofBytes L)⟩ := by
  have h8 : (T ++ (S ++ (L ++ body))).drop 8 = S ++ (L ++ body) := List.drop_left' hT
  have h12 : (T ++ (S ++ (L ++ body))).drop 12 = L ++ body := by
    rw [← List.append_assoc]
    exact List.drop_left' (by simp [hT, hS])
  have h16 : (T ++ (S ++ (L ++ body))).drop 16 = body := by
    rw [← List.append_assoc, ← List.append_assoc]
    exact List.drop_left' (by simp [hT, hS, hL])
  have hlen : (m0 :: m1 :: k :: (T ++ (S ++ (L ++ body)))).length = 19 + body.length := by
    simp only [List.length_cons, List.length_append, hT, hS, hL]
    omega
  unfold unpack
  rw [hlen]
  simp only [headerSize, List.drop_succ_cons, List.drop_zero, List.take_succ_cons, List.take_zero,
    List.take_left' hT, h8, h12, h16, List.take_left' hS, List.take_left' hL,
    Nat.add_lt_add_iff_left]
  rw [if_neg (by omega)]

/-- Unpacking recovers a packed packet, whatever follows it in the datagram. -/
theorem unpack_pack_append {p : Packet} {data : Bytes} (h : p.pack = some data) (rest : Bytes) :
    unpack (data ++ rest) = some p := by
  obtain ⟨ht, hs, hl, rfl⟩ := pack_eq_some.mp h
  have hmtype : unpackUInt [UInt8.ofNat p.msgType.value.toNat] = p.msgType.value := by
    cases p.msgType <;> rfl
  have hshape : magic ++ [UInt8.ofNat p.msgType.value.toNat] ++ toBytes 8 p.term.toNat ++
      toBytes 4 p.srcId.toNat ++ toBytes 4 p.payload.length ++ p.payload ++ rest =
      0x48 :: 0x58 :: UInt8.ofNat p.msgType.value.toNat :: (toBytes 8 p.term.toNat ++
        (toBytes 4 p.srcId.toNat ++ (toBytes 4 p.payload.length ++ (p.payload ++ rest)))) := by
    simp only [magic, List.append_assoc, List.cons_append, List.nil_append]
  rw [hshape, unpack_fields _ _ _ (length_toBytes _ _) (length_toBytes _ _) (length_toBytes _ _),
    ofBytes_toBytes_of_lt (fitsUInt_natCast.mp hl), unpackUInt_toBytes ht, unpackUInt_toBytes hs,
    hmtype, MessageType.ofValue_value,
    if_neg (fun hne => hne rfl), if_neg (by simp), List.take_left' rfl]

theorem unpack_pack {p : Packet} {data : Bytes} (h : p.pack = some data) :
    unpack data = some p := by
  simpa using unpack_pack_append h []

/-! ## The format read backwards -/

/-- A byte string that is long enough splits at the boundaries of the header. -/
theorem header_split {data : Bytes} (h : headerSize ≤ data.length) :
    ∃ (m0 m1 k : UInt8) (T S L body : Bytes), T.length = 8 ∧ S.length = 4 ∧ L.length = 4 ∧
      data = m0 :: m1 :: k :: (T ++ (S ++ (L ++ body))) := by
  unfold headerSize at h
  match data, h with
  | m0 :: m1 :: k :: rest, h =>
    simp only [List.length_cons] at h
    refine ⟨m0, m1, k, rest.take 8, (rest.drop 8).take 4, (rest.drop 12).take 4, rest.drop 16,
      ?_, ?_, ?_, ?_⟩
    · rw [List.length_take]
      omega
    · rw [List.length_take, List.length_drop]
      omega
    · rw [List.length_take, List.length_drop]
      omega
    · have h16 : (rest.drop 12).take 4 ++ rest.drop 16 = rest.drop 12 := by
        have := List.take_append_drop 4 (rest.drop 12)
        rwa [List.drop_drop] at this
      have h12 : (rest.drop 8).take 4 ++ rest.drop 12 = rest.drop 8 := by
        have := List.take_append_drop 4 (rest.drop 8)
        rwa [List.drop_drop] at this
      rw [h16, h12, List.take_append_drop]

theorem value_of_ofValue {v : Int} {m : MessageType} (h : MessageType.ofValue v = some m) :
    v = m.value := by
  unfold MessageType.ofValue at h
  by_cases h1 : v = 1
  · rw [if_pos h1] at h
    cases h
    exact h1
  · by_cases h2 : v = 2
    · rw [if_neg h1, if_pos h2] at h
      cases h
      exact h2
    · by_cases h3 : v = 3
      · rw [if_neg h1, if_neg h2, if_pos h3] at h
        cases h
        exact h3
      · rw [if_neg h1, if_neg h2, if_neg h3] at h
        obtain ⟨h4, hm⟩ := Option.ite_none_right_eq_some.mp h
        cases hm
        exact h4

/-- A known type byte is the encoding of its type. -/
theorem typeByte_of_ofValue {k : UInt8} {m : MessageType}
    (h : MessageType.ofValue (unpackUInt [k]) = some m) : UInt8.ofNat m.value.toNat = k := by
  have hk : unpackUInt [k] = k.toNat := by simp [unpackUInt, ofBytes]
  have hv := value_of_ofValue h
  have hlt := k.toNat_lt
  apply UInt8.toNat_inj.mp
  rw [UInt8.toNat_ofNat']
  omega

/-- Whatever `unpack` accepts starts with the encoding of the packet it returns. -/
theorem pack_of_unpack {data : Bytes} {p : Packet} (h : unpack data = some p) :
    ∃ bytes rest, p.pack = some bytes ∧ data = bytes ++ rest := by
  have hlen : headerSize ≤ data.length := by
    by_contra hlt
    rw [unpack, if_pos (not_le.mp hlt)] at h
    cases h
  obtain ⟨m0, m1, k, T, S, L, body, hT, hS, hL, rfl⟩ := header_split hlen
  rw [unpack_fields m0 m1 k hT hS hL] at h
  split at h
  · cases h
  · next hmagic =>
    split at h
    · cases h
    · next hbody =>
      split at h
      · cases h
      · next m hm =>
        obtain rfl := Option.some.inj h
        have hpay : (body.take (ofBytes L)).length = ofBytes L := by
          rw [List.length_take]
          omega
        refine ⟨_, body.drop (ofBytes L), pack_eq_some.mpr ⟨?_, ?_, ?_, rfl⟩, ?_⟩
        · exact fitsUInt_natCast.mpr (hT ▸ ofBytes_lt T)
        · exact fitsUInt_natCast.mpr (hS ▸ ofBytes_lt S)
        · exact fitsUInt_natCast.mpr (hpay.symm ▸ (hL ▸ ofBytes_lt L))
        · have hT' : toBytes 8 (ofBytes T) = T := hT ▸ toBytes_ofBytes T
          have hS' : toBytes 4 (ofBytes S) = S := hS ▸ toBytes_ofBytes S
          have hL' : toBytes 4 (ofBytes L) = L := hL ▸ toBytes_ofBytes L
          have hhead : m0 :: m1 :: k :: (T ++ (S ++ (L ++ body))) =
              [m0, m1] ++ [k] ++ T ++ S ++ L ++ body := by simp
          rw [hhead, not_not.mp hmagic]
          simp only [typeByte_of_ofValue hm, hpay, unpackUInt, Int.toNat_natCast, hT', hS', hL',
            List.append_assoc, List.take_append_drop]

/-- The format in both directions: a datagram is unpacked to `p` exactly when it
starts with the encoding of `p`. -/
theorem unpack_eq_some {data : Bytes} {p : Packet} :
    unpack data = some p ↔ ∃ bytes, p.pack = some bytes ∧ bytes <+: data := by
  constructor
  · intro h
    obtain ⟨bytes, rest, hp, rfl⟩ := pack_of_unpack h
    exact ⟨bytes, hp, List.prefix_append _ _⟩
  · intro hx
    obtain ⟨bytes, hp, rest, rfl⟩ := hx
    exact unpack_pack_append hp rest

end Packet

/-! ## The exceptions behind `unpack` -/

inductive UnpackError where
  | structError
  | valueError (message : String)
deriving DecidableEq

/-- `struct.unpack("!2sBQI I", header)`. -/
def unpackHeader (header : Bytes) : Except UnpackError (Bytes × Int × Int × Int × Nat) :=
  if header.length = Packet.headerSize then
    .ok (header.take 2, unpackUInt ((header.drop 2).take 1), unpackUInt ((header.drop 3).take 8),
      unpackUInt ((header.drop 11).take 4), ofBytes ((header.drop 15).take 4))
  else .error .structError

/-- `MessageType(value)`. -/
def MessageType.construct (value : Int) : Except UnpackError MessageType :=
  match MessageType.ofValue value with
  | some m => .ok m
  | none => .error (.valueError s!"{value} is not a valid MessageType")

namespace Packet

/-- `Packet.unpack` call by call, with the exceptions its calls can raise. -/
def unpackCalls (data : Bytes) : Except UnpackError (Option Packet) :=
  if data.length < headerSize then .ok none
  else
    match unpackHeader (data.take headerSize) with
    | .error e => .error e
    | .ok (magic', mtype, term, srcId, length) =>
      if magic' ≠ magic then .ok none
      else if data.length < headerSize + length then .ok none
      else
        match MessageType.construct mtype with
        | .ok msgType => .ok (some ⟨msgType, term, srcId, (data.drop headerSize).take length⟩)
        | .error (.valueError _) => .ok none
        | .error e => .error e

theorem take_field (data : Bytes) {i n m : Nat} (h : i + n ≤ m) :
    ((data.take m).drop i).take n = (data.drop i).take n := by
  rw [List.drop_take, List.take_take, Nat.min_eq_left (by omega)]

/-- Neither exception escapes. -/
theorem unpackCalls_eq (data : Bytes) : unpackCalls data = .ok (unpack data) := by
  unfold unpackCalls unpack
  by_cases hlen : data.length < headerSize
  · rw [if_pos hlen, if_pos hlen]
  · rw [if_neg hlen, if_neg hlen]
    have htake : (data.take headerSize).length = headerSize := by
      rw [List.length_take]
      omega
    have hmagic : (data.take headerSize).take 2 = data.take 2 := by
      rw [List.take_take]
      rfl
    simp only [unpackHeader, if_pos htake, hmagic,
      take_field data (show 2 + 1 ≤ headerSize by decide),
      take_field data (show 3 + 8 ≤ headerSize by decide),
      take_field data (show 11 + 4 ≤ headerSize by decide),
      take_field data (show 15 + 4 ≤ headerSize by decide), MessageType.construct]
    split
    · rfl
    · split
      · rfl
      · cases MessageType.ofValue (unpackUInt ((data.drop 2).take 1)) <;> rfl

/-- The Helix packet format: unpacking gives `p` exactly on the byte strings that
start with the encoding of `p`, never raises, and gives `None` on a byte string
that starts with no encoding. -/
theorem unpackCalls_characterized (data : Bytes) :
    (∀ p : Packet, 0 ≤ p.term → p.term < 2 ^ 64 → 0 ≤ p.srcId → p.srcId < 2 ^ 32 →
      p.payload.length < 2 ^ 32 →
      ∃ bytes, p.pack = some bytes ∧ (unpackCalls data = .ok (some p) ↔ bytes <+: data)) ∧
    (∃ result, unpackCalls data = .ok result) ∧
    ((∀ p bytes, pack p = some bytes → ¬ bytes <+: data) → unpackCalls data = .ok none) := by
  rw [unpackCalls_eq]
  refine ⟨fun p ht0 ht hs0 hs hl => ?_, ⟨_, rfl⟩, fun hno => ?_⟩
  · obtain ⟨bytes, hp⟩ : ∃ bytes, p.pack = some bytes :=
      ⟨_, pack_eq_some.mpr ⟨⟨ht0, by simpa using ht⟩, ⟨hs0, by simpa using hs⟩,
        fitsUInt_natCast.mpr (by simpa using hl), rfl⟩⟩
    refine ⟨bytes, hp, ?_⟩
    rw [Except.ok.injEq, unpack_eq_some]
    constructor
    · intro ⟨bytes', hp', hpre⟩
      rwa [Option.some.inj (hp.symm.trans hp')]
    · exact fun hpre => ⟨bytes, hp, hpre⟩
  · cases hu : unpack data with
    | none => rfl
    | some p =>
      obtain ⟨bytes, hp, hpre⟩ := unpack_eq_some.mp hu
      exact absurd hpre (hno p bytes hp)

/-- A heartbeat followed by two stray bytes. -/
theorem unpackCalls_heartbeat :
    unpackCalls ([0x48, 0x58, 3, 0, 0, 0, 0, 0, 0, 0, 7, 0, 0, 0, 2, 0, 0, 0, 0] ++ [1, 2]) =
      .ok (some ⟨.appendReq, 7, 2, []⟩) := by
  obtain ⟨bytes, hp, hiff⟩ := (unpackCalls_characterized
    ([0x48, 0x58, 3, 0, 0, 0, 0, 0, 0, 0, 7, 0, 0, 0, 2, 0, 0, 0, 0] ++ [1, 2])).1
    ⟨.appendReq, 7, 2, []⟩ (by decide) (by decide) (by decide) (by decide) (by decide)
  refine hiff.mpr ?_
  obtain rfl : [0x48, 0x58, 3, 0, 0, 0, 0, 0, 0, 0, 7, 0, 0, 0, 2, 0, 0, 0, 0] = bytes :=
    Option.some.inj ((show _ = _ by rfl).trans hp)
  exact List.prefix_append _ _

end Packet

end PythonPortfolio.Helix
