import PythonPortfolio.Hyperion.Protocol
import PythonPortfolio.Hyperion.Wal

/-!
# The message codec

For a schema whose field names stay clear of the class's own machinery, packing
and unpacking are inverse in both directions, other lengths are rejected with
`ProtocolError`, and the class does not depend on the order of declaration. The
names that get in the way are `self`, which `cls(**kwargs)` cannot pass, the two
methods themselves, and the two attributes the metaclass stores.
-/

namespace PythonPortfolio.Hyperion

open Library Library.BigEndian
open Library.StructFormat (Code Value)

/-- Every field of the schema holds a value in the range of its kind. -/
def Message.InRange (body : Dict String Field) (m : Message) : Prop :=
  ∀ f ∈ body.items, ∃ v, m.slots.get? f.1 = some v ∧ f.2.kind.formatChar.Fits v

/-- The class is a codec for the messages of its schema. -/
structure MessageClass.Codec (double : Int → Option UInt64) (body : Dict String Field)
    (cls : MessageClass) : Prop where
  unpack_pack : ∀ m : Message, m.cls = cls → m.InRange body → ∃ bs, m.pack double = .ok bs ∧
    ∃ m', cls.unpack bs = .ok m' ∧ ∀ name ∈ body.keys, m'.slots.get? name = m.slots.get? name
  pack_unpack : ∀ bs, bs.length = StructFormat.size cls.struct →
    ∃ m, cls.unpack bs = .ok m ∧ m.pack double = .ok bs
  rejects : ∀ bs, bs.length ≠ StructFormat.size cls.struct →
    ∃ message, cls.unpack bs = .error (.protocolError message)

/-- Names under which a field collides with what `pack` and `unpack` use. -/
def reserved : List String := ["self", "pack", "unpack", "_fields", "_struct"]

/-- The special names of the language, `__init__` and the like. -/
def Dunder (name : String) : Prop := name.toList.take 2 = ['_', '_']

instance (name : String) : Decidable (Dunder name) :=
  inferInstanceAs (Decidable (_ = ['_', '_']))

namespace Message

/-- Reading the slots off in the order of the fields. -/
theorem getattrs_eq {m : Message} {names : List String} {values : List Value}
    (h : List.Forall₂ (fun name v => m.slots.get? name = some v) names values) :
    m.getattrs names = .ok values := by
  induction h with
  | nil => rfl
  | cons hv _ ih => simp only [getattrs, hv, ih]

theorem init_eq_ok {cls : MessageClass} {kwargs : Dict String Value} {m : Message}
    (h : init cls kwargs = .ok m) :
    "self" ∉ kwargs.keys ∧ ¬ cls.Hides "_fields" ∧ m.cls = cls := by
  unfold init at h
  by_cases hself : kwargs.contains "self" = true
  · rw [if_pos hself] at h
    cases h
  · rw [if_neg hself] at h
    by_cases hfields : cls.Hides "_fields"
    · rw [if_pos hfields] at h
      cases h
    · rw [if_neg hfields] at h
      cases h
      exact ⟨by simpa using hself, hfields, rfl⟩

theorem init_eq {cls : MessageClass} {kwargs : Dict String Value}
    (hself : "self" ∉ kwargs.keys) (hfields : ¬ cls.Hides "_fields") :
    ∃ m, init cls kwargs = .ok m ∧ m.cls = cls ∧ (cls.fields.Nodup → ∀ name ∈ cls.fields,
      m.slots.get? name = some ((kwargs.get? name).getD (.int 0))) := by
  refine ⟨_, by rw [init, if_neg (by simpa using hself), if_neg hfields], rfl, ?_⟩
  intro hnodup name hname
  have hid : (cls.fields.map fun n => n).Nodup := by rwa [List.map_id']
  have hget := Dict.get?_foldl_set (fun n : String => n)
    (fun n => (kwargs.get? n).getD (.int 0)) hid .empty name
  rw [hget]
  cases hf : cls.fields.find? fun n => n = name with
  | none =>
    have := List.find?_eq_none.mp hf _ hname
    simp at this
  | some n =>
    have hn : n = name := by simpa using List.find?_some hf
    rw [hn]

end Message

namespace MessageClass

variable {double : Int → Option UInt64} {name : String} {body : Dict String Field}
  {cls : MessageClass}

theorem not_hides (h : new name body = .ok cls) (hplain : ∀ n ∈ body.keys, n ∉ reserved)
    {n : String} (hn : n ∈ reserved) : ¬ cls.Hides n := by
  have hne : n ≠ "_values" := fun he => absurd hn (by rw [he]; decide)
  rw [hides_iff h hne]
  exact fun hmem => hplain n hmem hn

/-- What a buffer of the right length unpacks to. -/
theorem unpack_eq (h : new name body = .ok cls) (hplain : ∀ n ∈ body.keys, n ∉ reserved)
    {bs : Bytes} {values : List Value} (hu : StructFormat.unpack cls.struct bs = some values) :
    ∃ m, cls.unpack bs = .ok m ∧ m.cls = cls ∧
      List.Forall₂ (fun n v => m.slots.get? n = some v) cls.fields values := by
  obtain ⟨hlen, hvalues⟩ := Option.ite_none_right_eq_some.mp hu
  obtain rfl := Option.some.inj hvalues
  have hcount : cls.fields.length = (StructFormat.unpackFields cls.struct bs).length := by
    rw [StructFormat.length_unpackFields, length_struct h]
  have hnodup := fields_nodup h
  generalize StructFormat.unpackFields cls.struct bs = values at hcount hu
  have hkeys : ((cls.fields.zip values).map Prod.fst) = cls.fields :=
    List.map_fst_zip hcount.le
  have hself : "self" ∉ (Dict.ofPairs (cls.fields.zip values)).keys := by
    rw [Dict.mem_keys_ofPairs (by rwa [hkeys]), hkeys, mem_fields h]
    exact fun hmem => hplain _ hmem (by decide)
  obtain ⟨m, hm, hcls, hget⟩ := Message.init_eq hself (not_hides h hplain (by decide))
  refine ⟨m, ?_, hcls, ?_⟩
  · simp only [unpack, if_neg (not_hides h hplain (n := "unpack") (by decide)), ne_eq, hlen,
      not_true, if_false, hu, if_neg (not_hides h hplain (n := "_fields") (by decide)), hm]
  · refine List.forall₂_iff_zip.mpr ⟨hcount, fun {n v} hmem => ?_⟩
    have hn := (List.of_mem_zip hmem).1
    rw [hget hnodup n hn, Dict.get?_ofPairs (by rwa [hkeys]) hmem, Option.getD_some]

theorem pack_eq (h : new name body = .ok cls) (hplain : ∀ n ∈ body.keys, n ∉ reserved)
    {m : Message} (hm : m.cls = cls) {values : List Value}
    (hv : List.Forall₂ (fun n v => m.slots.get? n = some v) cls.fields values) {bs : Bytes}
    (hp : StructFormat.pack double cls.struct values = some bs) : m.pack double = .ok bs := by
  subst hm
  simp only [Message.pack, if_neg (not_hides h hplain (n := "pack") (by decide)),
    if_neg (not_hides h hplain (n := "_fields") (by decide)), Message.getattrs_eq hv, hp]

/-- The values of a message in range, in the order of the fields. -/
theorem values_of_inRange (h : new name body = .ok cls) {m : Message} (hr : m.InRange body) :
    ∃ values, List.Forall₂ (fun n v => m.slots.get? n = some v) cls.fields values ∧
      List.Forall₂ Code.Fits cls.struct values := by
  have hall : ∀ f ∈ sortFields body.items, ∃ v, m.slots.get? f.1 = some v ∧
      f.2.kind.formatChar.Fits v := fun f hf => hr f ((perm_sortFields _).mem_iff.mp hf)
  rw [(new_eq_ok h).1, (new_eq_ok h).2.1]
  generalize sortFields body.items = fields at hall
  induction fields with
  | nil => exact ⟨[], .nil, .nil⟩
  | cons f fields ih =>
    obtain ⟨v, hget, hfits⟩ := hall f (by simp)
    obtain ⟨values, hgets, hallfit⟩ := ih fun g hg => hall g (by simp [hg])
    exact ⟨v :: values, .cons hget hgets, .cons hfits hallfit⟩

/-- Without a reserved name the class is a codec. -/
theorem codec_of_plain (h : new name body = .ok cls) (hplain : ∀ n ∈ body.keys, n ∉ reserved) :
    cls.Codec double body where
  unpack_pack m hm hr := by
    obtain ⟨values, hgets, hfits⟩ := values_of_inRange h hr
    obtain ⟨bs, hp, hu⟩ := StructFormat.unpack_pack double hfits
    obtain ⟨m', hm', _, hgets'⟩ := unpack_eq h hplain hu
    refine ⟨bs, pack_eq h hplain hm hgets hp, m', hm', fun n hn => ?_⟩
    have hn' := (mem_fields h).mpr hn
    obtain ⟨i, hi, rfl⟩ := List.getElem_of_mem hn'
    have hlen := hgets.length_eq
    exact (hgets'.get hi (by omega)).trans (hgets.get hi (by omega)).symm
  pack_unpack bs hlen := by
    have hu : StructFormat.unpack cls.struct bs =
        some (StructFormat.unpackFields cls.struct bs) := if_pos hlen
    obtain ⟨m, hm, hcls, hgets⟩ := unpack_eq h hplain hu
    exact ⟨m, hm, pack_eq h hplain hcls hgets (StructFormat.pack_unpack hu)⟩
  rejects bs hlen := by
    have hun : ¬ cls.Hides "unpack" := not_hides h hplain (by decide)
    exact ⟨_, by rw [unpack, if_neg hun, if_pos hlen]⟩

/-- The metaclass accepts a body unless a field is named after a class variable. -/
theorem new_of_plain (name : String) (hplain : ∀ n ∈ body.keys, n ∉ reserved)
    (hdunder : ∀ n ∈ body.keys, ¬ Dunder n) : ∃ cls, new name body = .ok cls := by
  unfold new
  dsimp only
  have hnone : ((sortFields body.items).map Prod.fst ++ ["_values"]).find?
      (fun slot => slot ∈ classVariables ((sortFields body.items).map Prod.fst)) = none := by
    refine List.find?_eq_none.mpr fun slot hslot => ?_
    have hin : ∀ n, n ∈ (sortFields body.items).map Prod.fst ↔ n ∈ body.keys :=
      fun n => ((perm_sortFields _).map Prod.fst).mem_iff
    have hnot : slot ∉ classVariables ((sortFields body.items).map Prod.fst) := by
      unfold classVariables
      simp only [List.mem_append, List.mem_filter, decide_not, Bool.not_eq_eq_eq_not,
        Bool.not_true, decide_eq_false_iff_not, not_or, not_and, not_not]
      rcases List.mem_append.mp hslot with hslot | hslot
      · have hkey := (hin slot).mp hslot
        refine ⟨fun _ => hslot, fun hmem => ?_⟩
        rcases List.mem_cons.mp hmem with rfl | hmem
        · exact hplain _ hkey (by decide)
        · obtain rfl := List.mem_singleton.mp hmem
          exact hdunder _ hkey (by decide)
      · obtain rfl := List.mem_singleton.mp hslot
        exact ⟨fun hmem => absurd hmem (by decide), by decide⟩
    simpa using hnot
  rw [hnone]
  exact ⟨_, rfl⟩

/-- Every schema with distinct orders, over names that are neither reserved here
nor special in Python, has a codec, and its class is the same for every order of
declaration. -/
theorem message_codec (double : Int → Option UInt64) (name : String) (body : Dict String Field)
    (horder : (body.values.map Field.order).Nodup)
    (hplain : ∀ n ∈ body.keys, n ∉ reserved ∧ ¬ Dunder n) :
    ∃ cls, new name body = .ok cls ∧ cls.Codec double body ∧
      ∀ body' : Dict String Field, body.items.Perm body'.items →
        ∃ cls', new name body' = .ok cls' ∧
          ∀ slots, (Message.mk cls' slots).pack double = (Message.mk cls slots).pack double := by
  obtain ⟨cls, hcls⟩ := new_of_plain name (fun n hn => (hplain n hn).1) fun n hn => (hplain n hn).2
  refine ⟨cls, hcls, codec_of_plain hcls fun n hn => (hplain n hn).1, fun body' hp => ?_⟩
  exact ⟨cls, (new_eq_of_perm hp horder name).symm.trans hcls, fun _ => rfl⟩

theorem unpack_eq_ok (h : new name body = .ok cls) {bs : Bytes} {m : Message}
    (hu : cls.unpack bs = .ok m) : ¬ cls.Hides "unpack" ∧ ¬ cls.Hides "_fields" ∧
      "self" ∉ cls.fields ∧ m.cls = cls := by
  unfold unpack at hu
  split at hu
  · cases hu
  · next hunpack =>
    split at hu
    · cases hu
    · split at hu
      · cases hu
      · next values hvalues =>
        split at hu
        · cases hu
        · next hfields =>
          obtain ⟨hself, _, hm⟩ := Message.init_eq_ok hu
          have hcount : cls.fields.length = values.length := by
            obtain ⟨_, hv⟩ := Option.ite_none_right_eq_some.mp hvalues
            rw [← Option.some.inj hv, StructFormat.length_unpackFields, length_struct h]
          have hkeys : (cls.fields.zip values).map Prod.fst = cls.fields :=
            List.map_fst_zip hcount.le
          have hnodup : ((cls.fields.zip values).map Prod.fst).Nodup := by
            rw [hkeys]
            exact fields_nodup h
          rw [Dict.mem_keys_ofPairs hnodup, hkeys] at hself
          exact ⟨hunpack, hfields, hself, hm⟩

/-- A reserved name does get in the way: no class of such a body is a codec. -/
theorem plain_of_codec (h : new name body = .ok cls) (hc : cls.Codec double body) :
    ∀ n ∈ body.keys, n ∉ reserved := by
  intro n hn hres
  have hne : n ≠ "_values" := fun he => absurd hres (by rw [he]; decide)
  have hhides := (hides_iff h hne).mpr hn
  obtain ⟨m, hu, hp⟩ := hc.pack_unpack (List.replicate (StructFormat.size cls.struct) 0) (by simp)
  obtain ⟨hunpack, hfields, hself, hm⟩ := unpack_eq_ok h hu
  simp only [reserved, List.mem_cons, List.not_mem_nil, or_false] at hres
  rcases hres with rfl | rfl | rfl | rfl | rfl
  · exact hself ((mem_fields h).mpr hn)
  · rw [Message.pack, if_pos (hm.symm ▸ hhides)] at hp
    cases hp
  · exact hunpack hhides
  · exact hfields hhides
  · exact (new_eq_ok h).2.2.2 _ hhides (by simp [classVariables])

end MessageClass

/-- `LogEntryMeta`. -/
def logEntryBody : Dict String Field :=
  ⟨[("timestamp", ⟨1, .timestamp⟩), ("seq_id", ⟨2, .int64⟩), ("partition_id", ⟨3, .int32⟩),
    ("crc32", ⟨4, .uint32⟩)], by decide⟩

def logEntryClass : MessageClass where
  name := "crc32"
  fields := ["timestamp", "seq_id", "partition_id", "crc32"]
  struct := [.d, .q, .i, .I]
  slots := ["timestamp", "seq_id", "partition_id", "crc32", "_values"]

theorem new_logEntry : MessageClass.new "LogEntryMeta" logEntryBody = .ok logEntryClass := by
  decide

theorem message_codec_logEntry :
    ∃ cls, MessageClass.new "LogEntryMeta" logEntryBody = .ok cls ∧
      cls.Codec (fun _ => none) logEntryBody := by
  obtain ⟨cls, hcls, hcodec, _⟩ :=
    MessageClass.message_codec (fun _ => none) "LogEntryMeta" logEntryBody (by decide) (by decide)
  exact ⟨cls, hcls, hcodec⟩

/-- The metadata of a log entry as an instance of its class. -/
def LogEntryMeta.message (m : LogEntryMeta) : Message where
  cls := logEntryClass
  slots := .ofPairs [("timestamp", .float m.timestamp), ("seq_id", .int m.seqId),
    ("partition_id", .int m.partitionId), ("crc32", .int m.crc32)]

theorem structPack_logEntry (double : Int → Option UInt64) (m : LogEntryMeta) :
    StructFormat.pack double logEntryClass.struct
      [.float m.timestamp, .int m.seqId, .int m.partitionId, .int m.crc32] = m.pack := by
  simp only [logEntryClass, StructFormat.pack, StructFormat.packOne, LogEntryMeta.pack,
    Option.bind_eq_bind, Option.bind_some]
  cases packSInt 8 m.seqId with
  | none => rfl
  | some seqId =>
    cases packSInt 4 m.partitionId with
    | none => rfl
    | some partitionId =>
      cases packUInt 4 m.crc32 with
      | none => rfl
      | some crc32 => simp

/-- The log packs its metadata as this message. -/
theorem pack_logEntry (double : Int → Option UInt64) (m : LogEntryMeta) :
    m.message.pack double = match m.pack with
      | none => .error .structError
      | some bs => .ok bs := by
  have hgets : List.Forall₂ (fun n v => m.message.slots.get? n = some v) logEntryClass.fields
      [.float m.timestamp, .int m.seqId, .int m.partitionId, .int m.crc32] :=
    .cons rfl (.cons rfl (.cons rfl (.cons rfl .nil)))
  have hpack : ¬ logEntryClass.Hides "pack" := by decide
  have hfields : ¬ logEntryClass.Hides "_fields" := by decide
  have hcls : m.message.cls = logEntryClass := rfl
  rw [Message.pack, hcls, if_neg hpack, if_neg hfields, Message.getattrs_eq hgets]
  have hstruct := structPack_logEntry double m
  cases hp : m.pack with
  | none => simp only [hstruct.trans hp]
  | some bs => simp only [hstruct.trans hp]

/-- A schema with one field called `self`. -/
def selfBody : Dict String Field := ⟨[("self", ⟨1, .int8⟩)], by decide⟩

/-- A field called `self` cannot be passed to `cls(**kwargs)`. -/
theorem self_field_not_codec : ¬ ∀ (double : Int → Option UInt64) (name : String)
    (body : Dict String Field), (body.values.map Field.order).Nodup →
      ∃ cls, MessageClass.new name body = .ok cls ∧ cls.Codec double body := by
  intro hall
  obtain ⟨cls, hcls, hcodec⟩ := hall (fun _ => none) "M" selfBody (by decide)
  exact MessageClass.plain_of_codec hcls hcodec "self" (by decide) (by decide)

end PythonPortfolio.Hyperion
