import PythonPortfolio.Library.Binary64
import PythonPortfolio.Hyperion.Codec

/-!
# The validators of the fields

Each kind of field has a `validate`, apart from the code that packs it. What the two
agree on comes back as the kind stores it: an integer in a field of doubles as the
nearest double, a short byte string filled with zeros. The metaclass takes the
descriptors out of the class body before they could learn their names, so
`self.name` is `None` in every message.
-/

namespace PythonPortfolio.Hyperion

open Library Library.BigEndian
open Library.StructFormat (Code Value)

inductive ValidationError where
  | typeError (message : String)
  | valueError (message : String)
deriving DecidableEq

/-- `self.name`, as the messages print it. -/
def fieldName : String := "None"

/-- `type(value)`, as the messages print it. -/
def typeName : Value → String
  | .int _ => "<class 'int'>"
  | .float _ => "<class 'float'>"
  | .bytes _ => "<class 'bytes'>"

/-- How a number compares with an integer; NaN does not, and bytes cannot. -/
def compareInt (v : Value) (k : Int) (unsupported : String) :
    Except ValidationError (Option Ordering) :=
  match v with
  | .int x => .ok (some (compare x k))
  | .float bits => .ok ((Binary64.decode bits).compareInt k)
  | .bytes _ => .error (.typeError unsupported)

/-- `if not (lo <= value <= hi): raise ValueError(message)`. -/
def checkBetween (lo hi : Int) (message : String) (v : Value) : Except ValidationError Unit :=
  match compareInt v lo "'<=' not supported between instances of 'int' and 'bytes'" with
  | .error e => .error e
  | .ok order =>
    if order = some .gt ∨ order = some .eq then
      match compareInt v hi "'<=' not supported between instances of 'bytes' and 'int'" with
      | .error e => .error e
      | .ok order =>
        if order = some .lt ∨ order = some .eq then .ok () else .error (.valueError message)
    else .error (.valueError message)

/-- `if not isinstance(value, (float, int)): raise TypeError(message)`. -/
def checkNumber (message : String) : Value → Except ValidationError Unit
  | .int _ | .float _ => .ok ()
  | .bytes _ => .error (.typeError message)

def Int8.validate : Value → Except ValidationError Unit :=
  checkBetween (-128) 127 s!"{fieldName} overflow Int8"

def UInt8.validate : Value → Except ValidationError Unit :=
  checkBetween 0 255 s!"{fieldName} overflow UInt8"

def Int32.validate (v : Value) : Except ValidationError Unit :=
  match v with
  | .int _ => checkBetween (-2147483648) 2147483647 s!"{fieldName} overflow Int32" v
  | _ => .error (.typeError s!"{fieldName} musi być int, a jest {typeName v}")

/-- The test names what to refuse, so it lets NaN pass. -/
def UInt32.validate (v : Value) : Except ValidationError Unit :=
  match compareInt v 0 "'<' not supported between instances of 'bytes' and 'int'" with
  | .error e => .error e
  | .ok below =>
    if below = some .lt then .error (.valueError s!"{fieldName} overflow UInt32")
    else match compareInt v 4294967295
        "'>' not supported between instances of 'bytes' and 'int'" with
      | .error e => .error e
      | .ok above =>
        if above = some .gt then .error (.valueError s!"{fieldName} overflow UInt32")
        else .ok ()

def Int64.validate : Value → Except ValidationError Unit
  | .int _ => .ok ()
  | _ => .error (.typeError s!"{fieldName} not int")

def Float64.validate : Value → Except ValidationError Unit :=
  checkNumber s!"{fieldName} not float"

def Timestamp.validate : Value → Except ValidationError Unit :=
  checkNumber s!"{fieldName} invalid timestamp"

def FixedString.validate (length : Nat) : Value → Except ValidationError Unit
  | .bytes bs =>
    if bs.length > length then .error (.valueError s!"{fieldName} too long (max {length})")
    else .ok ()
  | _ => .error (.typeError s!"{fieldName} requires bytes")

def FieldKind.validate : FieldKind → Value → Except ValidationError Unit
  | .int8 => Int8.validate
  | .uint8 => UInt8.validate
  | .int32 => Int32.validate
  | .uint32 => UInt32.validate
  | .int64 => Int64.validate
  | .float64 => Float64.validate
  | .timestamp => Timestamp.validate
  | .fixedString length => FixedString.validate length

/-- `a == b`. -/
def PyEq : Value → Value → Prop
  | .int x, .int y => x = y
  | .int x, .float b => Binary64.decode b = .finite (x * Binary64.unit)
  | .float a, .int y => Binary64.decode a = .finite (y * Binary64.unit)
  | .float a, .float b => Binary64.decode a = Binary64.decode b ∧ Binary64.decode a ≠ .nan
  | .bytes a, .bytes b => a = b
  | _, _ => False

namespace FieldKind

/-- The values that `struct` takes among those a kind accepts. -/
def Takes : FieldKind → Value → Prop
  | .int8, v | .uint8, v | .int32, v | .uint32, v => ∃ x, v = .int x
  | .int64, .int x => FitsSInt 8 x
  | .float64, .int x | .timestamp, .int x => Binary64.ofInt x ≠ none
  | _, _ => True

/-- What a kind stores for a value it takes. -/
def stored : FieldKind → Value → Value
  | .float64, .int x | .timestamp, .int x => .float ((Binary64.ofInt x).getD 0)
  | .fixedString length, .bytes bs => .bytes (bs ++ List.replicate (length - bs.length) 0)
  | _, v => v

/-- The values that a kind stores as an equal value. -/
def Exact : FieldKind → Value → Prop
  | .float64, .int x | .timestamp, .int x =>
    ∃ bits, Binary64.decode bits = .finite (x * Binary64.unit)
  | .float64, .float bits | .timestamp, .float bits => Binary64.decode bits ≠ .nan
  | .fixedString length, .bytes bs => bs.length = length
  | _, _ => True

end FieldKind

/-! ## One field -/

theorem checkBetween_int {lo hi x : Int} {message : String} :
    checkBetween lo hi message (.int x) = .ok () ↔ lo ≤ x ∧ x ≤ hi := by
  unfold checkBetween compareInt
  dsimp only
  simp only [Option.some.injEq, compare_gt_iff_gt, compare_lt_iff_lt, compare_eq_iff_eq]
  split_ifs <;> simp <;> omega

theorem UInt32.validate_int {x : Int} :
    UInt32.validate (.int x) = .ok () ↔ 0 ≤ x ∧ x ≤ 4294967295 := by
  unfold UInt32.validate compareInt
  dsimp only
  simp only [Option.some.injEq, compare_gt_iff_gt, compare_lt_iff_lt]
  split_ifs <;> simp <;> omega

theorem Int64.validate_eq_ok {v : Value} (h : Int64.validate v = .ok ()) : ∃ x, v = .int x := by
  cases v with
  | int x => exact ⟨x, rfl⟩
  | float _ => cases h
  | bytes _ => cases h

theorem FixedString.validate_eq_ok {length : Nat} {v : Value}
    (h : FixedString.validate length v = .ok ()) : ∃ bs, v = .bytes bs ∧ bs.length ≤ length := by
  cases v with
  | int _ => cases h
  | float _ => cases h
  | bytes bs =>
    refine ⟨bs, rfl, ?_⟩
    by_contra hlong
    rw [FixedString.validate, if_pos (not_le.mp hlong)] at h
    cases h

theorem checkNumber_eq_ok {message : String} {v : Value} (h : checkNumber message v = .ok ()) :
    (∃ x, v = .int x) ∨ ∃ bits, v = .float bits := by
  cases v with
  | int x => exact Or.inl ⟨x, rfl⟩
  | float bits => exact Or.inr ⟨bits, rfl⟩
  | bytes _ => cases h

namespace FieldKind

/-- A field in the hands of the codec: the value comes back as it is stored, and when
that is equal. -/
structure Settled (kind : FieldKind) (v : Value) : Prop where
  packs : ∃ bs, StructFormat.packOne Binary64.ofInt kind.formatChar v = some bs ∧
    StructFormat.unpackOne kind.formatChar bs = kind.stored v
  equal : PyEq v (kind.stored v) ↔ kind.Exact v

/-- An integer in the range of its code. -/
theorem settled_int {kind : FieldKind} {x : Int} (hfits : kind.formatChar.Fits (.int x))
    (hstored : kind.stored (.int x) = .int x) (hexact : kind.Exact (.int x)) :
    kind.Settled (.int x) where
  packs := by
    rw [hstored]
    exact StructFormat.unpackOne_packOne Binary64.ofInt hfits
  equal := by
    rw [hstored]
    exact iff_of_true rfl hexact

theorem settled_float {kind : FieldKind} {bits : UInt64}
    (hfits : kind.formatChar.Fits (.float bits))
    (hstored : kind.stored (.float bits) = .float bits)
    (hexact : kind.Exact (.float bits) ↔ Binary64.decode bits ≠ .nan) :
    kind.Settled (.float bits) where
  packs := by
    rw [hstored]
    exact StructFormat.unpackOne_packOne Binary64.ofInt hfits
  equal := by
    rw [hstored, hexact]
    exact and_iff_right rfl

/-- An integer in a field of doubles. -/
theorem settled_double {kind : FieldKind} {x : Int} (hcode : kind.formatChar = .d)
    (htakes : Binary64.ofInt x ≠ none)
    (hstored : kind.stored (.int x) = .float ((Binary64.ofInt x).getD 0))
    (hexact : kind.Exact (.int x) ↔
      ∃ bits, Binary64.decode bits = .finite (x * Binary64.unit)) : kind.Settled (.int x) := by
  obtain ⟨bits, hbits⟩ := Option.ne_none_iff_exists'.mp htakes
  refine ⟨?_, ?_⟩
  · refine ⟨toBytes 8 bits.toNat, by rw [hcode, StructFormat.packOne, hbits]; rfl, ?_⟩
    rw [hcode, hstored, hbits, StructFormat.unpackOne, ofBytes_toBytes_of_lt bits.toNat_lt,
      UInt64.ofNat_toNat, Option.getD_some]
  · rw [hstored, hexact, hbits, Option.getD_some]
    constructor
    · exact fun heq => ⟨bits, heq⟩
    · intro hx
      obtain ⟨bits', hx⟩ := hx
      obtain ⟨bits'', hof, hdecode⟩ := Binary64.ofInt_exact hx
      obtain rfl := Option.some.inj (hbits.symm.trans hof)
      exact hdecode

theorem settled_fixedString {length : Nat} {bs : Bytes} (hlen : bs.length ≤ length) :
    (fixedString length).Settled (.bytes bs) where
  packs := by
    refine ⟨_, rfl, ?_⟩
    show Value.bytes (StructFormat.fill length bs) = _
    rw [StructFormat.fill, List.take_of_length_le hlen]
    rfl
  equal := by
    show bs = bs ++ List.replicate (length - bs.length) 0 ↔ bs.length = length
    rw [List.self_eq_append_right, List.replicate_eq_nil_iff]
    omega

/-- What a validator accepts and `struct` takes, the codec stores. -/
theorem settled {kind : FieldKind} {v : Value} (h : kind.validate v = .ok ())
    (htakes : kind.Takes v) : kind.Settled v := by
  cases kind with
  | int8 =>
    obtain ⟨x, rfl⟩ := htakes
    obtain ⟨hlo, hhi⟩ := checkBetween_int.mp h
    exact settled_int (show FitsSInt 1 x by unfold FitsSInt; omega) rfl trivial
  | uint8 =>
    obtain ⟨x, rfl⟩ := htakes
    obtain ⟨hlo, hhi⟩ := checkBetween_int.mp h
    exact settled_int (show FitsUInt 1 x by unfold FitsUInt; omega) rfl trivial
  | int32 =>
    obtain ⟨x, rfl⟩ := htakes
    obtain ⟨hlo, hhi⟩ := checkBetween_int.mp h
    exact settled_int (show FitsSInt 4 x by unfold FitsSInt; omega) rfl trivial
  | uint32 =>
    obtain ⟨x, rfl⟩ := htakes
    obtain ⟨hlo, hhi⟩ := UInt32.validate_int.mp h
    exact settled_int (show FitsUInt 4 x by unfold FitsUInt; omega) rfl trivial
  | int64 =>
    obtain ⟨x, rfl⟩ := Int64.validate_eq_ok h
    exact settled_int htakes rfl trivial
  | float64 =>
    rcases checkNumber_eq_ok h with ⟨x, rfl⟩ | ⟨bits, rfl⟩
    · exact settled_double rfl htakes rfl Iff.rfl
    · exact settled_float trivial rfl Iff.rfl
  | timestamp =>
    rcases checkNumber_eq_ok h with ⟨x, rfl⟩ | ⟨bits, rfl⟩
    · exact settled_double rfl htakes rfl Iff.rfl
    · exact settled_float trivial rfl Iff.rfl
  | fixedString length =>
    obtain ⟨bs, rfl, hlen⟩ := FixedString.validate_eq_ok h
    exact settled_fixedString hlen

end FieldKind

/-! ## Messages -/

/-- Every field holds a value that its own validator accepts. -/
def Accepted (body : Dict String Field) (slots : Dict String Value) : Prop :=
  ∀ f ∈ body.items, ∃ v, slots.get? f.1 = some v ∧ f.2.kind.validate v = .ok ()

/-- Every field holds a value that `struct` takes. -/
def Taken (body : Dict String Field) (slots : Dict String Value) : Prop :=
  ∀ f ∈ body.items, ∀ v, slots.get? f.1 = some v → f.2.kind.Takes v

/-- A message of accepted values packs, and comes back with every value as its field
stores it. -/
theorem validated_codec (name : String) (body : Dict String Field) (slots : Dict String Value)
    (hplain : ∀ n ∈ body.keys, n ∉ reserved ∧ ¬ Dunder n) (haccepted : Accepted body slots)
    (htaken : Taken body slots) :
    ∃ cls bs m, MessageClass.new name body = .ok cls ∧
      (Message.mk cls slots).pack Binary64.ofInt = .ok bs ∧ cls.unpack bs = .ok m ∧
      ∀ f ∈ body.items, ∃ v, slots.get? f.1 = some v ∧
        m.slots.get? f.1 = some (f.2.kind.stored v) ∧
        (PyEq v (f.2.kind.stored v) ↔ f.2.kind.Exact v) := by
  have hreserved : ∀ n ∈ body.keys, n ∉ reserved := fun n hn => (hplain n hn).1
  obtain ⟨cls, hcls⟩ := MessageClass.new_of_plain name hreserved fun n hn => (hplain n hn).2
  obtain ⟨hnames, hstruct, _⟩ := MessageClass.new_eq_ok hcls
  have hmem : ∀ f, f ∈ sortFields body.items ↔ f ∈ body.items :=
    fun f => (perm_sortFields _).mem_iff
  obtain ⟨value, hvalue⟩ : ∃ value : String × Field → Value, ∀ f ∈ body.items,
      slots.get? f.1 = some (value f) ∧ f.2.kind.Settled (value f) := by
    refine ⟨fun f => (slots.get? f.1).getD (.int 0), fun f hf => ?_⟩
    obtain ⟨v, hget, hv⟩ := haccepted f hf
    dsimp only
    rw [hget]
    exact ⟨rfl, FieldKind.settled hv (htaken f hf v hget)⟩
  obtain ⟨bs, hpack, hunpack⟩ := StructFormat.unpack_pack_map Binary64.ofInt
    (fun f : String × Field => f.2.kind.formatChar) value (fun f => f.2.kind.stored (value f))
    (sortFields body.items) fun f hf => (hvalue f ((hmem f).mp hf)).2.packs
  rw [← hstruct] at hpack hunpack
  have hgets : List.Forall₂ (fun n v => slots.get? n = some v) cls.fields
      ((sortFields body.items).map value) := by
    rw [hnames, List.forall₂_map_left_iff, List.forall₂_map_right_iff, List.forall₂_same]
    exact fun f hf => (hvalue f ((hmem f).mp hf)).1
  obtain ⟨m, hm, _, hreads⟩ := MessageClass.unpack_eq hcls hreserved hunpack
  rw [hnames, List.forall₂_map_left_iff, List.forall₂_map_right_iff, List.forall₂_same] at hreads
  refine ⟨cls, bs, m, hcls, MessageClass.pack_eq hcls hreserved rfl hgets hpack, hm,
    fun f hf => ?_⟩
  obtain ⟨hget, hsettled⟩ := hvalue f hf
  exact ⟨value f, hget, hreads f ((hmem f).mpr hf), hsettled.equal⟩

/-- A schema with a byte string and a time. -/
def markBody : Dict String Field :=
  ⟨[("tag", ⟨1, .fixedString 4⟩), ("time", ⟨2, .timestamp⟩)], by decide⟩

/-- A short byte string, and an integer between two doubles. -/
def markSlots : Dict String Value :=
  .ofPairs [("tag", .bytes [0x61, 0x62]), ("time", .int (2 ^ 53 + 1))]

theorem get?_markSlots : markSlots.get? "tag" = some (.bytes [0x61, 0x62]) ∧
    markSlots.get? "time" = some (.int (2 ^ 53 + 1)) := by decide

theorem mem_markBody {f : String × Field} : f ∈ markBody.items ↔
    f = ("tag", ⟨1, .fixedString 4⟩) ∨ f = ("time", ⟨2, .timestamp⟩) := by
  rw [markBody, List.mem_cons, List.mem_singleton]

theorem accepted_mark : Accepted markBody markSlots := by
  intro f hf
  rcases mem_markBody.mp hf with rfl | rfl
  · exact ⟨_, get?_markSlots.1, rfl⟩
  · exact ⟨_, get?_markSlots.2, rfl⟩

theorem validated_codec_mark :
    ∃ cls bs m, MessageClass.new "Mark" markBody = .ok cls ∧
      (Message.mk cls markSlots).pack Binary64.ofInt = .ok bs ∧ cls.unpack bs = .ok m ∧
      m.slots.get? "tag" = some (.bytes [0x61, 0x62, 0, 0]) ∧
      m.slots.get? "time" = some (.float 0x4340000000000000) := by
  obtain ⟨htag, htime⟩ := get?_markSlots
  have hdouble : Binary64.ofInt (2 ^ 53 + 1) = some 0x4340000000000000 := by decide +kernel
  have htaken : Taken markBody markSlots := by
    intro f hf v hv
    rcases mem_markBody.mp hf with rfl | rfl
    · obtain rfl := Option.some.inj (htag.symm.trans hv)
      trivial
    · obtain rfl := Option.some.inj (htime.symm.trans hv)
      show Binary64.ofInt _ ≠ none
      rw [hdouble]
      simp
  obtain ⟨cls, bs, m, hcls, hpack, hunpack, hfields⟩ :=
    validated_codec "Mark" markBody markSlots (by decide) accepted_mark htaken
  refine ⟨cls, bs, m, hcls, hpack, hunpack, ?_, ?_⟩
  · obtain ⟨v, hv, hstored, _⟩ := hfields ("tag", ⟨1, .fixedString 4⟩) (by decide)
    obtain rfl := Option.some.inj (htag.symm.trans hv)
    exact hstored
  · obtain ⟨v, hv, hstored, _⟩ := hfields ("time", ⟨2, .timestamp⟩) (by decide)
    obtain rfl := Option.some.inj (htime.symm.trans hv)
    rw [FieldKind.stored, hdouble] at hstored
    exact hstored

/-- The short byte string comes back longer. -/
theorem padded_not_equal : ¬ ∀ (name : String) (body : Dict String Field)
    (slots : Dict String Value), Accepted body slots →
      ∃ cls bs m, MessageClass.new name body = .ok cls ∧
        (Message.mk cls slots).pack Binary64.ofInt = .ok bs ∧ cls.unpack bs = .ok m ∧
        ∀ f ∈ body.items, ∃ v u, slots.get? f.1 = some v ∧ m.slots.get? f.1 = some u ∧
          PyEq v u := by
  intro hall
  have haccepted : Accepted ⟨[("tag", ⟨1, .fixedString 4⟩)], by decide⟩ markSlots := by
    intro f hf
    obtain rfl := List.mem_singleton.mp hf
    exact ⟨_, get?_markSlots.1, rfl⟩
  obtain ⟨cls, bs, m, hcls, hpack, hunpack, hfields⟩ := hall "Mark" _ _ haccepted
  obtain ⟨v, u, hv, hu, heq⟩ := hfields ("tag", ⟨1, .fixedString 4⟩) List.mem_cons_self
  obtain rfl := Option.some.inj (get?_markSlots.1.symm.trans hv)
  obtain rfl := Except.ok.inj hcls
  have hbs : bs = [0x61, 0x62, 0, 0] := (Except.ok.inj hpack).symm
  subst hbs
  obtain rfl := Except.ok.inj hunpack
  obtain rfl : Value.bytes [0x61, 0x62, 0, 0] = u := Option.some.inj hu
  exact absurd heq (by unfold PyEq; decide)

end PythonPortfolio.Hyperion
