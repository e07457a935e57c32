import Mathlib.Data.List.Sort
import PythonPortfolio.Library.Dict
import PythonPortfolio.Library.StructFormat

/-!
# Binary messages

`BinaryMeta` turns a class body into a message class: the fields sorted by their
`order`, a `struct` format, and a slot for each field. A slot hides the class
attribute of the same name, and a keyword argument named like a parameter cannot
be bound, so a field's name can get in the way of the class's own machinery; the
model keeps these lookups. The conversion of an integer to a double is a
parameter, as in the format library.
-/

namespace PythonPortfolio.Hyperion

open Library Library.BigEndian
open Library.StructFormat (Code Value)

inductive FieldKind where
  | int8
  | uint8
  | int32
  | uint32
  | int64
  | float64
  | timestamp
  | fixedString (length : Nat)
deriving DecidableEq

def FieldKind.formatChar : FieldKind → Code
  | .int8 => .b
  | .uint8 => .B
  | .int32 => .i
  | .uint32 => .I
  | .int64 => .q
  | .float64 => .d
  | .timestamp => .d
  | .fixedString length => .s length

structure Field where
  order : Int
  kind : FieldKind
deriving DecidableEq

inductive MessageError where
  | protocolError (message : String)
  | structError
  | typeError (message : String)
  | attributeError (name : String)
  | valueError (message : String)
deriving DecidableEq

/-- What `BinaryMeta.__new__` leaves in a class: `__name__`, `_fields`, `_struct`
and `__slots__`. -/
structure MessageClass where
  name : String
  fields : List String
  struct : List Code
  slots : List String
deriving DecidableEq

/-- An instance, with the slots that have been assigned. -/
structure Message where
  cls : MessageClass
  slots : Dict String Value

/-- `fields.sort(key=lambda x: x[1].order)`. -/
def sortFields (fields : List (String × Field)) : List (String × Field) :=
  fields.insertionSort fun x y => x.2.order ≤ y.2.order

/-- The names the metaclass still holds in the namespace when it defines `__slots__`;
the loop that removes the descriptors also removes what a field is named after. -/
def classVariables (fieldNames : List String) : List String :=
  ["_fields", "_descriptors"].filter (· ∉ fieldNames) ++ ["_struct", "__slots__"]

namespace MessageClass

/-- `BinaryMeta.__new__` on the fields of a class body, in declaration order. The
loop over the field names rebinds `name`, which then names the class. -/
def new (name : String) (body : Dict String Field) : Except MessageError MessageClass :=
  let fields := sortFields body.items
  let fieldNames := fields.map Prod.fst
  let slots := fieldNames ++ ["_values"]
  match slots.find? (· ∈ classVariables fieldNames) with
  | some slot => .error (.valueError s!"'{slot}' in __slots__ conflicts with class variable")
  | none => .ok
    { name := fieldNames.getLastD name
      fields := fieldNames
      struct := fields.map fun f => f.2.kind.formatChar
      slots := slots }

/-- A slot hides the attribute of this name. -/
def Hides (cls : MessageClass) (member : String) : Prop := member ∈ cls.slots

instance (cls : MessageClass) (member : String) : Decidable (cls.Hides member) :=
  inferInstanceAs (Decidable (member ∈ cls.slots))

end MessageClass

namespace Message

/-- `BinaryMessage.__init__`. -/
def init (cls : MessageClass) (kwargs : Dict String Value) : Except MessageError Message :=
  if kwargs.contains "self" then
    .error (.typeError "BinaryMessage.__init__() got multiple values for argument 'self'")
  else if cls.Hides "_fields" then .error (.attributeError "_fields")
  else .ok ⟨cls, cls.fields.foldl
    (fun slots name => slots.set name ((kwargs.get? name).getD (.int 0))) .empty⟩

/-- `[getattr(self, name) for name in names]`. -/
def getattrs (m : Message) : List String → Except MessageError (List Value)
  | [] => .ok []
  | name :: rest => match m.slots.get? name with
    | none => .error (.attributeError name)
    | some value => match m.getattrs rest with
      | .error e => .error e
      | .ok values => .ok (value :: values)

/-- `m.pack()`. -/
def pack (double : Int → Option UInt64) (m : Message) : Except MessageError Bytes :=
  if m.cls.Hides "pack" then .error (.typeError "object is not callable")
  else if m.cls.Hides "_fields" then .error (.attributeError "_fields")
  else match m.getattrs m.cls.fields with
    | .error e => .error e
    | .ok values => match StructFormat.pack double m.cls.struct values with
      | none => .error .structError
      | some bs => .ok bs

end Message

/-- `cls.unpack(buffer)`. -/
def MessageClass.unpack (cls : MessageClass) (buffer : Bytes) : Except MessageError Message :=
  if cls.Hides "unpack" then .error (.typeError "'member_descriptor' object is not callable")
  else if buffer.length ≠ StructFormat.size cls.struct then
    .error (.protocolError (s!"Buffer size mismatch for {cls.name}: " ++
      s!"got {buffer.length}, need {StructFormat.size cls.struct}"))
  else match StructFormat.unpack cls.struct buffer with
    | none => .error (.protocolError s!"Struct unpack failed for {cls.name}")
    | some unpacked =>
      if cls.Hides "_fields" then .error (.typeError "'member_descriptor' object is not iterable")
      else Message.init cls (.ofPairs (cls.fields.zip unpacked))

/-! ## The class that a body makes -/

theorem perm_sortFields (fields : List (String × Field)) : (sortFields fields).Perm fields :=
  List.perm_insertionSort _ _

/-- Under distinct orders the sorted list does not depend on the order of declaration. -/
theorem sortFields_eq_of_perm {fields fields' : List (String × Field)} (hp : fields.Perm fields')
    (hn : (fields.map fun f => f.2.order).Nodup) : sortFields fields = sortFields fields' := by
  have hsorted : ∀ l : List (String × Field),
      (sortFields l).Pairwise fun x y => x.2.order ≤ y.2.order := by
    intro l
    have : IsTrans (String × Field) fun x y => x.2.order ≤ y.2.order :=
      ⟨fun _ _ _ h h' => h.trans h'⟩
    have : Std.Total fun x y : String × Field => x.2.order ≤ y.2.order :=
      ⟨fun x y => le_total x.2.order y.2.order⟩
    exact List.pairwise_insertionSort _ l
  have hperm : (sortFields fields).Perm (sortFields fields') :=
    (perm_sortFields _).trans (hp.trans (perm_sortFields _).symm)
  refine hperm.eq_of_pairwise (fun x y hx hy hxy hyx => ?_) (hsorted _) (hsorted _)
  have hx' := (perm_sortFields _).mem_iff.mp hx
  have hy' := hp.mem_iff.mpr ((perm_sortFields _).mem_iff.mp hy)
  exact List.inj_on_of_nodup_map hn hx' hy' (le_antisymm hxy hyx)

namespace MessageClass

variable {name : String} {body : Dict String Field} {cls : MessageClass}

theorem new_eq_of_perm {body' : Dict String Field} (hp : body.items.Perm body'.items)
    (hn : (body.values.map Field.order).Nodup) (name : String) :
    new name body = new name body' := by
  have hn' : (body.items.map fun f => f.2.order).Nodup := by
    rwa [Dict.values, List.map_map] at hn
  unfold new
  rw [sortFields_eq_of_perm hp hn']

theorem new_eq_ok (h : new name body = .ok cls) :
    cls.fields = (sortFields body.items).map Prod.fst ∧
    cls.struct = (sortFields body.items).map (fun f => f.2.kind.formatChar) ∧
    cls.slots = cls.fields ++ ["_values"] ∧
    ∀ slot ∈ cls.slots, slot ∉ classVariables cls.fields := by
  unfold new at h
  dsimp only at h
  split at h
  · cases h
  · next hnone =>
    obtain rfl := Except.ok.inj h
    refine ⟨rfl, rfl, rfl, fun slot hslot => ?_⟩
    have := List.find?_eq_none.mp hnone slot hslot
    simpa using this

theorem mem_fields (h : new name body = .ok cls) {n : String} : n ∈ cls.fields ↔ n ∈ body.keys := by
  rw [(new_eq_ok h).1]
  exact ((perm_sortFields _).map Prod.fst).mem_iff

theorem fields_nodup (h : new name body = .ok cls) : cls.fields.Nodup := by
  rw [(new_eq_ok h).1]
  exact ((perm_sortFields _).map Prod.fst).nodup_iff.mpr body.nodup

theorem length_struct (h : new name body = .ok cls) : cls.struct.length = cls.fields.length := by
  rw [(new_eq_ok h).1, (new_eq_ok h).2.1, List.length_map, List.length_map]

theorem hides_iff (h : new name body = .ok cls) {n : String} (hn : n ≠ "_values") :
    cls.Hides n ↔ n ∈ body.keys := by
  unfold Hides
  rw [(new_eq_ok h).2.2.1, List.mem_append, List.mem_singleton, or_iff_left hn, mem_fields h]

end MessageClass

end PythonPortfolio.Hyperion
