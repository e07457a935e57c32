import Mathlib.Data.List.Forall2
import PythonPortfolio.Library.BigEndian

/-!
# Format strings of `struct` in network order

A format is a list of codes, and packing lays the values out one after another
without padding. A double is an opaque pattern of eight bytes; converting an
integer to it is a parameter. `none` is the exception of a value that its code
does not take. Values in range are read back, and every byte string of the right
length is the encoding of the values it is read as.
-/

namespace PythonPortfolio.Library.StructFormat

open BigEndian

inductive Code where
  | b
  | B
  | i
  | I
  | q
  | d
  | s (count : Nat)
deriving DecidableEq

inductive Value where
  | int (x : Int)
  | float (bits : UInt64)
  | bytes (bs : Bytes)
deriving DecidableEq

def Code.size : Code → Nat
  | .b | .B => 1
  | .i | .I => 4
  | .q | .d => 8
  | .s count => count

/-- `struct.calcsize`. -/
def size (format : List Code) : Nat := (format.map Code.size).sum

/-- The code `s` cuts a longer byte string and fills a shorter one with zeros. -/
def fill (count : Nat) (bs : Bytes) : Bytes :=
  bs.take count ++ List.replicate (count - bs.length) 0

section Pack

variable (double : Int → Option UInt64)

def packOne : Code → Value → Option Bytes
  | .b, .int x => packSInt 1 x
  | .B, .int x => packUInt 1 x
  | .i, .int x => packSInt 4 x
  | .I, .int x => packUInt 4 x
  | .q, .int x => packSInt 8 x
  | .d, .float bits => some (toBytes 8 bits.toNat)
  | .d, .int x => (double x).map fun bits => toBytes 8 bits.toNat
  | .s count, .bytes bs => some (fill count bs)
  | _, _ => none

/-- The number of values must be that of the codes. -/
def pack : List Code → List Value → Option Bytes
  | [], [] => some []
  | c :: cs, v :: vs => do
    let head ← packOne double c v
    let rest ← pack cs vs
    some (head ++ rest)
  | _, _ => none

end Pack

def unpackOne (c : Code) (bs : Bytes) : Value :=
  match c with
  | .b | .i | .q => .int (unpackSInt bs)
  | .B | .I => .int (unpackUInt bs)
  | .d => .float (UInt64.ofNat (ofBytes bs))
  | .s _ => .bytes bs

def unpackFields : List Code → Bytes → List Value
  | [], _ => []
  | c :: cs, bs => unpackOne c (bs.take c.size) :: unpackFields cs (bs.drop c.size)

def unpack (format : List Code) (buffer : Bytes) : Option (List Value) :=
  if buffer.length = size format then some (unpackFields format buffer) else none

/-- The values a code takes and gives back unchanged. -/
def Code.Fits : Code → Value → Prop
  | .b, .int x => FitsSInt 1 x
  | .B, .int x => FitsUInt 1 x
  | .i, .int x => FitsSInt 4 x
  | .I, .int x => FitsUInt 4 x
  | .q, .int x => FitsSInt 8 x
  | .d, .float _ => True
  | .s count, .bytes bs => bs.length = count
  | _, _ => False

instance (c : Code) (v : Value) : Decidable (c.Fits v) := by
  cases c <;> cases v <;> unfold Code.Fits <;> infer_instance

variable {double : Int → Option UInt64}

theorem length_fill (count : Nat) (bs : Bytes) : (fill count bs).length = count := by
  simp only [fill, List.length_append, List.length_take, List.length_replicate]
  omega

theorem fill_self (bs : Bytes) : fill bs.length bs = bs := by
  simp [fill]

@[simp] theorem size_nil : size [] = 0 := rfl

@[simp] theorem size_cons (c : Code) (cs : List Code) : size (c :: cs) = c.size + size cs := by
  simp [size]

theorem length_packOne {c : Code} {v : Value} {bs : Bytes} (h : packOne double c v = some bs) :
    bs.length = c.size := by
  cases c <;> cases v <;> simp only [packOne, Option.map_eq_some_iff, Option.some.injEq,
    reduceCtorEq] at h
  case b.int | i.int | q.int => exact length_of_packSInt h
  case B.int | I.int => exact length_of_packUInt h
  case d.float => exact h ▸ length_toBytes _ _
  case d.int =>
    obtain ⟨_, _, rfl⟩ := h
    exact length_toBytes _ _
  case s.bytes => exact h ▸ length_fill _ _

variable (double) in
theorem unpackOne_packOne {c : Code} {v : Value} (h : c.Fits v) :
    ∃ bs, packOne double c v = some bs ∧ unpackOne c bs = v := by
  cases c <;> cases v <;> try exact absurd h id
  case b.int | i.int | q.int =>
    exact ⟨_, packSInt_eq_some.mpr ⟨h, rfl⟩, congrArg Value.int (unpackSInt_toBytes h)⟩
  case B.int | I.int =>
    exact ⟨_, packUInt_eq_some.mpr ⟨h, rfl⟩, congrArg Value.int (unpackUInt_toBytes h)⟩
  case d.float bits =>
    refine ⟨_, rfl, ?_⟩
    rw [unpackOne, ofBytes_toBytes_of_lt bits.toNat_lt, UInt64.ofNat_toNat]
  case s.bytes count bs =>
    obtain rfl : bs.length = count := h
    exact ⟨_, rfl, by rw [unpackOne, fill_self]⟩

theorem packOne_unpackOne {c : Code} {bs : Bytes} (h : bs.length = c.size) :
    packOne double c (unpackOne c bs) = some bs := by
  cases c
  case b | i | q => exact packSInt_unpackSInt h
  case B | I => exact packUInt_unpackUInt h
  case d =>
    have hlt : ofBytes bs < 2 ^ 64 := by
      have := ofBytes_lt bs
      rwa [h] at this
    simp only [unpackOne, packOne, Option.some.injEq]
    rw [UInt64.toNat_ofNat_of_lt' hlt, show 8 = bs.length from h.symm, toBytes_ofBytes]
  case s count =>
    obtain rfl : bs.length = count := h
    simp only [unpackOne, packOne, fill_self]

variable (double) in
/-- Packing a list of fields and unpacking it does so with each of them. -/
theorem unpack_pack_map {ι : Type} (code : ι → Code) (value reads : ι → Value) (fields : List ι)
    (h : ∀ f ∈ fields, ∃ bs, packOne double (code f) (value f) = some bs ∧
      unpackOne (code f) bs = reads f) :
    ∃ bs, pack double (fields.map code) (fields.map value) = some bs ∧
      unpack (fields.map code) bs = some (fields.map reads) := by
  suffices hs : ∃ bs, pack double (fields.map code) (fields.map value) = some bs ∧
      bs.length = size (fields.map code) ∧
      unpackFields (fields.map code) bs = fields.map reads by
    obtain ⟨bs, hp, hl, hu⟩ := hs
    exact ⟨bs, hp, by rw [unpack, if_pos hl, hu]⟩
  induction fields with
  | nil => exact ⟨[], rfl, rfl, rfl⟩
  | cons f fields ih =>
    obtain ⟨rest, hrest, hlen, hfields⟩ := ih fun g hg => h g (List.mem_cons_of_mem f hg)
    obtain ⟨head, hhead, hone⟩ := h f List.mem_cons_self
    have hsize := length_packOne hhead
    refine ⟨head ++ rest, ?_, ?_, ?_⟩
    · simp only [List.map_cons, pack, hhead, hrest, Option.bind_eq_bind, Option.bind_some]
    · rw [List.length_append, List.map_cons, size_cons, hsize, hlen]
    · rw [List.map_cons, List.map_cons, unpackFields, List.take_left' hsize,
        List.drop_left' hsize, hone, hfields]

variable (double) in
/-- Values in range pack, to as many bytes as the format has, and are read back. -/
theorem unpack_pack {format : List Code} {vs : List Value}
    (h : List.Forall₂ Code.Fits format vs) :
    ∃ bs, pack double format vs = some bs ∧ unpack format bs = some vs := by
  have hfields := unpack_pack_map double Prod.fst Prod.snd Prod.snd (format.zip vs)
    fun f hf => unpackOne_packOne double (List.forall₂_zip h hf)
  rwa [List.map_fst_zip h.length_eq.le, List.map_snd_zip h.length_eq.ge] at hfields

theorem pack_unpackFields {format : List Code} {bs : Bytes} (h : bs.length = size format) :
    pack double format (unpackFields format bs) = some bs := by
  induction format generalizing bs with
  | nil =>
    obtain rfl := List.length_eq_zero_iff.mp h
    rfl
  | cons c cs ih =>
    rw [size_cons] at h
    have htake : (bs.take c.size).length = c.size := by
      rw [List.length_take]
      omega
    have hdrop : (bs.drop c.size).length = size cs := by
      rw [List.length_drop]
      omega
    simp only [unpackFields, pack, packOne_unpackOne htake, ih hdrop, Option.bind_eq_bind,
      Option.bind_some, List.take_append_drop]

/-- Every buffer of the right length is the encoding of what it unpacks to. -/
theorem pack_unpack {format : List Code} {bs : Bytes} {vs : List Value}
    (h : unpack format bs = some vs) : pack double format vs = some bs := by
  obtain ⟨hlen, heq⟩ := Option.ite_none_right_eq_some.mp h
  obtain rfl := Option.some.inj heq
  exact pack_unpackFields hlen

theorem length_unpackFields (format : List Code) (bs : Bytes) :
    (unpackFields format bs).length = format.length := by
  induction format generalizing bs with
  | nil => rfl
  | cons c cs ih => rw [unpackFields, List.length_cons, List.length_cons, ih]

end PythonPortfolio.Library.StructFormat
