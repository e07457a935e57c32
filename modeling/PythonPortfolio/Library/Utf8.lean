import PythonPortfolio.Library.PyStr

/-!
# UTF-8 in both directions

Decoding is strict, as in `bytes.decode('utf-8')`: every well-formed sequence of
scalar values and nothing else. It undoes `encodeUtf8`, and an ASCII byte in an
encoding stands for that ASCII character.
-/

namespace PythonPortfolio.Library.PyStr

/-- `bs.decode('utf-8')`; `none` is the `UnicodeDecodeError`. -/
def decodeUtf8 (bs : List UInt8) : Option PyStr :=
  bs.toByteArray.utf8Decode?.map fun cs => cs.toList.map .scalar

theorem encodeUtf8_scalars (cs : List Char) :
    encodeUtf8 (cs.map .scalar) = some (cs.flatMap String.utf8EncodeChar) := by
  induction cs with
  | nil => rfl
  | cons c cs ih => rw [List.map_cons, encodeUtf8, ih, Option.map_some, List.flatMap_cons]

/-- What can be encoded has no surrogates. -/
theorem exists_scalars {s : PyStr} {bs : List UInt8} (h : encodeUtf8 s = some bs) :
    ∃ cs : List Char, s = cs.map .scalar := by
  induction s generalizing bs with
  | nil => exact ⟨[], rfl⟩
  | cons c s ih =>
    cases c with
    | surrogate n => cases h
    | scalar c =>
      obtain ⟨rest, hrest, _⟩ := Option.map_eq_some_iff.mp h
      obtain ⟨cs, rfl⟩ := ih hrest
      exact ⟨c :: cs, rfl⟩

theorem decodeUtf8_encodeUtf8 {s : PyStr} {bs : List UInt8} (h : encodeUtf8 s = some bs) :
    decodeUtf8 bs = some s := by
  obtain ⟨cs, rfl⟩ := exists_scalars h
  rw [encodeUtf8_scalars] at h
  cases h
  have hdecode : (cs.flatMap String.utf8EncodeChar).toByteArray.utf8Decode? = some cs.toArray :=
    List.utf8Decode?_utf8Encode
  rw [decodeUtf8, hdecode, Option.map_some]

/-- Decoded text can be encoded again. -/
theorem encodeUtf8_of_decodeUtf8 {s : PyStr} {bs : List UInt8} (h : decodeUtf8 bs = some s) :
    ∃ bs', encodeUtf8 s = some bs' := by
  obtain ⟨cs, _, rfl⟩ := Option.map_eq_some_iff.mp h
  exact ⟨_, encodeUtf8_scalars _⟩

/-- Only an ASCII character has an ASCII byte in its encoding. -/
theorem eq_of_mem_utf8EncodeChar {c d : Char} (hd : d.toNat < 128)
    (h : UInt8.ofNat d.toNat ∈ String.utf8EncodeChar c) : c = d := by
  have hbyte : ∀ n : Nat, UInt8.ofNat d.toNat = UInt8.ofNat n → d.toNat = n % 256 := by
    intro n hn
    have := congrArg UInt8.toNat hn
    rw [UInt8.toNat_ofNat', UInt8.toNat_ofNat'] at this
    omega
  have hval : c.val.toNat = c.toNat := rfl
  unfold String.utf8EncodeChar at h
  dsimp only at h
  rw [hval] at h
  split at h
  · next hc =>
    have := hbyte _ (List.mem_singleton.mp h)
    apply Char.ext
    apply UInt32.toNat_inj.mp
    have h1 : c.val.toNat = c.toNat := rfl
    have h2 : d.val.toNat = d.toNat := rfl
    omega
  · exfalso
    split at h
    · simp only [List.mem_cons, List.not_mem_nil, or_false] at h
      rcases h with h | h
      · have := hbyte _ h
        omega
      · have := hbyte _ h
        omega
    · split at h
      · simp only [List.mem_cons, List.not_mem_nil, or_false] at h
        rcases h with h | h | h <;> have := hbyte _ h <;> omega
      · simp only [List.mem_cons, List.not_mem_nil, or_false] at h
        rcases h with h | h | h | h <;> have := hbyte _ h <;> omega

theorem not_mem_encodeUtf8 {s : PyStr} {bs : List UInt8} (h : encodeUtf8 s = some bs) {d : Char}
    (hd : d.toNat < 128) (hs : PyChar.scalar d ∉ s) : UInt8.ofNat d.toNat ∉ bs := by
  obtain ⟨cs, rfl⟩ := exists_scalars h
  rw [encodeUtf8_scalars] at h
  cases h
  intro hmem
  obtain ⟨c, hc, hbyte⟩ := List.mem_flatMap.mp hmem
  obtain rfl := eq_of_mem_utf8EncodeChar hd hbyte
  exact hs (List.mem_map.mpr ⟨c, hc, rfl⟩)

end PythonPortfolio.Library.PyStr
