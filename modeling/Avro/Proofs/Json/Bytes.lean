import Avro.Value

/-!
# Strings that stand for bytes

A string stands for bytes if none of its characters is above the greatest byte: each character then is the byte of its
number (`Json.bytes?`). Such strings are just those that are written for bytes (`bytes?_eq_some_iff`).
-/

namespace Avro.Json

/-- The bytes whose numbers are those of the characters, if there are such bytes. -/
def bytesOf? : List Char → Option (List UInt8)
  | [] => some []
  | c :: cs => if c.toNat < 256 then (bytesOf? cs).map (c.toNat.toUInt8 :: ·) else none

/-- The bytes for which a string stands. -/
def bytes? : Json → Option (List UInt8)
  | str s => bytesOf? s.toList
  | _ => none

/-- The character of a byte. -/
theorem toNat_ofNat_toNat (b : UInt8) : (Char.ofNat b.toNat).toNat = b.toNat := by
  have hb : b.toNat < 256 := b.toNat_lt
  have hvalid : b.toNat.isValidChar := .inl (by omega)
  unfold Char.ofNat
  rw [dif_pos hvalid]
  rfl

theorem bytesOf?_map (bs : List UInt8) : bytesOf? (bs.map fun b => Char.ofNat b.toNat) = some bs := by
  induction bs with
  | nil => rfl
  | cons b bs ih =>
    rw [List.map_cons, bytesOf?, toNat_ofNat_toNat, if_pos b.toNat_lt, ih, Option.map_some]
    exact congrArg (fun a => some (a :: bs)) UInt8.ofNat_toNat

/-- There are bytes for the characters if and only if no number of a character is above the greatest byte. -/
theorem isSome_bytesOf? (cs : List Char) : (bytesOf? cs).isSome ↔ ∀ c ∈ cs, c.toNat ≤ 0xFF := by
  induction cs with
  | nil => simp [bytesOf?]
  | cons c cs ih =>
    rw [bytesOf?, List.forall_mem_cons, ← ih]
    split
    · rename_i hc
      rw [Option.isSome_map]
      exact ⟨fun h => ⟨Nat.le_of_lt_succ hc, h⟩, fun h => h.2⟩
    · rename_i hc
      exact ⟨fun h => by simp at h, fun h => absurd (Nat.lt_succ_of_le h.1) hc⟩

theorem eq_map_of_bytesOf? {cs : List Char} {bs : List UInt8} (h : bytesOf? cs = some bs) :
    cs = bs.map fun b => Char.ofNat b.toNat := by
  induction cs generalizing bs with
  | nil =>
    cases h
    rfl
  | cons c cs ih =>
    rw [bytesOf?] at h
    split at h
    · rename_i hc
      obtain ⟨rest, hrest, rfl⟩ := Option.map_eq_some_iff.mp h
      have hbyte : c.toNat.toUInt8.toNat = c.toNat := Nat.mod_eq_of_lt hc
      rw [List.map_cons, hbyte, Char.ofNat_toNat, ← ih hrest]
    · cases h

/-- **The strings that stand for bytes are those that are written for them.** -/
theorem bytes?_eq_some_iff {j : Json} {bs : List UInt8} : j.bytes? = some bs ↔ j = bytesToJson bs := by
  constructor
  · intro h
    cases j with
    | str s =>
      unfold bytesToJson
      rw [← eq_map_of_bytesOf? h, String.ofList_toList]
    | _ => cases h
  · rintro rfl
    rw [bytesToJson, bytes?, String.toList_ofList]
    exact bytesOf?_map bs

end Avro.Json
