import Oreneta.Lib.Text

/-!
# UTF-8

The octets of a text, by way of `String`, and the text of octets; `decode_encode`.
-/

namespace Oreneta.Utf8

open List

/-- `str::as_bytes`. -/
def encode (s : Str) : List Nat := (String.ofList s).toByteArray.data.toList.map UInt8.toNat

/-- `String::from_utf8`. -/
def decode (octets : List Nat) : Option Str :=
  (String.fromUTF8? ⟨(octets.map UInt8.ofNat).toArray⟩).map String.toList

theorem encode_lt {s : Str} {n : Nat} (h : n ∈ encode s) : n < 256 := by
  obtain ⟨u, -, rfl⟩ := mem_map.mp h
  exact u.toNat_lt

/-- What was encoded is decoded. -/
theorem decode_encode (s : Str) : decode (encode s) = some s := by
  have hbytes : (encode s).map UInt8.ofNat = (String.ofList s).toByteArray.data.toList := by
    unfold encode
    rw [map_map]
    have hid : ∀ u ∈ (String.ofList s).toByteArray.data.toList, (UInt8.ofNat ∘ UInt8.toNat) u = id u :=
      fun u _ => UInt8.ofNat_toNat
    rw [map_congr_left hid, map_id]
  have hvalid : String.fromUTF8? (String.ofList s).toByteArray = some (String.ofList s) := by
    unfold String.fromUTF8?
    rw [dif_pos (String.ofList s).isValidUTF8]
    rfl
  unfold decode
  rw [hbytes, Array.toArray_toList]
  exact (congrArg (Option.map String.toList) hvalid).trans (by simp)

end Oreneta.Utf8
