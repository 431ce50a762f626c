import Mathlib

/-! # The order of texts

Texts can be compared by the codes of their characters or by the bytes of these. Of two characters
the one with the greater code has no fewer bytes, and it has the greater byte where they first
differ. So both orders are the same.
-/
namespace Petri.Text
set_option autoImplicit false

/-- The bytes of a text in UTF-8. -/
def bytes (s : String) : List UInt8 := s.toUTF8.data.toList

theorem bytes_eq (s : String) : bytes s = s.toList.flatMap String.utf8EncodeChar := by
  rw [bytes, String.toUTF8_eq_toByteArray, ← String.utf8Encode_toList, List.utf8Encode,
    List.data_toByteArray]

theorem code_lt (c : Char) : c.val.toNat < 0x110000 := by
  rcases c.valid with hLow | ⟨_, hHigh⟩
  · exact Nat.lt_trans hLow (by decide)
  · exact hHigh

/-- Two characters differ in a byte before either ends, so what follows them does not matter. -/
theorem encode_append_lt {c d : Char} (h : c < d) (s t : List UInt8) :
    String.utf8EncodeChar c ++ s < String.utf8EncodeChar d ++ t := by
  have hLess : c.val.toNat < d.val.toNat := UInt32.lt_iff_toNat_lt.mp h
  have hLimit := code_lt d
  -- each byte but the first has six bits of the code
  have hDigits (n : Nat) : n / 4096 = n / 64 / 64 ∧ n / 262144 = n / 64 / 64 / 64 := by
    constructor <;> omega
  rw [String.utf8EncodeChar, String.utf8EncodeChar]
  generalize c.val.toNat = m, d.val.toNat = n at hLess hLimit
  simp only [hDigits]
  -- a case for every number of bytes of `c` and of `d`
  split_ifs <;>
    simp only [List.cons_append, List.nil_append, List.cons_lt_cons_iff, UInt8.lt_iff_toNat_lt,
      ← UInt8.toNat_inj, UInt8.toNat_ofNat'] <;>
    omega

theorem flatMap_encode_lt {cs ds : List Char} (h : cs < ds) :
    cs.flatMap String.utf8EncodeChar < ds.flatMap String.utf8EncodeChar := by
  induction h with
  | @nil d ds =>
    obtain ⟨b, bs, hd⟩ := List.exists_cons_of_ne_nil (String.utf8EncodeChar_ne_nil (c := d))
    rw [List.flatMap_nil, List.flatMap_cons, hd]
    exact List.nil_lt_cons b _
  | rel hFirst => exact encode_append_lt hFirst _ _
  | cons _ ih => exact List.append_left_lt ih

theorem bytes_lt_bytes_iff {s t : String} : bytes s < bytes t ↔ s < t := by
  have hMono {s t : String} (h : s < t) : bytes s < bytes t := by
    rw [bytes_eq, bytes_eq]
    exact flatMap_encode_lt h
  refine ⟨fun h => ?_, hMono⟩
  rcases lt_trichotomy s t with hLess | rfl | hMore
  · exact hLess
  · exact absurd h (List.lt_irrefl _)
  · exact absurd h (List.lt_asymm (hMono hMore))

end Petri.Text
