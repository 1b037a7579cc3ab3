import Mathlib.Data.String.Basic

/-! The order of texts by bytes. In UTF-8 the bytes of a smaller character come before those of a larger
one, whatever follows them: fewer bytes begin with a smaller one, and as many bytes are the digits of the
code, the highest first. So texts are in the order of their bytes. -/

namespace RecordRules.Text

/-- The bytes of a text in UTF-8. -/
def bytes (text : String) : List UInt8 :=
  text.toUTF8.data.toList

theorem bytes_eq_flatMap (text : String) : bytes text = text.toList.flatMap String.utf8EncodeChar := by
  have hencode : text.toByteArray = text.toList.utf8Encode := by
    rw [← String.toByteArray_ofList, String.ofList_toList]
  rw [bytes, String.toUTF8_eq_toByteArray, hencode, List.utf8Encode, List.toList_data_toByteArray]

theorem cons_byte_lt_iff {m n : Nat} (hm : m < 256) (hn : n < 256) (first second : List UInt8) :
    UInt8.ofNat m :: first < UInt8.ofNat n :: second ↔ m < n ∨ (m = n ∧ first < second) := by
  rw [List.cons_lt_cons_iff, UInt8.lt_iff_toNat_lt, ← UInt8.toNat_inj, UInt8.toNat_ofNat_of_lt' hm,
    UInt8.toNat_ofNat_of_lt' hn]

/-- The smaller one of two codes has the smaller one of the first digits that differ. -/
theorem digit_lt {a b : Nat} (h : a < b) (hb : b < 0x110000) :
    a / 262144 % 8 < b / 262144 % 8 ∨ a / 262144 % 8 = b / 262144 % 8 ∧
      (a / 4096 % 64 < b / 4096 % 64 ∨ a / 4096 % 64 = b / 4096 % 64 ∧
        (a / 64 % 64 < b / 64 % 64 ∨ a / 64 % 64 = b / 64 % 64 ∧ a % 64 < b % 64)) := by
  have hdigit : ∀ {m n : Nat}, m < n → m / 64 < n / 64 ∨ m / 64 = n / 64 ∧ m % 64 < n % 64 := by
    intro m n hlt
    omega
  have hthird : ∀ n, n / 4096 = n / 64 / 64 := fun n => (Nat.div_div_eq_div_mul n 64 64).symm
  have hfourth : ∀ n, n / 262144 = n / 64 / 64 / 64 := fun n => by
    rw [← hthird, Nat.div_div_eq_div_mul]
  rw [hfourth, hfourth, hthird, hthird]
  rcases hdigit h with hsecond | ⟨heq, hlast⟩
  · rcases hdigit hsecond with hlarge | ⟨heq, hsmall⟩
    · rcases hdigit hlarge with hfirst | ⟨heq, hsmall⟩ <;> omega
    · omega
  · omega

theorem utf8EncodeChar_append_lt {c d : Char} (h : c < d) (first second : List UInt8) :
    String.utf8EncodeChar c ++ first < String.utf8EncodeChar d ++ second := by
  have hvalue : c.val.toNat < d.val.toNat := h
  have hvalid : d.val.toNat < 0x110000 := by
    rcases d.valid with hlow | hhigh
    · exact Nat.lt_trans hlow (by decide)
    · exact hhigh.2
  have hdigit := digit_lt hvalue hvalid
  rw [String.utf8EncodeChar, String.utf8EncodeChar]
  generalize c.val.toNat = a at hvalue hdigit
  generalize d.val.toNat = b at hvalue hvalid hdigit
  split_ifs <;>
    simp (disch := omega) only [List.cons_append, List.nil_append, cons_byte_lt_iff] <;> omega

theorem flatMap_utf8EncodeChar_lt {first second : List Char} (h : first < second) :
    first.flatMap String.utf8EncodeChar < second.flatMap String.utf8EncodeChar := by
  induction h with
  | @nil d chars =>
      obtain ⟨byte, rest, hbytes⟩ : ∃ byte rest, String.utf8EncodeChar d = byte :: rest := by
        apply List.exists_cons_of_length_pos
        rw [String.length_utf8EncodeChar]
        exact d.utf8Size_pos
      rw [List.flatMap_nil, List.flatMap_cons, hbytes, List.cons_append]
      exact List.nil_lt_cons byte _
  | cons _ ih =>
      rw [List.flatMap_cons, List.flatMap_cons]
      exact List.append_left_lt ih
  | rel hlt =>
      rw [List.flatMap_cons, List.flatMap_cons]
      exact utf8EncodeChar_append_lt hlt _ _

/-- The smaller one of two texts has the smaller bytes. -/
theorem bytes_lt_of_lt {first second : String} (h : first < second) : bytes first < bytes second := by
  rw [bytes_eq_flatMap, bytes_eq_flatMap]
  exact flatMap_utf8EncodeChar_lt (String.lt_iff.mp h)

end RecordRules.Text
