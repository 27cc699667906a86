import Choreography.Text.Escape
import Mathlib.Data.List.Lex

/-!
The order of names. Texts are compared character by character, and that is the order of their
bytes: the later of two characters has the later bytes, and no encoded character begins another.
-/

namespace Choreography.Text

/-- The order of byte strings: by the first byte that differs, and a string stands before its
continuations. -/
def Earlier (a b : List UInt8) : Prop := List.Lex (fun x y => x.toNat < y.toNat) a b

private theorem toList_loop (data : ByteArray) (i : Nat) (acc : List UInt8) :
    ByteArray.toList.loop data i acc = acc.reverse ++ data.data.toList.drop i := by
  induction i, acc using ByteArray.toList.loop.induct data with
  | case1 i acc hlt ih =>
    have hdrop : data.data.toList.drop i = data.data[i] :: data.data.toList.drop (i + 1) := by
      rw [List.drop_eq_getElem_cons (by simpa using hlt)]
      rfl
    rw [ByteArray.toList.loop, if_pos hlt, ih, hdrop]
    simp [ByteArray.get!, hlt]
  | case2 i acc hge =>
    rw [ByteArray.toList.loop, if_neg hge, List.drop_of_length_le (by simpa using hge),
      List.append_nil]

theorem bytes_eq (s : String) : bytes s = s.toList.flatMap String.utf8EncodeChar := by
  rw [bytes, ByteArray.toList, toList_loop, String.toUTF8_eq_toByteArray,
    ← String.utf8Encode_toList, List.utf8Encode, List.toList_data_toByteArray]
  rfl

/-- The later of two characters has the later bytes, whatever follows them. -/
theorem earlier_encode {c d : Char} (h : c < d) (rest rest' : List UInt8) :
    Earlier (String.utf8EncodeChar c ++ rest) (String.utf8EncodeChar d ++ rest') := by
  have hlt : c.val.toNat < d.val.toNat := h
  have hd : d.val.toNat ≤ 0x10ffff := by
    have := d.valid
    simp only [UInt32.isValidChar, Nat.isValidChar] at this
    omega
  unfold Earlier
  fun_cases String.utf8EncodeChar c <;> fun_cases String.utf8EncodeChar d <;>
    simp (disch := omega) [List.cons_lex_cons_iff, ← UInt8.toNat_inj, Nat.mod_eq_of_lt] <;> omega

theorem earlier_bytes_of_lt {a b : String} (h : a < b) : Earlier (bytes a) (bytes b) := by
  rw [bytes_eq, bytes_eq]
  have hchars : List.Lex (· < ·) a.toList b.toList := h
  generalize a.toList = cs, b.toList = ds at hchars
  induction hchars with
  | @nil c rest =>
    obtain ⟨x, xs, hx⟩ := List.exists_cons_of_ne_nil (String.utf8EncodeChar_ne_nil (c := c))
    simp [hx, Earlier]
  | rel hlt => exact earlier_encode hlt _ _
  | @cons c _ _ _ ih => exact List.Lex.append_left _ ih (String.utf8EncodeChar c)

/-- Texts are in the order of their bytes. -/
theorem earlier_bytes_iff {a b : String} : Earlier (bytes a) (bytes b) ↔ a < b := by
  refine ⟨fun h => ?_, earlier_bytes_of_lt⟩
  rw [← String.not_le]
  intro hle
  by_cases heq : b = a
  · exact List.lex_irrefl (fun x => Nat.lt_irrefl x.toNat) _ (heq ▸ h)
  · exact List.lex_asymm Nat.lt_asymm h (earlier_bytes_of_lt (Std.lt_of_le_of_ne hle heq))

end Choreography.Text
