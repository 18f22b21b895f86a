import Mathlib.Data.Char
import Mathlib.Data.String.Basic
import Mathlib.Tactic.SplitIfs

/-!
# Texts in the order of their bytes

Texts are compared character by character. Characters with a greater code are written
with greater bytes, so texts stand in the same order as the bytes that they are stored
as (`textBytes_lt`).

## Main Definitions

* `textBytes`: the bytes that a text is stored as

## Main Results

* `textBytes_lt`
-/

namespace SolidityAtlas

/-- The bytes that a text is stored as. -/
def textBytes (text : String) : List UInt8 :=
  text.toUTF8.data.toList

/-- The bytes of a text are those of its characters, one after the other. -/
theorem textBytes_eq (text : String) :
    textBytes text = text.toList.flatMap String.utf8EncodeChar := by
  rw [textBytes, String.toUTF8, ← String.utf8Encode_toList, List.utf8Encode,
    List.data_toByteArray]

/-- Rows of bytes are compared at their first bytes, then at what is behind them. -/
theorem ofNat_cons_lt {a b : Nat} {xs ys : List UInt8} (hb : b < 256) (hle : a ≤ b)
    (htail : a = b → xs < ys) : UInt8.ofNat a :: xs < UInt8.ofNat b :: ys := by
  rw [List.cons_lt_cons_iff]
  obtain hlt | rfl := Nat.lt_or_eq_of_le hle
  · rw [UInt8.lt_iff_toNat_lt, UInt8.toNat_ofNat', UInt8.toNat_ofNat', Nat.mod_eq_of_lt hb,
      Nat.mod_eq_of_lt (Nat.lt_trans hlt hb)]
    exact .inl hlt
  · exact .inr ⟨rfl, htail rfl⟩

/-- The bytes of a greater character come later, whatever follows them. -/
theorem encodeChar_lt {c d : Char} (h : c < d) (xs ys : List UInt8) :
    String.utf8EncodeChar c ++ xs < String.utf8EncodeChar d ++ ys := by
  have hcode : c.val.toNat < d.val.toNat := h
  have hbound : d.val.toNat < 1114112 := by
    rcases d.valid with hlow | ⟨-, hhigh⟩
    · exact Nat.lt_trans hlow (by decide)
    · exact hhigh
  unfold String.utf8EncodeChar
  generalize c.val.toNat = v at *
  generalize d.val.toNat = w at *
  simp only
  -- Encodings of different lengths differ in their first byte; those of one length are compared
  -- byte by byte, and the code has its last six bits in the last one.
  split_ifs
  all_goals
    simp only [List.cons_append, List.nil_append]
    repeat refine ofNat_cons_lt (by omega) (by omega) fun _ => ?_
    omega

/-- Texts are ordered by their bytes as they are by their characters. -/
theorem flatMap_encodeChar_lt {cs ds : List Char} (h : cs < ds) :
    cs.flatMap String.utf8EncodeChar < ds.flatMap String.utf8EncodeChar := by
  induction cs generalizing ds with
  | nil =>
      cases ds with
      | nil => exact absurd h (List.not_lt_nil _)
      | cons d ds =>
          obtain ⟨b, bs, hbytes⟩ := List.exists_cons_of_ne_nil (String.utf8EncodeChar_ne_nil (c := d))
          rw [List.flatMap_nil, List.flatMap_cons, hbytes]
          exact List.nil_lt_cons _ _
  | cons c cs ih =>
      cases ds with
      | nil => exact absurd h (List.not_lt_nil _)
      | cons d ds =>
          rw [List.flatMap_cons, List.flatMap_cons]
          obtain hlt | ⟨rfl, hlt⟩ := List.cons_lt_cons_iff.1 h
          · exact encodeChar_lt hlt _ _
          · exact List.Lex.append_left _ (ih hlt) _

/-- A text that is earlier in the order of the characters is earlier in the order of the bytes. -/
theorem textBytes_lt {a b : String} (h : a < b) : textBytes a < textBytes b := by
  rw [textBytes_eq, textBytes_eq]
  exact flatMap_encodeChar_lt (String.lt_iff_toList_lt.1 h)

end SolidityAtlas
