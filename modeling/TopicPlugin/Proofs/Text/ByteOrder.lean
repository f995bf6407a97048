import TopicPlugin.Wire.Payload

/-!
# The order of texts and of their bytes

Texts are ordered by the code points of their characters. Their UTF-8 forms, compared byte by byte,
are in the same order: a greater code point takes more bytes, and then the first of them is greater,
or as many, and then the first group of bits that differs decides. So a list of texts may be sorted
without writing out any bytes.
-/

namespace TopicPlugin.Text

open Wire (bytesOfText)

/-- One text comes before another by their bytes, the first difference deciding. -/
def BytesBefore (a b : String) : Prop := List.Lex (· < ·) (bytesOfText a) (bytesOfText b)

/-- The UTF-8 form of a code point: the bits of the code point in groups, of which all but the first
have six. No form is longer than it has to be. -/
inductive Spelled : Nat → List UInt8 → Prop
  | one {a : Nat} (ha : a < 0x80) : Spelled a [UInt8.ofNat a]
  | two {a b : Nat} (ha : a < 32) (hb : b < 64) (hmin : 0x80 ≤ 64 * a + b) :
      Spelled (64 * a + b) [UInt8.ofNat (a + 0xc0), UInt8.ofNat (b + 0x80)]
  | three {a b c : Nat} (ha : a < 16) (hb : b < 64) (hc : c < 64)
      (hmin : 0x800 ≤ 64 * (64 * a + b) + c) :
      Spelled (64 * (64 * a + b) + c)
        [UInt8.ofNat (a + 0xe0), UInt8.ofNat (b + 0x80), UInt8.ofNat (c + 0x80)]
  | four {a b c d : Nat} (ha : a < 8) (hb : b < 64) (hc : c < 64) (hd : d < 64)
      (hmin : 0x10000 ≤ 64 * (64 * (64 * a + b) + c) + d) :
      Spelled (64 * (64 * (64 * a + b) + c) + d)
        [UInt8.ofNat (a + 0xf0), UInt8.ofNat (b + 0x80), UInt8.ofNat (c + 0x80),
          UInt8.ofNat (d + 0x80)]

theorem codePoint_lt (c : Char) : c.val.toNat < 0x110000 := by
  have hvalid : c.val.toNat < 0xd800 ∨ 0xdfff < c.val.toNat ∧ c.val.toNat < 0x110000 := c.valid
  omega

theorem spelled_utf8EncodeChar (c : Char) : Spelled c.val.toNat (String.utf8EncodeChar c) := by
  have hlt := codePoint_lt c
  unfold String.utf8EncodeChar
  generalize c.val.toNat = v at *
  simp only
  split
  next hone => exact .one (by omega)
  next hone =>
    split
    next htwo =>
      have hvalue : 64 * (v / 64 % 32) + v % 64 = v := by omega
      have hform := Spelled.two (a := v / 64 % 32) (b := v % 64) (by omega) (by omega) (by omega)
      rwa [hvalue] at hform
    next htwo =>
      split
      next hthree =>
        have hvalue : 64 * (64 * (v / 4096 % 16) + v / 64 % 64) + v % 64 = v := by omega
        have hform := Spelled.three (a := v / 4096 % 16) (b := v / 64 % 64) (c := v % 64)
          (by omega) (by omega) (by omega) (by omega)
        rwa [hvalue] at hform
      next hthree =>
        have hvalue : 64 * (64 * (64 * (v / 262144 % 8) + v / 4096 % 64) + v / 64 % 64) + v % 64 =
            v := by omega
        have hform := Spelled.four (a := v / 262144 % 8) (b := v / 4096 % 64) (c := v / 64 % 64)
          (d := v % 64) (by omega) (by omega) (by omega) (by omega) (by omega)
        rwa [hvalue] at hform

theorem lex_cons_ofNat {m n : Nat} (hm : m < 256) (hn : n < 256) {bytes bytes' : List UInt8} :
    List.Lex (· < ·) (UInt8.ofNat m :: bytes) (UInt8.ofNat n :: bytes') ↔
      m < n ∨ m = n ∧ List.Lex (· < ·) bytes bytes' := by
  rw [List.cons_lex_cons_iff, UInt8.lt_iff_toNat_lt, ← UInt8.toNat_inj, UInt8.toNat_ofNat',
    UInt8.toNat_ofNat', Nat.mod_eq_of_lt hm, Nat.mod_eq_of_lt hn]

/-- The greater of two code points is greater by its form, whatever follows the two. -/
theorem Spelled.lex_append {v w : Nat} {form form' : List UInt8} (h : Spelled v form)
    (h' : Spelled w form') (hlt : v < w) (rest rest' : List UInt8) :
    List.Lex (· < ·) (form ++ rest) (form' ++ rest') := by
  cases h <;> cases h' <;>
    simp (disch := omega) only [List.cons_append, List.nil_append, lex_cons_ofNat] <;> omega

theorem bytesOfText_eq (text : String) :
    bytesOfText text = text.toList.flatMap String.utf8EncodeChar := by
  have hbytes : text.toUTF8 = (text.toList.flatMap String.utf8EncodeChar).toByteArray := by
    rw [String.toUTF8_eq_toByteArray, ← String.utf8Encode_toList]
    rfl
  rw [bytesOfText, hbytes]
  simp

theorem lex_flatMap_utf8EncodeChar {cs ds : List Char} (h : List.Lex (· < ·) cs ds) :
    List.Lex (· < ·) (cs.flatMap String.utf8EncodeChar) (ds.flatMap String.utf8EncodeChar) := by
  induction h with
  | @nil d ds =>
    rw [List.flatMap_nil, List.flatMap_cons]
    cases hform : String.utf8EncodeChar d with
    | nil => exact absurd hform String.utf8EncodeChar_ne_nil
    | cons b form => exact .nil
  | @cons c cs ds _ ih =>
    rw [List.flatMap_cons, List.flatMap_cons]
    induction String.utf8EncodeChar c with
    | nil => exact ih
    | cons b form ihForm => exact .cons ihForm
  | @rel c cs d ds hlt =>
    rw [List.flatMap_cons, List.flatMap_cons]
    exact (spelled_utf8EncodeChar c).lex_append (spelled_utf8EncodeChar d) hlt _ _

theorem bytesBefore_of_lt {a b : String} (h : a < b) : BytesBefore a b := by
  rw [BytesBefore, bytesOfText_eq, bytesOfText_eq]
  exact lex_flatMap_utf8EncodeChar h

/-- The order by bytes is the order by code points. -/
theorem bytesBefore_iff {a b : String} : BytesBefore a b ↔ a < b := by
  refine ⟨fun h => Decidable.byContradiction fun hnot => ?_, bytesBefore_of_lt⟩
  by_cases hlt : b < a
  · exact List.lex_asymm (fun hbyte => UInt8.lt_asymm hbyte) h (bytesBefore_of_lt hlt)
  · obtain rfl : a = b := String.le_antisymm hlt hnot
    exact List.lex_irrefl UInt8.lt_irrefl _ h

end TopicPlugin.Text
