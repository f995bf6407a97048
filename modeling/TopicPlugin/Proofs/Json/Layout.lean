import Mathlib.Tactic.SplitIfs
import TopicPlugin.Proofs.Json.Reader

/-!
# The layout of JSON documents

The text that is laid out for a value is one of its forms, at every level of the layout. So the
reader gives the value back, and it is the only value with this text.
-/

namespace TopicPlugin.Json

theorem unitForm_control {code : Nat} (h : code < 0x20) :
    UnitForm code ['\\', 'u', '0', '0', Nat.digitChar (code / 16), Nat.digitChar (code % 16)] := by
  have hnumber : ∀ code < 0x20,
      hexNumber? ['0', '0', Nat.digitChar (code / 16), Nat.digitChar (code % 16)] = some code := by
    decide
  exact .mk (hnumber code h)

theorem charForm_escape (c : Char) : CharForm c (escape c) := by
  unfold escape
  split_ifs with hquote hbackslash hbackspace hfeed hline hreturn htab hcontrol
  · exact .letter (by rw [hquote]; decide)
  · exact .letter (by rw [hbackslash]; decide)
  · exact .letter (by rw [hbackspace]; decide)
  · exact .letter (by rw [hfeed]; decide)
  · exact .letter (by rw [hline]; decide)
  · exact .letter (by rw [hreturn]; decide)
  · exact .letter (by rw [htab]; decide)
  · exact .unit (unitForm_control hcontrol)
  · exact .plain hquote hbackslash (Nat.not_lt.mp hcontrol)

theorem textForm_escape (text : List Char) : TextForm text (text.flatMap escape) := by
  induction text with
  | nil => exact .nil
  | cons c text ih =>
    rw [List.flatMap_cons]
    exact .cons (charForm_escape c) ih

/-- Only zero begins with a zero. -/
theorem toDigits_of_head?_eq_zero (n : Nat) (h : (Nat.toDigits 10 n).head? = some '0') :
    Nat.toDigits 10 n = ['0'] := by
  induction n using Nat.strongRecOn with
  | ind n ih =>
    by_cases hn : n < 10
    · rw [Nat.toDigits_of_lt_base hn] at h ⊢
      exact congrArg (fun c => [c]) (Option.some.inj h)
    · have hsplit := Nat.toDigits_of_base_le (b := 10) (by decide) (Nat.not_lt.mp hn)
      have hfront : Nat.toDigits 10 (n / 10) = ['0'] := by
        refine ih (n / 10) (by omega) ?_
        obtain ⟨c, digits, hcons⟩ := List.exists_cons_of_ne_nil (Nat.toDigits_ne_nil (n := n / 10))
        rw [hsplit, hcons] at h
        rw [hcons]
        exact h
      have hvalue := Nat.ofDigitChars_ten_toDigits (n := n / 10)
      rw [hfront] at hvalue
      have hzero : 0 = n / 10 := hvalue
      omega

theorem digitsForm_toDigits (n : Nat) : DigitsForm n (Nat.toDigits 10 n) where
  isDigit _ hc := Nat.isDigit_of_mem_toDigits (by decide) (by decide) hc
  ne_nil := Nat.toDigits_ne_nil
  zero_alone := toDigits_of_head?_eq_zero n
  value := Nat.ofDigitChars_ten_toDigits

theorem numberForm_decimalChars (value : Int) : NumberForm value (Text.decimalChars value) := by
  rw [Text.decimalChars]
  split
  next h =>
    have hnumber := NumberForm.negative (digitsForm_toDigits value.natAbs)
    rwa [Int.ofNat_natAbs_of_nonpos (Int.le_of_lt h), Int.neg_neg] at hnumber
  next h =>
    have hnumber := NumberForm.natural (digitsForm_toDigits value.natAbs)
    rwa [Int.natAbs_of_nonneg (Int.not_lt.mp h)] at hnumber

theorem space_newLine (level : Nat) : Space (newLine level) := by
  intro c hc
  rcases List.mem_cons.mp hc with rfl | hin
  · rfl
  · rw [List.eq_of_mem_replicate hin]
    rfl

theorem space_nil : Space [] := fun _ hc => absurd hc List.not_mem_nil

/-- A member on a line of its own. -/
theorem memberForm_line (level : Nat) (key : String) {value : Json} {cs after : List Char}
    (h : Form value cs) (hafter : Space after) :
    MemberForm (key, value) (newLine level ++ quoted key ++ ':' :: ' ' :: cs ++ after) := by
  have hspace : Space [' '] := by simp [Space, isSpace]
  have hmember := MemberForm.mk (space_newLine level) (textForm_escape key.toList) space_nil
    (Document.mk hspace h hafter)
  simpa only [quoted, List.append_assoc, List.cons_append, List.nil_append] using hmember

mutual

theorem form_chars (level : Nat) : (value : Json) → Form value (value.chars level)
  | .string text => .string (textForm_escape text.toList)
  | .number value => .number (numberForm_decimalChars value)
  | .array [] => by
    rw [chars]
    exact .emptyArray space_nil
  | .array (item :: items) => by
    rw [chars]
    exact .array (itemsForm_lines (level + 1) items (form_chars (level + 1) item)
      (space_newLine level))
  | .object [] => by
    rw [chars]
    exact .emptyObject space_nil
  | .object ((key, value) :: members) => by
    rw [chars]
    exact .object (membersForm_lines (level + 1) key members (form_chars (level + 1) value)
      (space_newLine level))

theorem itemsForm_lines (level : Nat) {item : Json} {cs after : List Char} :
    (items : List Json) → Form item cs → Space after →
      ItemsForm (item :: items) (newLine level ++ cs ++ itemChars level items ++ after)
  | [], h, hafter => by
    rw [itemChars, List.append_nil]
    exact .last (.mk (space_newLine level) h hafter)
  | next :: items, h, hafter => by
    have hitems := ItemsForm.more (.mk (space_newLine level) h space_nil)
      (itemsForm_lines level items (form_chars level next) hafter)
    simpa only [itemChars, List.append_assoc, List.cons_append, List.nil_append] using hitems

theorem membersForm_lines (level : Nat) (key : String) {value : Json} {cs after : List Char} :
    (members : List (String × Json)) → Form value cs → Space after →
      MembersForm ((key, value) :: members)
        (newLine level ++ quoted key ++ ':' :: ' ' :: cs ++ memberChars level members ++ after)
  | [], h, hafter => by
    rw [memberChars, List.append_nil]
    exact .last (memberForm_line level key h hafter)
  | (nextKey, next) :: members, h, hafter => by
    have hmembers := MembersForm.more (memberForm_line level key h space_nil)
      (membersForm_lines level nextKey members (form_chars level next) hafter)
    simpa only [memberChars, List.append_assoc, List.cons_append, List.nil_append] using hmembers

end

theorem document_of_form {value : Json} {cs after : List Char} (h : Form value cs)
    (hafter : Space after) : Document value (cs ++ after) :=
  .mk space_nil h hafter

/-- Spaces may follow the text of a value, and it is a document of no other value. -/
theorem document_text_iff (value other : Json) {after : String} (hafter : Space after.toList) :
    Document other (value.text ++ after).toList ↔ other = value := by
  have hdocument : Document value (value.text ++ after).toList := by
    rw [String.toList_append, text, String.toList_ofList]
    exact document_of_form (form_chars 0 value) hafter
  constructor
  · intro hother
    exact Option.some.inj ((read_of_document hother).symm.trans (read_of_document hdocument))
  · rintro rfl
    exact hdocument

example : text (.array [.string "\"\\\x00é", .number (-10), .array []]) =
    "[\n  \"\\\"\\\\\\u0000é\",\n  -10,\n  []\n]" := by
  rfl

end TopicPlugin.Json
