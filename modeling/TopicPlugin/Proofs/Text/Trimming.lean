import Mathlib.Data.List.TakeWhile
import TopicPlugin.Text.Blank
import TopicPlugin.Text.Split

/-!
# Trimming

Blanks around a text do not count: all texts that differ in these only are trimmed to one text, and
trimming takes away nothing else. A character that is no blank shields what stands on its other
side, so the two sides of an equals sign are trimmed apart.
-/

namespace TopicPlugin.Text

/-- Nothing but blanks, if anything at all. -/
def Blank (text : String) : Prop := ∀ c ∈ text.toList, isBlank c = true

/-- A text with blanks around it. -/
def Padded (core text : String) : Prop :=
  ∃ before after, Blank before ∧ Blank after ∧ text = before ++ core ++ after

theorem padded_self (text : String) : Padded text text :=
  ⟨"", "", by simp [Blank], by simp [Blank], by simp⟩

theorem dropWhile_eq_nil_of_blank {cs : List Char} (h : ∀ c ∈ cs, isBlank c = true) :
    cs.dropWhile isBlank = [] :=
  List.dropWhile_eq_nil_iff.mpr h

theorem trimChars_padded {before after : List Char} (hb : ∀ c ∈ before, isBlank c = true)
    (ha : ∀ c ∈ after, isBlank c = true) (cs : List Char) :
    trimChars (before ++ cs ++ after) = trimChars cs := by
  have ha' : ∀ c ∈ after.reverse, isBlank c = true := fun c hc => ha c (List.mem_reverse.mp hc)
  rw [trimChars, trimChars, List.append_assoc, List.dropWhile_append_of_pos hb,
    List.dropWhile_append]
  cases hcs : cs.dropWhile isBlank with
  | nil =>
    rw [List.isEmpty_nil, if_pos rfl, dropWhile_eq_nil_of_blank ha]
  | cons c rest =>
    rw [List.isEmpty_cons, if_neg Bool.false_ne_true, List.reverse_append,
      List.dropWhile_append_of_pos ha']

theorem trim_of_padded {core text : String} (h : Padded core text) : trim text = trim core := by
  obtain ⟨before, after, hb, ha, rfl⟩ := h
  rw [trim, trim, String.toList_append, String.toList_append, trimChars_padded hb ha]

theorem Padded.trans {core text outer : String} (h : Padded core text) (ho : Padded text outer) :
    Padded core outer := by
  obtain ⟨before, after, hb, ha, rfl⟩ := h
  obtain ⟨before', after', hb', ha', rfl⟩ := ho
  refine ⟨before' ++ before, after ++ after', fun c hc => ?_, fun c hc => ?_, ?_⟩
  · rw [String.toList_append, List.mem_append] at hc
    exact hc.elim (hb' c) (hb c)
  · rw [String.toList_append, List.mem_append] at hc
    exact hc.elim (ha c) (ha' c)
  · simp only [String.append_assoc]

theorem padded_front (text : String) :
    Padded (String.ofList (text.toList.dropWhile isBlank)) text := by
  refine ⟨String.ofList (text.toList.takeWhile isBlank), "", fun c hc => ?_, by simp [Blank], ?_⟩
  · rw [String.toList_ofList] at hc
    exact List.mem_takeWhile_imp hc
  · rw [← String.ofList_append, List.takeWhile_append_dropWhile, String.ofList_toList,
      String.append_empty]

theorem padded_back (text : String) :
    Padded (String.ofList (text.toList.reverse.dropWhile isBlank).reverse) text := by
  refine ⟨"", String.ofList (text.toList.reverse.takeWhile isBlank).reverse, by simp [Blank],
    fun c hc => ?_, ?_⟩
  · rw [String.toList_ofList, List.mem_reverse] at hc
    exact List.mem_takeWhile_imp hc
  · rw [String.empty_append, ← String.ofList_append, ← List.reverse_append,
      List.takeWhile_append_dropWhile, List.reverse_reverse, String.ofList_toList]

/-- What trimming takes away is blank. -/
theorem padded_trim (text : String) : Padded (trim text) text := by
  have hback := padded_back (String.ofList (text.toList.dropWhile isBlank))
  rw [String.toList_ofList] at hback
  exact hback.trans (padded_front text)

/-- No blank at either end. -/
structure Unpadded (text : String) : Prop where
  head : ∀ c ∈ text.toList.head?, isBlank c = false
  last : ∀ c ∈ text.toList.getLast?, isBlank c = false

theorem unpadded_iff_all {text : String} :
    Unpadded text ↔ text.toList.head?.all (!isBlank ·) = true ∧
      text.toList.getLast?.all (!isBlank ·) = true := by
  simp only [Option.all_eq_true, Bool.not_eq_true']
  exact ⟨fun h => ⟨h.head, h.last⟩, fun h => ⟨h.1, h.2⟩⟩

instance (text : String) : Decidable (Unpadded text) := decidable_of_iff' _ unpadded_iff_all

theorem isBlank_of_head_dropWhile {cs : List Char} {c : Char}
    (h : c ∈ (cs.dropWhile isBlank).head?) : isBlank c = false := by
  have hhead := List.head?_dropWhile_not isBlank cs
  rw [h] at hhead
  exact hhead

theorem dropWhile_eq_self_of_head {cs : List Char} (h : ∀ c ∈ cs.head?, isBlank c = false) :
    cs.dropWhile isBlank = cs := by
  cases cs with
  | nil => rfl
  | cons c cs => exact List.dropWhile_cons_of_neg (by simp [h c rfl])

theorem unpadded_trim (text : String) : Unpadded (trim text) := by
  have hchars : (trim text).toList = trimChars text.toList := String.toList_ofList
  constructor
  · intro c hc
    rw [hchars] at hc
    -- The first character that is kept is the first one behind the blanks in front.
    obtain ⟨rest, hrest⟩ : trimChars text.toList <+: text.toList.dropWhile isBlank := by
      rw [trimChars, ← List.reverse_suffix, List.reverse_reverse]
      exact List.dropWhile_suffix isBlank
    have hhead : c ∈ (text.toList.dropWhile isBlank).head? := by
      rw [← hrest, List.head?_append, hc]
      rfl
    exact isBlank_of_head_dropWhile hhead
  · intro c hc
    rw [hchars, trimChars, List.getLast?_reverse] at hc
    exact isBlank_of_head_dropWhile hc

/-- Where there is nothing to trim, trimming does nothing. -/
theorem Unpadded.trim_eq {text : String} (h : Unpadded text) : trim text = text := by
  have hback : ∀ c ∈ text.toList.reverse.head?, isBlank c = false := by
    rw [List.head?_reverse]
    exact h.last
  rw [trim, trimChars, dropWhile_eq_self_of_head h.head, dropWhile_eq_self_of_head hback,
    List.reverse_reverse, String.ofList_toList]

theorem dropWhile_append_stop {c : Char} (hc : isBlank c = false) (before after : List Char) :
    (before ++ c :: after).dropWhile isBlank = before.dropWhile isBlank ++ c :: after := by
  rw [List.dropWhile_append]
  split
  next hempty =>
    rw [List.isEmpty_iff.mp hempty, List.nil_append, List.dropWhile_cons_of_neg (by simp [hc])]
  next => rfl

/-- Where a separator is no blank, trimming works on the outer sides of what it separates. -/
theorem trimChars_append_stop {c : Char} (hc : isBlank c = false) (before after : List Char) :
    trimChars (before ++ c :: after) =
      before.dropWhile isBlank ++ c :: (after.reverse.dropWhile isBlank).reverse := by
  have hreverse : (before.dropWhile isBlank ++ c :: after).reverse =
      after.reverse ++ c :: (before.dropWhile isBlank).reverse := by
    simp
  rw [trimChars, dropWhile_append_stop hc, hreverse, dropWhile_append_stop hc]
  simp

theorem cutChars_of_notMem {sep : Char} {before : List Char} (h : sep ∉ before)
    (after : List Char) : cutChars sep (before ++ sep :: after) = some (before, after) := by
  induction before with
  | nil => simp [cutChars]
  | cons c before ih =>
    rw [List.mem_cons, not_or] at h
    rw [List.cons_append, cutChars_cons, if_neg (Ne.symm h.1), ih h.2]
    rfl

/-- The separator and what it separates make up the text. -/
theorem toList_of_cut {sep : Char} {text before after : String}
    (h : cut sep text = some (before, after)) :
    text.toList = before.toList ++ sep :: after.toList := by
  obtain ⟨⟨front, back⟩, hcut, hparts⟩ := Option.map_eq_some_iff.mp h
  obtain ⟨rfl, rfl⟩ := Prod.mk.inj hparts
  rw [cutChars] at hcut
  cases hstop : text.toList.dropWhile (· ≠ sep) with
  | nil =>
    rw [hstop] at hcut
    cases hcut
  | cons stop rest =>
    rw [hstop] at hcut
    obtain ⟨rfl, rfl⟩ := Prod.mk.inj (Option.some.inj hcut)
    have hhead := List.head?_dropWhile_not (fun c => decide (c ≠ sep)) text.toList
    rw [hstop] at hhead
    obtain rfl : stop = sep := by simpa using hhead
    rw [String.toList_ofList, String.toList_ofList, ← hstop, List.takeWhile_append_dropWhile]

/-- What is cut from a trimmed text has blanks at the cut only, and trimming takes them as well. -/
theorem exists_cut_trim {sep : Char} (hsep : isBlank sep = false) {text before after : String}
    (htext : text.toList = before.toList ++ sep :: after.toList) (h : sep ∉ before.toList) :
    ∃ front back, cut sep (trim text) = some (front, back) ∧
      trim front = trim before ∧ trim back = trim after := by
  have hfront : sep ∉ before.toList.dropWhile isBlank :=
    fun hin => h ((List.dropWhile_sublist _).subset hin)
  refine ⟨_, _, ?_, (trim_of_padded (padded_front before)).symm,
    (trim_of_padded (padded_back after)).symm⟩
  rw [cut, trim, String.toList_ofList, htext, trimChars_append_stop hsep,
    cutChars_of_notMem hfront, Option.map_some]

end TopicPlugin.Text
