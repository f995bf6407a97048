import TopicPlugin.Proofs.Json.Forms

/-!
# Reading JSON documents

A reader of JSON documents that goes through the characters once. What it gives is a value with the
characters left, which are fewer than it was given; the type carries the last fact, and it is what
lets the reader call itself for the parts of a value.

The reader reads every form of a value, whatever follows, as long as no digit follows a number. So
the characters of a document are those of one value only.
-/

namespace TopicPlugin.Json

/-- What is read from the front of some characters, and the characters left. -/
structure Rest (cs : List Char) (α : Type) where
  value : α
  rest : List Char
  shorter : rest.length < cs.length

namespace Rest

variable {α β : Type} {cs ds : List Char}

def map (f : α → β) (r : Rest cs α) : Rest cs β := ⟨f r.value, r.rest, r.shorter⟩

/-- What is read from the characters that another reading leaves. -/
def andThen (r : Rest cs α) (s : Rest r.rest β) : Rest cs β :=
  ⟨s.value, s.rest, Nat.lt_trans s.shorter r.shorter⟩

/-- What is read from the end of some characters. -/
def ofEnd (h : ds.length ≤ cs.length) (r : Rest ds α) : Rest cs α :=
  ⟨r.value, r.rest, Nat.lt_of_lt_of_le r.shorter h⟩

end Rest

/-- The first character that is no space. -/
def next (cs : List Char) : Option (Rest cs Char) :=
  match h : cs.dropWhile isSpace with
  | [] => none
  | c :: rest => some ⟨c, rest, by
      have hle := (List.dropWhile_suffix (l := cs) isSpace).length_le
      rw [h, List.length_cons] at hle
      exact hle⟩

def expect (mark : Char) (cs : List Char) : Option (Rest cs Unit) := do
  let head ← next cs
  if head.value = mark then some (head.map fun _ => ()) else none

def readUnit (cs : List Char) : Option (Rest cs Nat) :=
  match cs with
  | '\\' :: 'u' :: a :: b :: c :: d :: rest =>
    (hexNumber? [a, b, c, d]).map fun unit => ⟨unit, rest, by simp only [List.length_cons]; omega⟩
  | _ => none

def ofCode? (code : Nat) : Option Char := if code.isValidChar then some (Char.ofNat code) else none

/-- The character that an escape by code units stands for. -/
def readUnits (cs : List Char) : Option (Rest cs Char) := do
  let first ← readUnit cs
  if IsHigh first.value then
    let second ← readUnit first.rest
    let c ← if IsLow second.value then ofCode? (pairCode first.value second.value) else none
    some (first.andThen (second.map fun _ => c))
  else
    let c ← ofCode? first.value
    some (first.map fun _ => c)

/-- The next character of a string; there is none at a quotation mark. -/
def readChar (cs : List Char) : Option (Rest cs Char) :=
  match cs with
  | '\\' :: 'u' :: rest => readUnits ('\\' :: 'u' :: rest)
  | '\\' :: letter :: rest =>
    (letters.lookup letter).map fun c => ⟨c, rest, by simp only [List.length_cons]; omega⟩
  | c :: rest =>
    if c = '\"' ∨ c = '\\' ∨ c.toNat < 0x20 then none else some ⟨c, rest, Nat.lt_succ_self _⟩
  | [] => none

/-- No more characters, and the quotation mark after them. -/
def readClosing (cs : List Char) : Option (Rest cs (List Char)) :=
  match cs with
  | '\"' :: rest => some ⟨[], rest, Nat.lt_succ_self _⟩
  | _ => none

/-- The characters of a string and the quotation mark after them. -/
def readText (cs : List Char) : Option (Rest cs (List Char)) :=
  match readChar cs with
  | some c => (readText c.rest).map fun text => c.andThen (text.map (c.value :: ·))
  | none => readClosing cs
termination_by cs.length
decreasing_by exact c.shorter

/-- The number that digits spell; a zero in front of others spells none. -/
def digitsValue? (digits : List Char) : Option Nat :=
  if digits.head? = some '0' ∧ digits ≠ ['0'] then none
  else some (Nat.ofDigitChars 10 digits 0)

def readDigits (cs : List Char) : Option (Rest cs Nat) :=
  match cs with
  | [] => none
  | c :: rest =>
    if c.isDigit then
      (digitsValue? (c :: rest.takeWhile Char.isDigit)).map fun n =>
        ⟨n, rest.dropWhile Char.isDigit, Nat.lt_succ_of_le (List.dropWhile_suffix _).length_le⟩
    else none

def readNumber (cs : List Char) : Option (Rest cs Int) :=
  match cs with
  | '-' :: rest =>
    (readDigits rest).map fun n => (n.map fun value => -Int.ofNat value).ofEnd (Nat.le_succ _)
  | cs => (readDigits cs).map fun n => n.map Int.ofNat

/-- Parts with a comma between them, up to the mark that closes them. -/
def readListed {α : Type} (close : Char) (cs : List Char)
    (part : (ds : List Char) → ds.length ≤ cs.length → Option (Rest ds α)) :
    Option (Rest cs (List α)) := do
  let first ← part cs (Nat.le_refl _)
  let mark ← next first.rest
  if mark.value = close then some (first.andThen (mark.map fun _ => [first.value]))
  else if mark.value = ',' then
    let others ← readListed close mark.rest fun ds h =>
      part ds (Nat.le_trans h (Nat.le_of_lt (Nat.lt_trans mark.shorter first.shorter)))
    some (first.andThen (mark.andThen (others.map (first.value :: ·))))
  else none
termination_by cs.length
decreasing_by exact Nat.lt_trans mark.shorter first.shorter

/-- A key and a value with a colon between them. -/
def readMember (cs : List Char)
    (value : (ds : List Char) → ds.length < cs.length → Option (Rest ds Json)) :
    Option (Rest cs (String × Json)) := do
  let opening ← expect '\"' cs
  let key ← readText opening.rest
  let colon ← expect ':' key.rest
  let value ← value colon.rest
    (Nat.lt_trans colon.shorter (Nat.lt_trans key.shorter opening.shorter))
  some (opening.andThen (key.andThen (colon.andThen (value.map (String.ofList key.value, ·)))))

/-- A value with spaces in front of it. Items and members are tried first, since none begins with
the mark that closes an empty array or object. -/
def readValue (cs : List Char) : Option (Rest cs Json) := do
  let head ← next cs
  match head.value with
  | '\"' =>
    let text ← readText head.rest
    some (head.andThen (text.map fun text => .string (String.ofList text)))
  | '[' =>
    match readListed ']' head.rest fun ds _ => readValue ds with
    | some items => some (head.andThen (items.map .array))
    | none =>
      let closed ← expect ']' head.rest
      some (head.andThen (closed.map fun _ => .array []))
  | '\x7b' =>
    match readListed '\x7d' head.rest fun ds _ => readMember ds fun es _ => readValue es with
    | some members => some (head.andThen (members.map .object))
    | none =>
      let closed ← expect '\x7d' head.rest
      some (head.andThen (closed.map fun _ => .object []))
  | _ =>
    let number ← readNumber (cs.dropWhile isSpace)
    some ((number.map .number).ofEnd (List.dropWhile_suffix isSpace).length_le)
termination_by cs.length
decreasing_by
  all_goals
    have := head.shorter
    omega

/-- The value that a text writes. -/
def read (text : String) : Option Json := do
  let value ← readValue text.toList
  if value.rest.all isSpace then some value.value else none

/-- A value is read, and these characters are left. -/
def Gives {α : Type} {cs : List Char} (result : Option (Rest cs α)) (value : α)
    (rest : List Char) : Prop :=
  ∃ shorter, result = some ⟨value, rest, shorter⟩

theorem dropWhile_isSpace {before : List Char} (hbefore : Space before) {c : Char}
    (hc : isSpace c = false) (rest : List Char) :
    (before ++ c :: rest).dropWhile isSpace = c :: rest := by
  rw [List.dropWhile_append_of_pos hbefore, List.dropWhile_cons_of_neg (by simp [hc])]

theorem gives_next {before : List Char} (hbefore : Space before) (c : Char)
    (hc : isSpace c = false) (rest : List Char) : Gives (next (before ++ c :: rest)) c rest := by
  have hdrop := dropWhile_isSpace hbefore hc rest
  refine ⟨by simp only [List.length_append, List.length_cons]; omega, ?_⟩
  rw [next]
  split
  next h =>
    rw [hdrop] at h
    cases h
  next d others h =>
    rw [hdrop] at h
    cases h
    rfl

theorem gives_expect {before : List Char} (hbefore : Space before) (mark : Char)
    (hmark : isSpace mark = false) (rest : List Char) :
    Gives (expect mark (before ++ mark :: rest)) () rest := by
  obtain ⟨hlt, hnext⟩ := gives_next hbefore mark hmark rest
  refine ⟨hlt, ?_⟩
  rw [expect, hnext]
  simp [Rest.map]

theorem gives_readUnit {unit : Nat} {cs : List Char} (h : UnitForm unit cs) (rest : List Char) :
    Gives (readUnit (cs ++ rest)) unit rest := by
  cases h with
  | mk hdigits =>
    refine ⟨by simp only [List.length_append, List.length_cons]; omega, ?_⟩
    simp only [List.cons_append, List.nil_append, readUnit, hdigits, Option.map_some]

theorem ofCode?_toNat (c : Char) : ofCode? c.toNat = some c := by
  have hvalid : c.toNat.isValidChar := c.valid
  rw [ofCode?, if_pos hvalid, Char.ofNat_toNat]

theorem not_isHigh_toNat (c : Char) : ¬IsHigh c.toNat := by
  have hvalid : c.toNat < 0xD800 ∨ 0xDFFF < c.toNat ∧ c.toNat < 0x110000 := c.valid
  rw [IsHigh]
  omega

theorem gives_readUnits {c : Char} {cs : List Char} (h : UnitForm c.toNat cs) (rest : List Char) :
    Gives (readUnits (cs ++ rest)) c rest := by
  obtain ⟨hlt, hunit⟩ := gives_readUnit h rest
  refine ⟨hlt, ?_⟩
  rw [readUnits, hunit]
  simp [not_isHigh_toNat, ofCode?_toNat, Rest.map]

theorem gives_readUnits_pair {c : Char} {high low : Nat} {cs ds : List Char} (hhigh : IsHigh high)
    (hlow : IsLow low) (h : UnitForm high cs) (h' : UnitForm low ds)
    (hc : c.toNat = pairCode high low) (rest : List Char) :
    Gives (readUnits (cs ++ ds ++ rest)) c rest := by
  obtain ⟨hfirst, hhighUnit⟩ := gives_readUnit h (ds ++ rest)
  obtain ⟨hsecond, hlowUnit⟩ := gives_readUnit h' rest
  rw [List.append_assoc]
  refine ⟨Nat.lt_trans hsecond hfirst, ?_⟩
  rw [readUnits, hhighUnit]
  simp [hhigh, hlow, hlowUnit, ← hc, ofCode?_toNat, Rest.map, Rest.andThen]

theorem readChar_of_unitForm {unit : Nat} {cs rest : List Char} (h : UnitForm unit cs) :
    readChar (cs ++ rest) = readUnits (cs ++ rest) := by
  cases h with
  | mk => rfl

theorem gives_readChar {c : Char} {cs : List Char} (h : CharForm c cs) (rest : List Char) :
    Gives (readChar (cs ++ rest)) c rest := by
  cases h with
  | plain hquote hbackslash hcode =>
    rw [List.singleton_append]
    refine ⟨Nat.lt_succ_self _, ?_⟩
    rw [readChar]
    · simp [hquote, hbackslash, Nat.not_lt.mpr hcode]
    · rintro _ rfl
      exact absurd rfl hbackslash
    · rintro _ _ rfl
      exact absurd rfl hbackslash
  | letter hletter =>
    refine ⟨by simp only [List.length_append, List.length_cons]; omega, ?_⟩
    simp only [letters, List.mem_cons, Prod.mk.injEq, List.not_mem_nil, or_false] at hletter
    rcases hletter with ⟨rfl, rfl⟩ | ⟨rfl, rfl⟩ | ⟨rfl, rfl⟩ | ⟨rfl, rfl⟩ | ⟨rfl, rfl⟩ |
      ⟨rfl, rfl⟩ | ⟨rfl, rfl⟩ | ⟨rfl, rfl⟩ <;> rfl
  | unit hunit =>
    rw [readChar_of_unitForm hunit]
    exact gives_readUnits hunit rest
  | pair hhigh hlow hfirst hsecond hc =>
    have hread := gives_readUnits_pair hhigh hlow hfirst hsecond hc rest
    rw [List.append_assoc] at hread ⊢
    rw [readChar_of_unitForm hfirst]
    exact hread

theorem gives_readText {text cs : List Char} (h : TextForm text cs) (rest : List Char) :
    Gives (readText (cs ++ '\"' :: rest)) text rest := by
  induction h with
  | nil =>
    refine ⟨Nat.lt_succ_self _, ?_⟩
    rw [readText]
    simp [readChar, readClosing]
  | cons hchar _ ih =>
    obtain ⟨hlt, hread⟩ := ih
    obtain ⟨hcharLt, hcharRead⟩ := gives_readChar hchar (_ ++ '\"' :: rest)
    rw [List.append_assoc]
    refine ⟨Nat.lt_trans hlt hcharLt, ?_⟩
    rw [readText, hcharRead]
    simp [hread, Rest.map, Rest.andThen]

/-- The characters do not go on with a digit. -/
def NoDigit (cs : List Char) : Prop := ∀ c ∈ cs.head?, c.isDigit = false

theorem noDigit_cons {c : Char} {cs : List Char} (h : c.isDigit = false) : NoDigit (c :: cs) := by
  intro d hd
  obtain rfl : c = d := Option.some.inj hd
  exact h

theorem isDigit_of_isSpace {c : Char} (h : isSpace c = true) : c.isDigit = false := by
  simp only [isSpace, Bool.or_eq_true, decide_eq_true_eq] at h
  rcases h with ((rfl | rfl) | rfl) | rfl <;> rfl

theorem NoDigit.spaced {after rest : List Char} (hafter : Space after) (h : NoDigit rest) :
    NoDigit (after ++ rest) := by
  cases after with
  | nil => exact h
  | cons c after => exact noDigit_cons (isDigit_of_isSpace (hafter c List.mem_cons_self))

theorem takeWhile_isDigit {digits rest : List Char} (hdigits : ∀ c ∈ digits, c.isDigit = true)
    (hrest : NoDigit rest) : (digits ++ rest).takeWhile Char.isDigit = digits ∧
      (digits ++ rest).dropWhile Char.isDigit = rest := by
  rw [List.takeWhile_append_of_pos hdigits, List.dropWhile_append_of_pos hdigits]
  cases rest with
  | nil => simp
  | cons c rest => simp [hrest c rfl]

theorem DigitsForm.exists_cons {n : Nat} {cs : List Char} (h : DigitsForm n cs) :
    ∃ c digits, cs = c :: digits ∧ c.isDigit = true := by
  cases cs with
  | nil => exact absurd rfl h.ne_nil
  | cons c digits => exact ⟨c, digits, rfl, h.isDigit c List.mem_cons_self⟩

theorem gives_readDigits {n : Nat} {cs rest : List Char} (h : DigitsForm n cs)
    (hrest : NoDigit rest) : Gives (readDigits (cs ++ rest)) n rest := by
  obtain ⟨c, digits, rfl, hc⟩ := h.exists_cons
  obtain ⟨htake, hdrop⟩ :=
    takeWhile_isDigit (fun d hd => h.isDigit d (List.mem_cons_of_mem c hd)) hrest
  have hvalue : digitsValue? (c :: digits) = some n := by
    rw [digitsValue?, if_neg (fun hlead => hlead.2 (h.zero_alone hlead.1)), h.value]
  refine ⟨by simp only [List.cons_append, List.length_cons, List.length_append]; omega, ?_⟩
  simp only [List.cons_append, readDigits, hc, if_true, htake, hvalue, hdrop, Option.map_some]

theorem NumberForm.exists_cons {value : Int} {cs : List Char} (h : NumberForm value cs) :
    ∃ c others, cs = c :: others ∧ (c.isDigit = true ∨ c = '-') := by
  cases h with
  | natural hdigits =>
    obtain ⟨c, digits, hcs, hc⟩ := hdigits.exists_cons
    exact ⟨c, digits, hcs, .inl hc⟩
  | negative => exact ⟨'-', _, rfl, .inr rfl⟩

/-- A number begins with no space, and not as another value does. -/
theorem of_isDigit_or_eq_minus {c : Char} (h : c.isDigit = true ∨ c = '-') :
    isSpace c = false ∧ c ≠ '\"' ∧ c ≠ '[' ∧ c ≠ '\x7b' := by
  rcases h with h | rfl
  · refine ⟨Bool.eq_false_iff.mpr fun hspace => ?_, ?_, ?_, ?_⟩
    · rw [isDigit_of_isSpace hspace] at h
      cases h
    all_goals
      rintro rfl
      cases h
  · decide

theorem gives_readNumber {value : Int} {cs rest : List Char} (h : NumberForm value cs)
    (hrest : NoDigit rest) : Gives (readNumber (cs ++ rest)) value rest := by
  cases h with
  | natural hdigits =>
    obtain ⟨hlt, hread⟩ := gives_readDigits hdigits hrest
    refine ⟨hlt, ?_⟩
    rw [readNumber]
    · rw [hread]
      rfl
    · intro others heq
      obtain ⟨c, digits, rfl, hc⟩ := hdigits.exists_cons
      obtain rfl : c = '-' := (List.cons.inj heq).1
      cases hc
  | negative hdigits =>
    obtain ⟨hlt, hread⟩ := gives_readDigits hdigits hrest
    refine ⟨Nat.lt_succ_of_lt hlt, ?_⟩
    simp only [List.cons_append, readNumber, hread]
    rfl

section

variable {α : Type} {part : (ds : List Char) → Option (Rest ds α)}

/-- The part is read from these characters whatever follows, up to spaces at their end. -/
def Reads (part : (ds : List Char) → Option (Rest ds α)) (value : α) (cs : List Char) : Prop :=
  ∃ after, Space after ∧ ∀ rest, NoDigit rest → Gives (part (cs ++ rest)) value (after ++ rest)

/-- The mark after a part is read next. -/
theorem Reads.mark {value : α} {cs : List Char} (h : Reads part value cs) (mark : Char)
    (hspace : isSpace mark = false) (hdigit : mark.isDigit = false) (rest : List Char) :
    ∃ after, Gives (part (cs ++ mark :: rest)) value (after ++ mark :: rest) ∧
      Gives (next (after ++ mark :: rest)) mark rest := by
  obtain ⟨after, hafter, hread⟩ := h
  exact ⟨after, hread _ (noDigit_cons hdigit), gives_next hafter mark hspace rest⟩

variable {first : α} {cs rest : List Char} {close : Char}

theorem gives_readListed_last (h : Reads part first cs) (hspace : isSpace close = false)
    (hdigit : close.isDigit = false) (rest : List Char) :
    Gives (readListed close (cs ++ close :: rest) fun ds _ => part ds) [first] rest := by
  obtain ⟨after, ⟨hfirst, hpart⟩, hmark, hnext⟩ := h.mark close hspace hdigit rest
  refine ⟨Nat.lt_trans hmark hfirst, ?_⟩
  rw [readListed, hpart]
  simp [hnext, Rest.map, Rest.andThen]

theorem gives_readListed_more {others : List α} {more : List Char} (h : Reads part first cs)
    (hclose : close ≠ ',') (hmore : Gives (readListed close more fun ds _ => part ds) others rest) :
    Gives (readListed close (cs ++ ',' :: more) fun ds _ => part ds) (first :: others) rest := by
  obtain ⟨after, ⟨hfirst, hpart⟩, hmark, hnext⟩ := h.mark ',' rfl rfl more
  obtain ⟨hlt, hlisted⟩ := hmore
  refine ⟨Nat.lt_trans hlt (Nat.lt_trans hmark hfirst), ?_⟩
  rw [readListed, hpart]
  simp [hnext, Ne.symm hclose, hlisted, Rest.map, Rest.andThen]

theorem readListed_eq_none (part : (ds : List Char) → Option (Rest ds α)) (close : Char)
    (h : part cs = none) : readListed close cs (fun ds _ => part ds) = none := by
  rw [readListed, h]
  rfl

end

/-- A closing mark begins no value. -/
theorem readValue_eq_none {before rest : List Char} (hbefore : Space before) :
    readValue (before ++ ']' :: rest) = none := by
  obtain ⟨_, hnext⟩ := gives_next hbefore ']' rfl rest
  have hnumber : readNumber ((before ++ ']' :: rest).dropWhile isSpace) = none := by
    rw [dropWhile_isSpace hbefore rfl rest]
    rfl
  rw [readValue, hnext]
  simp [hnumber]

/-- A closing mark begins no member. -/
theorem readMember_eq_none {before rest : List Char} (hbefore : Space before)
    (value : (ds : List Char) → ds.length < _ → Option (Rest ds Json)) :
    readMember (before ++ '\x7d' :: rest) value = none := by
  obtain ⟨_, hnext⟩ := gives_next hbefore '\x7d' rfl rest
  have hexpect : expect '\"' (before ++ '\x7d' :: rest) = none := by
    rw [expect, hnext]
    rfl
  rw [readMember, hexpect]
  rfl

section

variable {before cs rest : List Char}

theorem gives_readValue_string {text : List Char} (hbefore : Space before)
    (h : Gives (readText cs) text rest) :
    Gives (readValue (before ++ '\"' :: cs)) (.string (String.ofList text)) rest := by
  obtain ⟨hopening, hnext⟩ := gives_next hbefore '\"' rfl cs
  obtain ⟨hlt, hread⟩ := h
  refine ⟨Nat.lt_trans hlt hopening, ?_⟩
  rw [readValue, hnext]
  simp [hread, Rest.map, Rest.andThen]

theorem gives_readValue_number {value : Int} (hbefore : Space before) (h : NumberForm value cs)
    (hrest : NoDigit rest) : Gives (readValue (before ++ (cs ++ rest))) (.number value) rest := by
  have hnumber := gives_readNumber h hrest
  obtain ⟨c, others, rfl, hc⟩ := h.exists_cons
  obtain ⟨hspace, hquote, hbracket, hbrace⟩ := of_isDigit_or_eq_minus hc
  obtain ⟨hopening, hnext⟩ := gives_next hbefore c hspace (others ++ rest)
  rw [List.cons_append] at hnumber ⊢
  rw [← dropWhile_isSpace hbefore hspace (others ++ rest)] at hnumber
  obtain ⟨hlt, hread⟩ := hnumber
  refine ⟨Nat.lt_of_lt_of_le hlt (List.dropWhile_suffix _).length_le, ?_⟩
  rw [readValue, hnext]
  simp [hread, Rest.map, Rest.ofEnd]

theorem gives_readValue_array {items : List Json} (hbefore : Space before)
    (h : Gives (readListed ']' cs fun ds _ => readValue ds) items rest) :
    Gives (readValue (before ++ '[' :: cs)) (.array items) rest := by
  obtain ⟨hopening, hnext⟩ := gives_next hbefore '[' rfl cs
  obtain ⟨hlt, hread⟩ := h
  refine ⟨Nat.lt_trans hlt hopening, ?_⟩
  rw [readValue, hnext]
  simp [hread, Rest.map, Rest.andThen]

theorem gives_readValue_emptyArray (hbefore : Space before) (hspace : Space cs) :
    Gives (readValue (before ++ '[' :: (cs ++ ']' :: rest))) (.array []) rest := by
  obtain ⟨hopening, hnext⟩ :=
    gives_next hbefore '[' rfl (cs ++ ']' :: rest)
  obtain ⟨hlt, hexpect⟩ := gives_expect hspace ']' rfl rest
  have hnone : readListed ']' (cs ++ ']' :: rest) (fun ds _ => readValue ds) = none :=
    readListed_eq_none readValue _ (readValue_eq_none hspace)
  refine ⟨Nat.lt_trans hlt hopening, ?_⟩
  rw [readValue, hnext]
  simp [hnone, hexpect, Rest.map, Rest.andThen]

theorem gives_readValue_object {members : List (String × Json)} (hbefore : Space before)
    (h : Gives (readListed '\x7d' cs fun ds _ => readMember ds fun es _ => readValue es)
      members rest) :
    Gives (readValue (before ++ '\x7b' :: cs)) (.object members) rest := by
  obtain ⟨hopening, hnext⟩ := gives_next hbefore '\x7b' rfl cs
  obtain ⟨hlt, hread⟩ := h
  refine ⟨Nat.lt_trans hlt hopening, ?_⟩
  rw [readValue, hnext]
  simp [hread, Rest.map, Rest.andThen]

theorem gives_readValue_emptyObject (hbefore : Space before) (hspace : Space cs) :
    Gives (readValue (before ++ '\x7b' :: (cs ++ '\x7d' :: rest))) (.object []) rest := by
  obtain ⟨hopening, hnext⟩ :=
    gives_next hbefore '\x7b' rfl (cs ++ '\x7d' :: rest)
  obtain ⟨hlt, hexpect⟩ := gives_expect hspace '\x7d' rfl rest
  have hnone : readListed '\x7d' (cs ++ '\x7d' :: rest)
      (fun ds _ => readMember ds fun es _ => readValue es) = none :=
    readListed_eq_none (fun ds => readMember ds fun es _ => readValue es) _
      (readMember_eq_none hspace _)
  refine ⟨Nat.lt_trans hlt hopening, ?_⟩
  rw [readValue, hnext]
  simp [hnone, hexpect, Rest.map, Rest.andThen]

theorem gives_readMember {key : String} {value : Json} {ks between : List Char}
    (hbefore : Space before) (hkey : TextForm key.toList ks) (hbetween : Space between)
    (h : Gives (readValue cs) value rest) :
    Gives (readMember (before ++ '\"' :: (ks ++ '\"' :: (between ++ ':' :: cs)))
      fun ds _ => readValue ds) (key, value) rest := by
  obtain ⟨hvalue, hreadValue⟩ := h
  obtain ⟨hcolon, hreadColon⟩ := gives_expect hbetween ':' rfl cs
  obtain ⟨htext, hreadText⟩ := gives_readText hkey (between ++ ':' :: cs)
  obtain ⟨hopening, hreadOpening⟩ := gives_expect hbefore '\"' rfl
    (ks ++ '\"' :: (between ++ ':' :: cs))
  refine ⟨Nat.lt_trans hvalue (Nat.lt_trans hcolon (Nat.lt_trans htext hopening)), ?_⟩
  rw [readMember, hreadOpening]
  simp [hreadText, hreadColon, hreadValue, Rest.map, Rest.andThen]

end

-- By recursion on the forms, each rule by the lemma for the part of the reader that takes it. A
-- document is read up to the spaces at its end, which the reader of the next mark passes over.
mutual

theorem gives_of_form {value : Json} {cs before rest : List Char} (hbefore : Space before)
    (hrest : NoDigit rest) (h : Form value cs) :
    Gives (readValue (before ++ (cs ++ rest))) value rest := by
  match h with
  | .string htext =>
    have hread := gives_readValue_string hbefore (gives_readText htext rest)
    rw [String.ofList_toList] at hread
    rw [List.cons_append, List.append_assoc]
    exact hread
  | .number hnumber => exact gives_readValue_number hbefore hnumber hrest
  | .emptyArray hspace =>
    rw [List.cons_append, List.append_assoc]
    exact gives_readValue_emptyArray hbefore hspace
  | .array hitems =>
    rw [List.cons_append, List.append_assoc]
    exact gives_readValue_array hbefore (gives_of_itemsForm hitems rest)
  | .emptyObject hspace =>
    rw [List.cons_append, List.append_assoc]
    exact gives_readValue_emptyObject hbefore hspace
  | .object hmembers =>
    rw [List.cons_append, List.append_assoc]
    exact gives_readValue_object hbefore (gives_of_membersForm hmembers rest)

theorem reads_of_document {value : Json} {cs : List Char} (h : Document value cs) :
    Reads readValue value cs := by
  match h with
  | .mk hbefore hform hafter =>
    refine ⟨_, hafter, fun rest hrest => ?_⟩
    rw [List.append_assoc, List.append_assoc]
    exact gives_of_form hbefore (hrest.spaced hafter) hform

theorem gives_of_itemsForm {items : List Json} {cs : List Char} (h : ItemsForm items cs)
    (rest : List Char) :
    Gives (readListed ']' (cs ++ ']' :: rest) fun ds _ => readValue ds) items rest := by
  match h with
  | .last hitem => exact gives_readListed_last (reads_of_document hitem) rfl rfl rest
  | .more hitem hitems =>
    rw [List.append_assoc, List.cons_append]
    exact gives_readListed_more (reads_of_document hitem) (by decide)
      (gives_of_itemsForm hitems rest)

theorem reads_of_memberForm {member : String × Json} {cs : List Char} (h : MemberForm member cs) :
    Reads (fun ds => readMember ds fun es _ => readValue es) member cs := by
  match h with
  | .mk hbefore hkey hbetween hdocument =>
    obtain ⟨after, hafter, hread⟩ := reads_of_document hdocument
    refine ⟨after, hafter, fun rest hrest => ?_⟩
    rw [List.append_assoc, List.cons_append, List.append_assoc, List.cons_append,
      List.append_assoc, List.cons_append]
    exact gives_readMember hbefore hkey hbetween (hread rest hrest)

theorem gives_of_membersForm {members : List (String × Json)} {cs : List Char}
    (h : MembersForm members cs) (rest : List Char) :
    Gives (readListed '\x7d' (cs ++ '\x7d' :: rest)
      fun ds _ => readMember ds fun es _ => readValue es) members rest := by
  match h with
  | .last hmember => exact gives_readListed_last (reads_of_memberForm hmember) rfl rfl rest
  | .more hmember hmembers =>
    rw [List.append_assoc, List.cons_append]
    exact gives_readListed_more (reads_of_memberForm hmember) (by decide)
      (gives_of_membersForm hmembers rest)

end

/-- A document is read as its value, so it has no other one. -/
theorem read_of_document {value : Json} {text : String} (h : Document value text.toList) :
    read text = some value := by
  obtain ⟨after, hafter, hread⟩ := reads_of_document h
  have hvalue := hread [] (by simp [NoDigit])
  rw [List.append_nil, List.append_nil] at hvalue
  obtain ⟨hlt, hvalue⟩ := hvalue
  rw [read, hvalue]
  simp only [Option.bind_eq_bind, Option.bind_some]
  rw [if_pos (List.all_eq_true.mpr hafter)]

end TopicPlugin.Json
