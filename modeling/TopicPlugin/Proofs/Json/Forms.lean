import TopicPlugin.Json

/-!
# The forms of JSON documents

A value can be written in more than one way: with spaces around it and between its parts, and with
its characters as they are, as escapes by a letter or as escapes by code units. The relations here
say which characters write which value, with no mention of a reader or of a layout. Values with a
fraction or an exponent and the three literals are no values of this library, so the forms leave
them out.
-/

namespace TopicPlugin.Json

def hexDigit? (c : Char) : Option Nat :=
  if '0' ≤ c ∧ c ≤ '9' then some (c.toNat - 48)
  else if 'a' ≤ c ∧ c ≤ 'f' then some (c.toNat - 87)
  else if 'A' ≤ c ∧ c ≤ 'F' then some (c.toNat - 55)
  else none

/-- The number that hexadecimal digits spell. -/
def hexNumber? (digits : List Char) : Option Nat :=
  digits.foldlM (fun n c => (hexDigit? c).map (16 * n + ·)) 0

/-- The letters that stand after a backslash, each with its character. -/
def letters : List (Char × Char) :=
  [('\"', '\"'), ('\\', '\\'), ('/', '/'), ('b', '\x08'), ('f', '\x0c'), ('n', '\n'), ('r', '\r'),
    ('t', '\t')]

/-- A code unit of sixteen bits by four hexadecimal digits. -/
inductive UnitForm : Nat → List Char → Prop
  | mk {unit : Nat} {a b c d : Char} (h : hexNumber? [a, b, c, d] = some unit) :
      UnitForm unit ['\\', 'u', a, b, c, d]

/-- The first code unit of a pair. -/
def IsHigh (unit : Nat) : Prop := 0xD800 ≤ unit ∧ unit < 0xDC00

/-- The second code unit of a pair. -/
def IsLow (unit : Nat) : Prop := 0xDC00 ≤ unit ∧ unit < 0xE000

instance : DecidablePred IsHigh := fun _ => inferInstanceAs (Decidable (_ ∧ _))
instance : DecidablePred IsLow := fun _ => inferInstanceAs (Decidable (_ ∧ _))

/-- The character that two code units stand for together. -/
def pairCode (high low : Nat) : Nat := 0x10000 + (high - 0xD800) * 0x400 + (low - 0xDC00)

/-- A character between the quotation marks of a string. -/
inductive CharForm : Char → List Char → Prop
  | plain {c : Char} (hquote : c ≠ '\"') (hbackslash : c ≠ '\\') (h : 0x20 ≤ c.toNat) :
      CharForm c [c]
  | letter {letter c : Char} (h : (letter, c) ∈ letters) : CharForm c ['\\', letter]
  | unit {c : Char} {cs : List Char} (h : UnitForm c.toNat cs) : CharForm c cs
  | pair {c : Char} {high low : Nat} {cs ds : List Char} (hhigh : IsHigh high) (hlow : IsLow low)
      (h : UnitForm high cs) (h' : UnitForm low ds) (hc : c.toNat = pairCode high low) :
      CharForm c (cs ++ ds)

inductive TextForm : List Char → List Char → Prop
  | nil : TextForm [] []
  | cons {c : Char} {text cs rest : List Char} (h : CharForm c cs) (ht : TextForm text rest) :
      TextForm (c :: text) (cs ++ rest)

/-- Decimal digits, the first of which is zero only if it stands alone. -/
structure DigitsForm (n : Nat) (cs : List Char) : Prop where
  isDigit : ∀ c ∈ cs, c.isDigit = true
  ne_nil : cs ≠ []
  zero_alone : cs.head? = some '0' → cs = ['0']
  value : Nat.ofDigitChars 10 cs 0 = n

inductive NumberForm : Int → List Char → Prop
  | natural {n : Nat} {cs : List Char} (h : DigitsForm n cs) : NumberForm n cs
  | negative {n : Nat} {cs : List Char} (h : DigitsForm n cs) : NumberForm (-n) ('-' :: cs)

def isSpace (c : Char) : Bool := c = ' ' || c = '\n' || c = '\r' || c = '\t'

def Space (cs : List Char) : Prop := ∀ c ∈ cs, isSpace c = true

mutual

/-- A value without spaces around it. -/
inductive Form : Json → List Char → Prop
  | string {text : String} {cs : List Char} (h : TextForm text.toList cs) :
      Form (.string text) ('\"' :: (cs ++ ['\"']))
  | number {value : Int} {cs : List Char} (h : NumberForm value cs) : Form (.number value) cs
  | emptyArray {cs : List Char} (h : Space cs) : Form (.array []) ('[' :: (cs ++ [']']))
  | array {items : List Json} {cs : List Char} (h : ItemsForm items cs) :
      Form (.array items) ('[' :: (cs ++ [']']))
  | emptyObject {cs : List Char} (h : Space cs) : Form (.object []) ('\x7b' :: (cs ++ ['\x7d']))
  | object {members : List (String × Json)} {cs : List Char} (h : MembersForm members cs) :
      Form (.object members) ('\x7b' :: (cs ++ ['\x7d']))

/-- A value with spaces around it. -/
inductive Document : Json → List Char → Prop
  | mk {value : Json} {before cs after : List Char} (hbefore : Space before) (h : Form value cs)
      (hafter : Space after) : Document value (before ++ cs ++ after)

/-- The items of an array that is not empty. -/
inductive ItemsForm : List Json → List Char → Prop
  | last {item : Json} {cs : List Char} (h : Document item cs) : ItemsForm [item] cs
  | more {item : Json} {items : List Json} {cs rest : List Char} (h : Document item cs)
      (hrest : ItemsForm items rest) : ItemsForm (item :: items) (cs ++ ',' :: rest)

inductive MemberForm : String × Json → List Char → Prop
  | mk {key : String} {value : Json} {before ks between cs : List Char} (hbefore : Space before)
      (hkey : TextForm key.toList ks) (hbetween : Space between) (h : Document value cs) :
      MemberForm (key, value) (before ++ '\"' :: (ks ++ '\"' :: (between ++ ':' :: cs)))

/-- The members of an object that is not empty. -/
inductive MembersForm : List (String × Json) → List Char → Prop
  | last {member : String × Json} {cs : List Char} (h : MemberForm member cs) :
      MembersForm [member] cs
  | more {member : String × Json} {members : List (String × Json)} {cs rest : List Char}
      (h : MemberForm member cs) (hrest : MembersForm members rest) :
      MembersForm (member :: members) (cs ++ ',' :: rest)

end

end TopicPlugin.Json
