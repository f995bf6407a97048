/-!
# Whole numbers in decimal

The shortest decimal form: no leading zero, and a minus sign in front of a negative number.
-/

namespace TopicPlugin.Text

def decimalChars (n : Int) : List Char :=
  if n < 0 then '-' :: Nat.toDigits 10 n.natAbs else Nat.toDigits 10 n.natAbs

def decimal (n : Int) : String := String.ofList (decimalChars n)

end TopicPlugin.Text
