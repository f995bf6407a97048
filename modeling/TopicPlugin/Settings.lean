import TopicPlugin.Text.Blank
import TopicPlugin.Text.Split

/-!
# Settings and the parameter that gives them

The parameter is a list of assignments between commas. Blanks around a piece, its key and its value
do not count, and neither does an empty piece. Of two assignments to one key the later counts; of
two faults the first is reported.
-/

namespace TopicPlugin

/-- What the artifacts hold. -/
inductive ContentKind where
  | schema
  | placeholder
  deriving DecidableEq, Repr

structure Settings where
  content : ContentKind := .schema
  /-- The extension of the artifacts' names, without the dot. -/
  extension : String := "schema"
  deriving DecidableEq, Repr

/-- What can be wrong with a parameter. -/
inductive ParameterFault where
  | noValue (piece : String)
  | unknownKey (key : String)
  | unknownContent (value : String)
  | badExtension (value : String)
  deriving DecidableEq, Repr

def ParameterFault.message : ParameterFault → String
  | .noValue piece => "expected `key=value`, got `" ++ piece ++ "`"
  | .unknownKey key => "unknown key `" ++ key ++ "`"
  | .unknownContent value =>
    "unknown content kind `" ++ value ++ "` (expected `schema` or `placeholder`)"
  | .badExtension value => "invalid extension `" ++ value ++ "`"

namespace ContentKind

def keyword : ContentKind → String
  | .schema => "schema"
  | .placeholder => "placeholder"

def ofString (value : String) : Except ParameterFault ContentKind :=
  if value = schema.keyword then .ok .schema
  else if value = placeholder.keyword then .ok .placeholder
  else .error (.unknownContent value)

end ContentKind

/-- An extension is not empty, and neither a dot nor a slash of either kind is in it. -/
def isExtension (value : String) : Bool :=
  value ≠ "" && value.toList.all fun c => c ≠ '.' && c ≠ '/' && c ≠ '\\'

inductive Assignment where
  | content (kind : ContentKind)
  | extension (value : String)
  deriving DecidableEq, Repr

/-- Reads a piece of the parameter. -/
def Assignment.ofPiece (piece : String) : Except ParameterFault Assignment :=
  match Text.cut '=' piece with
  | none => .error (.noValue piece)
  | some (key, value) =>
    if Text.trim key = "content" then
      (ContentKind.ofString (Text.trim value)).map .content
    else if Text.trim key = "extension" then
      if isExtension (Text.trim value) then .ok (.extension (Text.trim value))
      else .error (.badExtension (Text.trim value))
    else .error (.unknownKey (Text.trim key))

namespace Settings

def assign (settings : Settings) : Assignment → Settings
  | .content kind => { settings with content := kind }
  | .extension value => { settings with extension := value }

/-- The pieces of a parameter that say something. -/
def pieces (parameter : String) : List String :=
  ((Text.split ',' parameter).map Text.trim).filter (· ≠ "")

def assignments (parameter : String) : Except ParameterFault (List Assignment) :=
  (pieces parameter).mapM Assignment.ofPiece

/-- Without a parameter the settings are the default ones. -/
def ofParameter : Option String → Except ParameterFault Settings
  | none => .ok {}
  | some parameter => (assignments parameter).map (List.foldl assign {})

end Settings

end TopicPlugin
