/-!
# Failures of a run

Why artifacts could not be made, and how that is said. A failure inside a target file is wrapped
with the name of the file.
-/

namespace TopicPlugin

inductive Failure where
  | invalidParameter (detail : String)
  /-- A field refers to a type that is declared nowhere; `message` is a qualified name. -/
  | unresolvedReference (reference field message : String)
  | format (message reason : String)
  /-- Two annotated messages lead to the same artifact; `message` is the later one. -/
  | duplicateArtifact (artifact message : String)
  | inFile (file : String) (cause : Failure)
  deriving DecidableEq, Repr

namespace Failure

def message : Failure → String
  | .invalidParameter detail => "invalid plugin parameter: " ++ detail
  | .unresolvedReference reference field message =>
    "unresolved type reference `" ++ reference ++ "` in field `" ++ field ++ "` of message `"
      ++ message ++ "`"
  | .format message reason => "cannot format `" ++ message ++ "`: " ++ reason
  | .duplicateArtifact artifact message =>
    "artifact `" ++ artifact ++ "` for message `" ++ message ++ "` was already generated"
  | .inFile file cause => "Failed to convert " ++ file ++ ": " ++ cause.message

/-- The wrapped failures, from the outside to the innermost. -/
def causes : Failure → List Failure
  | .inFile _ cause => cause :: cause.causes
  | _ => []

end Failure

end TopicPlugin
