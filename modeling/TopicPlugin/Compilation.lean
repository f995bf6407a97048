import TopicPlugin.Declaration.Message

/-!
# Requests and responses

A request names its target files and holds every input file, targets and dependencies alike. A
response holds the artifacts made for the targets, and the text of the failure that stopped the run
if one did.
-/

namespace TopicPlugin

structure File where
  name : String
  package : Option String := none
  messages : List Message := []
  deriving Repr

structure Request where
  /-- The names of the target files, each once, in the order of their first mention. -/
  targets : List String := []
  parameter : Option String := none
  files : List File := []
  deriving Repr

/-- Targets go by name, so two files of one name are targets together. -/
def Request.isTarget (request : Request) (file : File) : Bool :=
  request.targets.contains file.name

def Request.targetFiles (request : Request) : List File :=
  request.files.filter request.isTarget

structure Artifact where
  name : String
  content : String
  deriving DecidableEq, Repr

structure Response where
  artifacts : List Artifact := []
  failure : Option String := none
  deriving DecidableEq, Repr

namespace Response

/-- A response that carries nothing but the text of a failure. -/
def failed (text : String) : Response := { failure := some text }

def succeeded (response : Response) : Bool := response.failure.isNone

end Response

end TopicPlugin
