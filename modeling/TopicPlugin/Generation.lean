import TopicPlugin.Schema
import TopicPlugin.Settings

/-!
# Generation

A run first registers the top-level messages of all files, whether targets or not, so that every
reference is resolved against the whole request. It then goes through the target files in order and
through the messages of each, and makes an artifact for every message with a topic.

The names of the artifacts of a run differ. A name that is taken is a failure, and so is a formatter
that fails; the name is looked at first. The first failure ends the run: the artifacts of the files
before stay, and those of the file that failed are dropped.
-/

namespace TopicPlugin

/-- The name of an artifact: in a directory, unless that is the top, a topic with an extension. -/
def artifactName (directory topic extension : String) : String :=
  if directory = "" then topic ++ "." ++ extension
  else directory ++ "/" ++ topic ++ "." ++ extension

namespace Request

/-- Every top-level message with the package of its file, in the order of the request. -/
def registrations (request : Request) : List (Namespace.Registration Message) :=
  request.files.flatMap fun file =>
    file.messages.map fun message => ⟨file.package, message.name, message⟩

def tree (request : Request) : Namespace.Tree Message := .ofRegistrations request.registrations

end Request

/-- The namespace of a file's package; the root without a package, or if nothing created it. -/
def File.scope (file : File) (t : Namespace.Tree Message) : Nat :=
  (file.package.bind t.package?).getD Namespace.Tree.root

structure Generator where
  settings : Settings
  formatter : Formatter

/-- What a run has made, and what ended it early if something did. -/
structure Generated where
  artifacts : List Artifact := []
  failure : Option Failure := none
  deriving DecidableEq, Repr

def Generated.response (generated : Generated) : Response :=
  ⟨generated.artifacts, generated.failure.map (·.message)⟩

namespace Generator

/-- The generator whose formatter the settings choose. -/
def ofSettings (settings : Settings) : Generator :=
  match settings.content with
  | .schema => ⟨settings, .schema⟩
  | .placeholder => ⟨settings, .placeholder⟩

/-- The name of the artifact for a topic in a file. -/
def nameFor (g : Generator) (file : File) (topic : Topic) : String :=
  artifactName (Dotted.packageDirectory file.package) topic.text g.settings.extension

/-- The artifacts for messages of a file, where `taken` holds the names used before. -/
def messageArtifacts (g : Generator) (t : Namespace.Tree Message) (file : File) (taken : List String) :
    List Message → Except Failure (List Artifact)
  | [] => .ok []
  | message :: messages =>
    match message.topic? with
    | none => g.messageArtifacts t file taken messages
    | some topic =>
      let name := g.nameFor file topic
      if name ∈ taken then .error (.duplicateArtifact name message.name)
      else do
        let content ← g.formatter ⟨file, message, topic, file.scope t, t⟩
        let others ← g.messageArtifacts t file (name :: taken) messages
        .ok (⟨name, content⟩ :: others)

def fileArtifacts (g : Generator) (t : Namespace.Tree Message) (taken : List String) (file : File) :
    Except Failure (List Artifact) :=
  g.messageArtifacts t file taken file.messages

/-- Goes through files in order up to the first that fails. -/
def generateFiles (g : Generator) (t : Namespace.Tree Message) (taken : List String) :
    List File → Generated
  | [] => {}
  | file :: files =>
    match g.fileArtifacts t taken file with
    | .error failure => { failure := some (.inFile file.name failure) }
    | .ok artifacts =>
      let others := g.generateFiles t (artifacts.map (·.name) ++ taken) files
      { others with artifacts := artifacts ++ others.artifacts }

def generate (g : Generator) (request : Request) : Generated :=
  g.generateFiles request.tree [] request.targetFiles

end Generator

/-- Answers a request with the generator that its own parameter asks for. -/
def respond (request : Request) : Response :=
  match Settings.ofParameter request.parameter with
  | .error fault => .failed (Failure.invalidParameter fault.message).message
  | .ok settings => ((Generator.ofSettings settings).generate request).response

end TopicPlugin
