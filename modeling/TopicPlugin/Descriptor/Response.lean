import TopicPlugin.Compilation
import TopicPlugin.Wire.Payload
import TopicPlugin.Wire.Record

/-!
# Responses on the wire

The wire form of a response: the text of a failure, the features that the plugin supports, and the
files. The plugin supports one feature, optional fields, and says so in every response.
-/

namespace TopicPlugin

open Wire

structure FileRecord where
  name : Option String := none
  content : Option String := none
  deriving DecidableEq, Repr

structure ResponseRecord where
  failure : Option String := none
  features : Option UInt64 := none
  files : List FileRecord := []
  deriving DecidableEq, Repr

namespace FileRecord

def ofArtifact (artifact : Artifact) : FileRecord := ⟨some artifact.name, some artifact.content⟩

def encode (f : FileRecord) : List UInt8 :=
  encodeOption (encodeText 1) f.name ++ encodeOption (encodeText 15) f.content

/-- Reads a field of a file. -/
def step (budget : Nat) : Step FileRecord := fun f key =>
  match key.number with
  | 1 => do
    let name ← (readText key).within ⟨"File", "name"⟩
    pure { f with name := some name }
  | 15 => do
    let content ← (readText key).within ⟨"File", "content"⟩
    pure { f with content := some content }
  | _ => do
    skip budget key
    pure f

end FileRecord

namespace ResponseRecord

/-- The features by their bits; the lowest one stands for optional fields. -/
def supportedFeatures : UInt64 := 1

def ofResponse (response : Response) : ResponseRecord :=
  ⟨response.failure, some supportedFeatures, response.artifacts.map FileRecord.ofArtifact⟩

def encode (r : ResponseRecord) : List UInt8 :=
  encodeOption (encodeText 1) r.failure ++ encodeOption (encodeUInt64 2) r.features
    ++ (r.files.map fun f => encodeEmbedded 15 f.encode).flatten

def record : String := "CodeGeneratorResponse"

/-- Reads a field of a response. -/
def step (budget : Nat) : Step ResponseRecord := fun r key =>
  match key.number with
  | 1 => do
    let failure ← (readText key).within ⟨record, "error"⟩
    pure { r with failure := some failure }
  | 2 => do
    let features ← (readUInt64 key).within ⟨record, "supported_features"⟩
    pure { r with features := some features }
  | 15 => do
    let file ← (readEmbedded (deeper FileRecord.step budget) {} key).within ⟨record, "file"⟩
    pure { r with files := r.files ++ [file] }
  | _ => do
    skip budget key
    pure r

def decode (bytes : List UInt8) : Except DecodeError ResponseRecord :=
  decodeRecord (step recursionBudget) {} bytes

end ResponseRecord

def Response.encode (response : Response) : List UInt8 :=
  (ResponseRecord.ofResponse response).encode

end TopicPlugin
