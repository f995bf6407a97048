import TopicPlugin.Descriptor.Basic
import TopicPlugin.Wire.Payload
import TopicPlugin.Wire.Record

/-!
# Decoding a request

Of a single value that occurs more than once the last counts, and the occurrences of a single record
are read into one. Values that may be repeated are collected in order.
-/

namespace TopicPlugin

open Wire

namespace Pipe

/-- Reads a field of a pipe. -/
def step (budget : Nat) : Step Pipe := fun p key =>
  match key.number with
  | 1 => do
    let topic ← (readText key).within ⟨"PipeOptionsProto", "pubsub_topic_name"⟩
    pure { p with topic := some topic }
  | _ => do
    skip budget key
    pure p

end Pipe

namespace Options

/-- Reads a field of the options of a message. -/
def step (budget : Nat) : Step Options := fun o key =>
  if key.number = pipeNumber then do
    let pipe ← (readEmbedded (deeper Pipe.step budget) (o.pipe.getD {}) key).within
      ⟨"MessageOptionsProto", "pipe_opts"⟩
    pure { o with pipe := some pipe }
  else do
    skip budget key
    pure o

end Options

namespace FieldDescriptor

def record : String := "FieldDescriptorProto"

/-- Reads a field of a field descriptor. -/
def step (budget : Nat) : Step FieldDescriptor := fun d key =>
  match key.number with
  | 1 => do
    let name ← (readText key).within ⟨record, "name"⟩
    pure { d with name := some name }
  | 3 => do
    let number ← (readInt32 key).within ⟨record, "number"⟩
    pure { d with number := some number }
  | 4 => do
    let label ← (readInt32 key).within ⟨record, "label"⟩
    pure { d with label := some label }
  | 5 => do
    let type ← (readInt32 key).within ⟨record, "r#type"⟩
    pure { d with type := some type }
  | 6 => do
    let typeName ← (readText key).within ⟨record, "type_name"⟩
    pure { d with typeName := some typeName }
  | _ => do
    skip budget key
    pure d

end FieldDescriptor

namespace MessageDescriptor

def record : String := "DescriptorProto"

/-- Reads a field of a message descriptor, whose nested messages are descriptors again. -/
def step (budget : Nat) : Step MessageDescriptor := fun d key =>
  match key.number with
  | 1 => do
    let name ← (readText key).within ⟨record, "name"⟩
    pure { d with name := some name }
  | 2 => do
    let field ← (readEmbedded (deeper FieldDescriptor.step budget) {} key).within ⟨record, "field"⟩
    pure { d with fields := d.fields ++ [field] }
  | 3 => do
    let inner ← (readEmbedded (match budget with
      | 0 => none
      | budget + 1 => some (step budget)) {} key).within ⟨record, "nested_type"⟩
    pure { d with nested := d.nested ++ [inner] }
  | 7 => do
    let options ← (readEmbedded (deeper Options.step budget) (d.options.getD {}) key).within
      ⟨record, "options"⟩
    pure { d with options := some options }
  | _ => do
    skip budget key
    pure d

end MessageDescriptor

namespace FileDescriptor

def record : String := "FileDescriptorProto"

/-- Reads a field of a file descriptor. -/
def step (budget : Nat) : Step FileDescriptor := fun d key =>
  match key.number with
  | 1 => do
    let name ← (readText key).within ⟨record, "name"⟩
    pure { d with name := some name }
  | 2 => do
    let package ← (readText key).within ⟨record, "package"⟩
    pure { d with package := some package }
  | 4 => do
    let message ← (readEmbedded (deeper MessageDescriptor.step budget) {} key).within
      ⟨record, "message_type"⟩
    pure { d with messages := d.messages ++ [message] }
  | _ => do
    skip budget key
    pure d

end FileDescriptor

namespace RequestDescriptor

def record : String := "CodeGeneratorRequest"

/-- Reads a field of a request. -/
def step (budget : Nat) : Step RequestDescriptor := fun d key =>
  match key.number with
  | 1 => do
    let target ← (readText key).within ⟨record, "file_to_generate"⟩
    pure { d with targets := d.targets ++ [target] }
  | 2 => do
    let parameter ← (readText key).within ⟨record, "parameter"⟩
    pure { d with parameter := some parameter }
  | 15 => do
    let file ← (readEmbedded (deeper FileDescriptor.step budget) {} key).within
      ⟨record, "proto_file"⟩
    pure { d with files := d.files ++ [file] }
  | _ => do
    skip budget key
    pure d

def decode (bytes : List UInt8) : Except DecodeError RequestDescriptor :=
  decodeRecord (step recursionBudget) {} bytes

end RequestDescriptor

/-- The request that bytes stand for. -/
def Request.decode (bytes : List UInt8) : Except DecodeError Request :=
  (RequestDescriptor.decode bytes).map (·.request)

end TopicPlugin
