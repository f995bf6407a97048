import TopicPlugin.Descriptor.Basic
import TopicPlugin.Wire.Payload
import TopicPlugin.Wire.Record

/-!
# Encoding a request

The fields go in the order of their numbers. A value that is there is written even if it is empty or
zero, and one that is left out is not written.
-/

namespace TopicPlugin

open Wire

def Pipe.encode (p : Pipe) : List UInt8 :=
  encodeOption (encodeText 1) p.topic

def Options.encode (o : Options) : List UInt8 :=
  encodeOption (fun p => encodeEmbedded pipeNumber p.encode) o.pipe

def FieldDescriptor.encode (d : FieldDescriptor) : List UInt8 :=
  encodeOption (encodeText 1) d.name ++ encodeOption (encodeInt32 3) d.number
    ++ encodeOption (encodeInt32 4) d.label ++ encodeOption (encodeInt32 5) d.type
    ++ encodeOption (encodeText 6) d.typeName

def MessageDescriptor.encode : MessageDescriptor → List UInt8
  | ⟨name, fields, nested, options⟩ =>
    encodeOption (encodeText 1) name
      ++ (fields.map fun d => encodeEmbedded 2 d.encode).flatten
      ++ (nested.map fun d => encodeEmbedded 3 d.encode).flatten
      ++ encodeOption (fun o => encodeEmbedded 7 o.encode) options

def FileDescriptor.encode (d : FileDescriptor) : List UInt8 :=
  encodeOption (encodeText 1) d.name ++ encodeOption (encodeText 2) d.package
    ++ (d.messages.map fun m => encodeEmbedded 4 m.encode).flatten

def RequestDescriptor.encode (d : RequestDescriptor) : List UInt8 :=
  (d.targets.map (encodeText 1)).flatten ++ encodeOption (encodeText 2) d.parameter
    ++ (d.files.map fun f => encodeEmbedded 15 f.encode).flatten

end TopicPlugin
