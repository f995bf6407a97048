import TopicPlugin.Compilation

/-!
# Descriptors

The wire form of a request, in which every single value may be left out. Only what a run needs is
declared; a reader passes over everything else.

`RequestDescriptor.request` gives the request that a descriptor stands for. A name left out is the
empty name, a number left out is zero, and a field without a type code has the unknown kind zero. A
target named twice counts once.
-/

namespace TopicPlugin

structure FieldDescriptor where
  name : Option String := none
  number : Option Int32 := none
  label : Option Int32 := none
  type : Option Int32 := none
  typeName : Option String := none
  deriving DecidableEq, Repr

structure MessageDescriptor where
  name : Option String := none
  fields : List FieldDescriptor := []
  nested : List MessageDescriptor := []
  options : Option Options := none
  deriving Repr

structure FileDescriptor where
  name : Option String := none
  package : Option String := none
  messages : List MessageDescriptor := []
  deriving Repr

structure RequestDescriptor where
  targets : List String := []
  parameter : Option String := none
  files : List FileDescriptor := []
  deriving Repr

/-- The number under which the options of a message carry the pipe. -/
def Options.pipeNumber : Nat := 50101

instance : Inhabited MessageDescriptor := ⟨⟨none, [], [], none⟩⟩

namespace FieldDescriptor

def field (d : FieldDescriptor) : Field where
  name := d.name.getD ""
  number := d.number.getD 0
  label := d.label.elim .optional Label.ofCode
  kind := Kind.ofCode (d.type.getD 0)
  typeName := d.typeName

end FieldDescriptor

def MessageDescriptor.message : MessageDescriptor → Message
  | ⟨name, fields, nested, options⟩ =>
    ⟨name.getD "", fields.map (·.field), nested.map message, options⟩

def FileDescriptor.file (d : FileDescriptor) : File where
  name := d.name.getD ""
  package := d.package
  messages := d.messages.map (·.message)

def RequestDescriptor.request (d : RequestDescriptor) : Request where
  targets := d.targets.eraseDups
  parameter := d.parameter
  files := d.files.map (·.file)

end TopicPlugin
