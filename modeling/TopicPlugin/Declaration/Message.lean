import TopicPlugin.Declaration.Field

/-!
# Message declarations

A message holds its fields and the messages declared inside it. Its options may carry a pipe, the
annotation that asks for an artifact under a topic.
-/

namespace TopicPlugin

/-- The annotation of a message that is published; its topic may be left out. -/
structure Pipe where
  topic : Option String := none
  deriving DecidableEq, Repr

structure Options where
  pipe : Option Pipe := none
  deriving DecidableEq, Repr

structure Message where
  name : String
  fields : List Field := []
  nested : List Message := []
  options : Option Options := none
  deriving Repr

namespace Message

instance : Inhabited Message := ⟨⟨"", [], [], none⟩⟩

/-- The first message declared inside under a name. -/
def nested? (m : Message) (name : String) : Option Message :=
  m.nested.find? (·.name = name)

/-- The topic as it is written, usable or not. -/
def writtenTopic? (m : Message) : Option String :=
  (m.options.bind (·.pipe)).bind (·.topic)

end Message

end TopicPlugin
