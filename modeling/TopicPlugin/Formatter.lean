import TopicPlugin.Compilation
import TopicPlugin.Failure
import TopicPlugin.Namespace.Resolution
import TopicPlugin.Topic

/-!
# Formatters

A formatter writes the content of one artifact. It sees the annotated message, its file, and the
tree of all declarations with the namespace of the file's package.
-/

namespace TopicPlugin

structure Context where
  file : File
  message : Message
  topic : Topic
  /-- The namespace of the file's package in the tree. -/
  scope : Nat
  tree : Namespace.Tree Message

def Context.qualifiedName (c : Context) : String :=
  Dotted.qualify (c.tree.name c.scope) c.message.name

abbrev Formatter := Context → Except Failure String

/-- Writes one fixed text for every message. -/
def Formatter.placeholder : Formatter := fun _ => .ok "pubSubTOPIC!"

end TopicPlugin
