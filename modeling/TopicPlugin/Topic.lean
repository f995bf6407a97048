import TopicPlugin.Declaration.Message
import TopicPlugin.Text.Blank

/-!
# Topics

A topic is also the stem of a file name, so a text is usable as a topic only if it is one component
of a path: no slash of either kind, no blank, and something else than dots. A message whose
annotation has no usable topic is treated as one without an annotation.
-/

namespace TopicPlugin

/-- Whether a text can be a topic; the empty text cannot. -/
def isTopic (text : String) : Bool :=
  text.toList.any (· ≠ '.') &&
    text.toList.all fun c => c ≠ '/' && c ≠ '\\' && !Text.isBlank c

structure Topic where
  text : String
  usable : isTopic text = true
  deriving DecidableEq, Repr

def Topic.ofString? (text : String) : Option Topic :=
  if h : isTopic text = true then some ⟨text, h⟩ else none

/-- The topic that a message asks for an artifact under. -/
def Message.topic? (m : Message) : Option Topic :=
  m.writtenTopic?.bind Topic.ofString?

end TopicPlugin
