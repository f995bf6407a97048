import TopicPlugin.Declaration.Message
import TopicPlugin.Namespace.Tree

/-!
# Resolution of type references

A reference is looked up in a namespace segment by segment. The leading segments go down through
child namespaces for as long as there is one of that name; the next segment names a message bound
there, and what is left goes down through nested messages. A namespace hides a message of the same
name, and the look-up never comes back to try the message after all.

An absolute reference is looked up in the root only. A relative one is looked up in the scope and
then in each namespace around it, and the first that finds a message wins. Seen from inside a
message, its own nested messages come before all of them.
-/

namespace TopicPlugin.Namespace

open TopicPlugin.Dotted (Reference qualify)

/-- A message that a reference resolves to, with its qualified name. -/
structure Resolved where
  message : Message
  name : String
  deriving Repr

/-- Follows segments down through nested messages; each step takes the first of its name. -/
def descend (message : Message) (name : String) : List String → Option Resolved
  | [] => some ⟨message, name⟩
  | segment :: path =>
    match message.nested? segment with
    | none => none
    | some inner => descend inner (qualify name segment) path

namespace Tree

/-- Looks a path up inside one namespace, without regard to the namespaces around it. -/
def lookUp (t : Tree Message) (id : Nat) : List String → Option Resolved
  | [] => none
  | [short] => (t.type? id short).map fun message => ⟨message, qualify (t.name id) short⟩
  | segment :: path =>
    match t.child? id segment with
    | some child => t.lookUp child path
    | none =>
      match t.type? id segment with
      | none => none
      | some message => descend message (qualify (t.name id) segment) path

/-- Looks a path up in a namespace and then in those around it. -/
def lookUpOutwards (t : Tree Message) (scope : Nat) (path : List String) : Option Resolved :=
  (t.enclosing scope).findSome? (t.lookUp · path)

/-- What a reference means in a scope. -/
def resolve (t : Tree Message) (scope : Nat) (reference : String) : Option Resolved :=
  match Reference.ofString? reference with
  | none => none
  | some (.absolute path) => t.lookUp root path
  | some (.relative path) => t.lookUpOutwards scope path

/-- What a reference means inside a message of a scope; `name` is the message's qualified name. -/
def resolveWithin (t : Tree Message) (scope : Nat) (message : Message) (name reference : String) :
    Option Resolved :=
  match Reference.ofString? reference with
  | none => none
  | some (.absolute path) => t.lookUp root path
  | some (.relative path) => (descend message name path).or (t.lookUpOutwards scope path)

end Tree

end TopicPlugin.Namespace
