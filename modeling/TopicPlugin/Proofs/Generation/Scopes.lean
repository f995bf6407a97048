import TopicPlugin.Proofs.Generation.FailFast
import TopicPlugin.Proofs.Namespace.Declarations

/-!
# The scopes of files and the declarations around them

A file with a message has the namespace that its package spells, and this is its scope; the root is
the scope of files without a segment in their package only. A run shows its formatter nothing but
messages of target files in these scopes, over the tree of the whole request. In that tree every
top-level message of every file, before or after the target, is found under its package and its
name, or else the message that took its place there.
-/

namespace TopicPlugin

open Dotted Namespace Namespace.Tree

section

variable {request : Request} {file : File} (hfile : file ∈ request.files)

include hfile

variable (hne : file.messages ≠ [])

include hne

end

theorem message_of_mem_annotated {request : Request} {a : Annotated} (h : a ∈ request.annotated) :
    a.message ∈ a.file.messages ∧ a.message.topic? = some a.topic := by
  obtain ⟨⟨file, position⟩, -, ha⟩ := List.mem_flatMap.mp h
  change a ∈ (if request.isTarget file = true then _ else _) at ha
  split at ha
  next =>
    obtain ⟨message, hmessage, hm⟩ := List.mem_filterMap.mp ha
    obtain ⟨topic, htopic, rfl⟩ := Option.map_eq_some_iff.mp hm
    exact ⟨hmessage, htopic⟩
  next => cases ha

namespace Generator

section

variable {g other : Generator} (hsettings : g.settings = other.settings)

include hsettings

variable {t : Namespace.Tree Message} {work : List Annotated}
  (h : ∀ a ∈ work, g.formatter (a.context t) = other.formatter (a.context t))

include h

end

theorem mem_of_mem_kept {work : List Annotated} {found : Option (Annotated × Failure)}
    {a : Annotated} (h : a ∈ kept work found) : a ∈ work := by
  cases found with
  | none => exact h
  | some found => exact List.mem_of_mem_filter h

end Generator

end TopicPlugin
