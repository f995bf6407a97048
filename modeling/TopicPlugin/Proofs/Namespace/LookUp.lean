import Mathlib.Data.Nat.SuccPred
import TopicPlugin.Namespace.Resolution
import TopicPlugin.Proofs.Namespace.Paths

/-!
# Looking a path up in one namespace

A look-up walks down through child namespaces as far as it can while a segment is left over, and
from there it is a look-up of a bound message and of messages nested in it. How far it gets is the
depth of the path; the look-up never tries a smaller one.
-/

namespace TopicPlugin

/-- The message at the end of a path of nested messages, where each step takes the first of its
name. -/
def Message.nestedPath? (message : Message) (path : List String) : Option Message :=
  path.foldlM Message.nested? message

theorem Message.nestedPath?_concat (message : Message) (path : List String) (last : String) :
    message.nestedPath? (path ++ [last]) = (message.nestedPath? path).bind (·.nested? last) := by
  rw [nestedPath?, List.foldlM_append]
  show (message.nestedPath? path).bind _ = _
  congr 1
  funext inner
  exact bind_pure (inner.nested? last)

namespace Namespace

open Dotted

theorem descend_eq (message : Message) (name : String) (path : List String) :
    descend message name path =
      (message.nestedPath? path).map fun inner => ⟨inner, path.foldl qualify name⟩ := by
  induction path generalizing message name with
  | nil => rfl
  | cons segment path ih =>
    unfold descend Message.nestedPath?
    rw [List.foldlM_cons]
    cases message.nested? segment with
    | none => rfl
    | some inner => exact ih inner (qualify name segment)

namespace Tree

variable {t : Tree Message}

theorem lookUp_of_child {id child : Nat} {segment : String} {rest : List String}
    (h : t.child? id segment = some child) (hne : rest ≠ []) :
    t.lookUp id (segment :: rest) = t.lookUp child rest := by
  obtain ⟨next, others, rfl⟩ := List.exists_cons_of_ne_nil hne
  rw [lookUp, h]
  exact List.cons_ne_nil next others

/-- A walk down to another namespace is a part of any look-up that goes on from there. -/
theorem lookUp_of_walk {id found : Nat} {path rest : List String}
    (h : path.foldlM t.child? id = some found) (hne : rest ≠ []) :
    t.lookUp id (path ++ rest) = t.lookUp found rest := by
  induction path generalizing id with
  | nil =>
    obtain rfl : id = found := Option.some.inj h
    rfl
  | cons segment path ih =>
    rw [List.foldlM_cons] at h
    obtain ⟨child, hc, hwalk⟩ := Option.bind_eq_some_iff.mp h
    have hstep := lookUp_of_child hc (List.append_ne_nil_of_right_ne_nil path hne)
    exact hstep.trans (ih hwalk)

/-- Where no child namespace has the next name, a message bound there has to. -/
theorem lookUp_of_no_child {id : Nat} {short : String} {rest : List String}
    (h : rest ≠ [] → t.child? id short = none) :
    t.lookUp id (short :: rest) =
      (t.type? id short).bind fun outer =>
        (outer.nestedPath? rest).map fun message =>
          ⟨message, (short :: rest).foldl qualify (t.name id)⟩ := by
  have hdescend : t.lookUp id (short :: rest) =
      (t.type? id short).bind fun outer => descend outer (qualify (t.name id) short) rest := by
    cases rest with
    | nil =>
      rw [lookUp]
      cases t.type? id short <;> rfl
    | cons next rest =>
      rw [lookUp, h (List.cons_ne_nil next rest)]
      · cases t.type? id short <;> rfl
      · exact List.cons_ne_nil next rest
  rw [hdescend]
  congr 1
  funext outer
  exact descend_eq outer (qualify (t.name id) short) rest

/-- The last segment of a path is a short name in the namespace that the segments before it lead to,
or else in the message that they lead to. -/
theorem lookUp_concat (id : Nat) (path : List String) (last : String) :
    t.lookUp id (path ++ [last]) =
      match path.foldlM t.child? id with
      | some found => (t.type? found last).map fun message => ⟨message, qualify (t.name found) last⟩
      | none => (t.lookUp id path).bind fun outer =>
        (outer.message.nested? last).map fun inner => ⟨inner, qualify outer.name last⟩ := by
  induction path generalizing id with
  | nil => rfl
  | cons segment path ih =>
    rw [List.foldlM_cons, List.cons_append]
    cases hchild : t.child? id segment with
    | some child =>
      rw [lookUp_of_child hchild (List.append_ne_nil_of_right_ne_nil path (by simp)), ih]
      show _ = match path.foldlM t.child? child with
        | some found => _
        | none => _
      cases hwalk : path.foldlM t.child? child with
      | some found => rfl
      | none =>
        have hne : path ≠ [] := by
          intro hnil
          rw [hnil] at hwalk
          cases hwalk
        rw [lookUp_of_child hchild hne]
    | none =>
      rw [lookUp_of_no_child fun _ => hchild, lookUp_of_no_child fun _ => hchild]
      show _ = Option.bind _ _
      cases t.type? id segment with
      | none => rfl
      | some outer =>
        rw [Option.bind_some, Option.bind_some, Message.nestedPath?_concat]
        cases outer.nestedPath? path with
        | none => rfl
        | some inner =>
          rw [Option.bind_some, Option.map_some, Option.bind_some, List.foldl_cons,
            List.foldl_append]
          rfl

/-- The numbers of leading segments of a path that lead to a namespace, with a segment left over. -/
def depths (t : Tree α) (path : List String) : Set Nat :=
  {k | k < path.length ∧ (t.find? (path.take k)).isSome}

theorem exists_depth (t : Tree Message) {path : List String} (hne : path ≠ []) :
    ∃ k id, IsGreatest (t.depths path) k ∧ t.find? (path.take k) = some id := by
  have hroot : (t.depths path).Nonempty := ⟨0, List.length_pos_iff.mpr hne, rfl⟩
  have hbound : BddAbove (t.depths path) := ⟨path.length, fun k hk => Nat.le_of_lt hk.1⟩
  obtain ⟨k, hk⟩ := hbound.exists_isGreatest_of_nonempty hroot
  obtain ⟨id, hid⟩ := Option.isSome_iff_exists.mp hk.1.2
  exact ⟨k, id, hk, hid⟩

/-- A look-up from the root is decided at the greatest depth of the path. -/
theorem lookUp_root_of_depth {k id : Nat} {path : List String}
    (hk : IsGreatest (t.depths path) k) (hid : t.find? (path.take k) = some id) :
    t.lookUp root path =
      path[k]?.bind fun short => (t.type? id short).bind fun outer =>
        (outer.nestedPath? (path.drop (k + 1))).map fun message =>
          ⟨message, (path.drop k).foldl qualify (t.name id)⟩ := by
  have hlt := hk.1.1
  have hdrop : path.drop k = path[k] :: path.drop (k + 1) := List.drop_eq_getElem_cons hlt
  have hwalk : t.lookUp root path = t.lookUp id (path.drop k) := by
    have hne : path.drop k ≠ [] := by rw [hdrop]; exact List.cons_ne_nil _ _
    have happ := lookUp_of_walk hid hne
    rwa [List.take_append_drop] at happ
  have hstop : path.drop (k + 1) ≠ [] → t.child? id path[k] = none := by
    intro hrest
    by_contra hchild
    have hlonger : k + 1 ∈ t.depths path := by
      refine ⟨by simpa using hrest, ?_⟩
      rw [List.take_succ_eq_append_getElem hlt, find?, List.foldlM_append]
      change (Option.bind (t.find? (path.take k)) _).isSome
      rw [hid, Option.bind_some, List.foldlM_cons]
      obtain ⟨child, hc⟩ := Option.ne_none_iff_exists'.mp hchild
      rw [hc]
      rfl
    have := hk.2 hlonger
    omega
  rw [hwalk, hdrop, lookUp_of_no_child hstop, List.getElem?_eq_getElem hlt, Option.bind_some]

end Tree

end Namespace

end TopicPlugin
