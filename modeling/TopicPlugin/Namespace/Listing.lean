import TopicPlugin.Namespace.Tree

/-!
# Listings of a tree

The qualified names of all bound types and of all namespaces below the root, each in the order of
code points, which is also the order of their UTF-8 bytes.
-/

namespace TopicPlugin.Namespace

variable {α : Type}

def sortNames (names : List String) : List String :=
  names.mergeSort fun a b => decide (a ≤ b)

/-- The qualified names of the types that a namespace itself binds. -/
def Node.typeNames (node : Node α) : List String :=
  node.types.names.map (Dotted.qualify node.name)

def Tree.typeNames (t : Tree α) : List String :=
  sortNames (t.nodes.toList.flatMap (·.typeNames))

def Tree.namespaceNames (t : Tree α) : List String :=
  sortNames ((t.nodes.toList.filter (·.parent.isSome)).map (·.name))

theorem sortNames_perm (names : List String) : (sortNames names).Perm names :=
  List.mergeSort_perm _ _

theorem pairwise_sortNames (names : List String) : (sortNames names).Pairwise (· ≤ ·) := by
  refine List.Pairwise.imp ?_ (List.pairwise_mergeSort ?_ ?_ names)
  · simp
  · intro a b c hab hbc
    exact decide_eq_true (String.le_trans (of_decide_eq_true hab) (of_decide_eq_true hbc))
  · intro a b
    simpa using String.le_total a b

end TopicPlugin.Namespace
