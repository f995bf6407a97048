import TopicPlugin.Text.Split

/-!
# Dotted paths

Packages and type references are written as segments between dots. A reference that starts with a
dot is absolute; any other is relative. A qualified name puts a dot before every segment, so the
qualified name of a namespace followed by `.` and a short name is again a qualified name.
-/

namespace TopicPlugin.Dotted

def segments (path : String) : List String := Text.split '.' path

/-- The first segment, and what stands after its dot if it has one. -/
def uncons (path : String) : String × Option String :=
  match Text.cut '.' path with
  | some (first, rest) => (first, some rest)
  | none => (path, none)

/-- What follows the dot of an absolute reference. -/
def absolute? (reference : String) : Option String :=
  match reference.toList with
  | '.' :: rest => some (String.ofList rest)
  | _ => none

/-- The segments of a package; empty ones in front of the first named one do not count. -/
def packageSegments (package : String) : List String :=
  (segments package).dropWhile (· = "")

/-- The segments of a file's package, which it may leave out. -/
def namespacePath (package : Option String) : List String :=
  package.elim [] packageSegments

/-- The directory of a package: one leading dot is dropped, every other dot becomes a slash. -/
def packageDirectory (package : Option String) : String :=
  package.elim "" fun name =>
    String.ofList (((absolute? name).getD name).toList.map fun c => if c = '.' then '/' else c)

def qualify (scope name : String) : String := scope ++ "." ++ name

/-- A type reference by its segments. -/
inductive Reference where
  | absolute (path : List String)
  | relative (path : List String)
  deriving DecidableEq, Repr

/-- The empty text refers to nothing. -/
def Reference.ofString? (reference : String) : Option Reference :=
  if reference = "" then none
  else match absolute? reference with
    | some rest => some (.absolute (segments rest))
    | none => some (.relative (segments reference))

/-- The segments are what is found by taking the first one off again and again. -/
theorem segments_eq_uncons (path : String) :
    segments path = match uncons path with
      | (first, some rest) => first :: segments rest
      | (first, none) => [first] := by
  unfold segments uncons Text.split Text.cut
  rw [Text.splitChars_eq_cutChars]
  cases Text.cutChars '.' path.toList with
  | none => simp
  | some parts => simp

end TopicPlugin.Dotted
