import TopicPlugin.Proofs.Traversal
import TopicPlugin.Settings

/-!
# What a parameter assigns

A parameter is accepted if each of its pieces is, and then each setting is what the last piece for
its key writes. A setting without such a piece keeps its default. What comes out can be used: an
extension is never empty and has neither a dot nor a slash in it.
-/

namespace TopicPlugin

/-- The keys of a parameter. -/
inductive Key where
  | content
  | extension
  deriving DecidableEq, Repr

def Key.name : Key → String
  | .content => "content"
  | .extension => "extension"

theorem Key.name_injective : Function.Injective Key.name := by
  intro key other h
  cases key <;> cases other <;> first | rfl | exact absurd h (by decide)

theorem ContentKind.ofString_keyword (kind : ContentKind) : ofString kind.keyword = .ok kind := by
  cases kind <;> rfl

theorem ContentKind.ofString_eq_ok_iff {value : String} {kind : ContentKind} :
    ofString value = .ok kind ↔ value = kind.keyword := by
  constructor
  · intro h
    unfold ofString at h
    split at h
    next hschema =>
      cases h
      exact hschema
    next =>
      split at h
      next hplaceholder =>
        cases h
        exact hplaceholder
      next => cases h
  · intro h
    rw [h, ofString_keyword]

namespace Assignment

def key : Assignment → Key
  | .content _ => .content
  | .extension _ => .extension

/-- The value as it is written. -/
def value : Assignment → String
  | .content kind => kind.keyword
  | .extension text => text

/-- Whether the value is one that the key allows. -/
def Allowed : Assignment → Prop
  | .content _ => True
  | .extension text => isExtension text = true

/-- A piece is accepted as an assignment if it writes the key and an allowed value of it. -/
theorem ofPiece_eq_ok_iff {piece : String} {a : Assignment} :
    ofPiece piece = .ok a ↔ ∃ written text, Text.cut '=' piece = some (written, text) ∧
      Text.trim written = a.key.name ∧ Text.trim text = a.value ∧ a.Allowed := by
  constructor
  · intro h
    rw [ofPiece] at h
    cases hcut : Text.cut '=' piece with
    | none =>
      rw [hcut] at h
      cases h
    | some parts =>
      obtain ⟨written, text⟩ := parts
      rw [hcut] at h
      refine ⟨written, text, rfl, ?_⟩
      change (if Text.trim written = "content" then _ else _) = _ at h
      split at h
      next hcontent =>
        obtain ⟨kind, hkind, rfl⟩ := Traversal.map_eq_ok_iff.mp h
        exact ⟨hcontent, ContentKind.ofString_eq_ok_iff.mp hkind, trivial⟩
      next =>
        split at h
        next hextension =>
          split at h
          next hallowed =>
            cases h
            exact ⟨hextension, rfl, hallowed⟩
          next => cases h
        next => cases h
  · intro h
    obtain ⟨written, text, hcut, hkey, hvalue, hallowed⟩ := h
    rw [ofPiece, hcut]
    show (if Text.trim written = "content" then _ else _) = _
    cases a with
    | content kind =>
      have hcontent : Text.trim written = "content" := hkey
      have hkeyword : Text.trim text = kind.keyword := hvalue
      rw [if_pos hcontent, hkeyword, ContentKind.ofString_keyword]
      rfl
    | extension value =>
      have hextension : Text.trim written = "extension" := hkey
      have htext : Text.trim text = value := hvalue
      rw [hextension, htext, if_neg (by decide), if_pos rfl]
      exact if_pos hallowed

end Assignment

namespace Settings

/-- A setting as it is written. -/
def value (settings : Settings) : Key → String
  | .content => settings.content.keyword
  | .extension => settings.extension

theorem value_assign (settings : Settings) (a : Assignment) (key : Key) :
    (settings.assign a).value key = if key = a.key then a.value else settings.value key := by
  cases a <;> cases key <;> rfl

/-- The value that a piece writes for a key, if it is for this key. -/
def valueFor? (key : Key) (piece : String) : Option String :=
  (Text.cut '=' piece).bind fun (written, text) =>
    if Text.trim written = key.name then some (Text.trim text) else none

/-- What the last of some pieces that is for a key writes. -/
def lastValue? (key : Key) (pieces : List String) : Option String :=
  pieces.reverse.findSome? (valueFor? key)

theorem lastValue?_append (key : Key) (pieces others : List String) :
    lastValue? key (pieces ++ others) = (lastValue? key others).or (lastValue? key pieces) := by
  rw [lastValue?, List.reverse_append, List.findSome?_append]
  rfl

theorem valueFor?_of_ofPiece {piece : String} {a : Assignment}
    (h : Assignment.ofPiece piece = .ok a) (key : Key) :
    valueFor? key piece = if key = a.key then some a.value else none := by
  obtain ⟨written, text, hcut, hkey, hvalue, -⟩ := Assignment.ofPiece_eq_ok_iff.mp h
  rw [valueFor?, hcut, Option.bind_some]
  show (if Text.trim written = key.name then some (Text.trim text) else none) = _
  rw [hkey, hvalue]
  exact if_congr (Key.name_injective.eq_iff.trans eq_comm) rfl rfl

/-- Pieces that are all accepted set each key to the last value that they write for it. -/
theorem value_foldl_assign {pieces : List String} {as : List Assignment}
    (h : pieces.mapM Assignment.ofPiece = .ok as) (settings : Settings) (key : Key) :
    (as.foldl assign settings).value key =
      (lastValue? key pieces).getD (settings.value key) := by
  have hall := Traversal.mapM_eq_ok_iff.mp h
  clear h
  induction hall generalizing settings with
  | nil => rfl
  | @cons piece a pieces as hpiece _ ih =>
    have hsplit : lastValue? key (piece :: pieces) =
        (lastValue? key pieces).or (valueFor? key piece) := by
      rw [← List.singleton_append, lastValue?_append]
      congr 1
      rw [lastValue?, List.reverse_singleton, List.findSome?_cons]
      cases valueFor? key piece <;> rfl
    rw [List.foldl_cons, ih, value_assign, hsplit, valueFor?_of_ofPiece hpiece]
    cases lastValue? key pieces with
    | some last => rfl
    | none =>
      by_cases hkey : key = a.key
      · rw [if_pos hkey, if_pos hkey]
        rfl
      · rw [if_neg hkey, if_neg hkey]
        rfl

theorem isExtension_assign {a : Assignment} (h : a.Allowed) {settings : Settings}
    (hs : isExtension settings.extension = true) :
    isExtension (settings.assign a).extension = true := by
  cases a with
  | content kind => exact hs
  | extension text => exact h

theorem isExtension_foldl_assign {pieces : List String} {as : List Assignment}
    (h : pieces.mapM Assignment.ofPiece = .ok as) {settings : Settings}
    (hs : isExtension settings.extension = true) :
    isExtension (as.foldl assign settings).extension = true := by
  have hall := Traversal.mapM_eq_ok_iff.mp h
  clear h
  induction hall generalizing settings with
  | nil => exact hs
  | cons hpiece _ ih =>
    obtain ⟨-, -, -, -, -, hallowed⟩ := Assignment.ofPiece_eq_ok_iff.mp hpiece
    exact ih (isExtension_assign hallowed hs)

/-- An extension that a parameter leads to can be used. -/
theorem isExtension_of_ofParameter {parameter : Option String} {settings : Settings}
    (h : ofParameter parameter = .ok settings) : isExtension settings.extension = true := by
  have hdefault : isExtension ({} : Settings).extension = true := by decide
  cases parameter with
  | none =>
    cases h
    exact hdefault
  | some text =>
    obtain ⟨as, has, rfl⟩ := Traversal.map_eq_ok_iff.mp h
    exact isExtension_foldl_assign has hdefault

end Settings

end TopicPlugin
