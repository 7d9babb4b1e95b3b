import StepScript.Text.ClusterClass
set_option autoImplicit false

/-!
# Clusters

A text falls into clusters, the units that a reader takes for one character: a letter with
its marks, a Hangul syllable, a conjunct of consonants, a flag, joined pictographs, or a line
end of two characters.  Whether a cluster ends before a character is decided by the
character's class and by what stands before it.  Main statement: the clusters of a text
make up the text.
-/

namespace StepScript.Text

inductive Picture where
  | none
  /-- A pictograph, and extenders behind it. -/
  | drawn
  /-- A pictograph, extenders behind it, and a joiner. -/
  | joined
  deriving DecidableEq, Repr, Inhabited

inductive Conjunct where
  | none
  /-- A consonant, and extenders behind it. -/
  | begun
  /-- A consonant, and extenders behind it with a linker among them. -/
  | linked
  deriving DecidableEq, Repr, Inhabited

structure Trail where
  /-- The class of the last character. -/
  last : ClusterClass
  picture : Picture := .none
  conjunct : Conjunct := .none
  /-- The text ends in an odd number of regional signs. -/
  halfFlag : Bool := false
  deriving DecidableEq, Repr, Inhabited

namespace Trail

def start (first : ClusterClass) : Trail where
  last := first
  picture := if first = .pictograph then .drawn else .none
  conjunct := if first = .consonant then .begun else .none
  halfFlag := first = .regional

def nextPicture (picture : Picture) : ClusterClass → Picture
  | .pictograph => .drawn
  | .extender | .linker | .nonJoiner => if picture = .drawn then .drawn else .none
  | .joiner => if picture = .drawn then .joined else .none
  | _ => .none

def nextConjunct (conjunct : Conjunct) : ClusterClass → Conjunct
  | .consonant => .begun
  | .linker => if conjunct = .none then .none else .linked
  | .extender | .joiner => conjunct
  | _ => .none

def push (trail : Trail) (next : ClusterClass) : Trail where
  last := next
  picture := nextPicture trail.picture next
  conjunct := nextConjunct trail.conjunct next
  halfFlag := next = .regional && !trail.halfFlag

/-- A cluster ends between the trail and a character. -/
def endsBefore (trail : Trail) (next : ClusterClass) : Bool :=
  match trail.last, next with
  | .carriageReturn, .lineFeed => false
  | .control, _ | .carriageReturn, _ | .lineFeed, _ => true
  | _, .control | _, .carriageReturn | _, .lineFeed => true
  | .syllableHead, .syllableHead | .syllableHead, .syllableVowel
  | .syllableHead, .openSyllable | .syllableHead, .closedSyllable => false
  | .openSyllable, .syllableVowel | .openSyllable, .syllableTail
  | .syllableVowel, .syllableVowel | .syllableVowel, .syllableTail => false
  | .closedSyllable, .syllableTail | .syllableTail, .syllableTail => false
  | _, .extender | _, .linker | _, .nonJoiner | _, .joiner | _, .spacing => false
  | .leader, _ => false
  | _, .consonant => trail.conjunct != .linked
  | _, .pictograph => trail.picture != .joined
  | _, .regional => !trail.halfFlag
  | _, _ => true

end Trail

/-- The clusters of a text, where `current` holds the characters of the cluster so far, the
last one first, and `trail` what is known of the characters up to there. -/
def clustersFrom : (trail : Trail) → (current : List Char) → List Char → List (List Char)
  | _, current, [] => [current.reverse]
  | trail, current, c :: rest =>
    let next := ClusterClass.ofChar c
    if trail.endsBefore next then
      current.reverse :: clustersFrom (trail.push next) [c] rest
    else clustersFrom (trail.push next) (c :: current) rest

def clusters : List Char → List (List Char)
  | [] => []
  | c :: rest => clustersFrom (.start (ClusterClass.ofChar c)) [c] rest

theorem flatten_clustersFrom (trail : Trail) (current text : List Char) :
    (clustersFrom trail current text).flatten = current.reverse ++ text := by
  induction text generalizing trail current with
  | nil => simp [clustersFrom]
  | cons c rest ih =>
    rw [clustersFrom]
    split
    · rw [List.flatten_cons, ih]
      simp
    · rw [ih]
      simp

/-- The clusters of a text make up the text. -/
@[simp]
theorem flatten_clusters (text : List Char) : (clusters text).flatten = text := by
  cases text with
  | nil => rfl
  | cons c rest =>
    rw [clusters, flatten_clustersFrom]
    rfl

end StepScript.Text
