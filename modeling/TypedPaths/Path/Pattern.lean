/-
TypedPaths/Path/Pattern.lean

Patterns of paths, and sets of them.

Design.  A pattern is a list of parts, each of which covers one segment of a path; the part
`rest` covers all that is left, and at least one segment.  Sets of patterns are kept in the
lexicographic order of their parts, in which keys come before positions and wildcards last.

Main results:
* the order of the parts is a linear order (the instances of `TransOrd` and `LawfulEqOrd`), so
  patterns make up a `SortedSet`;
* `PatternSet.covers_ofList`: a set covers what one of its patterns covers.
-/
import TypedPaths.Path
import TypedPaths.Order.SortedSet

namespace TypedPaths

open Std

/-! ### Parts -/

/-- A part of a pattern. -/
inductive PatternPart where
  /-- The segment with this text. -/
  | key (name : String)
  /-- The segment that stands for this position. -/
  | index (i : Nat)
  /-- Any segment that stands for a position. -/
  | anyIndex
  /-- Any segment. -/
  | anyKey
  /-- All segments that are left. -/
  | rest
deriving DecidableEq

namespace PatternPart

/-- Whether the part covers the segment. -/
def covers : PatternPart → String → Bool
  | key name, segment => name == segment
  | index i, segment => Path.index? segment == some i
  | anyIndex, segment => (Path.index? segment).isSome
  | anyKey, _ => true
  | rest, _ => true

/-- The text of a part. -/
def text : PatternPart → String
  | key name => name
  | index i => toString i
  | anyIndex => "\x7bnumber\x7d"
  | anyKey => "\x7bstring\x7d"
  | rest => "**"

/-- Whether the part is no wildcard. -/
def isConcrete : PatternPart → Bool
  | key _ => true
  | index _ => true
  | _ => false

/-! #### Order -/

/-- Keys come first, then positions, then the wildcards from the narrowest to the widest. -/
def rank : PatternPart → Nat
  | key _ => 0
  | index _ => 1
  | anyIndex => 2
  | anyKey => 3
  | rest => 4

/-- The position of a position. -/
def position : PatternPart → Nat
  | index i => i
  | _ => 0

/-- The name of a key. -/
def name : PatternPart → String
  | key name => name
  | _ => ""

instance : Ord PatternPart :=
  ⟨compareLex (compareOn rank) (compareLex (compareOn position) (compareOn name))⟩

instance : TransOrd PatternPart :=
  inferInstanceAs
    (TransCmp (compareLex (compareOn rank) (compareLex (compareOn position) (compareOn name))))

instance : LawfulEqOrd PatternPart where
  compare_self {a} := ReflCmp.compare_self
  eq_of_compare {a b} h := by
    obtain ⟨hr, h⟩ := compareLex_eq_eq.mp h
    obtain ⟨hp, hn⟩ := compareLex_eq_eq.mp h
    have hr : a.rank = b.rank := LawfulEqCmp.eq_of_compare hr
    have hp : a.position = b.position := LawfulEqCmp.eq_of_compare hp
    have hn : a.name = b.name := LawfulEqCmp.eq_of_compare hn
    cases a <;> cases b <;> simp_all [rank, position, name]

end PatternPart

/-! ### Patterns -/

/-- A pattern of paths. -/
abbrev Pattern := List PatternPart

namespace Pattern

/-- Whether the pattern covers the segments of a path. -/
def covers : Pattern → List String → Bool
  | [], [] => true
  | .rest :: _, segments => !segments.isEmpty
  | part :: parts, segment :: segments => part.covers segment && covers parts segments
  | _, _ => false

/-- The text of a pattern: its parts with dots between them. -/
def text (pattern : Pattern) : String := Path.join (pattern.map PatternPart.text)

/-- Whether the pattern has no wildcards. -/
def isConcrete (pattern : Pattern) : Bool := pattern.all PatternPart.isConcrete

/-- The pattern below the place that the segments lead to. -/
def below (head : List String) (pattern : Pattern) : Pattern := head.map .key ++ pattern

end Pattern

/-! ### Sets -/

/-- A set of patterns, in their order. -/
abbrev PatternSet := SortedSet Pattern

namespace PatternSet

/-- Whether a pattern of the set covers the segments. -/
def covers (set : PatternSet) (segments : List String) : Bool :=
  set.toList.any (·.covers segments)

/-- Whether a pattern of the set covers the path. -/
def contains (set : PatternSet) (path : String) : Bool := set.covers (Path.segments path)

/-- The set with every pattern moved below the place that the segments lead to. -/
def below (head : List String) (set : PatternSet) : PatternSet :=
  .ofList (set.toList.map (Pattern.below head))

/-- The distinct texts of the patterns, in increasing order. -/
def texts (set : PatternSet) : SortedSet String := .ofList (set.toList.map Pattern.text)

theorem covers_iff {set : PatternSet} {segments : List String} :
    set.covers segments ↔ ∃ p ∈ set, p.covers segments := by
  simp [covers]

theorem covers_ofList {patterns : List Pattern} {segments : List String} :
    covers (.ofList patterns) segments ↔ ∃ p ∈ patterns, p.covers segments := by
  simp [covers_iff]

end PatternSet

end TypedPaths
