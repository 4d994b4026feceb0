/-
TypedPaths/Listing.lean

Listing the paths of a schema.

Design.  A listing gives, level by level, a pattern for every slot below a shape.  Where it has no
levels left but the shape can still be traversed, it ends with the pattern part that covers
everything below; the same part stands below `any`.  The paths of a union are those of its
members, without a level of their own.  A listing of what can be assigned to leaves out the
patterns that end in a readonly slot, and still lists what is below them.
-/
import TypedPaths.Schema.Kind
import TypedPaths.Schema.Slot

namespace TypedPaths

/-! ### Options -/

/-- How far and what to list. -/
structure ListingOptions where
  /-- The number of levels. -/
  depth : Nat := 3
  /-- Leave out what cannot be assigned to. -/
  writableOnly : Bool := false
deriving DecidableEq

namespace ListingOptions

/-- The same listing, of what can be assigned to alone. -/
def writable (options : ListingOptions) : ListingOptions := { options with writableOnly := true }

/-- A listing has at least one level. -/
def validate (options : ListingOptions) : Except Error Unit :=
  if options.depth = 0 then .error .invalidDepth else .ok ()

end ListingOptions

/-! ### Budgets -/

/-- The number of levels that may still be entered. -/
abbrev Budget := Nat

namespace Budget

/-- No level may be entered. -/
def isExhausted (b : Budget) : Bool := b = 0

/-- What is left after a level is entered. -/
def descend (b : Budget) : Budget := b - 1

end Budget

/-! ### Listings -/

namespace Expansion

mutual

/-- The patterns below a shape with this expansion, with those of concrete shapes given. -/
def listing (concrete : Shape → List Pattern) : Expansion → List Pattern
  | leaf .any => [[.rest]]
  | leaf s => concrete s
  | union members =>
    match kind (union members) with
    | .any => [[.rest]]
    | .unknown => []
    | _ => listingMembers concrete members

/-- The patterns below the members of a union. -/
def listingMembers (concrete : Shape → List Pattern) : List (Shape × Expansion) → List Pattern
  | [] => []
  | (_, e) :: rest => listing concrete e ++ listingMembers concrete rest

end

end Expansion

namespace Schema

/-- The patterns of a slot: its own, unless it is left out, and those below it. -/
def slotListing (writableOnly : Bool) (below : Shape → List Pattern) (part : PatternPart)
    (slot : Slot) : List Pattern :=
  (if writableOnly && slot.readonly then [] else [[part]]) ++ (below slot.shape).map (part :: ·)

/-- The patterns below a shape, over a number of levels. -/
def listing (schema : Schema) (writableOnly : Bool) : Budget → Shape → List Pattern
  | 0, s => if (schema.kind s).isTerminal then [] else [[.rest]]
  | b + 1, s =>
    (schema.expand s).listing fun t =>
      t.slots.flatMap fun (part, slot) =>
        slotListing writableOnly (listing schema writableOnly b) part slot

/-- The set of the patterns below a shape. -/
def patterns (schema : Schema) (writableOnly : Bool) (b : Budget) (s : Shape) : PatternSet :=
  .ofList (schema.listing writableOnly b s)

/-- The paths of the schema. -/
def paths (schema : Schema) (options : ListingOptions) : Except Error PatternSet :=
  options.validate.map fun _ => schema.patterns options.writableOnly options.depth schema.root

theorem mem_patterns {schema : Schema} {writableOnly : Bool} {b : Budget} {s : Shape}
    {p : Pattern} :
    p ∈ schema.patterns writableOnly b s ↔ p ∈ schema.listing writableOnly b s :=
  SortedSet.mem_ofList

end Schema

end TypedPaths
