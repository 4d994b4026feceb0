/-
TypedPaths/Proofs/Enumeration.lean

Listings, found kind by kind.

Design.  The listing of a shape is computed from its expansion.  Here it is found as a program finds
it that knows kinds alone: it asks for the kind of the shape, goes on to the members of a union with
the levels that are left, and to the slots of a container with one level less.  The rules of
`Schema.Enumerates` say so, and a derivation is a tree of such calls that has come to an end.

The kind of a container has the slots of the shape (`Kind.slots`), and a kind that is neither
terminal nor `any` nor that of a container is the kind of a union, with its members (`Kind.forms`,
`deref_of_members`).

Main results: `listing_of_members`, `listing_of_isContainer`, `enumerates_iff`.
-/
import TypedPaths.Proofs.Classification
import TypedPaths.Proofs.Listing

namespace TypedPaths

/-! ### Kinds of containers -/

namespace Kind

variable {k : Kind} {s : Shape}

/-- Lists and objects. -/
def isContainer : Kind → Bool
  | array _ _ => true
  | tuple _ _ => true
  | indexed _ _ => true
  | struct _ => true
  | _ => false

/-- The places below a container. -/
def slots : Kind → List (PatternPart × Slot)
  | array s r => (Shape.array s r).slots
  | tuple ss r => (Shape.tuple ss r).slots
  | indexed fs i => (Shape.struct fs (some i)).slots
  | struct fs => (Shape.struct fs none).slots
  | _ => []

/-- The slot that a segment stands for. -/
def slot? (k : Kind) (segment : String) : Option Slot :=
  (k.slots.find? fun p => p.1.covers segment).map Prod.snd

theorem slots_ofConcrete (s : Shape) : (ofConcrete s).slots = s.slots := by
  cases s with
  | struct fs i => cases i <;> rfl
  | _ => rfl

theorem slot?_ofConcrete (s : Shape) (segment : String) :
    (ofConcrete s).slot? segment = s.slot? segment := by
  unfold slot? Shape.slot?
  rw [slots_ofConcrete]

/-- The members of a union that is traversed, less its nullish members or not. -/
def HasMembers (k : Kind) (ms : List Shape) : Prop := k = nullable ms ∨ k = union ms

/-- Nothing is below a shape, or anything, or what its members or its slots have. -/
theorem forms (k : Kind) :
    k.isTerminal = true ∨ k = any ∨ (∃ ms, k.HasMembers ms) ∨ k.isContainer = true := by
  cases k with
  | any => exact .inr (.inl rfl)
  | nullable ms => exact .inr (.inr (.inl ⟨ms, .inl rfl⟩))
  | union ms => exact .inr (.inr (.inl ⟨ms, .inr rfl⟩))
  | unknown => exact .inl rfl
  | never => exact .inl rfl
  | primitive => exact .inl rfl
  | _ => exact .inr (.inr (.inr rfl))

theorem not_hasMembers_ofConcrete {ms : List Shape} : ¬ (ofConcrete s).HasMembers ms := by
  rintro (h | h) <;> cases s with
  | struct fs i => cases i <;> cases h
  | _ => cases h

/-- A union has no other members than its own. -/
theorem hasMembers_ofMembers {members ms : List Shape} {kinds : List Kind} {nullish : Nat}
    (h : (ofMembers members kinds nullish).HasMembers ms) : ms = members := by
  rcases ofMembers_forms members kinds nullish with
    ⟨-, heq⟩ | ⟨-, -, heq⟩ | ⟨-, -, ⟨-, heq⟩ | ⟨-, heq⟩ | ⟨-, heq⟩ | heq⟩ <;>
  · rw [heq] at h
    rcases h with h | h <;> cases h <;> rfl

theorem isContainer_ofMembers (members : List Shape) (kinds : List Kind) (nullish : Nat) :
    (ofMembers members kinds nullish).isContainer = false := by
  rcases ofMembers_forms members kinds nullish with
    ⟨-, heq⟩ | ⟨-, -, heq⟩ | ⟨-, -, ⟨-, heq⟩ | ⟨-, heq⟩ | ⟨-, heq⟩ | heq⟩ <;>
  · rw [heq]
    rfl

end Kind

namespace Schema

open Shape

variable {S : Schema} {P : Shape → Prop} {w : Bool} {b : Nat} {s t : Shape} {ms : List Shape}

/-- The members of a kind are those of the union that the shape stands for. -/
theorem deref_of_members (hS : S.Valid) (hk : (S.kind s).HasMembers ms) :
    S.deref s = .ok (.union ms) := by
  rcases S.deref_cases s with ⟨e, hd⟩ | ⟨t, hd, ht⟩ | ⟨us, hd⟩
  · rw [kind_of_deref_error hS hd] at hk
    rcases hk with hk | hk <;> cases hk
  · rw [kind_of_deref hS hd, kind_concrete ht] at hk
    exact absurd hk Kind.not_hasMembers_ofConcrete
  · rw [kind_of_deref hS hd, kind_union] at hk
    rw [hd, Kind.hasMembers_ofMembers hk]

/-- The kind of a container is that of the concrete shape that the shape stands for. -/
theorem deref_of_isContainer (hS : S.Valid) (hk : (S.kind s).isContainer = true) :
    ∃ t, S.deref s = .ok t ∧ t.IsConcrete ∧ S.kind s = .ofConcrete t ∧ t ≠ .any ∧
      t ≠ .unknown := by
  rcases S.deref_cases s with ⟨e, hd⟩ | ⟨t, hd, ht⟩ | ⟨us, hd⟩
  · rw [kind_of_deref_error hS hd] at hk
    cases hk
  · have heq : S.kind s = .ofConcrete t := by rw [kind_of_deref hS hd, kind_concrete ht]
    rw [heq] at hk
    refine ⟨t, hd, ht, heq, ?_, ?_⟩ <;>
      · rintro rfl
        cases hk
  · rw [kind_of_deref hS hd, kind_union, Kind.isContainer_ofMembers] at hk
    cases hk

/-- The shapes of the slots are parts. -/
theorem mem_parts_of_mem_slots {p : PatternPart × Slot} (hp : p ∈ s.slots) :
    p.2.shape ∈ s.parts := by
  cases s with
  | array s r =>
    rw [List.mem_singleton.mp hp]
    exact List.mem_cons_self
  | tuple ss r =>
    obtain ⟨q, hq, rfl⟩ := List.mem_map.mp hp
    exact List.fst_mem_of_mem_zipIdx hq
  | record i =>
    rw [(mem_indexSlots hp).2]
    exact List.mem_cons_self
  | struct fs i =>
    rcases mem_slots_of_objectParts? rfl hp with ⟨f, hf, -, rfl⟩ | ⟨j, rfl, hj⟩
    · exact List.mem_append_left _ (List.mem_map_of_mem hf)
    · rw [(mem_indexSlots hj).2]
      exact List.mem_append_right _ List.mem_cons_self
  | _ => cases hp

theorem Hereditary.slot (hS : S.Valid) (hP : S.Hereditary P) (hs : P s)
    (hk : (S.kind s).isContainer = true) {p : PatternPart × Slot} (hp : p ∈ (S.kind s).slots) :
    P p.2.shape := by
  obtain ⟨t, hd, -, heq, -⟩ := deref_of_isContainer hS hk
  rw [heq, Kind.slots_ofConcrete] at hp
  exact hP.part (hP.deref hs hd) (mem_parts_of_mem_slots hp)

/-! ### Listings by kinds -/

/-- Below a shape without parts, or one of which nothing is known, nothing is listed. -/
theorem listing_of_isTerminal (hS : S.Valid) (hk : (S.kind s).isTerminal = true) :
    S.listing w b s = [] := by
  cases b with
  | zero => rw [listing, if_pos hk]
  | succ b =>
    rw [List.eq_nil_iff_forall_not_mem]
    intro p hp
    -- what is listed is in a slot of a branch, or below `any`
    have hshows : S.Shows (fun t => t.slots ≠ []) s := by
      rcases (mem_listing_succ_iff hS).mp hp with ⟨hany, -⟩ | ⟨-, hunknown, t, ht, q, hq, -⟩
      · exact .inl hany
      · exact .inr ⟨hunknown, t, ht, List.ne_nil_of_mem hq⟩
    rw [not_isTerminal hS hshows] at hk
    cases hk

theorem listing_of_any (hk : S.kind s = .any) : S.listing w b s = [[.rest]] := by
  cases b with
  | zero =>
    rw [listing, hk]
    rfl
  | succ b =>
    unfold kind at hk
    rw [listing]
    cases hs : S.expand s with
    | leaf t =>
      rw [hs, Expansion.kind, Kind.ofConcrete_eq_any_iff] at hk
      rw [hk, Expansion.listing]
    | union members =>
      rw [hs] at hk
      rw [Expansion.listing, hk]

/-- Below a union, the listings of its members follow one another. -/
theorem listing_of_members (hS : S.Valid) (hk : (S.kind s).HasMembers ms) :
    S.listing w (b + 1) s = ms.flatMap (S.listing w (b + 1)) := by
  have hd : S.deref s = .ok (.union ms) := deref_of_members hS hk
  unfold kind at hk
  rw [expand_of_deref_union hS hd] at hk
  rw [listing, expand_of_deref_union hS hd, Expansion.listing]
  split
  · next hany =>
    rw [hany] at hk
    rcases hk with hk | hk <;> cases hk
  · next hunknown =>
    rw [hunknown] at hk
    rcases hk with hk | hk <;> cases hk
  · rw [Expansion.listingMembers_eq_flatMap, List.flatMap_map]
    rfl

/-- Below a container, its slots are listed with one level less. -/
theorem listing_of_isContainer (hS : S.Valid) (hk : (S.kind s).isContainer = true) :
    S.listing w (b + 1) s =
      (S.kind s).slots.flatMap fun p => slotListing w (S.listing w b) p.1 p.2 := by
  obtain ⟨t, hd, ht, heq, hany, -⟩ := deref_of_isContainer hS hk
  rw [heq, Kind.slots_ofConcrete, listing, expand_of_deref_concrete hS hd ht,
    Expansion.listing_leaf hany]

/-! ### Enumeration -/

/-- How the listing of a shape is found.  Each shape whose kind is found has the property. -/
inductive Enumerates (S : Schema) (P : Shape → Prop) (w : Bool) :
    Budget → Shape → List Pattern → Prop
  | terminal {b : Budget} {s : Shape} {k : Kind} :
      S.Classifies P s k → k.isTerminal = true → Enumerates S P w b s []
  | any {b : Budget} {s : Shape} : S.Classifies P s .any → Enumerates S P w b s [[.rest]]
  | exhausted {s : Shape} {k : Kind} :
      S.Classifies P s k → k.isTerminal = false → Enumerates S P w 0 s [[.rest]]
  | members {b : Budget} {s : Shape} {k : Kind} {ms : List Shape}
      {below : Shape → List Pattern} :
      S.Classifies P s k → k.HasMembers ms →
      (∀ m ∈ ms, Enumerates S P w (b + 1) m (below m)) →
      Enumerates S P w (b + 1) s (ms.flatMap below)
  | slots {b : Budget} {s : Shape} {k : Kind} {below : Shape → List Pattern} :
      S.Classifies P s k → k.isContainer = true →
      (∀ p ∈ k.slots, Enumerates S P w b p.2.shape (below p.2.shape)) →
      Enumerates S P w (b + 1) s (k.slots.flatMap fun p => slotListing w below p.1 p.2)

variable {found : List Pattern}

/-- The rules find no other listing than the one computed from the expansion. -/
theorem Enumerates.eq (hS : S.Valid) (h : S.Enumerates P w b s found) :
    S.listing w b s = found := by
  induction h with
  | terminal hclass hk =>
    obtain rfl := hclass.eq hS
    exact listing_of_isTerminal hS hk
  | any hclass => exact listing_of_any (hclass.eq hS)
  | exhausted hclass hk =>
    obtain rfl := hclass.eq hS
    rw [listing, hk, if_neg Bool.false_ne_true]
  | members hclass hk _ ih =>
    obtain rfl := hclass.eq hS
    rw [listing_of_members hS hk]
    exact List.flatMap_congr ih
  | slots hclass hk _ ih =>
    obtain rfl := hclass.eq hS
    rw [listing_of_isContainer hS hk]
    refine List.flatMap_congr fun p hp => ?_
    rw [slotListing, slotListing, ih p hp]

/-- By induction on the levels, and on where shapes lead, the rules find that listing. -/
theorem enumerates (hS : S.Valid) (hP : S.Hereditary P) (hs : P s) :
    S.Enumerates P w b s (S.listing w b s) := by
  induction b generalizing s with
  | zero =>
    have hclass : S.Classifies P s (S.kind s) := classifies hS hP hs
    cases hk : (S.kind s).isTerminal with
    | true =>
      rw [listing_of_isTerminal hS hk]
      exact .terminal hclass hk
    | false =>
      rw [listing, hk, if_neg Bool.false_ne_true]
      exact .exhausted hclass hk
  | succ b ihb =>
    induction s using hS.derefInduction with
    | step s ih =>
      have hclass : S.Classifies P s (S.kind s) := classifies hS hP hs
      rcases (S.kind s).forms with hk | hk | ⟨ms, hk⟩ | hk
      · rw [listing_of_isTerminal hS hk]
        exact .terminal hclass hk
      · rw [listing_of_any hk]
        exact .any (hk ▸ hclass)
      · have hd : S.deref s = .ok (.union ms) := deref_of_members hS hk
        rw [listing_of_members hS hk]
        exact .members hclass hk fun m hm => ih ms hd m hm (hP.member hs hd m hm)
      · rw [listing_of_isContainer hS hk]
        exact .slots hclass hk fun p hp => ihb (hP.slot hS hs hk hp)

/-- Listing the patterns below a shape always ends, with its listing. -/
theorem enumerates_iff (hS : S.Valid) (hP : S.Hereditary P) (hs : P s) :
    S.Enumerates P w b s found ↔ S.listing w b s = found := by
  constructor
  · exact Enumerates.eq hS
  · rintro rfl
    exact enumerates hS hP hs

end Schema

end TypedPaths
