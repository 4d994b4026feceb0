/-
TypedPaths/Proofs/Wording.lean

What the text of a type tells.

Design.  A shape is plain if it is built without names and literals, whose texts may be anything.
The text of a plain shape is read from the left.  It is an enumeration of members; a member is a
chain of arrays, of which the `readonly`s are counted first, then the core is read, and the brackets
behind it are counted (`tells_member`); and the core is a word, or it begins with a bracket or a
parenthesis and has its parts inside (`legibleCore_of_parts`).  What may follow a text is different
in these places, and always ends it: a comma or the end of a bracket behind a type, also a blank
behind a member, also the brackets of arrays behind a core.

What is read in this way is all but the places of the `readonly`s in their chains, so the texts of
plain shapes are equal if and only if the shapes are equal once the `readonly`s are put first
(`text_eq_iff`).  An array of readonly arrays and a readonly array of arrays have one text
(`CommandLine.text_rows_eq_text_table`).

Main results: `legible`, `text_eq_iff`, `text_tells_plain`,
`CommandLine.text_rows_eq_text_table`.
-/
import TypedPaths.CommandLine.Run
import TypedPaths.Proofs.Chain
import TypedPaths.Proofs.Document
import Mathlib.Data.List.Nodup

namespace TypedPaths

namespace Shape

variable {s t : Shape} {ss ts : List Shape} {r : Bool} {x y : List Char}

/-! ### Plain shapes -/

/-- The shape is no name, no literal and no object, and if it is a union it is normal. -/
def IsPlainPart : Shape → Prop
  | primitive _ | any | unknown | never | array _ _ | tuple _ _ => True
  | union ss => (union ss).IsNormal
  | _ => False

/-- The shape is built of primitive types, `any`, `unknown` and `never` by arrays, tuples and normal
unions. -/
def Plain (s : Shape) : Prop := s.Throughout IsPlainPart

theorem Plain.isPlainPart (hs : s.Plain) : s.IsPlainPart := (throughout_iff.mp hs).1

theorem Plain.parts (hs : s.Plain) (ht : t ∈ s.parts) : t.Plain := (throughout_iff.mp hs).2 t ht

theorem Plain.isNormal (hs : s.Plain) : s.IsNormal := by
  cases s with
  | union ss => exact hs.isPlainPart
  | _ => trivial

/-- The core of a chain is as plain as the chain. -/
theorem Plain.core : ∀ {s : Shape}, s.Plain → s.core.Plain
  | array s _, hs => Plain.core (s := s) (hs.parts List.mem_cons_self)
  | tuple _ _, hs | primitive _, hs | literal _, hs | any, hs | unknown, hs | never, hs
  | record _, hs | struct _ _, hs | union _, hs | ref _, hs => hs

/-- The members of a plain shape are plain, and no unions. -/
theorem Plain.spread (hs : s.Plain) (ht : t ∈ s.spread) : t.Plain ∧ ¬ t.IsUnion := by
  cases s with
  | union ss => exact ⟨hs.parts ht, (hs.isNormal.2.2 t ht).not_isUnion⟩
  | _ =>
    obtain rfl := List.mem_singleton.mp ht
    exact ⟨hs, id⟩

theorem mem_spread_self (h : ¬ s.IsUnion) : s ∈ s.spread := by
  rw [spread_of_not_isUnion h]
  exact List.mem_cons_self

theorem spread_ne_nil (hs : s.IsNormal) : s.spread ≠ [] := by
  cases s with
  | union ss =>
    rintro rfl
    exact absurd hs.1 (by decide)
  | _ => exact List.cons_ne_nil _ _

/-- A normal shape is made up of its members, also after `readonly`s have been moved in them. -/
theorem ofDistinct_spread (hs : s.IsNormal) :
    ofDistinct (s.spread.map readonlyFirst) = s.readonlyFirst := by
  cases s with
  | union ss =>
    rw [readonlyFirst_union]
    rcases ss with - | ⟨t, - | ⟨u, ss⟩⟩
    · exact absurd hs.1 (by decide)
    · exact absurd hs.1 (by simp)
    · rfl
  | _ => rfl

/-! ### Words -/

/-- The shapes whose texts are single words. -/
def words : List Shape :=
  [primitive .string, primitive .number, primitive .boolean, primitive .bigint, primitive .symbol,
    primitive .undefined, primitive .null, any, unknown, never]

theorem mem_words (p : Primitive) : primitive p ∈ words := by
  cases p <;> simp [words]

/-- No two of them have the same word. -/
theorem nodup_words : (words.map chars).Nodup := by
  decide

theorem isAlpha_of_mem_words (hs : s ∈ words) : ∀ c ∈ s.chars, c.isAlpha := by
  have hwords : (words.all fun s => s.chars.all Char.isAlpha) = true := by decide
  exact List.all_eq_true.mp (List.all_eq_true.mp hwords s hs)

/-- A `readonly` in front is none of these words, nor the beginning of one. -/
theorem head?_of_mem_words (hs : s ∈ words) : ∃ c ∈ s.chars.head?, c ≠ 'r' := by
  have hwords : (words.all fun s => s.chars.head?.any (· ≠ 'r')) = true := by decide
  simpa [Option.any_eq_true] using List.all_eq_true.mp hwords s hs

theorem coreChars_of_mem_words (hs : s ∈ words) : coreChars s = s.chars := by
  simp only [words, List.mem_cons, List.not_mem_nil, or_false] at hs
  rcases hs with rfl | rfl | rfl | rfl | rfl | rfl | rfl | rfl | rfl | rfl <;> rfl

/-! ### Cores -/

/-- A core of a plain shape, and the first character of its text. -/
inductive Opening : Shape → Char → Prop
  | word {s : Shape} {c : Char} : s ∈ words → c.isAlpha → c ≠ 'r' → Opening s c
  | tuple {ss : List Shape} {r : Bool} : Opening (tuple ss r) '['
  | union {ss : List Shape} : Opening (union ss) '('

/-- No core begins as `readonly` does, or as a tuple ends. -/
theorem Opening.ne {c : Char} (h : Opening s c) : c ≠ 'r' ∧ c ≠ ']' := by
  cases h with
  | word _ halpha hne =>
    refine ⟨hne, ?_⟩
    rintro rfl
    exact absurd halpha (by decide)
  | tuple | union => decide

/-- The text of a core begins with a letter, a bracket or a parenthesis, according to whether the
core is a word, a tuple or a union. -/
theorem exists_opening (hs : s.Plain) : ∃ c ∈ (coreChars s.core).head?, Opening s.core c := by
  have hword : ∀ u ∈ words, ∃ c ∈ u.chars.head?, Opening u c := by
    intro u hu
    obtain ⟨c, hc, hr⟩ := head?_of_mem_words hu
    exact ⟨c, hc, .word hu (isAlpha_of_mem_words hu c (List.mem_of_mem_head? hc)) hr⟩
  induction s using partsInduction with
  | step s ih =>
    cases s with
    | primitive p => exact hword _ (mem_words p)
    | any => exact hword any (by simp [words])
    | unknown => exact hword unknown (by simp [words])
    | never => exact hword never (by simp [words])
    | array s r => exact ih s List.mem_cons_self (hs.parts List.mem_cons_self)
    | tuple ss r =>
      have hcore : coreChars (tuple ss r).core = (tuple ss false).chars := rfl
      rw [hcore, chars_tuple]
      exact ⟨'[', rfl, .tuple⟩
    | union ss => exact ⟨'(', rfl, .union⟩
    | _ => exact hs.isPlainPart.elim

/-- Texts that are equal begin with cores of the same kind. -/
theorem opening_of_append_eq (hs : s.Plain) (ht : t.Plain)
    (h : coreChars s.core ++ x = coreChars t.core ++ y) :
    ∃ c, Opening s.core c ∧ Opening t.core c := by
  obtain ⟨c, hc, hopen⟩ := exists_opening hs
  obtain ⟨d, hd, hopen'⟩ := exists_opening ht
  have hhead := congrArg List.head? h
  rw [List.head?_append, List.head?_append, hc, hd] at hhead
  obtain rfl : c = d := Option.some.inj hhead
  exact ⟨c, hopen, hopen'⟩

/-- The text of a plain shape does not begin as a tuple ends. -/
theorem head?_chars (hs : s.Plain) : ∃ c ∈ s.chars.head?, c ≠ ']' := by
  obtain ⟨u, us, hspread⟩ := List.exists_cons_of_ne_nil (spread_ne_nil hs.isNormal)
  obtain ⟨hu, hunion⟩ := hs.spread (t := u) (hspread ▸ List.mem_cons_self)
  rw [chars_spread, hspread, List.map_cons, intercalate_cons, chars_eq hunion]
  cases u.readonlyCount with
  | zero =>
    obtain ⟨c, hc, hopen⟩ := exists_opening hu
    exact ⟨c, by simp [copies_zero, Option.mem_def.mp hc], hopen.ne.2⟩
  | succ n =>
    rw [copies_succ]
    exact ⟨'r', rfl, by decide⟩

/-! ### Reading from the left -/

/-- What may follow a type: the next part of a tuple, or the end of a bracket. -/
def typeEnds : List Char := [',', ']', ')']

/-- What may follow a member of a union. -/
def memberEnds : List Char := ' ' :: typeEnds

/-- What may follow the core of a chain. -/
def coreEnds : List Char := '[' :: memberEnds

/-- The text of the core of the shape tells the core from all others. -/
def LegibleCore (s : Shape) : Prop :=
  ∀ t : Shape, t.Plain → Tells (fun s => coreChars s.core) (fun s => lock 0 s.core) coreEnds s t

/-- So do those of the cores of all members of the shape. -/
def Legible (s : Shape) : Prop := ∀ t ∈ s.spread, t.LegibleCore

/-- A member tells how many `readonly`s are in its chain, its core, and how many arrays. -/
theorem tells_member (hs : s.Plain ∧ ¬ s.IsUnion) (ht : t.Plain ∧ ¬ t.IsUnion)
    (hlegible : s.LegibleCore) : Tells chars readonlyFirst memberEnds s t := by
  intro x y hx hy h
  have hword : ∀ {u : Shape} {z}, u.Plain → 'r' ∉ (coreChars u.core ++ z).head? := by
    intro u z hu hr
    obtain ⟨c, hc, hopen⟩ := exists_opening hu
    rw [List.head?_append, hc] at hr
    exact hopen.ne.1 (Option.some.inj hr)
  have hbracket : ∀ {z}, StopsAt memberEnds z → '[' ∉ z.head? := fun hz hmem =>
    absurd (hz _ hmem) (by decide)
  have hstop : ∀ {n z}, StopsAt memberEnds z → StopsAt coreEnds (copies n "[]".toList ++ z) := by
    intro n z hz
    cases n with
    | zero => exact hz.mono (List.subset_cons_self _ _)
    | succ n =>
      rw [copies_succ]
      exact stopsAt_cons_iff.mpr List.mem_cons_self
  rw [chars_eq hs.2, chars_eq ht.2, List.append_assoc, List.append_assoc, List.append_assoc,
    List.append_assoc] at h
  obtain ⟨hcount, h⟩ := copies_append_inj (hword hs.1) (hword ht.1) h
  obtain ⟨hcore, h⟩ := hlegible t ht.1 (hstop hx) (hstop hy) h
  obtain ⟨hlayers, hxy⟩ := copies_append_inj (hbracket hx) (hbracket hy) h
  refine ⟨?_, hxy⟩
  rw [readonlyFirst, readonlyFirst, hcount, lock_eq_lock hlayers hcore]

/-- A type tells its members, one after the other. -/
theorem tells_type (hs : s.Plain) (ht : t.Plain) (hlegible : s.Legible) :
    Tells chars readonlyFirst typeEnds s t := by
  intro x y hx hy h
  have hmembers : ∀ u ∈ s.spread, ∀ v ∈ t.spread, Tells chars readonlyFirst memberEnds u v :=
    fun u hu v hv => tells_member (hs.spread hu) (ht.spread hv) (hlegible u hu)
  rw [chars_spread, chars_spread] at h
  obtain ⟨hmap, hxy⟩ := tells_intercalate (by decide) (by decide) (List.subset_cons_self _ _)
    (spread_ne_nil hs.isNormal) (spread_ne_nil ht.isNormal) hmembers hx hy h
  refine ⟨?_, hxy⟩
  rw [← ofDistinct_spread hs.isNormal, ← ofDistinct_spread ht.isNormal, hmap]

theorem tells_word (hs : s ∈ words) (ht : t ∈ words) : Tells coreChars id coreEnds s t := by
  intro x y hx hy h
  have hends : (coreEnds.all fun c => !c.isAlpha) = true := by decide
  have hstop : ∀ {z}, StopsAt coreEnds z → ∀ c ∈ z.head?, ¬ c.isAlpha := fun hz c hc => by
    simpa using List.all_eq_true.mp hends c (hz c hc)
  rw [coreChars_of_mem_words hs, coreChars_of_mem_words ht] at h
  obtain ⟨hword, hxy⟩ := letters_append_inj (isAlpha_of_mem_words hs) (isAlpha_of_mem_words ht)
    (hstop hx) (hstop hy) h
  exact ⟨List.inj_on_of_nodup_map nodup_words hs ht hword, hxy⟩

/-- The parts of a tuple are told one after the other, up to the bracket at its end. -/
theorem parts_append_inj (hss : ∀ s ∈ ss, s.Plain ∧ s.Legible) (hts : ∀ t ∈ ts, t.Plain)
    (h : List.intercalate ", ".toList (ss.map chars) ++ ']' :: x =
      List.intercalate ", ".toList (ts.map chars) ++ ']' :: y) :
    ss.map readonlyFirst = ts.map readonlyFirst ∧ x = y := by
  have hempty : ∀ {us : List Shape} {z z'}, us ≠ [] → (∀ u ∈ us, u.Plain) →
      List.intercalate ", ".toList (us.map chars) ++ z ≠ ']' :: z' := by
    intro us z z' hne hus heq
    obtain ⟨u, us, rfl⟩ := List.exists_cons_of_ne_nil hne
    obtain ⟨c, hc, hne⟩ := head?_chars (hus u List.mem_cons_self)
    have hhead := congrArg List.head? heq
    rw [List.map_cons, intercalate_cons, List.append_assoc, List.head?_append, hc] at hhead
    exact hne (Option.some.inj hhead)
  by_cases hs : ss = []
  · by_cases ht : ts = []
    · subst hs ht
      exact ⟨rfl, (List.cons.inj h).2⟩
    · subst hs
      exact absurd h.symm (hempty ht hts)
  · by_cases ht : ts = []
    · subst ht
      exact absurd h (hempty hs fun u hu => (hss u hu).1)
    · have hparts : ∀ s ∈ ss, ∀ t ∈ ts, Tells chars readonlyFirst typeEnds s t :=
        fun s hs t ht => tells_type (hss s hs).1 (hts t ht) (hss s hs).2
      have hend : ∀ {z}, StopsAt [']'] (']' :: z) := stopsAt_cons_iff.mpr List.mem_cons_self
      obtain ⟨hmap, hxy⟩ :=
        tells_intercalate (by decide) (by decide) (by decide) hs ht hparts hend hend h
      exact ⟨hmap, (List.cons.inj hxy).2⟩

/-- A core is told if its parts are: as a word, as a tuple or as a union in parentheses. -/
theorem legibleCore_of_parts (hs : s.Plain) (hparts : ∀ u ∈ s.core.parts, u.Legible) :
    s.LegibleCore := by
  intro t ht x y hx hy h
  dsimp only at h ⊢
  obtain ⟨c, hopen, hopen'⟩ := opening_of_append_eq hs ht h
  have hs := hs.core
  have ht := ht.core
  generalize s.core = u at *
  generalize t.core = v at *
  cases hopen with
  | word hu halpha _ =>
    cases hopen' with
    | word hv _ _ =>
      obtain ⟨huv, hxy⟩ := tells_word hu hv hx hy h
      exact ⟨congrArg (lock 0) huv, hxy⟩
    | tuple => exact absurd halpha (by decide)
    | union => exact absurd halpha (by decide)
  | @tuple ss r =>
    cases hopen' with
    | word _ halpha _ => exact absurd halpha (by decide)
    | @tuple ts r' =>
      rw [coreChars, coreChars, chars_tuple, chars_tuple] at h
      simp only [Bool.toNat_false, copies_zero, List.append_assoc, List.cons_append,
        List.cons.injEq, true_and, List.nil_append] at h
      obtain ⟨hmap, hxy⟩ := parts_append_inj (fun s hs' => ⟨hs.parts hs', hparts s hs'⟩)
        (fun t ht' => ht.parts ht') h
      rw [lock_tuple, lock_tuple]
      exact ⟨congrArg (tuple · false) hmap, hxy⟩
  | @union ss =>
    cases hopen' with
    | word _ halpha _ => exact absurd halpha (by decide)
    | @union ts =>
      rw [coreChars, coreChars] at h
      simp only [List.append_assoc, List.cons_append, List.cons.injEq, true_and,
        List.nil_append] at h
      have hmembers : (union ss).Legible := fun u hu =>
        hparts u hu u (mem_spread_self (hs.spread hu).2)
      have hend : ∀ {z}, StopsAt typeEnds (')' :: z) := stopsAt_cons_iff.mpr (by decide)
      obtain ⟨hfirst, hxy⟩ := tells_type hs ht hmembers hend hend h
      exact ⟨hfirst, (List.cons.inj hxy).2⟩

/-- What is known of the members of a shape is known of it as the core of a chain. -/
theorem Legible.legibleCore (hs : s.Plain) (h : s.Legible) : s.LegibleCore := by
  by_cases hunion : s.IsUnion
  · cases s with
    | union ss =>
      refine legibleCore_of_parts hs fun u hu v hv => ?_
      rw [spread_of_not_isUnion (hs.spread hu).2, List.mem_singleton] at hv
      exact hv ▸ h u hu
    | _ => exact hunion.elim
  · exact h s (mem_spread_self hunion)

/-- The text of a plain shape can be read, from its parts up. -/
theorem legible (hs : s.Plain) : s.Legible := by
  induction s using partsInduction with
  | step s ih =>
    have hparts : ∀ t ∈ s.parts, t.Legible := fun t ht => ih t ht (hs.parts ht)
    intro u hu
    cases s with
    | union ss => exact hparts u hu u (mem_spread_self (hs.spread hu).2)
    | array s r =>
      obtain rfl := List.mem_singleton.mp hu
      have hcore : s.LegibleCore :=
        (hparts s List.mem_cons_self).legibleCore (hs.parts List.mem_cons_self)
      -- the array around it does not change the core
      exact hcore
    | _ =>
      obtain rfl := List.mem_singleton.mp hu
      exact legibleCore_of_parts hs hparts

/-! ### Shapes with the same text -/

/-- Two plain shapes have the same text if and only if they are the same once the `readonly`s of their
chains are put first. -/
theorem text_eq_iff (hs : s.Plain) (ht : t.Plain) :
    s.text = t.text ↔ s.readonlyFirst = t.readonlyFirst := by
  constructor
  · intro h
    have hend := stopsAt_nil typeEnds
    exact (tells_type hs ht (legible hs) hend hend (by rw [chars, chars, h])).1
  · intro h
    rw [← text_readonlyFirst s, h, text_readonlyFirst]

/-- The text of a plain shape tells all of it but which arrays of a chain are readonly, of which it
tells how many.  So where readonly items lie only in readonly arrays, it tells the whole shape. -/
theorem text_tells_plain (hs : s.Plain) (ht : t.Plain) :
    (s.text = t.text ↔ s.readonlyFirst = t.readonlyFirst) ∧
    (s.Throughout GuardsItems → t.Throughout GuardsItems → s.text = t.text → s = t) := by
  refine ⟨text_eq_iff hs ht, fun hs' ht' h => ?_⟩
  calc s = s.readonlyFirst := (readonlyFirst_eq_self hs').symm
    _ = t.readonlyFirst := (text_eq_iff hs ht).mp h
    _ = t := readonlyFirst_eq_self ht'

/-- A text or `null`. -/
def textOrNull : Shape := union [primitive .string, null]

/-- Lists of lists of readonly pairs, which are not readonly themselves. -/
def openGrid : Shape :=
  array (array (tuple [primitive .number, array textOrNull true] true) false) false

/-- A readonly list of lists of pairs, which are not readonly. -/
def sealedGrid : Shape :=
  array (array (tuple [primitive .number, array textOrNull true] false) false) true

theorem isNormal_textOrNull : textOrNull.IsNormal := by
  refine ⟨by decide, by decide +kernel, ?_⟩
  simp only [List.forall_mem_cons]
  exact ⟨⟨nofun, nofun, nofun, id⟩, ⟨nofun, nofun, nofun, id⟩, nofun⟩

theorem text_tells_plain_grids :
    openGrid.Plain ∧ sealedGrid.Plain ∧ openGrid.text = sealedGrid.text ∧
    sealedGrid.Throughout GuardsItems ∧ ¬ openGrid.Throughout GuardsItems := by
  have hpart : (union [primitive .string, null]).IsNormal := isNormal_textOrNull
  have hplain : ∀ b₁ b₂ b₃,
      (array (array (tuple [primitive .number, array textOrNull true] b₁) b₂) b₃).Plain := by
    simp [Plain, textOrNull, throughout_array_iff, throughout_tuple_iff, throughout_union_iff,
      throughout_primitive_iff, IsPlainPart, hpart]
  have hopen : openGrid.Plain := hplain true false false
  have hsealed : sealedGrid.Plain := hplain false false true
  have htext : openGrid.text = sealedGrid.text :=
    (text_tells_plain hopen hsealed).1.mpr (by decide +kernel)
  have hguards : sealedGrid.Throughout GuardsItems := by
    simp [sealedGrid, textOrNull, throughout_array_iff, throughout_tuple_iff,
      throughout_union_iff, throughout_primitive_iff, GuardsItems, IsReadonly]
  refine ⟨hopen, hsealed, htext, hguards, fun h => ?_⟩
  exact absurd ((text_tells_plain hopen hsealed).2 h hguards htext) (by decide +kernel)

end Shape

/-! ### Printed types -/

theorem Catalog.ofSchema_of_valid {schema : Schema} (hvalid : schema.Valid) :
    Catalog.ofSchema schema = .ok ⟨schema, hvalid⟩ := by
  unfold Catalog.ofSchema
  split
  · rfl
  · next e he => exact nomatch hvalid.symm.trans he

namespace CommandLine

open Shape

/-- The type that is printed for a path of a schema is the text of the shape there. -/
theorem stdout_type {read : Reader} {source : Source} {text path : String} {schema : Schema}
    {marks : AbsenceMarks} {s : Shape} {pretty : Bool} (hread : read source = .ok text)
    (hschema : Schema.ofText text = .ok schema) (hvalid : schema.Valid)
    (hs : schema.valueType marks path = .ok s) :
    (Invocation.run ⟨.type source path marks false, pretty⟩ read).stdout = s.text ++ "\n" := by
  have hcatalog : readCatalog read source = .ok ⟨schema, hvalid⟩ := by
    simp only [readCatalog, readSource, hread, hschema, Catalog.ofSchema_of_valid hvalid, bind,
      Except.bind]
  have hrun : runType read pretty source path marks false = .ok (.line s.text) := by
    simp only [runType, hcatalog, Catalog.valueType, hs, attempt, Except.mapError, bind,
      Except.bind]
    rfl
  show (Outcome.ofExcept (runType read pretty source path marks false)).stdout = _
  rw [hrun]
  rfl

/-- A list of readonly lists of texts. -/
def rows : Shape := array (array (primitive .string) true) false

/-- A readonly list of lists of texts. -/
def table : Shape := array (array (primitive .string) false) true

/-- Both of them, under their names. -/
def lists : Schema where
  root := .struct [{ name := "rows", shape := rows }, { name := "table", shape := table }] none

/-- The two are printed alike, though only one of them is readonly. -/
theorem text_rows_eq_text_table :
    rows.Plain ∧ table.Plain ∧ ¬ rows.IsReadonly ∧ table.IsReadonly ∧
    rows.text = "readonly string[][]" ∧ table.text = "readonly string[][]" ∧
    ∃ printed : String → String,
      (∀ path, printed path = (Invocation.run ⟨.type .standardInput path .reading false, false⟩
        fun _ => .ok lists.toJsonText).stdout) ∧
      printed "rows" = "readonly string[][]\n" ∧ printed "table" = "readonly string[][]\n" := by
  have hvalid : lists.Valid := by decide +kernel
  have hdoubles : ∀ d ∈ lists.document.doubles, d.ReadsBack := by decide +kernel
  have hschema : Schema.ofText lists.toJsonText = .ok lists :=
    Schema.ofText_of_lexes (Json.lexes_textAs hdoubles false) (by decide +kernel) hvalid
  have hrows : lists.valueType .reading "rows" = .ok rows := by decide +kernel
  have htable : lists.valueType .reading "table" = .ok table := by decide +kernel
  have hplain : ∀ b b', (array (array (primitive .string) b) b').Plain := by
    simp [Plain, throughout_array_iff, throughout_primitive_iff, IsPlainPart]
  exact ⟨hplain _ _, hplain _ _, id, trivial, by decide, by decide, _, fun _ => rfl,
    stdout_type rfl hschema hvalid hrows, stdout_type rfl hschema hvalid htable⟩

end CommandLine

end TypedPaths
