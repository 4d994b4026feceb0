/-
TypedPaths/Proofs/Parsing.lean

Values read back from their texts.

Design.  The tokens of a value take the reader of trees from "a value must come" to "a value is
complete", with the tree of the value and whatever containers are still open around it
(`Tree.foldlM_tokens`).  The tree of a value denotes the value if enough containers may lie around
each other and nothing otherwise (`Tree.value?_ofJson`); how many there are is its depth
(`Json.depth`).  So the only values that are not read back from their texts are those that are too
deep.

Main results: `Tree.ofText?_of_lexes`, `Tree.value?_ofJson`, `Json.ofText?_of_lexes`.
-/
import TypedPaths.Json.Text.Tree
import TypedPaths.Proofs.Lexing

namespace TypedPaths

/-! ### Depth -/

namespace Json

mutual

/-- How many containers of a value lie around each other. -/
def depth : Json → Nat
  | array items => depthItems items + 1
  | object fields => depthFields fields + 1
  | _ => 0

/-- The greatest depth of the items. -/
def depthItems : List Json → Nat
  | [] => 0
  | v :: vs => max (depth v) (depthItems vs)

/-- The greatest depth of the values of entries. -/
def depthFields : List (String × Json) → Nat
  | [] => 0
  | (_, v) :: fs => max (depth v) (depthFields fs)

end

end Json

namespace Tree

/-! ### The tree of a value -/

mutual

/-- The tree of a value. -/
def ofJson : Json → Tree
  | .null => null
  | .bool b => bool b
  | .number n => number (some n)
  | .string s => string (some s)
  | .array items => array (ofItems items)
  | .object fields => object (ofFields fields)

/-- The trees of items. -/
def ofItems : List Json → List Tree
  | [] => []
  | v :: vs => ofJson v :: ofItems vs

/-- The trees of the values of entries. -/
def ofFields : List (String × Json) → List (Option String × Tree)
  | [] => []
  | (n, v) :: fs => (some n, ofJson v) :: ofFields fs

end

/-! ### From tokens to trees -/

theorem exists_tokensItems_eq (v : Json) (vs : List Json) :
    ∃ more, Json.tokensItems (v :: vs) = v.tokens ++ more := by
  cases vs with
  | nil => exact ⟨[], (List.append_nil _).symm⟩
  | cons w vs => exact ⟨.comma :: Json.tokensItems (w :: vs), rfl⟩

/-- A value does not begin with the end of an array. -/
theorem foldlM_firstItem (v : Json) (vs : List Json) (rest : List Token) (stack : List Frame) :
    (Json.tokensItems (v :: vs) ++ rest).foldlM step (.firstItem stack) =
      (Json.tokensItems (v :: vs) ++ rest).foldlM step (.value (.array [] :: stack)) := by
  obtain ⟨more, hmore⟩ := exists_tokensItems_eq v vs
  rw [hmore]
  cases v <;> rfl

/-- An entry does not begin with the end of an object. -/
theorem foldlM_firstName (f : String × Json) (fs : List (String × Json)) (rest : List Token)
    (stack : List Frame) :
    (Json.tokensFields (f :: fs) ++ rest).foldlM step (.firstName stack) =
      (Json.tokensFields (f :: fs) ++ rest).foldlM step (.name [] stack) := by
  cases fs <;> rfl

mutual

/-- The tokens of a value complete its tree. -/
theorem foldlM_tokens : ∀ (v : Json) (rest : List Token) (stack : List Frame),
    (v.tokens ++ rest).foldlM step (.value stack) = rest.foldlM step (complete (ofJson v) stack)
  | .null, _, _ => rfl
  | .bool _, _, _ => rfl
  | .number _, _, _ => rfl
  | .string _, _, _ => rfl
  | .array [], _, _ => rfl
  | .array (v :: vs), rest, stack => by
    have hitems := foldlM_tokensItems (v :: vs) (List.cons_ne_nil v vs) [] rest stack
    rw [← foldlM_firstItem] at hitems
    simpa [Json.tokens, List.foldlM_cons, step, begin, ofJson] using hitems
  | .object [], _, _ => rfl
  | .object (f :: fs), rest, stack => by
    have hfields := foldlM_tokensFields (f :: fs) (List.cons_ne_nil f fs) [] rest stack
    rw [← foldlM_firstName] at hfields
    simpa [Json.tokens, List.foldlM_cons, step, begin, ofJson] using hfields

/-- The tokens of items complete the array that is open. -/
theorem foldlM_tokensItems : ∀ items : List Json, items ≠ [] →
    ∀ (before : List Tree) (rest : List Token) (stack : List Frame),
    (Json.tokensItems items ++ Token.closeBracket :: rest).foldlM step
        (.value (.array before :: stack)) =
      rest.foldlM step (complete (array (before.reverse ++ ofItems items)) stack)
  | [], h, _, _, _ => absurd rfl h
  | [v], _, before, rest, stack => by
    have hv := foldlM_tokens v (.closeBracket :: rest) (.array before :: stack)
    rw [ofItems, ofItems, ← List.reverse_cons]
    exact hv
  | v :: w :: vs, _, before, rest, stack => by
    have hv := foldlM_tokens v (.comma :: (Json.tokensItems (w :: vs) ++ .closeBracket :: rest))
      (.array before :: stack)
    have hvs := foldlM_tokensItems (w :: vs) (List.cons_ne_nil w vs) (ofJson v :: before) rest stack
    rw [← List.cons_append, ← List.append_assoc] at hv
    rw [List.reverse_cons, List.append_assoc] at hvs
    exact hv.trans hvs

/-- The tokens of entries complete the object that is open. -/
theorem foldlM_tokensFields : ∀ fields : List (String × Json), fields ≠ [] →
    ∀ (before : List (Option String × Tree)) (rest : List Token) (stack : List Frame),
    (Json.tokensFields fields ++ Token.closeBrace :: rest).foldlM step (.name before stack) =
      rest.foldlM step (complete (object (before.reverse ++ ofFields fields)) stack)
  | [], h, _, _, _ => absurd rfl h
  | [(n, v)], _, before, rest, stack => by
    have hv := foldlM_tokens v (.closeBrace :: rest) (.object before (some n) :: stack)
    rw [ofFields, ofFields, ← List.reverse_cons]
    exact hv
  | (n, v) :: f :: fs, _, before, rest, stack => by
    have hv := foldlM_tokens v (.comma :: (Json.tokensFields (f :: fs) ++ .closeBrace :: rest))
      (.object before (some n) :: stack)
    have hfs := foldlM_tokensFields (f :: fs) (List.cons_ne_nil f fs)
      ((some n, ofJson v) :: before) rest stack
    rw [← List.cons_append, ← List.append_assoc] at hv
    rw [List.reverse_cons, List.append_assoc] at hfs
    exact hv.trans hfs

end

/-- The tokens of a value are put together to its tree. -/
theorem ofTokens?_tokens (v : Json) : ofTokens? v.tokens = some (ofJson v) := by
  have hv := foldlM_tokens v [] []
  rw [List.append_nil] at hv
  unfold ofTokens?
  rw [hv]
  rfl

/-- The text of a value, read, is the tree of the value. -/
theorem ofText?_of_lexes {text : String} {v : Json} (h : Lexer.Lexes text.toList v.tokens) :
    ofText? text = some (ofJson v) := by
  rw [ofText?, ofChars?, h.ofChars?, Option.bind_some, ofTokens?_tokens]

/-! ### From trees to values -/

mutual

/-- The tree of a value denotes the value, unless that is too deep. -/
theorem value?_ofJson : ∀ (v : Json) (depth : Nat),
    value? depth (ofJson v) = if v.depth ≤ depth then some v else none
  | .null, _ => rfl
  | .bool _, _ => rfl
  | .number _, _ => rfl
  | .string _, _ => rfl
  | .array _, 0 => rfl
  | .array items, depth + 1 => by
    rw [ofJson, value?, values?_ofItems items depth]
    simp only [Json.depth, Nat.add_le_add_iff_right]
    split <;> rfl
  | .object _, 0 => rfl
  | .object fields, depth + 1 => by
    rw [ofJson, value?, entries?_ofFields fields depth]
    simp only [Json.depth, Nat.add_le_add_iff_right]
    split <;> rfl

theorem values?_ofItems : ∀ (items : List Json) (depth : Nat),
    values? depth (ofItems items) = if Json.depthItems items ≤ depth then some items else none
  | [], _ => rfl
  | v :: vs, depth => by
    simp only [ofItems, values?, value?_ofJson v, values?_ofItems vs, Json.depthItems, Nat.max_le]
    by_cases hv : v.depth ≤ depth <;> by_cases hvs : Json.depthItems vs ≤ depth <;> simp [hv, hvs]

theorem entries?_ofFields : ∀ (fields : List (String × Json)) (depth : Nat),
    entries? depth (ofFields fields) =
      if Json.depthFields fields ≤ depth then some fields else none
  | [], _ => rfl
  | (n, v) :: fs, depth => by
    simp only [ofFields, entries?, value?_ofJson v, entries?_ofFields fs, Json.depthFields,
      Nat.max_le]
    by_cases hv : v.depth ≤ depth <;> by_cases hfs : Json.depthFields fs ≤ depth <;>
      simp [hv, hfs]

end

end Tree

/-! ### Values from their texts -/

namespace Json

variable {v : Json} {text : String}

/-- A text made of the tokens of a value is read as that value, unless that is too deep. -/
theorem ofTextAsWritten?_of_lexes (h : Lexer.Lexes text.toList v.tokens) :
    ofTextAsWritten? text = if v.depth ≤ maxDepth then some v else none := by
  rw [ofTextAsWritten?, Tree.ofText?_of_lexes h, Option.bind_some, Tree.value?_ofJson]

theorem ofText?_of_lexes (h : Lexer.Lexes text.toList v.tokens) (hv : v.Canonical) :
    ofText? text = if v.depth ≤ maxDepth then some v else none := by
  rw [ofText?, ofTextAsWritten?_of_lexes h]
  split
  · exact congrArg some hv
  · rfl

end Json

end TypedPaths
