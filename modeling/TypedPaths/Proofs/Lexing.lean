/-
TypedPaths/Proofs/Lexing.lean

The tokens of the text of a value.

Design.  A text is made of tokens if the machine, started between tokens, gives just these, whatever
it has read before (`Lexer.Lexes`).  A numeral is the one token that does not show its own end: the
machine may stand inside one when the text is over.  So what counts is where it stands once that
numeral is complete (`Lexer.settle?`), and one text may follow another if it does not begin with a
character that would continue a numeral (`Lexes.append`).

The compact and the indented text of a value are both made of the tokens of the value
(`Json.tokens`): they differ in blanks.

Main results: `Lexer.lexes_quote`, `Json.lexes_chars`, `Json.lexes_prettyChars`.
-/
import TypedPaths.Json.Text.Printer
import TypedPaths.Proofs.Numeral

namespace TypedPaths

namespace Lexer

variable {text more read : List Char} {tokens others before : List Token} {c : Char}

/-! ### Texts made of tokens -/

/-- Where the machine stands once a numeral that it may be inside of is complete. -/
def settle? (s : State) : Option State :=
  match s.mode with
  | .between => some s
  | .numeral read =>
    (Numeral.ofChars? read.reverse).map fun n => ⟨.between, .number n.value? :: s.tokens⟩
  | _ => none

/-- The text is made of the tokens. -/
def Lexes (text : List Char) (tokens : List Token) : Prop :=
  ∀ before, ∃ s, run ⟨.between, before⟩ text = some s ∧
    settle? s = some ⟨.between, tokens.reverse ++ before⟩

theorem run_cons (s : State) (c : Char) (text : List Char) :
    run s (c :: text) = (step s c).bind fun t => run t text :=
  List.foldlM_cons ..

/-- A character that does not continue a numeral completes it. -/
theorem step_of_settle? {s t : State} (h : settle? s = some t) (hc : isNumeral c = false) :
    step s c = step t c := by
  obtain ⟨mode, before⟩ := s
  cases mode with
  | between => rw [Option.some.inj h]
  | numeral read =>
    obtain ⟨n, hn, rfl⟩ := Option.map_eq_some_iff.mp h
    simp [step, hc, hn]
  | _ => cases h

theorem finish_of_settle? {s t : State} (h : settle? s = some t) :
    finish s = some t.tokens.reverse := by
  obtain ⟨mode, before⟩ := s
  cases mode with
  | between => rw [← Option.some.inj h]; rfl
  | numeral read =>
    obtain ⟨n, hn, rfl⟩ := Option.map_eq_some_iff.mp h
    simp [finish, hn]
  | _ => cases h

theorem lexes_nil : Lexes [] [] := fun before => ⟨⟨.between, before⟩, rfl, rfl⟩

/-- Two texts one after the other, where the second does not continue a numeral. -/
theorem Lexes.append (h : Lexes text tokens) (hmore : Lexes more others)
    (hhead : more.head?.all (fun c => !isNumeral c) = true) :
    Lexes (text ++ more) (tokens ++ others) := by
  intro before
  obtain ⟨s, hrun, hsettle⟩ := h before
  obtain ⟨t, hmore, htokens⟩ := hmore (tokens.reverse ++ before)
  rw [run_append, hrun, Option.bind_some, List.reverse_append, List.append_assoc]
  cases more with
  | nil =>
    obtain rfl := Option.some.inj hmore
    exact ⟨s, rfl, hsettle.trans htokens⟩
  | cons c more =>
    have hc : isNumeral c = false := by simpa using hhead
    rw [run_cons] at hmore ⊢
    rw [step_of_settle? hsettle hc]
    exact ⟨t, hmore, htokens⟩

/-- A character that is a token of its own. -/
theorem Lexes.mark {token : Token} (h : Lexes text tokens)
    (hc : ∀ before, start before c = some ⟨.between, token :: before⟩) :
    Lexes (c :: text) (token :: tokens) := by
  intro before
  obtain ⟨s, hrun, hsettle⟩ := h (token :: before)
  refine ⟨s, ?_, by simpa using hsettle⟩
  rw [run_cons, step, hc before, Option.bind_some, hrun]

theorem Lexes.blank (h : Lexes text tokens) (hc : isBlank c = true) : Lexes (c :: text) tokens := by
  intro before
  obtain ⟨s, hrun, hsettle⟩ := h before
  have hstart : start before c = some ⟨.between, before⟩ := by
    simp only [isBlank, Bool.or_eq_true, beq_iff_eq] at hc
    rcases hc with ((rfl | rfl) | rfl) | rfl <;> rfl
  refine ⟨s, ?_, hsettle⟩
  rw [run_cons, step, hstart, Option.bind_some, hrun]

theorem Lexes.blanks {blanks : List Char} (h : Lexes text tokens)
    (hblanks : ∀ c ∈ blanks, isBlank c = true) : Lexes (blanks ++ text) tokens := by
  induction blanks with
  | nil => exact h
  | cons c blanks ih =>
    rw [List.forall_mem_cons] at hblanks
    exact (ih hblanks.2).blank hblanks.1

theorem Lexes.ofChars? (h : Lexes text tokens) : Token.ofChars? text = some tokens := by
  obtain ⟨s, hrun, hsettle⟩ := h []
  unfold Token.ofChars?
  rw [hrun, Option.bind_some, finish_of_settle? hsettle]
  simp

/-! ### Numerals -/

theorem start_of_numeral (hc : c.isDigit = true ∨ c = '-') :
    start before c = some ⟨.numeral [c], before⟩ := by
  unfold start
  split
  all_goals try exact absurd hc (by decide)
  next =>
    have hblank : isBlank c = false := by
      rcases hc with hc | rfl
      · simp only [isBlank, Bool.or_eq_false_iff, beq_eq_false_iff_ne]
        refine ⟨⟨⟨?_, ?_⟩, ?_⟩, ?_⟩ <;> rintro rfl <;> cases hc
      · rfl
    rw [if_neg (by simp [hblank]), if_pos (by simpa using hc)]

/-- A numeral goes on over all characters that may stand in one. -/
theorem run_numeral (h : ∀ c ∈ text, isNumeral c = true) :
    run ⟨.numeral read, before⟩ text = some ⟨.numeral (text.reverse ++ read), before⟩ := by
  induction text generalizing read with
  | nil => rfl
  | cons c text ih =>
    rw [List.forall_mem_cons] at h
    rw [run_cons, step]
    dsimp only
    rw [if_pos h.1, Option.bind_some, ih h.2]
    simp

/-- The text of a number is a single token, if it can be read back. -/
theorem lexes_number {n : Number} (h : n.ReadsBack) : Lexes n.text.toList [.number (some n)] := by
  intro before
  obtain ⟨numeral, hchars, hvalue⟩ := Option.bind_eq_some_iff.mp h
  obtain ⟨⟨c, rest, htext, hc⟩, hall⟩ := Numeral.isNumeral_of_ofChars? hchars
  rw [htext, List.forall_mem_cons] at hall
  refine ⟨⟨.numeral n.text.toList.reverse, before⟩, ?_, ?_⟩
  · rw [htext, run_cons, step, start_of_numeral hc, Option.bind_some, run_numeral hall.2]
    simp
  · unfold settle?
    dsimp only
    rw [List.reverse_reverse, hchars, Option.map_some, hvalue]
    rfl

/-! ### Strings -/

theorem hexValue?_hexDigit : ∀ n < 16, hexValue? (Json.hexDigit n) = some n := by decide

/-- The machine reads an escaped character back. -/
theorem run_escapeChar (read : List Nat) (before : List Token) (c : Char) :
    run ⟨.string read, before⟩ (Json.escapeChar c) = some ⟨.string (c.toNat :: read), before⟩ := by
  unfold Json.escapeChar
  split
  all_goals try rfl
  next hquote hbackslash _ _ _ _ _ =>
    split
    · next hcontrol =>
      -- the two digits of a control character put its number together again
      have hhigh := hexValue?_hexDigit (c.toNat / 16) (by omega)
      have hlow := hexValue?_hexDigit (c.toNat % 16) (by omega)
      have hzero : hexValue? '0' = some 0 := rfl
      have hvalue : c.toNat / 16 * 16 + c.toNat % 16 = c.toNat := by omega
      simp [step, hzero, hhigh, hlow, hvalue, run]
    · next hcontrol =>
      have hquote' : c ≠ '"' := hquote
      have hbackslash' : c ≠ '\\' := hbackslash
      simp [run, step, hquote', hbackslash', hcontrol]

/-- Inside a string, what has been escaped is read as it was. -/
theorem run_escapeChars (read : List Nat) (before : List Token) (cs : List Char) :
    run ⟨.string read, before⟩ (cs.flatMap Json.escapeChar) =
      some ⟨.string ((cs.map Char.toNat).reverse ++ read), before⟩ := by
  induction cs generalizing read with
  | nil => rfl
  | cons c cs ih =>
    rw [List.flatMap_cons, run_append, run_escapeChar, Option.bind_some, ih]
    simp

/-- No character is half of a surrogate pair, so each stands for itself. -/
theorem decode?_toNat (cs : List Char) : Surrogate.decode? (cs.map Char.toNat) = some cs := by
  have hnone : ∀ c : Char, Surrogate.isHigh c.toNat = false ∧ Surrogate.isLow c.toNat = false := by
    intro c
    have hvalid : c.toNat < 0xD800 ∨ 0xDFFF < c.toNat ∧ c.toNat < 0x110000 := c.valid
    constructor
    · simp only [Surrogate.isHigh, Bool.and_eq_false_iff, decide_eq_false_iff_not]
      omega
    · simp only [Surrogate.isLow, Bool.and_eq_false_iff, decide_eq_false_iff_not]
      omega
  induction cs with
  | nil => rfl
  | cons c cs ih =>
    cases cs with
    | nil => simp [Surrogate.decode?, hnone]
    | cons d cs =>
      rw [List.map_cons] at ih
      simp [Surrogate.decode?, hnone, ih]

/-- A quoted string is a single token. -/
theorem lexes_quote (s : String) : Lexes (Json.quote s) [.string (some s)] := by
  intro before
  have hend : step ⟨.string (s.toList.map Char.toNat).reverse, before⟩ '"' =
      some ⟨.between, .string (some s) :: before⟩ := by
    simp [step, decode?_toNat]
  refine ⟨⟨.between, .string (some s) :: before⟩, ?_, rfl⟩
  unfold Json.quote
  rw [List.cons_append, run_cons]
  show run ⟨.string [], before⟩ _ = _
  rw [run_append, run_escapeChars, List.append_nil, Option.bind_some, run_cons, hend]
  rfl

end Lexer

/-! ### The texts of a value -/

namespace Json

open Lexer

mutual

/-- The tokens of a value. -/
def tokens : Json → List Token
  | null => [.null]
  | bool b => [.bool b]
  | number n => [.number (some n)]
  | string s => [.string (some s)]
  | array items => .openBracket :: (tokensItems items ++ [.closeBracket])
  | object fields => .openBrace :: (tokensFields fields ++ [.closeBrace])

/-- The tokens of items with commas between them. -/
def tokensItems : List Json → List Token
  | [] => []
  | [v] => tokens v
  | v :: vs => tokens v ++ .comma :: tokensItems vs

/-- The tokens of entries with commas between them. -/
def tokensFields : List (String × Json) → List Token
  | [] => []
  | [(n, v)] => .string (some n) :: .colon :: tokens v
  | (n, v) :: fs => .string (some n) :: .colon :: (tokens v ++ .comma :: tokensFields fs)

end

mutual

/-- The binary64 numbers in a value. -/
def doubles : Json → List Double
  | number (.double d) => [d]
  | array items => doublesItems items
  | object fields => doublesFields fields
  | _ => []

/-- The binary64 numbers in items. -/
def doublesItems : List Json → List Double
  | [] => []
  | v :: vs => doubles v ++ doublesItems vs

/-- The binary64 numbers in entries. -/
def doublesFields : List (String × Json) → List Double
  | [] => []
  | (_, v) :: fs => doubles v ++ doublesFields fs

end

theorem readsBack_of_doubles {n : Number} (h : ∀ d ∈ (number n).doubles, d.ReadsBack) :
    n.ReadsBack := by
  cases n with
  | integer i => exact Number.readsBack_integer i
  | double d => exact h d (List.mem_singleton.mpr rfl)

/-- A name, a colon and what stands behind it. -/
theorem lexes_entry {name : String} {text : List Char} {tokens : List Token}
    (h : Lexes text tokens) :
    Lexes (quote name ++ ':' :: text) (.string (some name) :: .colon :: tokens) :=
  (lexes_quote name).append (h.mark fun _ => rfl) rfl

mutual

/-- The compact text of a value is made of its tokens. -/
theorem lexes_chars : ∀ v : Json, (∀ d ∈ v.doubles, d.ReadsBack) → Lexes v.chars v.tokens
  | null, _ => fun before => ⟨⟨.between, .null :: before⟩, rfl, rfl⟩
  | bool true, _ => fun before => ⟨⟨.between, .bool true :: before⟩, rfl, rfl⟩
  | bool false, _ => fun before => ⟨⟨.between, .bool false :: before⟩, rfl, rfl⟩
  | number n, h => lexes_number (readsBack_of_doubles h)
  | string s, _ => lexes_quote s
  | array items, h => by
    have hclose : Lexes [']'] [.closeBracket] := lexes_nil.mark fun _ => rfl
    have hitems := (lexes_charsItems items h).append hclose rfl
    exact hitems.mark fun _ => rfl
  | object fields, h => by
    have hclose : Lexes ['\x7d'] [.closeBrace] := lexes_nil.mark fun _ => rfl
    have hfields := (lexes_charsFields fields h).append hclose rfl
    exact hfields.mark fun _ => rfl

theorem lexes_charsItems : ∀ vs : List Json, (∀ d ∈ doublesItems vs, d.ReadsBack) →
    Lexes (charsItems vs) (tokensItems vs)
  | [], _ => lexes_nil
  | [v], h => lexes_chars v fun d hd => h d (List.mem_append_left _ hd)
  | v :: w :: vs, h => by
    have hv := lexes_chars v fun d hd => h d (List.mem_append_left _ hd)
    have hvs := lexes_charsItems (w :: vs) fun d hd => h d (List.mem_append_right _ hd)
    exact hv.append (hvs.mark fun _ => rfl) rfl

theorem lexes_charsFields : ∀ fs : List (String × Json), (∀ d ∈ doublesFields fs, d.ReadsBack) →
    Lexes (charsFields fs) (tokensFields fs)
  | [], _ => lexes_nil
  | [(n, v)], h => lexes_entry (lexes_chars v fun d hd => h d (List.mem_append_left _ hd))
  | (n, v) :: f :: fs, h => by
    have hv := lexes_chars v fun d hd => h d (List.mem_append_left _ hd)
    have hfs := lexes_charsFields (f :: fs) fun d hd => h d (List.mem_append_right _ hd)
    exact (lexes_entry hv).append (hfs.mark fun _ => rfl) rfl

end

/-! ### The indented text -/

theorem lexes_newLine {text : List Char} {tokens : List Token} (h : Lexes text tokens)
    (depth : Nat) : Lexes (newLine depth ++ text) tokens := by
  refine h.blanks ?_
  unfold newLine
  rw [List.forall_mem_cons]
  refine ⟨rfl, fun c hc => ?_⟩
  rw [List.eq_of_mem_replicate hc]
  rfl

/-- A comma and a new line between two texts. -/
theorem lexes_next {text more : List Char} {tokens others : List Token} (h : Lexes text tokens)
    (hmore : Lexes more others) (depth : Nat) :
    Lexes (text ++ ',' :: newLine depth ++ more) (tokens ++ .comma :: others) := by
  have hcomma : Lexes (',' :: (newLine depth ++ more)) (.comma :: others) :=
    (lexes_newLine hmore depth).mark fun _ => rfl
  simpa only [List.append_assoc, List.cons_append] using h.append hcomma rfl

/-- A container on several lines: its opening, what it holds and its end. -/
theorem lexes_lines {opening closing : Char} {text : List Char} {first last : Token}
    {tokens : List Token} (h : Lexes text tokens) (depth : Nat)
    (hopening : ∀ before, start before opening = some ⟨.between, first :: before⟩)
    (hclosing : ∀ before, start before closing = some ⟨.between, last :: before⟩) :
    Lexes (opening :: newLine (depth + 1) ++ text ++ newLine depth ++ [closing])
      (first :: (tokens ++ [last])) := by
  have hlast := lexes_newLine (lexes_nil.mark hclosing) depth
  have hinside := lexes_newLine (h.append hlast rfl) (depth + 1)
  simpa only [List.append_assoc, List.cons_append] using hinside.mark hopening

mutual

/-- The indented text of a value is made of its tokens. -/
theorem lexes_prettyChars (depth : Nat) : ∀ v : Json, (∀ d ∈ v.doubles, d.ReadsBack) →
    Lexes (v.prettyChars depth) v.tokens
  | null, _ => fun before => ⟨⟨.between, .null :: before⟩, rfl, rfl⟩
  | bool true, _ => fun before => ⟨⟨.between, .bool true :: before⟩, rfl, rfl⟩
  | bool false, _ => fun before => ⟨⟨.between, .bool false :: before⟩, rfl, rfl⟩
  | number _, h => lexes_number (readsBack_of_doubles h)
  | string s, _ => lexes_quote s
  | array [], _ => (lexes_nil.mark fun _ => rfl).mark fun _ => rfl
  | array (v :: vs), h =>
    lexes_lines (lexes_prettyItems (depth + 1) (v :: vs) h) depth (fun _ => rfl) fun _ => rfl
  | object [], _ => (lexes_nil.mark fun _ => rfl).mark fun _ => rfl
  | object (f :: fs), h =>
    lexes_lines (lexes_prettyFields (depth + 1) (f :: fs) h) depth (fun _ => rfl) fun _ => rfl

theorem lexes_prettyItems (depth : Nat) : ∀ vs : List Json,
    (∀ d ∈ doublesItems vs, d.ReadsBack) → Lexes (prettyItems depth vs) (tokensItems vs)
  | [], _ => lexes_nil
  | [v], h => lexes_prettyChars depth v fun d hd => h d (List.mem_append_left _ hd)
  | v :: w :: vs, h => by
    have hv := lexes_prettyChars depth v fun d hd => h d (List.mem_append_left _ hd)
    have hvs := lexes_prettyItems depth (w :: vs) fun d hd => h d (List.mem_append_right _ hd)
    exact lexes_next hv hvs depth

theorem lexes_prettyFields (depth : Nat) : ∀ fs : List (String × Json),
    (∀ d ∈ doublesFields fs, d.ReadsBack) → Lexes (prettyFields depth fs) (tokensFields fs)
  | [], _ => lexes_nil
  | [(n, v)], h => by
    have hv := lexes_prettyChars depth v fun d hd => h d (List.mem_append_left _ hd)
    exact lexes_entry (hv.blank rfl)
  | (n, v) :: f :: fs, h => by
    have hv := lexes_prettyChars depth v fun d hd => h d (List.mem_append_left _ hd)
    have hfs := lexes_prettyFields depth (f :: fs) fun d hd => h d (List.mem_append_right _ hd)
    exact lexes_next (lexes_entry (hv.blank rfl)) hfs depth

end

/-- Either text of a value is made of its tokens. -/
theorem lexes_textAs {v : Json} (h : ∀ d ∈ v.doubles, d.ReadsBack) (pretty : Bool) :
    Lexes (v.textAs pretty).toList v.tokens := by
  cases pretty with
  | false =>
    rw [textAs, if_neg Bool.false_ne_true, Json.text, String.toList_ofList]
    exact lexes_chars v h
  | true =>
    rw [textAs, if_pos rfl, Json.prettyText, String.toList_ofList]
    exact lexes_prettyChars 0 v h

end Json

end TypedPaths
