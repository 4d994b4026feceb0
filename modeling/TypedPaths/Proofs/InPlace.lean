/-
TypedPaths/Proofs/InPlace.lean

Data files that are written in place.

Design.  The command that writes reads the data, puts the value at the path and gives the new text
of the file; the command that reads starts from that text (`Outcome.after`).  The text is read as
what was written if that is not too deep, and then the value is found at its path.  Writing has no
limit of depth and reading has one, so a value that is accepted may make the file unreadable: this
happens exactly if the segments of the path and the containers of the value are too many together.

All of this is said of outcomes that can be carried out.  The system may still refuse to write a
file; the program then ends with a failure that no outcome knows of.

Main results: `runSet_in_place_eq_ok_iff`, `get_after`, `get_after_set_in_place`.
-/
import TypedPaths.CommandLine.Run
import TypedPaths.Proofs.Nesting

namespace TypedPaths.CommandLine

variable {read : Reader} {input : Source} {path value name : String} {pretty indented : Bool}
  {outcome : Outcome} {data v written : Json}

/-- The texts of the sources once an outcome has been carried out, with its file written if it has
one. -/
def Outcome.after (outcome : Outcome) (read : Reader) : Reader := fun source =>
  match outcome.written with
  | some (name, text) => if source = .file name then .ok text else read source
  | none => read source

/-! ### Writing -/

/-- The value of an argument is one that is read, or a string. -/
theorem canonical_argumentValue (arg : String) : (argumentValue arg).Canonical := by
  unfold argumentValue
  cases h : Json.ofText? arg with
  | none => rfl
  | some v => exact Json.canonical_of_ofText? h

/-- The text of a value, as an argument, denotes the value. -/
theorem argumentValue_text (hcanonical : v.Canonical) (hdoubles : ∀ d ∈ v.doubles, d.ReadsBack)
    (hdepth : v.depth ≤ Json.maxDepth) : argumentValue v.text = v := by
  have hread := Json.ofText?_of_lexes (Json.lexes_textAs hdoubles false) hcanonical
  rw [if_pos hdepth] at hread
  exact congrArg (fun found => found.getD (.string v.text)) hread

theorem readData_of_readSource {text : String} (h : readSource read input = .ok text) :
    readData read input = (Json.ofText? text).elim
      (.error ⟨"Failed to parse " ++ Text.quoted input.name, [Error.jsonDetails]⟩) .ok := by
  unfold readData
  rw [h]
  cases hdata : Json.ofText? text <;> simp [hdata, bind, Except.bind]

theorem ofText?_of_readData (h : readData read input = .ok data) :
    ∃ text, Json.ofText? text = some data := by
  cases hsource : readSource read input with
  | error f => simp [readData, hsource, bind, Except.bind] at h
  | ok text =>
    rw [readData_of_readSource hsource] at h
    cases htext : Json.ofText? text with
    | none => rw [htext] at h; cases h
    | some v =>
      rw [htext] at h
      exact ⟨text, htext.trans (congrArg some (Except.ok.inj h))⟩

/-- What it takes for a file to be written in place without a schema. -/
theorem runSet_in_place_eq_ok_iff :
    runSet read pretty input path value none true = .ok outcome ↔
      ∃ name data written, input = .file name ∧ readData read input = .ok data ∧
        data.set path (argumentValue value) = .ok written ∧
        outcome = { written := some (name, written.textAs pretty ++ "\n") } := by
  cases input with
  | standardInput => simp [runSet, bind, Except.bind]
  | file name =>
    cases hdata : readData read (.file name) with
    | error f => simp [runSet, hdata, bind, Except.bind]
    | ok data =>
      cases hset : data.set path (argumentValue value) with
      | error e =>
        simp [runSet, hdata, readGuard, attempt, hset, bind, Except.bind, Except.mapError]
      | ok written =>
        simp [runSet, hdata, readGuard, attempt, hset, Source.name, bind, Except.bind,
          Except.mapError, eq_comm]

/-! ### Reading -/

/-- A file that has been written is read as what was written, unless that is too deep. -/
theorem readData_after (hcanonical : written.Canonical)
    (hdoubles : ∀ d ∈ written.doubles, d.ReadsBack)
    (houtcome : outcome.written = some (name, written.textAs pretty ++ "\n")) :
    readData (outcome.after read) (.file name) =
      if written.depth ≤ Json.maxDepth then .ok written
      else .error ⟨"Failed to parse " ++ Text.quoted name, [Error.jsonDetails]⟩ := by
  have hend : Lexer.Lexes ['\n'] [] := Lexer.lexes_nil.blank rfl
  have htext : Lexer.Lexes (written.textAs pretty ++ "\n").toList written.tokens := by
    have h := (Json.lexes_textAs hdoubles pretty).append hend rfl
    rw [List.append_nil] at h
    rw [String.toList_append]
    exact h
  have hread := Json.ofText?_of_lexes htext hcanonical
  have hsource : readSource (outcome.after read) (.file name) =
      .ok (written.textAs pretty ++ "\n") := by
    simp [readSource, Outcome.after, houtcome]
  rw [readData_of_readSource hsource, hread]
  split <;> rfl

/-- Reading from a file that has been written prints what was written at the path. -/
theorem get_after (hcanonical : written.Canonical) (hdoubles : ∀ d ∈ written.doubles, d.ReadsBack)
    (houtcome : outcome.written = some (name, written.textAs pretty ++ "\n"))
    (hv : written.get? path = some v) :
    Invocation.run ⟨.get (.file name) path none, indented⟩ (outcome.after read) =
      if written.depth ≤ Json.maxDepth then .line (v.textAs indented)
      else .fail ⟨"Failed to parse " ++ Text.quoted name, [Error.jsonDetails]⟩ := by
  have hread : readData (outcome.after read) (.file name) = _ :=
    readData_after hcanonical hdoubles houtcome
  show Outcome.ofExcept (runGet (outcome.after read) indented (.file name) path none) = _
  split
  · next hdepth =>
    rw [if_pos hdepth] at hread
    simp [runGet, hread, readGuard, hv, bind, Except.bind, Outcome.ofExcept]
  · next hdepth =>
    rw [if_neg hdepth] at hread
    simp [runGet, hread, bind, Except.bind, Outcome.ofExcept]

/-! ### Writing and reading -/

/-- Without a schema, the outcome of a command that is to write in place has a file to be written
only if it is no failure.  Then the value of the argument has been put at the path of the data in
the file, and once this has been carried out, reading at that path prints the value if the segments
of the path and the containers of the value are not too many together; otherwise the file cannot be
read any more. -/
theorem get_after_set_in_place
    (h : outcome = Invocation.run ⟨.set input path value none true, pretty⟩ read) :
    (outcome.code ≠ 0 → outcome.after read = read) ∧
    (outcome.code = 0 → ∃ name data written, input = .file name ∧
      readData read input = .ok data ∧ data.set path (argumentValue value) = .ok written ∧
      outcome = { written := some (name, written.textAs pretty ++ "\n") } ∧
      ((∀ d ∈ written.doubles, d.ReadsBack) → ∀ indented,
        Invocation.run ⟨.get input path none, indented⟩ (outcome.after read) =
          if (Path.segments path).length + (argumentValue value).depth ≤ Json.maxDepth then
            .line ((argumentValue value).textAs indented)
          else .fail ⟨"Failed to parse " ++ Text.quoted name, [Error.jsonDetails]⟩)) := by
  have hrun : outcome = .ofExcept (runSet read pretty input path value none true) := h
  cases hset : runSet read pretty input path value none true with
  | error f =>
    obtain rfl : outcome = .fail f := by rw [hrun, hset]; rfl
    exact ⟨fun _ => rfl, fun hcode => by cases hcode⟩
  | ok result =>
    obtain rfl : outcome = result := by rw [hrun, hset]; rfl
    obtain ⟨name, data, written, rfl, hdata, hwrite, houtcome⟩ :=
      runSet_in_place_eq_ok_iff.mp hset
    refine ⟨fun hcode => absurd ?_ hcode, fun _ =>
      ⟨name, data, written, rfl, hdata, hwrite, houtcome, fun hdoubles indented => ?_⟩⟩
    · rw [houtcome]
      rfl
    · obtain ⟨text, htext⟩ := ofText?_of_readData hdata
      have hcanonical : written.Canonical :=
        (Json.canonical_of_ofText? htext).update (canonical_argumentValue value) hwrite
      have hfits := Json.depth_le_iff_of_update hwrite (Json.depth_of_ofText? htext)
      rw [get_after hcanonical hdoubles (congrArg Outcome.written houtcome)
        (Json.get?_of_set hwrite)]
      exact if_congr hfits rfl rfl

/-- An item is put behind a number, by an argument that is no JSON text. -/
theorem get_after_set_in_place_item : ∃ outcome,
    outcome = Invocation.run ⟨.set (.file "f.json") "a.1" "two" none true, true⟩
      (fun _ => .ok "\x7b\"a\":[-0.0]\x7d") ∧
    outcome.code = 0 ∧
    Invocation.run ⟨.get (.file "f.json") "a.1" none, false⟩
      (outcome.after fun _ => .ok "\x7b\"a\":[-0.0]\x7d") = .line "\"two\"" := by
  have hcode : (Invocation.run ⟨.set (.file "f.json") "a.1" "two" none true, true⟩
      fun _ => .ok "\x7b\"a\":[-0.0]\x7d").code = 0 := by decide +kernel
  refine ⟨_, rfl, hcode, ?_⟩
  obtain ⟨name, data, written, -, hdata, hwrite, -, hget⟩ := (get_after_set_in_place rfl).2 hcode
  have hread : readData (fun _ => .ok "\x7b\"a\":[-0.0]\x7d") (.file "f.json") =
      .ok (.object [("a", .array [.number (.double ⟨true, 0⟩)])]) := by
    decide +kernel
  obtain rfl := Except.ok.inj (hdata.symm.trans hread)
  have hvalue : argumentValue "two" = .string "two" := by decide +kernel
  rw [hvalue] at hwrite
  obtain rfl := (Except.ok.inj hwrite).symm
  have hfits : (Path.segments "a.1").length + (argumentValue "two").depth ≤ Json.maxDepth := by
    rw [hvalue]
    decide
  rw [hget (by decide +kernel) false, if_pos hfits, hvalue]
  decide +kernel

end TypedPaths.CommandLine

namespace TypedPaths

namespace Json

/-- Arrays around each other, the innermost empty. -/
def nested : Nat → Json
  | 0 => array []
  | n + 1 => array [nested n]

theorem depth_nested (n : Nat) : (nested n).depth = n + 1 := by
  induction n with
  | zero => rfl
  | succ n ih => simp [nested, depth, depthItems, ih]

theorem doubles_nested (n : Nat) : (nested n).doubles = [] := by
  induction n with
  | zero => rfl
  | succ n ih => simp [nested, doubles, doublesItems, ih]

theorem canonical_nested (n : Nat) : (nested n).Canonical := by
  induction n with
  | zero => rfl
  | succ n ih => exact canonical_array_iff.mpr (by simpa using ih)

end Json

namespace CommandLine

open Json

/-- A value as deep as reading accepts is put below a name.  The command succeeds, and its file can
not be read any more. -/
theorem set_in_place_unreadable : ∃ outcome,
    outcome = Invocation.run ⟨.set (.file "f.json") "a" (nested 126).text none true, false⟩
      (fun _ => .ok "\x7b\"a\":0\x7d") ∧
    outcome.code = 0 ∧ argumentValue (nested 126).text = nested 126 ∧
    (Invocation.run ⟨.get (.file "f.json") "a" none, false⟩
      (outcome.after fun _ => .ok "\x7b\"a\":0\x7d")).code = 1 := by
  have hdoubles : ∀ d ∈ (nested 126).doubles, d.ReadsBack := by simp [doubles_nested]
  have hvalue : argumentValue (nested 126).text = nested 126 :=
    argumentValue_text (canonical_nested 126) hdoubles (by rw [depth_nested]; decide)
  have hdata : readData (fun _ => .ok "\x7b\"a\":0\x7d") (.file "f.json") =
      .ok (.object [("a", .number (.integer ⟨0, by decide, by decide⟩))]) := by
    decide +kernel
  have hset : runSet (fun _ => .ok "\x7b\"a\":0\x7d") false (.file "f.json") "a"
      (nested 126).text none true =
      .ok { written := some ("f.json", (object [("a", nested 126)]).textAs false ++ "\n") } := by
    refine runSet_in_place_eq_ok_iff.mpr ⟨_, _, _, rfl, hdata, ?_, rfl⟩
    rw [hvalue]
    rfl
  have hcanonical : (object [("a", nested 126)]).Canonical :=
    canonical_object_iff.mpr ⟨by decide, by simp [canonical_nested]⟩
  have hwritten : ∀ d ∈ (object [("a", nested 126)]).doubles, d.ReadsBack := by
    simpa [doubles, doublesFields] using hdoubles
  have hdeep : ¬ (object [("a", nested 126)]).depth ≤ Json.maxDepth := by
    simp [depth, depthFields, depth_nested, Json.maxDepth]
  refine ⟨_, (congrArg Outcome.ofExcept hset).symm, rfl, hvalue, ?_⟩
  rw [Outcome.ofExcept, get_after hcanonical hwritten rfl rfl, if_neg hdeep]
  rfl

end CommandLine

end TypedPaths
