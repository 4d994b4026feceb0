/-
TypedPaths/Proofs/Remembering.lean

A session answers as if it remembered nothing.

Design.  Remembered listings are right if each is the one that the catalog makes for its options
(`Session.Right`).  `Session.Gives` says of an action what it gives in every session whose listings
are right, as a function of the catalog and the data, and that it keeps the listings right and the
rest as it is.  It is proved once for the listing of the root, the one action that remembers
anything, and goes on from there to the actions put together from others.

A session without listings is right, so by induction over its calls all of its replies are those of
`Catalog.answers`, which has no memory but the data.

Main results: `Session.gives_paths`, `Session.step_of_right`, `Session.run_of_right`,
`Session.run_replies`.
-/
import TypedPaths.Session
import TypedPaths.Proofs.Checking
import TypedPaths.Proofs.Writing

namespace TypedPaths

/-! ### Answers without a memory -/

/-- The reply to a call that gives `result`. -/
def Reply.of {α : Type} (reply : α → Reply) : Except Error α → Reply
  | .ok a => reply a
  | .error e => failed e

namespace Catalog

/-- The reply to a call, and the data after it, from the schema and the data alone. -/
def answer (catalog : Catalog) (data : Json) : Call → Reply × Json
  | .paths options => (.of .patterns (catalog.schema.paths options), data)
  | .completions offset options =>
    (.of .patterns (catalog.schema.completions offset options), data)
  | .check path options => (.of (fun _ => .allowed) (catalog.check path options), data)
  | .checkWritable path options =>
    (.of (fun _ => .allowed) (catalog.checkWritable path options), data)
  | .valueType path marks => (.of .shape (catalog.schema.valueType marks path), data)
  | .get path options => (.of .found (catalog.get data path options), data)
  | .set path value options =>
    match catalog.set data path value options with
    | .ok written => (.allowed, written)
    | .error e => (.failed e, data)

/-- The replies to calls one after another, and the data after them. -/
def answers (catalog : Catalog) (data : Json) : List Call → List Reply × Json
  | [] => ([], data)
  | call :: calls =>
    let (reply, data) := catalog.answer data call
    let (replies, data) := catalog.answers data calls
    (reply :: replies, data)

variable {catalog : Catalog} {data written value : Json} {path : String} {options : ListingOptions}

/-- A call that fails leaves the data as they are. -/
theorem answer_of_failed {call : Call} {e : Error} (h : (catalog.answer data call).1 = .failed e) :
    (catalog.answer data call).2 = data := by
  cases call with
  | set path value options =>
    rw [answer] at h ⊢
    cases hset : catalog.set data path value options with
    | ok written => rw [hset] at h; cases h
    | error e => rfl
  | _ => rfl

/-- A path that can be assigned to is one that the schema allows. -/
theorem check_of_checkWritable (h : catalog.checkWritable path options = .ok ()) :
    catalog.check path options = .ok () := by
  by_cases hpath : path = ""
  · subst hpath
    cases h
  · rw [checkWritable_eq hpath] at h
    cases hcheck : catalog.check path options with
    | ok _ => rfl
    | error e => rw [hcheck] at h; cases h

/-- What has been written is read back. -/
theorem get_of_set (h : catalog.set data path value options = .ok written) :
    catalog.get written path options = .ok (some value) := by
  obtain ⟨hcheck, hset⟩ := set_eq_ok_iff.mp h
  exact get_eq_ok_iff.mpr ⟨check_of_checkWritable hcheck, Json.get?_of_set hset⟩

end Catalog

namespace Session

variable {α β : Type} {s : Session} {call : Call}

/-! ### Actions -/

/-- Every listing that is remembered is the one that the catalog makes for its options. -/
def Right (s : Session) : Prop := ∀ l ∈ s.listings, s.catalog.paths l.1 = .ok l.2

/-- In a session whose listings are right the action gives `result`; it keeps the listings right, and
catalog and data as they are. -/
def Gives (action : Action α) (result : Catalog → Json → Except Error α) : Prop :=
  ∀ s : Session, s.Right → ∃ t : Session, action.run.run s = (result s.catalog s.data, t) ∧
    t.Right ∧ t.catalog = s.catalog ∧ t.data = s.data

/-- An action goes on in the session that the one before it has left, unless that has failed. -/
theorem run_bind (action : Action α) (next : α → Action β) (s : Session) :
    (action >>= next).run.run s =
      match action.run.run s with
      | (.ok a, t) => (next a).run.run t
      | (.error e, t) => (.error e, t) := by
  show (ExceptT.bindCont next (action.run.run s).1) (action.run.run s).2 = _
  rcases action.run.run s with ⟨_ | _, t⟩ <;> rfl

/-- Asking the catalog leaves the session as it is. -/
theorem run_ofCatalog (result : Catalog → Except Error α) (s : Session) :
    (ofCatalog result).run.run s = (result s.catalog, s) := by
  show (liftM (result s.catalog) : Action α).run.run s = (result s.catalog, s)
  cases result s.catalog <;> rfl

theorem gives_ofCatalog (result : Catalog → Except Error α) :
    Gives (ofCatalog result) fun catalog _ => result catalog :=
  fun s hs => ⟨s, run_ofCatalog result s, hs, rfl, rfl⟩

theorem gives_pure (a : α) : Gives (pure a) fun _ _ => .ok a :=
  fun s hs => ⟨s, rfl, hs, rfl, rfl⟩

theorem gives_throw (e : Error) : Gives (throw e : Action α) fun _ _ => .error e :=
  fun s hs => ⟨s, rfl, hs, rfl, rfl⟩

theorem Gives.congr {action : Action α} {result result' : Catalog → Json → Except Error α}
    (h : Gives action result) (heq : ∀ catalog data, result catalog data = result' catalog data) :
    Gives action result' := by
  intro s hs
  rw [← heq]
  exact h s hs

/-- Two actions one after the other give what their results give one after the other. -/
theorem Gives.bind {action : Action α} {next : α → Action β}
    {result : Catalog → Json → Except Error α} {results : α → Catalog → Json → Except Error β}
    (h : Gives action result) (hnext : ∀ a, Gives (next a) (results a)) :
    Gives (action >>= next) fun catalog data =>
      result catalog data >>= fun a => results a catalog data := by
  intro s hs
  obtain ⟨t, hrun, ht, hcatalog, hdata⟩ := h s hs
  rw [run_bind, hrun]
  dsimp only
  cases result s.catalog s.data with
  | error e => exact ⟨t, rfl, ht, hcatalog, hdata⟩
  | ok a =>
    obtain ⟨u, hrun, hu, hcatalog', hdata'⟩ := hnext a t ht
    rw [hcatalog, hdata] at hrun
    exact ⟨u, hrun, hu, hcatalog'.trans hcatalog, hdata'.trans hdata⟩

/-! ### The listing of the root -/

theorem Right.listing? (hs : s.Right) {options : ListingOptions} {set : PatternSet}
    (h : s.listing? options = some set) : s.catalog.paths options = .ok set := by
  obtain ⟨l, hfind, rfl⟩ := Option.map_eq_some_iff.mp h
  have hoptions : l.1 = options := by simpa using List.find?_some hfind
  rw [← hoptions]
  exact hs l (List.mem_of_find?_eq_some hfind)

theorem Right.remember (hs : s.Right) {options : ListingOptions} {set : PatternSet}
    (h : s.catalog.paths options = .ok set) : (s.remember options set).Right := by
  intro l hl
  rcases List.mem_cons.mp hl with rfl | hl
  · exact h
  · exact hs l hl

/-- A listing is remembered, or it is made and then remembered. -/
theorem run_paths (options : ListingOptions) (s : Session) :
    (paths options).run.run s =
      match s.listing? options with
      | some set => (.ok set, s)
      | none =>
        match s.catalog.paths options with
        | .ok set => (.ok set, s.remember options set)
        | .error e => (.error e, s) := by
  unfold paths
  rw [run_bind]
  show ((match s.listing? options with
    | some set => pure set
    | none => _ : Action PatternSet)).run.run s = _
  cases s.listing? options with
  | some set => rfl
  | none =>
    dsimp only
    rw [run_bind, run_ofCatalog]
    cases s.catalog.paths options <;> rfl

/-- The listing of the root is the one that the catalog makes, whether it is remembered or not. -/
theorem gives_paths (options : ListingOptions) :
    Gives (paths options) fun catalog _ => catalog.paths options := by
  intro s hs
  rw [run_paths]
  dsimp only
  cases hlisting : s.listing? options with
  | some set => exact ⟨s, by rw [hs.listing? hlisting], hs, rfl, rfl⟩
  | none =>
    cases hpaths : s.catalog.paths options with
    | error e => exact ⟨s, rfl, hs, rfl, rfl⟩
    | ok set => exact ⟨s.remember options set, rfl, hs.remember hpaths, rfl, rfl⟩

/-! ### Checks -/

theorem gives_completions (offset : String) (options : ListingOptions) :
    Gives (completions offset options) fun catalog _ => catalog.completions offset options := by
  unfold completions Catalog.completions Catalog.completionsWith
  split
  · exact gives_paths options
  · exact gives_ofCatalog (·.schema.completions offset options)

theorem gives_checkListed (path : String) (options : ListingOptions) (failure : Error) :
    Gives (checkListed path options failure) fun catalog _ =>
      catalog.completions path options >>= fun set =>
        if set.contains path then .ok () else .error failure := by
  refine (gives_completions path options).bind fun set => ?_
  split
  · exact gives_pure ()
  · exact gives_throw failure

theorem gives_check (path : String) (options : ListingOptions) :
    Gives (check path options) fun catalog _ => catalog.check path options := by
  unfold check Catalog.check Catalog.checkWith
  dsimp only
  split
  · exact gives_pure ()
  · have hresolved := gives_ofCatalog fun catalog =>
      if (catalog.schema.resolveParent (Path.segments path).dropLast).isNone then
        Except.error (.invalidPath path)
      else .ok ()
    refine (hresolved.bind fun _ => gives_checkListed path options (.invalidPath path)).congr ?_
    intro catalog _
    -- a parent that leads nowhere refuses the path before anything is listed
    split <;> rfl

theorem gives_checkWritable (path : String) (options : ListingOptions) :
    Gives (checkWritable path options) fun catalog _ => catalog.checkWritable path options := by
  unfold checkWritable Catalog.checkWritable Catalog.checkWritableWith
  split
  · exact gives_throw .emptyPath
  · exact (gives_check path options).bind fun _ =>
      gives_checkListed path options.writable (.readonlyPath path)

/-! ### Reading and writing -/

theorem gives_read (path : String) (options : ListingOptions) :
    Gives (read path options) fun catalog data => catalog.get data path options := by
  have hdata : Gives (do return (← get).data.get? path) fun _ data => .ok (data.get? path) :=
    fun s hs => ⟨s, rfl, hs, rfl, rfl⟩
  refine ((gives_check path options).bind fun _ => hdata).congr ?_
  intro catalog data
  unfold Catalog.get
  cases catalog.check path options <;> rfl

/-- Putting a value changes the data, or nothing if it fails. -/
theorem run_put (path : String) (value : Json) (s : Session) :
    (put path value).run.run s =
      match s.data.set path value with
      | .ok data => (.ok (), { s with data })
      | .error e => (.error e, s) := by
  show ((liftM (s.data.set path value) : Action Json) >>= fun data =>
    modify fun s => { s with data }).run.run s = _
  rw [run_bind]
  cases s.data.set path value <;> rfl

/-- A write gives what a write through the catalog gives; one that succeeds leaves the data written,
and one that fails leaves them as they are. -/
theorem run_write (hs : s.Right) (path : String) (value : Json) (options : ListingOptions) :
    ∃ t : Session, t.Right ∧ t.catalog = s.catalog ∧ t.data = s.data ∧
      (write path value options).run.run s =
        match s.catalog.set s.data path value options with
        | .ok data => (.ok (), { t with data })
        | .error e => (.error e, t) := by
  obtain ⟨t, hrun, ht, hcatalog, hdata⟩ := gives_checkWritable path options s hs
  refine ⟨t, ht, hcatalog, hdata, ?_⟩
  unfold write Catalog.set
  rw [run_bind, hrun]
  dsimp only
  cases s.catalog.checkWritable path options with
  | error e => rfl
  | ok _ =>
    dsimp only [Except.bind]
    rw [run_put, hdata]

/-! ### Calls -/

/-- A call that is answered by such an action has the answer of catalog and data, and leaves the
listings right. -/
theorem Gives.step {action : Action α} {result : Catalog → Json → Except Error α}
    (h : Gives action result) (hs : s.Right) (reply : α → Reply)
    (hact : act call = action >>= fun a => pure (reply a)) :
    (s.step call).2 = .of reply (result s.catalog s.data) ∧ (s.step call).1.data = s.data ∧
      (s.step call).1.catalog = s.catalog ∧ (s.step call).1.Right := by
  obtain ⟨t, hrun, ht, hcatalog, hdata⟩ := h s hs
  unfold Session.step
  rw [hact, run_bind, hrun]
  cases result s.catalog s.data <;> exact ⟨rfl, hdata, hcatalog, ht⟩

/-- A call to a session whose listings are right is answered without a look at what is remembered, and
leaves right listings. -/
theorem step_of_right (hs : s.Right) (call : Call) :
    (s.step call).2 = (s.catalog.answer s.data call).1 ∧
      (s.step call).1.data = (s.catalog.answer s.data call).2 ∧
      (s.step call).1.catalog = s.catalog ∧ (s.step call).1.Right := by
  cases call with
  | paths options => exact (gives_paths options).step hs .patterns rfl
  | completions offset options =>
    have hgives := (gives_completions offset options).congr fun _ _ => Catalog.completions_eq
    exact hgives.step hs .patterns rfl
  | check path options => exact (gives_check path options).step hs (fun _ => .allowed) rfl
  | checkWritable path options =>
    exact (gives_checkWritable path options).step hs (fun _ => .allowed) rfl
  | valueType path marks => exact (gives_ofCatalog (·.valueType marks path)).step hs .shape rfl
  | get path options => exact (gives_read path options).step hs .found rfl
  | set path value options =>
    obtain ⟨t, ht, hcatalog, hdata, hrun⟩ := run_write hs path value options
    have hstep : s.step (.set path value options) =
        match s.catalog.set s.data path value options with
        | .ok data => ({ t with data }, .allowed)
        | .error e => (t, .failed e) := by
      unfold Session.step act
      rw [run_bind, hrun]
      cases s.catalog.set s.data path value options <;> rfl
    rw [hstep, Catalog.answer]
    cases s.catalog.set s.data path value options with
    | ok written => exact ⟨rfl, rfl, hcatalog, ht⟩
    | error e => exact ⟨rfl, hdata, hcatalog, ht⟩

/-- By induction on the calls, a session answers as catalog and data do. -/
theorem run_of_right (hs : s.Right) (calls : List Call) :
    (s.run calls).2 = (s.catalog.answers s.data calls).1 ∧
      (s.run calls).1.data = (s.catalog.answers s.data calls).2 ∧
      (s.run calls).1.catalog = s.catalog ∧ (s.run calls).1.Right := by
  induction calls generalizing s with
  | nil => exact ⟨rfl, rfl, rfl, hs⟩
  | cons call calls ih =>
    obtain ⟨hreply, hdata, hcatalog, hright⟩ := step_of_right hs call
    obtain ⟨hreplies, hlast, hcatalog', hright'⟩ := ih hright
    rw [hcatalog, hdata] at hreplies hlast
    refine ⟨?_, hlast, hcatalog'.trans hcatalog, hright'⟩
    show (s.step call).2 :: ((s.step call).1.run calls).2 = _
    rw [hreply, hreplies]
    rfl

/-- A new session remembers nothing that could be wrong. -/
theorem right_new (catalog : Catalog) (data : Json) : Right { catalog, data } := by
  intro l hl
  cases hl

theorem step_set_allowed (hs : s.Right) {path : String} {value : Json} {options : ListingOptions}
    (h : (s.step (.set path value options)).2 = .allowed) :
    s.catalog.set s.data path value options = .ok (s.step (.set path value options)).1.data := by
  obtain ⟨hreply, hdata, -⟩ := step_of_right hs (.set path value options)
  rw [hreply, Catalog.answer] at h
  rw [hdata, Catalog.answer]
  cases hset : s.catalog.set s.data path value options with
  | ok written => rfl
  | error e => rw [hset] at h; cases h

/-- A session that starts with nothing remembered gives to all calls, in whatever order, the replies
that the schema and the data at that time give, and ends with the same data.  A call that fails leaves
the data as they are and makes no difference to the calls behind it, and what has been written is what
the same path then reads. -/
theorem run_replies (catalog : Catalog) (data : Json) (calls : List Call) :
    (({ catalog, data } : Session).run calls).2 = (catalog.answers data calls).1 ∧
    (({ catalog, data } : Session).run calls).1.data = (catalog.answers data calls).2 ∧
    ∀ s : Session, s = (({ catalog, data } : Session).run calls).1 →
      (∀ call e, (s.step call).2 = .failed e →
        (s.step call).1.data = s.data ∧
          ∀ later, ((s.step call).1.run later).2 = (s.run later).2) ∧
      ∀ path value options, (s.step (.set path value options)).2 = .allowed →
        ((s.step (.set path value options)).1.step (.get path options)).2 = .found (some value) := by
  obtain ⟨hreplies, hlast, -, hright⟩ := run_of_right (right_new catalog data) calls
  refine ⟨hreplies, hlast, ?_⟩
  rintro s rfl
  refine ⟨?_, ?_⟩
  · intro call e hfailed
    obtain ⟨hreply, hdata, hcatalog, hright'⟩ := step_of_right hright call
    have hsame := Catalog.answer_of_failed (hreply.symm.trans hfailed)
    refine ⟨hdata.trans hsame, fun later => ?_⟩
    rw [(run_of_right hright' later).1, (run_of_right hright later).1, hcatalog, hdata, hsame]
  · intro path value options hallowed
    have hset := step_set_allowed hright hallowed
    obtain ⟨-, -, hcatalog, hright'⟩ := step_of_right hright (.set path value options)
    obtain ⟨hreply, -⟩ := step_of_right hright' (.get path options)
    rw [hreply, hcatalog, Catalog.answer, Catalog.get_of_set hset]
    rfl

/-- Objects with a name. -/
def named : Catalog where
  schema := { root := .struct [⟨"name", .primitive .string, false, false, false⟩] none }
  valid := by decide

/-- After a listing of no levels, which fails, a name is written and read back. -/
theorem run_replies_named :
    (({ catalog := named, data := .object [] } : Session).run [.paths { depth := 0 }]).2 =
      [.failed .invalidDepth] ∧
    ∀ s : Session,
      s = (({ catalog := named, data := .object [] } : Session).run [.paths { depth := 0 }]).1 →
      (s.step (.set "name" (.string "x") {})).2 = .allowed ∧
      ((s.step (.set "name" (.string "x") {})).1.step (.get "name" {})).2 =
        .found (some (.string "x")) := by
  obtain ⟨hreplies, -, hcalls⟩ := run_replies named (.object []) [.paths { depth := 0 }]
  refine ⟨hreplies.trans (by decide +kernel), ?_⟩
  rintro s rfl
  have hset : ((({ catalog := named, data := .object [] } : Session).run
      [.paths { depth := 0 }]).1.step (.set "name" (.string "x") {})).2 = .allowed := by
    decide +kernel
  exact ⟨hset, (hcalls _ rfl).2 "name" (.string "x") {} hset⟩

end Session

end TypedPaths
