import CodeAtlas.Proofs.CompileCommands.Database

/-!
# Loading a database over another one

A load keeps the document that it read and takes over its entries one by one,
up to the first item that is none (`taken`). What is there already stays: of
the entries taken over for a file, by all loads so far, the last one counts
(`Loaded.command?_eq`). A load that fails halfway has already replaced the
document and some of the entries, and one that goes well leaves the entries of
files that its document does not name.
-/

namespace CodeAtlas.CompilationDatabase

open Run List

variable {session : Session} (l : List Json) (d : CompilationDatabase)

/-! ### Entries -/

/-- The path under which an entry is kept: that of its file, if it names one. -/
def keyOf? (entry : Json) : Option String :=
  match entry.getD "file" .null with
  | .str f => if f.isEmpty then none else some (Path.normalize f)
  | _ => none

/-- An item that can be taken over: an object whose file is a text or counts as none. -/
def isEntry (item : Json) : Bool :=
  match item with
  | .obj _ => !(item.getD "file" .null).truthy || (item.getD "file" .null).str?.isSome
  | _ => false

/-- The database with one entry taken over. -/
def put (d : CompilationDatabase) (entry : Json) : CompilationDatabase :=
  match keyOf? entry with
  | some key => { d with entries := Dict.set d.entries key entry }
  | none => d

/-- The last entry of a list for a file. -/
def named? (file : String) (l : List Json) : Option Json :=
  l.reverse.find? fun entry => keyOf? entry == some (Path.normalize file)

theorem addEntry_of_isEntry {entry : Json} (h : isEntry entry = true) :
    d.addEntry entry = .ok (d.put entry) := by
  cases entry with
  | obj fields =>
    rw [isEntry] at h
    rw [addEntry.eq_def, put, keyOf?]
    dsimp only at h ⊢
    cases hfile : (Json.obj fields).getD "file" .null with
    | str f => by_cases hf : f = "" <;> simp [Json.truthy, hf]
    | _ =>
      rw [hfile] at h
      simp_all [Json.str?]
  | _ => cases h

theorem addEntry_of_not_isEntry {entry : Json} (h : isEntry entry = false)
    : ∃ e, d.addEntry entry = .error e := by
  cases entry with
  | obj fields =>
    rw [isEntry] at h
    rw [addEntry.eq_def]
    dsimp only at h ⊢
    cases hfile : (Json.obj fields).getD "file" .null with
    | str f => simp [hfile, Json.str?] at h
    | _ =>
      rw [hfile] at h
      simp_all [Json.str?]
  | _ => exact ⟨_, rfl⟩

theorem addEntries_eq : d.addEntries l = ((l.takeWhile isEntry).foldl put d, l.all isEntry) := by
  induction l generalizing d with
  | nil => rfl
  | cons item l ih =>
    rw [addEntries]
    cases hitem : isEntry item with
    | true => simp [addEntry_of_isEntry _ hitem, ih, hitem]
    | false =>
      obtain ⟨e, he⟩ := addEntry_of_not_isEntry d hitem
      simp [he, hitem]

theorem named?_append (file : String) (l' : List Json) :
    named? file (l ++ l') = (named? file l').or (named? file l) := by
  rw [named?, reverse_append, find?_append]
  rfl

theorem foldl_put_eq :
    l.foldl put d = { d with
      entries := (l.filterMap fun entry => (keyOf? entry).map (·, entry)).foldl
        (fun entries w => Dict.set entries w.1 w.2) d.entries } := by
  induction l generalizing d with
  | nil => rfl
  | cons entry l ih =>
    rw [foldl_cons, ih, put]
    cases hkey : keyOf? entry with
    | none => rw [filterMap_cons_none (by rw [hkey]; rfl)]
    | some key => rw [filterMap_cons_some (by rw [hkey]; rfl), foldl_cons]

theorem commands_foldl_put : (l.foldl put d).commands = d.commands := by
  rw [foldl_put_eq]

theorem command?_foldl_put (file : String) :
    command? (l.foldl put d) file = (named? file l).or (d.command? file) := by
  induction l generalizing d with
  | nil => rfl
  | cons entry l ih =>
    have hput : command? (d.put entry) file = (named? file [entry]).or (d.command? file) := by
      rw [put, named?, reverse_singleton, find?_singleton]
      cases hkey : keyOf? entry with
      | none => rfl
      | some key =>
        rw [command?, Dict.get?_set]
        by_cases hfile : Path.normalize file = key
        · simp [hfile]
        · simp [hfile, Ne.symm hfile, command?]
    have hnamed := named?_append [entry] file l
    rw [singleton_append] at hnamed
    rw [foldl_cons, ih, hput, hnamed, Option.or_assoc]

theorem get?_filterMap_key (key : String) :
    Dict.get? (l.filterMap fun entry => (keyOf? entry).map (·, entry)) key =
      l.find? fun entry => keyOf? entry == some key := by
  induction l with
  | nil => rfl
  | cons entry l ih =>
    cases hkey : keyOf? entry with
    | none =>
      rw [filterMap_cons_none (by rw [hkey]; rfl), ih, find?_cons_of_neg (by simp [hkey])]
    | some k =>
      rw [filterMap_cons_some (by rw [hkey]; rfl), Dict.get?_cons, ih]
      by_cases hk : key = k
      · rw [if_pos hk, find?_cons_of_pos (by simp [hkey, hk])]
      · rw [if_neg hk, find?_cons_of_neg (by simp [hkey, Ne.symm hk])]

/-- Nothing changes if the last entry for each file is the one that the file has. -/
theorem foldl_put_eq_self_iff {l : List Json} {d : CompilationDatabase} :
    l.foldl put d = d ↔
      ∀ file entry, named? file l = some entry → d.command? file = some entry := by
  constructor
  · intro h file entry hentry
    rw [← h, command?_foldl_put, hentry, Option.some_or]
  · intro h
    rw [foldl_put_eq, Dict.foldl_set_eq_self]
    intro key entry hget
    rw [← filterMap_reverse, get?_filterMap_key] at hget
    have hkey : keyOf? entry = some key := by simpa using find?_some hget
    obtain ⟨file, rfl⟩ : ∃ file, key = Path.normalize file := by
      rw [keyOf?] at hkey
      split at hkey
      · split at hkey
        · cases hkey
        · exact ⟨_, (Option.some.inj hkey).symm⟩
      · cases hkey
    exact h file entry hget

/-! ### One load -/

/-- The document at a path, if there is one that can be read. -/
def documentAt? (session : Session) (path : String) : Option Json :=
  match session.tree.readText path with
  | .error _ => none
  | .ok text =>
    match Json.parse text with
    | .error _ => none
    | .ok j => some j

/-- The entries of a document that are taken over. -/
def taken (j : Json) : List Json := ((itemsOf j).getD []).takeWhile isEntry

/-- A document that is loaded without fault. -/
def isDatabase (j : Json) : Bool := (itemsOf j).any (·.all isEntry)

theorem documentAt?_eq_some_iff {path : String} {j : Json} :
    documentAt? session path = some j ↔
      ∃ text, session.tree.readText path = .ok text ∧ Json.parse text = .ok j := by
  unfold documentAt?
  cases session.tree.readText path with
  | error e => simp
  | ok text => cases hparse : Json.parse text <;> simp [hparse]

theorem run_readDocument_of_none {path : String} (h : documentAt? session path = none) :
    ∃ e, (CompileCommands.readDocument path).run.run session = (.error e, session) ∧
      ∀ n, e ≠ .exit n := by
  unfold CompileCommands.readDocument
  rw [run_tree_bind]
  cases htext : session.tree.readText path with
  | error e =>
    refine ⟨e, run_bind_of_error rfl, fun n hn => ?_⟩
    exact session.tree.goesOn_readText path n (hn ▸ htext)
  | ok text =>
    rw [run_bind_of_ok (run_lift_of_ok rfl session)]
    cases hparse : Json.parse text with
    | error e => exact ⟨_, rfl, fun n hn => by cases hn⟩
    | ok j => simp [documentAt?, htext, hparse] at h

theorem run_load (path : String) (session : Session) :
    (load d path).run.run session =
      (.ok (match documentAt? session path with
        | none => (d, false)
        | some j => ((taken j).foldl put { d with commands := j }, isDatabase j)), session) := by
  unfold load
  cases hdocument : documentAt? session path with
  | none =>
    obtain ⟨e, hrun, he⟩ := run_readDocument_of_none hdocument
    rw [run_bind_of_ok (run_attempt hrun (goesOn_error he))]
    rfl
  | some j =>
    obtain ⟨text, htext, hparse⟩ := documentAt?_eq_some_iff.1 hdocument
    rw [run_bind_of_ok (run_attempt (run_readDocument htext hparse) (goesOn_ok j))]
    dsimp only
    rw [taken, isDatabase]
    cases itemsOf j with
    | none => rfl
    | some l =>
      dsimp only
      rw [addEntries_eq]
      rfl

/-- A load that changes nothing had no document to read, or read the one it had, with no other entry
for any file. Else the document is replaced and the entries in front of the first fault are taken
over, whether the load goes well or not. -/
theorem load_keeps_iff (d : CompilationDatabase) (path : String) (session : Session) :
    ∃ d' loaded, (load d path).run.run session = (.ok (d', loaded), session) ∧
      (loaded = true ↔ ∃ j, documentAt? session path = some j ∧ isDatabase j = true) ∧
      (d' = d ↔ ∀ j, documentAt? session path = some j → j = d.commands ∧
        ∀ file entry, named? file (taken j) = some entry → d.command? file = some entry) ∧
      ∀ j, documentAt? session path = some j → d'.commands = j ∧
        ∀ file, d'.command? file = (named? file (taken j)).or (d.command? file) := by
  refine ⟨_, _, run_load d path session, ?_⟩
  cases documentAt? session path with
  | none => simp
  | some j =>
    have hcommands := commands_foldl_put (taken j) { d with commands := j }
    refine ⟨by simp, ?_, ?_⟩
    · simp only [Option.some.injEq, forall_eq']
      constructor
      · intro h
        have hsame : j = d.commands := hcommands.symm.trans (congrArg commands h)
        subst hsame
        exact ⟨rfl, foldl_put_eq_self_iff.1 h⟩
      · rintro ⟨rfl, h⟩
        exact foldl_put_eq_self_iff.2 h
    · rintro _ ⟨⟩
      exact ⟨hcommands, fun file => command?_foldl_put _ _ file⟩

/-! ### Loads in a row -/

/-- The databases that come of loads, each at some session and path. -/
inductive Loaded : List (Session × String) → CompilationDatabase → Prop where
  | new (path : Option String) : Loaded [] { path }
  | load {calls : List (Session × String)} {d d' : CompilationDatabase} {path : String}
      {session session' : Session} {loaded : Bool} (h : Loaded calls d)
      (hrun : (load d path).run.run session = (.ok (d', loaded), session')) :
      Loaded (calls ++ [(session, path)]) d'

/-- The entries that were taken over by some loads, in order. -/
def takenBy (calls : List (Session × String)) : List Json :=
  (calls.filterMap fun call => documentAt? call.1 call.2).flatMap taken

theorem Loaded.command?_eq {calls : List (Session × String)} {d : CompilationDatabase}
    (h : Loaded calls d) (file : String) : d.command? file = named? file (takenBy calls) := by
  induction h with
  | new path => rfl
  | @load calls d d' path session session' loaded h hrun ih =>
    rw [run_load] at hrun
    rw [takenBy, filterMap_append, flatMap_append, ← takenBy, named?_append, ← ih]
    cases hdocument : documentAt? session path with
    | none =>
      rw [hdocument] at hrun
      cases hrun
      simp [hdocument, named?]
    | some j =>
      rw [hdocument] at hrun
      cases hrun
      rw [command?_foldl_put]
      simp [hdocument]
      rfl

/-- After a load that went well a file has the last entry for it in the document, or else the last
one that an earlier load took over. -/
theorem command?_follows_document_iff {calls : List (Session × String)}
    {d d' : CompilationDatabase} {path : String} {session session' : Session}
    (h : Loaded calls d) (hrun : (load d path).run.run session = (.ok (d', true), session')) :
    ∃ l, documentAt? session path = some d'.commands ∧ itemsOf d'.commands = some l ∧
      ∀ file, d'.command? file = (named? file l).or (named? file (takenBy calls)) ∧
        (d'.command? file = named? file l ↔
          named? file l ≠ none ∨ named? file (takenBy calls) = none) := by
  rw [run_load] at hrun
  cases hdocument : documentAt? session path with
  | none =>
    rw [hdocument] at hrun
    cases hrun
  | some j =>
    rw [hdocument] at hrun
    obtain ⟨hresult, -⟩ := Prod.mk.inj hrun
    obtain ⟨rfl, hdatabase⟩ := Prod.mk.inj (Except.ok.inj hresult)
    obtain ⟨l, hl, hall⟩ := (Option.any_eq_true _ _).1 hdatabase
    have htaken : taken j = l := by
      rw [taken, hl, Option.getD_some, takeWhile_eq_self_iff.2 (all_eq_true.1 hall)]
    have hcommands := commands_foldl_put (taken j) { d with commands := j }
    refine ⟨l, by rw [hcommands], by rw [hcommands, hl], fun file => ?_⟩
    have hfile : command? ((taken j).foldl put { d with commands := j }) file =
        (named? file l).or (named? file (takenBy calls)) := by
      rw [command?_foldl_put, htaken, ← h.command?_eq file]
      rfl
    refine ⟨hfile, ?_⟩
    rw [hfile]
    cases named? file l <;> simp

/-! ### A database that is written anew -/

/-- A session with one file, which holds a document. -/
def sessionWith (j : Json) : Session where
  tree :=
    { root := "/w", dirs := ["/w"], files := [("/w/a", Text.encodeUtf8 (j.render ⟨true, none⟩))] }

theorem documentAt?_sessionWith {j : Json} (h : j.Textual) :
    documentAt? (sessionWith j) "a" = some j := by
  refine documentAt?_eq_some_iff.2 ⟨j.render ⟨true, none⟩, ?_, Json.parse_render_textual _ h⟩
  have hwrite : FileTree.writeText { root := "/w", dirs := ["/w"] } "a" (j.render ⟨true, none⟩) =
      .ok (sessionWith j).tree :=
    FileTree.writeText_of_reach (by decide) (p := "/w/a") (by decide) (by decide) _
  exact FileTree.readText_writeText hwrite (by decide) (by decide)
    (Json.spells_renderAt _ h 0).no_return

/-- The entry of a file `b`. -/
def entryOfB : Json := .obj [("file", .str "b")]

theorem textual_entryOfB : entryOfB.Textual := .obj (by decide) (by simpa using .str "b")

/-- A document with an entry and an item that is none. -/
def halfBad : Json := .arr [entryOfB, .str ""]

theorem documentAt?_halfBad : documentAt? (sessionWith halfBad) "a" = some halfBad :=
  documentAt?_sessionWith (.arr (by simpa using ⟨textual_entryOfB, .str ""⟩))

/-- A load that fails has replaced the document and taken over an entry. -/
theorem load_fails_halfway : ∃ d', (load {} "a").run.run (sessionWith halfBad) =
    (.ok (d', false), sessionWith halfBad) ∧ d'.commands = halfBad ∧
      d'.command? "b" = some entryOfB ∧ command? {} "b" = none := by
  refine ⟨(taken halfBad).foldl put { commands := halfBad }, ?_, commands_foldl_put _ _, rfl, rfl⟩
  rw [run_load, documentAt?_halfBad]
  rfl

theorem run_load_entryOfB :
    (load {} "a").run.run (sessionWith (.arr [entryOfB])) =
      (.ok (put { commands := .arr [entryOfB] } entryOfB, true),
        sessionWith (.arr [entryOfB])) := by
  rw [run_load, documentAt?_sessionWith (.arr (by simpa using textual_entryOfB))]
  rfl

theorem run_load_nothing :
    (load d "a").run.run (sessionWith (.arr [])) =
      (.ok ({ d with commands := .arr [] }, true), sessionWith (.arr [])) := by
  rw [run_load, documentAt?_sessionWith (.arr (by simp))]
  rfl

theorem command?_follows_document_iff_emptied :
    Loaded [(sessionWith (.arr [entryOfB]), "a")] (put { commands := .arr [entryOfB] } entryOfB) ∧
      ∃ l, documentAt? (sessionWith (.arr [])) "a" = some (.arr []) ∧
        itemsOf (.arr []) = some l ∧
        ∀ file, command? (put { commands := .arr [] } entryOfB) file =
            (named? file l).or (named? file (takenBy [(sessionWith (.arr [entryOfB]), "a")])) ∧
          (command? (put { commands := .arr [] } entryOfB) file = named? file l ↔
            named? file l ≠ none ∨
              named? file (takenBy [(sessionWith (.arr [entryOfB]), "a")]) = none) :=
  have hloaded := Loaded.load (.new none) run_load_entryOfB
  ⟨hloaded, command?_follows_document_iff hloaded (run_load_nothing _)⟩

/-- The entry of a file is still there when the database has been emptied and loaded again. -/
theorem command?_stays_behind : ∃ d d',
    (load {} "a").run.run (sessionWith (.arr [entryOfB])) =
        (.ok (d, true), sessionWith (.arr [entryOfB])) ∧
      (load d "a").run.run (sessionWith (.arr [])) = (.ok (d', true), sessionWith (.arr [])) ∧
      d'.commands = .arr [] ∧ named? "b" [] = none ∧ d'.command? "b" = some entryOfB :=
  ⟨_, _, run_load_entryOfB, run_load_nothing _, rfl, rfl, rfl⟩

end CodeAtlas.CompilationDatabase
