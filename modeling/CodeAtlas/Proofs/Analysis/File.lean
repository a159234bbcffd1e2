import CodeAtlas.Proofs.Analysis.Union
import CodeAtlas.Proofs.Extraction.Failures

/-!
# The graph of a file

`fileGraph` says what comes of the analysis of a file, and `answers_analyzeFile`
that it depends on nothing but the sources of the session. The only failure is
that there is no such file: whatever goes wrong with the tree of a file leaves
its graph empty, and `analyzeFile_empties_iff_stumbles` says for which trees this
happens. All entries of a graph stand under their names.
-/

namespace CodeAtlas.Analysis

open Run

variable {session : Session} {path : String}

def fileGraph (session : Session) (started : Bool) (path : String) : Except Fault CallGraph :=
  if session.tree.exists path || session.machine.known.contains path then
    if started then
      match session.trees.get? path with
      | some (.tree a) => .ok { functions := (Extraction.extract {} path a).toOption.getD [] }
      | _ => .ok {}
    else .ok {}
  else .error (.absent ("File " ++ path ++ " not found"))

theorem answers_parseFile_tree {a : Ast} (h : session.trees.get? path = some (.tree a))
    (args : List String) : Answers session (parseFile path args) (.ok (some a)) := by
  refine (answers_call _ _).bind (answers_get fun s hs => ?_)
  rw [hs.trees, h]
  exact answers_pure _

theorem answers_parseFile_fail {message : String}
    (h : session.trees.get? path = some (.fail message)) (args : List String) :
    Answers session (parseFile path args) (.error (.service message)) := by
  refine (answers_call _ _).bind (answers_get fun s hs => ?_)
  rw [hs.trees, h]
  exact answers_throw _

theorem answers_parseFile_none (h : session.trees.get? path = none) (args : List String) :
    Answers session (parseFile path args) (.ok none) := by
  refine (answers_call _ _).bind (answers_get fun s hs => ?_)
  rw [hs.trees, h]
  exact answers_pure _

theorem functionsOf_basic (path : String) (a : Ast) :
    functionsOf path {} a = Extraction.extract {} path a := by
  unfold functionsOf
  cases Extraction.extract {} path a <;> rfl

theorem goesOn_functionsOf (path : String) (options : AnalysisOptions) (a : Ast) :
    GoesOn (functionsOf path options a) :=
  goesOn_bind (Extraction.mends_extract path a options.extraction).goesOn fun _ => goesOn_ok _

theorem answers_analyzeParsed_tree {a : Ast} (h : session.trees.get? path = some (.tree a))
    (options : AnalysisOptions) :
    Answers session (analyzeParsed path options)
      ((functionsOf path options a).map fun fs => { functions := fs }) := by
  refine (answers_parseFile_tree h _).bind ?_
  dsimp only
  have hlift : Answers session (lift (functionsOf path options a)) _ := answers_lift _
  cases hfunctions : functionsOf path options a with
  | ok fs =>
    rw [hfunctions] at hlift
    exact hlift.bind (answers_pure _)
  | error e =>
    rw [hfunctions] at hlift
    exact hlift.bind_error

theorem answers_analyzeParsed_none (h : session.trees.get? path = none)
    (options : AnalysisOptions) : Answers session (analyzeParsed path options) (.ok {}) := by
  refine (answers_parseFile_none h _).bind ?_
  dsimp only
  exact (answers_say _).bind (answers_pure _)

/-- A file that can be read has a graph, which is empty if anything goes wrong. -/
theorem answers_mended (session : Session) (path : String) (options : AnalysisOptions) :
    Answers session
      (orElse (analyzeParsed path options) fun e => do
        say ("Error analyzing file " ++ path ++ ": " ++ e.message)
        return {})
      (match session.trees.get? path with
      | some (.tree a) => .ok { functions := (functionsOf path options a).toOption.getD [] }
      | _ => .ok {}) := by
  have hmend : ∀ e : Fault, Answers session (do
      say ("Error analyzing file " ++ path ++ ": " ++ e.message)
      return {}) (.ok ({} : CallGraph)) :=
    fun e => (answers_say _).bind (answers_pure _)
  cases htree : session.trees.get? path with
  | none => exact (answers_analyzeParsed_none htree options).orElse_ok _
  | some found =>
    cases found with
    | fail message =>
      have hfail : Answers session (analyzeParsed path options) (.error (.service message)) :=
        (answers_parseFile_fail htree _).bind_error
      exact hfail.orElse_error (goesOn_error fun _ => nofun) (hmend _)
    | tree a =>
      have hparsed := answers_analyzeParsed_tree htree options
      have hgoesOn := goesOn_functionsOf path options a
      dsimp only
      cases hfunctions : functionsOf path options a with
      | ok fs =>
        rw [hfunctions] at hparsed
        exact hparsed.orElse_ok _
      | error e =>
        rw [hfunctions] at hparsed hgoesOn
        refine hparsed.orElse_error (goesOn_error fun n hn => ?_) (hmend e)
        exact hgoesOn n (hn ▸ rfl)

theorem answers_analyzeFile (session : Session) (path : String) (started : Bool) :
    Answers session (analyzeFile path {} started) (fileGraph session started path) := by
  refine (answers_pathExists path).bind ?_
  unfold fileGraph
  cases session.tree.exists path || session.machine.known.contains path with
  | false => exact (answers_throw _).bind_error
  | true =>
    cases started with
    | false => exact (answers_say _).bind (answers_pure _)
    | true =>
      have hmended := answers_mended session path {}
      simp only [functionsOf_basic] at hmended
      exact hmended

/-- A file that is there and has a tree is always analysed. The graph holds the functions of the
tree, unless the extraction stumbles: then it holds nothing. -/
theorem analyzeFile_empties_iff_stumbles {session : Session} {path : String} {a : Ast}
    (hpath : (session.tree.exists path || session.machine.known.contains path) = true)
    (htree : session.trees.get? path = some (.tree a)) (options : AnalysisOptions) :
    ∃ g, Answers session (analyzeFile path options true) (.ok g) ∧
      (Extraction.Stumbles options.extraction path a ∧
        (∃ e, Extraction.extract options.extraction path a = .error e) ∧ g = {} ∨
      ¬ Extraction.Stumbles options.extraction path a ∧
        ∃ fs, Extraction.extract options.extraction path a = .ok fs ∧
          g = { functions :=
            if options.mode == "basic" then fs
            else crossReferences (.ofString options.mode) fs }) := by
  have hanalyzed : Answers session (analyzeFile path options true)
      (.ok { functions := (functionsOf path options a).toOption.getD [] }) := by
    have hmended := answers_mended session path options
    rw [htree] at hmended
    refine (answers_pathExists path).bind ?_
    rw [hpath]
    exact hmended
  refine ⟨_, hanalyzed, ?_⟩
  have hsucceeds := (Extraction.mends_extract path a options.extraction).succeeds_iff
  unfold functionsOf
  cases hextract : Extraction.extract options.extraction path a with
  | ok fs =>
    rw [hextract] at hsucceeds
    exact .inr ⟨hsucceeds.1 (succeeds_ok fs), fs, rfl, rfl⟩
  | error e =>
    rw [hextract] at hsucceeds
    have hstumbles := not_imp_comm.1 hsucceeds.2 (not_succeeds_error e)
    exact .inl ⟨hstumbles, ⟨e, rfl⟩, rfl⟩

/-- A file with a function and a template. -/
def templateFile (template : Ast) : Ast :=
  Extraction.fileTree [Extraction.functionTree "main" [], template]

/-- A template over a type that is a pointer by default, with a constraint on the type. -/
def pointerTemplate : Ast :=
  .node { kind := .functionTemplate, name := "f", isDefinition := true }
    [.node { kind := .typeParameter, name := "T", tokens := ["typename", "T", "=", "int", "*"] } [],
      .node { kind := .other "CONCEPT_DECL", tokens := ["requires", "Sized", "<", "T", ">"] } []]

/-- A class template with two constructors, one of them a template. -/
def boxTemplate : Ast :=
  .node { kind := .classTemplate, name := "Box" }
    [.node { kind := .functionTemplate, name := "Box<T>", isDefinition := true } [],
      .node { kind := .constructor, name := "Box<T>", isDefinition := true }
        [.node { kind := .other "PARM_DECL", name := "n" } []]]

theorem stumbles_pointerTemplate : Extraction.Stumbles {} "a.cpp" (templateFile pointerTemplate) :=
  .walk (.tail _ (.head _)) (by decide +kernel)

theorem stumbles_boxTemplate : Extraction.Stumbles {} "a.cpp" (templateFile boxTemplate) :=
  .constructor (c := boxTemplate) rfl (.tail _ (.tail _ (.head _))) rfl (.tail _ (.head _))
    ⟨rfl, nofun⟩ ⟨_, .tail _ (.tail _ (.head _)), rfl⟩

def oneFile (a : Ast) : Session where
  tree := { root := "/w", files := [("/w/a.cpp", [])], dirs := ["/w"] }
  trees := [("a.cpp", .tree a)]

theorem analyzeFile_empties_pointerTemplate :
    ((oneFile (templateFile pointerTemplate)).tree.exists "a.cpp" ||
      (oneFile (templateFile pointerTemplate)).machine.known.contains "a.cpp") = true ∧
    (oneFile (templateFile pointerTemplate)).trees.get? "a.cpp" =
      some (.tree (templateFile pointerTemplate)) ∧
    Answers (oneFile (templateFile pointerTemplate)) (analyzeFile "a.cpp" {} true) (.ok {}) := by
  have hpath : ((oneFile (templateFile pointerTemplate)).tree.exists "a.cpp" ||
      (oneFile (templateFile pointerTemplate)).machine.known.contains "a.cpp") = true := by
    decide +kernel
  obtain ⟨g, hg, ⟨_, _, rfl⟩ | ⟨hfine, _⟩⟩ := analyzeFile_empties_iff_stumbles hpath rfl {}
  · exact ⟨hpath, rfl, hg⟩
  · exact absurd stumbles_pointerTemplate hfine

/-- The extraction fails for either of the two templates, so `main` is lost with it. -/
theorem extract_fails_at_templates :
    ¬ Succeeds (Extraction.extract {} "a.cpp" (templateFile pointerTemplate)) ∧
    ¬ Succeeds (Extraction.extract {} "a.cpp" (templateFile boxTemplate)) :=
  ⟨fun h => (Extraction.mends_extract _ _ _).succeeds_iff.1 h stumbles_pointerTemplate,
    fun h => (Extraction.mends_extract _ _ _).succeeds_iff.1 h stumbles_boxTemplate⟩

theorem goesOn_fileGraph (session : Session) (started : Bool) (path : String) :
    GoesOn (fileGraph session started path) := by
  unfold fileGraph
  split
  · split
    · split <;> exact goesOn_ok _
    · exact goesOn_ok _
  · exact goesOn_error fun _ => nofun

theorem named_fileGraph {started : Bool} {g : CallGraph}
    (h : fileGraph session started path = .ok g) :
    Dict.All (fun key f => f.name = key) g.functions := by
  unfold fileGraph at h
  split at h
  · split at h
    · split at h
      · next a _ =>
          cases h
          cases hextract : Extraction.extract {} path a with
          | ok fs => exact fun entry hentry => (Extraction.all_extract hextract entry hentry).1
          | error e => exact Dict.all_nil _
      · cases h
        exact Dict.all_nil _
    · cases h
      exact Dict.all_nil _
  · cases h

/-- The graphs of those of the files that are there. -/
def fileGraphs (session : Session) (started : Bool) (files : List String) : List CallGraph :=
  files.filterMap fun file => (fileGraph session started file).toOption

theorem named_of_mem_fileGraphs {started : Bool} {files : List String} {g : CallGraph}
    (h : g ∈ fileGraphs session started files) :
    Dict.All (fun key f => f.name = key) g.functions := by
  obtain ⟨file, _, hfile⟩ := List.mem_filterMap.1 h
  cases hgraph : fileGraph session started file with
  | ok g' =>
    rw [hgraph] at hfile
    cases hfile
    exact named_fileGraph hgraph
  | error e =>
    rw [hgraph] at hfile
    cases hfile

theorem received_zip_map (outcome : String → Except Fault CallGraph) (files : List String) :
    received (files.zip (files.map outcome)) =
      files.filterMap fun file => (outcome file).toOption := by
  unfold received
  induction files with
  | nil => rfl
  | cons file rest ih => simp only [List.map_cons, List.zip_cons_cons, List.filterMap_cons, ih]

/-- The analysis of several files does not fail and puts together the graphs that there are. -/
theorem run_analyzeFiles {s : Session} (hs : s.SameSources session) (files : List String)
    (kind : String) (started : Bool) (combine : CallGraph → CallGraph → CallGraph) :
    ∃ s', (analyzeFiles files kind started combine).run.run s =
      (.ok ((fileGraphs session started files).foldl combine {}), s') := by
  have houtcomes : Answers session (files.mapM fun file => attempt (analyzeFile file {} started))
      (.ok (files.map (fileGraph session started))) :=
    answers_mapM files fun file _ =>
      (answers_analyzeFile session file started).attempt (goesOn_fileGraph session started file)
  obtain ⟨s₁, hrun, _⟩ := houtcomes s hs
  obtain ⟨s₂, hcollect⟩ :=
    run_collect kind combine (files.zip (files.map (fileGraph session started))) s₁
  refine ⟨s₂, ?_⟩
  rw [received_zip_map] at hcollect
  exact (run_bind_of_ok hrun).trans hcollect

end CodeAtlas.Analysis
