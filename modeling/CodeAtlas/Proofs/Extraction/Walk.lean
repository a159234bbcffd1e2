import CodeAtlas.Proofs.Extraction.Looks

/-!
# The walk over definitions as a list of visits

Five functions call each other to find the definitions below a node. Where they
go does not depend on what they have found: the tree alone fixes the list of
visits that they pay, `visits file a`, and `visit_eq_runAll` says that the walk
runs this list from left to right. What holds of every visit then holds of the
walk by induction on a list.

There are two kinds of visits. A class template is entered as such. All others
are one and the same: a definition is looked up by its name, entered or
refreshed, searched for calls, and looked at once more (`Definition.run`). The
definitions differ in their entry and in whether a known name is passed over.
-/

namespace CodeAtlas

open List

variable {t : Ast} {d : Definition} {v : Visit}

namespace Ast

mutual

/-- A tree and all trees below its top. -/
def subtrees : Ast → List Ast
  | .node info children => .node info children :: subtreesAll children

/-- The trees of a list and all trees below their tops. -/
def subtreesAll : List Ast → List Ast
  | [] => []
  | a :: rest => subtrees a ++ subtreesAll rest

end

end Ast

namespace Extraction

/-- A definition that the walk comes to. A new entry has no calls yet, and the looks at the entry
keep its core. -/
structure Definition where
  node : Ast
  entry : Function
  /-- What becomes of an entry that is there. -/
  refresh : Function → Function := id
  onlyNew : Bool := false
  /-- The look at the entry after the search for calls. -/
  finish : Function → Except Fault Function := .ok
  entry_calls : entry.calls = [] := by rfl
  entry_calledBy : entry.calledBy = [] := by rfl
  core_refresh : ∀ f, (refresh f).core = f.core := by intro f; rfl
  gives_core_finish : ∀ f, Gives Function.core f.core (finish f) := by intro f; exact gives_ok rfl

namespace Definition

def name (d : Definition) : String := d.entry.name

/-- Enters the definition, or refreshes what is there. -/
def enter (d : Definition) (fs : Functions) : Functions :=
  if fs.has d.name then Dict.adjust fs d.name d.refresh else Dict.set fs d.name d.entry

def isSkipped (d : Definition) (fs : Functions) : Bool := d.onlyNew && fs.has d.name

/-- Records a definition and its calls. -/
def run (d : Definition) (fs : Functions) : Except Fault Functions :=
  if d.isSkipped fs then .ok fs
  else adjustM (findCalls d.name d.node (d.enter fs)) d.name d.finish

def ofFunction (a : Ast) : Definition := { node := a, entry := entryOf a.info a.info.name }

def ofMethod (a : Ast) : Definition where
  node := a
  entry :=
    { entryOf a.info (methodName a.info) with
      isVirtual := a.info.isVirtual, isMember := true,
      className := (a.info.scope.map (·.name)).getD "" }

def ofTemplate (a : Ast) : Definition where
  node := a
  entry := newTemplate a
  refresh := knownTemplate a
  finish := detectAll a
  core_refresh := core_knownTemplate a
  gives_core_finish := gives_core_detectAll a

def ofClassMethod (className : String) (a : Ast) : Definition where
  node := a
  entry :=
    { entryOf a.info (qualify className a.info.name) with
      isMember := true, className := className, isVirtual := a.info.isVirtual }
  onlyNew := true

/-- A method in the body of a class template. -/
def ofTemplateMethod (className : String) (params : List String) (a : Ast) : Definition where
  node := a
  entry :=
    { entryOf a.info (qualify className a.info.name) with
      isTemplate := true, templateParams := params, isMember := true, className := className,
      isVirtual := a.info.isVirtual }
  onlyNew := true

/-- A method template in the body of a class template. -/
def ofMethodTemplate (className : String) (params : List String) (a : Ast) : Definition where
  node := a
  entry :=
    { entryOf a.info (qualify className a.info.name) with
      isTemplate := true, templateParams := params ++ templateParams a, isMember := true,
      className := className }
  onlyNew := true

theorem adjustM_ok (fs : Functions) (name : String) : adjustM fs name .ok = .ok fs := by
  unfold adjustM
  split
  · next f hf =>
      have hset : Dict.set fs name f = fs := Dict.set_eq_self hf
      simp only [bind, Except.bind, pure, Except.pure, hset]
  · rfl

theorem run_of_plain (hrefresh : d.refresh = id) (hfinish : d.finish = .ok)
    (honlyNew : d.onlyNew = false) (fs : Functions) :
    d.run fs = .ok (findCalls d.name d.node (record fs d.entry)) := by
  have henter : d.enter fs = record fs d.entry := by
    unfold enter record
    rw [hrefresh, Dict.adjust_id]
    rfl
  unfold run isSkipped
  rw [honlyNew, henter, hfinish, adjustM_ok]
  rfl

theorem run_of_onlyNew (hfinish : d.finish = .ok) (honlyNew : d.onlyNew = true) (fs : Functions) :
    d.run fs = .ok (recordWithCalls d.node fs d.entry) := by
  unfold run isSkipped recordWithCalls enter
  rw [honlyNew, hfinish, Bool.true_and, adjustM_ok]
  by_cases hknown : fs.has d.name = true
  · have hknown' : fs.has d.entry.name = true := hknown
    simp [hknown, hknown']
  · have hknown' : ¬ fs.has d.entry.name = true := hknown
    simp only [hknown, hknown']
    rfl

end Definition

/-- A visit that the walk pays. -/
inductive Visit where
  | definition (d : Definition)
  | templateClass (a : Ast)

namespace Visit

def run (fs : Functions) : Visit → Except Fault Functions
  | .definition d => d.run fs
  | .templateClass a => .ok (registerTemplateClass a fs)

def runAll (vs : List Visit) (fs : Functions) : Except Fault Functions := vs.foldlM run fs

/-- A definition, if the node is one and not only a declaration. -/
def ofDefined (a : Ast) (d : Definition) : List Visit :=
  if a.info.isDefinition then [.definition d] else []

theorem runAll_append (vs ws : List Visit) (fs : Functions) :
    runAll (vs ++ ws) fs = runAll vs fs >>= runAll ws :=
  foldlM_append

theorem runAll_singleton (v : Visit) (fs : Functions) : runAll [v] fs = run fs v := by
  unfold runAll
  rw [foldlM_cons]
  cases run fs v <;> rfl

end Visit

open Visit

mutual

/-- The visits below a node of the given file. -/
def visits (file : String) : Ast → List Visit
  | .node info children =>
    let a := Ast.node info children
    if info.isElsewhere file then []
    else
      match info.kind with
      | .function => ofDefined a (.ofFunction a)
      | .method => ofDefined a (.ofMethod a)
      | .functionTemplate => [.definition (.ofTemplate a)]
      | .classTemplate => .templateClass a :: templateMemberVisits info (templateParams a) children
      | .classDecl | .structDecl => classMemberVisits info children
      | _ => visitsAll file children

def visitsAll (file : String) : List Ast → List Visit
  | [] => []
  | a :: rest => visits file a ++ visitsAll file rest

/-- The visits to a class template and its members. -/
def templateClassVisits : Ast → List Visit
  | .node info children =>
    let a := Ast.node info children
    .templateClass a :: templateMemberVisits info (templateParams a) children

/-- The visits to the members of a class template. -/
def templateMemberVisits (info : NodeInfo) (params : List String) : List Ast → List Visit
  | [] => []
  | a :: rest =>
    (match a.kind with
      | .method => ofDefined a (.ofTemplateMethod info.name params a)
      | .functionTemplate => [.definition (.ofMethodTemplate info.name params a)]
      | .classTemplate => templateClassVisits a
      | .classDecl | .structDecl => visits info.fileName a
      | _ => []) ++ templateMemberVisits info params rest

/-- The visits to the members of a class. -/
def classMemberVisits (info : NodeInfo) : List Ast → List Visit
  | [] => []
  | a :: rest =>
    (match a.kind with
      | .method => ofDefined a (.ofClassMethod info.name a)
      | .classDecl | .structDecl => visits info.fileName a
      | _ => []) ++ classMemberVisits info rest

end

theorem runAll_ofDefined (a : Ast) (d : Definition) (fs : Functions) :
    runAll (ofDefined a d) fs = if a.info.isDefinition then d.run fs else .ok fs := by
  unfold ofDefined
  split
  · rw [runAll_singleton]
    rfl
  · rfl

theorem functionNode_eq (a : Ast) (fs : Functions) :
    .ok (functionNode a fs) = runAll (ofDefined a (.ofFunction a)) fs := by
  rw [runAll_ofDefined, Definition.run_of_plain rfl rfl rfl]
  unfold functionNode
  cases a.info.isDefinition <;> rfl

theorem methodNode_eq (a : Ast) (fs : Functions) :
    .ok (methodNode a fs) = runAll (ofDefined a (.ofMethod a)) fs := by
  rw [runAll_ofDefined, Definition.run_of_plain rfl rfl rfl]
  unfold methodNode
  cases a.info.isDefinition <;> rfl

theorem templateFunctionNode_eq (a : Ast) (fs : Functions) :
    templateFunctionNode a fs = runAll [.definition (.ofTemplate a)] fs := by
  rw [runAll_singleton]
  rfl

theorem classMethod_eq (className : String) (a : Ast) (fs : Functions) :
    .ok (classMethod className a fs) = runAll (ofDefined a (.ofClassMethod className a)) fs := by
  rw [runAll_ofDefined, Definition.run_of_onlyNew rfl rfl]
  unfold classMethod
  cases a.info.isDefinition <;> rfl

theorem templateClassMethod_eq (className : String) (params : List String) (a : Ast)
    (fs : Functions) :
    .ok (templateClassMethod className params a fs) =
      runAll (ofDefined a (.ofTemplateMethod className params a)) fs := by
  rw [runAll_ofDefined, Definition.run_of_onlyNew rfl rfl]
  unfold templateClassMethod
  cases a.info.isDefinition <;> rfl

theorem templateClassTemplate_eq (className : String) (params : List String) (a : Ast)
    (fs : Functions) :
    .ok (templateClassTemplate className params a fs) =
      runAll [.definition (.ofMethodTemplate className params a)] fs := by
  rw [runAll_singleton, run, Definition.run_of_onlyNew rfl rfl]
  rfl

mutual

theorem visit_eq_runAll (file : String) :
    ∀ (a : Ast) (fs : Functions), visit file a fs = runAll (visits file a) fs
  | .node info children, fs => by
    rw [visit, visits]
    split
    · rfl
    · cases info.kind with
      | function => exact functionNode_eq _ fs
      | method => exact methodNode_eq _ fs
      | functionTemplate => exact templateFunctionNode_eq _ fs
      | classTemplate => exact templateMembers_eq_runAll info _ children _
      | classDecl => exact classMembers_eq_runAll info children fs
      | structDecl => exact classMembers_eq_runAll info children fs
      | _ => exact visitAll_eq_runAll file children fs

theorem visitAll_eq_runAll (file : String) :
    ∀ (l : List Ast) (fs : Functions), visitAll file l fs = runAll (visitsAll file l) fs
  | [], fs => rfl
  | a :: rest, fs => by
    rw [visitAll, visitsAll, runAll_append, visit_eq_runAll file a fs]
    exact congrArg _ (funext fun fs₁ => visitAll_eq_runAll file rest fs₁)

theorem templateClassNode_eq_runAll :
    ∀ (a : Ast) (fs : Functions), templateClassNode a fs = runAll (templateClassVisits a) fs
  | .node info children, fs => by
    rw [templateClassNode, templateClassVisits]
    exact templateMembers_eq_runAll info _ children _

theorem templateMembers_eq_runAll (info : NodeInfo) (params : List String) :
    ∀ (l : List Ast) (fs : Functions),
      templateMembers info params l fs = runAll (templateMemberVisits info params l) fs
  | [], fs => rfl
  | a :: rest, fs => by
    have hrest := fun fs₁ => templateMembers_eq_runAll info params rest fs₁
    rw [templateMembers, templateMemberVisits, runAll_append, ← funext hrest]
    cases a.kind with
    | method => rw [← templateClassMethod_eq]; rfl
    | functionTemplate => rw [← templateClassTemplate_eq]; rfl
    | classTemplate => rw [← templateClassNode_eq_runAll a]
    | classDecl => rw [← visit_eq_runAll info.fileName a]
    | structDecl => rw [← visit_eq_runAll info.fileName a]
    | _ => rfl

theorem classMembers_eq_runAll (info : NodeInfo) :
    ∀ (l : List Ast) (fs : Functions), classMembers info l fs = runAll (classMemberVisits info l) fs
  | [], fs => rfl
  | a :: rest, fs => by
    have hrest := fun fs₁ => classMembers_eq_runAll info rest fs₁
    rw [classMembers, classMemberVisits, runAll_append, ← funext hrest]
    cases a.kind with
    | method => rw [← classMethod_eq]; rfl
    | classDecl => rw [← visit_eq_runAll info.fileName a]
    | structDecl => rw [← visit_eq_runAll info.fileName a]
    | _ => rfl

end

/-- All that a walk visits. -/
inductive Visit.Usual : Visit → Prop where
  | function (a : Ast) : Usual (.definition (.ofFunction a))
  | method (a : Ast) : Usual (.definition (.ofMethod a))
  | template (a : Ast) : Usual (.definition (.ofTemplate a))
  | classMethod (className : String) (a : Ast) : Usual (.definition (.ofClassMethod className a))
  | templateMethod (className : String) (params : List String) (a : Ast) :
      Usual (.definition (.ofTemplateMethod className params a))
  | methodTemplate (className : String) (params : List String) (a : Ast) :
      Usual (.definition (.ofMethodTemplate className params a))
  | templateClass (a : Ast) : Usual (.templateClass a)

/-- A usual visit. If it is one to a class template, this is one of the given trees. -/
structure Visit.Below (l : List Ast) (v : Visit) : Prop where
  usual : v.Usual
  templateClass : ∀ t, v = .templateClass t → t.kind = .classTemplate ∧ t ∈ l

section

variable {l l' : List Ast} {a : Ast}

theorem Visit.Below.mono (hv : v.Below l) (hl : l ⊆ l') : v.Below l' :=
  ⟨hv.usual, fun t ht => ⟨(hv.templateClass t ht).1, hl (hv.templateClass t ht).2⟩⟩

theorem below_definition (hd : Usual (.definition d)) (h : v ∈ [Visit.definition d]) :
    v.Below l := by
  obtain rfl := mem_singleton.1 h
  exact ⟨hd, nofun⟩

theorem below_ofDefined (hd : Usual (.definition d)) (h : v ∈ ofDefined a d) : v.Below l := by
  unfold ofDefined at h
  split at h
  · exact below_definition hd h
  · cases h

theorem below_templateClass (hkind : a.kind = .classTemplate) (ha : a ∈ l) :
    (Visit.templateClass a).Below l := by
  refine ⟨.templateClass a, fun t ht => ?_⟩
  cases ht
  exact ⟨hkind, ha⟩

end

mutual

theorem below_of_mem_visits (file : String) : ∀ a : Ast, v ∈ visits file a → v.Below a.subtrees
  | .node info children, h => by
    have hchildren := subset_cons_self (Ast.node info children) (Ast.subtreesAll children)
    rw [visits] at h
    split at h
    · cases h
    · split at h
      · exact below_ofDefined (.function _) h
      · exact below_ofDefined (.method _) h
      · exact below_definition (.template _) h
      · next hkind =>
          rcases mem_cons.1 h with rfl | h
          · exact below_templateClass hkind mem_cons_self
          · exact (below_of_mem_templateMemberVisits info _ children h).mono hchildren
      · exact (below_of_mem_classMemberVisits info children h).mono hchildren
      · exact (below_of_mem_classMemberVisits info children h).mono hchildren
      · exact (below_of_mem_visitsAll file children h).mono hchildren

theorem below_of_mem_visitsAll (file : String) :
    ∀ l : List Ast, v ∈ visitsAll file l → v.Below (Ast.subtreesAll l)
  | [], h => by cases h
  | a :: rest, h => by
    rcases mem_append.1 h with h | h
    · exact (below_of_mem_visits file a h).mono (subset_append_left _ _)
    · exact (below_of_mem_visitsAll file rest h).mono (subset_append_right _ _)

theorem below_of_mem_templateClassVisits : ∀ a : Ast, a.kind = .classTemplate →
    v ∈ templateClassVisits a → v.Below a.subtrees
  | .node info children, hkind, h => by
    rcases mem_cons.1 h with rfl | h
    · exact below_templateClass hkind mem_cons_self
    · exact (below_of_mem_templateMemberVisits info _ children h).mono (subset_cons_self _ _)

theorem below_of_mem_templateMemberVisits (info : NodeInfo) (params : List String) :
    ∀ l : List Ast, v ∈ templateMemberVisits info params l → v.Below (Ast.subtreesAll l)
  | [], h => by cases h
  | a :: rest, h => by
    rw [templateMemberVisits] at h
    rcases mem_append.1 h with h | h
    · refine Below.mono ?_ (subset_append_left a.subtrees _)
      split at h
      · exact below_ofDefined (.templateMethod info.name params a) h
      · exact below_definition (.methodTemplate info.name params a) h
      · next hkind => exact below_of_mem_templateClassVisits a hkind h
      · exact below_of_mem_visits info.fileName a h
      · exact below_of_mem_visits info.fileName a h
      · cases h
    · exact (below_of_mem_templateMemberVisits info params rest h).mono (subset_append_right _ _)

theorem below_of_mem_classMemberVisits (info : NodeInfo) :
    ∀ l : List Ast, v ∈ classMemberVisits info l → v.Below (Ast.subtreesAll l)
  | [], h => by cases h
  | a :: rest, h => by
    rw [classMemberVisits] at h
    rcases mem_append.1 h with h | h
    · refine Below.mono ?_ (subset_append_left a.subtrees _)
      split at h
      · exact below_ofDefined (.classMethod info.name a) h
      · exact below_of_mem_visits info.fileName a h
      · exact below_of_mem_visits info.fileName a h
      · cases h
    · exact (below_of_mem_classMemberVisits info rest h).mono (subset_append_right _ _)

end

end Extraction

end CodeAtlas
