import CodeAtlas.Proofs.Extraction.Failures

/-!
# Names of methods at calls and at definitions

A method is named in three places: where a call refers to it, where it is
defined outside of its class, and where it is defined in the body of one. The
name of the scope is put in front of its own name, but each place has its own
list of scopes for which this is done. A call does it for classes only, a
definition for classes and structs.

So the call of a method of a class leads to the entry of the method. The call of
a method of a struct names a function without a scope, which the entry of the
method is not (`qualify_ne_self`). That the names are the ones in the table is
said by two facts about the walk: every definition that it comes to has an entry
(`has_extract`), and the calls of a recorded definition are entered under the
names that they use (`mem_callsOf_extract`). A function is recorded whenever the
walk comes to it, so none of its calls is lost, at whatever depth it stands
(`mem_calls_of_visited_function`).
-/

namespace CodeAtlas

open List

variable {options : Options} {file name caller : String} {tree : Ast} {v : Visit} {r : Referent}
  {fs : Functions} {vs : List Visit}

/-- What is seen of a node by a node that refers to it. -/
def NodeInfo.asReferent (info : NodeInfo) : Referent := ⟨info.kind, info.name, info.scope⟩

/-- A call below the node refers to the given declaration. -/
def Ast.CallsTo (a : Ast) (r : Referent) : Prop :=
  ∃ n ∈ Ast.subtreesAll a.children, n.kind = .call ∧ n.info.referent = some r

namespace Extraction

/-! ### Qualified names -/

theorem qualify_ne_self (scope name : String) : qualify scope name ≠ name := by
  intro h
  have hlength := congrArg String.length h
  simp only [qualify, String.length_append] at hlength
  have hcolons : "::".length = 2 := rfl
  omega

theorem qualify_left_inj {scope scope' : String} :
    qualify scope name = qualify scope' name ↔ scope = scope' := by
  unfold qualify
  rw [String.append_left_inj, String.append_left_inj]

section

variable {info : NodeInfo} {p : Scope} (hmethod : info.kind = .method)
  (hscope : info.scope = some p)
include hmethod hscope

theorem calledName_of_class (hp : p.kind = .classDecl) :
    calledName info.asReferent = qualify p.name info.name := by
  simp [calledName, NodeInfo.asReferent, hmethod, hscope, hp]

theorem calledName_of_ne_class (hp : p.kind ≠ .classDecl) :
    calledName info.asReferent = info.name := by
  simp [calledName, NodeInfo.asReferent, hmethod, hscope, hp]

/-- Outside of its class a method is defined under the name used by calls, unless it belongs to a
struct. -/
theorem calledName_eq_methodName_iff :
    calledName info.asReferent = methodName info ↔ p.kind ≠ .structDecl := by
  by_cases hclass : p.kind = .classDecl
  · simp [calledName_of_class hmethod hscope hclass, methodName, hscope, NodeKind.isClass, hclass]
  · rw [calledName_of_ne_class hmethod hscope hclass]
    by_cases hstruct : p.kind = .structDecl
    · simp [methodName, hscope, NodeKind.isClass, hstruct, (qualify_ne_self _ _).symm]
    · simp [methodName, hscope, NodeKind.isClass, hclass, hstruct]

/-- In the body of a class a method is defined under the name used by calls only if the class is
the scope of the method, and no struct or class template. -/
theorem calledName_eq_qualify_iff (className : String) :
    calledName info.asReferent = qualify className info.name ↔
      p.kind = .classDecl ∧ p.name = className := by
  by_cases hclass : p.kind = .classDecl
  · rw [calledName_of_class hmethod hscope hclass, qualify_left_inj]
    simp [hclass]
  · rw [calledName_of_ne_class hmethod hscope hclass]
    simp [hclass, (qualify_ne_self _ _).symm]

end

/-! ### Entries -/

theorem has_extract (h : extract options file tree = .ok fs) {d : Definition}
    (hd : .definition d ∈ visits file tree) : fs.has d.name = true := by
  obtain ⟨walked, hwalked, hsame⟩ := sameCalls_extract h
  exact hsame.has_of_has _ ((has_runAll_iff _ hwalked d.name).2 (.inl ⟨_, hd, rfl⟩))

/-! ### Calls -/

mutual

theorem mem_mentions_of_call : ∀ (a : Ast) {n : Ast},
    n ∈ Ast.subtreesAll a.children → n.kind = .call → n.info.referent = some r →
    calledName r ∈ mentions a
  | .node info children, n, hn, hkind, hr => by
    rw [mentions, mem_append]
    exact .inl (mem_mentionsAmong_of_call children hn hkind hr)

theorem mem_mentionsAmong_of_call : ∀ (l : List Ast) {n : Ast},
    n ∈ Ast.subtreesAll l → n.kind = .call → n.info.referent = some r →
    calledName r ∈ mentionsAmong l
  | .node info children :: rest, n, hn, hkind, hr => by
    rw [mentionsAmong, mem_append, mem_append]
    rw [Ast.subtreesAll, mem_append, Ast.subtrees, mem_cons] at hn
    rcases hn with (rfl | hn) | hn
    · have hcall : info.kind = .call := hkind
      have href : info.referent = some r := hr
      exact .inl (.inl (by simp [mentionedBy?, Ast.info, hcall, href]))
    · exact .inl (.inr (mem_mentions_of_call (.node info children) hn hkind hr))
    · exact .inr (mem_mentionsAmong_of_call rest hn hkind hr)

end

/-- The visit records the caller, and a call in its definition refers to the declaration. -/
def Visit.CallsTo (v : Visit) (fs : Functions) (caller : String) (r : Referent) : Prop :=
  ∃ d, v = .definition d ∧ d.isSkipped fs = false ∧ d.name = caller ∧ d.node.CallsTo r

theorem Visit.CallsTo.calls (h : v.CallsTo fs caller r) : v.Calls fs caller (calledName r) := by
  obtain ⟨d, hv, hskip, hname, n, hn, hkind, hr⟩ := h
  exact ⟨d, hv, hskip, hname, mem_mentions_of_call d.node hn hkind hr⟩

theorem Since.mono {happens happens' : Visit → Functions → Prop}
    (himp : ∀ v fs, happens v fs → happens' v fs) (h : Since happens name vs fs) :
    Since happens' name vs fs := by
  obtain ⟨before, v, after, fs', heq, hrun, hhappens, hkeeps⟩ := h
  exact ⟨before, v, after, fs', heq, hrun, himp v fs' hhappens, hkeeps⟩

/-- A call in a definition that is recorded, and not replaced since, is entered under the name that
it uses. -/
theorem mem_callsOf_extract (h : extract options file tree = .ok fs)
    (hcall : Since (fun v fs => v.CallsTo fs caller r) caller (visits file tree) []) :
    calledName r ∈ callsOf fs caller := by
  obtain ⟨walked, hwalked, hsame⟩ := sameCalls_extract h
  rw [hsame.calls_eq, runAll_iff_since
    (fun hv => mem_callsOf_run hv caller (calledName r)) (visits file tree) hwalked]
  exact .inr (hcall.mono fun _ _ => Visit.CallsTo.calls)

/-- Where the call of a method leads. The name that a call uses is that of a definition outside of
the class unless the method belongs to a struct, and that of a definition in the body of a class
only if this class is the scope of the method, and a class. In the functions of a file each
definition has an entry under its name, and each call of the method is entered under the name that
calls use. -/
theorem call_leads_to_method_iff {m : Ast} {p : Scope} (hmethod : m.kind = .method)
    (hscope : m.info.scope = some p) {options : Options} {file : String} {tree : Ast}
    {fs : Functions} (h : extract options file tree = .ok fs) :
    (calledName m.info.asReferent = (Definition.ofMethod m).name ↔ p.kind ≠ .structDecl) ∧
      (∀ className, calledName m.info.asReferent = (Definition.ofClassMethod className m).name ↔
        p.kind = .classDecl ∧ p.name = className) ∧
      (∀ d, .definition d ∈ visits file tree → fs.has d.name = true) ∧
      ∀ caller,
        Since (fun v fs => v.CallsTo fs caller m.info.asReferent) caller (visits file tree) [] →
        calledName m.info.asReferent ∈ callsOf fs caller := by
  refine ⟨calledName_eq_methodName_iff hmethod hscope, calledName_eq_qualify_iff hmethod hscope,
    fun d hd => has_extract h hd, fun caller hcall => mem_callsOf_extract h hcall⟩

/-- A method of the given scope, defined in its body. -/
def closeMethod (scope : NodeKind) : Ast :=
  .node { kind := .method, name := "close", isDefinition := true, scope := some ⟨scope, "Pipe"⟩ } []

def closingFunction (scope : NodeKind) : Ast :=
  .node { kind := .function, name := "main", isDefinition := true }
    [.node { kind := .call, referent := some (closeMethod scope).info.asReferent } []]

/-- A file with the scope, the method and the function. -/
def methodCall (scope : NodeKind) : Ast :=
  fileTree [.node { kind := scope, name := "Pipe" } [closeMethod scope], closingFunction scope]

theorem call_leads_to_method_class :
    ∃ fs, extract {} "a.cpp" (methodCall .classDecl) = .ok fs ∧
      fs.has "Pipe::close" = true ∧ "Pipe::close" ∈ callsOf fs "main" := by
  obtain ⟨fs, hextract, _⟩ : ∃ fs, extract {} "a.cpp" (methodCall .classDecl) = .ok fs ∧
      fs.keys = ["Pipe::close", "main"] :=
    exists_of_toOption_map (by decide +kernel)
  obtain ⟨_, hbody, hentry, hcall⟩ :=
    call_leads_to_method_iff (m := closeMethod .classDecl) rfl rfl hextract
  have hname : calledName (closeMethod .classDecl).info.asReferent = "Pipe::close" :=
    (hbody "Pipe").2 ⟨rfl, rfl⟩
  refine ⟨fs, hextract, hentry (.ofClassMethod "Pipe" (closeMethod .classDecl)) ?_, ?_⟩
  · exact mem_cons_self
  · rw [← hname]
    refine hcall "main" ?_
    obtain ⟨fs₁, hrun, _⟩ : ∃ fs₁,
        Visit.runAll [.definition (.ofClassMethod "Pipe" (closeMethod .classDecl))] [] = .ok fs₁ ∧
          fs₁.keys = ["Pipe::close"] :=
      exists_of_toOption_map (by decide +kernel)
    refine ⟨_, .definition (.ofFunction (closingFunction .classDecl)), [], fs₁, rfl, hrun, ?_, ?_⟩
    · exact ⟨_, rfl, rfl, rfl, _, mem_cons_self, rfl, rfl⟩
    · simp

/-- The call of a method of a struct leads nowhere: the method has its entry under another name. -/
theorem struct_call_leads_nowhere :
    ∃ fs, extract {} "a.cpp" (methodCall .structDecl) = .ok fs ∧ callsOf fs "main" = ["close"] ∧
      fs.has "close" = false ∧ fs.has "Pipe::close" = true ∧ callersOf fs "Pipe::close" = [] := by
  obtain ⟨fs, hextract, hview⟩ : ∃ fs, extract {} "a.cpp" (methodCall .structDecl) = .ok fs ∧
      (callsOf fs "main", fs.has "close", fs.has "Pipe::close", callersOf fs "Pipe::close") =
        (["close"], false, true, []) :=
    exists_of_toOption_map (by decide +kernel)
  simp only [Prod.mk.injEq] at hview
  exact ⟨fs, hextract, hview⟩

/-! ### Functions -/

theorem since_of_mem {happens : Visit → Functions → Prop} {fs' : Functions} (hv : v ∈ vs)
    (hrun : Visit.runAll vs fs = .ok fs') (hhappens : ∀ fs, happens v fs)
    (hkeeps : ∀ w ∈ vs, w.Keeps name) : Since happens name vs fs := by
  obtain ⟨before, after, rfl⟩ := append_of_mem hv
  rw [Visit.runAll_append] at hrun
  obtain ⟨fs₁, hbefore, _⟩ := exists_of_bind_eq_ok hrun
  refine ⟨before, v, after, fs₁, rfl, hbefore, hhappens fs₁, fun w hw => hkeeps w ?_⟩
  exact mem_append_right before (mem_cons_of_mem v hw)

theorem keeps_of_mem_visits
    (hnames : ∀ t ∈ tree.subtrees, t.kind = .classTemplate → t.info.name ≠ name)
    (hv : v ∈ visits file tree) : v.Keeps name := by
  rintro t rfl hreplaced
  obtain ⟨hkind, hmem⟩ := (below_of_mem_visits file tree hv).templateClass _ rfl
  exact hnames t hmem hkind (replacedName?_eq_some hreplaced).symm

/-- Every call below a function that the walk comes to, at any depth, is among the calls of the
function under the name that it uses, unless a class template has the name of the function. What
the texts of the nodes say does not matter. -/
theorem mem_calls_of_visited_function {options : Options} {file : String} {tree : Ast}
    {fs : Functions} (h : extract options file tree = .ok fs) {d : Ast}
    (hd : .definition (.ofFunction d) ∈ visits file tree)
    (hnames : ∀ t ∈ tree.subtrees, t.kind = .classTemplate → t.info.name ≠ d.info.name)
    {r : Referent} (hcall : d.CallsTo r) :
    ∃ F, fs.get? d.info.name = some F ∧ calledName r ∈ F.calls := by
  obtain ⟨walked, hwalked, _⟩ := sameCalls_extract h
  have hsince : Since (fun v fs => v.CallsTo fs d.info.name r) d.info.name (visits file tree) [] :=
    since_of_mem hd hwalked (fun _ => ⟨.ofFunction d, rfl, rfl, rfl, hcall⟩)
      fun _ => keeps_of_mem_visits hnames
  have hmem := mem_callsOf_extract h hsince
  obtain ⟨F, hF⟩ := (Dict.has_iff fs d.info.name).1 (has_of_mem_callsOf hmem)
  exact ⟨F, hF, by rwa [callsOf_of_get? hF] at hmem⟩

/-- A function with a text that shows another call, and a call of a method two levels down. -/
def deepCall : Ast :=
  .node { kind := .function, name := "main", isDefinition := true, tokens := ["close", "("] }
    [.node { kind := .other "COMPOUND_STMT" } (closingFunction .classDecl).children]

/-- The function behind a class template that is a function of types. -/
def deepCallFile : Ast :=
  fileTree [
    .node { kind := .classTemplate, name := "rank", tokens := ["class", "const", "value"] } [],
    deepCall]

theorem not_stumbles_deepCallFile : ¬ Stumbles {} "a.cpp" deepCallFile := by
  have hnodes : (deepCallFile.nodesIn "a.cpp").all (fun n =>
      n.kind != .functionTemplate && n.children.all (·.kind != .constructor)) = true := by decide
  have hplain : ∀ n ∈ deepCallFile.nodesIn "a.cpp",
      n.kind ≠ .functionTemplate ∧ ∀ m ∈ n.children, m.kind ≠ .constructor := by
    simpa using hnodes
  rw [not_stumbles_iff]
  refine ⟨fun t ht => ?_, fun _ c hc _ m hm hfilled => ?_, fun _ t ht hnamed => ?_⟩
  · rcases ht with _ | ⟨_, _ | ⟨_, ht⟩⟩
    cases ht
  · exact absurd hfilled.1 ((hplain c hc).2 m hm)
  · exact absurd hnamed.1 (hplain t ht).1

theorem mem_calls_deepCall :
    ∃ fs F, extract {} "a.cpp" deepCallFile = .ok fs ∧ fs.get? "main" = some F ∧
      "Pipe::close" ∈ F.calls := by
  obtain ⟨fs, hextract⟩ := (mends_extract _ _ _).succeeds_iff.2 not_stumbles_deepCallFile
  have hvisited : .definition (.ofFunction deepCall) ∈ visits "a.cpp" deepCallFile :=
    mem_cons_of_mem _ mem_cons_self
  have hcall : deepCall.CallsTo (closeMethod .classDecl).info.asReferent :=
    ⟨_, mem_cons_of_mem _ mem_cons_self, rfl, rfl⟩
  obtain ⟨F, hF, hmem⟩ := mem_calls_of_visited_function hextract hvisited (by decide +kernel) hcall
  exact ⟨fs, F, hextract, hF, hmem⟩

end Extraction

end CodeAtlas
