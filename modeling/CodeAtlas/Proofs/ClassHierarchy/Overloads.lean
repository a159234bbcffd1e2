import CodeAtlas.Proofs.ClassHierarchy.Overrides
import CodeAtlas.Proofs.Extraction.Walk

/-!
# Overloaded methods

A class may declare a virtual method several times, with different parameters,
and it may be declared several times itself. A hierarchy keeps one signature
for each name of a method: `overloads a name method` lists what a tree declares
in the order of the walk, and `paramsAt_foldl_noteNode` says that the last of
them is what is kept. So whether a method is overridden is decided by the last
overload in the class and the last one in its base
(`mem_overriddenAt_ofAst_iff`), and an overload in front of them is not seen
(`overriddenAt_hidden_overload`).
-/

namespace CodeAtlas.ClassHierarchy

open List

variable (nodes children : List Ast) {h : ClassHierarchy} {key : String}

/-! ### What a tree declares -/

/-- The node declares the class of a name. -/
def declares (d : Ast) (name : String) : Bool :=
  (d.kind.isClass || d.kind == .classTemplate) && d.info.name == name && !name.isEmpty

/-- A declaration of the class names the base. -/
def DerivesFrom (a : Ast) (name base : String) : Prop :=
  ∃ d ∈ a.subtrees, declares d name = true ∧ ∃ child ∈ d.children, NamesBase child base

def virtualsNamed (method : String) (members : List Ast) : List NodeInfo :=
  (members.filter fun m => m.kind == .method && m.info.isVirtual && m.info.name == method).map
    Ast.info

/-- The virtual methods of a name that a class declares, over all its declarations. -/
def overloads (a : Ast) (name method : String) : List NodeInfo :=
  (a.subtrees.filter (declares · name)).flatMap fun d => virtualsNamed method d.children

/-! ### What a hierarchy keeps of it -/

def paramsAt (h : ClassHierarchy) (name method : String) : Option (List Json) :=
  (h.getClass? name).bind (·.paramTypes? method)

def lastParams (methods : List NodeInfo) : Option (List Json) :=
  methods.getLast?.map (·.argTypes.map Json.str)

theorem lastParams_append (l l' : List NodeInfo) :
    lastParams (l ++ l') = (lastParams l').or (lastParams l) := by
  rw [lastParams, getLast?_append]
  unfold lastParams
  cases l'.getLast? <;> rfl

theorem paramsAt_ensure (h : ClassHierarchy) (key name method : String) :
    (h.ensure key).paramsAt name method = h.paramsAt name method := by
  unfold paramsAt
  rw [getClass?_ensure]
  by_cases hname : name = key
  · subst hname
    cases h.getClass? name <;> simp [ClassNode.paramTypes?, Json.get?]
  · simp [hname]

theorem paramsAt_adjust (h : ClassHierarchy) (key : String) {f : ClassNode → ClassNode}
    (hf : ∀ c, (f c).signatures = c.signatures) (name method : String) :
    (h.adjust key f).paramsAt name method = h.paramsAt name method := by
  unfold paramsAt
  rw [getClass?_adjust]
  by_cases hname : name = key
  · subst hname
    cases h.getClass? name <;> simp [ClassNode.paramTypes?, hf]
  · simp [hname]

theorem paramsAt_noteBases (key : String) (h : ClassHierarchy)
    (name method : String) :
    (children.foldl (noteBase key) h).paramsAt name method = h.paramsAt name method := by
  induction children generalizing h with
  | nil => rfl
  | cons child rest ih =>
    rw [foldl_cons, ih]
    rcases noteBase_eq key h child with ⟨heq, -⟩ | ⟨base, -, heq⟩
    · rw [heq]
    · rw [heq, ← paramsAt_ensure h base]
      exact (paramsAt_adjust _ base (by intro; rfl) name method).trans
        (paramsAt_adjust _ key (by intro; rfl) name method)

theorem paramsAt_noteVirtual (hh : h.Unresolved ∧ h.Knows key) (a : Ast) (name method : String) :
    (noteVirtual key h a).paramsAt name method =
      if name = key then (lastParams (virtualsNamed method [a])).or (h.paramsAt name method)
      else h.paramsAt name method := by
  rcases noteVirtual_eq key h a with ⟨heq, hother⟩ | ⟨heq, hvirtual⟩
  · simp [heq, virtualsNamed, hother, lastParams]
  · rw [heq]
    by_cases hname : name = key
    · subst hname
      obtain ⟨c, hc⟩ := hh.2
      obtain ⟨fields, hfields, -⟩ := (hh.1.wellFormed name c hc).signed
      rw [paramsAt, paramsAt, getClass?_adjust, hc, if_pos rfl, if_pos rfl, Option.map_some,
        Option.bind_some, Option.bind_some, ClassNode.paramTypes?_addSigned hfields]
      by_cases hmethod : method = a.info.name
      · simp [hmethod, virtualsNamed, hvirtual, lastParams]
      · simp [hmethod, Ne.symm hmethod, virtualsNamed, lastParams]
    · rw [if_neg hname, paramsAt, getClass?_adjust, if_neg hname, paramsAt]

theorem paramsAt_noteVirtuals (hh : h.Unresolved ∧ h.Knows key) (name method : String) :
    (children.foldl (noteVirtual key) h).paramsAt name method =
      if name = key then (lastParams (virtualsNamed method children)).or (h.paramsAt name method)
      else h.paramsAt name method := by
  induction children generalizing h with
  | nil => simp [virtualsNamed, lastParams]
  | cons child rest ih =>
    have hcons : virtualsNamed method (child :: rest) =
        virtualsNamed method [child] ++ virtualsNamed method rest := by
      rw [virtualsNamed, ← singleton_append, filter_append, map_append]
      rfl
    rw [foldl_cons, ih (Unresolved.noteVirtual hh child), paramsAt_noteVirtual hh, hcons,
      lastParams_append]
    by_cases hname : name = key
    · simp only [hname, if_true, Option.or_assoc]
    · simp only [hname, if_false]

theorem mem_bases_noteBases (hh : h.Unresolved ∧ h.Knows key) (name base : String) :
    base ∈ (children.foldl (noteBase key) h).related (·.bases) name ↔
      base ∈ h.related (·.bases) name ∨ name = key ∧ ∃ child ∈ children, NamesBase child base := by
  induction children generalizing h with
  | nil => simp
  | cons child rest ih =>
    rw [foldl_cons, ih (Unresolved.noteBase hh child), exists_mem_cons_iff]
    rcases noteBase_eq key h child with ⟨heq, hnone⟩ | ⟨base', hbase', heq⟩
    · simp [heq, hnone base]
    · have hnames : NamesBase child base ↔ base = base' := by
        constructor
        · intro hbase
          exact Option.some.inj (hbase.2.symm.trans hbase'.2)
        · rintro rfl
          exact hbase'
      rw [heq, mem_bases_relate hh.2, hnames]
      tauto

theorem related_noteVirtuals (key : String) (h : ClassHierarchy)
    (name : String) :
    (children.foldl (noteVirtual key) h).related (·.bases) name = h.related (·.bases) name := by
  induction children generalizing h with
  | nil => rfl
  | cons child rest ih =>
    rw [foldl_cons, ih]
    rcases noteVirtual_eq key h child with ⟨heq, -⟩ | ⟨heq, -⟩
    · rw [heq]
    · rw [heq]
      exact related_adjust h key (·.addSigned child.info) (·.bases) (fun _ => rfl) name

/-! ### The walk -/

def noteNode (h : ClassHierarchy) (d : Ast) : ClassHierarchy :=
  if d.kind.isClass || d.kind == .classTemplate then noteClass d.info d.children h else h

mutual

theorem noteTree_eq_foldl : ∀ (a : Ast) (h : ClassHierarchy),
    noteTree a h = a.subtrees.foldl noteNode h
  | .node info children, h => by
    rw [noteTree, Ast.subtrees, foldl_cons, noteTrees_eq_foldl children]
    rfl

theorem noteTrees_eq_foldl : ∀ (l : List Ast) (h : ClassHierarchy),
    noteTrees l h = (Ast.subtreesAll l).foldl noteNode h
  | [], _ => rfl
  | a :: rest, h => by
    rw [noteTrees, Ast.subtreesAll, foldl_append, noteTree_eq_foldl a, noteTrees_eq_foldl rest]

end

theorem noteNode_cases (h : ClassHierarchy) (d : Ast) :
    (noteNode h d = h ∧ ∀ name, declares d name = false) ∨
      (noteNode h d = d.children.foldl (noteVirtual d.info.name)
          (d.children.foldl (noteBase d.info.name) (h.placed d.info)) ∧
        ∀ name, declares d name = true ↔ name = d.info.name) := by
  unfold noteNode declares
  cases hkind : d.kind.isClass || d.kind == .classTemplate with
  | false => exact .inl ⟨if_neg (by simp), fun name => rfl⟩
  | true =>
    rw [if_pos rfl]
    cases hempty : d.info.name.isEmpty with
    | true =>
      refine .inl ⟨by rw [noteClass, if_pos hempty], fun name => ?_⟩
      by_cases hname : d.info.name = name
      · simp [← hname, hempty]
      · simp [hname]
    | false =>
      refine .inr ⟨noteClass_of_named hempty _ h, fun name => ?_⟩
      by_cases hname : d.info.name = name
      · simp [← hname, hempty]
      · simp [hname, Ne.symm hname]

section

variable (hh : h.Unresolved)
include hh

theorem Unresolved.noteNode (d : Ast) : (noteNode h d).Unresolved := by
  unfold ClassHierarchy.noteNode
  split
  · exact hh.noteClass d.info d.children
  · exact hh

theorem paramsAt_noteNode (d : Ast) (name method : String) :
    (noteNode h d).paramsAt name method =
      if declares d name then
        (lastParams (virtualsNamed method d.children)).or (h.paramsAt name method)
      else h.paramsAt name method := by
  rcases noteNode_cases h d with ⟨heq, hnone⟩ | ⟨heq, hdeclares⟩
  · simp [heq, hnone name]
  · have hplaced : (h.placed d.info).paramsAt name method = h.paramsAt name method :=
      (paramsAt_adjust _ d.info.name (by intro; rfl) name method).trans (paramsAt_ensure h _ _ _)
    rw [heq, paramsAt_noteVirtuals _ (Unresolved.noteBases (hh.placed d.info) d.children),
      paramsAt_noteBases, hplaced]
    simp only [hdeclares]

theorem mem_bases_noteNode (d : Ast) (name base : String) :
    base ∈ (noteNode h d).related (·.bases) name ↔
      base ∈ h.related (·.bases) name ∨
        declares d name = true ∧ ∃ child ∈ d.children, NamesBase child base := by
  rcases noteNode_cases h d with ⟨heq, hnone⟩ | ⟨heq, hdeclares⟩
  · simp [heq, hnone name]
  · have hplaced : (h.placed d.info).related (·.bases) name = h.related (·.bases) name :=
      (related_adjust _ d.info.name _ (·.bases) (by intro; rfl) name).trans
        (related_ensure h _ _ rfl name)
    rw [heq, related_noteVirtuals, mem_bases_noteBases _ (hh.placed d.info), hdeclares, hplaced]

theorem paramsAt_foldl_noteNode (name method : String) :
    (nodes.foldl noteNode h).paramsAt name method =
      (lastParams ((nodes.filter (declares · name)).flatMap fun d =>
        virtualsNamed method d.children)).or (h.paramsAt name method) := by
  induction nodes generalizing h with
  | nil => rfl
  | cons d rest ih =>
    rw [foldl_cons, ih (hh.noteNode d), paramsAt_noteNode hh]
    cases hdeclares : declares d name with
    | false => rw [filter_cons_of_neg (by simp [hdeclares]), if_neg (by simp)]
    | true =>
      rw [filter_cons_of_pos (by exact hdeclares), flatMap_cons, lastParams_append, if_pos rfl,
        Option.or_assoc]

theorem mem_bases_foldl_noteNode (name base : String) :
    base ∈ (nodes.foldl noteNode h).related (·.bases) name ↔
      base ∈ h.related (·.bases) name ∨
        ∃ d ∈ nodes, declares d name = true ∧ ∃ child ∈ d.children, NamesBase child base := by
  induction nodes generalizing h with
  | nil => simp
  | cons d rest ih =>
    rw [foldl_cons, ih (hh.noteNode d), mem_bases_noteNode hh, exists_mem_cons_iff, or_assoc]

end

theorem matchesBase_iff (h : ClassHierarchy) (name base method : String) :
    h.matchesBase name base method = true ↔
      ∃ s t, h.paramsAt name method = some s ∧ h.paramsAt base method = some t ∧
        s.length = t.length := by
  unfold matchesBase paramsAt
  cases h.getClass? name <;> cases h.getClass? base <;> simp [ClassNode.sameArity_iff]

/-- A method of a class overrides that of a base exactly when the last overload of the class and
the last overload of the base have the same number of parameters. -/
theorem mem_overriddenAt_ofAst_iff (a : Ast) :
    ∃ h, ofAst a = .ok h ∧ ∀ name method base,
      base ∈ h.overriddenAt name method ↔
        DerivesFrom a name base ∧
          ∃ f g, (overloads a name method).getLast? = some f ∧
            (overloads a base method).getLast? = some g ∧
            f.argTypes.length = g.argTypes.length := by
  have hwalk := unresolved_noteTree a
  have hempty : ({} : ClassHierarchy).Unresolved :=
    ⟨consistent_empty, fun name c hc => by cases hc⟩
  have hparams : ∀ name method,
      (noteTree a {}).paramsAt name method = lastParams (overloads a name method) := by
    intro name method
    rw [noteTree_eq_foldl, paramsAt_foldl_noteNode _ hempty]
    exact Option.or_none
  have hbases : ∀ name base,
      base ∈ (noteTree a {}).related (·.bases) name ↔ DerivesFrom a name base := by
    intro name base
    rw [noteTree_eq_foldl, mem_bases_foldl_noteNode _ hempty]
    simp [related, getClass?, DerivesFrom]
  refine ⟨_, resolve_eq_enterAll hwalk.toConsistent, fun name method base => ?_⟩
  rw [hwalk.mem_overriddenAt_iff, mem_overrideList_iff, hbases, matchesBase_iff, hparams, hparams]
  constructor
  · rintro ⟨hbase, -, s, t, hs, ht, hlength⟩
    obtain ⟨f, hf, rfl⟩ := Option.map_eq_some_iff.1 hs
    obtain ⟨g, hg, rfl⟩ := Option.map_eq_some_iff.1 ht
    exact ⟨hbase, f, g, hf, hg, by simpa using hlength⟩
  · rintro ⟨hbase, f, g, hf, hg, hlength⟩
    have ht : lastParams (overloads a base method) = some (g.argTypes.map Json.str) := by
      rw [lastParams, hg, Option.map_some]
    refine ⟨hbase, ?_, _, _, by rw [lastParams, hf, Option.map_some], ht, by simpa using hlength⟩
    -- what has parameters is a virtual method
    rw [← hparams, paramsAt] at ht
    obtain ⟨c, hc, htypes⟩ := Option.bind_eq_some_iff.1 ht
    rw [mem_related_iff]
    exact ⟨c, hc, ((hwalk.wellFormed base c hc).paramTypes?_isSome_iff method).1 ⟨_, htypes⟩⟩

/-- A base with two overloads of a method, and a class that overrides the first of them. -/
def overloadedBase : Ast :=
  .node { kind := .other "TRANSLATION_UNIT" } [
    .node { kind := .classDecl, name := "B" } [
      .node { kind := .method, name := "f", isVirtual := true, argTypes := ["int"] } [],
      .node { kind := .method, name := "f", isVirtual := true, argTypes := ["int", "int"] } []],
    .node { kind := .classDecl, name := "C" } [
      .node { kind := .baseSpecifier, definition := some "B" } [],
      .node { kind := .method, name := "f", isVirtual := true, argTypes := ["int"] } []]]

/-- An overload of the base that is not its last one is overridden without notice. -/
theorem overriddenAt_hidden_overload :
    DerivesFrom overloadedBase "C" "B" ∧
      (∃ f ∈ overloads overloadedBase "C" "f", ∃ g ∈ overloads overloadedBase "B" "f",
        f.argTypes.length = g.argTypes.length) ∧
      ∃ h, ofAst overloadedBase = .ok h ∧ h.overriddenAt "C" "f" = [] := by
  refine ⟨?_, ?_, ?_⟩
  · exact ⟨_, .tail _ (.tail _ (.tail _ (.tail _ (.head _)))), rfl, _, .head _, rfl, rfl⟩
  · exact ⟨{ kind := .method, name := "f", isVirtual := true, argTypes := ["int"] }, .head _,
      { kind := .method, name := "f", isVirtual := true, argTypes := ["int"] }, .head _, rfl⟩
  · have hnone : (ofAst overloadedBase).toOption.map (·.overriddenAt "C" "f") = some [] := by
      decide +kernel
    cases hh : ofAst overloadedBase with
    | ok h => exact ⟨h, rfl, by simpa [hh, Except.toOption] using hnone⟩
    | error e => simp [hh, Except.toOption] at hnone

end CodeAtlas.ClassHierarchy
