import CodeAtlas.ClassHierarchy.Commands
import CodeAtlas.Proofs.ClassHierarchy.Reach
import CodeAtlas.Proofs.ClassHierarchy.VirtualTable

/-!
# Virtual calls

A virtual call through a class is resolved downwards, by a search among the
derived classes; a table is computed upwards, along the bases.
`virtualTargets_eq_tables` says that the two views agree: the targets of a call
are the classes below that the tables of the classes below name. Both follow
the same relation, since a consistent hierarchy lists bases and derived classes
alike (`mem_below_iff`).

A call of a virtual method stands for calls of all its implementations, and
these are added to the calls of a function. The calls that are added name
methods themselves, which may be virtual, so a second round could add more. It
does not: `mem_expanded_of_mem_targets` follows a call that was added back to
the one that it was added for. A name that was written is read as the class and
the method that it was made of (`splitQualified_append`), if no class has a name
that ends with a colon; and what is below a class below is below the class.
-/

namespace CodeAtlas.ClassHierarchy

open Relation Text List

variable {name b m scope d method : String} {h : ClassHierarchy}

/-- A consistent hierarchy lists each class with its bases, so the search finds exactly the class
and those that derive from it, directly or through others. -/
theorem mem_below_iff (hh : h.Consistent) (name x : String) :
    x ∈ h.below name ↔ ReflTransGen h.IsBase x name := by
  have hswap : Function.swap h.IsBase = h.LeadsTo (·.derived) :=
    funext fun c => funext fun d => propext (hh.base_iff_derived d c)
  rw [(h.searched_below name).1.mem_iff, ← hswap, reflTransGen_swap]

def target? (h : ClassHierarchy) (b m n : String) : Option String :=
  match h.getClass? n with
  | some d =>
    if d.virtuals.contains m && !(d.pureVirtuals.contains m && n == b) then
      some (n ++ "::" ++ m)
    else none
  | none => none

theorem virtualTargets_eq (hm : m ∈ h.related (·.virtuals) b) :
    h.virtualTargets b m =
      if ((h.below b).filterMap (h.target? b m)).isEmpty then [b ++ "::" ++ m]
      else (h.below b).filterMap (h.target? b m) := by
  obtain ⟨c, hc, hmc⟩ := (mem_related_iff _ _ _ _).1 hm
  have hvirtual : (!c.virtuals.contains m) = false := by simpa using hmc
  simp only [virtualTargets, hc, hvirtual, Bool.false_eq_true, if_false]
  rfl

/-- A class from `b` down that has the method, other than `b` itself without a definition. -/
def IsTarget (h : ClassHierarchy) (b m d : String) : Prop :=
  d ∈ h.below b ∧ m ∈ h.related (·.virtuals) d ∧ ¬ (d = b ∧ m ∈ h.related (·.pureVirtuals) b)

theorem target?_eq_some_iff (h : ClassHierarchy) (b m n x : String) :
    h.target? b m n = some x ↔
      (m ∈ h.related (·.virtuals) n ∧ ¬ (n = b ∧ m ∈ h.related (·.pureVirtuals) b)) ∧
        x = n ++ "::" ++ m := by
  unfold target?
  cases hn : h.getClass? n with
  | none => simp [related, hn]
  | some d =>
    by_cases hnb : n = b
    · subst hnb
      simp [related, hn, eq_comm (a := x)]
    · simp [related, hn, hnb, eq_comm (a := x)]

theorem mem_targets_iff (h : ClassHierarchy) (b m x : String) :
    x ∈ (h.below b).filterMap (h.target? b m) ↔ ∃ d, h.IsTarget b m d ∧ x = d ++ "::" ++ m := by
  simp only [mem_filterMap, target?_eq_some_iff, IsTarget, and_assoc]

/-- The targets of a virtual call, or the method of the class itself if there is none. -/
theorem mem_virtualTargets_iff (hm : m ∈ h.related (·.virtuals) b) (x : String) :
    x ∈ h.virtualTargets b m ↔
      (∃ d, h.IsTarget b m d ∧ x = d ++ "::" ++ m) ∨
        (¬ ∃ d, h.IsTarget b m d) ∧ x = b ++ "::" ++ m := by
  rw [virtualTargets_eq hm]
  by_cases hsome : ∃ d, h.IsTarget b m d
  · obtain ⟨d, hd⟩ := hsome
    have hne : (h.below b).filterMap (h.target? b m) ≠ [] :=
      ne_nil_of_mem ((mem_targets_iff h b m (d ++ "::" ++ m)).2 ⟨d, hd, rfl⟩)
    have hsome : ∃ d, h.IsTarget b m d := ⟨d, hd⟩
    rw [if_neg (by simpa using hne), mem_targets_iff]
    simp [hsome]
  · have hnil : (h.below b).filterMap (h.target? b m) = [] := by
      refine eq_nil_iff_forall_not_mem.2 fun x hx => ?_
      obtain ⟨d, hd, _⟩ := (mem_targets_iff h b m x).1 hx
      exact hsome ⟨d, hd⟩
    rw [hnil]
    have hnone : ∀ d, ¬ h.IsTarget b m d := not_exists.1 hsome
    simp [hnone]

theorem Implements.virtual {c : String} (himp : h.Implements m c d) :
    m ∈ h.related (·.virtuals) d := by
  induction himp with
  | here hm => exact hm
  | above _ _ _ ih => exact ih

/-- A class from `b` down that the table of some class from `b` down names for the method, other
than `b` itself without a definition. Before the table of a class is asked for, those of
`queries` are. -/
def IsTableTarget (h : ClassHierarchy) (queries : String → List String) (b m d : String) : Prop :=
  d ∈ h.below b ∧
    (∃ e ∈ h.below b, d ∈ ((h.virtualTable e (h.tablesAfter (queries e))).1.get? m).getD []) ∧
    ¬ (d = b ∧ m ∈ h.related (·.pureVirtuals) b)

theorem isTableTarget_iff (hh : h.Resolved) (hacyclic : h.Acyclic)
    (queries : String → List String) (b m d : String) :
    h.IsTableTarget queries b m d ↔ h.IsTarget b m d := by
  have htable : ∀ e, d ∈ ((h.virtualTable e (h.tablesAfter (queries e))).1.get? m).getD [] ↔
      h.Implements m e d := by
    intro e
    have hshows := virtualTable_shows hh hacyclic e (cacheShows_tablesAfter hh hacyclic (queries e))
    exact hshows.1.mem_iff m d
  simp only [IsTableTarget, IsTarget, htable]
  refine and_congr_right fun hd => and_congr_left fun _ => ?_
  constructor
  · rintro ⟨e, _, himp⟩
    exact himp.virtual
  · intro hm
    exact ⟨d, hd, .here hm⟩

/-- In the hierarchy of a tree without cycles, a call of a virtual method through a class leads to
the classes below that the tables of the classes below name for it, and to the class itself if
there are none. The classes below are all those that derive from the class. -/
theorem virtualTargets_eq_tables (a : Ast) (h : ClassHierarchy) (hofAst : ofAst a = .ok h)
    (hacyclic : h.Acyclic) (queries : String → List String) (b m : String)
    (hm : m ∈ h.related (·.virtuals) b) :
    ((∃ d, h.IsTableTarget queries b m d) → ∀ x, x ∈ h.virtualTargets b m ↔
        ∃ d, h.IsTableTarget queries b m d ∧ x = d ++ "::" ++ m) ∧
      ((¬ ∃ d, h.IsTableTarget queries b m d) → ∀ x, x ∈ h.virtualTargets b m ↔
        x = b ++ "::" ++ m) ∧
      ∀ d, d ∈ h.below b ↔ ReflTransGen h.IsBase d b := by
  obtain ⟨h', hofAst', hh⟩ := ofAst_resolved a
  obtain rfl : h' = h := Except.ok.inj (hofAst'.symm.trans hofAst)
  simp only [isTableTarget_iff hh hacyclic, mem_virtualTargets_iff hm]
  refine ⟨?_, ?_, mem_below_iff hh.toConsistent b⟩
  · intro hsome x
    simp [hsome]
  · intro hnone x
    simp only [not_exists] at hnone
    simp [hnone]

/-- A class without a definition of its method, which two classes below define. -/
def abstractBaseTree : Ast :=
  .node { kind := .other "TRANSLATION_UNIT" }
    [.node { kind := .classDecl, name := "Shape" }
        [.node { kind := .method, name := "area", isVirtual := true, isPure := true } []],
      classTree "Round" ["Shape"] [], classTree "Circle" ["Round"] ["area"],
      classTree "Square" ["Shape"] ["area"]]

/-- The call leads past the class in between to both definitions. -/
theorem virtualTargets_abstractBase :
    ∃ h, ofAst abstractBaseTree = .ok h ∧ h.Acyclic ∧
      (∀ x, x ∈ h.virtualTargets "Shape" "area" ↔
        ∃ d, h.IsTableTarget (fun _ => ["Round"]) "Shape" "area" d ∧ x = d ++ "::" ++ "area") ∧
      h.virtualTargets "Shape" "area" = ["Square::area", "Circle::area"] := by
  have hofAst : ofAst abstractBaseTree = .ok ((ofAst abstractBaseTree).toOption.getD {}) := by rfl
  have hacyclic : ((ofAst abstractBaseTree).toOption.getD {}).Acyclic :=
    acyclic_of_rank (fun c => if c = "Shape" then 0 else if c = "Round" then 1 else 2) (by decide)
  obtain ⟨htables, _⟩ := virtualTargets_eq_tables abstractBaseTree _ hofAst hacyclic
    (fun _ => ["Round"]) "Shape" "area" (by decide)
  have htarget : ((ofAst abstractBaseTree).toOption.getD {}).IsTableTarget (fun _ => ["Round"])
      "Shape" "area" "Circle" := by
    refine ⟨by decide, ⟨"Circle", by decide, by decide⟩, by decide⟩
  exact ⟨_, hofAst, hacyclic, htables ⟨"Circle", htarget⟩, by decide⟩

/-! ### Qualified names -/

theorem toList_colons : "::".toList = [':', ':'] := rfl

theorem exists_split (name : String) : ∃ init last, split name "::" = init ++ [last] :=
  ⟨_, _, (dropLast_append_getLast (cons_ne_nil _ _)).symm⟩

theorem splitQualified_eq {init : List String} {last : String}
    (h : split name "::" = init ++ [last]) :
    splitQualified name = (join "::" init, last) := by
  simp [splitQualified, h]

theorem not_infix_of_mem_split {part : String} (h : part ∈ split name "::") :
    ¬ [':', ':'] <:+: part.toList := by
  rw [split, toList_colons] at h
  obtain ⟨piece, hpiece, rfl⟩ := mem_map.1 h
  rw [String.toList_ofList]
  exact not_infix_of_mem_splitList (cons_ne_nil _ _) hpiece

theorem splitQualified_spells (hsplit : splitQualified name = (scope, method)) :
    (¬ [':', ':'] <:+: method.toList) ∧
      (occursIn "::" name = true → name = scope ++ "::" ++ method) := by
  obtain ⟨init, last, hparts⟩ := exists_split name
  rw [splitQualified_eq hparts, Prod.mk.injEq] at hsplit
  obtain ⟨rfl, rfl⟩ := hsplit
  have hmem : last ∈ split name "::" := by simp [hparts]
  have hlast := not_infix_of_mem_split hmem
  refine ⟨hlast, fun hscope => ?_⟩
  have hjoin : join "::" (init ++ [last]) = name := by
    rw [← hparts]
    exact join_split_of_ne name (by simp)
  cases init with
  | nil =>
    -- the only part would be the name, which has a scope
    have hname : last = name := by simpa [join] using hjoin
    rw [occursIn_iff, toList_colons, ← hname] at hscope
    exact absurd hscope hlast
  | cons part parts => rw [← hjoin, join_concat]

/-- A name that is made of a scope and a last part is read as these, if the scope does not end with
a colon. -/
theorem splitQualified_append (hscope : endsWith scope ":" = false)
    (hmethod : ¬ [':', ':'] <:+: method.toList) :
    splitQualified (scope ++ "::" ++ method) = (scope, method) := by
  have hlast : scope.toList.getLast? ≠ some ':' := by
    intro hlast
    have hends : endsWith scope ":" = true := by
      rw [endsWith_iff]
      exact getLast?_eq_some_iff.1 hlast |>.imp fun _ h => h.symm
    rw [hends] at hscope
    cases hscope
  have hparts : split (scope ++ "::" ++ method) "::" = split scope "::" ++ [method] := by
    rw [split, String.toList_append, String.toList_append, toList_colons,
      splitList_append_double hlast, splitList_of_not_infix hmethod, map_append,
      split, toList_colons]
    simp
  rw [splitQualified_eq hparts, join_split_of_ne scope (by simp)]

/-! ### One round -/

/-- The call names a virtual method of a class. -/
structure IsVirtualCall (h : ClassHierarchy) (called scope method : String) : Prop where
  qualified : occursIn "::" called = true
  parts : splitQualified called = (scope, method)
  virtual : method ∈ h.related (·.virtuals) scope

theorem mem_expandCall (h : ClassHierarchy) (acc : List String) (called x : String) :
    x ∈ h.expandCall acc called ↔ x ∈ acc ∨ x = called ∨
      ∃ scope method, h.IsVirtualCall called scope method ∧ x ∈ h.virtualTargets scope method := by
  unfold expandCall
  obtain ⟨scope, method, hparts⟩ : ∃ scope method, splitQualified called = (scope, method) :=
    ⟨_, _, rfl⟩
  simp only [hparts]
  by_cases hvirtual :
      (occursIn "::" called && (h.related (·.virtuals) scope).contains method) = true
  · have hcall : h.IsVirtualCall called scope method := by
      simp only [Bool.and_eq_true, contains_iff_mem] at hvirtual
      exact ⟨hvirtual.1, hparts, hvirtual.2⟩
    rw [if_pos hvirtual, mem_addNew, mem_addAllNew, mem_filter]
    constructor
    · rintro ((hx | ⟨hx, _⟩) | hx)
      · exact .inl hx
      · exact .inr (.inr ⟨scope, method, hcall, hx⟩)
      · exact .inr (.inl hx)
    · rintro (hx | hx | ⟨scope', method', hcall', hx⟩)
      · exact .inl (.inl hx)
      · exact .inr hx
      · cases hparts.symm.trans hcall'.parts
        by_cases hself : x = called
        · exact .inr hself
        · exact .inl (.inr ⟨hx, by simpa using hself⟩)
  · have hcall : ∀ scope' method', ¬ h.IsVirtualCall called scope' method' := by
      intro scope' method' hcall
      cases hparts.symm.trans hcall.parts
      exact hvirtual (by simp [hcall.qualified, hcall.virtual])
    rw [if_neg hvirtual, mem_addNew]
    simp [hcall]

theorem nodup_expandCall (h : ClassHierarchy) {acc : List String} (hacc : acc.Nodup)
    (called : String) : (h.expandCall acc called).Nodup := by
  unfold expandCall
  refine nodup_addNew ?_ called
  split
  · exact nodup_addAllNew hacc _
  · exact hacc

/-- The function has, each once, its calls and the implementations of those that are virtual, and
is otherwise as it was. -/
structure Expanded (h : ClassHierarchy) (f f' : Function) : Prop where
  nodup : f'.calls.Nodup
  mem_calls : ∀ x, x ∈ f'.calls ↔ x ∈ f.calls ∨ ∃ called ∈ f.calls, ∃ scope method,
    h.IsVirtualCall called scope method ∧ x ∈ h.virtualTargets scope method
  same : f' = { f with calls := f'.calls }

theorem mem_foldl_expandCall (h : ClassHierarchy) (calls acc : List String) (x : String) :
    x ∈ calls.foldl h.expandCall acc ↔ x ∈ acc ∨ x ∈ calls ∨ ∃ called ∈ calls, ∃ scope method,
      h.IsVirtualCall called scope method ∧ x ∈ h.virtualTargets scope method := by
  induction calls generalizing acc with
  | nil => simp
  | cons called rest ih =>
    rw [foldl_cons, ih, mem_expandCall, mem_cons, exists_mem_cons_iff, or_assoc, or_or_or_comm]

theorem expanded_foldl (h : ClassHierarchy) (f : Function) :
    h.Expanded f { f with calls := f.calls.foldl h.expandCall [] } where
  nodup := foldlRecOn f.calls h.expandCall nodup_nil (motive := List.Nodup)
    fun _ hacc called _ => h.nodup_expandCall hacc called
  mem_calls x := by simp [mem_foldl_expandCall]
  same := rfl

/-! ### Two rounds -/

theorem below_trans {c : String} (hc : c ∈ h.below b) (hd : d ∈ h.below c) : d ∈ h.below b := by
  rw [(h.searched_below _).1.mem_iff] at hc hd ⊢
  exact hc.trans hd

theorem mem_targets_of_mem_targets {x : String} (hm : m ∈ h.related (·.virtuals) b)
    (hd : h.IsTarget b m d) (hx : x ∈ h.virtualTargets d m) :
    x ∈ h.virtualTargets b m ∨ x = b ++ "::" ++ m := by
  rcases (mem_virtualTargets_iff hd.2.1 x).1 hx with ⟨e, he, rfl⟩ | ⟨_, rfl⟩
  · by_cases habstract : e = b ∧ m ∈ h.related (·.pureVirtuals) b
    · exact .inr (by rw [habstract.1])
    · refine .inl ((mem_virtualTargets_iff hm _).2 (.inl ⟨e, ?_, rfl⟩))
      exact ⟨below_trans hd.1 he.1, he.2.1, habstract⟩
  · exact .inl ((mem_virtualTargets_iff hm _).2 (.inl ⟨d, hd, rfl⟩))

theorem mem_expanded_of_mem_targets (hnames : ∀ name ∈ h.classes.keys, endsWith name ":" = false)
    {f f' : Function} (hf : h.Expanded f f') {called x : String} (hcalled : called ∈ f'.calls)
    (hcall : h.IsVirtualCall called scope method) (hx : x ∈ h.virtualTargets scope method) :
    x ∈ f'.calls := by
  rcases (hf.mem_calls called).1 hcalled with hold | ⟨first, hfirst, b, m, hvirtual, htarget⟩
  · exact (hf.mem_calls x).2 (.inr ⟨called, hold, scope, method, hcall, hx⟩)
  · obtain ⟨hmethod, hspells⟩ := splitQualified_spells hvirtual.parts
    have hname := hspells hvirtual.qualified
    have hall : ∀ y, y ∈ h.virtualTargets b m ∨ y = b ++ "::" ++ m → y ∈ f'.calls := by
      rintro y (hy | rfl)
      · exact (hf.mem_calls y).2 (.inr ⟨first, hfirst, b, m, hvirtual, hy⟩)
      · exact (hf.mem_calls _).2 (.inl (hname ▸ hfirst))
    rcases (mem_virtualTargets_iff hvirtual.virtual called).1 htarget with
      ⟨d, hd, hmade⟩ | ⟨_, hmade⟩
    · have hknown : d ∈ h.classes.keys := LeadsTo.mem_keys hd.2.1
      have hread := splitQualified_append (hnames d hknown) hmethod
      rw [← hmade] at hread
      cases hread.symm.trans hcall.parts
      exact hall x (mem_targets_of_mem_targets hvirtual.virtual hd hx)
    · -- the call that was added is the first one
      rw [← hname] at hmade
      subst hmade
      cases hvirtual.parts.symm.trans hcall.parts
      exact hall x (.inl hx)

/-- If no class has a name that ends with a colon, each function gets, once each, its calls and
the implementations of those that are virtual, and is otherwise as it was. A second round leaves
the calls of every function the same as a set. -/
theorem expandCalls_expandCalls (h : ClassHierarchy)
    (hnames : ∀ name ∈ h.classes.keys, endsWith name ":" = false) (fs : Functions) :
    Dict.Related h.Expanded fs (h.expandCalls fs) ∧
      Dict.Related (fun f f' => ∀ x, x ∈ f'.calls ↔ x ∈ f.calls) (h.expandCalls fs)
        (h.expandCalls (h.expandCalls fs)) := by
  constructor
  · refine forall₂_map_right_iff.2 (forall₂_same.2 ?_)
    rintro ⟨key, f⟩ _
    exact ⟨rfl, h.expanded_foldl f⟩
  · refine forall₂_map_right_iff.2 (forall₂_same.2 ?_)
    intro entry hentry
    obtain ⟨⟨key, f⟩, _, rfl⟩ := mem_map.1 hentry
    have hfirst := h.expanded_foldl f
    refine ⟨rfl, fun x => ?_⟩
    rw [(h.expanded_foldl _).mem_calls]
    constructor
    · rintro (hx | ⟨called, hcalled, scope, method, hcall, hx⟩)
      · exact hx
      · exact mem_expanded_of_mem_targets hnames hfirst hcalled hcall hx
    · exact .inl

/-- A class without a definition of its method, with two classes below that define it. -/
def shapeHierarchy : ClassHierarchy where
  classes := [
    ("gfx::Shape", { name := "gfx::Shape", derived := ["gfx::Round"], virtuals := ["area"],
                     pureVirtuals := ["area"] }),
    ("gfx::Round", { name := "gfx::Round", derived := ["gfx::Circle"], virtuals := ["area"] }),
    ("gfx::Circle", { name := "gfx::Circle", virtuals := ["area"] })]

/-- A function that calls the method twice, and another function. -/
def shapeFunctions : Functions :=
  [("total", { name := "total", calls := ["gfx::Shape::area", "add", "gfx::Shape::area"] })]

/-- Both definitions are added, in the second round nothing. -/
theorem expandCalls_shapeFunctions :
    (shapeHierarchy.expandCalls shapeFunctions).map (·.2.calls) =
        [["gfx::Round::area", "gfx::Circle::area", "gfx::Shape::area", "add"]] ∧
      Dict.Related shapeHierarchy.Expanded shapeFunctions
        (shapeHierarchy.expandCalls shapeFunctions) ∧
      Dict.Related (fun f f' => ∀ x, x ∈ f'.calls ↔ x ∈ f.calls)
        (shapeHierarchy.expandCalls shapeFunctions)
        (shapeHierarchy.expandCalls (shapeHierarchy.expandCalls shapeFunctions)) :=
  ⟨by decide, expandCalls_expandCalls shapeHierarchy (by decide) shapeFunctions⟩

end CodeAtlas.ClassHierarchy
