import CodeAtlas.Diagram.Relations
import CodeAtlas.Proofs.Dict
import CodeAtlas.Proofs.Fault

/-!
# The graph of relations

The rows of the database that name their functions and scopes by texts become a graph of the
relations kept, where a relation of a function to itself is kept only if the function is marked as
recursive. The graph has the ends of these relations as its nodes, each with the scope that is told
first, and their pairs as its arrows, each with the kind that is told last. As long as the colours
last, two nodes share a colour exactly if they share a scope (`relationGraph_of_tells`).

Of the library that keeps the graph no more is used than its laws (`GraphLibrary.Lawful`), which do
not say in what order it gives nodes and arrows. Up to that order the graph and the table of colours
are functions of the relations kept so far (`nodesOf`, `arrowsOf`, `tableOf`), so that one row adds
one relation at the end of that list.
-/

namespace CodeAtlas

open List

/-! ### Libraries of graphs -/

section

variable {ν ε : Type}

/-- The laws of a library of directed graphs, for nodes named by texts: a node or an arrow is there
once, and an arrow that is added again changes its attributes. -/
structure GraphLibrary.Lawful (L : GraphLibrary ν ε) : Prop where
  nodes_empty : L.nodes L.empty = []
  arrows_empty : L.arrows L.empty = []
  has_iff (g : L.Graph) (a : String) : L.has g (.str a) = true ↔ ∃ v, (.str a, v) ∈ L.nodes g
  nodes_addNode {g : L.Graph} {a : String} (h : L.has g (.str a) = false) (v : ν) :
    L.nodes (L.addNode g (.str a) v) ~ (.str a, v) :: L.nodes g
  arrows_addNode (g : L.Graph) (a : String) (v : ν) :
    L.arrows (L.addNode g (.str a) v) ~ L.arrows g
  nodes_changeNode (g : L.Graph) (a : String) (f : ν → ν) :
    L.nodes (L.changeNode g (.str a) f) ~
      (L.nodes g).map fun p => if p.1 == .str a then (p.1, f p.2) else p
  arrows_changeNode (g : L.Graph) (a : String) (f : ν → ν) :
    L.arrows (L.changeNode g (.str a) f) ~ L.arrows g
  nodes_addArrow {g : L.Graph} {a b : String} (ha : L.has g (.str a) = true)
    (hb : L.has g (.str b) = true) (e : ε) :
    L.nodes (L.addArrow g (.str a) (.str b) e) ~ L.nodes g
  arrows_addArrow (g : L.Graph) (a b : String) (e : ε) :
    L.arrows (L.addArrow g (.str a) (.str b) e) ~
      if (L.arrows g).any (·.joins (.str a) (.str b)) then
        (L.arrows g).map fun r =>
          if r.joins (.str a) (.str b) then { r with attributes := e } else r
      else ⟨.str a, .str b, e⟩ :: L.arrows g

theorem Json.str_beq (a b : String) : (Json.str a == .str b) = (a == b) := rfl

theorem Json.eq_str_of_beq {j : Json} {a : String} (h : (j == .str a) = true) : j = .str a := by
  cases j with
  | str b => exact congrArg Json.str (beq_iff_eq.1 h)
  | _ => cases h

theorem Digraph.arrowsByNode_perm (g : Digraph Json ν ε) : g.arrowsByNode ~ g.arrows :=
  mergeSort_perm ..

theorem Digraph.lawful_library : (library ν ε).Lawful where
  nodes_empty := rfl
  arrows_empty := perm_nil.1 (arrowsByNode_perm {})
  has_iff g a := by
    refine any_eq_true.trans ⟨?_, ?_⟩
    · rintro ⟨⟨b, v⟩, hv, hb⟩
      exact ⟨v, Json.eq_str_of_beq hb ▸ hv⟩
    · rintro ⟨v, hv⟩
      exact ⟨_, hv, beq_self_eq_true a⟩
  nodes_addNode {g a} h v := by
    have hnodes : (addNode g (.str a) fun _ => v).nodes = g.nodes ++ [(.str a, v)] :=
      congrArg Digraph.nodes (if_neg (Bool.eq_false_iff.1 h))
    exact (Perm.of_eq hnodes).trans (perm_append_singleton ..)
  arrows_addNode g a v := by
    have harrows : (addNode g (.str a) fun _ => v).arrows = g.arrows := by
      unfold addNode changeNode
      split <;> rfl
    exact (arrowsByNode_perm _).trans (harrows ▸ (arrowsByNode_perm g).symm)
  nodes_changeNode _ _ _ := .rfl
  arrows_changeNode g _ _ := (arrowsByNode_perm _).trans (arrowsByNode_perm g).symm
  nodes_addArrow {g a b} _ _ e := by
    have hnodes : (addArrow g (.str a) (.str b) e).nodes = g.nodes := by
      unfold addArrow
      split <;> rfl
    exact .of_eq hnodes
  arrows_addArrow g a b e := by
    have hperm := arrowsByNode_perm g
    have hany : g.arrowsByNode.any (·.joins (.str a) (.str b)) =
        g.arrows.any (·.joins (.str a) (.str b)) := hperm.any_eq
    refine (arrowsByNode_perm _).trans ?_
    change (addArrow g (.str a) (.str b) e).arrows ~ if g.arrowsByNode.any _ = true then _ else _
    rw [hany]
    unfold addArrow
    split
    · exact (hperm.map _).symm
    · exact (perm_append_singleton ..).trans (hperm.symm.cons _)

end

namespace Diagram

open Text Dict

structure Relation where
  caller : String
  callee : String
  callerScope : String
  calleeScope : String
  kind : Json

namespace Relation

def isKept (r : Relation) : Bool := r.caller != r.callee || endsWith r.caller "(recursive)"

def ends (r : Relation) : Dict String :=
  [(r.caller, r.callerScope), (r.callee, r.calleeScope)]

def arrow (r : Relation) : (String × String) × Json := ((r.caller, r.callee), r.kind)

end Relation

/-- The row tells the relation; what it leaves out has its default. -/
structure Tells (row : Row) (r : Relation) : Prop where
  caller : field row "caller" (.str "") = .str r.caller
  callee : field row "callee" (.str "") = .str r.callee
  callerScope : field row "caller_namespace" (.str "") = .str r.callerScope
  calleeScope : field row "callee_namespace" (.str "") = .str r.calleeScope
  kind : field row "relationship_type" (.str "CALLS") = r.kind

/-! ### Nodes, arrows and colours from what was told -/

/-- The scope that is told first. -/
def scopeIn (ends : Dict String) (name : String) : String := (ends.get? name).getD ""

/-- The nodes of the names told, in the colours `paint`. -/
def nodesOf (ends : Dict String) (paint : String → Option String := fun _ => none) :
    List (Json × RelationNode) :=
  ends.keys.eraseDups.map fun name => (.str name, ⟨.str (scopeIn ends name), paint name⟩)

def arrowsOf (told : List ((String × String) × Json)) : List (Arrow Json Json) :=
  (told.map (·.1)).eraseDups.map fun pair =>
    ⟨.str pair.1, .str pair.2, (told.reverse.lookup pair).getD .null⟩

def scopesOf (ends : Dict String) : List String := (ends.values.filter (· ≠ "")).eraseDups

def colourAt (n : Nat) : String := relationColours.getD (n % relationColours.length) plainColour

def tableOf (scopes : List String) : ScopeColours :=
  scopes.zipIdx.map fun (scope, n) => (.str scope, colourAt n)

theorem any_fst {β : Type} {l : List (Json × β)} {names : List String}
    (h : l.map (·.1) = names.map .str) (name : String) :
    l.any (·.1 == .str name) = names.contains name := by
  have hany : l.any (·.1 == .str name) = (l.map (·.1)).any (· == .str name) := by
    rw [any_map]
    rfl
  rw [hany, h, any_map, Bool.eq_iff_iff]
  simp [Json.str_beq, Function.comp_def]

/-- A name told again changes nothing. -/
theorem nodesOf_concat (ends : Dict String) (name scope : String) :
    nodesOf (ends ++ [(name, scope)]) =
      if name ∈ ends.keys then nodesOf ends
      else nodesOf ends ++ [(.str name, { scope := .str scope })] := by
  have hkeys : Dict.keys (ends ++ [(name, scope)]) = ends.keys ++ [name] := map_append
  have hold : ∀ n ∈ ends.keys.eraseDups, Dict.get? (ends ++ [(name, scope)]) n = ends.get? n := by
    intro n hn
    obtain ⟨v, hv⟩ := (mem_keys_iff ends n).1 (mem_eraseDups.1 hn)
    rw [get?_append, hv, Option.some_or]
  unfold nodesOf scopeIn
  rw [hkeys, eraseDups_concat]
  split_ifs with hname
  · exact map_congr_left fun n hn => by rw [hold n hn]
  · have hnone : ends.get? name = none := by
      rwa [mem_keys_iff, not_exists, ← Option.eq_none_iff_forall_ne_some] at hname
    rw [map_append, map_congr_left fun n hn => by rw [hold n hn]]
    simp [get?_append, hnone, get?_cons]

theorem mem_nodesOf (ends : Dict String) (name : String) :
    (∃ v, (.str name, v) ∈ nodesOf ends) ↔ name ∈ ends.keys := by
  simp [nodesOf]

theorem joins_str (p pair : String × String) (kind : Json) :
    (⟨.str p.1, .str p.2, kind⟩ : Arrow Json Json).joins (.str pair.1) (.str pair.2) =
      (p == pair) := rfl

/-- A pair told again has its new kind. -/
theorem arrowsOf_concat (told : List ((String × String) × Json)) (pair : String × String)
    (kind : Json) :
    arrowsOf (told ++ [(pair, kind)]) =
      if pair ∈ told.map (·.1) then
        (arrowsOf told).map fun a =>
          if a.joins (.str pair.1) (.str pair.2) then { a with attributes := kind } else a
      else arrowsOf told ++ [⟨.str pair.1, .str pair.2, kind⟩] := by
  have hlast : ∀ p, (told ++ [(pair, kind)]).reverse.lookup p =
      if p == pair then some kind else told.reverse.lookup p := by
    intro p
    rw [reverse_append, reverse_singleton, singleton_append, lookup_cons]
    cases p == pair <;> rfl
  unfold arrowsOf
  rw [map_append, map_singleton, eraseDups_concat]
  split_ifs with hnew
  · rw [map_map]
    refine map_congr_left fun p _ => ?_
    rw [Function.comp_apply, hlast, joins_str]
    by_cases hp : p = pair <;> simp [hp]
  · rw [map_append, map_singleton, hlast, beq_self_eq_true, if_pos rfl]
    congr 1
    refine map_congr_left fun p hp => ?_
    have hne : p ≠ pair := fun h => hnew (h ▸ mem_eraseDups.1 hp)
    rw [hlast, beq_false_of_ne hne, if_neg Bool.false_ne_true]

theorem any_joins_arrowsOf (told : List ((String × String) × Json)) (caller callee : String) :
    (arrowsOf told).any (·.joins (.str caller) (.str callee)) =
      (told.map (·.1)).contains (caller, callee) := by
  have hjoins := fun p => joins_str p (caller, callee)
  rw [arrowsOf, any_map, Bool.eq_iff_iff]
  simp only [Function.comp_def, hjoins, any_eq_true, beq_iff_eq, exists_eq_right, mem_eraseDups,
    contains_iff_mem]

theorem tableOf_concat (scopes : List String) (scope : String) :
    tableOf (scopes ++ [scope]) = tableOf scopes ++ [(.str scope, colourAt scopes.length)] := by
  simp [tableOf, zipIdx_append]

theorem giveColour_tableOf (ends : Dict String) (name scope : String) :
    giveColour relationColours (tableOf (scopesOf ends)) (.str scope) =
      .ok (tableOf (scopesOf (ends ++ [(name, scope)]))) := by
  have hvalues : Dict.values (ends ++ [(name, scope)]) = ends.values ++ [scope] := map_append
  have hscopes : scopesOf (ends ++ [(name, scope)]) =
      if scope = "" ∨ scope ∈ scopesOf ends then scopesOf ends else scopesOf ends ++ [scope] := by
    unfold scopesOf
    rw [hvalues, filter_append]
    by_cases hscope : scope = ""
    · simp [hscope]
    · rw [filter_cons_of_pos (by simpa using hscope), filter_nil, eraseDups_concat]
      simp [hscope]
  have hnames : (tableOf (scopesOf ends)).map (·.1) = (scopesOf ends).map .str := by
    rw [tableOf, map_map]
    exact (map_map (f := Prod.fst)).symm.trans (congrArg (map _) (zipIdx_map_fst ..))
  rw [hscopes]
  by_cases hempty : scope = ""
  · rw [if_pos (.inl hempty), hempty]
    rfl
  · have htruthy : (Json.str scope).truthy = true := by simpa [Json.truthy] using hempty
    have hlength : (tableOf (scopesOf ends)).length = (scopesOf ends).length := by simp [tableOf]
    rw [giveColour, if_pos htruthy, any_fst hnames, hlength]
    by_cases hmem : scope ∈ scopesOf ends
    · rw [if_pos (contains_iff_mem.2 hmem), if_pos (.inr hmem)]
      rfl
    · rw [if_neg (mt contains_iff_mem.1 hmem), if_neg (not_or.2 ⟨hempty, hmem⟩), tableOf_concat]
      rfl

/-! ### One row and all rows -/

/-- The graph has these nodes and these arrows, in some order. -/
structure Shows (L : RelationLibrary) (ends : Dict String) (told : List ((String × String) × Json))
    (g : L.Graph) (paint : String → Option String := fun _ => none) : Prop where
  nodes : L.nodes g ~ nodesOf ends paint
  arrows : L.arrows g ~ arrowsOf told

variable {L : RelationLibrary} (hL : L.Lawful) {g : L.Graph} {ends : Dict String}
  {told : List ((String × String) × Json)} {row : Row} {r : Relation}

section

include hL

theorem Shows.has_iff (h : Shows L ends told g) (name : String) :
    L.has g (.str name) = true ↔ name ∈ ends.keys := by
  rw [hL.has_iff, ← mem_nodesOf]
  exact exists_congr fun _ => h.nodes.mem_iff

theorem addOnce_shows (h : Shows L ends told g) (name scope : String) :
    ∃ g', addOnce L g (.str name) (.str scope) = .ok g' ∧
      Shows L (ends ++ [(name, scope)]) told g' := by
  have hconcat := nodesOf_concat ends name scope
  unfold addOnce
  by_cases hname : name ∈ ends.keys
  · rw [if_pos ((h.has_iff hL name).2 hname)]
    rw [if_pos hname] at hconcat
    exact ⟨g, rfl, hconcat ▸ h.nodes, h.arrows⟩
  · have hnew := Bool.eq_false_iff.2 (mt (h.has_iff hL name).1 hname)
    rw [hnew]
    rw [if_neg hname] at hconcat
    refine ⟨_, rfl, ?_, (hL.arrows_addNode ..).trans h.arrows⟩
    rw [hconcat]
    exact (hL.nodes_addNode hnew _).trans ((h.nodes.cons _).trans (perm_append_singleton ..).symm)

theorem addArrow_shows (h : Shows L ends told g) (caller callee : String)
    (hcaller : caller ∈ ends.keys) (hcallee : callee ∈ ends.keys) (kind : Json) :
    Shows L ends (told ++ [((caller, callee), kind)])
      (L.addArrow g (.str caller) (.str callee) kind) where
  nodes := (hL.nodes_addArrow ((h.has_iff hL _).2 hcaller) ((h.has_iff hL _).2 hcallee) _).trans
    h.nodes
  arrows := by
    have hany : (L.arrows g).any (·.joins (.str caller) (.str callee)) =
        (told.map (·.1)).contains (caller, callee) :=
      h.arrows.any_eq.trans (any_joins_arrowsOf told caller callee)
    refine (hL.arrows_addArrow ..).trans ?_
    rw [hany, arrowsOf_concat]
    simp only [contains_iff_mem]
    split
    · exact h.arrows.map _
    · exact (h.arrows.cons _).trans (perm_append_singleton ..).symm

/-- The graph after these relations. -/
def ShowsKept (L : RelationLibrary) (kept : List Relation) (g : L.Graph) : Prop :=
  Shows L (kept.flatMap Relation.ends) (kept.map Relation.arrow) g

/-- The table of colours after these relations. -/
def coloursOf (coloured : Bool) (kept : List Relation) : ScopeColours :=
  if coloured then tableOf (scopesOf (kept.flatMap Relation.ends)) else []

theorem addRelation_shows (h : Tells row r) (coloured : Bool) {kept : List Relation}
    (hg : ShowsKept L kept g) :
    ∃ g', addRelation L coloured (g, coloursOf coloured kept) row =
        .ok (g', coloursOf coloured (kept ++ [r].filter Relation.isKept)) ∧
      ShowsKept L (kept ++ [r].filter Relation.isKept) g' := by
  have hends : (kept ++ [r]).flatMap Relation.ends =
      kept.flatMap Relation.ends ++ [(r.caller, r.callerScope)] ++ [(r.callee, r.calleeScope)] := by
    simp [Relation.ends]
  have harrows : (kept ++ [r]).map Relation.arrow =
      kept.map Relation.arrow ++ [((r.caller, r.callee), r.kind)] := map_append
  have hdropped : ((r.caller == r.callee) = true ∧ (!endsWith r.caller "(recursive)") = true) ↔
      r.isKept = false := by
    simp [Relation.isKept]
  unfold addRelation
  simp only [h.caller, h.callee, h.callerScope, h.calleeScope, h.kind, Json.str_beq,
    Json.textFor, bind, Except.bind]
  rw [← ite_and]
  cases hkept : r.isKept with
  | false =>
    rw [if_pos (hdropped.2 hkept), filter_cons_of_neg (by simp [hkept]), filter_nil, append_nil]
    exact ⟨g, rfl, hg⟩
  | true =>
    obtain ⟨g₁, hfirst, hg₁⟩ := addOnce_shows hL hg r.caller r.callerScope
    obtain ⟨g₂, hsecond, hg₂⟩ := addOnce_shows hL hg₁ r.callee r.calleeScope
    have hg₃ := addArrow_shows hL hg₂ r.caller r.callee (by simp [Dict.keys]) (by simp [Dict.keys])
      r.kind
    rw [if_neg (mt hdropped.1 (by simp [hkept])), filter_cons_of_pos hkept, filter_nil, hfirst]
    dsimp only
    rw [hsecond]
    refine ⟨L.addArrow g₂ (.str r.caller) (.str r.callee) r.kind, ?_, ?_⟩
    · unfold coloursOf
      rw [hends]
      cases coloured with
      | false => rfl
      | true =>
        simp only [if_true]
        rw [giveColour_tableOf _ r.caller]
        dsimp only
        rw [giveColour_tableOf _ r.callee]
        rfl
    · rw [ShowsKept, hends, harrows]
      exact hg₃

theorem foldlM_addRelation {rows : List Row} {rs : List Relation} (h : Forall₂ Tells rows rs)
    (coloured : Bool) {kept : List Relation} (hg : ShowsKept L kept g) :
    ∃ g', rows.foldlM (addRelation L coloured) (g, coloursOf coloured kept) =
        .ok (g', coloursOf coloured (kept ++ rs.filter Relation.isKept)) ∧
      ShowsKept L (kept ++ rs.filter Relation.isKept) g' := by
  induction h generalizing g kept with
  | nil => exact ⟨g, by rw [filter_nil, append_nil]; rfl, by rwa [filter_nil, append_nil]⟩
  | @cons row r rows rs hrow hrest ih =>
    have hfilter : (r :: rs).filter Relation.isKept =
        [r].filter Relation.isKept ++ rs.filter Relation.isKept := filter_append [r] rs
    obtain ⟨g₁, hrun, hg₁⟩ := addRelation_shows hL hrow coloured hg
    rw [foldlM_cons, hrun, hfilter, ← append_assoc]
    exact ih hg₁

end

/-! ### Colours -/

theorem find?_tableOf (scopes : List String) (scope : String) :
    (tableOf scopes).find? (·.1 == .str scope) =
      if scope ∈ scopes then some (.str scope, colourAt (scopes.idxOf scope)) else none := by
  induction scopes using reverseRecOn with
  | nil => rfl
  | append_singleton l x ih =>
    rw [tableOf_concat, find?_append, ih]
    by_cases hl : scope ∈ l
    · simp [hl, idxOf_append_of_mem hl]
    · rw [if_neg hl, Option.none_or, find?_singleton, Json.str_beq, idxOf_append_of_notMem hl]
      by_cases hx : x = scope
      · simp [hx]
      · simp [hl, hx, Ne.symm hx]

def paint (scopes : List String) (scope : String) : String :=
  (((tableOf scopes).find? (·.1 == .str scope)).map (·.2)).getD plainColour

theorem paint_eq (scopes : List String) (scope : String) : paint scopes scope =
    if scope ∈ scopes then colourAt (scopes.idxOf scope) else plainColour := by
  rw [paint, find?_tableOf]
  split <;> rfl

theorem colourAt_inj : ∀ n < 15, colourAt n ≠ plainColour ∧
    ∀ m < 15, colourAt n = colourAt m → n = m := by
  decide +kernel

theorem paint_eq_iff {scopes : List String} (hlength : scopes.length ≤ 15) {a b : String}
    (ha : a = "" ∨ a ∈ scopes) (hb : b = "" ∨ b ∈ scopes) (hempty : "" ∉ scopes) :
    paint scopes a = paint scopes b ↔ a = b := by
  have hlast : ∀ {s}, s ∈ scopes → scopes.idxOf s < 15 := fun hs =>
    Nat.lt_of_lt_of_le (idxOf_lt_length_iff.2 hs) hlength
  refine ⟨fun heq => ?_, congrArg _⟩
  rw [paint_eq, paint_eq] at heq
  rcases ha with rfl | ha <;> rcases hb with rfl | hb
  · rfl
  · rw [if_neg hempty, if_pos hb] at heq
    exact absurd heq.symm (colourAt_inj _ (hlast hb)).1
  · rw [if_neg hempty, if_pos ha] at heq
    exact absurd heq (colourAt_inj _ (hlast ha)).1
  · rw [if_pos ha, if_pos hb] at heq
    exact (idxOf_inj ha).1 ((colourAt_inj _ (hlast ha)).2 _ (hlast hb) heq)

section

include hL

theorem colourNode_shows {paint : String → Option String} (h : Shows L ends told g paint)
    (scopes : List String) (node : Json × RelationNode) (name : String)
    (hnode : node.1 = .str name) (hscope : node.2.scope = .str (scopeIn ends name)) :
    ∃ g', colourNode L (tableOf scopes) g node = .ok g' ∧
      Shows L ends told g'
        (Function.update paint name (some (Diagram.paint scopes (scopeIn ends name)))) := by
  unfold colourNode colourOf?
  rw [hnode, hscope]
  refine ⟨_, rfl, (hL.nodes_changeNode ..).trans ((h.nodes.map _).trans (.of_eq ?_)),
    (hL.arrows_changeNode ..).trans h.arrows⟩
  rw [nodesOf, nodesOf, map_map]
  refine map_congr_left fun n _ => ?_
  rw [Function.comp_apply, Json.str_beq]
  by_cases hn : n = name
  · subst hn
    simp [Diagram.paint]
  · simp [hn]

theorem foldlM_colourNode (scopes : List String) (nodes : List (Json × RelationNode))
    {paint : String → Option String} (h : Shows L ends told g paint)
    (hnodes : ∀ node ∈ nodes, ∃ name, node.1 = .str name ∧
      node.2.scope = .str (scopeIn ends name)) :
    ∃ g', nodes.foldlM (colourNode L (tableOf scopes)) g = .ok g' ∧
      Shows L ends told g' fun name => if nodes.any (·.1 == .str name) then
        some (Diagram.paint scopes (scopeIn ends name)) else paint name := by
  induction nodes generalizing g paint with
  | nil => exact ⟨g, rfl, by simpa using h⟩
  | cons node nodes ih =>
    obtain ⟨⟨name, hname, hscope⟩, hrest⟩ := forall_mem_cons.1 hnodes
    obtain ⟨g₁, hrun, hg₁⟩ := colourNode_shows hL h scopes node name hname hscope
    obtain ⟨g₂, hruns, hg₂⟩ := ih hg₁ hrest
    refine ⟨g₂, by rw [foldlM_cons, hrun]; exact hruns, ?_⟩
    convert hg₂ using 2 with n
    rw [any_cons, hname, Json.str_beq]
    by_cases hn : n = name
    · simp [hn]
    · rw [beq_false_of_ne (Ne.symm hn), Bool.false_or, Function.update_of_ne hn]

theorem relationGraph_shows {rows : List Row} {rs : List Relation} (h : Forall₂ Tells rows rs)
    (coloured : Bool) (hends : ends = (rs.filter Relation.isKept).flatMap Relation.ends) :
    ∃ g, relationGraph L coloured rows = .ok g ∧
      Shows L ends ((rs.filter Relation.isKept).map Relation.arrow) g fun name =>
        if coloured then some (paint (scopesOf ends) (scopeIn ends name)) else none := by
  have hempty : ShowsKept L [] L.empty :=
    ⟨.of_eq hL.nodes_empty, .of_eq hL.arrows_empty⟩
  have hstart : coloursOf coloured [] = [] := by cases coloured <;> rfl
  obtain ⟨g, hrun, hg⟩ := foldlM_addRelation hL h coloured hempty
  rw [hstart] at hrun
  rw [nil_append] at hrun hg
  rw [ShowsKept, ← hends] at hg
  rw [relationGraph, hrun]
  cases coloured with
  | false => exact ⟨g, rfl, hg⟩
  | true =>
    have hnodes : ∀ node ∈ L.nodes g, ∃ name, node.1 = .str name ∧
        node.2.scope = .str (scopeIn ends name) := by
      intro node hnode
      obtain ⟨name, _, rfl⟩ := mem_map.1 (hg.nodes.mem_iff.1 hnode)
      exact ⟨name, rfl, rfl⟩
    obtain ⟨g', hruns, hg'⟩ := foldlM_colourNode hL (scopesOf ends) _ hg hnodes
    refine ⟨g', by rw [coloursOf, if_pos rfl, ← hends]; exact hruns, ?_, hg'.arrows⟩
    refine hg'.nodes.trans (.of_eq (map_congr_left fun name hname => ?_))
    obtain ⟨v, hv⟩ := (mem_nodesOf ends name).2 (mem_eraseDups.1 hname)
    have hmem : (L.nodes g).any (·.1 == .str name) = true :=
      any_eq_true.2 ⟨_, hg.nodes.mem_iff.2 hv, beq_self_eq_true name⟩
    simp only [hmem, if_true]

end

theorem mem_arrowsOf (told : List ((String × String) × Json)) (source target kind : Json) :
    ⟨source, target, kind⟩ ∈ arrowsOf told ↔ ∃ caller callee, source = .str caller ∧
      target = .str callee ∧ told.reverse.lookup (caller, callee) = some kind := by
  have htold : ∀ pair, pair ∈ told.map (·.1) ↔ ∃ kind, told.reverse.lookup pair = some kind := by
    intro pair
    rw [← Option.isSome_iff_exists, lookup_isSome_iff]
    simp
  simp only [arrowsOf, mem_map, mem_eraseDups]
  constructor
  · rintro ⟨pair, hpair, heq⟩
    obtain ⟨kind', hkind⟩ := (htold pair).1 (mem_map.2 hpair)
    cases heq
    exact ⟨_, _, rfl, rfl, by rw [hkind]; rfl⟩
  · rintro ⟨caller, callee, rfl, rfl, hkind⟩
    refine ⟨(caller, callee), mem_map.1 ((htold _).2 ⟨kind, hkind⟩), ?_⟩
    rw [hkind]
    rfl

theorem scopeIn_mem (ends : Dict String) (name : String) :
    scopeIn ends name = "" ∨ scopeIn ends name ∈ scopesOf ends := by
  unfold scopeIn
  cases hget : ends.get? name with
  | none => exact .inl rfl
  | some scope =>
    by_cases hscope : scope = ""
    · exact .inl hscope
    · have hvalue : scope ∈ ends.values := mem_map.2 ⟨_, mem_of_get? hget, rfl⟩
      exact .inr (mem_eraseDups.2 (mem_filter.2 ⟨hvalue, by simpa using hscope⟩))

/-- The nodes are the ends of the relations kept with the scopes told first, the arrows their pairs
with the kinds told last, all without repetitions. A node without a scope is gray, and up to fifteen
scopes are told apart by their colours. -/
theorem relationGraph_of_tells {L : RelationLibrary} (hL : L.Lawful) {rows : List Row}
    {rs : List Relation} (h : Forall₂ Tells rows rs) (coloured : Bool) :
    ∃ g, relationGraph L coloured rows = .ok g ∧
      ((L.nodes g).map (·.1)).Nodup ∧
      (∀ name scope, (∃ colour, (name, ⟨scope, colour⟩) ∈ L.nodes g) ↔
        ∃ n s, name = .str n ∧ scope = .str s ∧
          Dict.get? ((rs.filter Relation.isKept).flatMap Relation.ends) n = some s) ∧
      ((L.arrows g).map fun a => (a.source, a.target)).Nodup ∧
      (∀ source target kind, ⟨source, target, kind⟩ ∈ L.arrows g ↔
        ∃ caller callee, source = .str caller ∧ target = .str callee ∧
          ((rs.filter Relation.isKept).map Relation.arrow).reverse.lookup (caller, callee) =
            some kind) ∧
      (coloured = true →
        (∀ node ∈ L.nodes g, node.2.scope = .str "" → node.2.colour = some plainColour) ∧
        ((scopesOf ((rs.filter Relation.isKept).flatMap Relation.ends)).length ≤ 15 →
          ∀ a ∈ L.nodes g, ∀ b ∈ L.nodes g,
            a.2.colour = b.2.colour ↔ a.2.scope = b.2.scope)) := by
  obtain ⟨ends, hends⟩ : ∃ ends, ends = (rs.filter Relation.isKept).flatMap Relation.ends :=
    ⟨_, rfl⟩
  rw [← hends]
  obtain ⟨g, hrun, hg⟩ := relationGraph_shows hL h coloured hends
  refine ⟨g, hrun, ?_, fun name scope => ?_, ?_, ?_, ?_⟩
  · rw [(hg.nodes.map _).nodup_iff, nodesOf, map_map]
    exact (nodup_eraseDups _).map fun a b hab => Json.str.inj hab
  · simp only [hg.nodes.mem_iff, nodesOf, mem_map, mem_eraseDups, Dict.mem_keys_iff]
    constructor
    · rintro ⟨colour, n, ⟨s, hs⟩, heq⟩
      cases heq
      exact ⟨n, s, rfl, by rw [scopeIn, hs]; rfl, hs⟩
    · rintro ⟨n, s, rfl, rfl, hs⟩
      exact ⟨_, n, ⟨s, hs⟩, by rw [scopeIn, hs]; rfl⟩
  · rw [(hg.arrows.map _).nodup_iff, arrowsOf, map_map]
    exact (nodup_eraseDups _).map fun p q hpq => by simpa [Prod.ext_iff] using hpq
  · intro source target kind
    rw [hg.arrows.mem_iff, mem_arrowsOf]
  · rintro rfl
    have hscope := scopeIn_mem ends
    have hempty : "" ∉ scopesOf ends := by simp [scopesOf]
    refine ⟨fun node hnode hscope => ?_, fun hlength a ha b hb => ?_⟩
    · obtain ⟨name, _, rfl⟩ := mem_map.1 (hg.nodes.mem_iff.1 hnode)
      have h₀ : scopeIn ends name = "" := Json.str.inj hscope
      dsimp only
      rw [if_pos rfl, h₀, paint_eq, if_neg hempty]
    · obtain ⟨n, _, rfl⟩ := mem_map.1 (hg.nodes.mem_iff.1 ha)
      obtain ⟨m, _, rfl⟩ := mem_map.1 (hg.nodes.mem_iff.1 hb)
      simp only [if_true, Option.some.injEq, Json.str.injEq]
      exact paint_eq_iff hlength (hscope n) (hscope m) hempty

def repeatedRows : List Row :=
  [[("caller", .str "f"), ("callee", .str "g"), ("caller_namespace", .str "a")],
   [("caller", .str "g"), ("callee", .str "g"), ("caller_namespace", .str "c")],
   [("caller", .str "f"), ("callee", .str "g"), ("callee_namespace", .str "b"),
    ("relationship_type", .str "OVERRIDES")]]

theorem relationGraph_of_repeated :
    ∃ g, relationGraph (Digraph.library ..) true repeatedRows = .ok g ∧
      (∃ colour, (.str "g", ⟨.str "", colour⟩) ∈ Digraph.nodes g) ∧
      ⟨.str "f", .str "g", .str "OVERRIDES"⟩ ∈ Digraph.arrowsByNode g ∧
      ∀ a ∈ Digraph.nodes g, ∀ b ∈ Digraph.nodes g,
        a.2.colour = b.2.colour ↔ a.2.scope = b.2.scope := by
  have htells : Forall₂ Tells repeatedRows [⟨"f", "g", "a", "", .str "CALLS"⟩,
      ⟨"g", "g", "c", "", .str "CALLS"⟩, ⟨"f", "g", "", "b", .str "OVERRIDES"⟩] :=
    .cons ⟨rfl, rfl, rfl, rfl, rfl⟩ (.cons ⟨rfl, rfl, rfl, rfl, rfl⟩
      (.cons ⟨rfl, rfl, rfl, rfl, rfl⟩ .nil))
  obtain ⟨g, hg, _, hnodes, _, harrows, hcolours⟩ :=
    relationGraph_of_tells Digraph.lawful_library htells true
  exact ⟨g, hg, (hnodes ..).2 ⟨"g", "", rfl, rfl, rfl⟩, (harrows ..).2 ⟨"f", "g", rfl, rfl, rfl⟩,
    (hcolours rfl).2 (by decide)⟩

end Diagram

end CodeAtlas
