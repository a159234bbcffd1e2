import CodeAtlas.Proofs.CallGraph
import CodeAtlas.Structure.Basic
import Mathlib.Data.List.Chain
import Mathlib.Order.Bounds.Basic

/-!
# Paths of calls

A call tree is cut off at functions that it has passed already, so what stands
below a function are paths of calls. `Functions.Route` is a path that passes no
function twice before its end: it ends at the latest with the first repetition.
The depth of a call tree is the length of the longest route within the bound
(`get?_callDepths_iff`), and the lines of a call tree stand for the routes
whose end is known, in depth-first order (`treeText_eq_routes`).

Both searches carry the functions passed along. `Functions.RouteBelow` does the
same, so that each of them is one induction over the bound.
-/

namespace CodeAtlas

open List Dict

variable (fs : Functions) (bound : Nat) (f : String) (above : List String)

namespace Functions

/-- A path of calls from `f` that passes no function twice before its end. All functions before
the end are known, since each of them lists the call of the next one. -/
structure Route (fs : Functions) (f : String) (p : List String) : Prop where
  starts : p.head? = some f
  calls : p.IsChain fs.Calls
  distinct : p.dropLast.Nodup

/-- A route from `f` along `rest`, below functions that it does not pass again. -/
def RouteBelow (fs : Functions) : List String → String → List String → Prop
  | _, _, [] => True
  | above, f, c :: rest => f ∉ above ∧ fs.Calls f c ∧ RouteBelow fs (f :: above) c rest

theorem routeBelow_iff (rest : List String) :
    fs.RouteBelow above f rest ↔
      (f :: rest).IsChain fs.Calls ∧ (f :: rest).dropLast.Nodup ∧
        ∀ x ∈ (f :: rest).dropLast, x ∉ above := by
  induction rest generalizing above f with
  | nil => simp [RouteBelow]
  | cons c rest ih =>
    rw [RouteBelow, ih, isChain_cons_cons, dropLast_cons_cons, nodup_cons]
    simp only [mem_cons, not_or, forall_eq_or_imp, forall_and]
    constructor
    · rintro ⟨hf, hcall, hchain, hnodup, hne, habove⟩
      exact ⟨⟨hcall, hchain⟩, ⟨fun hmem => hne f hmem rfl, hnodup⟩, hf, habove⟩
    · rintro ⟨⟨hcall, hchain⟩, ⟨hmem, hnodup⟩, hf, habove⟩
      exact ⟨hf, hcall, hchain, hnodup, fun x hx heq => hmem (heq ▸ hx), habove⟩

theorem route_iff (p : List String) :
    fs.Route f p ↔ ∃ rest, p = f :: rest ∧ fs.RouteBelow [] f rest := by
  constructor
  · rintro ⟨hstarts, hcalls, hdistinct⟩
    obtain ⟨rest, rfl⟩ := head?_eq_some_iff.1 hstarts
    exact ⟨rest, rfl, (routeBelow_iff _ _ _ _).2 ⟨hcalls, hdistinct, fun _ _ => not_mem_nil⟩⟩
  · rintro ⟨rest, rfl, hrest⟩
    obtain ⟨hcalls, hdistinct, -⟩ := (routeBelow_iff _ _ _ _).1 hrest
    exact ⟨rfl, hcalls, hdistinct⟩

/-- A path of calls from `f` on which all functions are known and none is passed twice. -/
structure Branch (fs : Functions) (f : String) (p : List String) : Prop where
  starts : p.head? = some f
  calls : p.IsChain fs.Calls
  distinct : p.Nodup
  known : ∀ x ∈ p, fs.has x = true

/-- A branch with one more call, of a function that it has passed. -/
def Recursion (fs : Functions) (f : String) (p : List String) : Prop :=
  ∃ q last c, p = q ++ [c] ∧ fs.Branch f q ∧ q.getLast? = some last ∧ fs.Calls last c ∧ c ∈ q

theorem Recursion.not_nodup {fs : Functions} {f : String} {p : List String}
    (h : fs.Recursion f p) : ¬ p.Nodup := by
  obtain ⟨q, last, c, rfl, -, -, -, hc⟩ := h
  intro hnodup
  exact (nodup_append.1 hnodup).2.2 c hc c mem_cons_self rfl

theorem branch_or_recursion_iff (p : List String) :
    fs.Branch f p ∨ fs.Recursion f p ↔ fs.Route f p ∧ ∀ x ∈ p, fs.has x = true := by
  constructor
  · rintro (h | ⟨q, last, c, rfl, hq, hlast, hcall, hc⟩)
    · exact ⟨⟨h.starts, h.calls, h.distinct.sublist p.dropLast_sublist⟩, h.known⟩
    · refine ⟨⟨?_, ?_, ?_⟩, ?_⟩
      · rw [head?_append, hq.starts]
        rfl
      · refine isChain_append.2 ⟨hq.calls, isChain_singleton c, ?_⟩
        intro x hx y hy
        cases hlast.symm.trans hx
        cases hy
        exact hcall
      · rw [dropLast_concat]
        exact hq.distinct
      · intro x hx
        rcases mem_append.1 hx with hx | hx
        · exact hq.known x hx
        · exact hq.known x (mem_singleton.1 hx ▸ hc)
  · rintro ⟨hp, hknown⟩
    rcases p.eq_nil_or_concat' with rfl | ⟨q, c, rfl⟩
    · cases hp.starts
    · have hq : q.Nodup := by simpa using hp.distinct
      by_cases hc : c ∈ q
      · obtain ⟨last, hlast⟩ : ∃ last, q.getLast? = some last :=
          ⟨_, getLast?_eq_some_getLast (ne_nil_of_mem hc)⟩
        obtain ⟨hchain, -, hcall⟩ := isChain_append.1 hp.calls
        refine .inr ⟨q, last, c, rfl, ⟨?_, hchain, hq, ?_⟩, hlast, hcall last hlast c rfl, hc⟩
        · rw [← hp.starts, head?_append_of_ne_nil q (ne_nil_of_mem hc)]
        · exact fun x hx => hknown x (mem_append_left _ hx)
      · have hdistinct : (q ++ [c]).Nodup := nodup_append_comm.1 (nodup_cons.2 ⟨hc, hq⟩)
        exact .inl ⟨hp.starts, hp.calls, hdistinct, hknown⟩

/-- One path stands before another in depth-first order: it ends where the other goes on, or the
two part at a function that lists the call of the one before the call of the other. -/
inductive Earlier (fs : Functions) : List String → List String → Prop where
  | ends (f c : String) (rest : List String) : Earlier fs [f] (f :: c :: rest)
  | turns {f c d : String} {entry : Function} (hentry : fs.get? f = some entry)
      (hcalls : [c, d].Sublist entry.calls) (p q : List String) :
      Earlier fs (f :: c :: p) (f :: d :: q)
  | follows (f : String) {p q : List String} (h : Earlier fs p q) : Earlier fs (f :: p) (f :: q)

theorem Earlier.irrefl {fs : Functions}
    (hcalls : ∀ name f, fs.get? name = some f → f.calls.Nodup) {p : List String} :
    ¬ fs.Earlier p p := by
  induction p with
  | nil =>
    intro h
    cases h
  | cons f p ih =>
    intro h
    cases h with
    | turns hentry hsub => exact nodup_iff_sublist.1 (hcalls _ _ hentry) _ hsub
    | follows _ h => exact ih h

end Functions

namespace Structure

/-! ### Depths -/

theorem foldl_max_lt_iff (depth : String → Nat) (l : List String) (d n : Nat) :
    l.foldl (fun deepest c => max deepest (depth c + 1)) d < n ↔
      d < n ∧ ∀ c ∈ l, depth c + 1 < n := by
  induction l generalizing d with
  | nil => simp
  | cons c l ih => rw [foldl_cons, ih, Nat.max_lt, forall_mem_cons, and_assoc]

/-- Where nothing stands below a function, its only route is the function itself. -/
theorem zero_lt_iff_of_leaf {fs : Functions} {above : List String} {f : String}
    (h : ∀ c rest, ¬ fs.RouteBelow above f (c :: rest)) (n : Nat) :
    0 < n ↔ ∀ rest, fs.RouteBelow above f rest → rest.length ≤ bound → rest.length < n := by
  refine ⟨fun hn rest hrest _ => ?_, fun hall => hall [] trivial (Nat.zero_le bound)⟩
  cases rest with
  | nil => exact hn
  | cons c rest => exact absurd hrest (h c rest)

/-- The depth of a call tree is below a number if the length of each route is, within the bound. -/
theorem callDepth_lt_iff (n : Nat) :
    callDepth fs bound above f < n ↔
      ∀ rest, fs.RouteBelow above f rest → rest.length ≤ bound → rest.length < n := by
  induction bound generalizing above f n with
  | zero =>
    refine ⟨fun hn rest _ hlength => Nat.lt_of_le_of_lt hlength hn, fun h => ?_⟩
    exact h [] trivial (Nat.le_refl 0)
  | succ bound ih =>
    rw [callDepth]
    split_ifs with habove
    · exact zero_lt_iff_of_leaf _ (fun c rest h => h.1 (contains_iff_mem.1 habove)) n
    · cases hf : fs.get? f with
      | none =>
        refine zero_lt_iff_of_leaf _ (fun c rest h => ?_) n
        obtain ⟨entry, hentry, -⟩ := h.2.1
        rw [hf] at hentry
        cases hentry
      | some entry =>
        dsimp only
        rw [foldl_max_lt_iff]
        constructor
        · rintro ⟨hn, hcalls⟩ rest hrest hlength
          cases rest with
          | nil => exact hn
          | cons c rest =>
            obtain ⟨-, ⟨entry', hentry', hc⟩, hrest⟩ := hrest
            cases hf.symm.trans hentry'
            have hdepth := Nat.lt_sub_of_add_lt (hcalls c hc)
            exact Nat.add_lt_of_lt_sub
              ((ih _ _ _).1 hdepth rest hrest (Nat.le_of_succ_le_succ hlength))
        · intro h
          refine ⟨h [] trivial (Nat.zero_le _), fun c hc => Nat.add_lt_of_lt_sub ?_⟩
          refine (ih _ _ _).2 fun rest hrest hlength => Nat.lt_sub_of_add_lt ?_
          have hroute : fs.RouteBelow above f (c :: rest) :=
            ⟨fun hmem => habove (contains_iff_mem.2 hmem), ⟨entry, hf, hc⟩, hrest⟩
          exact h (c :: rest) hroute (Nat.succ_le_succ hlength)

theorem isGreatest_callDepth :
    IsGreatest {k | k ≤ bound ∧ ∃ p, fs.Route f p ∧ p.length = k + 1}
      (callDepth fs bound [] f) := by
  have hroute : ∀ k, (∃ p, fs.Route f p ∧ p.length = k + 1) ↔
      ∃ rest, fs.RouteBelow [] f rest ∧ rest.length = k := by
    intro k
    constructor
    · rintro ⟨p, hp, hlength⟩
      obtain ⟨rest, rfl, hrest⟩ := (Functions.route_iff _ _ _).1 hp
      exact ⟨rest, hrest, Nat.succ.inj hlength⟩
    · rintro ⟨rest, hrest, rfl⟩
      exact ⟨f :: rest, (Functions.route_iff _ _ _).2 ⟨rest, rfl, hrest⟩, rfl⟩
  have hle : ∀ rest, fs.RouteBelow [] f rest → rest.length ≤ bound →
      rest.length ≤ callDepth fs bound [] f := fun rest hrest hlength =>
    Nat.le_of_lt_succ ((callDepth_lt_iff fs bound f [] _).1 (Nat.lt_succ_self _) rest hrest hlength)
  simp only [hroute]
  constructor
  · -- were all routes shorter, the depth would be below itself
    by_contra hnone
    refine Nat.lt_irrefl _ ((callDepth_lt_iff fs bound f [] _).2 fun rest hrest hlength => ?_)
    refine lt_of_le_of_ne (hle rest hrest hlength) fun heq => hnone ?_
    exact ⟨heq ▸ hlength, rest, hrest, heq⟩
  · rintro k ⟨hk, rest, hrest, rfl⟩
    exact hle rest hrest hk

theorem get?_callDepths (g : CallGraph) :
    (callDepths bound g).get? f =
      if g.functions.has f then some (callDepth g.functions bound [] f) else none :=
  get?_map_key (callDepth g.functions bound []) g.functions f

/-- Each function has as its depth the length of the longest path of calls that starts with it,
passes no function twice before its end and keeps to the bound. -/
theorem get?_callDepths_iff (bound : Nat) (g : CallGraph) (f : String) (k : Nat) :
    (callDepths bound g).get? f = some k ↔
      g.functions.has f = true ∧
        IsGreatest {n | n ≤ bound ∧ ∃ p, g.functions.Route f p ∧ p.length = n + 1} k := by
  have hdepth := isGreatest_callDepth g.functions bound f
  rw [get?_callDepths]
  split
  · next hf =>
      rw [Option.some.injEq]
      exact ⟨fun h => ⟨hf, h ▸ hdepth⟩, fun h => hdepth.unique h.2⟩
  · next hf => simp [hf]

/-! ### Trees -/

/-- The routes from a function along calls of known functions, at most `n` functions long, in
depth-first order. They are given by what follows the function. -/
def knownRoutes (fs : Functions) : Nat → List String → String → List (List String)
  | 0, _, _ => []
  | n + 1, above, name =>
    match fs.get? name with
    | none => []
    | some f =>
      if above.contains name then [[]]
      else [] :: f.calls.flatMap fun c => (knownRoutes fs n (name :: above) c).map (c :: ·)

theorem mem_knownRoutes_iff (n : Nat) (rest : List String) :
    rest ∈ knownRoutes fs n above f ↔
      rest.length < n ∧ fs.RouteBelow above f rest ∧ ∀ x ∈ f :: rest, fs.has x = true := by
  induction n generalizing above f rest with
  | zero => simp [knownRoutes]
  | succ n ih =>
    rw [knownRoutes]
    cases hf : fs.get? f with
    | none => simp [Dict.has, hf]
    | some entry =>
      have hknown : fs.has f = true := by rw [Dict.has, hf]; rfl
      dsimp only
      split_ifs with habove
      · -- a route does not go on from a function passed already
        cases rest with
        | nil => simp [Functions.RouteBelow, hknown]
        | cons c rest => simp [Functions.RouteBelow, contains_iff_mem.1 habove]
      · cases rest with
        | nil => simp [Functions.RouteBelow, hknown]
        | cons c rest =>
          have hcall : fs.Calls f c ↔ c ∈ entry.calls := by simp [Functions.Calls, hf]
          have hnew : f ∉ above := fun hmem => habove (contains_iff_mem.2 hmem)
          have hbelow : (c :: rest) ∈ [] :: entry.calls.flatMap (fun c =>
              (knownRoutes fs n (f :: above) c).map (c :: ·)) ↔
              c ∈ entry.calls ∧ rest ∈ knownRoutes fs n (f :: above) c := by simp
          rw [hbelow, ih, ← hcall, length_cons, Nat.succ_lt_succ_iff,
            Functions.RouteBelow, forall_mem_cons (a := f)]
          constructor
          · rintro ⟨hfc, hlength, hrest, hends⟩
            exact ⟨hlength, ⟨hnew, hfc, hrest⟩, hknown, hends⟩
          · rintro ⟨hlength, ⟨-, hfc, hrest⟩, -, hends⟩
            exact ⟨hfc, hlength, hrest, hends⟩

theorem pairwise_knownRoutes (n : Nat) (above : List String) (f : String) :
    (knownRoutes fs n above f).Pairwise fun p q => fs.Earlier (f :: p) (f :: q) := by
  induction n generalizing above f with
  | zero => exact .nil
  | succ n ih =>
    rw [knownRoutes]
    cases hf : fs.get? f with
    | none => exact .nil
    | some entry =>
      dsimp only
      split
      · exact pairwise_singleton _ _
      · refine pairwise_cons.2 ⟨?_, pairwise_flatMap.2 ⟨?_, ?_⟩⟩
        · intro p hp
          obtain ⟨c, -, hp⟩ := mem_flatMap.1 hp
          obtain ⟨rest, -, rfl⟩ := mem_map.1 hp
          exact .ends f c rest
        · intro c _
          exact pairwise_map.2 ((ih (f :: above) c).imp fun h => .follows f h)
        · refine pairwise_iff_forall_sublist.2 fun hcd p hp q hq => ?_
          obtain ⟨p, -, rfl⟩ := mem_map.1 hp
          obtain ⟨q, -, rfl⟩ := mem_map.1 hq
          exact .turns hf hcd p q

/-- The indentation of the end of a path. -/
def indentation (p : List String) : String := Text.join "" (replicate (p.length - 1) "  ")

/-- The line of a function with its place, at the end of a path. -/
def placeLine (fs : Functions) (p : List String) : String :=
  let name := p.getLastD ""
  let f := (fs.get? name).getD { name }
  indentation p ++ "└─ " ++ name ++ " (" ++ f.filePath ++ ":" ++ toString f.lineNumber ++ ")"

/-- The line of a function that was passed before, at the end of a path. -/
def recursionLine (p : List String) : String :=
  indentation p ++ p.getLastD "" ++ " (recursive call)"

def pathLine (fs : Functions) (p : List String) : String :=
  if p.Nodup then placeLine fs p else recursionLine p

theorem treeLines_of_lt {fs : Functions} {limit depth : Int} (h : limit < depth) (fuel : Nat)
    (name : String) : treeLines fs limit fuel depth above name = [] := by
  cases fuel with
  | zero => rfl
  | succ fuel =>
    rw [treeLines]
    split
    · rfl
    · exact if_pos h

/-- The lines below the functions passed stand for the routes below them. The functions passed are
known and distinct, so the fuel never runs out. -/
theorem treeLines_eq {fs : Functions} {limit : Int} {fuel n : Nat} {above : List String}
    (hknown : ∀ x ∈ above, fs.has x = true) (hdistinct : above.Nodup)
    (hfuel : fs.length + 2 ≤ fuel + above.length) (hlimit : limit + 1 = above.length + n)
    (name : String) :
    treeLines fs limit fuel above.length above name =
      (knownRoutes fs n above name).map fun rest =>
        pathLine fs (above.reverse ++ name :: rest) := by
  induction n generalizing fuel above name with
  | zero => exact treeLines_of_lt above (by omega) fuel name
  | succ n ih =>
    have hlength : above.length ≤ fs.length := length_le_of_subset_keys hdistinct
      fun x hx => (mem_keys_iff _ _).2 ((has_iff _ _).1 (hknown x hx))
    obtain ⟨fuel, rfl⟩ : ∃ k, fuel = k + 1 := ⟨fuel - 1, by omega⟩
    rw [treeLines, knownRoutes]
    cases hname : fs.get? name with
    | none => rfl
    | some f =>
      have hends : (above.reverse ++ [name]).Nodup ↔ name ∉ above ∧ above.Nodup := by
        rw [← reverse_cons, nodup_reverse, nodup_cons]
      dsimp only
      rw [if_neg (by omega : ¬ (above.length : Int) > limit)]
      split_ifs with habove
      · have hrepeats : ¬ (above.reverse ++ [name]).Nodup := fun h =>
          (hends.1 h).1 (contains_iff_mem.1 habove)
        simp [pathLine, hrepeats, recursionLine, indentation]
      · have hnew : name ∉ above := fun hmem => habove (contains_iff_mem.2 hmem)
        have hline : pathLine fs (above.reverse ++ [name]) =
            placeLine fs (above.reverse ++ [name]) := if_pos (hends.2 ⟨hnew, hdistinct⟩)
        rw [map_cons, hline, map_flatMap]
        congr 1
        · simp [placeLine, indentation, hname]
        · refine flatMap_congr fun c _ => ?_
          have hbelow := @ih fuel (name :: above)
            (forall_mem_cons.2 ⟨by rw [Dict.has, hname]; rfl, hknown⟩)
            (nodup_cons.2 ⟨hnew, hdistinct⟩)
            (by rw [length_cons]; omega)
            (by rw [length_cons]; omega) c
          rw [length_cons, Int.natCast_succ] at hbelow
          rw [hbelow, map_map]
          simp

/-- A call tree has one line for each path of calls from the root that stays among known functions
and passes none of them twice, and one for each such path with one more call, back to a function on
it. The paths keep to the limit, and their order is depth-first. -/
theorem treeText_eq_routes (g : CallGraph) (root : String) (limit : Nat)
    (hcalls : ∀ name f, g.functions.get? name = some f → f.calls.Nodup) :
    ∃ (paths : List (List String)) (line : List String → String),
      paths.Nodup ∧ paths.Pairwise g.functions.Earlier ∧
      (∀ p, p ∈ paths ↔
        p.length ≤ limit + 1 ∧ (g.functions.Branch root p ∨ g.functions.Recursion root p)) ∧
      (∀ p, g.functions.Branch root p → line p = placeLine g.functions p) ∧
      (∀ p, g.functions.Recursion root p → line p = recursionLine p) ∧
      treeText g root limit 0 = String.join (paths.map fun p => line p ++ "\n") := by
  have hordered : ((knownRoutes g.functions (limit + 1) [] root).map (root :: ·)).Pairwise
      g.functions.Earlier := pairwise_map.2 (pairwise_knownRoutes _ _ _ _)
  refine ⟨_, pathLine g.functions, hordered.imp ?_, hordered, fun p => ?_, ?_, ?_, ?_⟩
  · rintro p q h rfl
    exact Functions.Earlier.irrefl hcalls h
  · rw [Functions.branch_or_recursion_iff, Functions.route_iff, mem_map]
    constructor
    · rintro ⟨rest, hrest, rfl⟩
      obtain ⟨hlength, hroute, hknown⟩ := (mem_knownRoutes_iff _ _ _ _ _).1 hrest
      exact ⟨hlength, ⟨rest, rfl, hroute⟩, hknown⟩
    · rintro ⟨hlength, ⟨rest, rfl, hroute⟩, hknown⟩
      exact ⟨rest, (mem_knownRoutes_iff _ _ _ _ _).2 ⟨hlength, hroute, hknown⟩, rfl⟩
  · exact fun p hp => if_pos hp.distinct
  · exact fun p hp => if_neg hp.not_nodup
  · have hlines : treeLines g.functions limit (g.functions.length + 2) 0 [] root =
        (knownRoutes g.functions (limit + 1) [] root).map fun rest =>
          pathLine g.functions (root :: rest) :=
      @treeLines_eq g.functions limit _ (limit + 1) [] (by simp) .nil (Nat.le_refl _) (by simp) root
    rw [treeText, hlines, map_map, map_map]
    rfl

/-- Two functions that call each other, and one that calls both. -/
def readingCalls : CallGraph where
  functions :=
    [("main", { name := "main", filePath := "main.c", lineNumber := 9, calls := ["open", "read"] }),
      ("open", { name := "open", filePath := "io.c", lineNumber := 3, calls := ["read", "errno"] }),
      ("read", { name := "read", filePath := "io.c", lineNumber := 5, calls := ["open"] })]

theorem treeText_readingCalls :
    (∀ name f, readingCalls.functions.get? name = some f → f.calls.Nodup) ∧
      treeText readingCalls "main" (3 : Nat) 0 =
        "└─ main (main.c:9)\n  └─ open (io.c:3)\n    └─ read (io.c:5)\n" ++
        "      open (recursive call)\n" ++
        "  └─ read (io.c:5)\n    └─ open (io.c:3)\n      read (recursive call)\n" ∧
      ∃ (paths : List (List String)) (line : List String → String),
        paths.Nodup ∧ paths.Pairwise readingCalls.functions.Earlier ∧
        (∀ p, p ∈ paths ↔ p.length ≤ 3 + 1 ∧
          (readingCalls.functions.Branch "main" p ∨ readingCalls.functions.Recursion "main" p)) ∧
        (∀ p, readingCalls.functions.Branch "main" p →
          line p = placeLine readingCalls.functions p) ∧
        (∀ p, readingCalls.functions.Recursion "main" p → line p = recursionLine p) ∧
        treeText readingCalls "main" (3 : Nat) 0 =
          String.join (paths.map fun p => line p ++ "\n") := by
  have hall : ∀ entry ∈ readingCalls.functions, entry.2.calls.Nodup := by decide
  have hcalls : ∀ name f, readingCalls.functions.get? name = some f → f.calls.Nodup :=
    fun name f hf => hall _ (Dict.mem_of_get? hf)
  exact ⟨hcalls, by decide +kernel, treeText_eq_routes readingCalls "main" 3 hcalls⟩

end Structure

end CodeAtlas
