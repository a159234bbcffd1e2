import CodeAtlas.ClassHierarchy.VirtualTable
import CodeAtlas.Proofs.ClassHierarchy.Invariant
import Mathlib.Data.Finset.Card

/-!
# The classes above and below a class

Three searches go along the lists of a hierarchy. Bases and derived classes are
collected in depth, the classes below a class level by level. All of them find
what the lists lead to, `TransGen (h.LeadsTo next)`, whatever the lists are: they
may go round in circles, name the class itself or name what is no class.

The search in depth keeps what it visited and what it found apart. `Grows` says
what it may do to both: what is visited anew has all its neighbours visited and
found. So at the end nothing is left out, and the bound of the depth is never
used up, because only classes have neighbours and each is visited once.

The search by levels keeps what it visited as `done ++ queue`, in the order of
discovery, and `Searched` is what a round keeps. All derived classes are counted
in `derivedList`, so distinct classes never use up the bound of the search.
-/

namespace CodeAtlas.ClassHierarchy

open Relation List

variable {next : ClassNode → List String} {r : Reach} (visited names : List String)
  {h : ClassHierarchy} {name : String}

/-- A class lists the other name among its bases, or its derived classes. -/
def LeadsTo (h : ClassHierarchy) (next : ClassNode → List String) (c d : String) : Prop :=
  d ∈ h.related next c

theorem LeadsTo.mem_keys {c d : String} (hd : h.LeadsTo next c d) : c ∈ h.classes.keys := by
  obtain ⟨node, hnode, _⟩ := (mem_related_iff _ _ _ _).1 hd
  exact Dict.mem_keys_of_get? hnode

theorem not_transGen_of_unknown {c : String} (hc : h.classes.has c = false) (d : String) :
    ¬ TransGen (h.LeadsTo next) c d := by
  intro hpath
  obtain ⟨_, hstep, _⟩ := TransGen.head'_iff.1 hpath
  rw [← Bool.not_eq_true, Dict.has_iff, ← Dict.mem_keys_iff] at hc
  exact hc (LeadsTo.mem_keys hstep)

/-! ### In depth -/

/-- What a search may do: it forgets nothing, finds what it is allowed to find, and goes on to all
neighbours of what it visits. -/
structure Grows (h : ClassHierarchy) (next : ClassNode → List String) (allowed : String → Prop)
    (r r' : Reach) : Prop where
  visited_subset : r.visited ⊆ r'.visited
  found_subset : r.found ⊆ r'.found
  nodup : r.found.Nodup → r'.found.Nodup
  sound : ∀ x ∈ r'.found, x ∈ r.found ∨ allowed x
  closed : ∀ v ∈ r'.visited, v ∈ r.visited ∨
    ∀ w, h.LeadsTo next v w → w ∈ r'.visited ∧ w ∈ r'.found

namespace Grows

variable {allowed : String → Prop}

theorem refl (r : Reach) : h.Grows next allowed r r where
  visited_subset := List.Subset.refl _
  found_subset := List.Subset.refl _
  nodup := id
  sound _ hx := .inl hx
  closed _ hv := .inl hv

theorem trans {r₁ r₂ r₃ : Reach} (h₁ : h.Grows next allowed r₁ r₂)
    (h₂ : h.Grows next allowed r₂ r₃) : h.Grows next allowed r₁ r₃ where
  visited_subset := List.Subset.trans h₁.visited_subset h₂.visited_subset
  found_subset := List.Subset.trans h₁.found_subset h₂.found_subset
  nodup hr := h₂.nodup (h₁.nodup hr)
  sound x hx := by
    rcases h₂.sound x hx with hx | hx
    · exact h₁.sound x hx
    · exact .inr hx
  closed v hv := by
    rcases h₂.closed v hv with hv | hclosed
    · rcases h₁.closed v hv with hv | hclosed
      · exact .inl hv
      · refine .inr fun w hw => ?_
        exact ⟨h₂.visited_subset (hclosed w hw).1, h₂.found_subset (hclosed w hw).2⟩
    · exact .inr hclosed

theorem mono {allowed' : String → Prop} {r' : Reach} (hr : h.Grows next allowed r r')
    (himp : ∀ x, allowed x → allowed' x) : h.Grows next allowed' r r' :=
  { hr with sound := fun x hx => (hr.sound x hx).imp_right (himp x) }

theorem find (r : Reach) {x : String} (hx : allowed x) :
    h.Grows next allowed r { r with found := addNew r.found x } where
  visited_subset := List.Subset.refl _
  found_subset := (prefix_addNew r.found x).subset
  nodup hr := nodup_addNew hr x
  sound y hy := by
    rcases mem_addNew.1 hy with hy | rfl
    · exact .inl hy
    · exact .inr hx
  closed _ hv := .inl hv

end Grows

def unvisited (h : ClassHierarchy) (r : Reach) : Finset String :=
  h.classes.keys.toFinset \ r.visited.toFinset

theorem mem_unvisited {x : String} : x ∈ h.unvisited r ↔ x ∈ h.classes.keys ∧ x ∉ r.visited := by
  simp [unvisited]

theorem unvisited_subset {r' : Reach} (hr : r.visited ⊆ r'.visited) :
    h.unvisited r' ⊆ h.unvisited r := by
  intro x hx
  rw [mem_unvisited] at hx ⊢
  exact ⟨hx.1, fun hmem => hx.2 (hr hmem)⟩

theorem card_unvisited_lt (hname : name ∈ h.classes.keys) (hnew : name ∉ r.visited) :
    (h.unvisited { r with visited := name :: r.visited }).card < (h.unvisited r).card := by
  refine Finset.card_lt_card
    ((Finset.ssubset_iff_of_subset (unvisited_subset (subset_cons_self _ _))).2 ?_)
  exact ⟨name, mem_unvisited.2 ⟨hname, hnew⟩, fun hmem => (mem_unvisited.1 hmem).2 mem_cons_self⟩

def goOn (h : ClassHierarchy) (next : ClassNode → List String) (fuel : Nat) (r : Reach)
    (name : String) : Reach :=
  h.reachFrom next fuel name { r with found := addNew r.found name }

theorem reachFrom_of_visited {fuel : Nat} (hold : name ∈ r.visited) :
    h.reachFrom next (fuel + 1) name r = r := by
  simp [reachFrom, hold]

theorem reachFrom_of_new {fuel : Nat} (hnew : name ∉ r.visited) :
    h.reachFrom next (fuel + 1) name r =
      (h.related next name).foldl (h.goOn next fuel) { r with visited := name :: r.visited } := by
  simp only [reachFrom, contains_iff_mem, hnew, if_false]
  rfl

theorem grows_foldl {allowed : String → Prop} {step : Reach → String → Reach} (l : List String)
    (r₀ : Reach) (hstep : ∀ r, r₀.visited ⊆ r.visited → ∀ n ∈ l, h.Grows next allowed r (step r n) ∧
      n ∈ (step r n).visited ∧ n ∈ (step r n).found) :
    h.Grows next allowed r₀ (l.foldl step r₀) ∧
      ∀ n ∈ l, n ∈ (l.foldl step r₀).visited ∧ n ∈ (l.foldl step r₀).found := by
  induction l generalizing r₀ with
  | nil => exact ⟨.refl r₀, by simp⟩
  | cons n l ih =>
    obtain ⟨hfirst, hvisited, hfound⟩ := hstep r₀ (List.Subset.refl _) n mem_cons_self
    obtain ⟨hrest, hall⟩ := ih (step r₀ n) fun r hr m hm =>
      hstep r (List.Subset.trans hfirst.visited_subset hr) m (mem_cons_of_mem n hm)
    refine ⟨hfirst.trans hrest, fun m hm => ?_⟩
    rcases mem_cons.1 hm with rfl | hm
    · exact ⟨hrest.visited_subset hvisited, hrest.found_subset hfound⟩
    · exact hall m hm

/-- The search visits a name and goes on from there, if the bound exceeds the number of classes
that are left. -/
theorem grows_reachFrom (h : ClassHierarchy) (next : ClassNode → List String) (fuel : Nat)
    (name : String) (r : Reach) (hfuel : (h.unvisited r).card < fuel) :
    h.Grows next (TransGen (h.LeadsTo next) name) r (h.reachFrom next fuel name r) ∧
      name ∈ (h.reachFrom next fuel name r).visited := by
  induction fuel generalizing name r with
  | zero => omega
  | succ fuel ih =>
    by_cases hold : name ∈ r.visited
    · rw [reachFrom_of_visited hold]
      exact ⟨.refl r, hold⟩
    · rw [reachFrom_of_new hold]
      have hstep : ∀ r₁ : Reach, name :: r.visited ⊆ r₁.visited → ∀ n ∈ h.related next name,
          h.Grows next (TransGen (h.LeadsTo next) name) r₁ (h.goOn next fuel r₁ n) ∧
            n ∈ (h.goOn next fuel r₁ n).visited ∧ n ∈ (h.goOn next fuel r₁ n).found := by
        intro r₁ hr₁ n hn
        have hlead : h.LeadsTo next name n := hn
        -- the name has a neighbour, so it is a class, and it is visited by now
        have hbound : (h.unvisited { r₁ with found := addNew r₁.found n }).card < fuel :=
          calc (h.unvisited { r₁ with found := addNew r₁.found n }).card
            _ ≤ (h.unvisited { r with visited := name :: r.visited }).card :=
              Finset.card_le_card (unvisited_subset hr₁)
            _ < (h.unvisited r).card := card_unvisited_lt hlead.mem_keys hold
            _ ≤ fuel := Nat.lt_succ_iff.1 hfuel
        obtain ⟨hgo, hvisited⟩ := ih n _ hbound
        exact ⟨(Grows.find r₁ (.single hlead)).trans (hgo.mono fun x hx => .head hlead hx),
          hvisited, hgo.found_subset (mem_addNew.2 (.inr rfl))⟩
      obtain ⟨hgrows, hall⟩ :=
        grows_foldl (h.related next name) { r with visited := name :: r.visited } hstep
      refine ⟨{ hgrows with visited_subset := ?_, closed := ?_ }, ?_⟩
      · exact fun x hx => hgrows.visited_subset (mem_cons_of_mem name hx)
      · intro v hv
        rcases hgrows.closed v hv with hv | hclosed
        · rcases mem_cons.1 hv with rfl | hv
          · exact .inr hall
          · exact .inl hv
        · exact .inr hclosed
      · exact hgrows.visited_subset mem_cons_self

theorem reachFrom_spec (h : ClassHierarchy) (next : ClassNode → List String) (name : String) :
    (h.reachFrom next (h.classes.length + 2) name {}).found.Nodup ∧
      ∀ x, x ∈ (h.reachFrom next (h.classes.length + 2) name {}).found ↔
        TransGen (h.LeadsTo next) name x := by
  have hfuel : (h.unvisited {}).card < h.classes.length + 2 :=
    calc (h.unvisited {}).card
      _ ≤ h.classes.keys.toFinset.card := Finset.card_le_card Finset.sdiff_subset
      _ ≤ h.classes.keys.length := toFinset_card_le _
      _ = h.classes.length := length_map _
      _ < h.classes.length + 2 := by omega
  obtain ⟨hgrows, hname⟩ := h.grows_reachFrom next _ name {} hfuel
  generalize h.reachFrom next (h.classes.length + 2) name {} = r at hgrows hname
  have hclosed : ∀ v ∈ r.visited, ∀ w, h.LeadsTo next v w → w ∈ r.visited ∧ w ∈ r.found :=
    fun v hv => (hgrows.closed v hv).resolve_left not_mem_nil
  refine ⟨hgrows.nodup nodup_nil, fun x => ⟨fun hx => ?_, fun hpath => ?_⟩⟩
  · exact (hgrows.sound x hx).resolve_left not_mem_nil
  · have hboth : x ∈ r.visited ∧ x ∈ r.found := by
      induction hpath with
      | single hstep => exact hclosed name hname _ hstep
      | tail _ hstep ih => exact hclosed _ ih.1 _ hstep
    exact hboth.2

/-! ### Level by level -/

theorem mem_newOnes (x : String) : x ∈ newOnes visited names ↔ x ∈ names ∧ x ∉ visited := by
  have hfold : ∀ (names acc : List String),
      x ∈ names.foldl
          (fun acc n => if visited.contains n || acc.contains n then acc else acc ++ [n]) acc ↔
        x ∈ acc ∨ x ∈ names ∧ x ∉ visited := by
    intro names
    induction names with
    | nil => simp
    | cons n rest ih =>
      intro acc
      rw [foldl_cons, ih, mem_cons]
      by_cases hx : x = n
      · subst hx
        by_cases hold : x ∈ visited <;> by_cases hfound : x ∈ acc <;> simp [hold, hfound]
      · split <;> simp [hx]
  rw [newOnes, hfold]
  simp

theorem nodup_newOnes : (newOnes visited names).Nodup := by
  refine foldlRecOn names _ nodup_nil (motive := List.Nodup) ?_
  intro acc hacc n _
  split_ifs with hnew
  · exact hacc
  · have hn : n ∉ acc := by
      simp only [Bool.or_eq_true, contains_iff_mem, not_or] at hnew
      exact hnew.2
    exact List.Nodup.append hacc (nodup_singleton n) (by simpa using hn)

def derivedList (h : ClassHierarchy) : List String := h.classes.flatMap (·.2.derived)

theorem below_eq (h : ClassHierarchy) (name : String) :
    h.below name = h.belowFrom (h.derivedList.length + 2) [name] [name] := by
  have hsum : ∀ (classes : Dict ClassNode) (n : Nat),
      classes.foldl (fun n entry => n + entry.2.derived.length) n =
        n + (classes.flatMap (·.2.derived)).length := by
    intro classes
    induction classes with
    | nil => simp
    | cons entry rest ih =>
      intro n
      rw [foldl_cons, ih, flatMap_cons, length_append, Nat.add_assoc]
  have hbelow : h.below name = h.belowFrom
      (h.classes.foldl (fun n entry => n + entry.2.derived.length) 1 + 1) [name] [name] := rfl
  rw [hbelow, hsum h.classes 1, derivedList, Nat.add_comm 1]

/-- What a search from `start` has found: of the classes in `done` all derived classes are known,
those in `queue` are still to be asked. -/
structure Searched (h : ClassHierarchy) (start : String) (done queue : List String) : Prop where
  nodup : (done ++ queue).Nodup
  start_mem : start ∈ done ++ queue
  /-- Only classes below the start are found. -/
  below : ∀ x ∈ done ++ queue, ReflTransGen (h.LeadsTo (·.derived)) start x
  /-- What derives from a class in `done` is found. -/
  closed : ∀ x ∈ done, ∀ y, h.LeadsTo (·.derived) x y → y ∈ done ++ queue

namespace Searched

variable {start current : String} {done queue : List String}

theorem round (hs : h.Searched start done (current :: queue)) :
    h.Searched start (done ++ [current])
      (queue ++ newOnes (done ++ current :: queue) (h.related (·.derived) current)) := by
  have hsplit : ∀ next : List String,
      done ++ [current] ++ (queue ++ next) = (done ++ current :: queue) ++ next := by simp
  have hcurrent : current ∈ done ++ current :: queue := by simp
  refine ⟨?_, ?_, ?_, ?_⟩
  · rw [hsplit]
    refine List.Nodup.append hs.nodup (nodup_newOnes _ _) ?_
    intro x hx hnew
    exact ((mem_newOnes _ _ _).1 hnew).2 hx
  · rw [hsplit]
    exact mem_append_left _ hs.start_mem
  · intro x hx
    rw [hsplit] at hx
    rcases mem_append.1 hx with hold | hnew
    · exact hs.below x hold
    · exact .tail (hs.below current hcurrent) ((mem_newOnes _ _ _).1 hnew).1
  · intro x hx y hy
    rw [hsplit, mem_append]
    rcases mem_append.1 hx with hdone | hlast
    · exact .inl (hs.closed x hdone y hy)
    · obtain rfl : x = current := by simpa using hlast
      by_cases hfound : y ∈ done ++ x :: queue
      · exact .inl hfound
      · exact .inr ((mem_newOnes _ _ _).2 ⟨hy, hfound⟩)

theorem length_le (hs : h.Searched start done queue) :
    (done ++ queue).length ≤ h.derivedList.length + 1 := by
  have hsubset : done ++ queue ⊆ start :: h.derivedList := by
    intro x hx
    rcases ReflTransGen.cases_tail (hs.below x hx) with rfl | ⟨y, _, hy⟩
    · exact mem_cons_self ..
    · obtain ⟨c, hc, hxc⟩ := (mem_related_iff _ _ _ _).1 hy
      refine mem_cons_of_mem _ (mem_flatMap.2 ⟨(y, c), Dict.mem_of_get? hc, hxc⟩)
  simpa using List.Nodup.length_le_of_subset hs.nodup hsubset

theorem mem_iff (hs : h.Searched start done []) (x : String) :
    x ∈ done ↔ ReflTransGen (h.LeadsTo (·.derived)) start x := by
  constructor
  · intro hx
    exact hs.below x (by simpa using hx)
  · intro hpath
    induction hpath with
    | refl => simpa using hs.start_mem
    | tail _ hstep ih => simpa using hs.closed _ ih _ hstep

end Searched

theorem searched_belowFrom {start : String} (fuel : Nat) (queue done : List String)
    (hs : h.Searched start done queue) (hfuel : h.derivedList.length + 1 < fuel + done.length) :
    h.Searched start (h.belowFrom fuel queue (done ++ queue)) [] ∧
      done ++ queue <+: h.belowFrom fuel queue (done ++ queue) := by
  induction fuel generalizing queue done with
  | zero =>
    have hlength := hs.length_le
    rw [length_append] at hlength
    omega
  | succ fuel ih =>
    cases queue with
    | nil =>
      rw [belowFrom, append_nil]
      · exact ⟨hs, prefix_rfl⟩
      · simp
    | cons current queue =>
      have hlength : h.derivedList.length + 1 < fuel + (done ++ [current]).length := by
        rw [length_append, length_singleton]
        omega
      have hsplit : ∀ next : List String,
          done ++ [current] ++ (queue ++ next) = (done ++ current :: queue) ++ next := by simp
      obtain ⟨hend, hfront⟩ := ih _ _ hs.round hlength
      rw [hsplit] at hend hfront
      rw [belowFrom]
      exact ⟨hend, (prefix_append _ _).trans hfront⟩

/-- The search from a class ends with all that its lists of derived classes lead to, the class
itself first. -/
theorem searched_below (h : ClassHierarchy) (name : String) :
    h.Searched name (h.below name) [] ∧ [name] <+: h.below name := by
  have hstart : h.Searched name [] [name] :=
    ⟨by simp, by simp, by simp [ReflTransGen.refl], by simp⟩
  rw [below_eq]
  exact searched_belowFrom _ [name] [] hstart (by simp)

/-! ### All three searches -/

/-- The bases of a class and their bases, and the classes derived from it and from those, are found
once each: what the lists of the classes lead to in one step or more, so the class itself only if
it lies on a circle. Of a name that is no class there are none. The classes below a class are
the class, which comes first, and those derived from it. -/
theorem mem_basesOf_derivedOf_below_iff (h : ClassHierarchy) (name : String) :
    ((h.basesOf name true).Nodup ∧
        (∀ x, x ∈ h.basesOf name true ↔ TransGen (h.LeadsTo (·.bases)) name x) ∧
        (h.classes.has name = false → h.basesOf name true = [])) ∧
      ((h.derivedOf name true).Nodup ∧
        (∀ x, x ∈ h.derivedOf name true ↔ TransGen (h.LeadsTo (·.derived)) name x) ∧
        (h.classes.has name = false → h.derivedOf name true = [])) ∧
      (h.below name).head? = some name ∧ (h.below name).Nodup ∧
        ∀ x, x ∈ h.below name ↔ x = name ∨ x ∈ h.derivedOf name true := by
  obtain ⟨hbases, hmemBases⟩ := h.reachFrom_spec (·.bases) name
  obtain ⟨hderived, hmemDerived⟩ := h.reachFrom_spec (·.derived) name
  obtain ⟨hsearched, rest, hrest⟩ := h.searched_below name
  have hnone : ∀ {next : ClassNode → List String} {l : List String},
      (∀ x, x ∈ l ↔ TransGen (h.LeadsTo next) name x) → h.classes.has name = false → l = [] :=
    fun hmem hname => eq_nil_iff_forall_not_mem.2 fun x hx =>
      not_transGen_of_unknown hname x ((hmem x).1 hx)
  refine ⟨⟨hbases, hmemBases, hnone hmemBases⟩, ⟨hderived, hmemDerived, hnone hmemDerived⟩,
    ?_, ?_, ?_⟩
  · rw [← hrest]
    rfl
  · simpa using hsearched.nodup
  · intro x
    rw [hsearched.mem_iff, reflTransGen_iff_eq_or_transGen]
    exact or_congr_right (hmemDerived x).symm

/-- Two classes that are bases of each other, one of which is its own base too and derives from
what is no class. -/
def ringHierarchy : ClassHierarchy where
  classes := [
    ("Reader", { name := "Reader", bases := ["Writer"], derived := ["Writer"] }),
    ("Writer", { name := "Writer", bases := ["Reader", "Writer", "Stream"],
                 derived := ["Reader", "Writer", "Log"] })]

/-- The searches end, find the classes of the ring themselves and what is no class, and find
nothing from there. -/
theorem mem_basesOf_ringHierarchy :
    TransGen (ringHierarchy.LeadsTo (·.bases)) "Reader" "Reader" ∧
      ringHierarchy.basesOf "Reader" true = ["Writer", "Reader", "Stream"] ∧
      ringHierarchy.below "Reader" = ["Reader", "Writer", "Log"] ∧
      ringHierarchy.basesOf "Stream" true = [] := by
  obtain ⟨⟨_, hbases, _⟩, _, _⟩ := mem_basesOf_derivedOf_below_iff ringHierarchy "Reader"
  obtain ⟨⟨_, _, hunknown⟩, _, _⟩ := mem_basesOf_derivedOf_below_iff ringHierarchy "Stream"
  exact ⟨(hbases "Reader").1 (by decide), by decide, by decide, hunknown (by decide)⟩

end CodeAtlas.ClassHierarchy
