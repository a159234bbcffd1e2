import CodeAtlas.Finder.Search
import CodeAtlas.Proofs.Dict

/-!
# Following calls to a depth

A crawl goes depth first. It visits a name once, with as many levels left as the
way on which it comes there leaves, and does not follow it a second time when
another row names it on an earlier level.

`OnLevel step rows n x` says, without visits, that `x` stands on level `n` below
`rows`. What one row adds to a crawl is `crawlRow`, and `Crawled` is kept by
every row, so it is told of a whole crawl by induction on the levels: what is
found stands on one of them, and a name whose calls are not all found stands on
the last. So nothing is missed unless a name of the last level stands on an
earlier one as well.
-/

namespace CodeAtlas.Finder

open List

def Names (rows : List Row) (x : String) : Prop := x ≠ "" ∧ ∃ row ∈ rows, rowName row = x

def Follows (next : String → Option (List Row)) (y x : String) : Prop :=
  ∃ rows, next y = some rows ∧ Names rows x

/-- The levels below rows: these are the first one, and each step leads to the next. -/
inductive OnLevel (step : String → String → Prop) (rows : List Row) : Nat → String → Prop where
  | first {x : String} (h : Names rows x) : OnLevel step rows 1 x
  | next {n : Nat} {y x : String} (hy : OnLevel step rows n y) (hx : step y x) :
      OnLevel step rows (n + 1) x

section

variable {next : String → Option (List Row)} {n : Nat} {rows rows' : List Row} {c c₁ c₂ : Crawl}

theorem names_append {x : String} : Names (rows ++ rows') x ↔ Names rows x ∨ Names rows' x := by
  simp only [Names, mem_append, or_and_right, exists_or, and_or_left]

theorem OnLevel.mono {step : String → String → Prop} (h : ∀ x, Names rows x → Names rows' x)
    {x : String} (hx : OnLevel step rows n x) : OnLevel step rows' n x := by
  induction hx with
  | first hx => exact .first (h _ hx)
  | next _ hstep ih => exact .next ih hstep

theorem OnLevel.of_names {y : String} (hy : Names rows y)
    (hrows : ∀ x, Names rows' x → Follows next y x) {x : String}
    (hx : OnLevel (Follows next) rows' n x) : OnLevel (Follows next) rows (n + 1) x := by
  induction hx with
  | first hx => exact .next (.first hy) (hrows _ hx)
  | next _ hstep ih => exact .next ih hstep

/-- What a crawl over `n` levels below `rows` makes of `c`. -/
structure Crawled (next : String → Option (List Row)) (n : Nat) (rows : List Row) (c c' : Crawl) :
    Prop where
  kept : c.visited ⊆ c'.visited
  has_found : ∀ x, c'.found.has x = true ↔ c.found.has x = true ∨ x ∈ c'.visited ∧ x ∉ c.visited
  names : 0 < n → ∀ x, Names rows x → x ∈ c'.visited
  onLevel : ∀ x ∈ c'.visited, x ∉ c.visited → ∃ k ≤ n, OnLevel (Follows next) rows k x
  followed : ∀ x ∈ c'.visited, x ∉ c.visited → OnLevel (Follows next) rows n x ∨
    ∀ y, Follows next x y → y ∈ c'.visited

theorem crawled_self (h : 0 < n → ∀ x, Names rows x → x ∈ c.visited) : Crawled next n rows c c where
  kept := List.Subset.refl _
  has_found x := by tauto
  names := h
  onLevel x hx hnew := absurd hx hnew
  followed x hx hnew := absurd hx hnew

theorem Crawled.append (h₁ : Crawled next n rows c c₁) (h₂ : Crawled next n rows' c₁ c₂) :
    Crawled next n (rows ++ rows') c c₂ where
  kept x hx := h₂.kept (h₁.kept hx)
  has_found x := by
    have hold := @h₁.kept x
    have hnew := @h₂.kept x
    rw [h₂.has_found, h₁.has_found]
    tauto
  names hn x hx := (names_append.1 hx).elim (fun h => h₂.kept (h₁.names hn x h)) (h₂.names hn x)
  onLevel x hx hnew := by
    by_cases hfirst : x ∈ c₁.visited
    · obtain ⟨k, hk, hlevel⟩ := h₁.onLevel x hfirst hnew
      exact ⟨k, hk, hlevel.mono fun _ h => names_append.2 (.inl h)⟩
    · obtain ⟨k, hk, hlevel⟩ := h₂.onLevel x hx hfirst
      exact ⟨k, hk, hlevel.mono fun _ h => names_append.2 (.inr h)⟩
  followed x hx hnew := by
    by_cases hfirst : x ∈ c₁.visited
    · exact (h₁.followed x hfirst hnew).imp
        (fun h => h.mono fun _ h => names_append.2 (.inl h))
        (fun h y hy => h₂.kept (h y hy))
    · exact (h₂.followed x hx hfirst).imp_left fun h => h.mono fun _ h => names_append.2 (.inr h)

def Crawl.visit (c : Crawl) (row : Row) : Crawl :=
  { found := Dict.set c.found (rowName row) row, visited := rowName row :: c.visited }

/-- A row that is visited and followed over `n` levels. With none left, it stands on the last. -/
theorem Crawled.visit {row : Row} (hname : rowName row ≠ "") (hnew : rowName row ∉ c.visited)
    (hrows : ∀ x, Names rows x ↔ Follows next (rowName row) x)
    (h : Crawled next n rows (c.visit row) c₁) : Crawled next (n + 1) [row] c c₁ := by
  have hrow : Names [row] (rowName row) := ⟨hname, row, mem_cons_self, rfl⟩
  have hvisited : rowName row ∈ c₁.visited := h.kept mem_cons_self
  have hbelow {k : Nat} {x : String} (hx : OnLevel (Follows next) rows k x) :
      OnLevel (Follows next) [row] (k + 1) x := hx.of_names hrow fun x => (hrows x).1
  refine ⟨fun x hx => h.kept (mem_cons_of_mem _ hx), fun x => ?_, fun _ x hx => ?_,
    fun x hx hxnew => ?_, fun x hx hxnew => ?_⟩
  · rw [h.has_found, Crawl.visit, Dict.has_set, mem_cons]
    by_cases hx : x = rowName row
    · subst hx
      tauto
    · tauto
  · obtain ⟨_, r, hr, rfl⟩ := hx
    rwa [mem_singleton.1 hr]
  · by_cases hx' : x = rowName row
    · subst hx'
      exact ⟨1, by omega, .first hrow⟩
    · obtain ⟨k, hk, hlevel⟩ := h.onLevel x hx (by simp [Crawl.visit, hx', hxnew])
      exact ⟨k + 1, by omega, hbelow hlevel⟩
  · by_cases hx' : x = rowName row
    · subst hx'
      rcases Nat.eq_zero_or_pos n with rfl | hn
      · exact .inl (.first hrow)
      · exact .inr fun y hy => h.names hn y ((hrows y).2 hy)
    · exact (h.followed x hx (by simp [Crawl.visit, hx', hxnew])).imp_left hbelow

def crawlRow (next : String → Option (List Row)) (n : Nat) (c : Crawl) (row : Row) : Crawl :=
  if (rowName row).isEmpty || c.visited.contains (rowName row) then c
  else
    match next (rowName row) with
    | some rows => crawl next n rows (c.visit row)
    | none => c.visit row

theorem crawl_succ (next : String → Option (List Row)) (n : Nat) (rows : List Row) (c : Crawl) :
    crawl next (n + 1) rows c = rows.foldl (crawlRow next n) c := by
  rw [crawl]
  rfl

theorem crawled_crawlRow (h : ∀ rows c, Crawled next n rows c (crawl next n rows c)) (c : Crawl)
    (row : Row) : Crawled next (n + 1) [row] c (crawlRow next n c row) := by
  unfold crawlRow
  split_ifs with hskip
  · refine crawled_self fun _ x hx => ?_
    obtain ⟨hx, r, hr, rfl⟩ := hx
    rw [mem_singleton.1 hr] at hx ⊢
    simpa [hx] using hskip
  · simp only [Bool.or_eq_true, String.isEmpty_iff, contains_iff_mem, not_or] at hskip
    cases hnext : next (rowName row) with
    | some rows =>
      exact Crawled.visit hskip.1 hskip.2 (fun x => by simp [Follows, hnext]) (h rows _)
    | none =>
      have hnone : ∀ x, Names [] x ↔ Follows next (rowName row) x := by
        simp [Follows, hnext, Names]
      exact Crawled.visit hskip.1 hskip.2 hnone (crawled_self (by simp [Names]))

theorem crawled_crawl (next : String → Option (List Row)) (n : Nat) (rows : List Row) (c : Crawl) :
    Crawled next n rows c (crawl next n rows c) := by
  induction n generalizing rows c with
  | zero =>
    rw [crawl]
    exact crawled_self fun h => absurd h (Nat.lt_irrefl 0)
  | succ n ih =>
    rw [crawl_succ]
    induction rows generalizing c with
    | nil => exact crawled_self fun _ x hx => by simp [Names] at hx
    | cons row rows ihrows => exact (crawled_crawlRow ih c row).append (ihrows _)

end

/-- What is found when steps are followed over `n` levels below rows. All that is found stands on
one of the levels. A name whose steps are not all found stands on the last one. All levels are found
if and only if the steps are found of each name that stands on the last level and an earlier one. -/
structure Surveys (step : String → String → Prop) (rows : List Row) (n : Nat) (found : Dict Row) :
    Prop where
  onLevel : ∀ x, found.has x = true → ∃ k ≤ n, OnLevel step rows k x
  last : ∀ x, found.has x = true → (∃ y, step x y ∧ found.has y = false) → OnLevel step rows n x
  complete_iff : (∀ k ≤ n, ∀ x, OnLevel step rows k x → found.has x = true) ↔
    ∀ z, OnLevel step rows n z → (∃ k < n, OnLevel step rows k z) →
      ∀ x, step z x → found.has x = true

theorem surveys_crawl (next : String → Option (List Row)) (n : Nat) (rows : List Row) :
    Surveys (Follows next) rows n (crawl next n rows {}).found := by
  have h := crawled_crawl next n rows {}
  have hfound : ∀ x, (crawl next n rows {}).found.has x = true ↔
      x ∈ (crawl next n rows {}).visited := by
    intro x
    rw [h.has_found]
    simp [Dict.has, Dict.get?]
  have hlast : ∀ x, (crawl next n rows {}).found.has x = true →
      (∃ y, Follows next x y ∧ (crawl next n rows {}).found.has y = false) →
      OnLevel (Follows next) rows n x := by
    rintro x hx ⟨y, hy, hmissed⟩
    refine (h.followed x ((hfound x).1 hx) not_mem_nil).resolve_right fun hall => ?_
    rw [(hfound y).2 (hall y hy)] at hmissed
    cases hmissed
  refine ⟨fun x hx => h.onLevel x ((hfound x).1 hx) not_mem_nil, hlast, ?_, ?_⟩
  · rintro hall z _ ⟨k, hk, hz⟩ x hx
    exact hall (k + 1) hk x (.next hz hx)
  · intro hshared k hk x hx
    induction hx with
    | first hx => exact (hfound _).2 (h.names hk _ hx)
    | @next k y x hy hstep ih =>
      by_contra hmissed
      refine hmissed (hshared y ?_ ⟨k, hk, hy⟩ x hstep)
      exact hlast y (ih (by omega)) ⟨x, hstep, by simpa using hmissed⟩

/-- All levels are found if no name stands on the last one and an earlier one. -/
theorem Surveys.complete {step : String → String → Prop} {rows : List Row} {n : Nat}
    {found : Dict Row} (h : Surveys step rows n found)
    (hlast : ∀ z, OnLevel step rows n z → ∀ k < n, ¬ OnLevel step rows k z) :
    ∀ k ≤ n, ∀ x, OnLevel step rows k x → found.has x = true :=
  h.complete_iff.2 fun z hz ⟨k, hk, hzk⟩ => absurd hzk (hlast z hz k hk)

/-- One of the functions that call a function has the name. -/
def CodeBase.CalledFrom (b : CodeBase) (y x : String) : Prop :=
  x ≠ "" ∧ ∃ hit ∈ b.callersOf y 10, hit.definition.name = x

/-- One of the functions that the definition of a function calls has the name. -/
def CodeBase.CallsOn (b : CodeBase) (y x : String) : Prop :=
  x ≠ "" ∧ ∃ d, b.define? y = some d ∧ ∃ e ∈ b.calleesIn d.body, e.name = x

theorem rowName_of_str {row : Row} {name : String} (h : Dict.get? row "name" = some (.str name)) :
    rowName row = name := by
  rw [rowName, h]
  by_cases hname : name = ""
  · subst hname
    rfl
  · simp [Option.filter, Json.truthy, hname, Json.shown]

theorem rowName_toRow (d : Definition) : rowName d.toRow = d.name := rowName_of_str rfl

theorem rowName_hit (h : Hit) : rowName h.toRow = h.definition.name := rowName_of_str rfl

/-- What the crawls along callers and along called functions find. -/
theorem crawls_complete_iff (b : CodeBase) (depth : Int) (rows : List Row) :
    Surveys b.CalledFrom rows depth.toNat (b.crawlCallers depth rows []).found ∧
      Surveys b.CallsOn rows depth.toNat (b.crawlCallees depth rows []).found := by
  have hcallers : b.CalledFrom =
      Follows fun name => some ((b.callersOf name 10).map Hit.toRow) := by
    funext y x
    simp [CodeBase.CalledFrom, Follows, Names, rowName_hit]
  have hcallees : b.CallsOn = Follows fun name =>
      (b.define? name).map fun d => (b.calleesIn d.body).map Definition.toRow := by
    funext y x
    simp [CodeBase.CallsOn, Follows, Names, rowName_toRow, and_left_comm]
  rw [hcallers, hcallees]
  exact ⟨surveys_crawl _ _ _, surveys_crawl _ _ _⟩

/-- A file in which `a` calls `b` and `b` calls `c`. -/
def chainedCalls : CodeBase :=
  [⟨"x.c", "v a(){b();}\nv b(){c();}\nv c(){}",
    [⟨"a", "x.c", 1, "v a(){b();}"⟩, ⟨"b", "x.c", 2, "v b(){c();}"⟩, ⟨"c", "x.c", 3, "v c(){}"⟩]⟩]

/-- The function `b` is first met on the last level, below `a`, and is then not followed when the
rows name it themselves. -/
theorem crawlCallees_misses_second_level :
    let rows : List Row := [[("name", .str "a")], [("name", .str "b")]]
    OnLevel chainedCalls.CallsOn rows 2 "c" ∧
      (chainedCalls.crawlCallees 2 rows []).found.keys = ["a", "b"] := by
  intro rows
  have hcalls : (chainedCalls.define? "b").map
        (fun d => (chainedCalls.calleesIn d.body).map (·.name)) = some ["b", "c"] ∧
      (chainedCalls.crawlCallees 2 rows []).found.keys = ["a", "b"] := by
    decide +kernel
  obtain ⟨d, hd, hnames⟩ := Option.map_eq_some_iff.1 hcalls.1
  have hc : "c" ∈ (chainedCalls.calleesIn d.body).map (·.name) := by simp [hnames]
  have hb : Names rows "b" := ⟨by decide, _, mem_cons_of_mem _ mem_cons_self, rfl⟩
  exact ⟨.next (.first hb) ⟨by decide, d, hd, mem_map.1 hc⟩, hcalls.2⟩

end CodeAtlas.Finder
