import CodeAtlas.Proofs.Fault
import CodeAtlas.Proofs.Source.Rows
import CodeAtlas.Source.Block

/-!
# Definitions in sources

The statements of a source stand in blocks of lines. A statement gets definitions
other than itself only from the blocks below it (`Yields`, `definedAt_statements`), so
a definition that is not at the outermost level stands on an indented line
(`definedAt_of_parse`). Rows that begin with such a line do not parse
(`firstStatement?_cutRows`).
-/

namespace CodeAtlas.Source

open List Text

variable {c : Context} {step : List Item → Except Fault (List Tree × Nat)} {items : List Item}
  {trees : List Tree} (flaw : Option Flaw)

/-! ### Blocks of lines -/

/-- All lines of a layout, also those in its blocks. -/
inductive Layout.All (P : Line → Prop) : Layout → Prop
  | line {l : Line} (h : P l) : All P (.line l)
  | block {items : List Layout} (h : ∀ x ∈ items, All P x) : All P (.block items)

section

variable {P : Line → Prop} {lines : List Line}

theorem fitIndents_eq_self {opened : List Nat} (h : (fitIndents false opened lines).2 = true) :
    fitIndents false opened lines = (lines, true) := by
  induction lines generalizing opened with
  | nil => rfl
  | cons l lines ih =>
    cases hleft : blocksAt? opened l.indent with
    | none => simp [fitIndents, hleft] at h
    | some left =>
      have hrest : (fitIndents false left lines).2 = true := by simpa [fitIndents, hleft] using h
      simp [fitIndents, hleft, ih hrest]

theorem forall_mem_blockOf {Q : Layout → Prop} {items : List Layout} (h : Q (.block items)) :
    ∀ x ∈ blockOf items, Q x := by
  unfold blockOf
  split
  · simp
  · exact forall_mem_singleton.2 h

theorem all_layoutOf (h : ∀ l ∈ lines, P l) : ∀ x ∈ layoutOf lines, x.All P := by
  fun_induction layoutOf lines with
  | case1 => simp
  | case2 l rest ihinner ihrest =>
    obtain ⟨hl, hrest⟩ := forall_mem_cons.1 h
    have hinner := ihinner fun x hx => hrest x ((takeWhile_sublist _).subset hx)
    exact forall_mem_cons.2 ⟨.line hl, forall_mem_append.2
      ⟨forall_mem_blockOf (.block hinner),
        ihrest fun x hx => hrest x ((dropWhile_sublist _).subset hx)⟩⟩

theorem layoutOf_eq_nil : layoutOf lines = [] ↔ lines = [] := by
  cases lines <;> simp [layoutOf]

theorem all_of_mem_layoutOf (h : ∀ l ∈ lines, 0 < l.indent → P l) :
    ∀ x ∈ layoutOf lines, ∀ items, x = .block items → x.All P := by
  fun_induction layoutOf lines with
  | case1 => simp
  | case2 l rest _ ihrest =>
    have hrest := (forall_mem_cons.1 h).2
    refine forall_mem_cons.2 ⟨by simp, forall_mem_append.2 ⟨?_, ?_⟩⟩
    · refine forall_mem_blockOf fun _ _ => .block (all_layoutOf fun x hx => ?_)
      have hdeeper : l.indent < x.indent := by simpa using mem_takeWhile_imp hx
      exact hrest x ((takeWhile_sublist _).subset hx) (Nat.zero_lt_of_lt hdeeper)
    · exact ihrest fun x hx => hrest x ((dropWhile_sublist _).subset hx)

theorem layoutItems_eq_map (items : List Layout) :
    layoutItems flaw items = items.map (Layout.item flaw) := by
  induction items with
  | nil => rfl
  | cons x items ih => rw [layoutItems, ih, map_cons]

end

/-! ### Where definitions stand -/

/-- Every definition in the tree begins at one of the given rows. -/
inductive Tree.DefinedAt (D : Nat → Prop) : Tree → Prop
  | value (v : Value) : DefinedAt D (.value v)
  | node {kind : NodeKind} {first last : Nat} {children : List Tree}
      (hfirst : kind ≠ .other → D first) (h : ∀ t ∈ children, DefinedAt D t) :
      DefinedAt D (.node kind first last children)

section

variable {D : Nat → Prop} {α β : Type}

theorem Tree.DefinedAt.plain {children : List Tree} (h : ∀ t ∈ children, t.DefinedAt D) :
    (Tree.plain children).DefinedAt D := .node (by simp) h

theorem Tree.DefinedAt.children {t : Tree} (h : t.DefinedAt D) :
    ∀ child ∈ t.children, child.DefinedAt D := by
  cases h with
  | value v =>
    intro child hchild
    obtain ⟨w, -, rfl⟩ := mem_map.1 hchild
    exact .value w
  | node _ h => exact h

def Parse.Gives (p : Parse α) (Q : α → Prop) : Prop :=
  ∀ place a place', p place = .ok (a, place') → Q a

namespace Parse.Gives

theorem pure {a : α} {Q : α → Prop} (h : Q a) : Gives (pure a) Q := by
  intro place b place' hrun
  cases hrun
  exact h

theorem bind {p : Parse α} {f : α → Parse β} {Q : β → Prop} (h : ∀ a, Gives (f a) Q) :
    Gives (p >>= f) Q := by
  intro place b place' hrun
  obtain ⟨⟨a, next⟩, -, hnext⟩ := exists_of_bind_eq_ok (x := p place) hrun
  exact h a next b place' hnext

end Parse.Gives

def Item.Fine (D : Nat → Prop) : Item → Prop
  | .line _ => True
  | .block b => ∀ ts, b.statements = .ok ts ∨ b.cases = .ok ts → ∀ t ∈ ts, t.DefinedAt D

namespace Reader

def Yields (D : Nat → Prop) (r : Reader α) (Q : α → Prop) : Prop :=
  ∀ c s a s', r c s = .ok (a, s') → (∀ x ∈ s.below, x.Fine D) → Q a ∧ ∀ x ∈ s'.below, x.Fine D

def YieldsTrees (D : Nat → Prop) (r : Reader (List Tree)) : Prop :=
  r.Yields D fun ts => ∀ t ∈ ts, t.DefinedAt D

theorem Yields.bind {r : Reader α} {f : α → Reader β} {P : α → Prop} {Q : β → Prop}
    (hr : r.Yields D P) (hf : ∀ a, P a → (f a).Yields D Q) : (r >>= f).Yields D Q := by
  intro c s b s' h hs
  obtain ⟨⟨a, s₁⟩, hrun, hnext⟩ := exists_of_bind_eq_ok (x := r c s) h
  obtain ⟨ha, hs₁⟩ := hr c s a s₁ hrun hs
  exact hf a ha c s₁ b s' hnext hs₁

theorem Yields.pure {a : α} {Q : α → Prop} (h : Q a) : (pure a : Reader α).Yields D Q := by
  intro c s b s' hrun hs
  cases hrun
  exact ⟨h, hs⟩

theorem yields_throw (e : Fault) (Q : α → Prop) : (throw e : Reader α).Yields D Q := by
  intro c s b s' hrun
  cases hrun

theorem yields_get : (get : Reader Site).Yields D fun _ => True := by
  intro c s a s' hrun hs
  cases hrun
  exact ⟨trivial, hs⟩

theorem yields_failBelow (Q : α → Prop) : (failBelow : Reader α).Yields D Q := by
  intro c s a s' hrun
  cases hrun

theorem yields_onLine {p : Nat → Parse α} {Q : α → Prop} (h : ∀ n, (p n).Gives Q) :
    (onLine p).Yields D Q := by
  intro c s b s' hrun hs
  have hbind : onLine p c s = ((p s.depth ⟨s.ahead, c.flaw⟩).bind fun r => .ok (r, s)).bind
      fun q => .ok (q.1.1, { s with ahead := q.1.2.ahead }) := rfl
  rw [hbind] at hrun
  rcases hp : p s.depth ⟨s.ahead, c.flaw⟩ with e | ⟨a, place⟩
  · rw [hp] at hrun
    cases hrun
  · rw [hp] at hrun
    cases hrun
    exact ⟨h _ _ _ _ hp, hs⟩

theorem yields_onLine_any (p : Nat → Parse α) : (onLine p).Yields D fun _ => True :=
  yields_onLine fun _ _ _ _ _ => trivial

theorem yields_nextLine (word : String) : (nextLine word).Yields D fun _ => True := by
  intro c ⟨ahead, depth, last, below⟩ b s' hrun hs
  refine ⟨trivial, ?_⟩
  rcases below with _ | ⟨⟨l⟩ | b, below⟩
  · cases hrun
    exact hs
  · have hnext : nextLine word c ⟨ahead, depth, last, .line l :: below⟩ =
        (if l.starts (Parse.isWord · word) = true then (do
          set { Site.ofLine l below with ahead := l.tokens.tail }
          return true : Reader Bool) else return false) c
        ⟨ahead, depth, last, .line l :: below⟩ := rfl
    rw [hnext] at hrun
    split at hrun
    · cases hrun
      exact (forall_mem_cons.1 hs).2
    · cases hrun
      exact hs
  · cases hrun
    exact hs

theorem yields_takeBlock {contents : Body → Except Fault (List Tree)}
    (h : contents = Body.statements ∨ contents = Body.cases) :
    (takeBlock contents).YieldsTrees D := by
  intro c ⟨ahead, depth, last, below⟩ ts s' hrun hs
  rcases below with _ | ⟨⟨l⟩ | b, below⟩
  · cases hrun
  · cases hrun
  · have hbind : takeBlock contents c ⟨ahead, depth, last, .block b :: below⟩ =
        (contents b).bind fun ts => .ok (ts, ⟨ahead, depth, b.last, below⟩) := rfl
    rw [hbind] at hrun
    obtain ⟨ts, hb, hrun⟩ := exists_of_bind_eq_ok hrun
    cases hrun
    obtain ⟨hfine, hrest⟩ := forall_mem_cons.1 hs
    refine ⟨hfine ts ?_, hrest⟩
    rcases h with rfl | rfl
    · exact .inl hb
    · exact .inr hb

theorem yields_simpleStatements : (onLine simpleStatements).Yields D fun ts =>
    ∀ t ∈ ts, t.DefinedAt D ∧ t.kind = .other := by
  refine yields_onLine fun n => .bind fun statements => .bind fun _ => .pure ?_
  simpa using fun values _ => ⟨.plain (by simpa using fun v _ => .value v), rfl⟩

theorem yields_suite : suite.YieldsTrees D := by
  refine .bind (yields_onLine_any _) fun _ _ => .bind yields_get fun site _ => ?_
  split
  · exact yields_takeBlock (.inl rfl)
  · intro c s ts s' hrun hs
    exact (yields_simpleStatements c s ts s' hrun hs).imp_left fun h t ht => (h t ht).1

theorem yields_suiteAfter (word : String) : (suiteAfter word).YieldsTrees D := by
  refine .bind (yields_nextLine word) fun found _ => ?_
  split
  · exact yields_suite
  · exact .pure (by simp)

theorem yields_clause (header : Nat → Parse (List Value)) : (clause header).YieldsTrees D := by
  refine .bind (yields_onLine_any _) fun values _ => .bind yields_suite fun body hbody => .pure ?_
  simpa [or_imp, forall_and, Tree.DefinedAt.value] using hbody

theorem yields_choice (n : Nat) : (choice n).YieldsTrees D := by
  induction n with
  | zero => exact yields_throw _ _
  | succ n ih =>
    refine .bind (yields_clause _) fun body hbody => .bind (yields_nextLine _) fun found _ => ?_
    split
    · exact .bind ih fun others hothers => .pure
        (forall_mem_append.2 ⟨hbody, by simpa using .plain hothers⟩)
    · exact .bind (yields_suiteAfter _) fun otherwise hotherwise => .pure
        (forall_mem_append.2 ⟨hbody, hotherwise⟩)

theorem yields_loop (header : Nat → Parse (List Value)) : (loop header).YieldsTrees D :=
  .bind (yields_clause _) fun _ hbody => .bind (yields_suiteAfter _) fun _ hotherwise =>
    .pure (forall_mem_append.2 ⟨hbody, hotherwise⟩)

theorem yields_handlers (n : Nat) : (handlers n).Yields D fun hs => ∀ h ∈ hs, h.2.DefinedAt D := by
  induction n with
  | zero => exact .pure (by simp)
  | succ n ih =>
    refine .bind (yields_nextLine _) fun found _ => ?_
    split
    · exact .pure (by simp)
    · exact .bind (yields_onLine_any _) fun grouped _ => .bind (yields_clause _) fun body hbody =>
        .bind ih fun others hothers => .pure (forall_mem_cons.2 ⟨.plain hbody, hothers⟩)

theorem yields_attempt : attempt.YieldsTrees D := by
  refine .bind yields_suite fun body hbody => .bind yields_get fun site _ =>
    .bind (yields_handlers _) fun handlers hhandlers => ?_
  split
  · exact yields_failBelow _
  · have helse : (if handlers.isEmpty then return [] else suiteAfter "else").YieldsTrees D := by
      split
      · exact .pure (by simp)
      · exact yields_suiteAfter _
    refine .bind helse fun otherwise hotherwise =>
      .bind (yields_suiteAfter _) fun final hfinal => ?_
    split
    · exact yields_failBelow _
    · refine .pure ?_
      simp only [forall_mem_append, forall_mem_map]
      exact ⟨⟨⟨hbody, hhandlers⟩, hotherwise⟩, hfinal⟩

theorem yields_startedBy {forms : List (String × Reader (List Tree))}
    (h : ∀ f ∈ forms, f.2.YieldsTrees D) :
    (startedBy forms).Yields D fun parts => ∀ ts ∈ parts, ∀ t ∈ ts, t.DefinedAt D := by
  induction forms with
  | nil => exact .pure (by simp)
  | cons f forms ih =>
    rw [forall_mem_cons] at h
    refine .bind (yields_onLine_any _) fun found _ => ?_
    split
    · exact .bind h.1 fun ts hts => .pure (by simpa using hts)
    · exact ih h.2

theorem yields_plainStatement : plainStatement.Yields D fun ts =>
    ∀ t ∈ ts, t.DefinedAt D ∧ t.kind = .other := by
  have hforms : ∀ isAsync : Bool, ∀ f ∈ asyncForms ++ if isAsync then [] else plainForms,
      f.2.YieldsTrees D := by
    have hchoice : (do choice ((← get).below.length + 1) : Reader _).YieldsTrees D :=
      .bind yields_get fun _ _ => yields_choice _
    intro isAsync
    cases isAsync <;>
      simp [asyncForms, plainForms, yields_loop, yields_clause, yields_attempt, hchoice]
  refine .bind (yields_onLine_any _) fun isAsync _ => .bind (yields_startedBy (hforms isAsync))
    fun parts hparts => ?_
  split
  · next ts => exact .pure (by simpa using ⟨.plain (hparts ts rfl), rfl⟩)
  split
  · exact yields_onLine fun n place a place' hrun => by cases hrun
  refine .bind (yields_onLine_any _) fun subject _ => ?_
  split
  · next subject =>
      exact .bind (yields_takeBlock (.inr rfl)) fun cases hcases => .pure (by
        simpa using ⟨.plain (forall_mem_cons.2 ⟨.value subject, hcases⟩), rfl⟩)
  · exact yields_simpleStatements

theorem yields_case : case.Yields D fun t => t.DefinedAt D :=
  .bind (yields_clause _) fun _ hbody => .pure (.plain hbody)

theorem yields_definition (first : Nat) : (definition first).Yields D fun t =>
    ∃ kind last children, t = .node kind first last children ∧ ∀ c ∈ children, c.DefinedAt D := by
  refine .bind (yields_onLine_any _) fun head _ => .bind yields_suite fun body hbody =>
    .bind yields_get fun site _ => .pure ⟨_, _, _, rfl, ?_⟩
  simpa [or_imp, forall_and, Tree.DefinedAt.value] using hbody

end Reader

/-! ### Statements in blocks -/

theorem decorators_suffix {flaw : Option Flaw} {below : List Item} {values : List Value}
    (h : decorators flaw items = .ok (values, below)) : below <:+ items := by
  induction items generalizing values below with
  | nil =>
    cases h
    exact suffix_rfl
  | cons x rest ih =>
    cases x with
    | block b =>
      cases h
      exact suffix_rfl
    | line l =>
      rw [decorators] at h
      split at h
      · obtain ⟨⟨value, place⟩, -, h⟩ := exists_of_bind_eq_ok h
        obtain ⟨⟨values', below'⟩, hrest, h⟩ := exists_of_bind_eq_ok h
        cases h
        exact (ih hrest).trans (suffix_cons _ _)
      · cases h
        exact suffix_rfl

theorem statement_cases {taken : Nat} (h : statement c items = .ok (trees, taken)) :
    ∃ values l below site, .line l :: below <:+ items ∧
      ((∃ t, Reader.definition l.first c (.ofLine l below) = .ok (t, site) ∧
        trees = [t.decorate values]) ∨
      Reader.plainStatement c (.ofLine l below) = .ok (trees, site)) := by
  unfold statement at h
  obtain ⟨⟨values, below⟩, hdec, h⟩ := exists_of_bind_eq_ok h
  have hsuffix := decorators_suffix hdec
  dsimp only at h
  split at h
  · next l below =>
      split at h
      · obtain ⟨⟨t, site⟩, hrun, h⟩ := exists_of_bind_eq_ok h
        cases h
        exact ⟨values, l, below, site, hsuffix, .inl ⟨t, hrun, rfl⟩⟩
      split at h
      · obtain ⟨⟨ts, site⟩, hrun, h⟩ := exists_of_bind_eq_ok h
        cases h
        exact ⟨values, l, below, site, hsuffix, .inr hrun⟩
      · cases h
  · cases h

theorem step_of_readAll {n : Nat} (h : readAll step n items = .ok trees) :
    items = [] ∨ ∃ r, step items = .ok r := by
  rcases items with _ | ⟨x, items⟩
  · exact .inl rfl
  · cases n with
    | zero => cases h
    | succ n =>
      obtain ⟨r, hstep, -⟩ := exists_of_bind_eq_ok (x := step (x :: items)) h
      exact .inr ⟨r, hstep⟩

theorem readAll_cases {n : Nat} (h : readAll step n items = .ok trees) {t : Tree} (ht : t ∈ trees) :
    ∃ here ts taken, here <:+ items ∧ step here = .ok (ts, taken) ∧ t ∈ ts := by
  induction n generalizing items trees with
  | zero =>
    cases items with
    | nil =>
      cases h
      cases ht
    | cons x items => cases h
  | succ n ih =>
    cases items with
    | nil =>
      cases h
      cases ht
    | cons x items =>
      obtain ⟨⟨ts, taken⟩, hstep, h⟩ := exists_of_bind_eq_ok (x := step (x :: items)) h
      obtain ⟨others, hothers, h⟩ := exists_of_bind_eq_ok h
      cases h
      rcases mem_append.1 ht with ht | ht
      · exact ⟨_, ts, taken, suffix_rfl, hstep, ht⟩
      · obtain ⟨here, ts', taken', hhere, hrest⟩ := ih hothers ht
        exact ⟨here, ts', taken', hhere.trans (drop_suffix _ _), hrest⟩

theorem Tree.exists_decorate (values : List Value) (kind : NodeKind) (first last : Nat)
    (children : List Tree) : ∃ kind' children',
      (Tree.node kind first last children).decorate values = .node kind' first last children' ∧
      ∀ t ∈ children', t ∈ children ∨ ∃ v, t = .value v := by
  have happend : ∀ t ∈ children ++ values.map .value, t ∈ children ∨ ∃ v, t = .value v := by
    intro t ht
    rcases mem_append.1 ht with ht | ht
    · exact .inl ht
    · obtain ⟨v, -, rfl⟩ := mem_map.1 ht
      exact .inr ⟨v, rfl⟩
  cases kind with
  | function isAsync name params n =>
    refine ⟨_, _, rfl, fun t ht => happend t ?_⟩
    simp only [mem_append] at ht ⊢
    rcases ht with (ht | ht) | ht
    · exact .inl ((List.dropLast_prefix _).subset ht)
    · exact .inr ht
    · exact .inl (mem_of_mem_drop ht)
  | classDef name => exact ⟨_, _, rfl, happend⟩
  | other => exact ⟨_, _, rfl, happend⟩

theorem definedAt_statements (hitems : ∀ x ∈ items, x.Fine D) (h : statements c items = .ok trees) :
    ∀ t ∈ trees, (∀ child ∈ t.children, child.DefinedAt D) ∧
      ((∀ l, .line l ∈ items → D l.first) → t.DefinedAt D) := by
  intro t ht
  obtain ⟨here, ts, taken, hhere, hstep, hts⟩ := readAll_cases h ht
  obtain ⟨values, l, below, site, hsuffix, ⟨t, hrun, rfl⟩ | hrun⟩ := statement_cases hstep
  all_goals
    have hmem := fun x hx => hhere.subset (hsuffix.subset (a := x) hx)
    have hbelow : ∀ x ∈ below, x.Fine D := fun x hx => hitems x (hmem x (mem_cons_of_mem _ hx))
  · obtain ⟨⟨kind, last, children, rfl, hchildren⟩, -⟩ :=
      Reader.yields_definition l.first c _ _ _ hrun hbelow
    obtain ⟨kind', children', hdecorate, hold⟩ :=
      Tree.exists_decorate values kind l.first last children
    have hall : ∀ child ∈ children', child.DefinedAt D := by
      intro child hchild
      rcases hold child hchild with hchild | ⟨v, rfl⟩
      · exact hchildren child hchild
      · exact .value v
    rw [mem_singleton.1 hts, hdecorate]
    exact ⟨hall, fun hlines => .node (fun _ => hlines l (hmem _ mem_cons_self)) hall⟩
  · have hdefined := ((Reader.yields_plainStatement c _ _ _ hrun hbelow).1 t hts).1
    exact ⟨hdefined.children, fun _ => hdefined⟩

theorem definedAt_cases (hitems : ∀ x ∈ items, x.Fine D) (h : cases c items = .ok trees) :
    ∀ t ∈ trees, t.DefinedAt D := by
  intro t ht
  obtain ⟨here, ts, taken, hhere, hstep, hts⟩ := readAll_cases h ht
  rcases here with _ | ⟨⟨l⟩ | b, below⟩
  · cases hstep
  · obtain ⟨⟨t', site⟩, hrun, hstep⟩ := exists_of_bind_eq_ok hstep
    cases hstep
    rw [mem_singleton.1 hts]
    exact (Reader.yields_case c _ _ _ hrun fun x hx =>
      hitems x (hhere.subset (mem_cons_of_mem _ hx))).1
  · cases hstep

theorem fine_item {x : Layout} (h : x.All fun l => D l.first) :
    (x.item flaw).Fine D ∧ ∀ l, x.item flaw = .line l → D l.first := by
  induction h with
  | line hl =>
    refine ⟨trivial, fun l h => ?_⟩
    cases h
    exact hl
  | @block items _ ih =>
    have hitems : ∀ y ∈ layoutItems flaw items, y.Fine D ∧ ∀ l, y = .line l → D l.first := by
      rw [layoutItems_eq_map]
      simpa using ih
    refine ⟨?_, fun l h => by cases h⟩
    rintro ts (h | h) t ht
    · exact (definedAt_statements (fun y hy => (hitems y hy).1) h t ht).2 fun l hl =>
        (hitems _ hl).2 l rfl
    · exact definedAt_cases (fun y hy => (hitems y hy).1) h t ht

end

/-! ### Parses of sources and of their parts -/

section

variable {n : Nat} {source : String}

theorem statement_block_ne_ok (c : Context) (b : Body) (below : List Item) (r : List Tree × Nat) :
    statement c (.block b :: below) ≠ .ok r := by
  intro h
  cases h

theorem exists_of_parse (h : parse n source = .ok trees) :
    ∃ lines, readLines n 0 (rows source) = (lines, none) ∧
      statements ⟨none, false⟩ (layoutItems none
        (blockOf (layoutOf (lines.takeWhile (0 < ·.indent))) ++
          layoutOf (lines.dropWhile (0 < ·.indent)))) = .ok trees := by
  unfold parse layout at h
  rcases hlines : readLines n 0 (rows source) with ⟨lines, flaw⟩
  rw [hlines] at h
  dsimp only at h
  obtain ⟨trees', htrees, h⟩ := exists_of_bind_eq_ok h
  cases hfits : (fitIndents flaw.isSome [] lines).2 with
  | false =>
    rw [hfits] at h
    cases h
  | true =>
    rw [hfits, if_pos rfl] at htrees h
    cases flaw with
    | some f => cases h
    | none =>
      cases h
      rw [Option.isSome_none] at htrees hfits
      rw [fitIndents_eq_self hfits] at htrees
      exact ⟨lines, rfl, htrees⟩

theorem parse_ne_ok_of_indented {row : List Char} {below : List (List Char)} {indent : Nat}
    {c : Char} {rest : List Char} (hrows : rows source = row :: below)
    (hindent : indentOf 0 row = (indent, c :: rest)) (hpos : 0 < indent) (hcomment : c ≠ '#')
    (hslash : c ≠ '\\') : parse n source ≠ .ok trees := by
  intro h
  obtain ⟨lines, hlines, htrees⟩ := exists_of_parse h
  rw [hrows, readLines_of_token hindent hcomment hslash rfl] at hlines
  split at hlines
  · cases hlines
  · rw [Prod.mk.injEq] at hlines
    rw [← hlines.1, takeWhile_cons_of_pos (by simpa using hpos), blockOf,
      if_neg (by simp [layoutOf_eq_nil])] at htrees
    rcases step_of_readAll htrees with hnil | ⟨r, hr⟩
    · cases hnil
    · exact statement_block_ne_ok _ _ _ r hr

/-- The rows of a source from one number to another, with line feeds between them. -/
def cutRows (source : String) (first last : Nat) : String :=
  join "\n" ((((rows source).take last).drop (first - 1)).map String.ofList)

theorem firstStatement?_cutRows (hrows : ∀ row ∈ rows source, ¬ ['\\'] <:+ row)
    {lines : List Line} (hlines : readLines 1 0 (rows source) = (lines, none)) {l : Line}
    (hl : l ∈ lines) (hindent : 0 < l.indent) (last : Nat) :
    firstStatement? l.first (cutRows source l.first last) = none := by
  obtain ⟨k, row, below, c, rest, hfirst, hdrop, hrow, hcomment, hslash⟩ :=
    exists_row_of_mem hrows hlines hl
  have hfeeds : ∀ c ∈ row, (c == '\n') = false :=
    not_ends_of_mem_rowsList (mem_of_mem_drop (hdrop ▸ mem_cons_self))
  have hne : row ≠ [] := by
    rintro rfl
    simp [indentOf] at hrow
  have hnone : ∀ t ts, parse l.first (cutRows source l.first last) ≠ .ok (t :: ts) := by
    intro t ts
    unfold cutRows
    rw [hfirst, Nat.add_sub_cancel_left, drop_take, hdrop]
    cases last - k with
    | zero =>
      intro h
      obtain ⟨lines, hlines, h⟩ := exists_of_parse h
      rw [take_zero, show rows (join "\n" ([].map String.ofList)) = [] from rfl,
        readLines] at hlines
      cases hlines
      simp only [takeWhile_nil, dropWhile_nil, layoutOf] at h
      cases h
    | succ m =>
      obtain ⟨rows, hcut⟩ := exists_rows_join hne hfeeds (below.take m)
      exact parse_ne_ok_of_indented hcut hrow hindent hcomment hslash
  unfold firstStatement?
  split
  · next t ts h => exact absurd h (hnone t ts)
  · rfl

/-- Definitions that are not at the outermost level stand on indented lines. -/
theorem definedAt_of_parse (h : parse n source = .ok trees) :
    ∃ lines, readLines n 0 (rows source) = (lines, none) ∧ ∀ t ∈ trees, ∀ child ∈ t.children,
      child.DefinedAt fun first => ∃ l ∈ lines, 0 < l.indent ∧ l.first = first := by
  obtain ⟨lines, hlines, htrees⟩ := exists_of_parse h
  refine ⟨lines, hlines, fun t ht => (definedAt_statements ?_ htrees t ht).1⟩
  rw [layoutItems_eq_map, forall_mem_map]
  have hblocks : ∀ x ∈ blockOf (layoutOf (lines.takeWhile (0 < ·.indent))) ++
      layoutOf (lines.dropWhile (0 < ·.indent)), ∀ items, x = .block items →
        x.All fun l => ∃ l' ∈ lines, 0 < l'.indent ∧ l'.first = l.first := by
    refine forall_mem_append.2 ⟨forall_mem_blockOf fun _ _ => ?_, all_of_mem_layoutOf ?_⟩
    · exact .block (all_layoutOf fun l hl => ⟨l, (takeWhile_sublist _).subset hl,
        by simpa using mem_takeWhile_imp hl, rfl⟩)
    · exact fun l hl hindent => ⟨l, (dropWhile_sublist _).subset hl, hindent, rfl⟩
  intro x hx
  cases x with
  | line l => trivial
  | block items => exact (fine_item none (hblocks _ hx items rfl)).1

end

end CodeAtlas.Source
