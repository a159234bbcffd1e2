import CodeAtlas.Proofs.Search.Words
import CodeAtlas.Proofs.Session

/-!
# The best functions for a description

A function is worth points for each keyword, by the fields in which the keyword
occurs (`points`). The search goes through the keywords and keeps the points and
the keywords that were found side by side. One look adds points if and only if
it finds the keyword (`Score.Adds`), so at the end the points are a sum over the
keywords, and there are some if one keyword was found.

The answer is cut from a ranking: the functions with the most points come first,
and functions with equally many points stay in the order of the database
(`IsRanking`).
-/

namespace CodeAtlas

open List Dict

variable {f : Row} {keyword : String} {keywords : List String}

/-! ### Rankings -/

section

variable {α : Type} {key : α → Int} {l ranked : List α}

/-- The list is ordered by a key, the greatest first. Items with the same key keep their order. -/
structure IsRanking (key : α → Int) (l ranked : List α) : Prop where
  perm : ranked.Perm l
  descending : ranked.Pairwise fun a b => key b ≤ key a
  stable : ∀ n, ranked.filter (key · == n) = l.filter (key · == n)

theorem isRanking_mergeSort (key : α → Int) (l : List α) :
    IsRanking key l (l.mergeSort fun a b => key a ≥ key b) := by
  have htrans : ∀ a b c : α, decide (key a ≥ key b) = true → decide (key b ≥ key c) = true →
      decide (key a ≥ key c) = true := by
    intro a b c hab hbc
    rw [decide_eq_true_eq] at hab hbc ⊢
    exact Int.le_trans hbc hab
  have htotal : ∀ a b : α, (decide (key a ≥ key b) || decide (key b ≥ key a)) = true := by
    intro a b
    rw [Bool.or_eq_true, decide_eq_true_eq, decide_eq_true_eq]
    exact Int.le_total (key b) (key a)
  have hperm := mergeSort_perm l fun a b => decide (key a ≥ key b)
  refine ⟨hperm, ?_, ?_⟩
  · exact (pairwise_mergeSort htrans htotal l).imp fun h => of_decide_eq_true h
  · intro n
    -- the items with one key are in order already, so sorting keeps them as they are
    have hequal : (l.filter (key · == n)).Pairwise fun a b => decide (key a ≥ key b) = true := by
      apply pairwise_of_forall_mem_list
      intro a ha b hb
      have hka : key a = n := by simpa using of_mem_filter ha
      have hkb : key b = n := by simpa using of_mem_filter hb
      rw [hka, hkb]
      exact decide_eq_true (Int.le_refl n)
    have hsub := sublist_mergeSort htrans htotal hequal filter_sublist
    have hfilter := hsub.filter (key · == n)
    rw [filter_filter] at hfilter
    simp only [Bool.and_self] at hfilter
    exact (hfilter.eq_of_length (hperm.filter _).length_eq.symm).symm

theorem IsRanking.le_of_mem_drop (h : IsRanking key l ranked) {n : Nat} {a b : α}
    (ha : a ∈ ranked.take n) (hb : b ∈ ranked.drop n) : key b ≤ key a := by
  have hsplit := h.descending
  rw [← take_append_drop n ranked, pairwise_append] at hsplit
  exact hsplit.2.2 a ha b hb

end

namespace Search

open Run Text

/-! ### Points -/

def fieldPoints : Dict Nat := [("name", 10), ("signature", 5), ("namespace", 3), ("body", 2)]

def mentions (f : Row) (keyword field : String) : Bool :=
  match Dict.get? f field with
  | some (.str text) => occursIn keyword (lower text)
  | _ => false

def points (f : Row) (keyword : String) : Nat :=
  (fieldPoints.map fun (field, n) => if mentions f keyword field then n else 0).sum

def Fits (f : Row) (keyword : String) : Prop :=
  ∃ field ∈ fieldPoints.keys, mentions f keyword field = true

theorem points_pos_iff : 0 < points f keyword ↔ Fits f keyword := by
  simp only [points, Fits, fieldPoints, Dict.keys, map_cons, map_nil, sum_cons,
    sum_nil, exists_mem_cons_iff, not_mem_nil, false_and, exists_false, or_false]
  cases mentions f keyword "name" <;> cases mentions f keyword "signature" <;>
    cases mentions f keyword "namespace" <;> cases mentions f keyword "body" <;> simp

theorem sum_points_pos_iff : 0 < (keywords.map (points f)).sum ↔ ∃ k ∈ keywords, Fits f k := by
  rw [List.sum_pos_iff_exists_pos_nat]
  simp [points_pos_iff]

/-- A function as the search can score it: its name is a text, and its other fields are texts, too,
unless they are missing or empty. -/
structure IsScorable (f : Row) : Prop where
  named : ∃ name, Dict.get? f "name" = some (.str name)
  texts : ∀ field ∈ ["signature", "namespace", "body"], ∀ value,
    Dict.get? f field = some value → value.truthy = true → ∃ text, value = .str text

/-- A look for a keyword added points and noted the keyword if there were some. -/
structure Score.Adds (s : Score) (keyword : String) (n : Nat) (s' : Score) : Prop where
  points_eq : s'.points = s.points + n
  mem_matched_iff : ∀ k, k ∈ s'.matched ↔ k ∈ s.matched ∨ 0 < n ∧ k = keyword

theorem Score.Adds.trans {s s' s'' : Score} {n m : Nat} (h : s.Adds keyword n s')
    (h' : s'.Adds keyword m s'') : s.Adds keyword (n + m) s'' := by
  refine ⟨?_, ?_⟩
  · rw [h'.points_eq, h.points_eq, Nat.add_assoc]
  · intro k
    rw [h'.mem_matched_iff, h.mem_matched_iff, Nat.add_pos_iff_pos_or_pos, or_assoc, ← or_and_right]

theorem Score.adds_zero (s : Score) (keyword : String) : s.Adds keyword 0 s := by
  refine ⟨rfl, ?_⟩
  intro k
  simp

theorem exists_scoreField {field : String} (hkeyword : keyword ≠ "") {weight : Nat}
    (hweight : 0 < weight)
    (htext : ∀ value, Dict.get? f field = some value → value.truthy = true →
      ∃ text, value = .str text)
    (s : Score) :
    ∃ s', scoreField f keyword field weight s = .ok s' ∧
      s.Adds keyword (if mentions f keyword field then weight else 0) s' := by
  have hfound : s.Adds keyword weight ⟨s.points + weight, addNew s.matched keyword⟩ := by
    refine ⟨rfl, ?_⟩
    intro k
    rw [mem_addNew]
    simp [hweight]
  cases hvalue : Dict.get? f field with
  | none =>
    refine ⟨s, ?_, ?_⟩
    · rw [scoreField, hvalue]
      rfl
    · rw [mentions, hvalue]
      exact s.adds_zero keyword
  | some value =>
    by_cases htruthy : value.truthy = true
    · obtain ⟨text, rfl⟩ := htext value hvalue htruthy
      have hmentions : mentions f keyword field = occursIn keyword (lower text) := by
        rw [mentions, hvalue]
      rw [scoreField, hvalue, hmentions]
      dsimp only [Option.getD_some, Json.textFor, bind, Except.bind]
      rw [if_pos htruthy]
      by_cases hoccurs : occursIn keyword (lower text) = true
      · rw [if_pos hoccurs, if_pos hoccurs]
        exact ⟨_, rfl, hfound⟩
      · rw [if_neg hoccurs, if_neg hoccurs]
        exact ⟨s, rfl, s.adds_zero keyword⟩
    · -- an empty text holds no keyword
      have hmentions : mentions f keyword field = false := by
        rw [mentions, hvalue]
        cases value with
        | str text =>
          have hempty : text = "" := by simpa [Json.truthy] using htruthy
          rw [hempty, Bool.eq_false_iff, ne_eq, occursIn_iff]
          intro hinside
          exact hkeyword (by simpa [lower, lowerFrom] using hinside)
        | _ => rfl
      refine ⟨s, ?_, ?_⟩
      · rw [scoreField, hvalue]
        exact if_neg htruthy
      · rw [hmentions]
        exact s.adds_zero keyword

theorem exists_scoreKeyword (hf : IsScorable f) (hkeyword : keyword ≠ "") (s : Score) :
    ∃ s', scoreKeyword f s keyword = .ok s' ∧ s.Adds keyword (points f keyword) s' := by
  obtain ⟨name, hname⟩ := hf.named
  have hmentions : mentions f keyword "name" = occursIn keyword (lower name) := by
    rw [mentions, hname]
  obtain ⟨s₁, hs₁, hadds₁⟩ : ∃ s₁, s₁ = (if occursIn keyword (lower name) then
      { points := s.points + 10, matched := s.matched ++ [keyword] } else s) ∧
      s.Adds keyword (if mentions f keyword "name" then 10 else 0) s₁ := by
    refine ⟨_, rfl, ?_⟩
    rw [hmentions]
    split
    · exact ⟨rfl, fun k => by simp⟩
    · exact s.adds_zero keyword
  obtain ⟨s₂, hs₂, hadds₂⟩ := exists_scoreField hkeyword (Nat.succ_pos 4)
    (hf.texts "signature" (by simp)) s₁
  obtain ⟨s₃, hs₃, hadds₃⟩ := exists_scoreField hkeyword (Nat.succ_pos 2)
    (hf.texts "namespace" (by simp)) s₂
  obtain ⟨s₄, hs₄, hadds₄⟩ := exists_scoreField hkeyword (Nat.succ_pos 1)
    (hf.texts "body" (by simp)) s₃
  refine ⟨s₄, ?_, ?_⟩
  · rw [scoreKeyword, hname]
    dsimp only [Json.textFor, bind, Except.bind]
    rw [← hs₁, hs₂]
    dsimp only
    rw [hs₃]
    exact hs₄
  · have hall := hadds₁.trans (hadds₂.trans (hadds₃.trans hadds₄))
    simpa [points, fieldPoints] using hall

theorem exists_foldlM_scoreKeyword (hf : IsScorable f) (hkeywords : ∀ k ∈ keywords, k ≠ "")
    (s : Score) :
    ∃ s', keywords.foldlM (scoreKeyword f) s = .ok s' ∧
      s'.points = s.points + (keywords.map (points f)).sum ∧
      ∀ k, k ∈ s'.matched ↔ k ∈ s.matched ∨ k ∈ keywords ∧ 0 < points f k := by
  induction keywords generalizing s with
  | nil => exact ⟨s, rfl, rfl, fun k => by simp⟩
  | cons keyword rest ih =>
    obtain ⟨hkeyword, hrest⟩ := forall_mem_cons.1 hkeywords
    obtain ⟨s₁, hs₁, hadds⟩ := exists_scoreKeyword hf hkeyword s
    obtain ⟨s', hs', hpoints, hmatched⟩ := ih hrest s₁
    refine ⟨s', ?_, ?_, ?_⟩
    · rw [foldlM_cons, hs₁]
      exact hs'
    · rw [hpoints, hadds.points_eq, map_cons, sum_cons, Nat.add_assoc]
    · intro k
      rw [hmatched, hadds.mem_matched_iff, mem_cons, or_assoc, or_and_right]
      have hsame : 0 < points f keyword ∧ k = keyword ↔ k = keyword ∧ 0 < points f k := by
        constructor
        · rintro ⟨hpos, rfl⟩
          exact ⟨rfl, hpos⟩
        · rintro ⟨rfl, hpos⟩
          exact ⟨hpos, rfl⟩
      rw [hsame]

/-- A function with its points and the keywords that occur in it. -/
structure Rated (keywords : List String) (f r : Row) : Prop where
  relevance_eq : Dict.get? r "relevance" = some (.int (keywords.map (points f)).sum)
  matched : ∃ tokens, Dict.get? r "matched_tokens" = some (.ofStrings tokens) ∧
    (∀ k, k ∈ tokens ↔ k ∈ keywords ∧ Fits f k) ∧ (0 < relevance r ↔ tokens ≠ [])
  kept : ∀ key, key ≠ "relevance" → key ≠ "matched_tokens" → Dict.get? r key = Dict.get? f key

theorem exists_scored (hf : IsScorable f) (hkeywords : ∀ k ∈ keywords, k ≠ "") :
    ∃ r, scored keywords f = .ok r ∧ Rated keywords f r := by
  obtain ⟨s, hs, hpoints, hmatched⟩ := exists_foldlM_scoreKeyword hf hkeywords {}
  refine ⟨_, by rw [scored, hs]; rfl, ?_⟩
  have hsum : s.points = (keywords.map (points f)).sum := by
    rw [hpoints]
    exact Nat.zero_add _
  have htokens : ∀ k, k ∈ s.matched ↔ k ∈ keywords ∧ Fits f k := by
    intro k
    rw [hmatched, points_pos_iff]
    simp
  have hrelevance : Dict.get? (Dict.set (Dict.set f "relevance" (.int s.points)) "matched_tokens"
      (.ofStrings s.matched)) "relevance" = some (.int (keywords.map (points f)).sum) := by
    rw [get?_set, if_neg (by decide), get?_set, if_pos rfl, hsum]
  refine ⟨hrelevance, ⟨s.matched, ?_, htokens, ?_⟩, ?_⟩
  · rw [get?_set, if_pos rfl]
  · have hpos : 0 < relevance (Dict.set (Dict.set f "relevance" (.int s.points)) "matched_tokens"
        (.ofStrings s.matched)) ↔ 0 < (keywords.map (points f)).sum := by
      rw [relevance, hrelevance]
      exact Int.natCast_pos
    rw [hpos, sum_points_pos_iff, ne_eq, eq_nil_iff_forall_not_mem, not_forall_not]
    exact exists_congr fun k => (htokens k).symm
  · intro key hrel htok
    rw [get?_set, if_neg htok, get?_set, if_neg hrel]

/-! ### The search -/

theorem ne_empty_of_mem_segmentedWords {pieces : List String} {w : String}
    (h : w ∈ segmentedWords pieces) : w ≠ "" := by
  obtain ⟨v, hv, rfl⟩ := mem_map.1 h
  cases hget : chineseTerms.get? v with
  | some term =>
    have hterms : chineseTerms.values.all (· != "") = true := by decide +kernel
    have hterm := all_eq_true.1 hterms term (mem_map_of_mem (mem_of_get? hget))
    rw [translate, hget]
    simpa using hterm
  | none =>
    rw [translate, hget]
    rintro rfl
    exact absurd (of_mem_filter hv) (by decide)

/-- The words of a question are found without the database, and none of them is empty. -/
theorem exists_questionWords (question language : String) (session : Session) :
    ∃ ws session', (questionWords question language).run.run session = (.ok ws, session') ∧
      session'.database = session.database ∧ ∀ w ∈ ws, w ≠ "" := by
  by_cases hlanguage : (language == "zh") = true
  · cases hsegments : session.segments with
    | some pieces =>
      rw [questionWords, if_pos hlanguage, run_get_bind, hsegments]
      exact ⟨segmentedWords pieces, _, rfl, rfl, fun w hw => ne_empty_of_mem_segmentedWords hw⟩
    | none =>
      rw [questionWords, if_pos hlanguage, run_get_bind, hsegments]
      exact ⟨unsegmentedWords question, _, rfl, rfl, fun w hw => (forall_of_mem_words hw).1⟩
  · refine ⟨englishWords question, session, ?_, rfl, ?_⟩
    · rw [questionWords, if_neg hlanguage]
      rfl
    · rintro w hw rfl
      exact (isKeyword_of_mem_englishWords hw).word.1 rfl

/-- A row of the database shows a function. A body in a column of its own replaces the one that the
function has. -/
structure Shows (row f : Row) : Prop where
  read : ∃ node body, Dict.get? row "f" = some (.obj node) ∧ Dict.get? row "body" = some body ∧
    f = if body.truthy then Dict.set node "body" body else node
  scorable : IsScorable f

theorem run_functionOfRow {row : Row} (h : Shows row f) (session : Session) :
    (functionOfRow row).run.run session = (.ok f, session) := by
  obtain ⟨node, body, hnode, hbody, rfl⟩ := h.read
  rw [functionOfRow, Row.column, hnode, Row.column, hbody]
  rfl

theorem exists_rated {rows functions : List Row} (h : List.Forall₂ Shows rows functions)
    (hkeywords : ∀ k ∈ keywords, k ≠ "") :
    ∃ rated, List.Forall₂ (fun f r => scored keywords f = .ok r ∧ Rated keywords f r)
      functions rated := by
  induction h with
  | nil => exact ⟨[], .nil⟩
  | cons hshows _ ih =>
    obtain ⟨r, hr⟩ := exists_scored hshows.scorable hkeywords
    obtain ⟨rated, hrated⟩ := ih
    exact ⟨r :: rated, .cons hr hrated⟩

/-- The answer to a description consists of the first rows of a ranking by relevance, where the
relevance of a row is the sum of its points over the keywords. -/
theorem searchByDescription_ranks {session session' : Session}
    {description project language : String} {limit : Int} {keywords : List String}
    {rows functions : List Row} {later : List QueryOutcome}
    (hwords : (questionWords description language).run.run session = (.ok keywords, session'))
    (hkeywords : keywords ≠ []) (hrows : session.database.outcomes = .rows rows :: later)
    (hfunctions : List.Forall₂ Shows rows functions) (hlimit : 0 ≤ limit) :
    ∃ rated ranked answer session'',
      (searchByDescription description project limit language).run.run session =
        (.ok answer, session'') ∧
      List.Forall₂ (Rated keywords) functions rated ∧ IsRanking relevance rated ranked ∧
      answer = ranked.take limit.toNat ∧ answer.length = min limit.toNat rows.length ∧
      ∀ r ∈ answer, ∀ omitted ∈ ranked.drop limit.toNat, relevance omitted ≤ relevance r := by
  obtain ⟨ws, s₁, hrun, hdatabase, hne⟩ := exists_questionWords description language session
  obtain ⟨hws, rfl⟩ := Prod.mk.inj (hrun.symm.trans hwords)
  obtain rfl := Except.ok.inj hws
  rw [← hdatabase] at hrows
  obtain ⟨rated, hrated⟩ := exists_rated hfunctions hne
  have hranking := isRanking_mergeSort relevance rated
  have hfirst : firstOf (rated.mergeSort fun a b => relevance a ≥ relevance b) limit =
      (rated.mergeSort fun a b => relevance a ≥ relevance b).take limit.toNat :=
    if_neg (Int.not_lt.2 hlimit)
  have hsearch : ∃ session'', (searchByDescription description project limit language).run.run
      session = (.ok (firstOf (rated.mergeSort fun a b => relevance a ≥ relevance b) limit),
        session'') := by
    have hread : ∀ s, (rows.mapM functionOfRow).run.run s = (.ok functions, s) :=
      run_mapM (hfunctions.imp fun row f h => run_functionOfRow h)
    have hscore : ∀ s, (functions.mapM fun f => lift (scored ws f)).run.run s = (.ok rated, s) :=
      run_mapM (hrated.imp fun f r h => run_lift_of_ok h.1)
    rw [searchByDescription, run_bind_of_ok hrun, if_neg (by simpa using hkeywords),
      run_bind_of_ok (run_query hrows _ _), run_bind_of_ok (hread _), run_bind_of_ok (hscore _)]
    exact ⟨_, rfl⟩
  obtain ⟨session'', hsearch⟩ := hsearch
  rw [hfirst] at hsearch
  refine ⟨rated, _, _, session'', hsearch, hrated.imp fun f r h => h.2, hranking, rfl, ?_, ?_⟩
  · rw [length_take, hranking.perm.length_eq, ← hrated.length_eq, ← hfunctions.length_eq]
  · intro r hr omitted homitted
    exact hranking.le_of_mem_drop hr homitted

/-- Two functions, the second one with its body in a column of its own. -/
def sampleRows : List Row :=
  [[("f", .obj [("name", .str "readFile"), ("signature", .null)]), ("body", .null)],
   [("f", .obj [("name", .str "executeCall"), ("namespace", .str "calls")]),
    ("body", .str "return execute(call);")]]

/-- The functions that these rows show. -/
def sampleFunctions : List Row :=
  [[("name", .str "readFile"), ("signature", .null)],
   [("name", .str "executeCall"), ("namespace", .str "calls"),
    ("body", .str "return execute(call);")]]

/-- A session whose database answers with these rows. -/
def sampleSession : Session :=
  { tree := .empty "/", database := { outcomes := [.rows sampleRows] } }

theorem searchByDescription_ranks_sample :
    List.Forall₂ Shows sampleRows sampleFunctions ∧
    ∃ rated ranked answer session,
      (searchByDescription "Run a called run" "p" 1 "en").run.run sampleSession =
        (.ok answer, session) ∧
      List.Forall₂ (Rated ["execute", "call", "execute"]) sampleFunctions rated ∧
      IsRanking relevance rated ranked ∧ answer = ranked.take 1 ∧ answer.length = 1 ∧
      ∀ r ∈ answer, ∀ omitted ∈ ranked.drop 1, relevance omitted ≤ relevance r := by
  have hwords : englishWords "Run a called run" = ["execute", "call", "execute"] := by
    decide +kernel
  have htexts : ∀ f ∈ sampleFunctions, ∀ field value, Dict.get? f field = some value →
      value.truthy = true → ∃ text, value = .str text := by
    intro f hf field value hvalue htruthy
    have hmem := Dict.mem_of_get? hvalue
    simp only [sampleFunctions, mem_cons, not_mem_nil, or_false] at hf
    rcases hf with rfl | rfl
    · simp only [mem_cons, Prod.mk.injEq, not_mem_nil, or_false] at hmem
      rcases hmem with ⟨-, rfl⟩ | ⟨-, rfl⟩
      · exact ⟨_, rfl⟩
      · exact absurd htruthy Bool.false_ne_true
    · simp only [mem_cons, Prod.mk.injEq, not_mem_nil, or_false] at hmem
      rcases hmem with ⟨-, rfl⟩ | ⟨-, rfl⟩ | ⟨-, rfl⟩
      · exact ⟨_, rfl⟩
      · exact ⟨_, rfl⟩
      · exact ⟨_, rfl⟩
  have hshows : List.Forall₂ Shows sampleRows sampleFunctions := by
    refine .cons ⟨⟨_, .null, rfl, rfl, rfl⟩, ⟨_, rfl⟩, ?_⟩
      (.cons ⟨⟨_, .str "return execute(call);", rfl, rfl, rfl⟩, ⟨_, rfl⟩, ?_⟩ .nil)
    · exact fun field _ => htexts _ mem_cons_self field
    · exact fun field _ => htexts _ (mem_cons_of_mem _ mem_cons_self) field
  have hrun : (questionWords "Run a called run" "en").run.run sampleSession =
      (.ok ["execute", "call", "execute"], sampleSession) := by
    rw [← hwords]
    rfl
  exact ⟨hshows,
    searchByDescription_ranks hrun (cons_ne_nil _ _) rfl hshows (by decide)⟩

end Search

end CodeAtlas
