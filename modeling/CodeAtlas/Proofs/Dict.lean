import CodeAtlas.Dict
import CodeAtlas.Text.Basic
import Mathlib.Data.List.Induction
import Mathlib.Data.List.Nodup
import Mathlib.Data.List.Perm.Subperm

/-!
# Laws of ordered dictionaries

A dictionary is read through `get?`, and each operation has one equation for it:
`get?_set` and `get?_adjust`. A key is present exactly when it is listed
(`mem_keys_iff`). What leaves a dictionary as it is needs more than `get?`,
because a list may repeat a key: `adjust_eq_self` asks for distinct keys, which
every operation keeps. `Dict.Related` compares two dictionaries entry by entry.

`addNew` adds to a list that stands for a set. Its members are the old ones and
the new one, and it adds no repetition.
-/

namespace CodeAtlas

open List

variable {l : List String} (items : List String)

namespace Dict

variable {α β : Type} {k : String} {f : α → α} {d : Dict α} {v : α}

@[simp] theorem get?_nil (key : String) : get? ([] : Dict α) key = none := rfl

theorem get?_cons (k : String) (v : α) (rest : Dict α) (key : String) :
    get? ((k, v) :: rest) key = if key = k then some v else rest.get? key := by
  unfold get?
  rw [lookup_cons]
  by_cases hk : key = k
  · simp [hk]
  · have hbeq : (key == k) = false := beq_false_of_ne hk
    simp [hk, hbeq]

theorem keys_cons (k : String) (v : α) (rest : Dict α) :
    keys ((k, v) :: rest) = k :: keys rest := rfl

section

variable (d : Dict α)

theorem get?_set (k : String) (v : α) (key : String) :
    (set d k v).get? key = if key = k then some v else d.get? key := by
  induction d with
  | nil => simp [set, get?_cons]
  | cons entry rest ih =>
    obtain ⟨k', v'⟩ := entry
    rw [set]
    by_cases hk : k' = k
    · subst hk
      by_cases hkey : key = k' <;> simp [get?_cons, hkey]
    · by_cases hkey : key = k'
      · simp [get?_cons, hkey, hk]
      · simp [get?_cons, hkey, hk, ih]

theorem get?_adjust (k : String) (f : α → α) (key : String) :
    (adjust d k f).get? key = if key = k then (d.get? key).map f else d.get? key := by
  induction d with
  | nil => simp [adjust]
  | cons entry rest ih =>
    obtain ⟨k', v'⟩ := entry
    have hrest : adjust ((k', v') :: rest) k f =
        (if k' == k then (k', f v') else (k', v')) :: adjust rest k f := rfl
    rw [hrest]
    by_cases hk : k' = k
    · subst hk
      by_cases hkey : key = k' <;> simp [get?_cons, hkey, ih]
    · by_cases hkey : key = k'
      · simp [get?_cons, hkey, hk]
      · simp [get?_cons, hkey, hk, ih]

theorem map_get?_adjust (k : String) {view : α → β}
    (hview : ∀ v, view (f v) = view v) (key : String) :
    ((adjust d k f).get? key).map view = (d.get? key).map view := by
  rw [get?_adjust]
  split
  · rw [Option.map_map]
    exact congrFun (congrArg _ (funext hview)) _
  · rfl

theorem has_iff (key : String) : d.has key = true ↔ ∃ v, d.get? key = some v := by
  rw [has, Option.isSome_iff_exists]

theorem has_eq_false_iff (key : String) : d.has key = false ↔ d.get? key = none := by
  rw [has, Option.isSome_eq_false_iff, Option.isNone_iff_eq_none]

theorem has_set (k : String) (v : α) (key : String) :
    (set d k v).has key = true ↔ key = k ∨ d.has key = true := by
  unfold has
  rw [get?_set]
  by_cases hkey : key = k <;> simp [hkey]

theorem has_adjust (k : String) (f : α → α) (key : String) :
    (adjust d k f).has key = d.has key := by
  unfold has
  rw [get?_adjust]
  split
  · rw [Option.isSome_map]
  · rfl

theorem mem_keys_iff (key : String) : key ∈ d.keys ↔ ∃ v, d.get? key = some v := by
  induction d with
  | nil => simp [keys]
  | cons entry rest ih =>
    obtain ⟨k, v⟩ := entry
    rw [keys_cons, mem_cons, ih, get?_cons]
    by_cases hkey : key = k <;> simp [hkey]

end

theorem has_eq_of_keys_eq {d' : Dict β} (h : d.keys = d'.keys) (key : String) :
    d.has key = d'.has key := by
  rw [Bool.eq_iff_iff, has_iff, has_iff, ← mem_keys_iff, ← mem_keys_iff, h]

theorem mem_keys_of_get? {key : String} (h : d.get? key = some v) : key ∈ d.keys :=
  (mem_keys_iff d key).2 ⟨v, h⟩

theorem mem_of_get? {key : String} (h : d.get? key = some v) : (key, v) ∈ d := by
  obtain ⟨l₁, l₂, hd, _⟩ := lookup_eq_some_iff.1 h
  rw [hd]
  simp

theorem mem_iff_get? (hd : d.keys.Nodup) (key : String) (v : α) :
    (key, v) ∈ d ↔ d.get? key = some v := by
  induction d with
  | nil => simp
  | cons entry rest ih =>
    obtain ⟨k, w⟩ := entry
    rw [keys_cons, nodup_cons] at hd
    rw [mem_cons, ih hd.2, get?_cons]
    by_cases hkey : key = k
    · subst hkey
      have hnone : get? rest key ≠ some v := fun h => hd.1 (mem_keys_of_get? h)
      simp [hnone, eq_comm]
    · simp [hkey]

theorem length_le_of_subset_keys (hl : l.Nodup) (hkeys : l ⊆ d.keys) : l.length ≤ d.length :=
  calc l.length ≤ d.keys.length := (subperm_of_subset hl hkeys).length_le
    _ = d.length := length_map _

theorem keys_set (d : Dict α) (k : String) (v : α) :
    (set d k v).keys = if k ∈ d.keys then d.keys else d.keys ++ [k] := by
  induction d with
  | nil => simp [set, keys]
  | cons entry rest ih =>
    obtain ⟨k', v'⟩ := entry
    rw [set, keys_cons]
    by_cases hk : k' = k
    · subst hk
      simp [keys_cons]
    · have hk' : ¬ k = k' := fun h => hk h.symm
      simp only [beq_iff_eq, hk, if_false, keys_cons, ih, mem_cons, hk', false_or]
      split <;> rfl

@[simp] theorem keys_adjust (d : Dict α) (k : String) (f : α → α) :
    (adjust d k f).keys = d.keys := by
  unfold keys adjust
  rw [map_map]
  apply map_congr_left
  rintro ⟨k', v'⟩ _
  by_cases hk : k' = k <;> simp [hk]

theorem set_of_get?_eq_none (h : d.get? k = none) (v : α) : set d k v = d ++ [(k, v)] := by
  induction d with
  | nil => rfl
  | cons entry rest ih =>
    obtain ⟨k', v'⟩ := entry
    rw [get?_cons] at h
    by_cases hk : k = k'
    · simp [hk] at h
    · simp only [hk, if_false] at h
      have hk' : ¬ k' = k := fun h => hk h.symm
      simp [set, hk', ih h]

theorem nodup_keys_set (hd : d.keys.Nodup) (k : String) (v : α) : (set d k v).keys.Nodup := by
  rw [keys_set]
  split_ifs with hk
  · exact hd
  · exact List.Nodup.append hd (nodup_singleton k) (by simpa using hk)

theorem set_eq_self (h : d.get? k = some v) : set d k v = d := by
  induction d with
  | nil => simp at h
  | cons entry rest ih =>
    obtain ⟨k', v'⟩ := entry
    rw [get?_cons] at h
    rw [set]
    by_cases hk : k = k'
    · subst hk
      have hv : v' = v := by simpa using h
      simp [hv]
    · have hk' : ¬ k' = k := fun h' => hk h'.symm
      rw [if_neg hk] at h
      simp [hk', ih h]

theorem adjust_congr (hd : d.keys.Nodup) {g : α → α} (hfg : ∀ v, d.get? k = some v → f v = g v) :
    adjust d k f = adjust d k g := by
  unfold adjust
  apply map_congr_left
  rintro ⟨k', v'⟩ hmem
  by_cases hk : k' = k
  · subst hk
    simp [hfg v' ((mem_iff_get? hd k' v').1 hmem)]
  · simp [hk]

theorem adjust_id (d : Dict α) (k : String) : adjust d k id = d := by
  simp [adjust]

theorem adjust_eq_self (hd : d.keys.Nodup) (hf : ∀ v, d.get? k = some v → f v = v) :
    adjust d k f = d := by
  rw [adjust_congr hd (g := id) hf, adjust_id]

theorem adjust_adjust (d : Dict α) (k : String) (f g : α → α) :
    adjust (adjust d k f) k g = adjust d k (fun v => g (f v)) := by
  unfold adjust
  rw [map_map]
  apply map_congr_left
  rintro ⟨k', v'⟩ _
  by_cases hk : k' = k <;> simp [hk]

/-- Changes that commute on every value commute on the dictionary, also for one key. -/
theorem adjust_comm (d : Dict α) (k k' : String) (f g : α → α) (hfg : ∀ v, g (f v) = f (g v)) :
    adjust (adjust d k f) k' g = adjust (adjust d k' g) k f := by
  unfold adjust
  rw [map_map, map_map]
  apply map_congr_left
  rintro ⟨j, v⟩ _
  by_cases hk : j = k
  · subst hk
    by_cases hk' : j = k'
    · subst hk'
      simp [hfg]
    · simp [hk']
  · by_cases hk' : j = k'
    · subst hk'
      simp [hk]
    · simp [hk, hk']

theorem adjust_const (hd : d.keys.Nodup) (hk : d.has k = true) (v : α) :
    adjust d k (fun _ => v) = set d k v := by
  induction d with
  | nil => cases hk
  | cons entry rest ih =>
    obtain ⟨k', v'⟩ := entry
    rw [keys_cons, nodup_cons] at hd
    have hcons : adjust ((k', v') :: rest) k (fun _ => v) =
        (if k' == k then (k', v) else (k', v')) :: adjust rest k (fun _ => v) := rfl
    rw [hcons, set]
    by_cases hkey : k' = k
    · subst hkey
      have hrest : adjust rest k' (fun _ => v) = rest :=
        adjust_eq_self hd.2 fun w hw => absurd (mem_keys_of_get? hw) hd.1
      simp [hrest]
    · have hkey' : ¬ k = k' := fun h => hkey h.symm
      have hhas : has rest k = true := by simpa [has, get?_cons, hkey'] using hk
      simp [hkey, ih hd.2 hhas]

theorem eq_of_get?_eq {d' : Dict α} (hd : d.keys.Nodup) (hkeys : d'.keys = d.keys)
    (h : ∀ key, d'.get? key = d.get? key) : d' = d := by
  induction d generalizing d' with
  | nil => exact map_eq_nil_iff.1 hkeys
  | cons entry rest ih =>
    obtain ⟨k, v⟩ := entry
    cases d' with
    | nil => cases hkeys
    | cons entry' rest' =>
      obtain ⟨k', v'⟩ := entry'
      obtain ⟨rfl, hrest⟩ : k' = k ∧ keys rest' = keys rest := by
        simpa [keys_cons] using hkeys
      rw [keys_cons, nodup_cons] at hd
      have hv : v' = v := by simpa [get?_cons] using h k'
      rw [hv, ih hd.2 hrest]
      intro key
      by_cases hkey : key = k'
      · subst hkey
        have hnone : ∀ {d : Dict α}, key ∉ d.keys → d.get? key = none := fun hd =>
          Option.eq_none_iff_forall_ne_some.2 fun w hw => hd (mem_keys_of_get? hw)
        rw [hnone hd.1, hnone (hrest ▸ hd.1)]
      · simpa [get?_cons, hkey] using h key

theorem get?_of_nodup_append {front : Dict α} (h : (keys (front ++ (k, v) :: d)).Nodup) :
    get? front k = none := by
  refine Option.eq_none_iff_forall_ne_some.2 fun w hw => ?_
  simp only [keys, map_append, map_cons] at h
  exact (nodup_append.1 h).2.2 k (mem_keys_of_get? hw) k mem_cons_self rfl

theorem foldl_set_append (front d : Dict α) (h : (keys (front ++ d)).Nodup) :
    d.foldl (fun acc entry => set acc entry.1 entry.2) front = front ++ d := by
  induction d generalizing front with
  | nil => simp
  | cons entry rest ih =>
    rw [foldl_cons, set_of_get?_eq_none (get?_of_nodup_append h), ih _ (by simpa using h)]
    simp

theorem nodup_keys_ofPairs (l : List (String × α)) : (ofPairs l).keys.Nodup :=
  foldlRecOn (motive := fun d : Dict α => d.keys.Nodup) _ _ nodup_nil
    fun _ hd _ _ => nodup_keys_set hd _ _

theorem ofPairs_eq_self (hd : d.keys.Nodup) : ofPairs d = d := foldl_set_append [] d hd

/-- The dictionary with each value replaced by what a function makes of it. -/
def mapValues {α β : Type} (g : α → β) (d : Dict α) : Dict β :=
  d.map fun entry => (entry.1, g entry.2)

theorem get?_mapValues (g : α → β) (d : Dict α) (key : String) :
    (mapValues g d).get? key = (d.get? key).map g := by
  induction d with
  | nil => rfl
  | cons entry rest ih =>
    obtain ⟨k, v⟩ := entry
    have hcons : mapValues g ((k, v) :: rest) = (k, g v) :: mapValues g rest := rfl
    rw [hcons, get?_cons, get?_cons, ih]
    by_cases hkey : key = k <;> simp [hkey]

theorem keys_mapValues (g : α → β) (d : Dict α) : (mapValues g d).keys = d.keys := by
  simp [mapValues, keys]

theorem has_mapValues (g : α → β) (d : Dict α) (key : String) :
    (mapValues g d).has key = d.has key := by
  rw [has, has, get?_mapValues, Option.isSome_map]

theorem mapValues_set (g : α → β) (d : Dict α) (k : String) (v : α) :
    mapValues g (set d k v) = set (mapValues g d) k (g v) := by
  induction d with
  | nil => rfl
  | cons entry rest ih =>
    obtain ⟨k', v'⟩ := entry
    have hcons : mapValues g ((k', v') :: rest) = (k', g v') :: mapValues g rest := rfl
    rw [hcons, set, set]
    split
    · rfl
    · rw [← ih]
      rfl

theorem mapValues_adjust (g : α → β) (d : Dict α) (k : String) (f : α → α) (f' : β → β)
    (hf : ∀ v, g (f v) = f' (g v)) :
    mapValues g (adjust d k f) = adjust (mapValues g d) k f' := by
  unfold mapValues adjust
  rw [map_map, map_map]
  apply map_congr_left
  rintro ⟨k', v'⟩ _
  by_cases hk : k' = k <;> simp [hk, hf]

theorem mapValues_congr {g g' : α → β} (h : ∀ v ∈ d.values, g v = g' v) :
    mapValues g d = mapValues g' d :=
  map_congr_left fun entry hentry =>
    congrArg (Prod.mk entry.1) (h entry.2 (mem_map_of_mem hentry))

theorem mapValues_zip (g : α → β) (keys : List String) (values : List α) :
    mapValues g (keys.zip values) = keys.zip (values.map g) := by
  rw [mapValues, zip_map_right]
  rfl

theorem zip_keys_values (d : Dict α) : d.keys.zip d.values = d := by
  rw [keys, values, zip_map']
  exact map_id d

theorem get?_map_key (value : String → β) (d : Dict α) (key : String) :
    get? (d.map fun (k, _) => (k, value k)) key =
      if d.has key then some (value key) else none := by
  induction d with
  | nil => rfl
  | cons entry d ih =>
    obtain ⟨k, v⟩ := entry
    rw [map_cons, get?_cons, ih, has, has, get?_cons]
    by_cases hkey : key = k <;> simp [hkey]

theorem get?_push (d : Dict (List α)) (k : String) (item : α) (key : String) :
    (push d k item).get? key =
      if key = k then some ((d.get? k).getD [] ++ [item]) else d.get? key := by
  unfold push
  cases d.get? k <;> exact get?_set d k _ key

theorem nodup_keys_push {d : Dict (List α)} (hd : d.keys.Nodup) (k : String) (item : α) :
    (push d k item).keys.Nodup := by
  unfold push
  split <;> exact nodup_keys_set hd _ _

theorem get?_append (d d' : Dict α) (key : String) :
    get? (d ++ d') key = (d.get? key).or (d'.get? key) := lookup_append

theorem get?_erase (d : Dict α) (k key : String) :
    (erase d k).get? key = if key = k then none else d.get? key := by
  induction d with
  | nil => simp [erase]
  | cons entry d ih =>
    rw [erase] at ih ⊢
    by_cases hentry : entry.1 = k
    · rw [filter_cons_of_neg (by simpa using hentry), ih, get?_cons, hentry]
      split <;> rfl
    · rw [filter_cons_of_pos (by simpa using hentry), get?_cons, get?_cons, ih]
      by_cases hkey : key = entry.1 <;> simp [hkey, hentry]

theorem foldl_set_cons (writes : List (String × α)) (k : String) (v : α) (rest : Dict α) :
    writes.foldl (fun d w => set d w.1 w.2) ((k, v) :: rest) =
      (k, (get? writes.reverse k).getD v) ::
        (erase writes k).foldl (fun d w => set d w.1 w.2) rest := by
  induction writes generalizing v rest with
  | nil => rfl
  | cons w writes ih =>
    obtain ⟨key, value⟩ := w
    rw [foldl_cons, reverse_cons, get?_append, get?_cons, set]
    by_cases hkey : k = key
    · rw [if_pos (by simpa using hkey), if_pos hkey, ih, erase, erase,
        filter_cons_of_neg (by simpa using hkey.symm)]
      cases get? writes.reverse k <;> rfl
    · rw [if_neg (by simpa using hkey), if_neg hkey, get?_nil, Option.or_none, ih, erase,
        erase, filter_cons_of_pos (by simpa using Ne.symm hkey), foldl_cons]

/-- A dictionary stays as it is if the last value written to a key is the one it has. -/
theorem foldl_set_eq_self {writes : List (String × α)}
    (h : ∀ key v, get? writes.reverse key = some v → d.get? key = some v) :
    writes.foldl (fun d w => set d w.1 w.2) d = d := by
  induction d generalizing writes with
  | nil =>
    cases writes with
    | nil => rfl
    | cons w writes =>
      have hkey : w.1 ∈ keys (w :: writes).reverse := mem_map_of_mem (mem_reverse.2 mem_cons_self)
      obtain ⟨v, hv⟩ := (mem_keys_iff _ _).1 hkey
      cases h _ v hv
  | cons entry rest ih =>
    obtain ⟨k, v⟩ := entry
    have hhead : (get? writes.reverse k).getD v = v := by
      cases hlast : get? writes.reverse k with
      | none => rfl
      | some w =>
        have hw := h k w hlast
        rw [get?_cons, if_pos rfl] at hw
        exact (Option.some.inj hw).symm
    rw [foldl_set_cons, hhead, ih]
    intro key w hw
    have herase : (erase writes k).reverse = erase writes.reverse k := filter_reverse.symm
    rw [herase, get?_erase] at hw
    split at hw
    · cases hw
    · next hkey =>
        have hget := h key w hw
        rwa [get?_cons, if_neg hkey] at hget

/-- All entries satisfy a property of their key and value. -/
def All {α : Type} (P : String → α → Prop) (d : Dict α) : Prop := ∀ entry ∈ d, P entry.1 entry.2

instance {α : Type} {P : String → α → Prop} [∀ k v, Decidable (P k v)] (d : Dict α) :
    Decidable (All P d) :=
  inferInstanceAs (Decidable (∀ entry ∈ d, P entry.1 entry.2))

section

variable {P : String → α → Prop}

theorem all_nil (P : String → α → Prop) : All P [] := by
  intro entry hentry
  cases hentry

theorem All.set (hd : All P d) (hv : P k v) : All P (set d k v) := by
  unfold All at hd ⊢
  induction d with
  | nil => simpa [Dict.set] using hv
  | cons entry rest ih =>
    rw [forall_mem_cons] at hd
    rw [Dict.set]
    split_ifs with hk
    · exact forall_mem_cons.2 ⟨beq_iff_eq.1 hk ▸ hv, hd.2⟩
    · exact forall_mem_cons.2 ⟨hd.1, ih hd.2⟩

theorem All.adjust (hd : All P d) (hf : ∀ v, P k v → P k (f v)) : All P (adjust d k f) := by
  intro entry hentry
  obtain ⟨⟨k', v'⟩, hmem, rfl⟩ := mem_map.1 hentry
  have hv : P k' v' := hd (k', v') hmem
  by_cases hk : k' = k
  · subst hk
    simpa using hf v' hv
  · simpa [hk] using hv

theorem All.adjust_at {P Q : α → Prop} (hd : All (fun k' v => k' = k → P v) d)
    (hf : ∀ v, P v → Q (f v)) : All (fun k' v => k' = k → Q v) (Dict.adjust d k f) := by
  intro entry hentry
  obtain ⟨⟨k', v'⟩, hmem, rfl⟩ := mem_map.1 hentry
  by_cases hk : k' = k
  · intro _
    simpa [hk] using hf v' (hd (k', v') hmem hk)
  · intro hkey
    simp only [beq_iff_eq, hk, if_false] at hkey

end

/-- Under the same keys in the same order stand related values. -/
def Related {α β : Type} (R : α → β → Prop) (d : Dict α) (d' : Dict β) : Prop :=
  List.Forall₂ (fun entry entry' => entry.1 = entry'.1 ∧ R entry.2 entry'.2) d d'

section

variable {γ : Type} {R : α → β → Prop} {d' : Dict β}

theorem related_refl {R : α → α → Prop} (hR : ∀ v, R v v) (d : Dict α) : Related R d d :=
  forall₂_same.2 fun entry _ => ⟨rfl, hR entry.2⟩

theorem Related.trans {S : β → γ → Prop} {T : α → γ → Prop} {d'' : Dict γ}
    (hRST : ∀ u v w, R u v → S v w → T u w) (h : Related R d d')
    (h' : Related S d' d'') : Related T d d'' := by
  induction h generalizing d'' with
  | nil =>
    cases h'
    exact .nil
  | cons hentry _ ih =>
    cases h' with
    | cons hentry' h' =>
      exact .cons ⟨hentry.1.trans hentry'.1, hRST _ _ _ hentry.2 hentry'.2⟩ (ih h')

theorem Related.mono {S : α → β → Prop} (hRS : ∀ v w, R v w → S v w) (h : Related R d d') :
    Related S d d' :=
  List.Forall₂.imp (fun _ _ hentry => ⟨hentry.1, hRS _ _ hentry.2⟩) h

theorem Related.keys_eq (h : Related R d d') : d'.keys = d.keys := by
  induction h with
  | nil => rfl
  | cons hentry _ ih => simpa [keys, hentry.1] using ih

theorem Related.get? (h : Related R d d') (key : String) :
    Option.Rel R (d.get? key) (d'.get? key) := by
  induction h with
  | nil => exact .none
  | @cons entry entry' rest rest' hentry _ ih =>
    obtain ⟨k, v⟩ := entry
    obtain ⟨k', v'⟩ := entry'
    obtain ⟨rfl, hv⟩ : k = k' ∧ R v v' := hentry
    rw [get?_cons, get?_cons]
    by_cases hkey : key = k
    · simpa [hkey] using Option.Rel.some hv
    · simpa [hkey] using ih

theorem related_adjust {R : α → α → Prop} (hR : ∀ v, R v v) (d : Dict α) (key : String)
    (hf : ∀ v, R v (f v)) : Related R d (adjust d key f) := by
  refine forall₂_map_right_iff.2 (forall₂_same.2 ?_)
  rintro ⟨k, v⟩ _
  by_cases hk : k = key
  · simpa [hk] using hf v
  · simpa [hk] using hR v

end

end Dict

theorem mem_addNew {item x : String} : x ∈ addNew l item ↔ x ∈ l ∨ x = item := by
  by_cases h : item ∈ l
  · simpa [addNew, h] using fun hx : x = item => hx ▸ h
  · simp [addNew, h]

theorem prefix_addNew (l : List String) (item : String) : l <+: addNew l item := by
  unfold addNew
  split
  · exact prefix_rfl
  · exact prefix_append l [item]

theorem addNew_eq_self {item : String} (h : item ∈ l) : addNew l item = l := by
  simp [addNew, h]

theorem nodup_addNew (hl : l.Nodup) (item : String) : (addNew l item).Nodup := by
  unfold addNew
  split_ifs with h
  · exact hl
  · exact List.Nodup.append hl (nodup_singleton item) (by simpa using h)

theorem mem_addAllNew {items : List String} {x : String} :
    x ∈ addAllNew l items ↔ x ∈ l ∨ x ∈ items := by
  unfold addAllNew
  induction items generalizing l with
  | nil => simp
  | cons item rest ih => rw [foldl_cons, ih, mem_addNew, mem_cons, or_assoc]

theorem addAllNew_append (l more : List String) :
    addAllNew l (items ++ more) = addAllNew (addAllNew l items) more := foldl_append

theorem nodup_addAllNew (hl : l.Nodup) (items : List String) : (addAllNew l items).Nodup := by
  unfold addAllNew
  induction items generalizing l with
  | nil => exact hl
  | cons item rest ih => exact ih (nodup_addNew hl item)

theorem eraseDups_concat {α : Type} [BEq α] [LawfulBEq α] (l : List α) (x : α) :
    (l ++ [x]).eraseDups = if x ∈ l then l.eraseDups else l.eraseDups ++ [x] := by
  rw [eraseDups_append, removeAll, filter_cons]
  by_cases hx : x ∈ l <;> simp [hx, eraseDups_cons]

theorem nodup_eraseDups {α : Type} [BEq α] [LawfulBEq α] (l : List α) : l.eraseDups.Nodup := by
  induction l using reverseRecOn with
  | nil => exact nodup_nil
  | append_singleton l x ih =>
    rw [eraseDups_concat]
    split_ifs with hx
    · exact ih
    · exact ih.append (nodup_singleton x) (by simpa using hx)

theorem addAllNew_nil : addAllNew [] items = items.eraseDups := by
  induction items using reverseRecOn with
  | nil => rfl
  | append_singleton l x ih =>
    rw [addAllNew_append, ih, eraseDups_concat, addAllNew, foldl_cons, foldl_nil, addNew]
    simp

theorem Text.distinct_eq : Text.distinct items = items.eraseDups := addAllNew_nil items

end CodeAtlas
