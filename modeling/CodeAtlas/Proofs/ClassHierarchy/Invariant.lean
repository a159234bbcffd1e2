import CodeAtlas.ClassHierarchy.Analysis
import CodeAtlas.Proofs.Json

/-!
# What a walk over a tree keeps

`ClassNode.WellFormed` is what the record of one class satisfies by itself: an
access is noted for exactly the bases, and a signature with a list of
parameters for exactly the virtual methods. `ClassHierarchy.Consistent` adds
what relates two classes: a base is a known class, and it lists the class among
its derived ones.

A class may be declared again, and bases may be named before they are declared,
so nothing is assumed about the order of the nodes: each step of the walk keeps
`Consistent`, and `unresolved_noteTree` follows along the tree. A step touches
two classes, which may be one and the same. `noteBase_eq` therefore puts its
three changes in an order in which each of them keeps the records well
formed.
-/

namespace CodeAtlas

open ClassHierarchy Dict

variable {c : ClassNode} {P : ClassNode → Prop} (name : String)

namespace ClassNode

/-- The parameter types in the signature of a method. -/
def paramTypes? (c : ClassNode) (method : String) : Option (List Json) :=
  ((c.signatures.get? method).bind (·.get? "param_types")).bind Json.arr?

/-- What the record of a class satisfies by itself. -/
structure WellFormed (c : ClassNode) : Prop where
  /-- An access is noted for exactly the bases. -/
  access : ∃ fields, c.baseAccess = .obj fields ∧ ∀ b, b ∈ Dict.keys fields ↔ b ∈ c.bases
  /-- A signature is noted for exactly the virtual methods. -/
  signed : ∃ fields, c.signatures = .obj fields ∧ ∀ m, m ∈ Dict.keys fields ↔ m ∈ c.virtuals
  /-- Each signature lists the types of its parameters. -/
  counted : ∀ m ∈ c.virtuals, ∃ types, c.paramTypes? m = some types
  /-- A method without a definition is virtual. -/
  pure_virtual : ∀ m ∈ c.pureVirtuals, m ∈ c.virtuals

theorem wellFormed_empty : ({ name } : ClassNode).WellFormed where
  access := ⟨[], rfl, by simp [Dict.keys]⟩
  signed := ⟨[], rfl, by simp [Dict.keys]⟩
  counted := by simp
  pure_virtual := by simp

theorem mem_keys_setField (fields : List (String × Json)) (key : String) (value : Json)
    (x : String) :
    x ∈ Dict.keys (Json.setField fields key value) ↔ x ∈ Dict.keys fields ∨ x = key := by
  rw [Json.setField_eq_set, keys_set]
  split_ifs with hkey
  · constructor
    · exact .inl
    · rintro (hx | rfl)
      · exact hx
      · exact hkey
  · simp

def addBaseAccess (c : ClassNode) (base access : String) : ClassNode :=
  { c.addBase base with baseAccess := putField c.baseAccess base (.str access) }

theorem WellFormed.addBaseAccess (hc : c.WellFormed) (base access : String) :
    (c.addBaseAccess base access).WellFormed where
  access := by
    obtain ⟨fields, hfields, hkeys⟩ := hc.access
    refine ⟨Json.setField fields base (.str access), ?_, ?_⟩
    · simp [ClassNode.addBaseAccess, hfields, putField]
    · intro b
      rw [mem_keys_setField, hkeys]
      exact mem_addNew.symm
  signed := hc.signed
  counted := hc.counted
  pure_virtual := hc.pure_virtual

theorem WellFormed.addDerived (hc : c.WellFormed) (derived : String) :
    (c.addDerived derived).WellFormed where
  access := hc.access
  signed := hc.signed
  counted := hc.counted
  pure_virtual := hc.pure_virtual

def addSigned (c : ClassNode) (info : NodeInfo) : ClassNode :=
  { c.addVirtual info.name info.isPure with
    signatures :=
      putField c.signatures info.name (signatureOf info) }

theorem paramTypes?_addSigned {fields : List (String × Json)}
    (hfields : c.signatures = .obj fields) (info : NodeInfo) (m : String) :
    (c.addSigned info).paramTypes? m =
      if m = info.name then some (info.argTypes.map Json.str) else c.paramTypes? m := by
  have hget : (c.addSigned info).signatures.get? m =
      Dict.get? (Dict.set fields info.name (signatureOf info)) m := by
    simp only [addSigned, hfields, putField, Json.setField_eq_set]
    rfl
  have hold : c.signatures.get? m = Dict.get? fields m := by rw [hfields]; rfl
  rw [paramTypes?, hget, get?_set]
  by_cases hm : m = info.name
  · simp only [hm, if_true, Option.bind_some]
    rfl
  · simp only [hm, if_false, paramTypes?, hold]

theorem WellFormed.addSigned (hc : c.WellFormed) (info : NodeInfo) :
    (c.addSigned info).WellFormed := by
  obtain ⟨fields, hfields, hkeys⟩ := hc.signed
  have hvirtuals : ∀ m, m ∈ (c.addSigned info).virtuals ↔ m ∈ c.virtuals ∨ m = info.name :=
    fun m => mem_addNew
  refine ⟨hc.access, ⟨Json.setField fields info.name (signatureOf info), ?_, ?_⟩, ?_, ?_⟩
  · simp [ClassNode.addSigned, hfields, putField]
  · intro m
    rw [mem_keys_setField, hkeys, hvirtuals]
  · intro m hm
    rw [paramTypes?_addSigned hfields]
    by_cases hname : m = info.name
    · exact ⟨_, if_pos hname⟩
    · rw [if_neg hname]
      exact hc.counted m (((hvirtuals m).1 hm).resolve_right hname)
  · intro m hm
    rw [hvirtuals]
    have hpure : m ∈ c.pureVirtuals ∨ m = info.name := by
      have hm' : m ∈ if info.isPure then addNew c.pureVirtuals info.name else c.pureVirtuals := hm
      split at hm'
      · exact mem_addNew.1 hm'
      · exact .inl hm'
    exact hpure.imp_left (hc.pure_virtual m)

end ClassNode

namespace ClassHierarchy

variable {h : ClassHierarchy}

def Knows (h : ClassHierarchy) (name : String) : Prop := ∃ c, h.getClass? name = some c

def Every (h : ClassHierarchy) (P : ClassNode → Prop) : Prop :=
  ∀ name c, h.getClass? name = some c → P c

theorem getClass?_ensure (h : ClassHierarchy) (name key : String) :
    (h.ensure name).getClass? key =
      if key = name then some ((h.getClass? name).getD { name }) else h.getClass? key := by
  unfold ensure
  split
  · next hhas =>
      obtain ⟨c, hc⟩ := (has_iff _ _).1 hhas
      have hget : h.getClass? name = some c := hc
      by_cases hkey : key = name <;> simp [hkey, hget]
  · next hhas =>
      have hget : h.getClass? name = none := (has_eq_false_iff _ _).1 (Bool.eq_false_iff.2 hhas)
      rw [hget]
      exact get?_set h.classes name { name } key

theorem getClass?_adjust (h : ClassHierarchy) (name : String) (f : ClassNode → ClassNode)
    (key : String) :
    (h.adjust name f).getClass? key =
      if key = name then (h.getClass? key).map f else h.getClass? key :=
  get?_adjust h.classes name f key

theorem knows_ensure (h : ClassHierarchy) (name key : String) :
    (h.ensure name).Knows key ↔ h.Knows key ∨ key = name := by
  unfold Knows
  rw [getClass?_ensure]
  by_cases hkey : key = name <;> simp [hkey]

@[simp] theorem knows_adjust (h : ClassHierarchy) (name : String) (f : ClassNode → ClassNode)
    (key : String) : (h.adjust name f).Knows key ↔ h.Knows key := by
  unfold Knows
  rw [getClass?_adjust]
  by_cases hkey : key = name <;> simp [hkey]

theorem Every.ensure (hP : h.Every P) (name : String) (hnew : P { name }) :
    (h.ensure name).Every P := by
  intro key c hc
  rw [getClass?_ensure] at hc
  split at hc
  · cases hget : h.getClass? name with
    | none =>
      rw [hget] at hc
      exact Option.some.inj hc ▸ hnew
    | some d =>
      rw [hget] at hc
      exact Option.some.inj hc ▸ hP name d hget
  · exact hP key c hc

theorem Every.adjust (hP : h.Every P) (name : String) {f : ClassNode → ClassNode}
    (hf : ∀ c, P c → P (f c)) : (h.adjust name f).Every P := by
  intro key c hc
  rw [getClass?_adjust] at hc
  split at hc
  · obtain ⟨d, hd, rfl⟩ := Option.map_eq_some_iff.1 hc
    exact hf d (hP key d hd)
  · exact hP key c hc

theorem mem_related_iff (h : ClassHierarchy) (next : ClassNode → List String) (name x : String) :
    x ∈ h.related next name ↔ ∃ c, h.getClass? name = some c ∧ x ∈ next c := by
  unfold related
  cases h.getClass? name <;> simp

theorem related_of_getClass? {name : String} (hc : h.getClass? name = some c)
    (next : ClassNode → List String) : h.related next name = next c := by
  simp [related, hc]

/-- A new class is related to nothing, so it can be made without notice. -/
theorem related_ensure (h : ClassHierarchy) (name : String) (next : ClassNode → List String)
    (hnew : next { name } = []) (key : String) :
    (h.ensure name).related next key = h.related next key := by
  unfold related
  rw [getClass?_ensure]
  by_cases hkey : key = name
  · subst hkey
    cases h.getClass? key <;> simp [hnew]
  · simp [hkey]

theorem related_adjust (h : ClassHierarchy) (name : String) (f : ClassNode → ClassNode)
    (next : ClassNode → List String) (hf : ∀ c, next (f c) = next c) (key : String) :
    (h.adjust name f).related next key = h.related next key := by
  unfold related
  rw [getClass?_adjust]
  by_cases hkey : key = name
  · subst hkey
    cases h.getClass? key <;> simp [hf]
  · simp [hkey]

theorem mem_related_adjust {name : String} (hname : h.Knows name) (f : ClassNode → ClassNode)
    (next : ClassNode → List String) (item : String) (hf : ∀ c, next (f c) = addNew (next c) item)
    (key x : String) :
    x ∈ (h.adjust name f).related next key ↔ x ∈ h.related next key ∨ key = name ∧ x = item := by
  unfold related
  rw [getClass?_adjust]
  by_cases hkey : key = name
  · subst hkey
    obtain ⟨c, hc⟩ := hname
    simp [hc, hf, mem_addNew]
  · simp [hkey]

/-- What the classes of a tree satisfy, at every moment of the walk. -/
structure Consistent (h : ClassHierarchy) : Prop where
  distinct : h.classes.keys.Nodup
  wellFormed : h.Every ClassNode.WellFormed
  base_known : ∀ a b, b ∈ h.related (·.bases) a → h.Knows b
  /-- A class derives from its bases, and only they list it. -/
  base_iff_derived : ∀ a b, b ∈ h.related (·.bases) a ↔ a ∈ h.related (·.derived) b

theorem consistent_empty : ({} : ClassHierarchy).Consistent where
  distinct := List.nodup_nil
  wellFormed := by intro name c hc; cases hc
  base_known := by intro a b hb; simp [related, getClass?] at hb
  base_iff_derived := by intro a b; simp [related, getClass?]

theorem Consistent.ensure (hh : h.Consistent) (name : String) : (h.ensure name).Consistent where
  distinct := by
    unfold ClassHierarchy.ensure
    split
    · exact hh.distinct
    · exact nodup_keys_set hh.distinct name { name }
  wellFormed := hh.wellFormed.ensure name (ClassNode.wellFormed_empty name)
  base_known := by
    intro a b hb
    rw [related_ensure h name (·.bases) rfl] at hb
    exact (knows_ensure h name b).2 (.inl (hh.base_known a b hb))
  base_iff_derived := by
    intro a b
    rw [related_ensure h name (·.bases) rfl, related_ensure h name (·.derived) rfl]
    exact hh.base_iff_derived a b

theorem Consistent.adjust (hh : h.Consistent) (name : String) {f : ClassNode → ClassNode}
    (hwell : ∀ c, c.WellFormed → (f c).WellFormed) (hbases : ∀ c, (f c).bases = c.bases)
    (hderived : ∀ c, (f c).derived = c.derived) :
    (h.adjust name f).Consistent where
  distinct := by
    have hkeys : (h.adjust name f).classes.keys = h.classes.keys := keys_adjust _ _ _
    rw [hkeys]
    exact hh.distinct
  wellFormed := hh.wellFormed.adjust name hwell
  base_known := by
    intro a b hb
    rw [related_adjust h name f (·.bases) hbases] at hb
    exact (knows_adjust h name f b).2 (hh.base_known a b hb)
  base_iff_derived := by
    intro a b
    rw [related_adjust h name f (·.bases) hbases, related_adjust h name f (·.derived) hderived]
    exact hh.base_iff_derived a b

def relate (h : ClassHierarchy) (name base access : String) : ClassHierarchy :=
  ((h.ensure base).adjust name (·.addBaseAccess base access)).adjust base (·.addDerived name)

def NamesBase (a : Ast) (base : String) : Prop :=
  a.kind = .baseSpecifier ∧ a.info.definition = some base

/-- A node either relates the class to a base or says nothing. The access to the base is noted
last, but it could be noted before the base lists the class. -/
theorem noteBase_eq (h : ClassHierarchy) (a : Ast) :
    (noteBase name h a = h ∧ ∀ base, ¬ NamesBase a base) ∨
      ∃ base, NamesBase a base ∧ noteBase name h a = h.relate name base a.info.access := by
  unfold noteBase
  split
  · next base hkind hdefinition =>
      right
      refine ⟨base, ⟨hkind, hdefinition⟩, ?_⟩
      simp only [relate, adjust]
      rw [adjust_comm _ base name (fun c : ClassNode => c.addDerived name) _ (fun _ => rfl),
        adjust_adjust]
      rfl
  · next hother => exact .inl ⟨rfl, fun base hbase => hother base hbase.1 hbase.2⟩

theorem mem_bases_relate {name : String} (hname : h.Knows name) (base access a b : String) :
    b ∈ (h.relate name base access).related (·.bases) a ↔
      b ∈ h.related (·.bases) a ∨ a = name ∧ b = base := by
  have hname' : (h.ensure base).Knows name := (knows_ensure h base name).2 (.inl hname)
  unfold relate
  rw [related_adjust _ base (·.addDerived name) (·.bases) (fun _ => rfl),
    ← related_ensure h base (·.bases) rfl]
  exact mem_related_adjust hname' _ (·.bases) base (fun _ => rfl) a b

theorem Every.relate (hP : h.Every P) {name base access : String} (hnew : P { name := base })
    (hbase : ∀ c, P c → P (c.addBaseAccess base access))
    (hderived : ∀ c, P c → P (c.addDerived name)) : (h.relate name base access).Every P :=
  ((hP.ensure base hnew).adjust name hbase).adjust base hderived

theorem Consistent.relate (hh : h.Consistent) {name : String} (hname : h.Knows name)
    (base access : String) : (h.relate name base access).Consistent := by
  have hensured := hh.ensure base
  have hbase : ((h.ensure base).adjust name (·.addBaseAccess base access)).Knows base :=
    (knows_adjust _ _ _ _).2 ((knows_ensure h base base).2 (.inr rfl))
  -- both sides of the new edge, each in terms of the hierarchy before it
  have hbases := mem_bases_relate hname base access
  have hderived : ∀ a b, a ∈ (h.relate name base access).related (·.derived) b ↔
      a ∈ h.related (·.derived) b ∨ b = base ∧ a = name := by
    intro a b
    unfold ClassHierarchy.relate
    rw [mem_related_adjust hbase _ (·.derived) name (fun _ => rfl),
      related_adjust _ name (·.addBaseAccess base access) (·.derived) (fun _ => rfl),
      related_ensure h base (·.derived) rfl]
  refine ⟨?_, ?_, ?_, ?_⟩
  · have hkeys : (h.relate name base access).classes.keys = (h.ensure base).classes.keys := by
      simp [ClassHierarchy.relate, ClassHierarchy.adjust]
    rw [hkeys]
    exact hensured.distinct
  · exact hh.wellFormed.relate (ClassNode.wellFormed_empty base)
      (fun c hc => hc.addBaseAccess base access) (fun c hc => hc.addDerived name)
  · intro a b hb
    have hknown : (h.ensure base).Knows b := by
      rcases (hbases a b).1 hb with hold | ⟨_, rfl⟩
      · exact (knows_ensure h base b).2 (.inl (hh.base_known a b hold))
      · exact (knows_ensure h b b).2 (.inr rfl)
    simpa [ClassHierarchy.relate] using hknown
  · intro a b
    rw [hbases, hderived, hh.base_iff_derived, and_comm]

theorem noteVirtual_eq (h : ClassHierarchy) (a : Ast) :
    (noteVirtual name h a = h ∧ (a.kind == .method && a.info.isVirtual) = false) ∨
      noteVirtual name h a = h.adjust name (·.addSigned a.info) ∧
        (a.kind == .method && a.info.isVirtual) = true := by
  unfold noteVirtual
  split_ifs with hvirtual
  · exact .inr ⟨rfl, hvirtual⟩
  · exact .inl ⟨rfl, Bool.eq_false_iff.2 hvirtual⟩

/-- What the walk keeps: consistency, and nothing is resolved yet. -/
structure Unresolved (h : ClassHierarchy) : Prop extends Consistent h where
  overrides_none : h.Every (·.overridden = [])

theorem Unresolved.noteBase {name : String} (hh : h.Unresolved ∧ h.Knows name) (a : Ast) :
    (noteBase name h a).Unresolved ∧ (noteBase name h a).Knows name := by
  rcases noteBase_eq name h a with ⟨heq, -⟩ | ⟨base, -, heq⟩
  · rwa [heq]
  · rw [heq]
    refine ⟨⟨hh.1.relate hh.2 base a.info.access, ?_⟩, ?_⟩
    · exact hh.1.overrides_none.relate rfl (fun _ hc => hc) (fun _ hc => hc)
    · simpa [relate] using (knows_ensure h base name).2 (.inl hh.2)

theorem Unresolved.noteBases {name : String} (hh : h.Unresolved ∧ h.Knows name)
    (children : List Ast) :
    (children.foldl (ClassHierarchy.noteBase name) h).Unresolved ∧
      (children.foldl (ClassHierarchy.noteBase name) h).Knows name :=
  List.foldlRecOn children (ClassHierarchy.noteBase name) hh
    (motive := fun h => h.Unresolved ∧ h.Knows name) fun _ hh a _ => Unresolved.noteBase hh a

theorem Unresolved.noteVirtual {name : String} (hh : h.Unresolved ∧ h.Knows name) (a : Ast) :
    (noteVirtual name h a).Unresolved ∧ (noteVirtual name h a).Knows name := by
  rcases noteVirtual_eq name h a with ⟨heq, -⟩ | ⟨heq, -⟩
  · rwa [heq]
  · rw [heq]
    refine ⟨⟨hh.1.toConsistent.adjust name (fun c hc => hc.addSigned a.info) (fun _ => rfl)
      (fun _ => rfl), hh.1.overrides_none.adjust name (fun _ hc => hc)⟩, ?_⟩
    simpa using hh.2

def placed (h : ClassHierarchy) (info : NodeInfo) : ClassHierarchy :=
  (h.ensure info.name).adjust info.name fun c => { c with location := .str (placeOf info) }

theorem noteClass_of_named {info : NodeInfo} (hname : info.name.isEmpty = false)
    (children : List Ast) (h : ClassHierarchy) :
    noteClass info children h = children.foldl (noteVirtual info.name)
      (children.foldl (noteBase info.name) (h.placed info)) := by
  rw [noteClass, if_neg (by simp [hname])]
  rfl

theorem Unresolved.placed (hh : h.Unresolved) (info : NodeInfo) :
    (h.placed info).Unresolved ∧ (h.placed info).Knows info.name := by
  refine ⟨⟨?_, ?_⟩, ?_⟩
  · exact (hh.toConsistent.ensure info.name).adjust info.name
      (fun c hc => ⟨hc.access, hc.signed, hc.counted, hc.pure_virtual⟩) (fun _ => rfl)
      (fun _ => rfl)
  · exact (hh.overrides_none.ensure info.name rfl).adjust info.name (fun _ hc => hc)
  · simpa [ClassHierarchy.placed] using (knows_ensure h info.name info.name).2 (.inr rfl)

theorem Unresolved.noteClass (hh : h.Unresolved) (info : NodeInfo) (children : List Ast) :
    (noteClass info children h).Unresolved := by
  cases hname : info.name.isEmpty with
  | true => rwa [ClassHierarchy.noteClass, if_pos hname]
  | false =>
    rw [noteClass_of_named hname]
    have hall := List.foldlRecOn children (ClassHierarchy.noteVirtual info.name)
      (Unresolved.noteBases (hh.placed info) children)
      (motive := fun h => h.Unresolved ∧ h.Knows info.name)
      fun _ hh a _ => Unresolved.noteVirtual hh a
    exact hall.1

mutual

theorem Unresolved.noteTree : ∀ (a : Ast) {h : ClassHierarchy}, h.Unresolved →
    (noteTree a h).Unresolved
  | .node info children, h, hh => by
    rw [ClassHierarchy.noteTree]
    apply Unresolved.noteTrees children
    split
    · exact hh.noteClass info children
    · exact hh

theorem Unresolved.noteTrees : ∀ (l : List Ast) {h : ClassHierarchy}, h.Unresolved →
    (noteTrees l h).Unresolved
  | [], h, hh => hh
  | a :: rest, h, hh => by
    rw [ClassHierarchy.noteTrees]
    exact Unresolved.noteTrees rest (Unresolved.noteTree a hh)

end

theorem unresolved_noteTree (a : Ast) : (noteTree a {}).Unresolved :=
  Unresolved.noteTree a ⟨consistent_empty, by intro name c hc; cases hc⟩

end ClassHierarchy

end CodeAtlas
