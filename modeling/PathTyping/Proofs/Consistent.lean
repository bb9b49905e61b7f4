import PathTyping.Proofs.Joins

/-!
# Consistent symbol tables

A table refers to its declarations by number, and a type names a class by number and name.  What is
filed is referred to only behind where it was put, and stays there, so each number that the table of
a module holds is that of a declaration, and each class that a declared type names is one of its
classes.

1. What a table has, a table that has grown from it has (`Has.grow`, `Ty.WellFormed.grow`).
2. A join of well-formed types is well formed (`Ty.wellFormed_join`).
3. The table of a module is consistent (`SymbolTable.consistent_ofModule`), so every member that a
   lookup finds is one that the table has (`SymbolTable.Consistent.has`).
-/

namespace PathTyping

/-! ## References -/

namespace SymbolTable

/-- The table has the declaration that the member refers to. -/
def Has (t : SymbolTable) : Member → Prop
  | .method id => id < t.methods.length
  | .class_ id => id < t.classes.length
  | .global id => id < t.globals.length
  | .field owner index => ∃ c, t.classes[owner]? = some c ∧ index < c.fields.length
  | .builtin _ => True

/-- The table has a class of that number, which has that name. -/
def HasClass (t : SymbolTable) (c : ClassRef) : Prop :=
  ∃ info, t.classes[c.id]? = some info ∧ info.name = c.name

/-- All declarations of `t` are there in `t'` under their numbers, and classes have kept their
names. -/
structure Grows (t t' : SymbolTable) : Prop where
  methods : t.methods.length ≤ t'.methods.length
  globals : t.globals.length ≤ t'.globals.length
  classes : ∀ (id : Nat) (c : ClassInfo), t.classes[id]? = some c →
    ∃ c' : ClassInfo, t'.classes[id]? = some c' ∧ c'.name = c.name ∧ c.fields.length ≤ c'.fields.length

variable {t t' : SymbolTable}

theorem hasClass_classRef {id : Nat} (h : t.Has (.class_ id)) : t.HasClass (t.classRef id) := by
  have found : t.classes[id]? = some t.classes[id] := List.getElem?_eq_getElem h
  refine ⟨_, found, ?_⟩
  rw [classRef, SymbolTable.class_, found, Option.getD_some]

theorem HasClass.has {c : ClassRef} (h : t.HasClass c) : t.Has (.class_ c.id) := by
  obtain ⟨info, found, -⟩ := h
  exact (List.getElem?_eq_some_iff.1 found).1

theorem HasClass.grow {c : ClassRef} (h : t.HasClass c) (grows : t.Grows t') : t'.HasClass c := by
  obtain ⟨info, found, name⟩ := h
  obtain ⟨info', found', same, -⟩ := grows.classes c.id info found
  exact ⟨info', found', same.trans name⟩

theorem Has.grow {m : Member} (h : t.Has m) (grows : t.Grows t') : t'.Has m := by
  cases m with
  | method id => exact Nat.lt_of_lt_of_le h grows.methods
  | class_ id =>
    obtain ⟨c', found, -⟩ := grows.classes id _ (List.getElem?_eq_getElem h)
    exact (List.getElem?_eq_some_iff.1 found).1
  | global id => exact Nat.lt_of_lt_of_le h grows.globals
  | field owner index =>
    obtain ⟨c, found, inside⟩ := h
    obtain ⟨c', found', -, more⟩ := grows.classes owner c found
    exact ⟨c', found', Nat.lt_of_lt_of_le inside more⟩
  | builtin b => trivial

end SymbolTable

/-! ## Types -/

namespace Ty

/-- The class that the type names. -/
def class? : Ty → Option ClassRef
  | classObject c => some c
  | instance_ c => some c
  | _ => none

/-- A canonical type that names only classes of the table. -/
structure WellFormed (t : SymbolTable) (type : Ty) : Prop where
  canonical : type.Canonical
  classes : ∀ arm ∈ type.arms, ∀ c, arm.class? = some c → t.HasClass c

variable {t t' : SymbolTable} {type : Ty} {types seen found : List Ty}

theorem WellFormed.grow (h : type.WellFormed t) (grows : t.Grows t') : type.WellFormed t' :=
  ⟨h.canonical, fun arm harm c names => (h.classes arm harm c names).grow grows⟩

theorem wellFormed_of_alone (alone : type.isUnion = false)
    (h : ∀ c, type.class? = some c → t.HasClass c) : type.WellFormed t where
  canonical := canonical_of_not_union alone
  classes arm harm := by
    rw [arms_of_not_union alone] at harm
    exact List.mem_singleton.1 harm ▸ h

theorem wellFormed_of_basic (h : type.isBasic = true) : type.WellFormed t := by
  cases type with
  | classObject c | instance_ c | union as => cases h
  | _ => exact wellFormed_of_alone rfl fun _ names => by cases names

theorem wellFormed_ofLiteral (l : Literal) : (Ty.ofLiteral l).WellFormed t := by
  cases l <;> exact wellFormed_of_basic rfl

theorem wellFormed_classType {id : Nat} (h : t.Has (.class_ id)) :
    (t.classType id).WellFormed t :=
  wellFormed_of_alone rfl fun _ names => Option.some.inj names ▸ SymbolTable.hasClass_classRef h

theorem wellFormed_instanceType {id : Nat} (h : t.Has (.class_ id)) :
    (t.instanceType id).WellFormed t :=
  wellFormed_of_alone rfl fun _ names => Option.some.inj names ▸ SymbolTable.hasClass_classRef h

theorem WellFormed.arm {arms : List Ty} (h : (union arms).WellFormed t) {a : Ty} (ha : a ∈ arms) :
    a.WellFormed t :=
  wellFormed_of_alone (h.canonical.2.2 a ha).2 fun c names => h.classes a ha c names

theorem mem_arms_join (canonical : ∀ u ∈ types, u.Canonical) {a : Ty} (ha : a ∈ (join types).arms) :
    a = any ∨ ∃ u ∈ types, a ∈ u.arms := by
  unfold join at ha
  split at ha
  · next found joined =>
    obtain ⟨-, plain⟩ := plain_joinArms canonical List.nodup_nil (by simp) joined
    by_cases some_ : found = []
    · subst some_
      exact .inl (List.mem_singleton.1 ha)
    · rw [arms_ofArms some_ plain] at ha
      exact .inr ((mem_of_mem_joinArms joined ha).resolve_left List.not_mem_nil)
  · exact .inl (List.mem_singleton.1 ha)

theorem wellFormed_join (h : ∀ u ∈ types, u.WellFormed t) : (join types).WellFormed t where
  canonical := canonical_join fun u hu => (h u hu).canonical
  classes a ha c names := by
    rcases mem_arms_join (fun u hu => (h u hu).canonical) ha with rfl | ⟨u, hu, inside⟩
    · cases names
    · exact (h u hu).classes a inside c names

end Ty

/-! ## Declarations -/

section Valid

variable (t : SymbolTable)

structure Method.Valid (x : Method) : Prop where
  owner : ∀ owner, x.owner = some owner → t.Has (.class_ owner)
  params : ∀ p ∈ x.params, p.type.WellFormed t
  returns : ∀ type, x.returns = some type → type.WellFormed t

structure ClassInfo.Valid (c : ClassInfo) : Prop where
  fields : ∀ f ∈ c.fields, f.type.WellFormed t
  methods : ∀ id ∈ c.methods, t.Has (.method id)

/-- What the declarations of the table refer to are declarations of the table. -/
structure SymbolTable.Consistent : Prop where
  methods : ∀ x ∈ t.methods, x.Valid t
  classes : ∀ c ∈ t.classes, c.Valid t
  globals : ∀ g ∈ t.globals, g.type.WellFormed t
  members : ∀ p ∈ t.members, t.Has p.2

end Valid

section Valid

variable {t t' : SymbolTable}

theorem Method.Valid.grow {x : Method} (h : x.Valid t) (grows : t.Grows t') : x.Valid t' :=
  ⟨fun o mine => (h.owner o mine).grow grows, fun p hp => (h.params p hp).grow grows,
    fun type declares => (h.returns type declares).grow grows⟩

theorem ClassInfo.Valid.grow {c : ClassInfo} (h : c.Valid t) (grows : t.Grows t') : c.Valid t' :=
  ⟨fun f hf => (h.fields f hf).grow grows, fun id hid => (h.methods id hid).grow grows⟩

end Valid

namespace SymbolTable

variable {t t' : SymbolTable}

/-- A table that has grown is consistent if what is new in it is valid. -/
theorem Consistent.grow (h : t.Consistent) (grows : t.Grows t')
    (methods : ∀ x ∈ t'.methods, x ∈ t.methods ∨ x.Valid t')
    (classes : ∀ c ∈ t'.classes, c ∈ t.classes ∨ c.Valid t')
    (globals : ∀ g ∈ t'.globals, g ∈ t.globals ∨ g.type.WellFormed t')
    (members : ∀ p ∈ t'.members, p ∈ t.members ∨ t'.Has p.2) : t'.Consistent where
  methods x hx := (methods x hx).elim (fun old => (h.methods x old).grow grows) id
  classes c hc := (classes c hc).elim (fun old => (h.classes c old).grow grows) id
  globals g hg := (globals g hg).elim (fun old => (h.globals g old).grow grows) id
  members p hp := (members p hp).elim (fun old => (h.members p old).grow grows) id

theorem Grows.of_classes (same : t'.classes = t.classes)
    (methods : t.methods.length ≤ t'.methods.length)
    (globals : t.globals.length ≤ t'.globals.length) : t.Grows t' :=
  ⟨methods, globals, fun _ c found => ⟨c, same ▸ found, rfl, Nat.le_refl _⟩⟩

/-! ### What a consistent table says -/

namespace Consistent

theorem method (h : t.Consistent) (id : Nat) : (t.method id).Valid t := by
  unfold SymbolTable.method
  cases found : t.methods[id]? with
  | none => exact ⟨nofun, nofun, nofun⟩
  | some x => exact h.methods x (List.mem_of_getElem? found)

theorem class_ (h : t.Consistent) (id : Nat) : (t.class_ id).Valid t := by
  unfold SymbolTable.class_
  cases found : t.classes[id]? with
  | none => exact ⟨nofun, nofun⟩
  | some c => exact h.classes c (List.mem_of_getElem? found)

theorem field (h : t.Consistent) (owner index : Nat) :
    (t.field owner index).type.WellFormed t := by
  unfold SymbolTable.field
  cases found : (t.class_ owner).fields[index]? with
  | none => exact Ty.wellFormed_of_basic rfl
  | some f => exact (h.class_ owner).fields f (List.mem_of_getElem? found)

theorem global (h : t.Consistent) (id : Nat) : (t.global id).type.WellFormed t := by
  unfold SymbolTable.global
  cases found : t.globals[id]? with
  | none => exact Ty.wellFormed_of_basic rfl
  | some g => exact h.globals g (List.mem_of_getElem? found)

theorem getMembers (h : t.Consistent) {name : String} {m : Member} (hm : m ∈ t.getMembers name) :
    t.Has m := by
  obtain ⟨p, hp, rfl⟩ := List.mem_map.1 hm
  exact h.members p (List.mem_filter.1 hp).1

theorem classMembers (h : t.Consistent) {owner : Nat} {name : String} {m : Member}
    (hm : m ∈ t.classMembers owner name) : t.Has m := by
  rcases List.mem_append.1 hm with field | method
  · obtain ⟨⟨f, i⟩, hf, rfl⟩ := List.mem_map.1 field
    have at_ := List.mem_zipIdx_iff_getElem?.1 (List.mem_filter.1 hf).1
    have inside := (List.getElem?_eq_some_iff.1 at_).1
    unfold SymbolTable.class_ at inside
    cases found : t.classes[owner]? with
    | none => rw [found] at inside; cases inside
    | some c => rw [found] at inside; exact ⟨c, found, inside⟩
  · obtain ⟨id, hid, rfl⟩ := List.mem_map.1 method
    exact (h.class_ owner).methods id (List.mem_filter.1 hid).1

theorem has (h : t.Consistent) {m : Member} (listed : t.Lists m) : t.Has m := by
  cases listed with
  | outer listed => exact h.getMembers listed
  | own listed => exact h.classMembers listed
  | builtin b => trivial

end Consistent

/-! ### Annotations -/

theorem wellFormed_typeOf (t : SymbolTable) (a : TypeName) : (t.typeOf a).WellFormed t := by
  unfold typeOf typeNamed?
  split
  · next type found =>
    have builtin : type.isBasic = true := by
      unfold Ty.ofName? at found
      split at found <;> cases found <;> rfl
    exact Ty.wellFormed_of_basic builtin
  · cases found : t.findClass? a.name with
    | none => exact Ty.wellFormed_of_basic rfl
    | some id =>
      have inside : t.Has (.class_ id) := (List.findIdx?_eq_some_iff_getElem.1 found).1
      exact Ty.wellFormed_instanceType inside

theorem wellFormed_bindingType (t : SymbolTable) (a : Option TypeName) (value : Option Expr) :
    (t.bindingType a value).WellFormed t := by
  unfold bindingType
  split
  · exact t.wellFormed_typeOf _
  · split
    · exact Ty.wellFormed_ofLiteral _
    · exact Ty.wellFormed_of_basic rfl

theorem valid_methodOf (t : SymbolTable) {owner : Option Nat} (f : FunctionDecl)
    (has : ∀ id, owner = some id → t.Has (.class_ id)) : (t.methodOf owner f).Valid t where
  owner := has
  params p hp := by
    obtain ⟨q, -, rfl⟩ := List.mem_map.1 hp
    exact t.wellFormed_bindingType q.typeName none
  returns type declares := by
    obtain ⟨a, -, rfl⟩ := Option.map_eq_some_iff.1 declares
    exact t.wellFormed_typeOf a

end SymbolTable

/-! ## Filing -/

namespace Filing

open SymbolTable

variable {s : Filing}

theorem getElem?_modify {classes : List ClassInfo} {id number : Nat}
    {change : ClassInfo → ClassInfo} {c : ClassInfo} (h : classes[number]? = some c) :
    (classes.modify id change)[number]? = some (if id = number then change c else c) := by
  rw [List.getElem?_modify, h]
  split <;> rfl

theorem grows_modifyClass (s : Filing) (id : Nat) {change : ClassInfo → ClassInfo}
    (name : ∀ c, (change c).name = c.name)
    (fields : ∀ c, c.fields.length ≤ (change c).fields.length) :
    s.table.Grows (s.modifyClass id change).table where
  methods := Nat.le_refl _
  globals := Nat.le_refl _
  classes number c found := by
    refine ⟨_, getElem?_modify found, ?_⟩
    split
    · exact ⟨name c, fields c⟩
    · exact ⟨rfl, Nat.le_refl _⟩

theorem consistent_modifyClass (h : s.table.Consistent) (id : Nat)
    {change : ClassInfo → ClassInfo} (name : ∀ c, (change c).name = c.name)
    (fields : ∀ c, c.fields.length ≤ (change c).fields.length)
    (valid : ∀ c : ClassInfo, c.Valid s.table → (change c).Valid s.table) :
    (s.modifyClass id change).table.Consistent := by
  have grows := grows_modifyClass s id name fields
  refine h.grow grows (fun _ hx => .inl hx) (fun c hc => ?_) (fun _ hg => .inl hg)
    fun _ hp => .inl hp
  rcases mem_modify hc with old | ⟨c', there, rfl⟩
  · exact .inl old
  · exact .inr ((valid c' (h.classes c' there)).grow grows)

theorem consistent_addMethod (h : s.table.Consistent) {owner : Option Nat} (f : FunctionDecl)
    (has : ∀ id, owner = some id → s.table.Has (.class_ id)) :
    (s.addMethod owner f).table.Consistent := by
  have grows : s.table.Grows (s.addMethod owner f).table :=
    .of_classes rfl (by simp [addMethod, note]) (Nat.le_refl _)
  refine h.grow grows (fun x hx => ?_) (fun _ hc => .inl hc) (fun _ hg => .inl hg)
    fun _ hp => .inl hp
  rcases List.mem_append.1 hx with old | made
  · exact .inl old
  · rw [List.mem_singleton.1 made]
    exact .inr ((s.table.valid_methodOf f has).grow grows)

theorem consistent_addMember (h : s.table.Consistent) (name : String) {m : Member}
    (has : s.table.Has m) : (s.addMember name m).table.Consistent := by
  have grows : s.table.Grows (s.addMember name m).table :=
    .of_classes rfl (Nat.le_refl _) (Nat.le_refl _)
  refine h.grow grows (fun _ hx => .inl hx) (fun _ hc => .inl hc) (fun _ hg => .inl hg)
    fun p hp => ?_
  rcases List.mem_append.1 hp with old | made
  · exact .inl old
  · rw [List.mem_singleton.1 made]
    exact .inr (has.grow grows)

theorem consistent_addField (h : s.table.Consistent) (className : String) (id : Nat)
    (f : FieldDecl) : (addField className id s f).table.Consistent := by
  unfold addField
  split
  · exact h
  · refine consistent_modifyClass (s := s.note _) h id (fun _ => rfl) (fun c => by simp)
      fun c valid => ⟨fun g hg => ?_, valid.methods⟩
    rcases List.mem_append.1 hg with old | made
    · exact valid.fields g old
    · exact List.mem_singleton.1 made ▸ s.table.wellFormed_bindingType _ _

theorem consistent_addClassMethod (h : s.table.Consistent) (className : String) {id : Nat}
    (has : s.table.Has (.class_ id)) (f : FunctionDecl) :
    (addClassMethod className id s f).table.Consistent := by
  refine consistent_modifyClass (s := (s.note _).addMethod (some id) f)
    (consistent_addMethod (s := s.note _) h f fun _ e => Option.some.inj e ▸ has) id
    (fun _ => rfl) (fun _ => Nat.le_refl _) fun c valid => ⟨valid.fields, fun n hn => ?_⟩
  rcases List.mem_append.1 hn with old | made
  · exact valid.methods n old
  · rw [List.mem_singleton.1 made]
    show s.table.methods.length < (s.table.methods ++ [_]).length
    simp

theorem has_class_addField {id : Nat} (h : s.table.Has (.class_ id)) (className : String)
    (f : FieldDecl) : (addField className id s f).table.Has (.class_ id) := by
  unfold addField
  split
  · exact h
  · exact h.grow (grows_modifyClass (s.note _) id (fun _ => rfl) fun c => by simp)

theorem has_class_addClassMethod {id : Nat} (h : s.table.Has (.class_ id)) (className : String)
    (f : FunctionDecl) : (addClassMethod className id s f).table.Has (.class_ id) :=
  SymbolTable.Has.grow (t := ((s.note _).addMethod (some id) f).table) h
    (grows_modifyClass _ id (fun _ => rfl) fun _ => Nat.le_refl _)

theorem consistent_addClass (h : s.table.Consistent) (c : ClassDecl) :
    (s.addClass c).table.Consistent := by
  unfold addClass
  split
  · exact h
  · next id found =>
    have has : s.table.Has (.class_ id) := (List.findIdx?_eq_some_iff_getElem.1 found).1
    split
    · refine And.left (foldl_keeps
        (Q := fun s => s.table.Consistent ∧ s.table.Has (.class_ id)) (fun s f _ kept => ?_) ?_)
      · exact ⟨consistent_addClassMethod kept.1 c.name kept.2 f,
          has_class_addClassMethod kept.2 c.name f⟩
      · refine foldl_keeps (Q := fun s => s.table.Consistent ∧ s.table.Has (.class_ id))
          (fun s f _ kept => ?_) ⟨consistent_addMember (s := s.note _) h c.name has, has⟩
        exact ⟨consistent_addField kept.1 c.name id f, has_class_addField kept.2 c.name f⟩
    · exact h

theorem consistent_addGlobal (h : s.table.Consistent) (g : GlobalDecl) :
    (s.addGlobal g).table.Consistent := by
  unfold addGlobal
  split
  · exact h
  · dsimp only
    have grows (gs : List GlobalInfo) :
        s.table.Grows { s.table with globals := s.table.globals ++ gs } :=
      .of_classes rfl (Nat.le_refl _) (by simp)
    refine consistent_addMember (s := ⟨{ s.table with globals := _ }, _⟩) (h.grow (grows _)
      (fun _ hx => .inl hx) (fun _ hc => .inl hc) (fun info hi => ?_) fun _ hp => .inl hp) g.name ?_
    · rcases List.mem_append.1 hi with old | made
      · exact .inl old
      · rw [List.mem_singleton.1 made]
        exact .inr ((s.table.wellFormed_bindingType _ _).grow (grows _))
    · show s.table.globals.length < (s.table.globals ++ [_]).length
      simp

theorem consistent_addItem (h : s.table.Consistent) (i : Item) :
    (s.addItem i).table.Consistent := by
  cases i with
  | function f =>
    simp only [addItem, addFunction]
    split
    · exact h
    · exact h
    · refine consistent_addMember (consistent_addMethod h f (by rintro _ ⟨⟩)) f.name ?_
      show s.table.methods.length < (s.table.methods ++ [_]).length
      simp
  | class_ c => exact consistent_addClass h c
  | global g => exact consistent_addGlobal h g

theorem consistent_nameItem (h : s.table.Consistent) (i : Item) :
    (s.nameItem i).table.Consistent := by
  cases i with
  | class_ c =>
    simp only [nameItem, nameClass]
    split
    · exact h
    · refine h.grow ⟨Nat.le_refl _, Nat.le_refl _, fun id c' found => ?_⟩ (fun _ hx => .inl hx)
        (fun info hi => ?_) (fun _ hg => .inl hg) fun _ hp => .inl hp
      · refine ⟨c', ?_, rfl, Nat.le_refl _⟩
        rw [List.getElem?_append_left (List.getElem?_eq_some_iff.1 found).1, found]
      · rcases List.mem_append.1 hi with old | made
        · exact .inl old
        · rw [List.mem_singleton.1 made]
          exact .inr ⟨List.forall_mem_nil _, List.forall_mem_nil _⟩
  | function _ | global _ => exact h

end Filing

/-- What the table of a module refers to are its declarations. -/
theorem SymbolTable.consistent_ofModule (m : Module) : (SymbolTable.ofModule m).1.Consistent := by
  refine Filing.foldl_keeps (Q := fun s => s.table.Consistent)
    (fun _ i _ h => Filing.consistent_addItem h i) ?_
  exact Filing.foldl_keeps (Q := fun s => s.table.Consistent)
    (fun _ i _ h => Filing.consistent_nameItem h i) ⟨nofun, nofun, nofun, nofun⟩

end PathTyping
