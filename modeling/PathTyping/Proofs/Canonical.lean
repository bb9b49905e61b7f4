import PathTyping.Symbols.Declare
import PathTyping.Proofs.Closed

/-!
# Canonical types

The unions of an analysis are made by joins, so their alternatives are plain types, at least two of
them, each once.  Such a type fits a plain declared type only if it is that type.

1. A join of canonical types is canonical, and each of them fits it (`canonical_join`,
   `isAssignableTo_join`).
2. The declarations of a module have plain types, since an annotation is a name
   (`SymbolTable.simple_ofModule`).
3. If the declarations have plain types, an analysis keeps to values with canonical types
   (`Value.closed_canonical`).
-/

namespace PathTyping

/-! ## Types -/

namespace Ty

/-- What can be an alternative of a union. -/
def Plain (t : Ty) : Prop := t ≠ any ∧ t.isUnion = false

def Canonical : Ty → Prop
  | union as => 2 ≤ as.length ∧ as.Nodup ∧ ∀ a ∈ as, a.Plain
  | _ => True

variable {t d : Ty} {types seen arms : List Ty}

theorem canonical_of_not_union (h : t.isUnion = false) : t.Canonical := by
  cases t with
  | union as => cases h
  | _ => trivial

theorem canonical_of_basic (h : t.isBasic = true) : t.Canonical := by
  cases t with
  | union as => cases h
  | _ => trivial

theorem plain_of_mem_arms (h : t.Canonical) (some_ : t ≠ any) {arm : Ty} (harm : arm ∈ t.arms) :
    arm.Plain := by
  cases t with
  | union as => exact h.2.2 arm harm
  | any => exact absurd rfl some_
  | _ => obtain rfl := List.mem_singleton.1 harm; exact ⟨some_, rfl⟩

theorem nodup_foldl_insertArm (h : seen.Nodup) : (arms.foldl insertArm seen).Nodup := by
  induction arms generalizing seen with
  | nil => exact h
  | cons a rest ih =>
    rw [List.foldl_cons]
    refine ih ?_
    unfold insertArm
    split
    · exact h
    · next new =>
      refine List.nodup_append.2 ⟨h, by simp, fun b hb c hc same => new ?_⟩
      exact List.mem_singleton.1 hc ▸ same ▸ hb

/-- The alternatives of canonical types are plain, and each is there once. -/
theorem plain_joinArms (canonical : ∀ t ∈ types, t.Canonical) (once : seen.Nodup)
    (plain : ∀ a ∈ seen, a.Plain) (h : joinArms seen types = some arms) :
    arms.Nodup ∧ ∀ a ∈ arms, a.Plain := by
  induction types generalizing seen with
  | nil => cases h; exact ⟨once, plain⟩
  | cons t rest ih =>
    by_cases some_ : t = any
    · subst some_; cases h
    · rw [joinArms_cons some_] at h
      refine ih (fun u hu => canonical u (List.mem_cons_of_mem _ hu)) (nodup_foldl_insertArm once)
        (fun a ha => ?_) h
      rcases mem_foldl_insertArm.1 ha with ha | ha
      · exact plain a ha
      · exact plain_of_mem_arms (canonical t List.mem_cons_self) some_ ha

theorem canonical_ofArms (once : arms.Nodup) (plain : ∀ a ∈ arms, a.Plain) :
    (ofArms arms).Canonical := by
  rcases arms with _ | ⟨a, _ | ⟨b, rest⟩⟩
  · trivial
  · exact canonical_of_not_union (plain a List.mem_cons_self).2
  · exact ⟨by simp, once, plain⟩

theorem canonical_join (h : ∀ t ∈ types, t.Canonical) : (join types).Canonical := by
  unfold join
  split
  · next arms joined =>
    obtain ⟨once, plain⟩ := plain_joinArms h List.nodup_nil (by simp) joined
    exact canonical_ofArms once plain
  · trivial

theorem arms_of_not_union (h : t.isUnion = false) : t.arms = [t] := by
  cases t with
  | union as => cases h
  | _ => rfl

/-- What is no union fits `any` and what it is an alternative of. -/
theorem isAssignableTo_iff (h : t.isUnion = false) :
    t.isAssignableTo d = true ↔ d = any ∨ t ∈ d.arms := by
  cases t with
  | union as => cases h
  | _ => cases d <;> simp [isAssignableTo, isAny, arms]

theorem arms_ofArms (some_ : arms ≠ []) (plain : ∀ a ∈ arms, a.Plain) :
    (ofArms arms).arms = arms := by
  rcases arms with _ | ⟨a, _ | ⟨b, rest⟩⟩
  · exact absurd rfl some_
  · exact arms_of_not_union (plain a List.mem_cons_self).2
  · rfl

/-- Each of some canonical types fits their join. -/
theorem isAssignableTo_join (canonical : ∀ t ∈ types, t.Canonical) (h : t ∈ types) :
    t.isAssignableTo (join types) = true := by
  unfold join
  split
  · next arms joined =>
    obtain ⟨-, plain⟩ := plain_joinArms canonical List.nodup_nil (by simp) joined
    obtain ⟨some_, known⟩ := (known_of_joinArms joined).2 t h
    have fits (a : Ty) (ha : a ∈ t.arms) : a.isAssignableTo (ofArms arms) = true := by
      have inside := known a ha
      refine (isAssignableTo_iff (plain a inside).2).2 (.inr ?_)
      rwa [arms_ofArms (List.ne_nil_of_mem inside) plain]
    cases t with
    | union as =>
      have each : armsAssignable as (ofArms arms) = true := armsAssignable_iff.2 fits
      rw [isAssignableTo, each, Bool.or_true]
    | _ => exact fits _ List.mem_cons_self
  · exact isAssignableTo_any t

/-- What fits a plain type is that type. -/
theorem eq_of_isAssignableTo (canonical : t.Canonical) (plain : d.Plain)
    (fits : t.isAssignableTo d = true) : t = d := by
  obtain ⟨some_, alone⟩ := plain
  have same {a : Ty} (ha : a.isUnion = false) (fits : a.isAssignableTo d = true) : a = d := by
    have inside := ((isAssignableTo_iff ha).1 fits).resolve_left some_
    rw [arms_of_not_union alone] at inside
    exact List.mem_singleton.1 inside
  cases t with
  | union as =>
    -- all alternatives would be the one type, but there are two different ones
    obtain ⟨two, once, arms⟩ := canonical
    have notAny : d.isAny = false := by rw [← Bool.not_eq_true, isAny_iff]; exact some_
    have notSame : Ty.union as ≠ d := by rintro rfl; cases alone
    simp only [isAssignableTo, notAny, decide_eq_false notSame, Bool.false_or] at fits
    rcases as with _ | ⟨a, _ | ⟨b, rest⟩⟩
    · cases two
    · exact absurd two (by simp)
    · have each := armsAssignable_iff.1 fits
      have first := same (arms a List.mem_cons_self).2 (each a List.mem_cons_self)
      have second := same (arms b (by simp)).2 (each b (by simp))
      exact absurd (by simp [first, second]) (List.nodup_cons.1 once).1
  | _ => exact same rfl fits

theorem join_of_all_eq (some_ : types ≠ []) (plain : d.Plain) (h : ∀ t ∈ types, t = d) :
    join types = d := by
  obtain ⟨t, rest, rfl⟩ := List.exists_cons_of_ne_nil some_
  obtain rfl := h t List.mem_cons_self
  have known : Known [t] rest := fun u hu => by
    obtain rfl := h u (List.mem_cons_of_mem _ hu)
    exact ⟨plain.1, fun arm harm => by rwa [arms_of_not_union plain.2] at harm⟩
  have seen : t.arms.foldl insertArm [] = [t] := by
    rw [arms_of_not_union plain.2]
    rfl
  rw [join, joinArms_cons plain.1, seen, joinArms_of_known known]
  rfl

end Ty

/-! ## Declarations -/

/-- No declared type is a union. -/
structure SymbolTable.Simple (t : SymbolTable) : Prop where
  params : ∀ m ∈ t.methods, ∀ p ∈ m.params, p.type.isUnion = false
  returns : ∀ m ∈ t.methods, ∀ type, m.returns = some type → type.isUnion = false
  fields : ∀ c ∈ t.classes, ∀ f ∈ c.fields, f.type.isUnion = false
  globals : ∀ g ∈ t.globals, g.type.isUnion = false

namespace SymbolTable

variable {t : SymbolTable}

theorem isUnion_typeOf (t : SymbolTable) (a : TypeName) : (t.typeOf a).isUnion = false := by
  unfold typeOf typeNamed?
  split
  · next type found =>
    have builtin : type.isUnion = false := by
      unfold Ty.ofName? at found
      split at found <;> cases found <;> rfl
    exact builtin
  · cases t.findClass? a.name <;> rfl

theorem isUnion_bindingType (t : SymbolTable) (a : Option TypeName) (value : Option Expr) :
    (t.bindingType a value).isUnion = false := by
  unfold bindingType
  split
  · exact t.isUnion_typeOf _
  · split
    · next l _ => cases l <;> rfl
    · rfl

theorem Simple.method (h : t.Simple) (id : Nat) :
    (∀ p ∈ (t.method id).params, p.type.isUnion = false) ∧
      ∀ type, (t.method id).returns = some type → type.isUnion = false := by
  unfold SymbolTable.method
  cases found : t.methods[id]? with
  | none => exact ⟨nofun, nofun⟩
  | some m =>
    have inside := List.mem_of_getElem? found
    exact ⟨h.params m inside, h.returns m inside⟩

theorem Simple.field (h : t.Simple) (owner index : Nat) :
    (t.field owner index).type.isUnion = false := by
  unfold SymbolTable.field
  cases found : (t.class_ owner).fields[index]? with
  | none => rfl
  | some f =>
    have inside := List.mem_of_getElem? found
    unfold SymbolTable.class_ at inside
    cases of : t.classes[owner]? with
    | none => rw [of] at inside; cases inside
    | some c =>
      rw [of] at inside
      exact h.fields c (List.mem_of_getElem? of) f inside

theorem Simple.global (h : t.Simple) (id : Nat) : (t.global id).type.isUnion = false := by
  unfold SymbolTable.global
  cases found : t.globals[id]? with
  | none => rfl
  | some g => exact h.globals g (List.mem_of_getElem? found)

end SymbolTable

/-- The functions that an item declares. -/
def Item.functions : Item → List FunctionDecl
  | .function f => [f]
  | .class_ c => c.methods
  | .global _ => []

namespace Filing

/-- Every method that is filed is as `P` says, and no field or global has a union for its type. -/
structure Files (P : Method → Prop) (s : Filing) : Prop where
  methods : ∀ x ∈ s.table.methods, P x
  fields : ∀ c ∈ s.table.classes, ∀ f ∈ c.fields, f.type.isUnion = false
  globals : ∀ g ∈ s.table.globals, g.type.isUnion = false

variable {P : Method → Prop} {s : Filing}

theorem mem_modify {c : ClassInfo} {classes : List ClassInfo} {id : Nat}
    {change : ClassInfo → ClassInfo} (h : c ∈ classes.modify id change) :
    c ∈ classes ∨ ∃ c' ∈ classes, c = change c' := by
  obtain ⟨i, found⟩ := List.mem_iff_getElem?.1 h
  rw [List.getElem?_modify] at found
  obtain ⟨c', there, rfl⟩ := Option.map_eq_some_iff.1 found
  split
  · exact .inr ⟨c', List.mem_of_getElem? there, rfl⟩
  · exact .inl (List.mem_of_getElem? there)

theorem Files.note (h : s.Files P) (ds : List Diagnostic) : (s.note ds).Files P :=
  ⟨h.methods, h.fields, h.globals⟩

theorem Files.addMethod (h : s.Files P) {owner : Option Nat} {f : FunctionDecl}
    (new : ∀ t : SymbolTable, P (t.methodOf owner f)) : (s.addMethod owner f).Files P where
  methods x hx := by
    rcases List.mem_append.1 hx with old | made
    · exact h.methods x old
    · exact List.mem_singleton.1 made ▸ new _
  fields := h.fields
  globals := h.globals

theorem Files.modifyClass (h : s.Files P) (id : Nat) {change : ClassInfo → ClassInfo}
    (keeps : ∀ c ∈ s.table.classes, ∀ f ∈ (change c).fields, f.type.isUnion = false) :
    (s.modifyClass id change).Files P where
  methods := h.methods
  globals := h.globals
  fields c hc f hf := by
    rcases mem_modify hc with old | ⟨c', there, rfl⟩
    · exact h.fields c old f hf
    · exact keeps c' there f hf

theorem Files.addField (h : s.Files P) (className : String) (id : Nat) (f : FieldDecl) :
    (Filing.addField className id s f).Files P := by
  unfold Filing.addField
  split
  · exact h.note _
  · refine (h.note _).modifyClass id fun c hc g hg => ?_
    rcases List.mem_append.1 hg with old | made
    · exact h.fields c hc g old
    · exact List.mem_singleton.1 made ▸ s.table.isUnion_bindingType _ _

theorem Files.addClassMethod (h : s.Files P) (className : String) {id : Nat} {f : FunctionDecl}
    (new : ∀ t : SymbolTable, P (t.methodOf (some id) f)) :
    (Filing.addClassMethod className id s f).Files P :=
  ((h.note _).addMethod new).modifyClass id fun c hc => h.fields c hc

/-- What holds at first and is kept by every step holds after all steps. -/
theorem foldl_keeps {α : Type} {Q : Filing → Prop} {step : Filing → α → Filing} {xs : List α}
    (keeps : ∀ s, ∀ x ∈ xs, Q s → Q (step s x)) (h : Q s) : Q (xs.foldl step s) := by
  induction xs generalizing s with
  | nil => exact h
  | cons x rest ih =>
    refine ih (fun s y hy => keeps s y (List.mem_cons_of_mem _ hy)) ?_
    exact keeps s x List.mem_cons_self h

theorem Files.addClass (h : s.Files P) {c : ClassDecl}
    (new : ∀ (t : SymbolTable) owner, ∀ f ∈ c.methods, P (t.methodOf owner f)) :
    (s.addClass c).Files P := by
  unfold Filing.addClass
  split
  · exact h
  · next id _ =>
    split
    · refine foldl_keeps (Q := Files P) (fun s f hf h => h.addClassMethod _ fun t => new t _ f hf) ?_
      refine foldl_keeps (Q := Files P) (fun s f _ h => h.addField _ _ f) ?_
      exact ⟨h.methods, h.fields, h.globals⟩
    · exact h

theorem Files.addItem (h : s.Files P) {i : Item}
    (new : ∀ (t : SymbolTable) owner, ∀ f ∈ i.functions, P (t.methodOf owner f)) :
    (s.addItem i).Files P := by
  cases i with
  | function f =>
    have made := h.addMethod fun t => new t none f List.mem_cons_self
    simp only [Filing.addItem, addFunction]
    split
    · exact h.note _
    · exact h.note _
    · exact ⟨made.methods, made.fields, made.globals⟩
  | class_ c => exact h.addClass new
  | global g =>
    simp only [Filing.addItem, addGlobal]
    split
    · exact h.note _
    · refine ⟨h.methods, h.fields, fun info hi => ?_⟩
      rcases List.mem_append.1 hi with old | made
      · exact h.globals info old
      · exact List.mem_singleton.1 made ▸ s.table.isUnion_bindingType _ _

theorem Files.nameItem (h : s.Files P) (i : Item) : (s.nameItem i).Files P := by
  cases i with
  | class_ c =>
    simp only [Filing.nameItem, nameClass]
    split
    · exact h.note _
    · refine ⟨h.methods, fun info hi f hf => ?_, h.globals⟩
      rcases List.mem_append.1 hi with old | made
      · exact h.fields info old f hf
      · cases List.mem_singleton.1 made ▸ hf
  | function _ | global _ => exact h

/-- Every method of a module is one of its functions, read in a table under construction. -/
theorem files_ofModule (m : Module) : (ofModule m).Files fun x =>
    ∃ (t : SymbolTable) (owner : Option Nat), ∃ f ∈ m.functions, x = t.methodOf owner f.2 := by
  refine foldl_keeps (Q := Files _) (fun s i hi h => h.addItem fun t owner f hf => ?_) ?_
  · cases i with
    | function g =>
      obtain rfl := List.mem_singleton.1 hf
      exact ⟨t, owner, _, List.mem_flatMap.2 ⟨_, hi, List.mem_cons_self⟩, rfl⟩
    | class_ c =>
      exact ⟨t, owner, _, List.mem_flatMap.2 ⟨_, hi, List.mem_map.2 ⟨f, hf, rfl⟩⟩, rfl⟩
    | global g => cases hf
  · exact foldl_keeps (Q := Files _) (fun s i _ h => h.nameItem i) ⟨nofun, nofun, nofun⟩

end Filing

theorem SymbolTable.simple_ofModule (m : Module) : (SymbolTable.ofModule m).1.Simple where
  params x hx p hp := by
    obtain ⟨t, owner, f, -, rfl⟩ := (Filing.files_ofModule m).methods x hx
    obtain ⟨q, -, rfl⟩ := List.mem_map.1 hp
    exact t.isUnion_bindingType q.typeName none
  returns x hx type declares := by
    obtain ⟨t, owner, f, -, rfl⟩ := (Filing.files_ofModule m).methods x hx
    obtain ⟨a, -, rfl⟩ := Option.map_eq_some_iff.1 declares
    exact t.isUnion_typeOf a
  fields := (Filing.files_ofModule m).fields
  globals := (Filing.files_ofModule m).globals

/-! ## Values -/

namespace Value

/-- The type of a value is canonical, and so are those of its receiver and its properties. -/
inductive Canonical : Value → Prop
  | mk {label : Nat} {type : Ty} {constant : Option Literal} {target : Option Value}
      {members : Option (List Member)} {properties : List (String × Value)}
      (type_ : type.Canonical) (target_ : ∀ r, target = some r → Canonical r)
      (properties_ : ∀ p ∈ properties, Canonical p.2) :
      Canonical ⟨label, type, constant, target, members, properties⟩

variable {t : SymbolTable} {v w : Value}

theorem Canonical.type (h : v.Canonical) : v.type.Canonical := by cases h; assumption

theorem Canonical.target (h : v.Canonical) {r : Value} (bound : v.target = some r) :
    r.Canonical := by
  cases h with
  | mk _ target_ _ => exact target_ r bound

theorem Canonical.property? (h : v.Canonical) {name : String} {p : Value}
    (found : v.property? name = some p) : p.Canonical := by
  cases h with
  | mk _ _ properties_ => exact properties_ _ (Assoc.mem_of_find? found)

theorem canonical_ofType {type : Ty} (h : type.Canonical) : (ofType type).Canonical :=
  .mk h nofun nofun

theorem canonical_ofLiteral (l : Literal) : (ofLiteral l).Canonical := by
  cases l <;> exact .mk trivial nofun nofun

theorem canonical_boundedNumber (min max : Option Float) : (boundedNumber min max).Canonical := by
  refine .mk trivial nofun fun p hp => ?_
  rcases List.mem_append.1 hp with hp | hp <;> obtain ⟨x, -, rfl⟩ := List.mem_map.1 hp <;>
    exact canonical_ofLiteral _

theorem canonical_ofMembers (t : SymbolTable) {target : Option Value}
    (h : ∀ r, target = some r → r.Canonical) (members : List Member) :
    (ofMembers t target members).Canonical := by
  refine .mk ?_ h nofun
  unfold typeOfMembers
  split <;> exact trivial

theorem mem_copyProperties {ps : List (String × Value)} {p : String × Value}
    (h : p ∈ copyProperties ps) : ∃ q ∈ ps, p.2 = q.2.copy := by
  induction ps with
  | nil => cases h
  | cons q rest ih =>
    rcases List.mem_cons.1 h with rfl | h
    · exact ⟨q, List.mem_cons_self, by cases q; rfl⟩
    · obtain ⟨r, hr, same⟩ := ih h
      exact ⟨r, List.mem_cons_of_mem _ hr, same⟩

theorem Canonical.copy (h : v.Canonical) : v.copy.Canonical := by
  induction h with
  | mk type_ target_ _ _ ih =>
    refine .mk type_ target_ fun p hp => ?_
    obtain ⟨q, hq, same⟩ := mem_copyProperties hp
    exact same ▸ ih q hq

theorem mem_placeProperties {ps : List (String × Value)} {next : Nat} {p : String × Value}
    (h : p ∈ (placeProperties next ps).1) : ∃ q ∈ ps, ∃ k, p.2 = (q.2.place k).1 := by
  induction ps generalizing next with
  | nil => cases h
  | cons q rest ih =>
    rcases List.mem_cons.1 h with rfl | h
    · exact ⟨q, List.mem_cons_self, next, by cases q; rfl⟩
    · obtain ⟨r, hr, k, same⟩ := ih h
      exact ⟨r, List.mem_cons_of_mem _ hr, k, same⟩

theorem Canonical.place (h : v.Canonical) (next : Nat) : (v.place next).1.Canonical := by
  induction h generalizing next with
  | @mk label _ _ _ _ _ type_ target_ properties_ _ ih =>
    unfold Value.place
    split
    · refine .mk type_ target_ fun p hp => ?_
      obtain ⟨q, hq, k, same⟩ := mem_placeProperties hp
      exact same ▸ ih q hq k
    · exact .mk type_ target_ properties_

theorem Canonical.setProperty (h : v.Canonical) (name : String) (hw : w.Canonical) :
    (v.setProperty name w).Canonical := by
  cases h with
  | mk type_ target_ properties_ =>
    refine .mk type_ target_ fun p hp => ?_
    rcases Assoc.mem_insert hp with rfl | old
    · exact hw
    · exact properties_ p old

/-- An analysis of declarations with plain types keeps to canonical values. -/
theorem closed_canonical (simple : t.Simple) : ClosedAnywhere t Canonical Ty.Canonical where
  ofType := canonical_ofType
  ofLiteral := canonical_ofLiteral
  boundedNumber := canonical_boundedNumber
  ofMembers h members _ := canonical_ofMembers t h members
  copy := Canonical.copy
  place := Canonical.place
  type := Canonical.type
  target h found := h.target found
  kept h found := h.property? found
  keep h hu _ _ next := h.copy.setProperty _ (hu.place next)
  basic := Ty.canonical_of_basic
  arm h harm := Ty.canonical_of_not_union (h.2.2 _ harm).2
  join := Ty.canonical_join
  made _ _ := trivial
  owner _ _ _ := trivial
  instances _ := trivial
  params id p hp := Ty.canonical_of_not_union ((simple.method id).1 p hp)
  returns id type declares := Ty.canonical_of_not_union ((simple.method id).2 type declares)
  field owner index := Ty.canonical_of_not_union (simple.field owner index)
  global id := Ty.canonical_of_not_union (simple.global id)

end Value

end PathTyping
