import PathTyping.Memory
import PathTyping.Proofs.Closed
import Mathlib.Data.List.Forall2

/-!
# What is seen of a value

Of a value, the analysis looks at its type, its constant, the members that it may name and its
bounds: its face.  Beside these a value carries a label, the receiver that it was loaded from, and
members that were looked up on it before.  Lookups that are kept say nothing that a new lookup would
not say, as long as they were made on values with this face; such a value is tidy.

1. Two values have one face if they have one type and one key (`face_eq_of_key`).
2. The results of operators and lookups have the same faces where their operands do
   (`Like.unary`, `Like.binary`, `like_named`, `Like.element`).
3. A member that is kept looks like one that is looked up (`Like.loaded`), and keeping it changes
   nothing (`face_keep`, `Tidy.keep`).
-/

namespace PathTyping

structure Face where
  type : Ty
  constant : Option Literal
  members : Option (List Member)
  bounds : Option Float × Option Float

namespace Value

def face (v : Value) : Face := ⟨v.type, v.constant, v.members, v.bounds⟩

/-! ## Keys -/

theorem toBits_inj {x y : Float} (h : x.toBits = y.toBits) : x = y := by
  obtain ⟨⟨a, ha⟩⟩ := x
  obtain ⟨⟨b, hb⟩⟩ := y
  obtain rfl : a = b := h
  rfl

theorem literalKey_inj {a b : Literal} (h : LiteralKey.of a = LiteralKey.of b) : a = b := by
  cases a <;> cases b <;> simp only [LiteralKey.of, reduceCtorEq, LiteralKey.number.injEq,
    LiteralKey.string.injEq, LiteralKey.boolean.injEq] at h
  · rw [toBits_inj h]
  · rw [h]
  · rw [h]
  · rfl

theorem map_inj {α β : Type} {f : α → β} (inj : ∀ {a b}, f a = f b → a = b) {x y : Option α}
    (h : x.map f = y.map f) : x = y :=
  Option.map_injective (fun _ _ same => inj same) h

/-- The type of a value and its key tell its face. -/
theorem face_eq_of_key {v w : Value} (type : v.type = w.type)
    (key : ValueKey.of v = ValueKey.of w) : v.face = w.face := by
  simp only [ValueKey.of, ValueKey.mk.injEq] at key
  obtain ⟨constant, least, greatest, members⟩ := key
  rw [face, face, type, map_inj literalKey_inj constant, members]
  exact congrArg _ (Prod.ext (map_inj toBits_inj least) (map_inj toBits_inj greatest))

/-! ## What is known of a value -/

section Face

variable {v w v' w' : Value}

theorem type_of_face (h : v.face = w.face) : v.type = w.type := congrArg Face.type h

theorem constant_of_face (h : v.face = w.face) : v.constant = w.constant :=
  congrArg Face.constant h

theorem members_of_face (h : v.face = w.face) : v.members = w.members := congrArg Face.members h

theorem bounds_of_face (h : v.face = w.face) : v.bounds = w.bounds := congrArg Face.bounds h

theorem number?_of_face (h : v.face = w.face) : v.number? = w.number? := by
  rw [number?, number?, constant_of_face h]

theorem string?_of_face (h : v.face = w.face) : v.string? = w.string? := by
  rw [string?, string?, constant_of_face h]

theorem boolean?_of_face (h : v.face = w.face) : v.boolean? = w.boolean? := by
  rw [boolean?, boolean?, constant_of_face h]

theorem truthiness_of_face (h : v.face = w.face) : v.truthiness = w.truthiness := by
  rw [truthiness, truthiness, constant_of_face h, type_of_face h]

/-! ### Copies and labels -/

@[simp] theorem face_copy (v : Value) : v.copy.face = v.face := by simp [face]

theorem find?_placeProperties (ps : List (String × Value)) (next : Nat) (name : String) :
    ∃ k, Assoc.find? (placeProperties next ps).1 name =
      (Assoc.find? ps name).map fun p => (p.place k).1 := by
  induction ps generalizing next with
  | nil => exact ⟨next, rfl⟩
  | cons p rest ih =>
    obtain ⟨key, p⟩ := p
    by_cases same : key = name
    · exact ⟨next, by simp [placeProperties, placeProperty, Assoc.find?, same]⟩
    · obtain ⟨k, found⟩ := ih (p.place next).2
      exact ⟨k, by simp [placeProperties, placeProperty, Assoc.find?, same, found]⟩

/-- A new label changes no field but those of the label and of what is kept. -/
theorem place_fields (v : Value) (next : Nat) : (v.place next).1.type = v.type ∧
    (v.place next).1.constant = v.constant ∧ (v.place next).1.target = v.target ∧
      (v.place next).1.members = v.members ∧ ((v.place next).1.properties = v.properties ∨
        ∃ k, (v.place next).1.properties = (placeProperties k v.properties).1) := by
  obtain ⟨label, type, constant, target, members, properties⟩ := v
  unfold place
  split
  · exact ⟨rfl, rfl, rfl, rfl, .inr ⟨next + 1, rfl⟩⟩
  · exact ⟨rfl, rfl, rfl, rfl, .inl rfl⟩

/-- What is kept of a value that is placed was kept before, maybe in other objects. -/
theorem property?_place (v : Value) (next : Nat) (name : String) :
    (v.place next).1.property? name = v.property? name ∨
      ∃ k, (v.place next).1.property? name = (v.property? name).map fun p => (p.place k).1 := by
  unfold property?
  rcases (v.place_fields next).2.2.2.2 with same | ⟨k, same⟩
  · exact .inl (by rw [same])
  · exact .inr (same ▸ find?_placeProperties v.properties k name)

@[simp] theorem face_place (v : Value) (next : Nat) : (v.place next).1.face = v.face := by
  have number (u : Value) (k : Nat) : (u.place k).1.number? = u.number? := by
    rw [number?, number?, (u.place_fields k).2.1]
  have bound (name : String) : (v.place next).1.bound? name = v.bound? name := by
    unfold bound?
    rcases v.property?_place next name with same | ⟨k, same⟩
    · rw [same]
    · rw [same]
      cases v.property? name with
      | none => rfl
      | some p => exact number p k
  obtain ⟨type, constant, -, members, -⟩ := v.place_fields next
  rw [face, face, type, constant, members, bounds, bounds, number, bound, bound]

/-! ### Operators -/

theorem face_unary (op : UnaryOp) (h : v.face = w.face) :
    (unary op v).face = (unary op w).face := by
  cases op with
  | positive => exact (face_copy v).trans (h.trans (face_copy w).symm)
  | negative =>
    simp only [unary, negative, number?_of_face h, bounds_of_face h, type_of_face h]
    split
    · rfl
    · split
      · rfl
      · rw [face_copy, face_copy, h]
  | not => simp only [unary, negation, truthiness_of_face h]

/-- Two operands are looked at no further than at their faces. -/
theorem binary_of_face (op : BinaryOp) (h : v.face = v'.face) (h' : w.face = w'.face) :
    binary op v w = binary op v' w' := by
  have sum : add v w = add v' w' := by
    simp only [add, type_of_face h, type_of_face h', number?_of_face h, number?_of_face h',
      bounds_of_face h, bounds_of_face h', constant_of_face h, constant_of_face h']
  have calculation (op : Arithmetic) : arithmetic op v w = arithmetic op v' w' := by
    cases op <;> simp only [arithmetic, Arithmetic.estimate, type_of_face h, type_of_face h',
      number?_of_face h, number?_of_face h', bounds_of_face h, bounds_of_face h']
  have order (op : Comparison) : comparison op v w = comparison op v' w' := by
    cases op <;> simp only [comparison, Comparison.ofBounds, type_of_face h, type_of_face h',
      string?_of_face h, string?_of_face h', bounds_of_face h, bounds_of_face h']
  have truth (combine) : logical combine v w = logical combine v' w' := by
    simp only [logical, type_of_face h, type_of_face h', boolean?_of_face h, boolean?_of_face h']
  have equality : equal? v w = equal? v' w' := by
    simp only [equal?, constant_of_face h, constant_of_face h', type_of_face h, type_of_face h']
  cases op <;> simp only [binary, sum, calculation, order, truth, equality]

/-! ### Members -/

variable {t : SymbolTable} {name : String}

/-- The receiver of members is not seen. -/
theorem face_ofMembers? (t : SymbolTable) (r r' : Option Value) (members : List Member) :
    (t.ofMembers? r members).map face = (t.ofMembers? r' members).map face := by
  cases members with
  | nil => rfl
  | cons first rest => cases first <;> rfl

theorem face_findMember (h : v.face = w.face) (type : Ty) :
    (t.findMember name v type).map face = (t.findMember name w type).map face := by
  cases type with
  | instance_ c => exact face_ofMembers? t _ _ _
  | classObject c => exact face_ofMembers? t _ _ _
  | string => simp only [SymbolTable.findMember, string?_of_face h]
  | _ => rfl

theorem toOption_member (t : SymbolTable) (v : Value) (name : String) :
    (t.member v name).toOption = t.findMember name v v.type := by
  unfold SymbolTable.member
  cases t.findMember name v v.type <;> rfl

/-- What a value shows of a member: its bound if it has one, else what is looked up. -/
def shown (t : SymbolTable) (v : Value) (name : String) : Option Face :=
  match openBound? v name with
  | some x => some (ofLiteral (.number x)).face
  | none => (t.member v name).toOption.map face
where
  /-- The bound of a number that is not constant. -/
  openBound? (v : Value) (name : String) : Option Float :=
    if v.number?.isSome then none
    else if name = "min" then v.bounds.1
    else if name = "max" then v.bounds.2
    else none

theorem shown_of_face (h : v.face = w.face) : shown t v name = shown t w name := by
  simp only [shown, shown.openBound?, number?_of_face h, bounds_of_face h, toOption_member,
    type_of_face h, face_findMember h]

end Face

/-! ## Tidy values -/

/-- What is kept of a value is what it shows, and nothing but the type is known of an instance of a
class; and so it is with what the value was loaded from and what is kept of it. -/
inductive Tidy (t : SymbolTable) : Value → Prop
  | mk {v : Value} (plain : ∀ c, v.type = .instance_ c → v.face = (ofType v.type).face)
      (target : ∀ r, v.target = some r → Tidy t r)
      (kept : ∀ name p, v.property? name = some p → Tidy t p)
      (known : ∀ name p, v.property? name = some p → shown t v name = some p.face) : Tidy t v

section Tidy

variable {t : SymbolTable} {v w u : Value} {name : String}

theorem Tidy.plain (h : v.Tidy t) {c : ClassRef} (type : v.type = .instance_ c) :
    v.face = (ofType v.type).face := by
  cases h with
  | mk plain _ _ _ => exact plain c type

theorem Tidy.target (h : v.Tidy t) {r : Value} (loaded : v.target = some r) : r.Tidy t := by
  cases h with
  | mk _ target _ _ => exact target r loaded

theorem Tidy.kept (h : v.Tidy t) {p : Value} (found : v.property? name = some p) : p.Tidy t := by
  cases h with
  | mk _ _ kept _ => exact kept name p found

theorem Tidy.known (h : v.Tidy t) {p : Value} (found : v.property? name = some p) :
    shown t v name = some p.face := by
  cases h with
  | mk _ _ _ known => exact known name p found

theorem tidy_ofType (type : Ty) : (ofType type).Tidy t := .mk (fun _ _ => rfl) nofun nofun nofun

theorem tidy_any : any.Tidy t := tidy_ofType .any

theorem tidy_ofLiteral (l : Literal) : (ofLiteral l).Tidy t :=
  .mk (by cases l <;> nofun) nofun nofun nofun

theorem tidy_ofMembers {target : Option Value} (h : ∀ r, target = some r → r.Tidy t)
    (members : List Member) : (ofMembers t target members).Tidy t := by
  refine .mk (fun c type => ?_) h nofun nofun
  have never : typeOfMembers t members ≠ .instance_ c := by
    unfold typeOfMembers
    split <;> nofun
  exact absurd type never

theorem property?_boundedNumber {min max : Option Float} {p : Value}
    (found : (boundedNumber min max).property? name = some p) :
    ∃ x, p = ofLiteral (.number x) ∧
      (name = "min" ∧ min = some x ∨ name = "max" ∧ max = some x) := by
  cases min <;> cases max <;>
    simp only [boundedNumber, property?, Option.toList_none, Option.toList_some, List.map_nil,
      List.map_cons, List.nil_append, List.append_nil, List.cons_append, Assoc.find?] at found
  · cases found
  · next x =>
    split at found
    · cases found; exact ⟨x, rfl, .inr ⟨by simp_all, rfl⟩⟩
    · cases found
  · next x =>
    split at found
    · cases found; exact ⟨x, rfl, .inl ⟨by simp_all, rfl⟩⟩
    · cases found
  · next x y =>
    split at found
    · cases found; exact ⟨x, rfl, .inl ⟨by simp_all, rfl⟩⟩
    · split at found
      · cases found; exact ⟨y, rfl, .inr ⟨by simp_all, rfl⟩⟩
      · cases found

theorem tidy_boundedNumber (min max : Option Float) : (boundedNumber min max).Tidy t := by
  refine .mk nofun nofun (fun name p found => ?_) fun name p found => ?_
  · obtain ⟨x, rfl, -⟩ := property?_boundedNumber found
    exact tidy_ofLiteral _
  · obtain ⟨x, rfl, ⟨rfl, rfl⟩ | ⟨rfl, rfl⟩⟩ := property?_boundedNumber found <;>
      simp [shown, shown.openBound?, bounds_boundedNumber]

theorem Tidy.copy (h : v.Tidy t) : v.copy.Tidy t := by
  induction h with
  | @mk v plain target _ known _ ih =>
    refine .mk (fun c type => ?_) (fun r loaded => target r (copy_target v ▸ loaded)) ?_ ?_
    · rw [copy_type] at type ⊢
      rw [face_copy]
      exact plain c type
    · intro name p found
      rw [property?_copy] at found
      obtain ⟨q, was, rfl⟩ := Option.map_eq_some_iff.1 found
      exact ih name q was
    · intro name p found
      rw [property?_copy] at found
      obtain ⟨q, was, rfl⟩ := Option.map_eq_some_iff.1 found
      rw [shown_of_face (face_copy v), face_copy]
      exact known name q was

theorem Tidy.place (h : v.Tidy t) (next : Nat) : (v.place next).1.Tidy t := by
  induction h generalizing next with
  | @mk v plain target kept known _ ih =>
    obtain ⟨sameType, -, sameTarget, -⟩ := v.place_fields next
    have old (name : String) (p : Value) (found : (v.place next).1.property? name = some p) :
        ∃ q, v.property? name = some q ∧ (p = q ∨ ∃ k, p = (q.place k).1) := by
      rcases v.property?_place next name with same | ⟨k, same⟩
      · exact ⟨p, same ▸ found, .inl rfl⟩
      · obtain ⟨q, was, rfl⟩ := Option.map_eq_some_iff.1 (same ▸ found)
        exact ⟨q, was, .inr ⟨k, rfl⟩⟩
    refine .mk (fun c type => ?_) (fun r loaded => target r (sameTarget ▸ loaded)) ?_ ?_
    · rw [sameType] at type ⊢
      rw [face_place]
      exact plain c type
    · intro name p found
      obtain ⟨q, was, rfl | ⟨k, rfl⟩⟩ := old name p found
      · exact kept name p was
      · exact ih name q was k
    · intro name p found
      rw [shown_of_face (face_place v next)]
      obtain ⟨q, was, rfl | ⟨k, rfl⟩⟩ := old name p found
      · exact known name p was
      · rw [face_place]
        exact known name q was

/-! ### Keeping members -/

theorem number?_ofMembers? {owner : Nat} {r : Option Value}
    (found : t.ofMembers? r (t.classMembers owner name) = some u) : u.number? = none := by
  cases members : t.classMembers owner name with
  | nil => rw [members] at found; cases found
  | cons first rest =>
    have inside : first ∈ t.fieldMembers owner name ++ t.methodMembers owner name := by
      rw [← t.classMembers_eq, members]
      exact List.mem_cons_self
    rw [members] at found
    cases found
    rcases List.mem_append.1 inside with field | method
    · obtain ⟨⟨_, i⟩, -, rfl⟩ := List.mem_map.1 field
      rfl
    · obtain ⟨id, -, rfl⟩ := List.mem_map.1 method
      rfl

mutual

/-- Only the length of a string is a constant number. -/
theorem number?_findMember (other : name ≠ "length") (target : Value) {u : Value} :
    ∀ type : Ty, t.findMember name target type = some u → u.number? = none
  | .instance_ c, found => number?_ofMembers? found
  | .classObject c, found => number?_ofMembers? found
  | .string, found => by
    rw [SymbolTable.findMember, if_neg other] at found
    cases found
  | .number, found => by
    unfold SymbolTable.findMember at found
    split at found <;> cases found
    rfl
  | .any, found => by cases found; rfl
  | .union arms, found => by
    have members : ∀ u ∈ t.findMembers name arms, u.number? = none :=
      number?_findMembers other arms
    unfold SymbolTable.findMember at found
    split at found
    · cases found
    · next v only =>
      cases found
      exact members _ (only ▸ List.mem_cons_self)
    · cases found
      rfl
  | .nil, found => nomatch found
  | .boolean, found => nomatch found
  | .function, found => nomatch found

theorem number?_findMembers (other : name ≠ "length") : ∀ types : List Ty,
    ∀ u ∈ t.findMembers name types, u.number? = none
  | [], _, found => absurd found List.not_mem_nil
  | type :: rest, u, found => by
    rw [SymbolTable.findMembers, List.mem_append, Option.mem_toList] at found
    rcases found with here | later
    · exact number?_findMember other _ type here
    · exact number?_findMembers other rest u later

end

theorem findMember_of_member (found : t.member v name = .ok u) :
    t.findMember name v v.type = some u := by
  rw [← toOption_member, found]
  rfl

/-- What is not kept of a value is shown by a lookup. -/
theorem shown_of_unkept (new : v.property? name = none) :
    shown t v name = (t.member v name).toOption.map face := by
  have unbound : shown.openBound? v name = none := by
    unfold shown.openBound?
    split
    · rfl
    · next isOpen =>
      have nothing : v.number? = none := by simpa using isOpen
      split
      · next same => simp [bounds, nothing, bound?, ← same, new]
      · split
        · next same => simp [bounds, nothing, bound?, ← same, new]
        · rfl
  rw [shown, unbound]

theorem property?_keep (v p : Value) (key : String) :
    (v.copy.setProperty key p).property? name =
      if key = name then some p else (v.property? name).map copy := by
  split
  · next same => rw [same, property?, setProperty, Assoc.find?_insert_self]
  · next other =>
    rw [property?, setProperty, Assoc.find?_insert_of_ne _ _ other]
    exact property?_copy v name

/-- A value that keeps a member that was looked up shows what it showed before. -/
theorem face_keep (new : v.property? name = none) (found : t.member v name = .ok u) (next : Nat) :
    (v.copy.setProperty name (u.place next).1).face = v.face := by
  have bound (key : String) (bounding : key = "min" ∨ key = "max") :
      (v.copy.setProperty name (u.place next).1).bound? key = v.bound? key := by
    rw [bound?, bound?, property?_keep]
    split
    · next same =>
      have plain : (u.place next).1.number? = none := by
        rw [number?_of_face (face_place u next)]
        refine number?_findMember ?_ v v.type (findMember_of_member found)
        rintro rfl
        rcases bounding with rfl | rfl
        · exact absurd same (by decide)
        · exact absurd same (by decide)
      rw [← same, new]
      exact plain
    · cases v.property? key with
      | none => rfl
      | some p => exact number?_copy p
  have number : (v.copy.setProperty name (u.place next).1).number? = v.number? := number?_copy v
  rw [face, face, bounds, bounds, number, bound "min" (.inl rfl), bound "max" (.inr rfl)]
  exact Face.mk.injEq .. |>.mpr ⟨copy_type v, copy_constant v, copy_members v, rfl⟩

theorem Tidy.keep (h : v.Tidy t) (tidy : u.Tidy t) (new : v.property? name = none)
    (found : t.member v name = .ok u) (next : Nat) :
    (v.copy.setProperty name (u.place next).1).Tidy t := by
  have same := face_keep new found next
  have kept (key : String) (p : Value)
      (hp : (v.copy.setProperty name (u.place next).1).property? key = some p) :
      p = (u.place next).1 ∧ key = name ∨ ∃ q, v.property? key = some q ∧ p = q.copy := by
    rw [property?_keep] at hp
    split at hp
    · next mine => exact .inl ⟨(Option.some.inj hp).symm, mine.symm⟩
    · obtain ⟨q, hq, rfl⟩ := Option.map_eq_some_iff.1 hp
      exact .inr ⟨q, hq, rfl⟩
  refine .mk (fun c type => ?_) (fun r loaded => h.target (copy_target v ▸ loaded)) ?_ ?_
  · have was : v.type = .instance_ c := (type_of_face same).symm.trans type
    rw [same, type_of_face same]
    exact h.plain was
  · intro key p hp
    obtain ⟨rfl, -⟩ | ⟨q, hq, rfl⟩ := kept key p hp
    · exact tidy.place next
    · exact (h.kept hq).copy
  · intro key p hp
    rw [shown_of_face same]
    obtain ⟨rfl, rfl⟩ | ⟨q, hq, rfl⟩ := kept key p hp
    · rw [shown_of_unkept new, found, face_place]
      rfl
    · rw [face_copy]
      exact h.known hq

/-- All that the analysis does with values makes tidy values. -/
theorem closed_tidy : ClosedAnywhere t (Tidy t) fun _ => True where
  ofType _ := tidy_ofType _
  ofLiteral := tidy_ofLiteral
  boundedNumber := tidy_boundedNumber
  ofMembers h members _ := tidy_ofMembers h members
  copy := Tidy.copy
  place := Tidy.place
  type _ := trivial
  target h := h.target
  kept h := h.kept
  keep := Tidy.keep
  basic _ := trivial
  arm _ _ := trivial
  join _ := trivial
  made _ _ := trivial
  owner _ _ _ := trivial
  instances _ := trivial
  params _ _ _ := trivial
  returns _ _ _ := trivial
  field _ _ := trivial
  global _ := trivial

end Tidy

/-! ## Values that look alike -/

/-- Tidy values with one face. -/
structure Like (t : SymbolTable) (v w : Value) : Prop where
  face : v.face = w.face
  left : v.Tidy t
  right : w.Tidy t

section Like

variable {t : SymbolTable} {v w u v' w' : Value} {name : String}

theorem Tidy.like (h : v.Tidy t) : Like t v v := ⟨rfl, h, h⟩

theorem Tidy.like_place (h : v.Tidy t) (next : Nat) : Like t (v.place next).1 v :=
  ⟨face_place v next, h.place next, h⟩

/-- Of values that are found or not, those that are found look alike. -/
theorem like_of_face {x y : Option Value} (face : x.map face = y.map face)
    (left : ∀ v, x = some v → v.Tidy t) (right : ∀ w, y = some w → w.Tidy t) :
    Option.Rel (Like t) x y := by
  cases x with
  | none => cases y with
    | none => exact .none
    | some w => cases face
  | some v => cases y with
    | none => cases face
    | some w => exact .some ⟨Option.some.inj face, left v rfl, right w rfl⟩

theorem face_of_like {x y : Option Value} (h : Option.Rel (Like t) x y) :
    x.map Value.face = y.map Value.face := by
  cases h with
  | none => rfl
  | some same => exact congrArg some same.face

theorem tidy_of_like {x y : Option Value} (h : Option.Rel (Like t) x y) :
    (∀ v, x = some v → v.Tidy t) ∧ ∀ w, y = some w → w.Tidy t := by
  cases h with
  | none => exact ⟨nofun, nofun⟩
  | some same =>
    exact ⟨fun _ h => Option.some.inj h ▸ same.left, fun _ h => Option.some.inj h ▸ same.right⟩

namespace Like

theorem symm (h : Like t v w) : Like t w v := ⟨h.face.symm, h.right, h.left⟩

theorem trans (h : Like t v w) (h' : Like t w u) : Like t v u :=
  ⟨h.face.trans h'.face, h.left, h'.right⟩

theorem place (h : Like t v w) (next next' : Nat) :
    Like t (v.place next).1 (w.place next').1 :=
  ⟨by rw [face_place, face_place, h.face], h.left.place next, h.right.place next'⟩

theorem unary (op : UnaryOp) (h : Like t v w) : Like t (unary op v) (unary op w) :=
  ⟨face_unary op h.face, closed_tidy.unary op h.left, closed_tidy.unary op h.right⟩

theorem binary (op : BinaryOp) (h : Like t v v') (h' : Like t w w') :
    Like t ((binary op v w).getD .any) ((binary op v' w').getD .any) := by
  rw [← binary_of_face op h.face h'.face]
  cases found : Value.binary op v w with
  | none => exact tidy_any.like
  | some u => exact (closed_tidy.binary op h.left h'.left found).like

theorem coerce (h : Like t v w) (declared : Option Ty) :
    Like t (v.coerce declared) (w.coerce declared) := by
  refine ⟨?_, closed_tidy.coerce h.left fun _ _ => trivial,
    closed_tidy.coerce h.right fun _ _ => trivial⟩
  unfold Value.coerce
  cases declared with
  | none => exact h.face
  | some type =>
    dsimp only
    rw [type_of_face h.face]
    split
    · exact h.face
    · rfl

theorem alike (h : Like t v v') (h' : Like t w w') : v.alike w = v'.alike w' := by
  rw [Value.alike, Value.alike, type_of_face h.face, type_of_face h'.face,
    constant_of_face h.face, constant_of_face h'.face]

/-! ### Members -/

/-- A value is taken for the one that keeps a member of it. -/
theorem keep (h : Like t v w) (tidy : u.Tidy t) (new : v.property? name = none)
    (found : t.member v name = .ok u) (next : Nat) :
    Like t (v.copy.setProperty name (u.place next).1) w :=
  ⟨(face_keep new found next).trans h.face, h.left.keep tidy new found next, h.right⟩

theorem member (h : Like t v w) (name : String) :
    Option.Rel (Like t) (t.member v name).toOption (t.member w name).toOption := by
  have tidy {v u : Value} (hv : v.Tidy t) (found : (t.member v name).toOption = some u) :
      u.Tidy t := by
    rw [toOption_member] at found
    exact closed_tidy.findMember name hv v.type trivial found
  refine like_of_face ?_ (fun _ => tidy h.left) fun _ => tidy h.right
  rw [toOption_member, toOption_member, type_of_face h.face]
  exact face_findMember h.face w.type

end Like

/-- The member that is kept of a value, or else the one that is looked up. -/
def loaded (t : SymbolTable) (v : Value) (name : String) : Option Value :=
  (v.property? name).or (t.member v name).toOption

theorem face_loaded (h : v.Tidy t) (name : String) :
    (loaded t v name).map face = shown t v name := by
  unfold loaded
  cases kept : v.property? name with
  | some p => exact (h.known kept).symm
  | none => exact (shown_of_unkept kept).symm

theorem tidy_loaded (h : v.Tidy t) {u : Value} (found : loaded t v name = some u) :
    u.Tidy t := by
  rcases Option.or_eq_some_iff.1 found with kept | ⟨-, found⟩
  · exact h.kept kept
  · rw [toOption_member] at found
    exact closed_tidy.findMember name h v.type trivial found

theorem loaded_of_kept {p : Value} (kept : v.property? name = some p) :
    loaded t v name = some p := by rw [loaded, kept, Option.some_or]

theorem loaded_of_member {p : Value} (new : v.property? name = none)
    (found : t.member v name = .ok p) : loaded t v name = some p := by
  rw [loaded, new, found]
  rfl

theorem loaded_of_error {f : Finding} (new : v.property? name = none)
    (missing : t.member v name = .error f) : loaded t v name = none := by
  rw [loaded, new, missing]
  rfl

/-- It does not matter of which of two values a member was loaded before. -/
theorem Like.loaded (h : Like t v w) (name : String) :
    Option.Rel (Like t) (loaded t v name) (loaded t w name) := by
  refine like_of_face ?_ (fun _ => tidy_loaded h.left) fun _ => tidy_loaded h.right
  rw [face_loaded h.left, face_loaded h.right, shown_of_face h.face]

/-! ### Other lookups -/

theorem toOption_named (t : SymbolTable) (owner : Option Nat) (self? : Option Value)
    (name : String) : (t.named owner self? name).toOption =
      ((owner.bind fun id => t.ofMembers? self? (t.classMembers id name)).or
        (t.ofMembers? none (t.getMembers name))).or
          ((Builtin.ofName? name).map fun b => ofMembers t none [.builtin b]) := by
  unfold SymbolTable.named
  simp only [Option.orElse_eq_orElse, Option.orElse_eq_or, Option.or_assoc]
  split
  · next v found => rw [found]; rfl
  · next nothing => rw [nothing]; rfl

theorem like_named {self? self?' : Option Value} (h : Option.Rel (Like t) self? self?')
    (owner : Option Nat) (name : String) :
    Option.Rel (Like t) (t.named owner self? name).toOption
      (t.named owner self?' name).toOption := by
  have tidy {self? : Option Value} (hr : ∀ r, self? = some r → r.Tidy t) {u : Value}
      (found : (t.named owner self? name).toOption = some u) : u.Tidy t := by
    cases named : t.named owner self? name with
    | error f => rw [named] at found; cases found
    | ok w =>
      rw [named] at found
      exact Option.some.inj found ▸ closed_tidy.named hr named
  refine like_of_face ?_ (fun _ => tidy (tidy_of_like h).1) fun _ => tidy (tidy_of_like h).2
  rw [toOption_named, toOption_named, Option.map_or, Option.map_or, Option.map_or, Option.map_or]
  cases owner with
  | none => rfl
  | some id => rw [Option.bind_some, Option.bind_some, face_ofMembers? t self? self?']

theorem Like.element (h : Like t v v') (h' : Like t w w') :
    Option.Rel (Like t) (t.element v w).toOption (t.element v' w').toOption := by
  have tidy {v w u : Value} (hv : v.Tidy t) (found : (t.element v w).toOption = some u) :
      u.Tidy t := by
    cases named : t.element v w with
    | error f => rw [named] at found; cases found
    | ok x =>
      rw [named] at found
      exact Option.some.inj found ▸ closed_tidy.element hv named
  have entry : (t.entry v w).toOption.map Value.face = (t.entry v' w').toOption.map Value.face := by
    unfold SymbolTable.entry
    rw [string?_of_face h'.face, type_of_face h'.face]
    split
    · exact face_of_like (h.member _)
    · split <;> rfl
  refine like_of_face ?_ (fun _ => tidy h.left) fun _ => tidy h.right
  unfold SymbolTable.element
  rw [type_of_face h.face, type_of_face h'.face]
  split
  · rfl
  · simp only [SymbolTable.character, string?_of_face h.face, number?_of_face h'.face]
  · rfl
  · exact entry
  · exact entry
  · rfl

/-! ### Calls -/

theorem like_bound (p : Param) {x y : Option Value} (h : Option.Rel (Like t) x y) :
    Like t (p.bound x) (p.bound y) := by
  obtain ⟨left, right⟩ := tidy_of_like h
  refine ⟨?_, closed_tidy.bound trivial left, closed_tidy.bound trivial right⟩
  unfold Param.bound
  split
  · rfl
  · cases h with
    | none => rfl
    | some same =>
      dsimp only
      rw [type_of_face same.face]
      split
      · rw [face_copy, face_copy, same.face]
      · rfl

/-- Of values that look alike one by one, the same are distinct. -/
theorem like_distinct {values others : List Value} (h : List.Forall₂ (Like t) values others) :
    List.Forall₂ (Like t) (distinct values) (distinct others) := by
  suffices from_ : ∀ {seen seen'}, List.Forall₂ (Like t) seen seen' →
      List.Forall₂ (Like t) (distinctFrom seen values) (distinctFrom seen' others) from from_ .nil
  induction h with
  | nil => exact fun _ => .nil
  | @cons v w values others first _ ih =>
    intro seen seen' before
    have known : seen.any (·.alike v) = seen'.any (·.alike w) := by
      induction before with
      | nil => rfl
      | cons same _ ih => rw [List.any_cons, List.any_cons, same.alike first, ih]
    rw [distinctFrom, distinctFrom, known]
    split
    · exact ih before
    · exact .cons first (ih (List.rel_append before (.cons first .nil)))

end Like

end Value

end PathTyping
