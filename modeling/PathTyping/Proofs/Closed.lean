import PathTyping.Resolution
import PathTyping.Value.Operators

/-!
# Kinds of values that the analysis keeps to

Operators and lookups make their results in few ways, out of types, literals, bounds and members.  A
kind of values that admits these ways is kept to by all that the analysis does with values.  Members
and classes are those that the symbol table lists (`SymbolTable.Offers`, `Closed.owner`,
`Closed.made`).

1. The results of operators are of the kind (`Closed.unary`, `Closed.binary`).
2. So are those of lookups (`Closed.named`, `Closed.member`, `Closed.element`).
3. So is what a parameter is bound to, and what a call gives where its body is not followed
   (`Closed.bound`, `Closed.coerce`).
-/

namespace PathTyping

/-- The type needs no declaration and has no alternatives. -/
def Ty.isBasic : Ty → Bool
  | classObject _ | instance_ _ | union _ => false
  | _ => true

/-! ## Members of a table -/

namespace SymbolTable

/-- A name stands for the member: in the module, in a class, or without a declaration. -/
inductive Lists (t : SymbolTable) : Member → Prop
  | outer {name : String} {m : Member} (listed : m ∈ t.getMembers name) : Lists t m
  | own {owner : Nat} {name : String} {m : Member} (listed : m ∈ t.classMembers owner name) :
      Lists t m
  | builtin (b : Builtin) : Lists t (.builtin b)

/-- What a value can name: a class, or all that can be called under a name. -/
structure Offers (t : SymbolTable) (members : List Member) : Prop where
  listed : ∀ m ∈ members, t.Lists m
  shape : (∃ id, members = [.class_ id]) ∨
    members ≠ [] ∧ ∀ m ∈ members, m.isCallable = true

variable {t : SymbolTable}

theorem offers_builtin (t : SymbolTable) (b : Builtin) : t.Offers [.builtin b] where
  listed _ hm := List.mem_singleton.1 hm ▸ .builtin b
  shape := .inr ⟨List.cons_ne_nil _ _, fun _ hm => List.mem_singleton.1 hm ▸ rfl⟩

theorem offers_class {id : Nat} (listed : t.Lists (.class_ id)) : t.Offers [.class_ id] where
  listed _ hm := List.mem_singleton.1 hm ▸ listed
  shape := .inl ⟨id, rfl⟩

theorem offers_callable {first : Member} {rest : List Member}
    (listed : ∀ m ∈ first :: rest, t.Lists m) (callable : first.isCallable = true) :
    t.Offers ((first :: rest).filter Member.isCallable) where
  listed m hm := listed m (List.mem_filter.1 hm).1
  shape := .inr ⟨List.ne_nil_of_mem (List.mem_filter.2 ⟨List.mem_cons_self, callable⟩),
    fun _ hm => (List.mem_filter.1 hm).2⟩

end SymbolTable

namespace Value

/-- The analysis makes values of the kind `K`, whose types are of the kind `T`, only out of such. -/
structure Closed (t : SymbolTable) (K : Value → Prop) (T : Ty → Prop) : Prop where
  ofType : ∀ {type}, T type → K (ofType type)
  ofLiteral : ∀ l, K (ofLiteral l)
  boundedNumber : ∀ least greatest, K (boundedNumber least greatest)
  ofMembers : ∀ {target}, (∀ r, target = some r → K r) → ∀ {members}, t.Offers members →
    K (ofMembers t target members)
  copy : ∀ {v}, K v → K v.copy
  place : ∀ {v}, K v → ∀ next, K (v.place next).1
  type : ∀ {v}, K v → T v.type
  target : ∀ {v r}, K v → v.target = some r → K r
  /-- A member that is kept of a value. -/
  kept : ∀ {v name p}, K v → v.property? name = some p → K p
  /-- A value of which a member is kept that was looked up. -/
  keep : ∀ {v u name}, K v → K u → v.property? name = none → t.member v name = .ok u →
    ∀ next, K (v.copy.setProperty name (u.place next).1)
  basic : ∀ {type}, type.isBasic = true → T type
  arm : ∀ {arms a}, T (.union arms) → a ∈ arms → T a
  join : ∀ {types}, (∀ a ∈ types, T a) → T (.join types)
  /-- What a value that names a class gives when it is called. -/
  made : ∀ {v id rest}, K v → v.members = some (.class_ id :: rest) → T (t.instanceType id)
  owner : ∀ id owner, (t.method id).owner = some owner → T (t.instanceType owner)
  params : ∀ id, ∀ p ∈ (t.method id).params, T p.type
  returns : ∀ id type, (t.method id).returns = some type → T type
  field : ∀ owner index, T (t.field owner index).type
  global : ∀ id, T (t.global id).type

/-- The kind does not depend on which classes the table has, so scopes may name any class. -/
structure ClosedAnywhere (t : SymbolTable) (K : Value → Prop) (T : Ty → Prop) : Prop
    extends Closed t K T where
  instances : ∀ id, T (t.instanceType id)

namespace Closed

variable {t : SymbolTable} {K : Value → Prop} {T : Ty → Prop} {v w u : Value}

theorem any (closed : Closed t K T) : K any := closed.ofType (closed.basic rfl)

theorem ofTypes (closed : Closed t K T) {values : List Value} (h : ∀ v ∈ values, K v) :
    K (.ofType (.join (values.map Value.type))) := by
  refine closed.ofType (closed.join fun type ht => ?_)
  obtain ⟨v, hv, rfl⟩ := List.mem_map.1 ht
  exact closed.type (h v hv)

/-! ### Operators -/

theorem unary (closed : Closed t K T) (op : UnaryOp) (h : K v) : K (unary op v) := by
  cases op with
  | positive => exact closed.copy h
  | negative =>
    simp only [Value.unary, negative]
    split
    · exact closed.ofLiteral _
    · split
      · exact closed.boundedNumber _ _
      · exact closed.copy h
  | not =>
    simp only [Value.unary, negation]
    split
    · exact closed.ofLiteral _
    · exact closed.ofType (closed.basic rfl)

theorem ofTruth (closed : Closed t K T) (b : Option Bool) : K (ofTruth b) := by
  cases b
  · exact closed.ofType (closed.basic rfl)
  · exact closed.ofLiteral _

theorem add (closed : Closed t K T) (h : add v w = some u) : K u := by
  unfold Value.add at h
  split at h
  · split at h <;> cases h
    · exact closed.ofLiteral _
    · exact closed.boundedNumber _ _
  · split at h <;> cases h
    · exact closed.ofLiteral _
    · exact closed.ofType (closed.basic rfl)
  · split at h <;> cases h
    · exact closed.ofLiteral _
    · exact closed.ofType (closed.basic rfl)
  · split at h <;> cases h
    · exact closed.ofLiteral _
    · exact closed.ofType (closed.basic rfl)
  · cases h

theorem arithmetic (closed : Closed t K T) (op : Arithmetic) (h : arithmetic op v w = some u) :
    K u := by
  have number : K (.ofType .number) := closed.ofType (closed.basic rfl)
  have estimate : K (op.estimate v w) := by
    cases op <;> simp only [Arithmetic.estimate]
    · exact closed.boundedNumber _ _
    · exact number
    · exact number
    · split
      · split
        · exact closed.boundedNumber _ _
        · exact number
      · exact number
  unfold Value.arithmetic at h
  split at h
  · dsimp only at h
    split at h <;> cases h
    · exact closed.ofLiteral _
    · exact estimate
  · cases h; exact number
  · cases h; exact number
  · cases h

theorem comparison (closed : Closed t K T) (op : Comparison) (h : comparison op v w = some u) :
    K u := by
  unfold Value.comparison at h
  split at h
  · cases h; exact closed.ofTruth _
  · split at h <;> cases h <;> exact closed.ofTruth _
  · cases h

theorem logical (closed : Closed t K T) (combine : Option Bool → Option Bool → Option Bool)
    (hv : K v) (hw : K w) : K (logical combine v w) := by
  unfold Value.logical
  split
  · exact closed.ofTruth _
  · refine closed.ofTypes fun u (hu : u ∈ [v, w]) => ?_
    simp only [List.mem_cons, List.not_mem_nil, or_false] at hu
    rcases hu with rfl | rfl
    · exact hv
    · exact hw

theorem binary (closed : Closed t K T) (op : BinaryOp) (hv : K v) (hw : K w)
    (h : binary op v w = some u) : K u := by
  cases op
  case add => exact closed.add h
  case subtract | multiply | divide | modulo => exact closed.arithmetic _ h
  case less | lessEqual | greater | greaterEqual => exact closed.comparison _ h
  case equal | notEqual => cases h; exact closed.ofTruth _
  case and | or => cases h; exact closed.logical _ hv hw

/-! ### Lookups -/

theorem of_none : ∀ r, (none : Option Value) = some r → K r := nofun

theorem ofMembers? (closed : Closed t K T) {receiver : Option Value}
    (h : ∀ r, receiver = some r → K r) {members : List Member}
    (listed : ∀ m ∈ members, t.Lists m) (found : t.ofMembers? receiver members = some v) :
    K v := by
  cases members with
  | nil => cases found
  | cons first rest =>
    cases found
    unfold SymbolTable.memberValue
    split
    · exact closed.ofType (closed.field _ _)
    · dsimp only
      split
      · exact closed.ofLiteral _
      · exact closed.ofType (closed.global _)
    · exact closed.ofMembers of_none (SymbolTable.offers_class (listed _ List.mem_cons_self))
    · exact closed.ofMembers h (SymbolTable.offers_callable listed rfl)
    · exact closed.ofMembers h (SymbolTable.offers_callable listed rfl)

theorem named (closed : Closed t K T) {owner : Option Nat} {self? : Option Value}
    (h : ∀ r, self? = some r → K r) {name : String} (found : t.named owner self? name = .ok v) :
    K v := by
  unfold SymbolTable.named at found
  dsimp only at found
  split at found
  · next v' which =>
    cases found
    rw [Option.orElse_eq_orElse, Option.orElse_eq_or, Option.or_eq_some_iff,
      Option.orElse_eq_or, Option.or_eq_some_iff] at which
    rcases which with own | ⟨-, outer | ⟨-, builtin⟩⟩
    · obtain ⟨id, -, own⟩ := Option.bind_eq_some_iff.1 own
      exact closed.ofMembers? h (fun _ => .own) own
    · exact closed.ofMembers? of_none (fun _ => .outer) outer
    · obtain ⟨b, -, rfl⟩ := Option.map_eq_some_iff.1 builtin
      exact closed.ofMembers of_none (t.offers_builtin b)
  · cases found

mutual

theorem findMember (closed : Closed t K T) (name : String) {target : Value} (h : K target)
    {v : Value} : ∀ type : Ty, T type → t.findMember name target type = some v → K v
  | .instance_ c, _, found =>
    closed.ofMembers? (fun _ e => Option.some.inj e ▸ h) (fun _ => .own) found
  | .classObject c, _, found =>
    closed.ofMembers? (fun _ e => Option.some.inj e ▸ h) (fun _ => .own) found
  | .string, _, found => by
    unfold SymbolTable.findMember at found
    split at found
    · split at found <;> cases found
      · exact closed.ofLiteral _
      · exact closed.boundedNumber _ _
    · cases found
  | .number, _, found => by
    unfold SymbolTable.findMember at found
    split at found <;> cases found
    exact closed.ofType (closed.basic rfl)
  | .any, _, found => Option.some.inj found ▸ closed.any
  | .union arms, typed, found => by
    have members := closed.findMembers name arms fun a ha => closed.arm typed ha
    unfold SymbolTable.findMember at found
    split at found
    · cases found
    · next v' only =>
      cases found
      exact members v (only ▸ List.mem_cons_self)
    · cases found
      exact closed.ofTypes members
  | .nil, _, found => nomatch found
  | .boolean, _, found => nomatch found
  | .function, _, found => nomatch found

theorem findMembers (closed : Closed t K T) (name : String) : ∀ types : List Ty,
    (∀ type ∈ types, T type) → ∀ v ∈ t.findMembers name types, K v
  | [], _, _, found => absurd found List.not_mem_nil
  | type :: rest, typed, v, found => by
    obtain ⟨first, others⟩ := List.forall_mem_cons.1 typed
    rw [SymbolTable.findMembers, List.mem_append, Option.mem_toList] at found
    rcases found with here | later
    · exact closed.findMember name (closed.ofType first) type first here
    · exact closed.findMembers name rest others v later

end

theorem member (closed : Closed t K T) {target : Value} (h : K target) {name : String}
    (found : t.member target name = .ok v) : K v := by
  unfold SymbolTable.member at found
  split at found
  · next v' inside =>
    cases found
    exact closed.findMember name h _ (closed.type h) inside
  · cases found

theorem element (closed : Closed t K T) {target key : Value} (h : K target)
    (found : t.element target key = .ok v) : K v := by
  have entry (found : t.entry target key = .ok v) : K v := by
    unfold SymbolTable.entry at found
    split at found
    · exact closed.member h found
    · split at found <;> cases found <;> exact closed.any
  unfold SymbolTable.element at found
  split at found
  · cases found; exact closed.any
  · cases found
    unfold SymbolTable.character
    dsimp only
    split
    · exact closed.ofLiteral _
    · exact closed.ofType (closed.basic rfl)
  · cases found; exact closed.ofType (closed.basic rfl)
  · exact entry found
  · exact entry found
  · cases found

/-! ### Calls -/

theorem coerce (closed : Closed t K T) (h : K v) {declared : Option Ty}
    (typed : ∀ type, declared = some type → T type) : K (v.coerce declared) := by
  unfold Value.coerce
  split
  · exact h
  · next type =>
    split
    · exact h
    · exact closed.ofType (typed type rfl)

theorem bound (closed : Closed t K T) {p : Param} (typed : T p.type) {argument : Option Value}
    (h : ∀ v, argument = some v → K v) : K (p.bound argument) := by
  unfold Param.bound
  split
  · exact closed.any
  · split
    · next v =>
      split
      · exact closed.copy (h v rfl)
      · exact closed.ofType typed
    · split
      · exact closed.ofLiteral _
      · exact closed.ofType typed
    · exact closed.ofType typed

end Closed

end Value

end PathTyping
