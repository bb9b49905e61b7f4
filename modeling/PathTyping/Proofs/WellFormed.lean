import PathTyping.Proofs.Consistent
import PathTyping.Proofs.Histories

/-!
# Well-formed values

The parts of a value that an analysis makes go together: what is constant has the type of its
literal and names nothing, what names something has a type that says so, bounds are kept of numbers
alone, and types are canonical and name only classes of the table.

1. An analysis with a consistent table keeps to well-formed values (`Value.closed_wellFormed`).
2. So do queries, one behind the other, whose numbers and scopes are those of the table
   (`Query.sound_history`).
3. Wherever the walks of a query come to, in its own code or in the body of a call that is followed,
   all values at hand are of any kind that the analysis keeps to (`Query.Reaches.sound`).
-/

namespace PathTyping

open Walk

/-! ## Values -/

/-- What values of that type name: one class, or what can be called. -/
structure SymbolTable.Denotes (t : SymbolTable) (type : Ty) (members : List Member) : Prop where
  some : members ≠ []
  has : ∀ m ∈ members, t.Has m
  kind : (∃ id, members = [.class_ id] ∧ type = t.classType id) ∨
    (∀ m ∈ members, m.isCallable = true) ∧ type = .function

namespace Value

/-- The parts of the value go together, and so do those of its receiver and of its properties.  A
bound is a property `min` or `max` that is a constant number, as `bounds` reads it; another property
of that name is a member that was found of an object. -/
inductive WellFormed (t : SymbolTable) : Value → Prop
  | mk {v : Value} (type : v.type.WellFormed t)
      (constant : ∀ l, v.constant = some l → v.type = .ofLiteral l ∧ v.members = none)
      (members : ∀ ms, v.members = some ms → t.Denotes v.type ms)
      (bound : ∀ name, name = "min" ∨ name = "max" → (v.bound? name).isSome = true →
        v.type = .number)
      (target : ∀ r, v.target = some r → WellFormed t r)
      (kept : ∀ name p, v.property? name = some p → WellFormed t p) : WellFormed t v

namespace WellFormed

variable {t : SymbolTable} {v u r p : Value} {name : String} {ms : List Member}

theorem type (h : v.WellFormed t) : v.type.WellFormed t := by
  cases h; assumption

theorem constant (h : v.WellFormed t) {l : Literal} (known : v.constant = some l) :
    v.type = .ofLiteral l ∧ v.members = none := by
  cases h with
  | mk _ constant _ _ _ _ => exact constant l known

theorem members (h : v.WellFormed t) (names : v.members = some ms) :
    t.Denotes v.type ms := by
  cases h with
  | mk _ _ members _ _ _ => exact members ms names

theorem bound (h : v.WellFormed t) (which : name = "min" ∨ name = "max")
    (known : (v.bound? name).isSome = true) : v.type = .number := by
  cases h with
  | mk _ _ _ bound _ _ => exact bound name which known

theorem target (h : v.WellFormed t) (loaded : v.target = some r) : r.WellFormed t := by
  cases h with
  | mk _ _ _ _ target _ => exact target r loaded

theorem kept (h : v.WellFormed t) (found : v.property? name = some p) : p.WellFormed t := by
  cases h with
  | mk _ _ _ _ _ kept => exact kept name p found

/-- Nothing is known of the bounds of what is no number. -/
theorem bounds_of_ne (h : v.WellFormed t) (other : v.type ≠ .number) : v.bounds = (none, none) := by
  have open_ : v.number? = none := by
    unfold number?
    split
    · next x known => exact absurd (h.constant known).1 other
    · rfl
  have unknown {name : String} (which : name = "min" ∨ name = "max") : v.bound? name = none :=
    Option.not_isSome_iff_eq_none.1 fun known => other (h.bound which known)
  rw [bounds, open_, unknown (.inl rfl), unknown (.inr rfl)]

theorem ofType {type : Ty} (h : type.WellFormed t) : (Value.ofType type).WellFormed t :=
  .mk h nofun nofun nofun nofun nofun

theorem ofLiteral (l : Literal) : (Value.ofLiteral l).WellFormed t :=
  .mk (Ty.wellFormed_ofLiteral l) (fun _ known => Option.some.inj known ▸ ⟨rfl, rfl⟩) nofun nofun
    nofun nofun

theorem boundedNumber (least greatest : Option Float) :
    (Value.boundedNumber least greatest).WellFormed t := by
  refine .mk (Ty.wellFormed_of_basic rfl) nofun nofun (fun _ _ _ => rfl) nofun
    fun name p found => ?_
  obtain ⟨x, rfl, -⟩ := property?_boundedNumber found
  exact ofLiteral _

theorem denotes_of_offers (consistent : t.Consistent) (offers : t.Offers ms) :
    t.Denotes (typeOfMembers t ms) ms := by
  obtain ⟨listed, ⟨id, rfl⟩ | ⟨some, callable⟩⟩ := offers
  · exact ⟨by simp, fun m hm => consistent.has (listed m hm), .inl ⟨id, rfl, rfl⟩⟩
  · refine ⟨some, fun m hm => consistent.has (listed m hm), .inr ⟨callable, ?_⟩⟩
    obtain ⟨first, rest, rfl⟩ := List.exists_cons_of_ne_nil some
    have called := callable first List.mem_cons_self
    cases first with
    | method _ | builtin _ => rfl
    | class_ _ | global _ | field _ _ => cases called

theorem ofMembers (consistent : t.Consistent) {target : Option Value}
    (h : ∀ r, target = some r → r.WellFormed t) (offers : t.Offers ms) :
    (Value.ofMembers t target ms).WellFormed t := by
  have denotes := denotes_of_offers consistent offers
  refine .mk ?_ nofun (fun ms names => Option.some.inj names ▸ denotes) nofun h nofun
  show (typeOfMembers t ms).WellFormed t
  obtain ⟨id, rfl, type⟩ | ⟨-, type⟩ := denotes.kind
  · exact type ▸ Ty.wellFormed_classType (denotes.has _ List.mem_cons_self)
  · exact type ▸ Ty.wellFormed_of_basic rfl

theorem copy (h : v.WellFormed t) : v.copy.WellFormed t := by
  induction h with
  | @mk v type constant members bound target _ _ ih =>
    refine .mk (by rwa [copy_type]) ?_ ?_ (fun name which known => ?_) ?_ fun name p found => ?_
    · rwa [copy_constant, copy_type, copy_members]
    · rwa [copy_members, copy_type]
    · have same : v.copy.bound? name = v.bound? name := by
        cases found : v.property? name <;> simp [bound?, found]
      rw [copy_type]
      exact bound name which (same ▸ known)
    · rwa [copy_target]
    · rw [property?_copy] at found
      obtain ⟨q, was, rfl⟩ := Option.map_eq_some_iff.1 found
      exact ih name q was

theorem place (h : v.WellFormed t) (next : Nat) : (v.place next).1.WellFormed t := by
  induction h generalizing next with
  | @mk v type constant members bound target kept _ ih =>
    obtain ⟨sameType, sameConstant, sameTarget, sameMembers, -⟩ := v.place_fields next
    have bounded (name : String) : (v.place next).1.bound? name = v.bound? name := by
      rcases v.property?_place next name with same | ⟨k, same⟩
      · rw [bound?, same, bound?]
      · rw [bound?, same, bound?]
        cases v.property? name with
        | none => rfl
        | some p => exact number?_of_face (face_place p k)
    refine .mk (by rwa [sameType]) ?_ ?_ (fun name which known => ?_) ?_ fun name p found => ?_
    · rwa [sameConstant, sameType, sameMembers]
    · rwa [sameMembers, sameType]
    · exact sameType.trans (bound name which (bounded name ▸ known))
    · rwa [sameTarget]
    · rcases v.property?_place next name with same | ⟨k, same⟩
      · exact kept name p (same ▸ found)
      · obtain ⟨q, was, rfl⟩ := Option.map_eq_some_iff.1 (same ▸ found)
        exact ih name q was k

/-- A member that is found and kept is no bound. -/
theorem keep (h : v.WellFormed t) (hu : u.WellFormed t) (found : t.member v name = .ok u)
    (next : Nat) : (v.copy.setProperty name (u.place next).1).WellFormed t := by
  have copied := h.copy
  refine .mk copied.type (fun l known => copied.constant known)
    (fun ms names => copied.members names) (fun key which known => ?_)
    (fun r loaded => copied.target loaded) fun key p kept => ?_
  · rw [bound?, property?_keep] at known
    split at known
    · next same =>
      have unknown : u.number? = none := by
        refine number?_findMember ?_ v v.type (findMember_of_member found)
        rintro rfl
        rcases which with rfl | rfl
        · exact absurd same (by decide)
        · exact absurd same (by decide)
      rw [Option.bind_some, number?_of_face (face_place u next), unknown] at known
      cases known
    · rw [← property?_copy] at known
      exact copied.bound which known
  · rw [property?_keep] at kept
    split at kept
    · exact Option.some.inj kept ▸ hu.place next
    · exact copied.kept ((property?_copy v key).trans kept)

end WellFormed

/-- An analysis with a consistent table keeps to well-formed values. -/
theorem closed_wellFormed {t : SymbolTable} (h : t.Consistent) :
    Closed t (WellFormed t) (Ty.WellFormed t) where
  ofType := .ofType
  ofLiteral := .ofLiteral
  boundedNumber := .boundedNumber
  ofMembers receiver _ offers := .ofMembers h receiver offers
  copy := .copy
  place := .place
  type h := h.type
  target := .target
  kept := .kept
  keep hv hu _ found next := hv.keep hu found next
  basic := Ty.wellFormed_of_basic
  arm h ha := h.arm ha
  join := Ty.wellFormed_join
  made hv names := Ty.wellFormed_instanceType ((hv.members names).has _ List.mem_cons_self)
  owner id owner mine := Ty.wellFormed_instanceType ((h.method id).owner owner mine)
  params id := (h.method id).params
  returns id := (h.method id).returns
  field := h.field
  global := h.global

end Value

/-! ## Queries -/

/-- The method and the class of the scope are those of the table. -/
structure Scope.Valid (t : SymbolTable) (scope : Scope) : Prop where
  method : ∀ id, scope.method = some id → t.Has (.method id)
  owner : ∀ id, scope.owner = some id → t.Has (.class_ id)

/-- The call is followed into the body of its method. -/
structure MethodCall.Follows (c : MethodCall) (depth : Nat) (code : Code) (m : Memory) : Prop where
  depth : c.depth = depth + 1
  unknown : c.memory.find? c.key = none
  entered : c.key.call ∉ c.memory.stack
  body : (Analysis.body c.ctx.symbols c.id).run c.memory = (some code, m)

namespace Query

/-- The query asks for what the table has. -/
def Valid (t : SymbolTable) : Query → Prop
  | body id => t.Has (.method id)
  | resolveMethod id => t.Has (.method id)
  | returnType id => t.Has (.method id)
  | typeAt id _ => t.Has (.method id)
  | resolveCode _ scope => scope.Valid t
  | typeOfExpression _ scope => scope.Valid t

/-- The query comes to a task: in its own code, or in a body that it follows a call into. -/
inductive Reaches (ctx : Context) (m : Memory) (q : Query) :
    Invoke → Array Step → Task → State → Prop
  | outer {e : Entry} {s₀ s : State} {task : Task} (opens : q.opens? ctx m = some e)
      (opened : Gives (openRoot e.scope (ctx.symbols.scopeVariables e.scope)) (.empty, e.memory)
        () s₀)
      (leads : Leads (Analysis.calls ctx e.memory) e.code.steps.toArray (.path ctx 0 0) s₀ task s) :
      Reaches ctx m q (Analysis.calls ctx e.memory) e.code.steps.toArray task s
  | inner {e : Entry} {c : MethodCall} {depth : Nat} {code : Code} {m' : Memory} {s₀ s : State}
      {task : Task} (opens : q.opens? ctx m = some e) (makes : e.Makes ctx c)
      (follows : c.Follows depth code m')
      (opened : Gives (openRoot c.scope c.locals) (.empty, m'.push c.key.call) () s₀)
      (leads : Leads (Analysis.invoke depth) code.steps.toArray (.path c.ctx 0 0) s₀ task s) :
      Reaches ctx m q (Analysis.invoke depth) code.steps.toArray task s

section Sound

variable {ctx : Context} {m : Memory} {q : Query} {e : Entry} {K : Value → Prop} {T : Ty → Prop}

/-- Code is asked for in a scope of the table. -/
theorem Valid.scope (h : q.Valid ctx.symbols) (consistent : ctx.symbols.Consistent)
    (opens : q.opens? ctx m = some e) : e.scope.Valid ctx.symbols := by
  have ofMethod {id : Nat} (has : ctx.symbols.Has (.method id)) :
      Scope.Valid ctx.symbols ⟨some id, (ctx.symbols.method id).owner⟩ :=
    ⟨fun _ same => Option.some.inj same ▸ has, (consistent.method id).owner⟩
  cases q with
  | body id => cases opens
  | resolveMethod id | returnType id | typeAt id =>
    obtain ⟨code, -, rfl⟩ := Option.map_eq_some_iff.1 opens
    exact ofMethod h
  | resolveCode code scope => cases opens; exact h
  | typeOfExpression x scope =>
    obtain ⟨code, -, rfl⟩ := Option.map_eq_some_iff.1 opens
    exact h

theorem sound_after (closed : Value.Closed ctx.symbols K T) (sound : m.Sound ctx.symbols K)
    (inside : ∀ e, q.opens? ctx m = some e → ∀ owner, e.scope.owner = some owner →
      T (ctx.symbols.instanceType owner)) : (q.after ctx m).Sound ctx.symbols K := by
  cases opens : q.opens? ctx m with
  | none =>
    rcases after_of_none opens with ⟨id, same⟩ | ⟨d, same⟩
    · exact same ▸ (Analysis.body_yields id sound).2
    · exact same ▸ sound.add d
  | some e =>
    have left := (Analysis.resolve_yields closed (Analysis.calls_yields closed ctx e.memory) rfl
      e.code e.scope (Analysis.only_variablesIn closed (inside e opens))
      (Entry.sound opens sound)).2
    rcases after_of_entry opens with same | same
    · exact same ▸ left
    · exact same ▸ left.pop

/-- Well-formed results are kept of queries that ask for what the table has. -/
theorem sound_history (consistent : ctx.symbols.Consistent) {earlier : List Query} :
    ∀ {m : Memory}, m.Sound ctx.symbols (Value.WellFormed ctx.symbols) →
      (∀ q ∈ earlier, q.Valid ctx.symbols) →
        (history ctx m earlier).Sound ctx.symbols (Value.WellFormed ctx.symbols) := by
  induction earlier with
  | nil => exact fun sound _ => sound
  | cons q rest ih =>
    intro m sound valid
    obtain ⟨first, others⟩ := List.forall_mem_cons.1 valid
    refine ih (sound_after (Value.closed_wellFormed consistent) sound fun e opens owner mine => ?_)
      others
    exact Ty.wellFormed_instanceType ((first.scope consistent opens).owner owner mine)

end Sound

end Query

section Reaches

variable {t : SymbolTable} {ctx : Context} {m m' : Memory} {q : Query} {e : Query.Entry}
  {K : Value → Prop} {T : Ty → Prop} {c c' : MethodCall} {depth : Nat} {code : Code}
  {invoke : Invoke} {steps : Array Step} {task : Task} {s : State}

theorem MethodCall.Sound.locals (h : c.Sound t K) (closed : Value.Closed t K T) :
    ∀ p ∈ c.locals, K p.2 := by
  obtain rfl := h.symbols
  exact Analysis.only_entryVariables closed _ h.receiver h.arguments

/-- What is remembered when a body is entered. -/
theorem MethodCall.Sound.begun (h : c.Sound t K)
    (body : (Analysis.body c.ctx.symbols c.id).run c.memory = (some code, m')) :
    (m'.push c.key.call).Sound t K := by
  obtain rfl := h.symbols
  have begun := (Analysis.body_yields c.id h.memory).2
  rw [body] at begun
  exact begun.push _

theorem MethodCall.Enters.sound (h : c.Enters c') (closed : Value.Closed t K T)
    (sound : c.Sound t K) : c'.Sound t K := by
  obtain ⟨code, m', body, raised⟩ := h.raised
  exact raised.sound closed sound.symbols (sound.locals closed) (sound.begun body)

theorem Query.Entry.Makes.sound (h : e.Makes ctx c) (closed : Value.Closed ctx.symbols K T)
    (sound : e.memory.Sound ctx.symbols K)
    (inside : ∀ owner, e.scope.owner = some owner → T (ctx.symbols.instanceType owner)) :
    c.Sound ctx.symbols K := by
  obtain ⟨outer, -, raised, reached⟩ := h
  have sound := raised.sound closed rfl (Analysis.only_variablesIn closed inside) sound
  clear raised
  induction reached with
  | refl => exact sound
  | tail _ enters ih => exact enters.sound closed ih

/-- Wherever a query comes to, all values at hand are of any kind that the analysis keeps to, and
so they are when the task is done. -/
theorem Query.Reaches.sound (h : q.Reaches ctx m invoke steps task s)
    (closed : Value.Closed ctx.symbols K T) (sound : m.Sound ctx.symbols K)
    (inside : ∀ e, q.opens? ctx m = some e → ∀ owner, e.scope.owner = some owner →
      T (ctx.symbols.instanceType owner)) :
    State.Sound ctx.symbols K s ∧ task.Sound ctx.symbols K ∧ ∀ ends s',
      Walks invoke steps (fun _ _ _ _ => True) task s ends s' →
        State.Sound ctx.symbols K s' := by
  suffices here : State.Sound ctx.symbols K s ∧ task.Sound ctx.symbols K ∧
      Invoke.Sound ctx.symbols K invoke from
    ⟨here.1, here.2.1, fun _ _ walks => walks.sound closed here.2.2 here.1 here.2.1⟩
  cases h with
  | @outer e _ _ _ opens opened leads =>
    have calls := Analysis.calls_yields closed ctx e.memory
    have start := Analysis.openRoot_sound closed
      (Analysis.only_variablesIn closed (inside e opens)) (Entry.sound opens sound) opened
    obtain ⟨state, task⟩ := leads.sound closed calls start rfl
    exact ⟨state, task, calls⟩
  | @inner e c depth code m' _ _ _ opens makes follows opened leads =>
    have calls := Analysis.invoke_yields closed depth
    have made := makes.sound closed (Entry.sound opens sound) (inside e opens)
    have start := Analysis.openRoot_sound closed (made.locals closed) (made.begun follows.body)
      opened
    obtain ⟨state, task⟩ := leads.sound closed calls start made.symbols
    exact ⟨state, task, calls⟩

end Reaches

end PathTyping
