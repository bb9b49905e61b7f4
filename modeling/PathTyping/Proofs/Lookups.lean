import PathTyping.Proofs.WellFormed

/-!
# What an analysis looks up

A lookup consults declarations of the symbol table by their numbers: those of a class that is
searched for a name, and those of the members that are found.  Nothing else of the table decides
what the lookup gives, so a table that has the same under these numbers gives the same.  An analysis
takes the numbers from values, from scopes and from the table itself; where values are well formed
and scopes valid, the table has what they refer to.

1. What a lookup gives, and what a call comes down to, is decided by what is consulted
   (`SymbolTable.named_of_same`, `SymbolTable.findMember_of_same`, `Analysis.request_of_same`).
2. A consistent table has what is consulted for a member, in a class or for a well-formed type
   (`SymbolTable.Consistent.consults`, `Ty.WellFormed.consults`).
3. Paths stay in the scope in which they began (`Walks.rooted`, `Leads.rooted`).
4. `wellFormed_throughout`: all values of an analysis are well formed, and it looks up nothing that
   the table does not have.
-/

namespace PathTyping

open Walk

/-! ## What is consulted -/

namespace SymbolTable

/-- What is consulted for the name, the parameters and the value of a member. -/
def consults (t : SymbolTable) : Member → List Member
  | .method id => .method id :: ((t.method id).owner.map .class_).toList
  | .field owner index => [.class_ owner, .field owner index]
  | m => [m]

/-- What is consulted where a class is searched for a name. -/
def consultsIn (t : SymbolTable) (owner : Nat) (name : String) : List Member :=
  .class_ owner :: (t.class_ owner).methods.map .method ++
    (t.classMembers owner name).flatMap t.consults

mutual

/-- What is consulted for a member of a value of that type. -/
def consultsOf (t : SymbolTable) (name : String) : Ty → List Member
  | .instance_ c => t.consultsIn c.id name
  | .classObject c => t.consultsIn c.id name
  | .union arms => consultsOfAll t name arms
  | _ => []
termination_by structural type => type

def consultsOfAll (t : SymbolTable) (name : String) : List Ty → List Member
  | [] => []
  | type :: rest => consultsOf t name type ++ consultsOfAll t name rest
termination_by structural types => types

end

/-- What is consulted for a name that no local variable has. -/
def consultsNamed (t : SymbolTable) (owner : Option Nat) (name : String) : List Member :=
  owner.toList.flatMap (t.consultsIn · name) ++ (t.getMembers name).flatMap t.consults

/-- What is consulted where code starts in a scope, and for the name of its body. -/
def consultsScope (t : SymbolTable) (scope : Scope) : List Member :=
  scope.method.toList.flatMap (fun id => t.consults (.method id)) ++
    scope.owner.toList.map .class_

/-- What is consulted where a value is called. -/
def consultsCalled (t : SymbolTable) (callee : Value) : List Member :=
  match callee.members with
  | some (.class_ id :: _) => t.consultsIn id "init"
  | some members => members.flatMap t.consults
  | none => []

end SymbolTable

/-- What is consulted in a step of a path, before a body is entered. -/
def Walk.consults (t : SymbolTable) (steps : Array Step) (a : Arena) (id index : Nat) :
    List Member :=
  t.consultsScope (a.scope id) ++
    match steps[index]?.map Step.instr with
    | some (.load _ name) => t.consultsNamed (a.scope id).owner name
    | some (.member _ target name) =>
      (a.lookupSlot id target).toList.flatMap fun v => t.consultsOf name v.type
    | some (.index _ target key) =>
      (a.lookupSlot id target).toList.flatMap fun v =>
        ((a.lookupSlot id key).bind Value.string?).toList.flatMap (t.consultsOf · v.type)
    | some (.call _ callee _) => (a.lookupSlot id callee).toList.flatMap t.consultsCalled
    | _ => []

/-! ## What decides a lookup -/

namespace SymbolTable

/-- Both tables have the same under the number of the member. -/
def Same (t t' : SymbolTable) : Member → Prop
  | .method id => t'.methods[id]? = t.methods[id]?
  | .class_ id => t'.classes[id]? = t.classes[id]?
  | .global id => t'.globals[id]? = t.globals[id]?
  | .field owner index => t'.field owner index = t.field owner index
  | .builtin _ => True

variable {t t' : SymbolTable} {name : String} {owner : Nat} {members : List Member}

theorem method_of_same {id : Nat} (h : t.Same t' (.method id)) : t'.method id = t.method id :=
  congrArg (·.getD default) h

theorem class_of_same {id : Nat} (h : t.Same t' (.class_ id)) : t'.class_ id = t.class_ id :=
  congrArg (·.getD default) h

theorem global_of_same {id : Nat} (h : t.Same t' (.global id)) : t'.global id = t.global id :=
  congrArg (·.getD default) h

theorem qualifiedName_of_same {id : Nat} (h : ∀ m ∈ t.consults (.method id), t.Same t' m) :
    t'.qualifiedName id = t.qualifiedName id := by
  have same := method_of_same (h _ List.mem_cons_self)
  unfold qualifiedName
  rw [same]
  cases owned : (t.method id).owner with
  | none => rfl
  | some owner =>
    have inside : Member.class_ owner ∈ t.consults (.method id) := by simp [consults, owned]
    dsimp only
    rw [class_of_same (h _ inside)]

theorem memberName_of_same {m : Member} (h : ∀ r ∈ t.consults m, t.Same t' r) :
    t'.memberName m = t.memberName m := by
  cases m with
  | method id => exact qualifiedName_of_same h
  | class_ id => exact congrArg ClassInfo.name (class_of_same (h _ List.mem_cons_self))
  | global id => exact congrArg GlobalInfo.name (global_of_same (h _ List.mem_cons_self))
  | field owner index =>
    have field : t'.field owner index = t.field owner index := h (.field owner index) (by
      simp [consults])
    simp only [memberName, class_of_same (h _ List.mem_cons_self), field]
  | builtin b => rfl

theorem params?_of_same {m : Member} (h : ∀ r ∈ t.consults m, t.Same t' r) :
    t'.params? m = t.params? m := by
  cases m with
  | method id =>
    exact congrArg (fun x : Method => some x.params) (method_of_same (h _ List.mem_cons_self))
  | class_ _ | global _ | field _ _ | builtin _ => rfl

theorem memberValue_of_same (receiver : Option Value) {first : Member}
    (h : ∀ r ∈ t.consults first, t.Same t' r) :
    t'.memberValue receiver first members = t.memberValue receiver first members := by
  have ofMembers (target : Option Value) (ms : List Member)
      (named : ∀ id, Member.class_ id ∈ ms.head? → t.Same t' (.class_ id)) :
      Value.ofMembers t' target ms = Value.ofMembers t target ms := by
    have type : Value.typeOfMembers t' ms = Value.typeOfMembers t ms := by
      unfold Value.typeOfMembers
      split
      · rfl
      · rfl
      · rw [classType, classType, classRef, classRef, class_of_same (named _ rfl)]
      · rfl
    rw [Value.ofMembers, Value.ofMembers, type]
  cases first with
  | field owner index =>
    have field : t'.field owner index = t.field owner index := h (.field owner index) (by
      simp [consults])
    simp only [memberValue, field]
  | global id => simp only [memberValue, global_of_same (h _ List.mem_cons_self)]
  | class_ id =>
    refine ofMembers none [.class_ id] fun other named => ?_
    cases named
    exact h _ List.mem_cons_self
  | method id | builtin b =>
    refine ofMembers receiver (members.filter Member.isCallable) fun other named => ?_
    have callable := (List.mem_filter.1 (List.mem_of_mem_head? named)).2
    cases callable

theorem ofMembers?_of_same (receiver : Option Value)
    (h : ∀ m ∈ members, ∀ r ∈ t.consults m, t.Same t' r) :
    t'.ofMembers? receiver members = t.ofMembers? receiver members := by
  cases members with
  | nil => rfl
  | cons first rest =>
    exact congrArg some (memberValue_of_same receiver (h first List.mem_cons_self))

theorem classMembers_of_same (h : ∀ r ∈ t.consultsIn owner name, t.Same t' r) :
    t'.classMembers owner name = t.classMembers owner name := by
  have searched : t'.class_ owner = t.class_ owner :=
    class_of_same (h _ (List.mem_append_left _ List.mem_cons_self))
  have named (id : Nat) (hid : id ∈ (t.class_ owner).methods) : t'.method id = t.method id :=
    method_of_same (h _ (List.mem_append_left _
      (List.mem_cons_of_mem _ (List.mem_map_of_mem hid))))
  rw [classMembers, classMembers, fieldMembers, fieldMembers, methodMembers, methodMembers,
    searched]
  refine congrArg (_ ++ ·) (congrArg (List.map _) (List.filter_congr fun id hid => ?_))
  rw [named id hid]

theorem ofMembers?_classMembers_of_same (receiver : Option Value)
    (h : ∀ r ∈ t.consultsIn owner name, t.Same t' r) :
    t'.ofMembers? receiver (t'.classMembers owner name) =
      t.ofMembers? receiver (t.classMembers owner name) := by
  rw [classMembers_of_same h]
  exact ofMembers?_of_same receiver fun m hm r hr =>
    h r (List.mem_append_right _ (List.mem_flatMap.2 ⟨m, hm, hr⟩))

/-- What is consulted decides what a name stands for. -/
theorem named_of_same (outer : t'.members = t.members) {owner : Option Nat}
    (self? : Option Value) (h : ∀ r ∈ t.consultsNamed owner name, t.Same t' r) :
    t'.named owner self? name = t.named owner self? name := by
  have own : (owner.bind fun id => t'.ofMembers? self? (t'.classMembers id name)) =
      owner.bind fun id => t.ofMembers? self? (t.classMembers id name) := by
    cases owner with
    | none => rfl
    | some id =>
      refine ofMembers?_classMembers_of_same self? fun r hr => h r (List.mem_append_left _ ?_)
      exact List.mem_flatMap.2 ⟨id, List.mem_singleton_self id, hr⟩
  have module : t'.ofMembers? none (t'.getMembers name) =
      t.ofMembers? none (t.getMembers name) := by
    rw [show t'.getMembers name = t.getMembers name by rw [getMembers, getMembers, outer]]
    exact ofMembers?_of_same none fun m hm r hr =>
      h r (List.mem_append_right _ (List.mem_flatMap.2 ⟨m, hm, hr⟩))
  unfold named
  dsimp only
  rw [own, module]
  rfl

mutual

/-- What is consulted decides what a member of a value is. -/
theorem findMember_of_same (target : Value) : ∀ type : Ty,
    (∀ r ∈ t.consultsOf name type, t.Same t' r) →
      t'.findMember name target type = t.findMember name target type
  | .instance_ _, h => ofMembers?_classMembers_of_same _ h
  | .classObject _, h => ofMembers?_classMembers_of_same _ h
  | .union arms, h => by
    rw [findMember, findMember, findMembers_of_same arms h]
  | .any, _ | .nil, _ | .boolean, _ | .number, _ | .string, _ | .function, _ => rfl

theorem findMembers_of_same : ∀ types : List Ty,
    (∀ r ∈ t.consultsOfAll name types, t.Same t' r) →
      t'.findMembers name types = t.findMembers name types
  | [], _ => rfl
  | type :: rest, h => by
    rw [findMembers, findMembers,
      findMember_of_same (.ofType type) type fun r hr => h r (List.mem_append_left _ hr),
      findMembers_of_same rest fun r hr => h r (List.mem_append_right _ hr)]

end

theorem member_of_same {target : Value} (h : ∀ r ∈ t.consultsOf name target.type, t.Same t' r) :
    t'.member target name = t.member target name := by
  rw [member, member, findMember_of_same target target.type h]

/-- What is consulted decides what an element of a value is. -/
theorem element_of_same {target key : Value}
    (h : ∀ name, key.string? = some name → ∀ r ∈ t.consultsOf name target.type, t.Same t' r) :
    t'.element target key = t.element target key := by
  have entry : t'.entry target key = t.entry target key := by
    unfold SymbolTable.entry
    split
    · next name known => exact member_of_same (h name known)
    · rfl
  unfold element
  rw [entry]

theorem choice_of_same (arguments : List Ty)
    (h : ∀ m ∈ members, ∀ r ∈ t.consults m, t.Same t' r) :
    Choice.of? t' members arguments = Choice.of? t members arguments := by
  have callable : Choice.callable t' members = Choice.callable t members :=
    List.filterMap_congr fun m hm => by rw [params?_of_same (h m hm)]
  rw [Choice.of?, Choice.of?, callable]

end SymbolTable

namespace Choice

variable {t : SymbolTable} {members : List Member} {arguments : List Ty}

theorem mem_of_better {best : Option (Member × Nat)} {m : Member} {score : Option Nat}
    {p : Member × Nat} (h : better best m score = some p) :
    p.1 = m ∨ ∃ q, best = some q ∧ p.1 = q.1 := by
  unfold better at h
  split at h
  · exact .inr ⟨p, h, rfl⟩
  · cases h; exact .inl rfl
  · next b k n =>
    split at h
    · cases h; exact .inl rfl
    · cases h; exact .inr ⟨_, rfl, rfl⟩

theorem mem_of_foldl_better {candidates : List (Member × List Param)}
    {best : Option (Member × Nat)} {p : Member × Nat}
    (h : candidates.foldl (fun best (m, params) => better best m (score? params arguments)) best =
      some p) :
    p.1 ∈ candidates.map Prod.fst ∨ ∃ q, best = some q ∧ p.1 = q.1 := by
  induction candidates generalizing best with
  | nil => exact .inr ⟨p, h, rfl⟩
  | cons first rest ih =>
    rcases ih h with later | ⟨q, chosen, same⟩
    · exact .inl (List.mem_cons_of_mem _ later)
    · rcases mem_of_better (m := first.1) chosen with mine | ⟨r, before, same'⟩
      · exact .inl (same ▸ mine ▸ List.mem_cons_self)
      · exact .inr ⟨r, before, same.trans same'⟩

/-- The candidate that is chosen is one of the members. -/
theorem mem_of_of? {choice : Choice} (h : Choice.of? t members arguments = some choice) :
    choice.member ∈ members := by
  have candidate {m : Member} (hm : m ∈ (callable t members).map Prod.fst) : m ∈ members := by
    obtain ⟨p, hp, rfl⟩ := List.mem_map.1 hm
    obtain ⟨m, inside, found⟩ := List.mem_filterMap.1 hp
    obtain ⟨_, -, rfl⟩ := Option.map_eq_some_iff.1 found
    exact inside
  unfold Choice.of? at h
  split at h
  · cases h
  · next fallback params rest candidates =>
    split at h
    · next m n found =>
      cases h
      obtain inside | ⟨q, none_, -⟩ := mem_of_foldl_better (p := (m, n)) found
      · exact candidate (candidates ▸ inside)
      · cases none_
    · cases h
      exact candidate (candidates ▸ List.mem_cons_self)

end Choice

namespace Analysis

variable {ctx : Context} {t' : SymbolTable}

theorem constructionFault_of_same {t : SymbolTable} {id : Nat} (arguments : List Ty)
    (h : ∀ r ∈ t.consultsIn id "init", t.Same t' r) :
    constructionFault t' id arguments = constructionFault t id arguments := by
  have consulted (m : Member) (hm : m ∈ (t.classMembers id "init").filter Member.isMethod) :
      ∀ r ∈ t.consults m, t.Same t' r := fun r hr =>
    h r (List.mem_append_right _ (List.mem_flatMap.2 ⟨m, (List.mem_filter.1 hm).1, hr⟩))
  unfold constructionFault
  rw [SymbolTable.classMembers_of_same h,
    SymbolTable.class_of_same (h _ (List.mem_append_left _ List.mem_cons_self))]
  dsimp only
  split
  · rfl
  · rw [SymbolTable.choice_of_same arguments consulted]
    split
    · next member found =>
      rw [SymbolTable.memberName_of_same (consulted member (Choice.mem_of_of? found))]
    · rfl

/-- What is consulted decides what a call comes down to. -/
theorem request_of_same {callee : Value} (arguments : List Value) (span : Span)
    (h : ∀ r ∈ ctx.symbols.consultsCalled callee, ctx.symbols.Same t' r) :
    request { ctx with symbols := t' } callee arguments span =
      request ctx callee arguments span := by
  unfold SymbolTable.consultsCalled at h
  unfold request
  split
  · next id rest named =>
    rw [named] at h
    have searched := SymbolTable.class_of_same (h _ (List.mem_append_left _ List.mem_cons_self))
    simp only [construct, constructionFault_of_same _ h, SymbolTable.instanceType,
      SymbolTable.classRef, searched]
  · next members other named =>
    have consulted : ∀ m ∈ members, ∀ r ∈ ctx.symbols.consults m, ctx.symbols.Same t' r := by
      rw [named] at h
      split at h
      · next id rest same => exact absurd (Option.some.inj same) (other id rest)
      · next same =>
        cases same
        exact fun m hm r hr => h r (List.mem_flatMap.2 ⟨m, hm, hr⟩)
      · next same => cases same
    unfold requestMembers
    dsimp only
    rw [SymbolTable.choice_of_same _ consulted]
    split
    · rfl
    · next choice found =>
      rw [SymbolTable.memberName_of_same (consulted _ (Choice.mem_of_of? found))]
      rfl
  · rfl

end Analysis

/-! ## What a table has -/

namespace SymbolTable.Consistent

variable {t : SymbolTable} {name : String} {owner : Nat}

theorem consults (h : t.Consistent) {m : Member} (has : t.Has m) : ∀ r ∈ t.consults m, t.Has r := by
  intro r hr
  cases m with
  | method id =>
    rcases List.mem_cons.1 hr with rfl | hr
    · exact has
    · obtain ⟨owner, mine, rfl⟩ := Option.map_eq_some_iff.1 (Option.mem_toList.1 hr)
      exact (h.method id).owner owner mine
  | field owner index =>
    rcases List.mem_cons.1 hr with rfl | hr
    · obtain ⟨c, found, -⟩ := has
      exact (List.getElem?_eq_some_iff.1 found).1
    · exact List.mem_singleton.1 hr ▸ has
  | class_ _ | global _ | builtin _ => exact List.mem_singleton.1 hr ▸ has

theorem consultsAll (h : t.Consistent) {members : List Member} (has : ∀ m ∈ members, t.Has m) :
    ∀ r ∈ members.flatMap t.consults, t.Has r := by
  intro r hr
  obtain ⟨m, hm, hr⟩ := List.mem_flatMap.1 hr
  exact h.consults (has m hm) r hr

theorem consultsIn (h : t.Consistent) (has : t.Has (.class_ owner)) :
    ∀ r ∈ t.consultsIn owner name, t.Has r := by
  intro r hr
  rcases List.mem_append.1 hr with searched | found
  · rcases List.mem_cons.1 searched with rfl | method
    · exact has
    · obtain ⟨id, hid, rfl⟩ := List.mem_map.1 method
      exact (h.class_ owner).methods id hid
  · exact h.consultsAll (fun m hm => h.classMembers hm) r found

theorem consultsNamed (h : t.Consistent) {owner : Option Nat}
    (has : ∀ id, owner = some id → t.Has (.class_ id)) :
    ∀ r ∈ t.consultsNamed owner name, t.Has r := by
  intro r hr
  rcases List.mem_append.1 hr with own | outer
  · obtain ⟨id, mine, hr⟩ := List.mem_flatMap.1 own
    exact h.consultsIn (has id (Option.mem_toList.1 mine)) r hr
  · exact h.consultsAll (fun m hm => h.getMembers hm) r outer

theorem consultsScope (h : t.Consistent) {scope : Scope} (valid : scope.Valid t) :
    ∀ r ∈ t.consultsScope scope, t.Has r := by
  intro r hr
  rcases List.mem_append.1 hr with method | owner
  · obtain ⟨id, mine, hr⟩ := List.mem_flatMap.1 method
    exact h.consults (valid.method id (Option.mem_toList.1 mine)) r hr
  · obtain ⟨id, mine, rfl⟩ := List.mem_map.1 owner
    exact valid.owner id (Option.mem_toList.1 mine)

mutual

theorem consultsOf (h : t.Consistent) : ∀ type : Ty, type.WellFormed t →
    ∀ r ∈ t.consultsOf name type, t.Has r
  | .instance_ c, typed => h.consultsIn (typed.classes _ List.mem_cons_self c rfl).has
  | .classObject c, typed => h.consultsIn (typed.classes _ List.mem_cons_self c rfl).has
  | .union arms, typed => h.consultsOfAll arms fun _ ha => typed.arm ha
  | .any, _ | .nil, _ | .boolean, _ | .number, _ | .string, _ | .function, _ => nofun

theorem consultsOfAll (h : t.Consistent) : ∀ types : List Ty, (∀ type ∈ types, type.WellFormed t) →
    ∀ r ∈ t.consultsOfAll name types, t.Has r
  | [], _ => nofun
  | type :: rest, typed => fun r hr => by
    obtain ⟨first, others⟩ := List.forall_mem_cons.1 typed
    rcases List.mem_append.1 hr with here | later
    · exact h.consultsOf type first r here
    · exact h.consultsOfAll rest others r later

end

theorem consultsCalled (h : t.Consistent) {callee : Value} (typed : callee.WellFormed t) :
    ∀ r ∈ t.consultsCalled callee, t.Has r := by
  unfold SymbolTable.consultsCalled
  split
  · next named => exact h.consultsIn ((typed.members named).has _ List.mem_cons_self)
  · next named => exact h.consultsAll (typed.members named).has
  · exact nofun

end SymbolTable.Consistent

/-! ## The scope of a path -/

/-- All roots of the arena are in the scope. -/
def Arena.Rooted (scope : Scope) (a : Arena) : Prop :=
  ∀ id b other, a.branch? id = some b → b.parent = .root other → other = scope

section Rooted

variable {scope : Scope} {a a' : Arena} {id index : Nat} {invoke : Invoke} {steps : Array Step}
  {ctx : Context} {s s' : State} {next : Next} {task task' : Task} {ends : List Nat}

theorem Arena.Rooted.modify (h : a.Rooted scope) {f : Branch → Branch}
    (keeps : ∀ b, (f b).parent = b.parent) : (a.modify id f).Rooted scope := by
  intro k b other found root
  obtain ⟨b', found', rfl | ⟨-, rfl⟩⟩ := Arena.branch?_of_modify found
  · exact h k _ other found' root
  · exact h k b' other found' ((keeps b').symm.trans root)

theorem Arena.Rooted.child (h : a.Rooted scope) (id : Nat) : (a.child id).Rooted scope := by
  intro k b other found root
  rcases Arena.branch?_of_child found with old | ⟨-, rfl⟩
  · exact h k b other old root
  · cases root

theorem getD_head?_eq {scopes : List Scope} (h : ∀ s ∈ scopes, s = scope) :
    scopes.head?.getD .module = scope ∨ scopes.head?.getD .module = .module := by
  cases scopes with
  | nil => exact .inr rfl
  | cons s _ => exact .inl (h s List.mem_cons_self)

/-- What is found at the root of a branch is the scope, or that of the module for no branch. -/
theorem Arena.Rooted.scope_eq (h : a.Rooted scope) (id : Nat) :
    a.scope id = scope ∨ a.scope id = .module := by
  refine getD_head?_eq fun s hs => ?_
  obtain ⟨b, inside, root⟩ := List.mem_filterMap.1 hs
  obtain ⟨k, found⟩ := Arena.mem_lineage inside
  cases parent : b.parent with
  | root other =>
    rw [parent] at root
    exact (Option.some.inj root).symm.trans (h k b other found parent)
  | branch p =>
    rw [parent] at root
    cases root

theorem admits_rooted (invoke : Invoke) (id : Nat) (scope : Scope) :
    Admits invoke id fun s s' => s.1.Rooted scope → s'.1.Rooted scope where
  refl _ h := h
  trans h h' rooted := h' (h rooted)
  report _ _ _ h := h
  place _ _ _ h := h
  bind _ _ _ binds h := h.modify binds.parent
  invoke _ _ _ _ _ _ _ h := h

theorem Walk.Goes.rooted {options : AnalysisOptions} (goes : Goes options id a a' next)
    (h : a.Rooted scope) : a'.Rooted scope := by
  cases next with
  | next _ | stop _ _ => exact goes ▸ h
  | spread _ _ _ => exact goes.1 ▸ h
  | split _ =>
    obtain ⟨-, made⟩ := goes
    split at made
    · exact made.1 ▸ (h.child id).child id
    · exact made.1 ▸ h.child id

theorem step_rooted (done : Gives (step invoke ctx steps id index) s next s')
    (h : s.1.Rooted scope) : s'.1.Rooted scope := by
  have admits := admits_rooted invoke id scope
  unfold step at done
  split at done
  · exact admits.seq admits.latest (fun _ => admits.returns _) done h
  · obtain ⟨first, s₁, arrived, done⟩ := gives_bind_iff.1 done
    have visited : s₁.1.Rooted scope := by
      rw [show s₁.1 = s.1.modify id (·.visit index) from congrArg (·.1.2) arrived.symm]
      exact h.modify (f := (·.visit index)) fun _ => rfl
    split at done
    · obtain ⟨s₂, kept, -, goes⟩ := admits.execute ctx index _ done
      exact goes.rooted (kept visited)
    · exact admits.seq admits.looks (fun _ => admits.seq (admits.reports _ _) fun _ =>
        admits.returns _) done visited

theorem finish_rooted {termination : Termination} {v : Value} {u : Unit}
    (done : Gives (finish id termination v) s u s') (h : s.1.Rooted scope) : s'.1.Rooted scope := by
  obtain ⟨w, s₁, made, done⟩ := gives_bind_iff.1 done
  obtain rfl := gives_modify_iff.1 done
  exact ((admits_rooted (fun _ _ _ _ _ => pure []) id scope).fresh v made h).modify
    (f := (·.finish termination w)) fun _ => rfl

theorem each_rooted {slot : Slot} {v : Value} {u : Unit}
    (bound : Gives (bindSlot s.1.size slot v) (s.1.child id, s.2) u s') (h : s.1.Rooted scope) :
    s'.1.Rooted scope :=
  (admits_rooted (fun _ _ _ _ _ => pure []) s.1.size scope).bindSlot slot v bound (h.child id)

theorem Walks.rooted {P : Context → Nat → Nat → State → Prop}
    (walks : Walks invoke steps P task s ends s') (h : s.1.Rooted scope) : s'.1.Rooted scope := by
  induction walks with
  | onward _ done _ _ ih => exact ih (step_rooted done h)
  | stop _ done finished => exact finish_rooted finished (step_rooted done h)
  | allNil => exact h
  | allCons _ _ first rest => exact rest (first h)
  | eachNil => exact h
  | eachCons bound _ _ first rest => exact rest (first (each_rooted bound h))

theorem Leads.rooted (leads : Leads invoke steps task s task' s') (h : s.1.Rooted scope) :
    s'.1.Rooted scope := by
  induction leads with
  | here => exact h
  | onward done _ _ ih => exact ih (step_rooted done h)
  | first _ ih => exact ih h
  | later before _ ih => exact ih (before.rooted h)
  | eachFirst bound _ ih => exact ih (each_rooted bound h)
  | eachLater bound before _ ih => exact ih (before.rooted (each_rooted bound h))

theorem openRoot_rooted {locals : List (String × Value)} {m : Memory}
    (opened : Gives (openRoot scope locals) (.empty, m) () s) : s.1.Rooted scope := by
  obtain ⟨_, s₁, planted, bound⟩ := gives_bind_iff.1 opened
  obtain rfl := gives_modify_iff.1 planted
  refine (admits_rooted (fun _ _ _ _ _ => pure []) 0 scope).bindAll locals bound ?_
  intro k b other found root
  obtain rfl : k = 0 := Nat.lt_one_iff.1 (Arena.lt_size_of_branch? found)
  cases found
  exact (Parent.root.inj root).symm

end Rooted

/-! ## Throughout an analysis -/

/-- Only a method that the callee names is entered. -/
theorem Analysis.mem_of_request {ctx : Context} {callee : Value} {arguments : List Value}
    {span : Span} {m m' : Memory} {id : Nat} {receiver : Option Value}
    (h : (request ctx callee arguments span).run m = (.enter id receiver, m')) :
    ∃ members, callee.members = some members ∧ .method id ∈ members := by
  have answered {α : Type} {x : Analysis α} {f : α → List Value} {m : Memory} :
      ((x >>= fun v => pure (Request.answered (f v)) : Analysis Request).run m) ≠
        (.enter id receiver, m') := fun same => nomatch congrArg Prod.fst same
  unfold request at h
  split at h
  · exact absurd h answered
  · next members _ named =>
    refine ⟨members, named, ?_⟩
    unfold requestMembers at h
    dsimp only at h
    split at h
    · cases congrArg Prod.fst h
    · next choice chosen =>
      rcases choice with ⟨member, matched⟩
      cases member with
      | method other =>
        have same : Request.enter other _ = .enter id receiver := congrArg Prod.fst h
        cases same
        exact Choice.mem_of_of? chosen
      | builtin _ | class_ _ | global _ | field _ _ => exact absurd h answered
  · split at h
    · cases congrArg Prod.fst h
    · cases congrArg Prod.fst h
    · cases congrArg Prod.fst h

section Throughout

variable {t : SymbolTable} {ctx : Context} {m : Memory} {q : Query} {e : Query.Entry}
  {c c' : MethodCall} {invoke : Invoke} {steps : Array Step} {task : Task} {s : State}

theorem Issues.has {id index : Nat} (h : Issues steps ctx id index s c) (consistent : t.Consistent)
    (sound : State.Sound t (Value.WellFormed t) s) : t.Has (.method c.id) := by
  have closed := Value.closed_wellFormed consistent
  obtain ⟨_, callee, _, v, s₀, s₁, s₂, -, arrived, read, -, -, requested⟩ := h
  obtain ⟨-, sound⟩ := arrive_yields index sound arrived
  obtain ⟨typed, -⟩ := operand_yields closed callee sound read
  obtain ⟨members, named, inside⟩ := Analysis.mem_of_request requested
  exact (typed.members named).has _ inside

theorem Raises.has {code : Code} {scope : Scope} {locals : List (String × Value)}
    (h : Raises ctx code scope locals m c) (consistent : t.Consistent) (symbols : ctx.symbols = t)
    (only : ∀ p ∈ locals, p.2.WellFormed t) (sound : m.Sound t (Value.WellFormed t)) :
    t.Has (.method c.id) := by
  have closed := Value.closed_wellFormed consistent
  obtain ⟨s, ctx', id, index, s', opened, leads, issues⟩ := h
  have start := Analysis.openRoot_sound closed only sound opened
  exact issues.has consistent
    (leads.sound closed (Analysis.invoke_yields closed c.depth) start symbols).1

/-- Every call in a query is one of a method that the table has. -/
theorem Query.Entry.Makes.has (h : e.Makes ctx c) (consistent : ctx.symbols.Consistent)
    (sound : e.memory.Sound ctx.symbols (Value.WellFormed ctx.symbols))
    (valid : e.scope.Valid ctx.symbols) : ctx.symbols.Has (.method c.id) := by
  have closed := Value.closed_wellFormed consistent
  have inside : ∀ p ∈ ctx.symbols.scopeVariables e.scope, p.2.WellFormed ctx.symbols :=
    Analysis.only_variablesIn closed fun owner mine =>
      Ty.wellFormed_instanceType (valid.owner owner mine)
  obtain ⟨outer, depth, raised, reached⟩ := h
  rcases reached.cases_tail with rfl | ⟨last, before, enters⟩
  · exact raised.has consistent rfl inside sound
  · have made : last.Sound ctx.symbols (Value.WellFormed ctx.symbols) :=
      Query.Entry.Makes.sound ⟨outer, depth, raised, before⟩ closed sound fun owner mine =>
        Ty.wellFormed_instanceType (valid.owner owner mine)
    obtain ⟨code, m', body, raised⟩ := enters.raised
    exact raised.has consistent made.symbols (made.locals closed) (made.begun body)

/-- A step of a path consults what the table has. -/
theorem Walk.has_consults {a : Arena} {scope : Scope} {id index : Nat} (consistent : t.Consistent)
    (only : a.Only (Value.WellFormed t)) (rooted : a.Rooted scope) (valid : scope.Valid t) :
    ∀ r ∈ Walk.consults t steps a id index, t.Has r := by
  have mine : (a.scope id).Valid t := by
    rcases rooted.scope_eq id with same | same
    · exact same ▸ valid
    · exact same ▸ ⟨nofun, nofun⟩
  intro r hr
  unfold Walk.consults at hr
  rcases List.mem_append.1 hr with named | hr
  · exact consistent.consultsScope mine r named
  · split at hr
    · exact consistent.consultsNamed mine.owner r hr
    · obtain ⟨v, found, hr⟩ := List.mem_flatMap.1 hr
      have typed := only.lookupSlot (Option.mem_toList.1 found)
      exact consistent.consultsOf v.type typed.type r hr
    · obtain ⟨v, found, hr⟩ := List.mem_flatMap.1 hr
      have typed := only.lookupSlot (Option.mem_toList.1 found)
      obtain ⟨name, -, hr⟩ := List.mem_flatMap.1 hr
      exact consistent.consultsOf v.type typed.type r hr
    · obtain ⟨v, found, hr⟩ := List.mem_flatMap.1 hr
      have typed := only.lookupSlot (Option.mem_toList.1 found)
      exact consistent.consultsCalled typed r hr
    · cases hr

theorem Query.Reaches.rooted (h : q.Reaches ctx m invoke steps task s)
    (consistent : ctx.symbols.Consistent)
    (sound : m.Sound ctx.symbols (Value.WellFormed ctx.symbols)) (valid : q.Valid ctx.symbols) :
    ∃ scope : Scope, scope.Valid ctx.symbols ∧ s.1.Rooted scope := by
  cases h with
  | outer opens opened leads =>
    exact ⟨_, valid.scope consistent opens, leads.rooted (openRoot_rooted opened)⟩
  | @inner _ c _ _ _ _ _ _ opens makes follows opened leads =>
    have entry := Query.Entry.sound opens sound
    have inside := valid.scope consistent opens
    have has := makes.has consistent entry inside
    have made := makes.sound (Value.closed_wellFormed consistent) entry fun owner mine =>
      Ty.wellFormed_instanceType (inside.owner owner mine)
    refine ⟨c.scope, ⟨fun id same => Option.some.inj same ▸ has, fun owner mine => ?_⟩,
      leads.rooted (openRoot_rooted opened)⟩
    exact (consistent.method c.id).owner owner (made.symbols ▸ mine)

end Throughout

/-- All values that are bound, and all results that are kept, are of the kind `K`. -/
structure Walk.State.Only (K : Value → Prop) (s : State) : Prop where
  bound : s.1.Only K
  kept : ∀ key values, s.2.find? key = some values → ∀ v ∈ values, K v

theorem Walk.State.Sound.only {t : SymbolTable} {K : Value → Prop} {s : State}
    (h : State.Sound t K s) : State.Only K s :=
  ⟨h.arena, fun key values found v hv => (h.memory.kept key values found v hv).1⟩

/-- Whatever is asked of the analysis of a module, one query behind the other, in scopes of the
module and with any code: all values that are bound, waited with, handed to calls and back, or kept
are well formed, wherever the walks of the query and of the calls that it follows come to; and what
is consulted there is in the table. -/
theorem wellFormed_throughout {options : AnalysisOptions} {text : String} {c : Compilation}
    (built : Compilation.ofText options text = .ok c) {earlier : List Query} {q : Query}
    (valid : ∀ p ∈ q :: earlier, p.Valid c.symbols) :
    let t := c.symbols
    let ctx := Context.outer t options
    let m := Query.history ctx .empty earlier
    (∀ key values, m.find? key = some values → ∀ v ∈ values, v.WellFormed t) ∧
      (∀ e, q.opens? ctx m = some e →
        let r := (e.resolution ctx).1
        r.arena.Only (Value.WellFormed t) ∧ (∀ v ∈ r.returnValues, v.WellFormed t) ∧
          (∀ ref ∈ t.consultsScope e.scope, t.Has ref) ∧
          ∀ call, e.Makes ctx call →
            (∀ v ∈ call.receiver.toList ++ call.arguments ++ call.results, v.WellFormed t) ∧
              ∀ ref ∈ t.consults (.method call.id), t.Has ref) ∧
      ∀ invoke steps task s, q.Reaches ctx m invoke steps task s →
        State.Only (Value.WellFormed t) s ∧ task.Sound t (Value.WellFormed t) ∧
          (∀ ends s', Walks invoke steps (fun _ _ _ _ => True) task s ends s' →
            State.Only (Value.WellFormed t) s') ∧
          ∀ ctx' id index, task = .path ctx' id index →
            ∀ ref ∈ Walk.consults t steps s.1 id index, t.Has ref := by
  intro t ctx m
  obtain ⟨asked, before⟩ := List.forall_mem_cons.1 valid
  have consistent : t.Consistent := by
    obtain ⟨module, read, -, rfl⟩ := Compilation.exists_module built
    exact SymbolTable.consistent_ofModule module
  have closed := Value.closed_wellFormed consistent
  have sound : m.Sound ctx.symbols (Value.WellFormed ctx.symbols) :=
    Query.sound_history consistent (Memory.sound_empty _ _) before
  have inside (e : Query.Entry) (opens : q.opens? ctx m = some e) (owner : Nat)
      (mine : e.scope.owner = some owner) : (t.instanceType owner).WellFormed t :=
    Ty.wellFormed_instanceType ((asked.scope consistent opens).owner owner mine)
  refine ⟨fun key values found v hv => (sound.kept key values found v hv).1, fun e opens => ?_,
    fun invoke steps task s reaches => ?_⟩
  · have entry := Query.Entry.sound opens sound
    have scope := asked.scope consistent opens
    have arena := (Analysis.resolve_yields closed (Analysis.calls_yields closed ctx e.memory)
      (show ctx.symbols = t from rfl) e.code e.scope
      (Analysis.only_variablesIn closed (inside e opens)) entry).1
    refine ⟨arena, Analysis.only_returnValues arena, consistent.consultsScope scope,
      fun call makes => ⟨fun v hv => ?_, ?_⟩⟩
    · have made := makes.sound closed entry (inside e opens)
      rcases List.mem_append.1 hv with given | handed
      · rcases List.mem_append.1 given with receiver | argument
        · exact made.receiver v (Option.mem_toList.1 receiver)
        · exact made.arguments v argument
      · exact ((Analysis.invoke_yields closed call.depth call.ctx made.symbols call.id
          call.receiver call.arguments call.span made.receiver made.arguments made.memory).1
            v handed).1
    · exact consistent.consults (makes.has consistent entry scope)
  · obtain ⟨state, waits, ended⟩ := reaches.sound closed sound inside
    obtain ⟨scope, has, rooted⟩ := reaches.rooted consistent sound asked
    refine ⟨state.only, waits, fun ends s' walks => (ended ends s' walks).only,
      fun ctx' id index _ => ?_⟩
    exact Walk.has_consults consistent state.arena rooted has

/-- The method of a class is loaded from the class and handed to a call, when results of the same
call with a method of an instance are kept. -/
theorem wellFormed_throughout_handed :
    let t := handed.symbols
    let ctx := Context.outer t .standard
    let m := Query.history ctx .empty [.returnType 2]
    Compilation.ofText .standard handedText = .ok handed ∧
      (Query.returnType 2).Valid t ∧ (Query.resolveMethod 3).Valid t ∧
      (∃ key values, m.find? key = some values ∧ values ≠ [] ∧ ∀ v ∈ values, v.WellFormed t) ∧
      ∃ e, (Query.resolveMethod 3).opens? ctx m = some e ∧
        ∃ id b v, (e.resolution ctx).1.arena.branch? id = some b ∧ v ∈ b.values ∧
          v.members = some [.method 0] ∧ v.WellFormed t := by
  intro t ctx m
  obtain ⟨read, methods, kept, loaded⟩ :
      (Compilation.ofText .standard handedText).toOption.isSome = true ∧ t.methods.length = 4 ∧
        (m.results.head?.bind fun p => m.find? p.1).any (fun values => !values.isEmpty) = true ∧
        ((Query.resolveMethod 3).opens? ctx m).any (fun e =>
          ((e.resolution ctx).1.arena.branch? 0).any fun b =>
            b.values.any fun v => v.members == some [.method 0]) = true := by
    have row : TokenRow.ofText handedText = _ :=
      TokenRow.ofText_of_eq_append (by unfold handedText; with_reducible rfl)
    have table : t = handed.symbols := rfl
    have outer : ctx = .outer t .standard := rfl
    have asked : m = Query.history ctx .empty [.returnType 2] := rfl
    rw [asked, outer, table, handed, Compilation.ofText, Module.ofText, row]
    decide +kernel
  have built : Compilation.ofText .standard handedText = .ok handed := eq_ok_of_isSome read
  have first : (Query.returnType 2).Valid t := show 2 < t.methods.length by rw [methods]; decide
  have second : (Query.resolveMethod 3).Valid t := show 3 < t.methods.length by
    rw [methods]; decide
  obtain ⟨results, resolutions, -⟩ :=
    @wellFormed_throughout _ _ _ built [.returnType 2] (.resolveMethod 3)
      (List.forall_mem_cons.2 ⟨second, List.forall_mem_singleton.2 first⟩)
  refine ⟨built, first, second, ?_, ?_⟩
  · obtain ⟨values, head, some⟩ := (Option.any_eq_true _ _).1 kept
    obtain ⟨p, -, found⟩ := Option.bind_eq_some_iff.1 head
    refine ⟨p.1, values, found, ?_, results p.1 values found⟩
    rintro rfl
    simp at some
  · obtain ⟨e, opens, found⟩ := (Option.any_eq_true _ _).1 loaded
    obtain ⟨b, at_, found⟩ := (Option.any_eq_true _ _).1 found
    obtain ⟨v, inside, names⟩ := List.any_eq_true.1 found
    exact ⟨e, opens, 0, b, v, at_, inside, eq_of_beq names,
      (resolutions e opens).1 0 b at_ v inside⟩

end PathTyping
