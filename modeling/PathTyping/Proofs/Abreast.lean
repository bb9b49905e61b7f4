import PathTyping.Proofs.Following
import PathTyping.Proofs.Faces

/-!
# Runs abreast

Two resolutions of one body that begin with variables which look alike take the same paths, one
behind the other, and what they see on the way looks alike.  What they remember may differ: a member
may have been loaded before on one side only, and what is bound to a method may be held on one side
only.  So a side is told from the other by its calls alone.

1. Two arenas are abreast on a branch if what is seen from it looks alike (`Abreast`); bindings of
   values that look alike keep it so, and so does a member that is kept on one side
   (`Abreast.bindSlot`, `Abreast.rebindLeft`).
2. Programs agree that give what looks alike and keep arenas abreast (`Agrees`).  A member agrees
   with itself whether it was kept or is looked up (`loadMember_agrees`).
3. Where a path goes on, arenas that were abreast are abreast on the branches that follow
   (`fork_continues`, `continueWith_continues`).
-/

namespace PathTyping

open Walk Value

/-! ## What is seen from a branch -/

namespace Arena

variable {a : Arena} {id : Nat} {b : Branch} {f : Branch → Branch}

theorem lookupSlot_insert (found : a.branch? id = some b) (parent : (f b).parent = b.parent)
    {slot : Slot} {v : Value} (bound : (f b).slots = Assoc.insert b.slots slot v) (other : Slot) :
    (a.modify id f).lookupSlot id other =
      if slot = other then some v else a.lookupSlot id other := by
  obtain ⟨rest, lineage⟩ := lineage_eq_cons found
  rw [lookupSlot_eq (lineage_modify parent found lineage), lookupSlot_eq lineage, bound]
  split
  · next same => rw [same, Assoc.find?_insert_self, Option.some_or]
  · next apart => rw [Assoc.find?_insert_of_ne _ _ apart]

theorem lookupSlot_modify (found : a.branch? id = some b) (parent : (f b).parent = b.parent)
    (same : (f b).slots = b.slots) (slot : Slot) :
    (a.modify id f).lookupSlot id slot = a.lookupSlot id slot := by
  obtain ⟨rest, lineage⟩ := lineage_eq_cons found
  rw [lookupSlot_eq (lineage_modify parent found lineage), lookupSlot_eq lineage, same]

theorem lookupVariable_insert (found : a.branch? id = some b) (parent : (f b).parent = b.parent)
    {name : String} {v : Value} (bound : (f b).locals = Assoc.insert b.locals name v)
    (other : String) : (a.modify id f).lookupVariable id other =
      if name = other then some v else a.lookupVariable id other := by
  obtain ⟨rest, lineage⟩ := lineage_eq_cons found
  rw [lookupVariable_eq (lineage_modify parent found lineage), lookupVariable_eq lineage, bound]
  split
  · next same => rw [same, Assoc.find?_insert_self, Option.some_or]
  · next apart => rw [Assoc.find?_insert_of_ne _ _ apart]

theorem lookupVariable_modify (found : a.branch? id = some b) (parent : (f b).parent = b.parent)
    (same : (f b).locals = b.locals) (name : String) :
    (a.modify id f).lookupVariable id name = a.lookupVariable id name := by
  obtain ⟨rest, lineage⟩ := lineage_eq_cons found
  rw [lookupVariable_eq (lineage_modify parent found lineage), lookupVariable_eq lineage, same]

theorem scope_modify (found : a.branch? id = some b) (parent : (f b).parent = b.parent) :
    (a.modify id f).scope id = a.scope id := by
  obtain ⟨rest, lineage⟩ := lineage_eq_cons found
  refine scope_eq ?_
  rw [lineage_modify parent found lineage, lineage, List.map_cons, List.map_cons, parent]

end Arena

/-- What was computed on two branches looks alike, and they have been at the same instructions. -/
structure Branch.Like (t : SymbolTable) (b b' : Branch) : Prop where
  stack : List.Forall₂ (Value.Like t) b.stack b'.stack
  visited : b.visited = b'.visited

/-- In two arenas of one size, what is seen from branch `id` looks alike. -/
structure Abreast (t : SymbolTable) (id : Nat) (a a' : Arena) : Prop where
  size : a.size = a'.size
  own : ∃ b b', a.branch? id = some b ∧ a'.branch? id = some b' ∧ b.Like t b'
  slots : ∀ slot, Option.Rel (Like t) (a.lookupSlot id slot) (a'.lookupSlot id slot)
  locals : ∀ name, Option.Rel (Like t) (a.lookupVariable id name) (a'.lookupVariable id name)
  scope : a.scope id = a'.scope id

/-- New branches behind `id`, on which paths begin that have been at the same instructions. -/
structure Waiting (id : Nat) (starts : List (Nat × Nat)) (a a' : Arena) : Prop where
  apart : (starts.map Prod.fst).Nodup
  fresh : ∀ start ∈ starts, id < start.1 ∧ ∃ visited,
    a.branch? start.1 = some (.fresh (.branch id) visited) ∧
      a'.branch? start.1 = some (.fresh (.branch id) visited)

section Abreast

variable {t : SymbolTable} {id : Nat} {a a' a₁ a₁' : Arena} {v w : Value}

theorem rel_left {x y : Option Value} (h : Option.Rel (Like t) x y) :
    Option.Rel (Like t) x x := by
  cases h with
  | none => exact .none
  | some like => exact .some like.left.like

theorem rel_symm {x y : Option Value} (h : Option.Rel (Like t) x y) :
    Option.Rel (Like t) y x := by
  cases h with
  | none => exact .none
  | some like => exact .some like.symm

theorem forall₂_left {vs ws : List Value} (h : List.Forall₂ (Like t) vs ws) :
    List.Forall₂ (Like t) vs vs := by
  induction h with
  | nil => exact .nil
  | cons like _ ih => exact .cons like.left.like ih

namespace Abreast

theorem lt (h : Abreast t id a a') : id < a.size ∧ id < a'.size := by
  obtain ⟨b, b', found, found', -⟩ := h.own
  exact ⟨Arena.lt_size_of_branch? found, Arena.lt_size_of_branch? found'⟩

theorem symm (h : Abreast t id a a') : Abreast t id a' a := by
  obtain ⟨b, b', found, found', like⟩ := h.own
  refine ⟨h.size.symm, ⟨b', b, found', found, ?_, like.visited.symm⟩,
    fun slot => rel_symm (h.slots slot), fun name => rel_symm (h.locals name), h.scope.symm⟩
  exact List.Forall₂.flip (like.stack.imp fun _ _ same => same.symm)

theorem left (h : Abreast t id a a') : Abreast t id a a := by
  obtain ⟨b, b', found, -, like⟩ := h.own
  exact ⟨rfl, ⟨b, b, found, found, forall₂_left like.stack, rfl⟩,
    fun slot => rel_left (h.slots slot), fun name => rel_left (h.locals name), rfl⟩

theorem modify (h : Abreast t id a a') {f f' : Branch → Branch}
    (parent : ∀ b, (f b).parent = b.parent ∧ (f' b).parent = b.parent)
    (own : ∀ b b', b.Like t b' → (f b).Like t (f' b'))
    (slots : ∀ slot, Option.Rel (Like t) ((a.modify id f).lookupSlot id slot)
      ((a'.modify id f').lookupSlot id slot))
    (locals : ∀ name, Option.Rel (Like t) ((a.modify id f).lookupVariable id name)
      ((a'.modify id f').lookupVariable id name)) :
    Abreast t id (a.modify id f) (a'.modify id f') := by
  obtain ⟨b, b', found, found', like⟩ := h.own
  refine ⟨?_, ⟨f b, f' b', ?_, ?_, own b b' like⟩, slots, locals, ?_⟩
  · rw [Arena.size_modify, Arena.size_modify, h.size]
  · rw [Arena.branch?_modify, if_pos rfl, found, Option.map_some]
  · rw [Arena.branch?_modify, if_pos rfl, found', Option.map_some]
  · rw [Arena.scope_modify found (parent b).1, Arena.scope_modify found' (parent b').2, h.scope]

theorem bindSlot (h : Abreast t id a a') (slot : Slot) (like : Like t v w) :
    Abreast t id (a.modify id (·.bindSlot slot v)) (a'.modify id (·.bindSlot slot w)) := by
  obtain ⟨b, b', found, found', -⟩ := h.own
  refine h.modify (fun _ => ⟨rfl, rfl⟩) (fun b b' same => ⟨.cons like same.stack, same.visited⟩)
    (fun other => ?_) fun name => ?_
  · rw [Arena.lookupSlot_insert found rfl rfl, Arena.lookupSlot_insert found' rfl rfl]
    split
    · exact .some like
    · exact h.slots other
  · rw [Arena.lookupVariable_modify found rfl rfl, Arena.lookupVariable_modify found' rfl rfl]
    exact h.locals name

theorem rebindSlot (h : Abreast t id a a') (slot : Slot) (like : Like t v w) :
    Abreast t id (a.modify id (·.rebindSlot slot v)) (a'.modify id (·.rebindSlot slot w)) := by
  obtain ⟨b, b', found, found', -⟩ := h.own
  refine h.modify (fun _ => ⟨rfl, rfl⟩) (fun b b' same => ⟨same.stack, same.visited⟩)
    (fun other => ?_) fun name => ?_
  · rw [Arena.lookupSlot_insert found rfl rfl, Arena.lookupSlot_insert found' rfl rfl]
    split
    · exact .some like
    · exact h.slots other
  · rw [Arena.lookupVariable_modify found rfl rfl, Arena.lookupVariable_modify found' rfl rfl]
    exact h.locals name

/-- On one side, what is seen through a slot is replaced by what looks like it. -/
theorem rebindLeft (h : Abreast t id a a') {slot : Slot} (seen : a'.lookupSlot id slot = some w)
    (like : Like t v w) : Abreast t id (a.modify id (·.rebindSlot slot v)) a' := by
  obtain ⟨b, b', found, -, -⟩ := h.own
  rw [← a'.modify_id id]
  refine h.modify (fun _ => ⟨rfl, rfl⟩) (fun b b' same => ⟨same.stack, same.visited⟩)
    (fun other => ?_) fun name => ?_
  · rw [Arena.modify_id, Arena.lookupSlot_insert found rfl rfl]
    split
    · next same => exact same ▸ seen ▸ .some like
    · exact h.slots other
  · rw [Arena.modify_id, Arena.lookupVariable_modify found rfl rfl]
    exact h.locals name

theorem bindVariable (h : Abreast t id a a') (name : String) (like : Like t v w) :
    Abreast t id (a.modify id (·.bindVariable name v)) (a'.modify id (·.bindVariable name w)) := by
  obtain ⟨b, b', found, found', -⟩ := h.own
  refine h.modify (fun _ => ⟨rfl, rfl⟩) (fun b b' same => ⟨same.stack, same.visited⟩)
    (fun slot => ?_) fun other => ?_
  · rw [Arena.lookupSlot_modify found rfl rfl, Arena.lookupSlot_modify found' rfl rfl]
    exact h.slots slot
  · rw [Arena.lookupVariable_insert found rfl rfl, Arena.lookupVariable_insert found' rfl rfl]
    split
    · exact .some like
    · exact h.locals other

theorem visit (h : Abreast t id a a') (index : Nat) :
    Abreast t id (a.modify id (·.visit index)) (a'.modify id (·.visit index)) := by
  obtain ⟨b, b', found, found', -⟩ := h.own
  refine h.modify (fun _ => ⟨rfl, rfl⟩) (fun b b' same => ⟨same.stack, ?_⟩)
    (fun slot => ?_) fun name => ?_
  · show Assoc.insert b.visited index _ = Assoc.insert b'.visited index _
    rw [Branch.visits, Branch.visits, same.visited]
  · rw [Arena.lookupSlot_modify found rfl rfl, Arena.lookupSlot_modify found' rfl rfl]
    exact h.slots slot
  · rw [Arena.lookupVariable_modify found rfl rfl, Arena.lookupVariable_modify found' rfl rfl]
    exact h.locals name

/-- What is seen from a branch depends on it and on those before it. -/
theorem of_older (h : Abreast t id a a') (size : a₁.size = a₁'.size)
    (old : ∀ k ≤ id, a₁.branch? k = a.branch? k) (old' : ∀ k ≤ id, a₁'.branch? k = a'.branch? k) :
    Abreast t id a₁ a₁' := by
  obtain ⟨b, b', found, found', like⟩ := h.own
  have lineage := Arena.lineage_congr old
  have lineage' := Arena.lineage_congr old'
  refine ⟨size, ⟨b, b', (old id (Nat.le_refl id)).trans found,
    (old' id (Nat.le_refl id)).trans found', like⟩, fun slot => ?_, fun name => ?_, ?_⟩
  · rw [Arena.lookupSlot, Arena.lookupSlot, lineage, lineage']
    exact h.slots slot
  · rw [Arena.lookupVariable, Arena.lookupVariable, lineage, lineage']
    exact h.locals name
  · rw [Arena.scope, Arena.scope, lineage, lineage']
    exact h.scope

theorem child (h : Abreast t id a a') : Abreast t id (a.child id) (a'.child id) := by
  obtain ⟨stands, stands'⟩ := h.lt
  refine h.of_older ?_ (fun k hk => ?_) fun k hk => ?_
  · rw [Arena.size_child, Arena.size_child, h.size]
  · exact a.branch?_child_of_lt id (Nat.lt_of_le_of_lt hk stands)
  · exact a'.branch?_child_of_lt id (Nat.lt_of_le_of_lt hk stands')

/-- From a new branch, what is seen is what is seen from the one it comes from. -/
theorem begins (h : Abreast t id a a') {k : Nat} {visited : List (Nat × Nat)} (older : id < k)
    (fresh : a.branch? k = some (.fresh (.branch id) visited))
    (fresh' : a'.branch? k = some (.fresh (.branch id) visited)) : Abreast t k a a' := by
  have lineage := Arena.lineage_of_parent fresh rfl older
  have lineage' := Arena.lineage_of_parent fresh' rfl older
  refine ⟨h.size, ⟨_, _, fresh, fresh', .nil, rfl⟩, fun slot => ?_, fun name => ?_, ?_⟩
  · rw [Arena.lookupSlot_eq lineage, Arena.lookupSlot_eq lineage']
    exact h.slots slot
  · rw [Arena.lookupVariable_eq lineage, Arena.lookupVariable_eq lineage']
    exact h.locals name
  · have same := h.scope
    rw [Arena.scope, Arena.scope] at same ⊢
    rw [lineage, lineage']
    exact same

end Abreast

end Abreast

/-! ## Programs that agree -/

/-- Two states are abreast on branch `id`, and `L` and `N` hold of what they remember. -/
structure Beside (t : SymbolTable) (L N : Memory → Prop) (id : Nat) (s r : State) : Prop where
  arena : Abreast t id s.1 r.1
  left : L s.2
  right : N r.2

/-- On the branch, both programs give what `R` relates and keep the states abreast. -/
def Agrees (t : SymbolTable) (L N : Memory → Prop) (id : Nat) {α β : Type} (R : α → β → Prop)
    (x : Walk α) (y : Walk β) : Prop :=
  ∀ ⦃s v s' r w r'⦄, Beside t L N id s r → Gives x s v s' → Gives y r w r' →
    R v w ∧ Beside t L N id s' r'

section Agrees

variable {t : SymbolTable} {L N : Memory → Prop} {id : Nat} {α β γ δ : Type} {R : α → β → Prop}
  {S : γ → δ → Prop}

theorem agrees_pure {v : α} {w : β} (h : R v w) : Agrees t L N id R (pure v) (pure w) := by
  intro s v' s' r w' r' beside given given'
  obtain ⟨rfl, rfl⟩ := gives_pure_iff.1 given
  obtain ⟨rfl, rfl⟩ := gives_pure_iff.1 given'
  exact ⟨h, beside⟩

theorem agrees_bind {x : Walk α} {y : Walk β} {f : α → Walk γ} {g : β → Walk δ}
    (h : Agrees t L N id R x y) (h' : ∀ v w, R v w → Agrees t L N id S (f v) (g w)) :
    Agrees t L N id S (x >>= f) (y >>= g) := by
  intro s v s' r w r' beside given given'
  obtain ⟨v₁, s₁, hx, given⟩ := gives_bind_iff.1 given
  obtain ⟨w₁, r₁, hy, given'⟩ := gives_bind_iff.1 given'
  obtain ⟨related, beside⟩ := h beside hx hy
  exact h' v₁ w₁ related beside given given'

theorem agrees_get : Agrees t L N id (Abreast t id) get get := by
  intro s v s' r w r' beside given given'
  obtain ⟨rfl, rfl⟩ := gives_get_iff.1 given
  obtain ⟨rfl, rfl⟩ := gives_get_iff.1 given'
  exact ⟨beside.arena, beside⟩

theorem agrees_lift {x : Analysis α} {y : Analysis β}
    (h : ∀ m m', L m → N m' → R (x.run m).1 (y.run m').1 ∧ L (x.run m).2 ∧ N (y.run m').2) :
    Agrees t L N id R (liftM x) (liftM y) := by
  intro s v s' r w r' beside given given'
  obtain ⟨rfl, rfl⟩ := gives_lift_iff.1 given
  obtain ⟨rfl, rfl⟩ := gives_lift_iff.1 given'
  obtain ⟨related, left, right⟩ := h s.2 r.2 beside.left beside.right
  exact ⟨related, beside.arena, left, right⟩

theorem agrees_modify {g g' : Arena → Arena}
    (h : ∀ a a', Abreast t id a a' → Abreast t id (g a) (g' a')) :
    Agrees t L N id (fun _ _ => True) (modify g : Walk Unit) (modify g' : Walk Unit) := by
  intro s v s' r w r' beside given given'
  obtain rfl := gives_modify_iff.1 given
  obtain rfl := gives_modify_iff.1 given'
  exact ⟨trivial, h _ _ beside.arena, beside.left, beside.right⟩

theorem agrees_mapM {κ : Type} {f : κ → Walk α} {g : κ → Walk β} {xs : List κ}
    (h : ∀ x ∈ xs, Agrees t L N id R (f x) (g x)) :
    Agrees t L N id (List.Forall₂ R) (xs.mapM f) (xs.mapM g) := by
  induction xs with
  | nil => exact agrees_pure .nil
  | cons x rest ih =>
    rw [List.mapM_cons, List.mapM_cons]
    refine agrees_bind (h x List.mem_cons_self) fun v w first => ?_
    refine agrees_bind (ih fun y hy => h y (List.mem_cons_of_mem _ hy)) fun vs ws others => ?_
    exact agrees_pure (.cons first others)

end Agrees

/-- Calls come down to the same, whatever is bound to their methods. -/
def Analysis.Request.Like (t : SymbolTable) : Request → Request → Prop
  | .answered values, .answered others => List.Forall₂ (Value.Like t) values others
  | .enter id receiver, .enter id' _ => id = id' ∧ ∀ r, receiver = some r → r.Tidy t
  | _, _ => False

theorem types_of_like {t : SymbolTable} {values others : List Value}
    (h : List.Forall₂ (Like t) values others) :
    values.map Value.type = others.map Value.type := by
  induction h with
  | nil => rfl
  | cons first _ ih => rw [List.map_cons, List.map_cons, type_of_face first.face, ih]

namespace Analysis

variable {t : SymbolTable} {ctx ctx' : Context}

theorem like_answer {v : Value} (h : v.Tidy t) :
    Request.Like t (.answered [v]) (.answered [v]) := .cons h.like .nil

theorem request_like (symbols : ctx.symbols = t) (symbols' : ctx'.symbols = t)
    {callee callee' : Value} (h : Like t callee callee') {arguments others : List Value}
    (hargs : List.Forall₂ (Like t) arguments others) (span : Span) (m m' : Memory) :
    Request.Like t ((request ctx callee arguments span).run m).1
      ((request ctx' callee' others span).run m').1 := by
  have types := types_of_like hargs
  have unknown : Request.Like t (.answered [.any]) (.answered [.any]) := like_answer tidy_any
  unfold request
  rw [members_of_face h.face, type_of_face h.face]
  rcases callee'.members with _ | members
  · dsimp only
    split <;> exact unknown
  · have several : Request.Like t ((requestMembers ctx callee members arguments span).run m).1
        ((requestMembers ctx' callee' members others span).run m').1 := by
      unfold requestMembers
      dsimp only
      rw [symbols, symbols', types]
      cases Choice.of? t members (others.map Value.type) with
      | none => exact unknown
      | some choice =>
        obtain ⟨member, matched⟩ := choice
        cases member with
        | method id =>
          refine ⟨rfl, fun r found => h.left.target (Option.filter_eq_some_iff.1 found).1⟩
        | builtin b => exact like_answer (tidy_ofType _)
        | _ => exact unknown
    rcases members with _ | ⟨first, rest⟩
    · exact several
    · cases first with
      | class_ id =>
        show Request.Like t (.answered [.ofType (ctx.symbols.instanceType id)])
          (.answered [.ofType (ctx'.symbols.instanceType id)])
        rw [symbols, symbols']
        exact like_answer (tidy_ofType _)
      | _ => exact several

end Analysis

namespace Walk

variable {t : SymbolTable} {L N : Memory → Prop} {id : Nat} {span : Span} {ctx ctx' : Context}
  (inert : Memory.Inert L ∧ Memory.Inert N)

include inert

theorem report_agrees (f f' : Finding) (span : Span) :
    Agrees t L N id (fun _ _ => True) (report f span) (report f' span) :=
  agrees_lift fun _ _ left right => ⟨trivial, inert.1.add left _, inert.2.add right _⟩

theorem fresh_agrees {v w : Value} (h : Like t v w) :
    Agrees t L N id (Like t) (fresh v) (fresh w) :=
  agrees_lift fun _ _ left right => ⟨h.place _ _, inert.1.place left v, inert.2.place right w⟩

theorem bindSlot_agrees (slot : Slot) {v w : Value} (h : Like t v w) :
    Agrees t L N id (fun _ _ => True) (bindSlot id slot v) (bindSlot id slot w) :=
  agrees_bind (fresh_agrees inert h) fun _ _ like => agrees_modify fun _ _ h => h.bindSlot slot like

theorem bindVariable_agrees (name : String) {v w : Value} (h : Like t v w) :
    Agrees t L N id (fun _ _ => True) (bindVariable id name v) (bindVariable id name w) :=
  agrees_bind (fresh_agrees inert h) fun _ _ like =>
    agrees_modify fun _ _ h => h.bindVariable name like

theorem operand_agrees (slot : Slot) :
    Agrees t L N id (Like t) (operand id span slot) (operand id span slot) := by
  refine agrees_bind agrees_get fun a a' h => ?_
  have seen := h.slots slot
  generalize a.lookupSlot id slot = x at seen ⊢
  generalize a'.lookupSlot id slot = y at seen ⊢
  cases seen with
  | none =>
    exact agrees_bind (report_agrees inert _ _ span) fun _ _ _ => fresh_agrees inert tidy_any.like
  | some like => exact agrees_pure like

theorem operands_agree (slots : List Slot) :
    Agrees t L N id (List.Forall₂ (Like t)) (slots.mapM (operand id span))
      (slots.mapM (operand id span)) :=
  agrees_mapM fun slot _ => operand_agrees inert slot

omit inert in
theorem latest_agrees : Agrees t L N id (Like t) (latest id) (latest id) := by
  refine agrees_bind agrees_get fun a a' h => agrees_pure ?_
  obtain ⟨b, b', found, found', like⟩ := h.own
  rw [found, found', Option.bind_some, Option.bind_some, Branch.top?, Branch.top?]
  have stack := like.stack
  generalize b.stack = vs at stack ⊢
  generalize b'.stack = ws at stack ⊢
  cases stack with
  | nil => exact (tidy_ofLiteral .nil).like
  | cons first _ => exact first

theorem settle_agrees {x y : Except Finding Value}
    (h : Option.Rel (Like t) x.toOption y.toOption) :
    Agrees t L N id (Like t) (settle x span) (settle y span) := by
  cases x with
  | ok v =>
    cases y with
    | ok w =>
      cases h with
      | some like => exact agrees_lift fun _ _ left right => ⟨like, left, right⟩
    | error f => cases h
  | error f =>
    cases y with
    | ok w => cases h
    | error g =>
      exact agrees_lift fun _ _ left right =>
        ⟨tidy_any.like, inert.1.add left _, inert.2.add right _⟩

theorem load_agrees (symbols : ctx.symbols = t) (symbols' : ctx'.symbols = t) (name : String) :
    Agrees t L N id (Like t) (load ctx id span name) (load ctx' id span name) := by
  refine agrees_bind agrees_get fun a a' h => ?_
  have seen := h.locals name
  dsimp only
  generalize a.lookupVariable id name = x at seen ⊢
  generalize a'.lookupVariable id name = y at seen ⊢
  cases seen with
  | some like => exact agrees_pure like
  | none =>
    refine settle_agrees inert ?_
    rw [symbols, symbols', h.scope]
    exact like_named (h.locals "self") _ name

end Walk

/-! ### Members -/

/-- What it comes to that a member of the value `v` in a slot is loaded in a state. -/
inductive Loads (t : SymbolTable) (id : Nat) (span : Span) (slot : Slot) (name : String) (v : Value)
    (s : State) : Value → State → Prop
  | kept {p : Value} (kept : v.property? name = some p) : Loads t id span slot name v s p s
  | missing {f : Finding} (new : v.property? name = none) (missing : t.member v name = .error f) :
      Loads t id span slot name v s .any (s.1, s.2.add (f.diagnostic span))
  | found {p w : Value} {m : Memory} (new : v.property? name = none)
      (found : t.member v name = .ok p)
      (keeps : (s.2.place p).2.place (v.copy.setProperty name (s.2.place p).1) = (w, m)) :
      Loads t id span slot name v s (s.2.place p).1 (s.1.modify id (·.rebindSlot slot w), m)

/-- The value that keeps a member looks like the one that it replaces. -/
theorem Value.Like.keeps {t : SymbolTable} {M : Memory → Prop} (inert : Memory.Inert M)
    {v w u p : Value} (h : Like t v w) (tidy : p.Tidy t) {name : String}
    (new : v.property? name = none) (found : t.member v name = .ok p) {m m' : Memory} (hm : M m)
    (keeps : (m.place p).2.place (v.copy.setProperty name (m.place p).1) = (u, m')) :
    Like t u w ∧ M m' := by
  have kept := h.keep tidy new found m.nextLabel
  obtain rfl : ((m.place p).2.place (v.copy.setProperty name (m.place p).1)).1 = u :=
    congrArg Prod.fst keeps
  obtain rfl : ((m.place p).2.place (v.copy.setProperty name (m.place p).1)).2 = m' :=
    congrArg Prod.snd keeps
  exact ⟨(kept.left.like_place _).trans kept, inert.place (inert.place hm p) _⟩

namespace Walk

variable {t : SymbolTable} {L N : Memory → Prop} {id : Nat} {span : Span} {ctx ctx' : Context}

theorem loadMember_loads {slot : Slot} {name : String} {u : Value} {s s' : State}
    (given : Gives (loadMember ctx id span slot name) s u s') :
    ∃ v s₁, Gives (operand id span slot) s v s₁ ∧
      Loads ctx.symbols id span slot name v s₁ u s' := by
  obtain ⟨v, s₁, read, given⟩ := gives_bind_iff.1 given
  refine ⟨v, s₁, read, ?_⟩
  split at given
  · next p kept =>
    obtain ⟨rfl, rfl⟩ := gives_pure_iff.1 given
    exact .kept kept
  · next new =>
    split at given
    · next f missing =>
      obtain ⟨rfl, rfl⟩ := gives_lift_iff.1 given
      exact .missing new missing
    · next p found =>
      obtain ⟨q, s₂, made, given⟩ := gives_bind_iff.1 given
      obtain ⟨rfl, rfl⟩ := gives_lift_iff.1 made
      obtain ⟨_, s₃, rebound, given⟩ := gives_bind_iff.1 given
      obtain ⟨rfl, rfl⟩ := gives_pure_iff.1 given
      obtain ⟨_, s₄, made, changed⟩ := gives_bind_iff.1 rebound
      obtain ⟨rfl, rfl⟩ := gives_lift_iff.1 made
      obtain rfl := gives_modify_iff.1 changed
      exact .found new found rfl

/-- A value of which a member is kept is seen through its slot. -/
theorem seen_of_kept {slot : Slot} {name : String} {v p : Value} {s s' : State}
    (read : Gives (operand id span slot) s v s') (kept : v.property? name = some p) :
    s'.1.lookupSlot id slot = some v := by
  obtain ⟨a, s₁, got, read⟩ := gives_bind_iff.1 read
  obtain ⟨rfl, rfl⟩ := gives_get_iff.1 got
  split at read
  · next w seen =>
    obtain ⟨rfl, rfl⟩ := gives_pure_iff.1 read
    exact seen
  · obtain ⟨_, s₂, -, read⟩ := gives_bind_iff.1 read
    obtain ⟨-, rfl⟩ := gives_lift_iff.1 read
    cases kept

variable (inert : Memory.Inert L ∧ Memory.Inert N)

include inert

/-- A member may be kept on one side only; what is loaded looks alike all the same. -/
theorem loadMember_agrees (symbols : ctx.symbols = t) (symbols' : ctx'.symbols = t) (slot : Slot)
    (name : String) :
    Agrees t L N id (Like t) (loadMember ctx id span slot name)
      (loadMember ctx' id span slot name) := by
  intro s u s' r u' r' beside given given'
  obtain ⟨v, s₁, read, loads⟩ := loadMember_loads given
  obtain ⟨w, r₁, read', loads'⟩ := loadMember_loads given'
  rw [symbols] at loads
  rw [symbols'] at loads'
  obtain ⟨like, beside⟩ := operand_agrees inert slot beside read read'
  have both := like.loaded name
  cases loads with
  | kept kept =>
    rw [loaded_of_kept kept] at both
    cases loads' with
    | kept kept' =>
      rw [loaded_of_kept kept'] at both
      cases both with
      | some same => exact ⟨same, beside⟩
    | missing new missing =>
      rw [loaded_of_error new missing] at both
      cases both
    | found new found keeps =>
      rw [loaded_of_member new found] at both
      cases both with
      | some same =>
        obtain ⟨keeps, right⟩ := like.symm.keeps inert.2 same.right new found beside.right keeps
        refine ⟨same.trans (same.right.like_place _).symm, ?_, beside.left, right⟩
        exact (beside.arena.symm.rebindLeft (seen_of_kept read kept) keeps).symm
  | missing new missing =>
    rw [loaded_of_error new missing] at both
    cases loads' with
    | kept kept' =>
      rw [loaded_of_kept kept'] at both
      cases both
    | missing new' missing' =>
      exact ⟨tidy_any.like, beside.arena, inert.1.add beside.left _, inert.2.add beside.right _⟩
    | found new' found' keeps' =>
      rw [loaded_of_member new' found'] at both
      cases both
  | found new found keeps =>
    rw [loaded_of_member new found] at both
    cases loads' with
    | kept kept' =>
      rw [loaded_of_kept kept'] at both
      cases both with
      | some same =>
        obtain ⟨keeps, left⟩ := like.keeps inert.1 same.left new found beside.left keeps
        refine ⟨(same.left.like_place _).trans same, ?_, left, beside.right⟩
        exact beside.arena.rebindLeft (seen_of_kept read' kept') keeps
    | missing new' missing' =>
      rw [loaded_of_error new' missing'] at both
      cases both
    | found new' found' keeps' =>
      rw [loaded_of_member new' found'] at both
      cases both with
      | some same =>
        obtain ⟨keeps, left⟩ := like.keeps inert.1 same.left new found beside.left keeps
        obtain ⟨keeps', right⟩ :=
          keeps.symm.keeps inert.2 same.right new' found' beside.right keeps'
        exact ⟨same.place _ _, beside.arena.rebindSlot slot keeps'.symm, left, right⟩

end Walk

/-! ## How paths go on -/

/-- A path goes on alike on both sides. -/
def Next.Abreast (t : SymbolTable) (id : Nat) (a a' : Arena) : Next → Next → Prop
  | .next index, .next index' => index = index'
  | .stop ending v, .stop ending' w => ending = ending' ∧ Like t v w
  | .split starts, .split starts' => starts = starts' ∧ Waiting id starts a a'
  | .spread slot values index, .spread slot' others index' =>
    slot = slot' ∧ index = index' ∧ List.Forall₂ (Like t) values others
  | _, _ => False

/-- On the branch, paths go on alike after both programs. -/
def Continues (t : SymbolTable) (L N : Memory → Prop) (id : Nat) (x y : Walk Next) : Prop :=
  ∀ ⦃s next s' r next' r'⦄, Beside t L N id s r → Gives x s next s' → Gives y r next' r' →
    next.Abreast t id s'.1 r'.1 next' ∧ Beside t L N id s' r'

section Continues

variable {t : SymbolTable} {L N : Memory → Prop} {id : Nat} {α β : Type} {R : α → β → Prop}

theorem continues_after {x : Walk α} {y : Walk β} {f : α → Walk Next} {g : β → Walk Next}
    (h : Agrees t L N id R x y) (h' : ∀ v w, R v w → Continues t L N id (f v) (g w)) :
    Continues t L N id (x >>= f) (y >>= g) := by
  intro s next s' r next' r' beside given given'
  obtain ⟨v₁, s₁, hx, given⟩ := gives_bind_iff.1 given
  obtain ⟨w₁, r₁, hy, given'⟩ := gives_bind_iff.1 given'
  obtain ⟨related, beside⟩ := h beside hx hy
  exact h' v₁ w₁ related beside given given'

theorem continues_next (index : Nat) :
    Continues t L N id (pure (.next index)) (pure (.next index)) := by
  intro s next s' r next' r' beside given given'
  obtain ⟨rfl, rfl⟩ := gives_pure_iff.1 given
  obtain ⟨rfl, rfl⟩ := gives_pure_iff.1 given'
  exact ⟨rfl, beside⟩

theorem continues_stop (ending : Termination) {v w : Value} (like : Like t v w) :
    Continues t L N id (pure (.stop ending v)) (pure (.stop ending w)) := by
  intro s next s' r next' r' beside given given'
  obtain ⟨rfl, rfl⟩ := gives_pure_iff.1 given
  obtain ⟨rfl, rfl⟩ := gives_pure_iff.1 given'
  exact ⟨⟨rfl, like⟩, beside⟩

theorem continues_bound (inert : Memory.Inert L ∧ Memory.Inert N) (slot : Slot) {v w : Value}
    (like : Like t v w) (index : Nat) :
    Continues t L N id (do bindSlot id slot v; return .next index)
      (do bindSlot id slot w; return .next index) :=
  continues_after (bindSlot_agrees inert slot like) fun _ _ _ => continues_next index

/-! ### Splitting -/

theorem Arena.branch?_child_new {a : Arena} {b : Branch} (found : a.branch? id = some b) :
    (a.child id).branch? a.size = some (.fresh (.branch id) b.visited) := by
  rw [Arena.branch?_child_size, found, Option.elim_some]

theorem Abreast.forkedOnce {a a' : Arena} (h : Abreast t id a a') (index : Nat) :
    Waiting id [(a.size, index)] (a.child id) (a'.child id) := by
  obtain ⟨b, b', found, found', like⟩ := h.own
  refine ⟨List.nodup_singleton _, fun start hs => ?_⟩
  obtain rfl := List.mem_singleton.1 hs
  refine ⟨h.lt.1, b.visited, Arena.branch?_child_new found, ?_⟩
  rw [like.visited, h.size]
  exact Arena.branch?_child_new found'

theorem Abreast.forked {a a' : Arena} (h : Abreast t id a a') (index target : Nat) :
    Waiting id [(a.size, index), (a.size + 1, target)] ((a.child id).child id)
      ((a'.child id).child id) := by
  obtain ⟨-, first⟩ := h.forkedOnce index
  obtain ⟨-, second⟩ := h.child.forkedOnce target
  rw [Arena.size_child] at second
  refine ⟨by simp, fun start hs => ?_⟩
  rcases List.mem_pair.1 hs with rfl | rfl
  · obtain ⟨older, visited, fresh, fresh'⟩ := first _ List.mem_cons_self
    refine ⟨older, visited, ?_, ?_⟩
    · exact (Arena.branch?_child_of_lt _ id (Arena.lt_size_of_branch? fresh)).trans fresh
    · exact (Arena.branch?_child_of_lt _ id (Arena.lt_size_of_branch? fresh')).trans fresh'
  · exact second _ List.mem_cons_self

theorem fork_continues (options : AnalysisOptions) (target index : Nat) :
    Continues t L N id (fork options id target index) (fork options id target index) := by
  intro s next s' r next' r' beside given given'
  obtain ⟨a, s₁, got, given⟩ := gives_bind_iff.1 given
  obtain ⟨rfl, rfl⟩ := gives_get_iff.1 got
  obtain ⟨a', r₁, got', given'⟩ := gives_bind_iff.1 given'
  obtain ⟨rfl, rfl⟩ := gives_get_iff.1 got'
  have size := beside.arena.size
  rw [← size] at given'
  split at given
  · next full =>
    rw [if_pos full] at given'
    exact continues_next index beside given given'
  · next room =>
    rw [if_neg room] at given'
    cases mode : options.forkMode with
    | symmetric =>
      rw [mode] at given given'
      obtain ⟨_, _, made, given⟩ := gives_bind_iff.1 given
      obtain ⟨rfl, rfl⟩ := gives_child_iff.1 made
      obtain ⟨_, _, made, given⟩ := gives_bind_iff.1 given
      obtain ⟨rfl, rfl⟩ := gives_child_iff.1 made
      obtain ⟨rfl, rfl⟩ := gives_pure_iff.1 given
      obtain ⟨_, _, made, given'⟩ := gives_bind_iff.1 given'
      obtain ⟨rfl, rfl⟩ := gives_child_iff.1 made
      obtain ⟨_, _, made, given'⟩ := gives_bind_iff.1 given'
      obtain ⟨rfl, rfl⟩ := gives_child_iff.1 made
      obtain ⟨rfl, rfl⟩ := gives_pure_iff.1 given'
      rw [Arena.size_child, Arena.size_child, ← size]
      exact ⟨⟨rfl, beside.arena.forked index target⟩, beside.arena.child.child, beside.left,
        beside.right⟩
    | fallthroughOnly =>
      rw [mode] at given given'
      obtain ⟨_, _, made, given⟩ := gives_bind_iff.1 given
      obtain ⟨rfl, rfl⟩ := gives_child_iff.1 made
      obtain ⟨rfl, rfl⟩ := gives_pure_iff.1 given
      obtain ⟨_, _, made, given'⟩ := gives_bind_iff.1 given'
      obtain ⟨rfl, rfl⟩ := gives_child_iff.1 made
      obtain ⟨rfl, rfl⟩ := gives_pure_iff.1 given'
      rw [← size]
      exact ⟨⟨rfl, beside.arena.forkedOnce index⟩, beside.arena.child, beside.left, beside.right⟩

theorem affordable_like (options : AnalysisOptions) (size : Nat) {values others : List Value}
    (h : List.Forall₂ (Like t) values others) :
    List.Forall₂ (Like t) (affordable options size values) (affordable options size others) := by
  unfold affordable
  rw [h.length_eq, types_of_like h]
  split
  · exact .cons (tidy_ofType _).like .nil
  · exact h

theorem continueWith_continues (inert : Memory.Inert L ∧ Memory.Inert N)
    (options : AnalysisOptions) (slot : Slot) {values others : List Value}
    (h : List.Forall₂ (Like t) values others) (index : Nat) :
    Continues t L N id
      (do continueWith id slot (affordable options (← get).size values) index)
      (do continueWith id slot (affordable options (← get).size others) index) := by
  refine continues_after agrees_get fun a a' abreast => ?_
  rw [← abreast.size]
  have few := affordable_like options a.size h
  generalize affordable options a.size values = vs at few ⊢
  generalize affordable options a.size others = ws at few ⊢
  rcases few with _ | ⟨first, _ | ⟨second, rest⟩⟩
  · exact continues_bound inert slot tidy_any.like index
  · exact continues_bound inert slot first index
  · intro s next s' r next' r' beside given given'
    obtain ⟨rfl, rfl⟩ := gives_pure_iff.1 given
    obtain ⟨rfl, rfl⟩ := gives_pure_iff.1 given'
    exact ⟨⟨rfl, rfl, .cons first (.cons second rest)⟩, beside⟩

end Continues

end PathTyping
