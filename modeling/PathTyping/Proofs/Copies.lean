import PathTyping.Proofs.Walks
import PathTyping.Proofs.Enumeration

/-!
# A branch and a copy

What a branch sees through its lineage is what a path has that keeps a copy of its own, and what is
held by the arena is what such a path has bound and what others have left behind.  Programs on the
branch and programs on the copy keep it so, as long as they are not refused a branch.

1. What is held is the same, so calls are (`Mirrors.held`, `Mirrors.enter_eq`).
2. A binding that is made anew hides the same binding on both sides (`Mirrors.modify`).
3. An instruction does on a branch what it does on a copy, and the path goes on alike
   (`execute_plays`).
4. Where a path ends, both hold what it returns (`finish_mirrors`); a branch that waits for its turn
   sees what was handed on to it (`Waits.mirrors`).
-/

namespace PathTyping

open Walk

/-! ## What a branch and a copy have in common -/

/-- Each slot and each name is bound once. -/
structure Env.Keyed (env : Env) : Prop where
  slots : (Assoc.keys env.slots).Nodup
  locals : (Assoc.keys env.locals).Nodup

/-- What branch `id` sees through its lineage. -/
structure Sees (a : Arena) (id : Nat) (scope : Scope) (env : Env) : Prop where
  slots : ∀ slot, a.lookupSlot id slot = Assoc.find? env.slots slot
  locals : ∀ name, a.lookupVariable id name = Assoc.find? env.locals name
  scope : a.scope id = scope

/-- The instructions that a lineage has reached are those that the path has executed. -/
def Reached (visited : List (Nat × Nat)) (executed : Finset Nat) : Prop :=
  ∀ index, (Assoc.find? visited index).getD 0 = 0 ↔ index ∉ executed

/-- What a branch has of its own on which a path runs. -/
structure Own (b : Branch) (executed : Finset Nat) (env : Env) : Prop where
  stack : b.stack = env.recent
  returned : b.returned = none
  visited : Reached b.visited executed
  slots : (Assoc.keys b.slots).Nodup
  locals : (Assoc.keys b.locals).Nodup

/-- Where a path runs: on a branch of an arena of a size, in a scope, with instructions that it has
executed and values that others have left behind. -/
structure Site where
  id : Nat
  size : Nat
  scope : Scope
  executed : Finset Nat
  kept : List Value

/-- The object is among the values or is a property of one. -/
def Among (values : List Value) (label : Nat) : Prop := values.any (·.reaches label) = true

/-- A branch other than `id` holds the object. -/
def Elsewhere (a : Arena) (id label : Nat) : Prop :=
  ∃ k b, k ≠ id ∧ a.branch? k = some b ∧ b.holds label = true

/-- A path with the bindings `env` runs on a branch of the arena. -/
structure Mirrors (p : Site) (a : Arena) (env : Env) : Prop where
  size : a.size = p.size
  own : ∃ b, a.branch? p.id = some b ∧ Own b p.executed env
  sees : Sees a p.id p.scope env
  keyed : env.Keyed
  others : ∀ label, Elsewhere a p.id label ↔ Among p.kept label

/-- The arena holds what is among the values. -/
def Holds (a : Arena) (values : List Value) : Prop :=
  ∀ label, a.holds label = true ↔ Among values label

theorem among_append {vs ws : List Value} {label : Nat} :
    Among (vs ++ ws) label ↔ Among vs label ∨ Among ws label := by
  simp only [Among, List.any_append, Bool.or_eq_true]

theorem among_cons {v : Value} {values : List Value} {label : Nat} :
    Among (v :: values) label ↔ v.reaches label = true ∨ Among values label := by
  simp only [Among, List.any_cons, Bool.or_eq_true]

theorem among_bound {κ : Type} {m : Assoc κ Value} {label : Nat} :
    Among (m.map Prod.snd) label ↔ ∃ key v, (key, v) ∈ m ∧ v.reaches label = true := by
  simp [Among]

theorem Branch.holds_iff {b : Branch} {label : Nat} :
    b.holds label = true ↔
      (Among (b.slots.map Prod.snd) label ∨ Among (b.locals.map Prod.snd) label) ∨
        Among b.stack label ∨ Among b.returned.toList label := by
  show _ ↔ _ ∨ _
  rw [Branch.holds_eq, Branch.values, ← or_assoc, ← among_append, ← among_append, ← among_append]
  rfl

theorem Env.among_values {env : Env} {label : Nat} :
    Among env.values label ↔
      (Among (env.slots.map Prod.snd) label ∨ Among (env.locals.map Prod.snd) label) ∨
        Among env.recent label := by
  rw [Env.values, among_append, among_append]

theorem elsewhere_modify {a : Arena} {id label : Nat} (f : Branch → Branch) :
    Elsewhere (a.modify id f) id label ↔ Elsewhere a id label :=
  exists_congr fun _ => exists_congr fun _ => and_congr_right fun other => by
    rw [a.branch?_modify_of_ne f (Ne.symm other)]

theorem holds_iff_of_branch {a : Arena} {id label : Nat} {b : Branch}
    (found : a.branch? id = some b) :
    a.holds label = true ↔ Elsewhere a id label ∨ b.holds label = true := by
  rw [Arena.holds_iff]
  constructor
  · rintro ⟨k, b', hk, holds⟩
    by_cases here : k = id
    · subst here
      cases found.symm.trans hk
      exact .inr holds
    · exact .inl ⟨k, b', here, hk, holds⟩
  · rintro (⟨k, b', -, hk, holds⟩ | holds)
    · exact ⟨k, b', hk, holds⟩
    · exact ⟨id, b, found, holds⟩

/-- What is seen is bound somewhere in the arena. -/
theorem holds_of_lookupSlot {a : Arena} {id : Nat} {slot : Slot} {v : Value} {label : Nat}
    (h : a.lookupSlot id slot = some v) (reaches : v.reaches label = true) :
    a.holds label = true := by
  obtain ⟨b, old, found⟩ := List.exists_of_findSome?_eq_some h
  obtain ⟨k, hk⟩ := Arena.mem_lineage old
  refine Arena.holds_iff.2 ⟨k, b, hk, Branch.holds_iff.2 (.inl (.inl ?_))⟩
  exact among_bound.2 ⟨slot, v, Assoc.mem_of_find? found, reaches⟩

theorem holds_of_lookupVariable {a : Arena} {id : Nat} {name : String} {v : Value} {label : Nat}
    (h : a.lookupVariable id name = some v) (reaches : v.reaches label = true) :
    a.holds label = true := by
  obtain ⟨b, old, found⟩ := List.exists_of_findSome?_eq_some h
  obtain ⟨k, hk⟩ := Arena.mem_lineage old
  refine Arena.holds_iff.2 ⟨k, b, hk, Branch.holds_iff.2 (.inl (.inr ?_))⟩
  exact among_bound.2 ⟨name, v, Assoc.mem_of_find? found, reaches⟩

theorem lookupSlot_of_own {a : Arena} {id : Nat} {b : Branch} {slot : Slot} {v : Value}
    (h : a.branch? id = some b) (own : Assoc.find? b.slots slot = some v) :
    a.lookupSlot id slot = some v := by
  obtain ⟨rest, lineage⟩ := Arena.lineage_eq_cons h
  rw [Arena.lookupSlot_eq lineage, own, Option.some_or]

theorem lookupVariable_of_own {a : Arena} {id : Nat} {b : Branch} {name : String} {v : Value}
    (h : a.branch? id = some b) (own : Assoc.find? b.locals name = some v) :
    a.lookupVariable id name = some v := by
  obtain ⟨rest, lineage⟩ := Arena.lineage_eq_cons h
  rw [Arena.lookupVariable_eq lineage, own, Option.some_or]

namespace Mirrors

variable {p : Site} {a : Arena} {env : Env}

/-- The arena holds what the path has bound and what others have left behind. -/
theorem held (h : Mirrors p a env) : Holds a (env.values ++ p.kept) := fun label => by
  obtain ⟨b, found, own⟩ := h.own
  rw [among_append, Env.among_values]
  constructor
  · intro holds
    refine ((holds_iff_of_branch found).1 holds).symm.imp (fun here => ?_) (h.others label).1
    rcases Branch.holds_iff.1 here with (slots | locals) | stack | returned
    · obtain ⟨slot, v, bound, reaches⟩ := among_bound.1 slots
      have seen := lookupSlot_of_own found (Assoc.find?_of_mem own.slots bound)
      rw [h.sees.slots] at seen
      exact .inl (.inl (among_bound.2 ⟨slot, v, Assoc.mem_of_find? seen, reaches⟩))
    · obtain ⟨name, v, bound, reaches⟩ := among_bound.1 locals
      have seen := lookupVariable_of_own found (Assoc.find?_of_mem own.locals bound)
      rw [h.sees.locals] at seen
      exact .inl (.inr (among_bound.2 ⟨name, v, Assoc.mem_of_find? seen, reaches⟩))
    · exact .inr (own.stack ▸ stack)
    · rw [own.returned] at returned
      cases returned
  · rintro (((slots | locals) | recent) | kept)
    · obtain ⟨slot, v, bound, reaches⟩ := among_bound.1 slots
      have seen := Assoc.find?_of_mem h.keyed.slots bound
      rw [← h.sees.slots] at seen
      exact holds_of_lookupSlot seen reaches
    · obtain ⟨name, v, bound, reaches⟩ := among_bound.1 locals
      have seen := Assoc.find?_of_mem h.keyed.locals bound
      rw [← h.sees.locals] at seen
      exact holds_of_lookupVariable seen reaches
    · refine (holds_iff_of_branch found).2 (.inr (Branch.holds_iff.2 (.inr (.inl ?_))))
      exact own.stack ▸ recent
    · exact (holds_iff_of_branch found).2 (.inl ((h.others label).2 kept))

/-- A call from the branch is surrounded by what a call from the path is surrounded by. -/
theorem enter_eq (h : Mirrors p a env) (ctx : Context) :
    ctx.enter a = ctx.await (env.values ++ p.kept) := by
  have same (label : Nat) : a.holds label = (env.values ++ p.kept).any (·.reaches label) :=
    Bool.eq_iff_iff.2 (h.held label)
  simp only [Context.enter, Context.await, same]

end Mirrors

/-! ## Changes of a branch and of a copy -/

/-- A binding of the branch and one of the copy are both as before or both made anew. -/
inductive Together {α : Type} (old old' : Option α) : Option α → Option α → Prop
  | before : Together old old' old old'
  | anew (v : α) : Together old old' (some v) (some v)

theorem Together.or {α : Type} {old old' new new' rest : Option α} (h : Together old old' new new')
    (before : old.or rest = old') : new.or rest = new' := by
  cases h with
  | before => exact before
  | anew v => rfl

theorem together_insert {κ : Type} [DecidableEq κ] (m m' : Assoc κ Value) (key : κ) (v : Value)
    (other : κ) : Together (Assoc.find? m other) (Assoc.find? m' other)
      (Assoc.find? (Assoc.insert m key v) other) (Assoc.find? (Assoc.insert m' key v) other) := by
  by_cases same : key = other
  · subst same
    rw [Assoc.find?_insert_self, Assoc.find?_insert_self]
    exact .anew v
  · rw [Assoc.find?_insert_of_ne m v same, Assoc.find?_insert_of_ne m' v same]
    exact .before

theorem Mirrors.modify {p : Site} {a : Arena} {env env' : Env} {b : Branch} {f : Branch → Branch}
    {executed : Finset Nat} (h : Mirrors p a env) (found : a.branch? p.id = some b)
    (parent : (f b).parent = b.parent) (own : Own (f b) executed env') (keyed : env'.Keyed)
    (slots : ∀ slot, Together (Assoc.find? b.slots slot) (Assoc.find? env.slots slot)
      (Assoc.find? (f b).slots slot) (Assoc.find? env'.slots slot))
    (locals : ∀ name, Together (Assoc.find? b.locals name) (Assoc.find? env.locals name)
      (Assoc.find? (f b).locals name) (Assoc.find? env'.locals name)) :
    Mirrors { p with executed := executed } (a.modify p.id f) env' := by
  obtain ⟨rest, lineage⟩ := Arena.lineage_eq_cons found
  have lineage' := Arena.lineage_modify parent found lineage
  refine ⟨(a.size_modify p.id f).trans h.size, ⟨f b, ?_, own⟩, ⟨fun slot => ?_, fun name => ?_, ?_⟩,
    keyed, fun label => ?_⟩
  · rw [Arena.branch?_modify, if_pos rfl, found, Option.map_some]
  · rw [Arena.lookupSlot_eq lineage']
    exact (slots slot).or ((Arena.lookupSlot_eq lineage slot).symm.trans (h.sees.slots slot))
  · rw [Arena.lookupVariable_eq lineage']
    exact (locals name).or ((Arena.lookupVariable_eq lineage name).symm.trans (h.sees.locals name))
  · rw [← h.sees.scope]
    exact Arena.scope_eq (by rw [lineage, lineage', List.map_cons, List.map_cons, parent])
  · exact (elsewhere_modify f).trans (h.others label)

/-! ## Programs on a branch and on a copy -/

/-- Wherever a path runs on a branch, both programs give the same, and the path runs there still. -/
def Mimics {α : Type} (p : Site) (x : Walk α) (y : Track α) : Prop :=
  ∀ ⦃a m env⦄, Mirrors p a env → ∃ v a' env' m',
    Gives x (a, m) v (a', m') ∧ Gives y (env, m) v (env', m') ∧ Mirrors p a' env'

section Mimics

variable {p : Site} {α β : Type}

theorem mimics_pure (v : α) : Mimics p (pure v) (pure v) :=
  fun a _ env h => ⟨v, a, env, _, rfl, rfl, h⟩

theorem mimics_bind {x : Walk α} {y : Track α} {f : α → Walk β} {g : α → Track β}
    (h : Mimics p x y) (h' : ∀ v, Mimics p (f v) (g v)) : Mimics p (x >>= f) (y >>= g) := by
  intro a m env mirrors
  obtain ⟨v, a₁, env₁, m₁, hx, hy, mirrors⟩ := h mirrors
  obtain ⟨w, a₂, env₂, m₂, hf, hg, mirrors⟩ := h' v (m := m₁) mirrors
  exact ⟨w, a₂, env₂, m₂, gives_bind hx hf, gives_bind hy hg, mirrors⟩

theorem mimics_lift (y : Analysis α) : Mimics p (liftM y) (liftM y) := fun a _ env h =>
  ⟨_, a, env, _, gives_lift_iff.2 ⟨rfl, rfl⟩, gives_lift_iff.2 ⟨rfl, rfl⟩, h⟩

theorem mimics_get {f : Arena → Walk α} {g : Env → Track α}
    (h : ∀ a env, Mirrors p a env → Mimics p (f a) (g env)) : Mimics p (get >>= f) (get >>= g) :=
  fun a _ env mirrors => h a env mirrors mirrors

theorem mimics_change {f : Branch → Branch} {g : Env → Env}
    (h : ∀ a env b, Mirrors p a env → a.branch? p.id = some b → Own b p.executed env →
      Mirrors p (a.modify p.id f) (g env)) :
    Mimics p (modify (·.modify p.id f)) (modify g) := fun a m env mirrors => by
  obtain ⟨b, found, own⟩ := mirrors.own
  exact ⟨(), _, _, m, gives_modify_iff.2 rfl, gives_modify_iff.2 rfl, h a env b mirrors found own⟩

theorem mimics_bindSlot (slot : Slot) (v : Value) :
    Mimics p (Walk.bindSlot p.id slot v) (Track.bindSlot slot v) :=
  mimics_bind (mimics_lift _) fun v => mimics_change fun _ env b mirrors found own =>
    mirrors.modify found rfl
      ⟨congrArg (v :: ·) own.stack, own.returned, own.visited,
        Assoc.nodup_keys_insert own.slots slot v, own.locals⟩
      ⟨Assoc.nodup_keys_insert mirrors.keyed.slots slot v, mirrors.keyed.locals⟩
      (together_insert b.slots env.slots slot v) fun _ => .before

theorem mimics_rebindSlot (slot : Slot) (v : Value) :
    Mimics p (Walk.rebindSlot p.id slot v) (Track.rebindSlot slot v) :=
  mimics_bind (mimics_lift _) fun v => mimics_change fun _ env b mirrors found own =>
    mirrors.modify found rfl
      ⟨own.stack, own.returned, own.visited, Assoc.nodup_keys_insert own.slots slot v, own.locals⟩
      ⟨Assoc.nodup_keys_insert mirrors.keyed.slots slot v, mirrors.keyed.locals⟩
      (together_insert b.slots env.slots slot v) fun _ => .before

theorem mimics_bindVariable (name : String) (v : Value) :
    Mimics p (Walk.bindVariable p.id name v) (Track.bindVariable name v) :=
  mimics_bind (mimics_lift _) fun v => mimics_change fun _ env b mirrors found own =>
    mirrors.modify found rfl
      ⟨own.stack, own.returned, own.visited, own.slots, Assoc.nodup_keys_insert own.locals name v⟩
      ⟨mirrors.keyed.slots, Assoc.nodup_keys_insert mirrors.keyed.locals name v⟩
      (fun _ => .before) (together_insert b.locals env.locals name v)

theorem mimics_operand (span : Span) (slot : Slot) :
    Mimics p (Walk.operand p.id span slot) (Track.operand span slot) :=
  mimics_get fun a env mirrors => by
    rw [mirrors.sees.slots slot]
    cases Assoc.find? env.slots slot with
    | some v => exact mimics_pure v
    | none => exact mimics_bind (mimics_lift _) fun _ => mimics_lift _

theorem mimics_operands (span : Span) (slots : List Slot) :
    Mimics p (slots.mapM (Walk.operand p.id span)) (slots.mapM (Track.operand span)) := by
  induction slots with
  | nil => exact mimics_pure _
  | cons slot rest ih =>
    rw [List.mapM_cons, List.mapM_cons]
    exact mimics_bind (mimics_operand span slot) fun _ => mimics_bind ih fun _ => mimics_pure _

theorem mimics_latest : Mimics p (Walk.latest p.id) Track.latest :=
  mimics_get fun a env mirrors => by
    obtain ⟨b, found, own⟩ := mirrors.own
    simp only [found, Option.bind_some, Branch.top?, own.stack]
    exact mimics_pure _

theorem mimics_load (ctx : Context) (span : Span) (name : String) :
    Mimics p (Walk.load ctx p.id span name) (Track.load ctx.symbols p.scope span name) :=
  mimics_get fun a env mirrors => by
    rw [mirrors.sees.locals name, mirrors.sees.locals "self", mirrors.sees.scope]
    cases Assoc.find? env.locals name with
    | some v => exact mimics_pure v
    | none => exact mimics_lift _

theorem mimics_loadMember (ctx : Context) (span : Span) (slot : Slot) (name : String) :
    Mimics p (Walk.loadMember ctx p.id span slot name)
      (Track.loadMember ctx.symbols span slot name) :=
  mimics_bind (mimics_operand span slot) fun target => by
    cases target.property? name with
    | some kept => exact mimics_pure kept
    | none =>
      cases ctx.symbols.member target name with
      | error f => exact mimics_lift _
      | ok v =>
        exact mimics_bind (mimics_lift _) fun v =>
          mimics_bind (mimics_rebindSlot slot _) fun _ => mimics_pure v

theorem mimics_results (invoke : Invoke) (ctx : Context) (span : Span) (callee : Slot)
    (arguments : List Slot) :
    Mimics p (Walk.results invoke ctx p.id span callee arguments)
      (Track.results invoke ctx p.kept span callee arguments) :=
  mimics_bind (mimics_operand span callee) fun _ =>
    mimics_bind (mimics_operands span arguments) fun _ => mimics_get fun _ _ mirrors => by
      rw [mirrors.enter_eq ctx]
      exact mimics_lift _

end Mimics

/-! ## Instructions -/

/-- The branches that an instruction asks for are there to be had. -/
def Roomy (invoke : Invoke) (ctx : Context) (id : Nat) (instruction : Step) (s : State) : Prop :=
  match instruction.instr with
  | .gotoIf _ _ _ => s.1.size < ctx.options.maxBranches
  | .call _ callee arguments => ∀ values s',
    Gives (results invoke ctx id instruction.span callee arguments) s values s' →
      values.length ≤ 1 ∨ s.1.size + values.length ≤ ctx.options.maxBranches
  | _ => True

/-- The path on the branch goes on as the path on the copy does. -/
def Corresponds (p : Site) (a : Arena) (env : Env) : Next → Turn → Prop
  | .next index, .onward index' => index = index' ∧ Mirrors p a env
  | .stop t v, .ended t' v' => t = t' ∧ v = v' ∧ Mirrors p a env
  | .split starts, .forked targets => ∃ a₁ i j, Mirrors p a₁ env ∧ a = (a₁.child p.id).child p.id ∧
      starts = [(a₁.size, i), (a₁.size + 1, j)] ∧ targets = [i, j]
  | .spread slot values index, .called slot' values' index' =>
    slot = slot' ∧ values = values' ∧ index = index' ∧ Mirrors p a env
  | _, _ => False

/-- Wherever a path runs on a branch, both programs go on alike. -/
def Plays (p : Site) (x : Walk Next) (y : Track Turn) : Prop :=
  ∀ ⦃a m env⦄, Mirrors p a env → ∃ next turn a' env' m',
    Gives x (a, m) next (a', m') ∧ Gives y (env, m) turn (env', m') ∧
      Corresponds p a' env' next turn

section Plays

variable {p : Site} {α : Type} {ctx : Context}

theorem plays_after {x : Walk α} {y : Track α} {f : α → Walk Next} {g : α → Track Turn}
    (h : Mimics p x y) (h' : ∀ v, Plays p (f v) (g v)) : Plays p (x >>= f) (y >>= g) := by
  intro a m env mirrors
  obtain ⟨v, a₁, env₁, m₁, hx, hy, mirrors⟩ := h mirrors
  obtain ⟨next, turn, a₂, env₂, m₂, hf, hg, same⟩ := h' v (m := m₁) mirrors
  exact ⟨next, turn, a₂, env₂, m₂, gives_bind hx hf, gives_bind hy hg, same⟩

theorem plays_next (index : Nat) : Plays p (pure (.next index)) (pure (.onward index)) :=
  fun a _ env h => ⟨_, _, a, env, _, rfl, rfl, rfl, h⟩

theorem plays_stop (t : Termination) (v : Value) :
    Plays p (pure (.stop t v)) (pure (.ended t v)) :=
  fun a _ env h => ⟨_, _, a, env, _, rfl, rfl, rfl, rfl, h⟩

theorem plays_bound (slot : Slot) (v : Value) (index : Nat) :
    Plays p (do Walk.bindSlot p.id slot v; return .next index)
      (do Track.bindSlot slot v; return .onward index) :=
  plays_after (mimics_bindSlot slot v) fun _ => plays_next index

theorem plays_fork (symmetric : ctx.options.forkMode = .symmetric)
    (room : p.size < ctx.options.maxBranches) (target index : Nat) :
    Plays p (fork ctx.options p.id target index) (pure (.forked [index, target])) := by
  intro a m env mirrors
  have granted : ¬ ctx.options.maxBranches ≤ a.size := Nat.not_le.2 (mirrors.size ▸ room)
  refine ⟨.split [(a.size, index), (a.size + 1, target)], _, (a.child p.id).child p.id, env, m, ?_,
    rfl, a, index, target, mirrors, rfl, rfl, rfl⟩
  rw [fork]
  refine gives_bind (gives_get_iff.2 ⟨rfl, rfl⟩) ?_
  rw [if_neg granted, symmetric, ← a.size_child p.id]
  exact gives_bind (gives_child_iff.2 ⟨rfl, rfl⟩) (gives_bind (gives_child_iff.2 ⟨rfl, rfl⟩) rfl)

/-- Where there is room for the results of a call, none is merged with another. -/
theorem affordable_of_room {options : AnalysisOptions} {size : Nat} {values : List Value}
    (room : values.length ≤ 1 ∨ size + values.length ≤ options.maxBranches) :
    affordable options size values = values := by
  rw [affordable, if_neg]
  omega

theorem plays_continue (slot : Slot) (values : List Value) (index : Nat)
    (room : values.length ≤ 1 ∨ p.size + values.length ≤ ctx.options.maxBranches) :
    Plays p (do
        Walk.continueWith p.id slot (affordable ctx.options (← get).size values) index)
      (Track.continueWith slot values index) := by
  intro a m env mirrors
  rw [← mirrors.size] at room
  have afforded := affordable_of_room room
  suffices continued : ∃ next turn a' env' m',
      Gives (Walk.continueWith p.id slot values index) (a, m) next (a', m') ∧
      Gives (Track.continueWith slot values index) (env, m) turn (env', m') ∧
      Corresponds p a' env' next turn by
    obtain ⟨next, turn, a', env', m', hx, hy, same⟩ := continued
    refine ⟨next, turn, a', env', m', gives_bind (gives_get_iff.2 ⟨rfl, rfl⟩) ?_, hy, same⟩
    rwa [afforded]
  rcases values with _ | ⟨v, _ | ⟨w, rest⟩⟩
  · exact plays_bound slot .any index mirrors
  · exact plays_bound slot v index mirrors
  · exact ⟨.spread slot (v :: w :: rest) index, _, a, env, m, rfl, rfl, rfl, rfl, rfl, mirrors⟩

/-- An instruction that is not refused a branch does on a branch what it does on a copy. -/
theorem execute_plays {invoke : Invoke} (symmetric : ctx.options.forkMode = .symmetric)
    {instruction : Step} (index : Nat) {a : Arena} {m : Memory} {env : Env}
    (mirrors : Mirrors p a env) (room : Roomy invoke ctx p.id instruction (a, m)) :
    ∃ next turn a' env' m',
      Gives (Walk.execute invoke ctx p.id index instruction) (a, m) next (a', m') ∧
      Gives (Track.execute invoke ctx p.scope p.kept index instruction) (env, m) turn (env', m') ∧
      Corresponds p a' env' next turn := by
  obtain ⟨instr, span⟩ := instruction
  unfold Walk.execute Track.execute
  cases instr with
  | const result l => exact plays_bound result _ _ mirrors
  | unary result op x =>
    exact plays_after (mimics_operand span x) (fun _ => plays_bound result _ _) mirrors
  | binary result x op y =>
    exact plays_after (mimics_operand span x) (fun _ =>
      plays_after (mimics_operand span y) fun _ => plays_bound result _ _) mirrors
  | goto target => exact plays_next target mirrors
  | gotoIf target condition expected =>
    have room : p.size < ctx.options.maxBranches := mirrors.size ▸ room
    exact plays_after (mimics_operand span condition)
      (fun _ => plays_fork symmetric room target _) mirrors
  | call result callee arguments =>
    obtain ⟨values, a₁, env₁, m₁, hx, hy, mirrors₁⟩ :=
      mimics_results invoke ctx span callee arguments (m := m) mirrors
    have room : values.length ≤ 1 ∨ p.size + values.length ≤ ctx.options.maxBranches :=
      mirrors.size ▸ room values _ hx
    obtain ⟨next, turn, a₂, env₂, m₂, hf, hg, same⟩ :=
      plays_continue result values (index + 1) room (m := m₁) mirrors₁
    exact ⟨next, turn, a₂, env₂, m₂, gives_bind hx hf, gives_bind hy hg, same⟩
  | load result name =>
    exact plays_after (mimics_load ctx span name) (fun _ => plays_bound result _ _) mirrors
  | member result target name =>
    exact plays_after (mimics_loadMember ctx span target name)
      (fun _ => plays_bound result _ _) mirrors
  | index result target key =>
    exact plays_after (mimics_operand span target) (fun _ =>
      plays_after (mimics_operand span key) fun _ =>
        plays_after (mimics_lift _) fun _ => plays_bound result _ _) mirrors
  | store name value =>
    exact plays_after (mimics_operand span value) (fun _ =>
      plays_after (mimics_bindVariable name _) fun _ => plays_next _) mirrors
  | ret value =>
    cases value with
    | some value =>
      exact plays_after (mimics_operand span value) (fun _ => plays_stop _ _) mirrors
    | none => exact plays_after mimics_latest (fun _ => plays_stop _ _) mirrors

end Plays

/-! ## The beginning and the end of paths -/

/-- How the path that ends on a branch has ended, and what it returns. -/
def Arena.ending? (a : Arena) (id : Nat) : Option Ending :=
  (a.branch? id).bind fun b => b.termination.bind fun t => b.returned.map (t, ·)

/-- A path reaches an instruction. -/
theorem Mirrors.visit {p : Site} {s : State} {env : Env} (h : Mirrors p s.1 env) (index : Nat) :
    Mirrors { p with executed := insert index p.executed } (s.visit p.id index).1 env := by
  obtain ⟨b, found, own⟩ := h.own
  refine h.modify found rfl ⟨own.stack, own.returned, fun i => ?_, own.slots, own.locals⟩ h.keyed
    (fun _ => .before) fun _ => .before
  change (b.visit index).visits i = 0 ↔ _
  by_cases same : index = i
  · subst same
    rw [Branch.visits_visit_self]
    simp
  · rw [Branch.visits_visit_of_ne b same, Finset.mem_insert, not_or]
    exact (own.visited i).trans ⟨fun out => ⟨Ne.symm same, out⟩, And.right⟩

theorem Branch.holds_finish {b : Branch} (h : b.returned = none) (t : Termination) (v : Value)
    (label : Nat) :
    (b.finish t v).holds label = true ↔ b.holds label = true ∨ v.reaches label = true := by
  simp [Branch.holds, Branch.finish, h]

/-- A path ends. -/
theorem finish_mirrors {p : Site} {a : Arena} {m : Memory} {env : Env} {s' : State}
    (h : Mirrors p a env) (t : Termination) (v : Value)
    (given : Gives (finish p.id t v) (a, m) () s') :
    ∃ v' kept, Gives (Enumeration.finish env t v) (p.kept, m) [(t, v')] (kept, s'.2) ∧
      s'.1.ending? p.id = some (t, v') ∧ Holds s'.1 kept := by
  obtain ⟨b, found, own⟩ := h.own
  obtain ⟨v', s₁, made, given⟩ := gives_bind_iff.1 given
  obtain ⟨rfl, rfl⟩ := gives_lift_iff.1 made
  obtain rfl := gives_modify_iff.1 given
  refine ⟨((Analysis.fresh v).run m).1, ((Analysis.fresh v).run m).1 :: env.values ++ p.kept, rfl,
    ?_, ?_⟩
  · rw [Arena.ending?, Arena.branch?_modify, if_pos rfl, found]
    rfl
  · generalize ((Analysis.fresh v).run m).1 = v'
    intro label
    have ended : (a.modify p.id (·.finish t v')).branch? p.id = some (b.finish t v') := by
      rw [Arena.branch?_modify, if_pos rfl, found, Option.map_some]
    have before := h.held label
    rw [holds_iff_of_branch found] at before
    rw [holds_iff_of_branch ended, elsewhere_modify, Branch.holds_finish own.returned, ← or_assoc,
      before, List.cons_append, among_cons, or_comm]

/-! ## Branches whose turn has not come -/

theorem Sees.of_lineage {a a' : Arena} {id : Nat} {scope : Scope} {env : Env}
    (h : Sees a id scope env) (same : a'.lineage id = a.lineage id) : Sees a' id scope env where
  slots slot := by rw [← h.slots slot, Arena.lookupSlot, Arena.lookupSlot, same]
  locals name := by rw [← h.locals name, Arena.lookupVariable, Arena.lookupVariable, same]
  scope := by rw [← h.scope]; exact Arena.scope_eq (by rw [same])

/-- New branches behind `parent`, on which paths begin that have executed the same instructions. -/
structure Waits (a : Arena) (parent : Nat) (scope : Scope) (executed : Finset Nat) (env : Env)
    (ids : List Nat) : Prop where
  older : ∀ id ∈ ids, parent < id
  fresh : ∀ id ∈ ids, ∃ visited, a.branch? id = some (.fresh (.branch parent) visited) ∧
    Reached visited executed
  apart : ids.Nodup
  sees : Sees a parent scope env
  keyed : env.Keyed

theorem Mirrors.resize {p : Site} {a : Arena} {env : Env} (h : Mirrors p a env) :
    Mirrors { p with size := a.size } a env := ⟨rfl, h.own, h.sees, h.keyed, h.others⟩

theorem Mirrors.lt {p : Site} {a : Arena} {env : Env} (h : Mirrors p a env) : p.id < a.size :=
  h.own.elim fun _ hb => Arena.lt_size_of_branch? hb.1

/-- A path splits into two. -/
theorem Mirrors.forked {p : Site} {a : Arena} {env : Env} (h : Mirrors p a env) :
    Waits ((a.child p.id).child p.id) p.id p.scope p.executed env [a.size, a.size + 1] ∧
      Holds ((a.child p.id).child p.id) (env.values ++ p.kept) := by
  obtain ⟨b, found, own⟩ := h.own
  have old (k : Nat) (hk : k < a.size) : ((a.child p.id).child p.id).branch? k = a.branch? k := by
    rw [Arena.branch?_child_of_lt, Arena.branch?_child_of_lt _ _ hk]
    exact Arena.size_child a p.id ▸ Nat.lt_succ_of_lt hk
  have fall : (a.child p.id).branch? a.size = some (.fresh (.branch p.id) b.visited) := by
    rw [Arena.branch?_child_size, found, Option.elim_some]
  refine ⟨⟨fun k hk => ?_, fun k hk => ⟨b.visited, ?_, own.visited⟩, by simp, ?_, h.keyed⟩, ?_⟩
  · rcases List.mem_pair.1 hk with rfl | rfl
    · exact h.lt
    · exact Nat.lt_succ_of_lt h.lt
  · rcases List.mem_pair.1 hk with rfl | rfl
    · rw [Arena.branch?_child_of_lt _ _ (Arena.size_child a p.id ▸ Nat.lt_succ_self _), fall]
    · rw [← a.size_child p.id, Arena.branch?_child_size, Arena.branch?_child_of_lt _ _ h.lt, found,
        Option.elim_some]
  · exact h.sees.of_lineage
      (Arena.lineage_congr fun k hk => old k (Nat.lt_of_le_of_lt hk h.lt))
  · intro label
    rw [Arena.holds_child, Arena.holds_child]
    exact h.held label

namespace Waits

variable {a a' : Arena} {parent id : Nat} {scope : Scope} {executed : Finset Nat} {env : Env}
  {ids : List Nat} {kept : List Value}

/-- A path may begin on one of the branches. -/
theorem mirrors (h : Waits a parent scope executed env ids) (hid : id ∈ ids)
    (holds : Holds a kept) : Mirrors ⟨id, a.size, scope, executed, kept⟩ a env.split := by
  obtain ⟨visited, found, reached⟩ := h.fresh id hid
  have lineage := Arena.lineage_of_parent found rfl (h.older id hid)
  refine ⟨rfl, ⟨_, found, rfl, rfl, reached, List.nodup_nil, List.nodup_nil⟩, ⟨fun slot => ?_,
    fun name => ?_, ?_⟩, ⟨h.keyed.slots, h.keyed.locals⟩, fun label => ?_⟩
  · rw [Arena.lookupSlot_eq lineage]
    exact h.sees.slots slot
  · rw [Arena.lookupVariable_eq lineage]
    exact h.sees.locals name
  · rw [← h.sees.scope, Arena.scope, Arena.scope, lineage]
    rfl
  · rw [← holds label, holds_iff_of_branch found]
    exact (or_iff_left Bool.false_ne_true).symm

theorem stands (h : Waits a parent scope executed env ids) (hid : id ∈ ids) : parent < a.size :=
  (h.fresh id hid).elim fun _ hv => (h.older id hid).trans (Arena.lt_size_of_branch? hv.1)

/-- What leaves the parent's lineage and the branches alone leaves them waiting. -/
theorem mono (h : Waits a parent scope executed env ids)
    (old : ∀ k ≤ parent, a'.branch? k = a.branch? k)
    (same : ∀ k ∈ ids, a'.branch? k = a.branch? k) : Waits a' parent scope executed env ids where
  older := h.older
  fresh k hk := (same k hk).symm ▸ h.fresh k hk
  apart := h.apart
  sees := h.sees.of_lineage (Arena.lineage_congr old)
  keyed := h.keyed

end Waits

end PathTyping
