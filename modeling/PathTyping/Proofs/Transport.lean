import PathTyping.Proofs.Renaming
import PathTyping.Resolution

/-!
# Renaming objects in an analysis

An analysis asks of an object only whether it is still held.  If the objects that a renaming merges
are held anyway, an analysis of renamed values therefore does what it does of the values themselves,
and what it leaves behind is renamed.

What was put on a stack of an arena stays there, so a walk may rely on its own arena to hold that.

1. What is held is the same (`Context.Renames.holds`), and remains so in bodies that are entered and
   while results wait (`enter`, `await`).
2. Programs go through in step (`Analysis.Renames`, `Walk.Renames`), and with them calls before a
   body is entered, instructions and walks (`renames_call`, `renames_execute`, `renames_walk`).
-/

namespace PathTyping

open Value (rename)

/-! ## Branches, arenas and memories -/

namespace Branch

def rename (f : Nat → Nat) (b : Branch) : Branch :=
  { b with
    stack := b.stack.map (Value.rename f)
    slots := Assoc.mapValues (Value.rename f) b.slots
    locals := Assoc.mapValues (Value.rename f) b.locals
    returned := b.returned.map (Value.rename f) }

variable (f : Nat → Nat) (b : Branch)

@[simp] theorem parent_rename : (b.rename f).parent = b.parent := rfl

theorem bindSlot_rename (slot : Slot) (v : Value) :
    (b.rename f).bindSlot slot (v.rename f) = (b.bindSlot slot v).rename f := by
  simp only [bindSlot, rename, Assoc.insert_mapValues, List.map_cons]

theorem rebindSlot_rename (slot : Slot) (v : Value) :
    (b.rename f).rebindSlot slot (v.rename f) = (b.rebindSlot slot v).rename f := by
  simp only [rebindSlot, rename, Assoc.insert_mapValues]

theorem bindVariable_rename (name : String) (v : Value) :
    (b.rename f).bindVariable name (v.rename f) = (b.bindVariable name v).rename f := by
  simp only [bindVariable, rename, Assoc.insert_mapValues]

end Branch

/-- A renaming takes what `p` tells of labels to what `p'` tells of their names. -/
def Covers (f : Nat → Nat) (p p' : Nat → Bool) : Prop :=
  ∀ l, p' l = true ↔ ∃ k, f k = l ∧ p k = true

theorem covers_any (f : Nat → Nat) (values : List Value) :
    Covers f (fun l => values.any (·.reaches l))
      (fun l => (values.map (rename f)).any (·.reaches l)) := by
  intro l
  simp only [List.any_map, List.any_eq_true, Function.comp_apply, Value.reaches_rename]
  constructor
  · rintro ⟨v, hv, k, hk, held⟩
    exact ⟨k, hk, v, hv, held⟩
  · rintro ⟨k, hk, v, hv, held⟩
    exact ⟨v, hv, k, hk, held⟩

theorem Branch.covers_holds (f : Nat → Nat) (b : Branch) :
    Covers f (fun l => b.holds l) (fun l => (b.rename f).holds l) := by
  have renamed : (b.rename f).values = b.values.map (Value.rename f) := by
    cases h : b.returned <;> simp [values, rename, Assoc.mapValues, h, Function.comp_def]
  simp only [Branch.holds_eq, renamed]
  exact covers_any f _

namespace Arena

def rename (f : Nat → Nat) (a : Arena) : Arena := ⟨a.branches.map (Branch.rename f)⟩

variable (f : Nat → Nat) (a : Arena)

@[simp] theorem size_rename : (a.rename f).size = a.size := by simp [rename, size]

@[simp] theorem branch?_rename (id : Nat) :
    (a.rename f).branch? id = (a.branch? id).map (Branch.rename f) := by
  simp [rename, branch?]

theorem modify_rename (id : Nat) {g g' : Branch → Branch}
    (h : ∀ b, g' (b.rename f) = (g b).rename f) :
    (a.rename f).modify id g' = (a.modify id g).rename f := by
  apply ext_branch?
  intro other
  simp only [branch?_modify, branch?_rename]
  split
  · simp only [Option.map_map, Function.comp_def, h]
  · rfl

theorem push_rename (b : Branch) : (a.rename f).push (b.rename f) = (a.push b).rename f := by
  simp [push, rename]

theorem child_rename (id : Nat) : (a.rename f).child id = (a.child id).rename f := by
  have visited : ((a.rename f).branch? id).elim [] (·.visited) =
      (a.branch? id).elim [] (·.visited) := by
    rw [branch?_rename]
    cases a.branch? id <;> rfl
  unfold child
  rw [visited]
  exact a.push_rename f (.fresh (.branch id) ((a.branch? id).elim [] (·.visited)))

theorem lineage_rename (id : Nat) : (a.rename f).lineage id = (a.lineage id).map (·.rename f) := by
  induction id using Nat.strongRecOn with
  | _ id ih =>
    have found := a.branch?_rename f id
    unfold lineage
    rw [show (a.rename f).branches[id]? = _ from found]
    cases h : a.branches[id]? with
    | none =>
      rw [show a.branch? id = none from h]
      rfl
    | some b =>
      rw [show a.branch? id = some b from h]
      simp only [Option.map_some, Branch.parent_rename]
      split
      · rfl
      · next p _ =>
        split
        · next older => rw [ih p older, List.map_cons]
        · rfl

theorem lookupSlot_rename (id : Nat) (slot : Slot) :
    (a.rename f).lookupSlot id slot = (a.lookupSlot id slot).map (Value.rename f) := by
  unfold lookupSlot
  rw [lineage_rename, List.findSome?_map, List.map_findSome?]
  refine congrArg (fun g => List.findSome? g _) (funext fun b => ?_)
  exact Assoc.find?_mapValues _ b.slots slot

theorem lookupVariable_rename (id : Nat) (name : String) :
    (a.rename f).lookupVariable id name = (a.lookupVariable id name).map (Value.rename f) := by
  unfold lookupVariable
  rw [lineage_rename, List.findSome?_map, List.map_findSome?]
  refine congrArg (fun g => List.findSome? g _) (funext fun b => ?_)
  exact Assoc.find?_mapValues _ b.locals name

theorem scope_rename (id : Nat) : (a.rename f).scope id = a.scope id := by
  apply scope_eq
  rw [lineage_rename, List.map_map]
  rfl

theorem covers_holds : Covers f (fun l => a.holds l) (fun l => (a.rename f).holds l) := by
  intro l
  simp only [holds_iff, branch?_rename, Option.map_eq_some_iff]
  constructor
  · rintro ⟨id, _, ⟨b, found, rfl⟩, held⟩
    obtain ⟨k, hk, held⟩ := (b.covers_holds f l).1 held
    exact ⟨k, hk, id, b, found, held⟩
  · rintro ⟨k, hk, id, b, found, held⟩
    exact ⟨id, _, ⟨b, found, rfl⟩, (b.covers_holds f l).2 ⟨k, hk, held⟩⟩

/-! ### What stays held -/

/-- The object `l` is on the stack of a branch, or is a property of one that is. -/
def Stacks (a : Arena) (l : Nat) : Prop :=
  ∃ id b, a.branch? id = some b ∧ b.stack.any (·.reaches l) = true

/-- All objects of `s` are on stacks. -/
def Keeps (s : Nat → Prop) (a : Arena) : Prop := ∀ l, s l → a.Stacks l

variable {a} {s : Nat → Prop}

theorem Stacks.holds {l : Nat} (h : a.Stacks l) : a.holds l = true := by
  obtain ⟨id, b, found, held⟩ := h
  refine holds_iff.2 ⟨id, b, found, ?_⟩
  simp only [Branch.holds, held, Bool.or_true, Bool.true_or]

theorem Keeps.push (h : a.Keeps s) (b : Branch) : (a.push b).Keeps s := by
  intro l hl
  obtain ⟨id, b', found, held⟩ := h l hl
  exact ⟨id, b', (a.branch?_push_of_lt b (lt_size_of_branch? found)).trans found, held⟩

theorem Keeps.modify (h : a.Keeps s) (id : Nat) {g : Branch → Branch}
    (grows : ∀ b, ∀ v ∈ b.stack, v ∈ (g b).stack) : (a.modify id g).Keeps s := by
  intro l hl
  obtain ⟨other, b, found, held⟩ := h l hl
  obtain ⟨v, hv, reached⟩ := List.any_eq_true.1 held
  by_cases same : id = other
  · refine ⟨other, g b, ?_, List.any_eq_true.2 ⟨v, grows b v hv, reached⟩⟩
    rw [branch?_modify, if_pos same, found, Option.map_some]
  · exact ⟨other, b, (a.branch?_modify_of_ne g same).trans found, held⟩

end Arena

namespace Memory

def rename (f : Nat → Nat) (m : Memory) : Memory :=
  { m with
    results := Assoc.mapValues (List.map (Value.rename f)) m.results
    nextLabel := f m.nextLabel }

variable (f : Nat → Nat) (m : Memory)

theorem find?_rename (key : MemoKey) :
    (m.rename f).find? key = (m.find? key).map (List.map (Value.rename f)) :=
  Assoc.find?_mapValues _ _ _

theorem remember_rename (key : MemoKey) (values : List Value) :
    (m.rename f).remember key (values.map (Value.rename f)) = (m.remember key values).rename f := by
  simp only [remember, rename, Assoc.insert_mapValues]

/-- All values that are kept as results. -/
def values (m : Memory) : List Value := m.results.flatMap Prod.snd

theorem covers_holds : Covers f (fun l => m.holds l) (fun l => (m.rename f).holds l) := by
  have kept (m : Memory) (l : Nat) : m.holds l = m.values.any (·.reaches l) := by
    simp only [holds, values, List.any_flatMap]
  have renamed : (m.rename f).values = m.values.map (Value.rename f) := by
    simp only [values, rename, Assoc.mapValues, List.flatMap_map, List.map_flatMap]
  simp only [kept, renamed]
  exact covers_any f _

end Memory

/-! ## What is held -/

/-- What is held around a path is held, renamed, around the renamed path, and so is beforehand
whatever the renaming merges. -/
structure Context.Renames (f : Nat → Nat) (c c' : Context) : Prop where
  symbols : c'.symbols = c.symbols
  options : c'.options = c.options
  held : ∀ l, c'.held (f l) = c.held l
  merged : ∀ k l, f k = f l → k ≠ l → c.held l = true

namespace Context.Renames

variable {f : Nat → Nat} {n : Nat} {c c' : Context}

theorem or_held (h : c.Renames f c') {p p' : Nat → Bool} (covers : Covers f p p') (l : Nat) :
    (p' (f l) || c'.held (f l)) = (p l || c.held l) := by
  rw [h.held l]
  by_cases held : c.held l = true
  · simp only [held, Bool.or_true]
  · rw [Bool.eq_iff_iff, Bool.or_eq_true, Bool.or_eq_true, covers (f l)]
    refine or_congr_left ⟨?_, fun hp => ⟨l, rfl, hp⟩⟩
    rintro ⟨k, same, hp⟩
    by_cases other : k = l
    · exact other ▸ hp
    · exact absurd (h.merged k l same other) held

theorem enter (h : c.Renames f c') (a : Arena) : (c.enter a).Renames f (c'.enter (a.rename f)) where
  symbols := h.symbols
  options := h.options
  held l := h.or_held (a.covers_holds f) l
  merged k l same other := by
    show (a.holds l || c.held l) = true
    rw [h.merged k l same other, Bool.or_true]

theorem await (h : c.Renames f c') (values : List Value) :
    (c.await values).Renames f (c'.await (values.map (rename f))) where
  symbols := h.symbols
  options := h.options
  held l := h.or_held (covers_any f values) l
  merged k l same other := by
    show (values.any (·.reaches l) || c.held l) = true
    rw [h.merged k l same other, Bool.or_true]

theorem holds (r : Renaming f n) (h : c.Renames f c') (m : Memory) (l : Nat) :
    c'.holds (m.rename f) (f l) = c.holds m l := by
  have named : (f l != 0) = (l != 0) := by
    rw [Bool.eq_iff_iff, bne_iff_ne, bne_iff_ne]
    exact not_congr (r.zero l)
  unfold Context.holds
  rw [named, Bool.or_comm (c'.held _), Bool.or_comm (c.held _), h.or_held (m.covers_holds f) l]

end Context.Renames

/-- Bodies that are entered from a path have what is held around it renamed, whatever the arena of
the path has become, as long as the objects of `s` are on its stacks. -/
structure Context.RenamesOver (f : Nat → Nat) (s : Nat → Prop) (c c' : Context) : Prop where
  symbols : c'.symbols = c.symbols
  options : c'.options = c.options
  enter : ∀ a : Arena, a.Keeps s → (c.enter a).Renames f (c'.enter (a.rename f))

namespace Context

variable {f : Nat → Nat} {s : Nat → Prop} {c c' : Context}

theorem Renames.renamesOver (h : c.Renames f c') : c.RenamesOver f s c' where
  symbols := h.symbols
  options := h.options
  enter a _ := h.enter a

theorem enter_await (c : Context) (values : List Value) (a : Arena) :
    (c.await values).enter a = (c.enter a).await values := by
  unfold enter await
  congr 1
  funext l
  exact Bool.or_left_comm _ _ _

theorem RenamesOver.await (h : c.RenamesOver f s c') (values : List Value) :
    (c.await values).RenamesOver f s (c'.await (values.map (rename f))) where
  symbols := h.symbols
  options := h.options
  enter a keeps := by
    rw [enter_await, enter_await]
    exact (h.enter a keeps).await values

end Context

/-! ## Programs -/

namespace Analysis

variable {f : Nat → Nat} {n : Nat} {α β γ δ : Type}

/-- From a renamed memory `y` gives what `x` gives from the memory itself, seen through `g`, and
leaves behind what `x` leaves, renamed. -/
def Renames (f : Nat → Nat) (n : Nat) (g : α → β) (x : Analysis α) (y : Analysis β) : Prop :=
  ∀ m, n ≤ m.nextLabel → n ≤ (x.run m).2.nextLabel ∧
    y.run (m.rename f) = (g (x.run m).1, (x.run m).2.rename f)

theorem renames_pure {g : α → β} {v : α} {w : β} (h : w = g v) :
    Renames f n g (pure v) (pure w) := fun _ late => ⟨late, h ▸ rfl⟩

theorem renames_bind {g : α → β} {g' : γ → δ} {x : Analysis α} {y : Analysis β}
    {k : α → Analysis γ} {k' : β → Analysis δ} (h : Renames f n g x y)
    (h' : ∀ v, Renames f n g' (k v) (k' (g v))) : Renames f n g' (x >>= k) (y >>= k') := by
  intro m late
  obtain ⟨later, same⟩ := h m late
  rw [StateT.run_bind, run_bind_of_eq same]
  exact h' _ _ later

theorem renames_get {g : α → β} {k : Memory → Analysis α} {k' : Memory → Analysis β}
    (h : ∀ m, Renames f n g (k m) (k' (m.rename f))) : Renames f n g (get >>= k) (get >>= k') :=
  fun m late => h m m late

theorem renames_modify {u u' : Memory → Memory}
    (h : ∀ m, n ≤ m.nextLabel → n ≤ (u m).nextLabel ∧ u' (m.rename f) = (u m).rename f) :
    Renames f n (fun u => u) (modify u) (modify u') := by
  intro m late
  obtain ⟨later, same⟩ := h m late
  exact ⟨later, congrArg ((), ·) same⟩

theorem renames_report (finding : Finding) (span : Span) :
    Renames f n (fun u => u) (report finding span) (report finding span) :=
  renames_modify fun _ late => ⟨late, rfl⟩

theorem renames_fresh (r : Renaming f n) (v : Value) :
    Renames f n (rename f) (fresh v) (fresh (v.rename f)) := by
  intro m late
  obtain ⟨later, same⟩ := Value.place_rename r v m.nextLabel late
  refine ⟨later, ?_⟩
  show (m.rename f).place (v.rename f) = ((m.place v).1.rename f, (m.place v).2.rename f)
  unfold Memory.place
  rw [show (m.rename f).nextLabel = f m.nextLabel from rfl, same]
  rfl

theorem renames_all_fresh (r : Renaming f n) (values : List Value) :
    Renames f n (List.map (rename f)) (values.mapM fresh) ((values.map (rename f)).mapM fresh) := by
  induction values with
  | nil => exact renames_pure rfl
  | cons v rest ih =>
    rw [List.map_cons, List.mapM_cons, List.mapM_cons]
    exact renames_bind (renames_fresh r v) fun _ => renames_bind ih fun _ => renames_pure rfl

theorem renames_settle (r : Renaming f n) (found : Except Finding Value) (span : Span) :
    Renames f n (rename f) (settle found span) (settle (found.map (rename f)) span) := by
  cases found with
  | ok v => exact renames_pure rfl
  | error e => exact renames_bind (renames_report e span) fun _ =>
      renames_pure (Value.rename_any r).symm

theorem renames_reportLowering (e : LowerError) :
    Renames f n (fun u => u) (reportLowering e) (reportLowering e) :=
  renames_modify fun _ late => ⟨late, rfl⟩

theorem renames_body (t : SymbolTable) (id : Nat) :
    Renames f n (fun code => code) (body t id) (body t id) := by
  unfold body
  refine renames_get fun m => ?_
  rw [show (m.rename f).bodies = m.bodies from rfl]
  cases Assoc.find? m.bodies id with
  | some kept => exact renames_pure rfl
  | none =>
    have keep (made : Option Code) : Renames f n (fun code => code)
        (do modify fun m => { m with bodies := Assoc.insert m.bodies id made }; return made)
        (do modify fun m => { m with bodies := Assoc.insert m.bodies id made }; return made) := by
      refine renames_bind (renames_modify fun m late => ?_) fun _ => renames_pure rfl
      exact ⟨late, rfl⟩
    dsimp only
    split
    · exact keep _
    · exact renames_bind (renames_reportLowering _) fun _ => keep none

/-! ## Calls -/

section Calls

variable {c c' : Context}

def Request.rename (f : Nat → Nat) : Request → Request
  | answered values => .answered (values.map (Value.rename f))
  | enter id receiver => .enter id (receiver.map (Value.rename f))

theorem map_type_rename (f : Nat → Nat) (values : List Value) :
    (values.map (rename f)).map Value.type = values.map Value.type := by
  simp only [List.map_map, Function.comp_def, Value.type_rename]

theorem renames_reportFault (fault : Option Finding) (span : Span) :
    Renames f n (fun u => u) (reportFault fault span) (reportFault fault span) := by
  cases fault with
  | none => exact renames_pure rfl
  | some e => exact renames_report e span

theorem renames_construct (r : Renaming f n) (h : c.Renames f c') (id : Nat)
    (arguments : List Value) (span : Span) :
    Renames f n (List.map (rename f)) (construct c id arguments span)
      (construct c' id (arguments.map (rename f)) span) := by
  unfold construct
  rw [map_type_rename, h.symbols]
  refine renames_bind (renames_reportFault _ span) fun _ => renames_pure ?_
  rw [List.map_singleton, Value.rename_ofType r]

theorem renames_receiver? (r : Renaming f n) (h : c.Renames f c') (callee : Value) :
    Renames f n (Option.map (rename f)) (receiver? c callee) (receiver? c' (callee.rename f)) := by
  unfold receiver?
  refine renames_get fun m => renames_pure ?_
  rw [Value.target_rename]
  cases callee.target with
  | none => rfl
  | some receiver =>
    have held := h.holds r m receiver.label
    rw [← Value.label_rename f receiver] at held
    simp only [Option.map_some, Option.filter_some, held]
    split <;> rfl

theorem renames_requestMembers (r : Renaming f n) (h : c.Renames f c') (callee : Value)
    (members : List Member) (arguments : List Value) (span : Span) :
    Renames f n (Request.rename f) (requestMembers c callee members arguments span)
      (requestMembers c' (callee.rename f) members (arguments.map (rename f)) span) := by
  unfold requestMembers
  rw [map_type_rename, h.symbols]
  dsimp only
  have unknown : Request.answered [.any] = Request.rename f (.answered [.any]) :=
    congrArg (Request.answered [·]) (Value.rename_any r).symm
  split
  · exact renames_pure unknown
  · next choice _ =>
    refine renames_bind (renames_reportFault _ span) fun _ => ?_
    split
    · exact renames_bind (renames_receiver? r h callee) fun _ => renames_pure rfl
    · exact renames_pure (congrArg (Request.answered [·]) (Value.rename_ofType r _).symm)
    · exact renames_pure unknown

theorem renames_request (r : Renaming f n) (h : c.Renames f c') (callee : Value)
    (arguments : List Value) (span : Span) :
    Renames f n (Request.rename f) (request c callee arguments span)
      (request c' (callee.rename f) (arguments.map (rename f)) span) := by
  unfold request
  rw [Value.members_rename, Value.type_rename]
  have unknown : Request.answered [.any] = Request.rename f (.answered [.any]) :=
    congrArg (Request.answered [·]) (Value.rename_any r).symm
  split
  · exact renames_bind (renames_construct r h _ arguments span) fun _ => renames_pure rfl
  · exact renames_requestMembers r h callee _ arguments span
  · split
    · exact renames_pure unknown
    · exact renames_pure unknown
    · exact renames_bind (renames_report _ span) fun _ => renames_pure unknown

/-- Entering a body goes through in step, whatever is held around it. -/
def Steady (f : Nat → Nat) (n : Nat) (invoke : Invoke) : Prop :=
  ∀ ⦃c c'⦄, c.Renames f c' → ∀ id receiver arguments span,
    Renames f n (List.map (rename f)) (invoke c id receiver arguments span)
      (invoke c' id (receiver.map (rename f)) (arguments.map (rename f)) span)

theorem renames_call {invoke : Invoke} (r : Renaming f n) (steady : Steady f n invoke)
    (h : c.Renames f c') (callee : Value) (arguments : List Value) (span : Span) :
    Renames f n (List.map (rename f)) (call invoke c callee arguments span)
      (call invoke c' (callee.rename f) (arguments.map (rename f)) span) := by
  unfold call
  refine renames_bind (renames_request r h callee arguments span) fun request => ?_
  cases request with
  | answered values => exact renames_pure rfl
  | enter id receiver => exact steady h id receiver arguments span

end Calls

end Analysis

/-! ## Walks -/

def Next.rename (f : Nat → Nat) : Next → Next
  | next index => .next index
  | stop termination v => .stop termination (v.rename f)
  | split starts => .split starts
  | spread slot values index => .spread slot (values.map (Value.rename f)) index

namespace Walk

open Analysis (Steady)

variable {f : Nat → Nat} {n : Nat} {s : Nat → Prop} {α β γ δ : Type}

/-- From a renamed arena and memory `y` gives what `x` gives, seen through `g`, and leaves behind what
`x` leaves, renamed.  The objects of `s` stay on the stacks. -/
def Renames (f : Nat → Nat) (n : Nat) (s : Nat → Prop) (g : α → β) (x : Walk α) (y : Walk β) :
    Prop :=
  ∀ (a : Arena) (m : Memory), a.Keeps s → n ≤ m.nextLabel →
    ((x.run a).run m).1.2.Keeps s ∧ n ≤ ((x.run a).run m).2.nextLabel ∧
      (y.run (a.rename f)).run (m.rename f) =
        ((g ((x.run a).run m).1.1, ((x.run a).run m).1.2.rename f), ((x.run a).run m).2.rename f)

theorem renames_pure {g : α → β} {v : α} {w : β} (h : w = g v) :
    Renames f n s g (pure v) (pure w) := fun _ _ keeps late => ⟨keeps, late, h ▸ rfl⟩

theorem renames_bind {g : α → β} {g' : γ → δ} {x : Walk α} {y : Walk β} {k : α → Walk γ}
    {k' : β → Walk δ} (h : Renames f n s g x y) (h' : ∀ v, Renames f n s g' (k v) (k' (g v))) :
    Renames f n s g' (x >>= k) (y >>= k') := by
  intro a m keeps late
  obtain ⟨kept, later, same⟩ := h a m keeps late
  obtain ⟨keptBehind, laterBehind, sameBehind⟩ := h' _ _ _ kept later
  refine ⟨keptBehind, laterBehind, Eq.trans ?_ sameBehind⟩
  rw [StateT.run_bind, Analysis.run_bind_of_eq same]
  rfl

theorem renames_lift {g : α → β} {x : Analysis α} {y : Analysis β} (h : Analysis.Renames f n g x y) :
    Renames f n s g (liftM x) (liftM y) := by
  intro a m keeps late
  obtain ⟨later, same⟩ := h m late
  refine ⟨keeps, later, ?_⟩
  show (((y.run (m.rename f)).1, a.rename f), (y.run (m.rename f)).2) = _
  rw [same]
  rfl

theorem renames_get {g : α → β} {k : Arena → Walk α} {k' : Arena → Walk β}
    (h : ∀ a : Arena, a.Keeps s → Renames f n s g (k a) (k' (a.rename f))) :
    Renames f n s g (get >>= k) (get >>= k') :=
  fun a m keeps late => h a keeps a m keeps late

theorem renames_modify {u u' : Arena → Arena} (h : ∀ a, u' (a.rename f) = (u a).rename f)
    (keeps : ∀ a : Arena, a.Keeps s → (u a).Keeps s) :
    Renames f n s (fun v => v) (modify u) (modify u') :=
  fun a _ kept late => ⟨keeps a kept, late, congrArg (fun a => (((), a), _)) (h a)⟩

section Programs

variable {c c' : Context} (r : Renaming f n)
include r

omit r in
theorem renames_report (finding : Finding) (span : Span) :
    Renames f n s (fun u => u) (report finding span) (report finding span) :=
  renames_lift (Analysis.renames_report finding span)

theorem renames_fresh (v : Value) : Renames f n s (rename f) (fresh v) (fresh (v.rename f)) :=
  renames_lift (Analysis.renames_fresh r v)

theorem renames_bindSlot (id : Nat) (slot : Slot) (v : Value) :
    Renames f n s (fun u => u) (bindSlot id slot v) (bindSlot id slot (v.rename f)) :=
  renames_bind (renames_fresh r v) fun v => renames_modify
    (fun a => a.modify_rename f id fun b => b.bindSlot_rename f slot v)
    fun _ kept => kept.modify id fun _ _ hw => List.mem_cons_of_mem v hw

theorem renames_rebindSlot (id : Nat) (slot : Slot) (v : Value) :
    Renames f n s (fun u => u) (rebindSlot id slot v) (rebindSlot id slot (v.rename f)) :=
  renames_bind (renames_fresh r v) fun v => renames_modify
    (fun a => a.modify_rename f id fun b => b.rebindSlot_rename f slot v)
    fun _ kept => kept.modify id fun _ _ hw => hw

theorem renames_bindVariable (id : Nat) (name : String) (v : Value) :
    Renames f n s (fun u => u) (bindVariable id name v) (bindVariable id name (v.rename f)) :=
  renames_bind (renames_fresh r v) fun v => renames_modify
    (fun a => a.modify_rename f id fun b => b.bindVariable_rename f name v)
    fun _ kept => kept.modify id fun _ _ hw => hw

theorem renames_finish (id : Nat) (termination : Termination) (v : Value) :
    Renames f n s (fun u => u) (finish id termination v) (finish id termination (v.rename f)) :=
  renames_bind (renames_fresh r v) fun _ => renames_modify
    (fun a => a.modify_rename f id fun _ => rfl)
    fun _ kept => kept.modify id fun _ _ hw => hw

omit r in
theorem renames_child (id : Nat) : Renames f n s (fun u => u) (child id) (child id) := by
  intro a m kept late
  refine ⟨kept.push _, late, ?_⟩
  show (((a.rename f).size, (a.rename f).child id), m.rename f) =
    ((a.size, (a.child id).rename f), m.rename f)
  rw [a.size_rename, a.child_rename]

theorem renames_operand (id : Nat) (span : Span) (slot : Slot) :
    Renames f n s (rename f) (operand id span slot) (operand id span slot) := by
  refine renames_get fun a kept => ?_
  rw [a.lookupSlot_rename]
  cases a.lookupSlot id slot with
  | some v => exact renames_pure rfl
  | none =>
    have unknown := renames_fresh r (s := s) .any
    rw [Value.rename_any r] at unknown
    exact renames_bind (renames_report _ span) fun _ => unknown

theorem renames_operands (id : Nat) (span : Span) (slots : List Slot) :
    Renames f n s (List.map (rename f)) (slots.mapM (operand id span))
      (slots.mapM (operand id span)) := by
  induction slots with
  | nil => exact renames_pure rfl
  | cons slot rest ih =>
    rw [List.mapM_cons]
    exact renames_bind (renames_operand r id span slot) fun _ =>
      renames_bind ih fun _ => renames_pure rfl

theorem renames_latest (id : Nat) : Renames f n s (rename f) (latest id) (latest id) := by
  refine renames_get fun a kept => renames_pure ?_
  rw [a.branch?_rename]
  cases a.branch? id with
  | none => exact (Value.rename_ofLiteral r _).symm
  | some b =>
    show ((b.stack.map (rename f)).head?).getD .nil = (b.stack.head?.getD .nil).rename f
    cases b.stack with
    | nil => exact (Value.rename_ofLiteral r _).symm
    | cons v rest => rfl

theorem renames_settle (found : Except Finding Value) (span : Span) :
    Renames f n s (rename f) (settle found span) (settle (found.map (rename f)) span) :=
  renames_lift (Analysis.renames_settle r found span)

theorem renames_load (h : c.RenamesOver f s c') (id : Nat) (span : Span) (name : String) :
    Renames f n s (rename f) (load c id span name) (load c' id span name) := by
  refine renames_get fun a kept => ?_
  rw [a.lookupVariable_rename, a.lookupVariable_rename, a.scope_rename, h.symbols]
  cases a.lookupVariable id name with
  | some v => exact renames_pure rfl
  | none =>
    have found := renames_settle r (s := s)
      (c.symbols.named (a.scope id).owner (a.lookupVariable id "self") name) span
    rw [← named_rename r] at found
    exact found

theorem renames_loadMember (h : c.RenamesOver f s c') (id : Nat) (span : Span) (slot : Slot)
    (name : String) :
    Renames f n s (rename f) (loadMember c id span slot name) (loadMember c' id span slot name) := by
  refine renames_bind (renames_operand r id span slot) fun target => ?_
  rw [Value.property?_rename, h.symbols, member_rename r]
  cases target.property? name with
  | some kept => exact renames_pure rfl
  | none =>
    cases c.symbols.member target name with
    | error e => exact renames_settle r (.error e) span
    | ok v =>
      refine renames_bind (renames_fresh r v) fun v => ?_
      have rebound := renames_rebindSlot r (s := s) id slot (target.copy.setProperty name v)
      rw [← Value.setProperty_rename, ← Value.copy_rename r] at rebound
      exact renames_bind rebound fun _ => renames_pure rfl

theorem renames_results {invoke : Invoke} (steady : Steady f n invoke) (h : c.RenamesOver f s c')
    (id : Nat) (span : Span) (callee : Slot) (arguments : List Slot) :
    Renames f n s (List.map (rename f)) (results invoke c id span callee arguments)
      (results invoke c' id span callee arguments) :=
  renames_bind (renames_operand r id span callee) fun _ =>
    renames_bind (renames_operands r id span arguments) fun _ => renames_get fun a kept =>
      renames_lift (Analysis.renames_call r steady (h.enter a kept) _ _ span)

omit r in
theorem renames_fork (options : AnalysisOptions) (id target index : Nat) :
    Renames f n s (Next.rename f) (fork options id target index) (fork options id target index) := by
  refine renames_get fun a kept => ?_
  rw [a.size_rename]
  split
  · exact renames_pure rfl
  · split
    · exact renames_bind (renames_child id) fun _ => renames_bind (renames_child id) fun _ =>
        renames_pure rfl
    · exact renames_bind (renames_child id) fun _ => renames_pure rfl

theorem affordable_rename (options : AnalysisOptions) (size : Nat) (values : List Value) :
    affordable options size (values.map (rename f)) =
      (affordable options size values).map (rename f) := by
  unfold affordable
  rw [List.length_map, Analysis.map_type_rename]
  split
  · rw [List.map_singleton, Value.rename_ofType r]
  · rfl

theorem renames_continueWith (id : Nat) (slot : Slot) (values : List Value) (index : Nat) :
    Renames f n s (Next.rename f) (continueWith id slot values index)
      (continueWith id slot (values.map (rename f)) index) := by
  rcases values with _ | ⟨v, _ | ⟨w, rest⟩⟩
  · have bound := renames_bindSlot r (s := s) id slot .any
    rw [Value.rename_any r] at bound
    exact renames_bind bound fun _ => renames_pure rfl
  · exact renames_bind (renames_bindSlot r id slot v) fun _ => renames_pure rfl
  · exact renames_pure rfl

theorem renames_execute {invoke : Invoke} (steady : Steady f n invoke) (h : c.RenamesOver f s c')
    (id index : Nat) (step : Step) :
    Renames f n s (Next.rename f) (execute invoke c id index step)
      (execute invoke c' id index step) := by
  obtain ⟨instr, span⟩ := step
  have next (slot : Slot) (v : Value) :
      Renames f n s (Next.rename f) (do bindSlot id slot v; return .next (index + 1))
        (do bindSlot id slot (v.rename f); return .next (index + 1)) :=
    renames_bind (renames_bindSlot r id slot v) fun _ => renames_pure rfl
  unfold execute
  cases instr with
  | const slot l =>
    have bound := next slot (.ofLiteral l)
    rw [Value.rename_ofLiteral r] at bound
    exact bound
  | unary slot op x =>
    refine renames_bind (renames_operand r id span x) fun v => ?_
    rw [Value.unary_rename r]
    exact next slot _
  | binary slot x op y =>
    refine renames_bind (renames_operand r id span x) fun v => ?_
    refine renames_bind (renames_operand r id span y) fun w => ?_
    have bound := next slot ((Value.binary op v w).getD .any)
    rw [show ((Value.binary op v w).getD .any).rename f =
      (Value.binary op (v.rename f) (w.rename f)).getD .any by
        rw [Value.binary_rename r]
        cases Value.binary op v w with
        | none => exact Value.rename_any r
        | some z => rfl] at bound
    exact bound
  | goto target => exact renames_pure rfl
  | gotoIf target condition expected =>
    dsimp only
    rw [h.options]
    exact renames_bind (renames_operand r id span condition) fun _ => renames_fork _ id target _
  | call slot callee arguments =>
    refine renames_bind (renames_results r steady h id span callee arguments) fun values => ?_
    refine renames_get fun a kept => ?_
    rw [h.options, a.size_rename, affordable_rename r]
    exact renames_continueWith r id slot _ _
  | load slot name => exact renames_bind (renames_load r h id span name) fun v => next slot v
  | member slot target name =>
    exact renames_bind (renames_loadMember r h id span target name) fun v => next slot v
  | index slot target key =>
    refine renames_bind (renames_operand r id span target) fun v => ?_
    refine renames_bind (renames_operand r id span key) fun w => ?_
    dsimp only
    rw [h.symbols, element_rename r]
    exact renames_bind (renames_settle r _ span) fun v => next slot v
  | store name value =>
    refine renames_bind (renames_operand r id span value) fun v => ?_
    exact renames_bind (renames_bindVariable r id name v) fun _ => renames_pure rfl
  | ret value =>
    cases value with
    | some value =>
      exact renames_bind (renames_operand r id span value) fun _ => renames_pure rfl
    | none => exact renames_bind (renames_latest r id) fun _ => renames_pure rfl

omit r in
theorem renames_arrive (id index : Nat) :
    Renames f n s (fun u => u) (arrive id index) (arrive id index) := by
  intro a m kept late
  refine ⟨kept.modify id fun _ _ hv => hv, late, congrArg (·, m.rename f) ?_⟩
  have counted : ((a.rename f).modify id (·.visit index)) =
      (a.modify id (·.visit index)).rename f := a.modify_rename f id fun _ => rfl
  show (a.rename f).visit id index = Prod.map (fun u => u) (Arena.rename f) (a.visit id index)
  unfold Arena.visit
  dsimp only
  rw [counted, Arena.branch?_rename]
  cases (a.modify id (·.visit index)).branch? id <;> rfl

theorem renames_step {invoke : Invoke} (steady : Steady f n invoke) (h : c.RenamesOver f s c')
    (steps : Array Step) (id index : Nat) :
    Renames f n s (Next.rename f) (step invoke c steps id index) (step invoke c' steps id index) := by
  unfold step
  cases steps[index]? with
  | none => exact renames_bind (renames_latest r id) fun _ => renames_pure rfl
  | some instruction =>
    refine renames_bind (renames_arrive id index) fun first => ?_
    cases first with
    | true => exact renames_execute r steady h id index instruction
    | false =>
      refine renames_get fun a kept => ?_
      have named : bodyName c'.symbols (a.rename f) id = bodyName c.symbols a id := by
        unfold bodyName
        rw [a.scope_rename, h.symbols]
      rw [named]
      refine renames_bind (renames_report _ instruction.span) fun _ => renames_pure ?_
      exact congrArg (Next.stop .loopCutoff) (Value.rename_any r).symm

omit r in
theorem renames_walkAll {walk walk' : Nat → Nat → Walk (List Nat)}
    (h : ∀ id index, Renames f n s (fun ids => ids) (walk id index) (walk' id index))
    (starts : List (Nat × Nat)) :
    Renames f n s (fun ids => ids) (walkAll walk starts) (walkAll walk' starts) := by
  induction starts with
  | nil => exact renames_pure rfl
  | cons start rest ih =>
    exact renames_bind (h start.1 start.2) fun _ => renames_bind ih fun _ => renames_pure rfl

theorem renames_walkEach {walk : Context → Nat → Walk (List Nat)}
    (paths : ∀ c c' id, c.RenamesOver f s c' → Renames f n s (fun ids => ids) (walk c id) (walk c' id))
    (h : c.RenamesOver f s c') (id : Nat) (slot : Slot) (values : List Value) :
    Renames f n s (fun ids => ids) (walkEach walk c id slot values)
      (walkEach walk c' id slot (values.map (rename f))) := by
  induction values with
  | nil => exact renames_pure rfl
  | cons v rest ih =>
    refine renames_bind (renames_child id) fun branch => ?_
    refine renames_bind (renames_bindSlot r branch slot v) fun _ => ?_
    exact renames_bind (paths _ _ branch (h.await rest)) fun _ =>
      renames_bind ih fun _ => renames_pure rfl

/-- A walk ends on the same branches. -/
theorem renames_walk {invoke : Invoke} (steady : Steady f n invoke) (steps : Array Step)
    (fuel : Nat) : ∀ {c c' : Context}, c.RenamesOver f s c' → ∀ id index,
      Renames f n s (fun ids => ids) (walk invoke steps fuel c id index)
        (walk invoke steps fuel c' id index) := by
  induction fuel with
  | zero =>
    intro c c' _ id index
    have finished := renames_finish r (s := s) id .loopCutoff .any
    rw [Value.rename_any r] at finished
    exact renames_bind finished fun _ => renames_pure rfl
  | succ fuel ih =>
    intro c c' h id index
    unfold walk
    refine renames_bind (renames_step r steady h steps id index) fun next => ?_
    cases next with
    | next index => exact ih h id index
    | stop termination v =>
      exact renames_bind (renames_finish r id termination v) fun _ => renames_pure rfl
    | split starts => exact renames_walkAll (fun id index => ih h id index) starts
    | spread slot values index =>
      exact renames_walkEach r (fun _ _ branch h => ih h branch index) h id slot values

theorem renames_openRoot (scope : Scope) (locals : List (String × Value)) :
    Renames f n s (fun u => u) (openRoot scope locals)
      (openRoot scope (Assoc.mapValues (rename f) locals)) := by
  refine renames_bind (renames_modify
    (fun a => a.push_rename f (.fresh (.root scope) [])) fun _ kept => kept.push _) fun _ => ?_
  induction locals with
  | nil => exact renames_pure rfl
  | cons p rest ih => exact renames_bind (renames_bindVariable r 0 p.1 p.2) fun _ => ih

end Programs

end Walk

end PathTyping
