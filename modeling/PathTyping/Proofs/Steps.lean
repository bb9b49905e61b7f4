import PathTyping.Walk

/-!
# What a step does

A walk is made of programs on an arena and a memory.  What such a program gives is told by `Gives`;
what it does to both is derived once, for any relation that admits the few things that programs are
made of.

1. An instruction reports, makes objects, calls and binds on its own branch, and only then prepares
   the arena for how its path goes on (`Admits.execute`).
2. A step leaves the code, comes back to an instruction, or executes one for the first time
   (`step_cases`).
3. It changes its own branch and adds children of it (`step_goes`).
-/

namespace PathTyping

/-! ## What a program gives -/

/-- From `s` on, `x` gives `v` and leaves `s'` behind. -/
def Gives {σ α : Type} (x : StateT σ Analysis α) (s : σ × Memory) (v : α) (s' : σ × Memory) :
    Prop :=
  (x.run s.1).run s.2 = ((v, s'.1), s'.2)

section Gives

variable {σ α β : Type} {x : StateT σ Analysis α} {f : α → StateT σ Analysis β}
  {s s' s'' : σ × Memory} {v : α} {w : β}

theorem gives_pure_iff {u : α} :
    Gives (pure u : StateT σ Analysis α) s v s' ↔ v = u ∧ s' = s := by
  obtain ⟨a', m'⟩ := s'
  refine ⟨fun h => ?_, fun ⟨hv, hs⟩ => hv ▸ hs ▸ rfl⟩
  cases h
  exact ⟨rfl, rfl⟩

theorem gives_get_iff {t : σ} :
    Gives (get : StateT σ Analysis σ) s t s' ↔ t = s.1 ∧ s' = s := by
  obtain ⟨a', m'⟩ := s'
  refine ⟨fun h => ?_, fun ⟨ht, hs⟩ => ht ▸ hs ▸ rfl⟩
  cases h
  exact ⟨rfl, rfl⟩

theorem gives_modify_iff {g : σ → σ} {u : Unit} :
    Gives (modify g : StateT σ Analysis Unit) s u s' ↔ s' = (g s.1, s.2) := by
  obtain ⟨a', m'⟩ := s'
  refine ⟨fun h => ?_, fun hs => hs ▸ rfl⟩
  cases h
  rfl

theorem gives_lift_iff {y : Analysis α} :
    Gives (liftM y : StateT σ Analysis α) s v s' ↔
      s' = (s.1, (y.run s.2).2) ∧ v = (y.run s.2).1 := by
  obtain ⟨a', m'⟩ := s'
  refine ⟨fun h => ?_, fun ⟨hs, hv⟩ => hv ▸ hs ▸ rfl⟩
  cases h
  exact ⟨rfl, rfl⟩

theorem gives_some (x : StateT σ Analysis α) (s : σ × Memory) : ∃ v s', Gives x s v s' :=
  ⟨_, (_, _), rfl⟩

theorem gives_bind (h : Gives x s v s') (h' : Gives (f v) s' w s'') :
    Gives (x >>= f) s w s'' := by
  rw [Gives, StateT.run_bind, StateT.run_bind, h]
  exact h'

theorem gives_bind_iff :
    Gives (x >>= f) s w s'' ↔ ∃ v s', Gives x s v s' ∧ Gives (f v) s' w s'' :=
  ⟨fun h => ⟨_, (_, _), rfl, h⟩, fun ⟨_, _, h, h'⟩ => gives_bind h h'⟩

theorem Gives.unique {u : α} (h : Gives x s v s') (h' : Gives x s u s'') :
    v = u ∧ s' = s'' := by
  obtain ⟨a', m'⟩ := s'
  obtain ⟨a'', m''⟩ := s''
  cases h.symm.trans h'
  exact ⟨rfl, rfl⟩

end Gives

namespace Walk

variable {α β : Type}

abbrev State := Arena × Memory

/-! ## What an instruction does before its path goes on -/

/-- Of a branch, only the bindings are changed. -/
structure Binds (f : Branch → Branch) : Prop where
  parent : ∀ b, (f b).parent = b.parent
  visited : ∀ b, (f b).visited = b.visited
  looped : ∀ b, (f b).looped = b.looped
  termination : ∀ b, (f b).termination = b.termination
  returned : ∀ b, (f b).returned = b.returned

/-- Reports, new objects, bindings on branch `id` and calls respect the relation. -/
structure Admits (invoke : Invoke) (id : Nat) (R : State → State → Prop) : Prop where
  refl : ∀ s, R s s
  trans : ∀ {s s' s''}, R s s' → R s' s'' → R s s''
  report : ∀ a m d, R (a, m) (a, m.add d)
  place : ∀ a m v, R (a, m) (a, (m.place v).2)
  bind : ∀ a m f, Binds f → R (a, m) (a.modify id f, m)
  invoke : ∀ a m ctx id receiver arguments span,
    R (a, m) (a, ((invoke ctx id receiver arguments span).run m).2)

/-- Whatever `x` starts from, it leaves behind what is related to it. -/
def Within (R : State → State → Prop) (x : Walk α) : Prop := ∀ ⦃s v s'⦄, Gives x s v s' → R s s'

section Within

variable {invoke : Invoke} {id : Nat} {R : State → State → Prop} {x : Walk α} {f : α → Walk β}

theorem Admits.returns (admits : Admits invoke id R) (v : α) : Within R (pure v : Walk α) :=
  fun s _ _ h => (gives_pure_iff.1 h).2 ▸ admits.refl s

theorem Admits.looks (admits : Admits invoke id R) : Within R (get : Walk Arena) :=
  fun s _ _ h => (gives_get_iff.1 h).2 ▸ admits.refl s

theorem Admits.seq (admits : Admits invoke id R) (hx : Within R x) (hf : ∀ v, Within R (f v)) :
    Within R (x >>= f) := fun _ _ _ h => by
  obtain ⟨v, s', h, h'⟩ := gives_bind_iff.1 h
  exact admits.trans (hx h) (hf v h')

theorem within_lift {y : Analysis α} (h : ∀ a m, R (a, m) (a, (y.run m).2)) :
    Within R (liftM y : Walk α) := fun s _ _ given => (gives_lift_iff.1 given).1 ▸ h s.1 s.2

theorem within_modify {g : Arena → Arena} (h : ∀ a m, R (a, m) (g a, m)) :
    Within R (modify g : Walk Unit) := fun s _ _ given => gives_modify_iff.1 given ▸ h s.1 s.2

end Within

/-- The relation holds where the arena stays, whatever becomes of the memory, and goes from step to
step. -/
structure Overlooks (R : State → State → Prop) : Prop where
  same : ∀ {s s'}, s'.1 = s.1 → R s s'
  trans : ∀ {s s' s''}, R s s' → R s' s'' → R s s''

/-! ### Programs that leave the arena alone -/

namespace Overlooks

variable {R : State → State → Prop}

theorem returns (overlooks : Overlooks R) (v : α) : Within R (pure v : Walk α) :=
  fun _ _ _ given => overlooks.same ((gives_pure_iff.1 given).2 ▸ rfl)

theorem looks (overlooks : Overlooks R) : Within R (get : Walk Arena) :=
  fun _ _ _ given => overlooks.same ((gives_get_iff.1 given).2 ▸ rfl)

theorem lifts (overlooks : Overlooks R) (y : Analysis α) : Within R (liftM y : Walk α) :=
  within_lift fun _ _ => overlooks.same rfl

theorem seq (overlooks : Overlooks R) {x : Walk α} {f : α → Walk β} (hx : Within R x)
    (hf : ∀ v, Within R (f v)) : Within R (x >>= f) := fun _ _ _ given => by
  obtain ⟨v, s₁, first, rest⟩ := gives_bind_iff.1 given
  exact overlooks.trans (hx first) (hf v rest)

theorem operand (overlooks : Overlooks R) (id : Nat) (span : Span) (slot : Slot) :
    Within R (Walk.operand id span slot) :=
  overlooks.seq overlooks.looks fun a => by
    split
    · exact overlooks.returns _
    · exact overlooks.seq (overlooks.lifts _) fun _ => overlooks.lifts _

theorem operands (overlooks : Overlooks R) (id : Nat) (span : Span) (slots : List Slot) :
    Within R (slots.mapM (Walk.operand id span)) := by
  induction slots with
  | nil => exact overlooks.returns _
  | cons slot rest ih =>
    rw [List.mapM_cons]
    exact overlooks.seq (overlooks.operand id span slot) fun _ =>
      overlooks.seq ih fun _ => overlooks.returns _

theorem latest (overlooks : Overlooks R) (id : Nat) : Within R (Walk.latest id) :=
  overlooks.seq overlooks.looks fun _ => overlooks.returns _

theorem load (overlooks : Overlooks R) (ctx : Context) (id : Nat) (span : Span) (name : String) :
    Within R (Walk.load ctx id span name) :=
  overlooks.seq overlooks.looks fun a => by
    split
    · exact overlooks.returns _
    · exact overlooks.lifts _

theorem results (overlooks : Overlooks R) (invoke : Invoke) (ctx : Context) (id : Nat)
    (span : Span) (callee : Slot) (arguments : List Slot) :
    Within R (Walk.results invoke ctx id span callee arguments) :=
  overlooks.seq (overlooks.operand id span callee) fun _ =>
    overlooks.seq (overlooks.operands id span arguments) fun _ =>
      overlooks.seq overlooks.looks fun _ => overlooks.lifts _

end Overlooks

/-! ### Programs that bind -/

namespace Admits

variable {invoke : Invoke} {id : Nat} {R : State → State → Prop}

theorem reports (admits : Admits invoke id R) (f : Finding) (span : Span) :
    Within R (Walk.report f span) := within_lift fun a m => admits.report a m _

theorem fresh (admits : Admits invoke id R) (v : Value) : Within R (Walk.fresh v) :=
  within_lift fun a m => admits.place a m v

theorem change (admits : Admits invoke id R) {f : Branch → Branch} (hf : Binds f) :
    Within R (modify (·.modify id f) : Walk Unit) := within_modify fun a m => admits.bind a m f hf

theorem bindSlot (admits : Admits invoke id R) (slot : Slot) (v : Value) :
    Within R (Walk.bindSlot id slot v) :=
  admits.seq (admits.fresh v) fun _ =>
    admits.change ⟨fun _ => rfl, fun _ => rfl, fun _ => rfl, fun _ => rfl, fun _ => rfl⟩

theorem rebindSlot (admits : Admits invoke id R) (slot : Slot) (v : Value) :
    Within R (Walk.rebindSlot id slot v) :=
  admits.seq (admits.fresh v) fun _ =>
    admits.change ⟨fun _ => rfl, fun _ => rfl, fun _ => rfl, fun _ => rfl, fun _ => rfl⟩

theorem bindVariable (admits : Admits invoke id R) (name : String) (v : Value) :
    Within R (Walk.bindVariable id name v) :=
  admits.seq (admits.fresh v) fun _ =>
    admits.change ⟨fun _ => rfl, fun _ => rfl, fun _ => rfl, fun _ => rfl, fun _ => rfl⟩

theorem operand (admits : Admits invoke id R) (span : Span) (slot : Slot) :
    Within R (Walk.operand id span slot) :=
  admits.seq admits.looks fun a => by
    split
    · exact admits.returns _
    · exact admits.seq (admits.reports _ span) fun _ => admits.fresh _

theorem operands (admits : Admits invoke id R) (span : Span) (slots : List Slot) :
    Within R (slots.mapM (Walk.operand id span)) := by
  induction slots with
  | nil => exact admits.returns _
  | cons slot rest ih =>
    rw [List.mapM_cons]
    exact admits.seq (admits.operand span slot) fun _ => admits.seq ih fun _ => admits.returns _

theorem latest (admits : Admits invoke id R) : Within R (Walk.latest id) :=
  admits.seq admits.looks fun _ => admits.returns _

theorem settle (admits : Admits invoke id R) (found : Except Finding Value) (span : Span) :
    Within R (Walk.settle found span) := within_lift fun a m => by
  cases found with
  | ok v => exact admits.refl _
  | error f => exact admits.report a m _

theorem load (admits : Admits invoke id R) (ctx : Context) (span : Span) (name : String) :
    Within R (Walk.load ctx id span name) :=
  admits.seq admits.looks fun a => by
    split
    · exact admits.returns _
    · exact admits.settle _ span

theorem loadMember (admits : Admits invoke id R) (ctx : Context) (span : Span) (slot : Slot)
    (name : String) : Within R (Walk.loadMember ctx id span slot name) :=
  admits.seq (admits.operand span slot) fun target => by
    split
    · exact admits.returns _
    · split
      · exact admits.settle _ span
      · exact admits.seq (admits.fresh _) fun _ =>
          admits.seq (admits.rebindSlot slot _) fun _ => admits.returns _

end Admits

end Walk

/-! ## Calls -/

namespace Analysis

theorem reportFault_memory (fault : Option Finding) (span : Span) (m : Memory) :
    ((reportFault fault span).run m).2 = m ∨
      ∃ d, ((reportFault fault span).run m).2 = m.add d := by
  cases fault with
  | none => exact .inl rfl
  | some f => exact .inr ⟨_, rfl⟩

/-- A report is all that a call makes before a body is entered. -/
theorem request_memory (ctx : Context) (callee : Value) (arguments : List Value) (span : Span)
    (m : Memory) :
    ((request ctx callee arguments span).run m).2 = m ∨
      ∃ d, ((request ctx callee arguments span).run m).2 = m.add d := by
  unfold request
  split
  · exact reportFault_memory _ _ m
  · unfold requestMembers
    dsimp only
    split
    · exact .inl rfl
    · next choice _ =>
      rcases choice with ⟨member, matched⟩
      cases member <;> exact reportFault_memory _ _ m
  · split
    · exact .inl rfl
    · exact .inl rfl
    · exact .inr ⟨_, rfl⟩

end Analysis

namespace Walk

variable {invoke : Invoke} {id : Nat} {R : State → State → Prop}

theorem Admits.request (admits : Admits invoke id R) (ctx : Context) (callee : Value)
    (arguments : List Value) (span : Span) (a : Arena) (m : Memory) :
    R (a, m) (a, ((Analysis.request ctx callee arguments span).run m).2) := by
  rcases Analysis.request_memory ctx callee arguments span m with h | ⟨d, h⟩
  · exact h.symm ▸ admits.refl _
  · exact h.symm ▸ admits.report a m d

theorem Admits.call (admits : Admits invoke id R) (ctx : Context) (callee : Value)
    (arguments : List Value) (span : Span) :
    Within R (liftM (Analysis.call invoke ctx callee arguments span) : Walk (List Value)) :=
  within_lift fun a m => by
    have asked := admits.request ctx callee arguments span a m
    rw [Analysis.call, StateT.run_bind]
    rcases out : (Analysis.request ctx callee arguments span).run m with ⟨request, m'⟩
    rw [out] at asked
    cases request with
    | answered values => exact asked
    | enter id receiver =>
      exact admits.trans asked (admits.invoke a m' ctx id receiver arguments span)

theorem Admits.results (admits : Admits invoke id R) (ctx : Context) (span : Span)
    (callee : Slot) (arguments : List Slot) :
    Within R (Walk.results invoke ctx id span callee arguments) :=
  admits.seq (admits.operand span callee) fun _ =>
    admits.seq (admits.operands span arguments) fun _ =>
      admits.seq admits.looks fun _ => admits.call _ _ _ span

/-! ## How a path goes on -/

/-- What happens to the arena when a path on branch `id` goes on as `next` says. -/
def Goes (options : AnalysisOptions) (id : Nat) (a a' : Arena) : Next → Prop
  | .next _ => a' = a
  | .stop _ _ => a' = a
  | .split starts => a.size < options.maxBranches ∧
      match options.forkMode with
      | .symmetric => a' = (a.child id).child id ∧ ∃ i j, starts = [(a.size, i), (a.size + 1, j)]
      | .fallthroughOnly => a' = a.child id ∧ ∃ i, starts = [(a.size, i)]
  | .spread _ values _ => a' = a ∧ 1 < values.length ∧
      a.size + values.length ≤ options.maxBranches

/-- What the relation admits happens first; then the arena is prepared for how the path goes on. -/
def Proceeds (R : State → State → Prop) (options : AnalysisOptions) (id : Nat) (x : Walk Next) :
    Prop :=
  ∀ ⦃s next s'⦄, Gives x s next s' →
    ∃ s₁, R s s₁ ∧ s'.2 = s₁.2 ∧ Goes options id s₁.1 s'.1 next

section Proceeds

variable {options : AnalysisOptions}

theorem Within.before (admits : Admits invoke id R) {α : Type} {x : Walk α} {f : α → Walk Next}
    (hx : Within R x) (hf : ∀ v, Proceeds R options id (f v)) :
    Proceeds R options id (x >>= f) := fun _ _ _ h => by
  obtain ⟨v, s₁, h₁, h⟩ := gives_bind_iff.1 h
  obtain ⟨s₂, h₂, rest⟩ := hf v h
  exact ⟨s₂, admits.trans (hx h₁) h₂, rest⟩

theorem Admits.goesOn (admits : Admits invoke id R) (index : Nat) :
    Proceeds R options id (pure (.next index)) := fun _ _ _ h => by
  obtain ⟨rfl, rfl⟩ := gives_pure_iff.1 h
  exact ⟨_, admits.refl _, rfl, rfl⟩

theorem Admits.stops (admits : Admits invoke id R) (termination : Termination) (v : Value) :
    Proceeds R options id (pure (.stop termination v)) := fun _ _ _ h => by
  obtain ⟨rfl, rfl⟩ := gives_pure_iff.1 h
  exact ⟨_, admits.refl _, rfl, rfl⟩

theorem gives_child_iff {s s' : State} {other : Nat} :
    Gives (child id) s other s' ↔ other = s.1.size ∧ s' = (s.1.child id, s.2) := by
  obtain ⟨a', m'⟩ := s'
  refine ⟨fun h => ?_, fun ⟨hid, hs⟩ => hid ▸ hs ▸ rfl⟩
  cases h
  exact ⟨rfl, rfl⟩

theorem Admits.fork (admits : Admits invoke id R) (target index : Nat) :
    Proceeds R options id (Walk.fork options id target index) := fun s _ _ h => by
  obtain ⟨a, s₁, h₁, h⟩ := gives_bind_iff.1 h
  obtain ⟨rfl, rfl⟩ := gives_get_iff.1 h₁
  split at h
  · exact admits.goesOn index h
  · next full =>
    have room : s₁.1.size < options.maxBranches := Nat.lt_of_not_le full
    split at h
    · next mode =>
      obtain ⟨fall, s₂, h₂, h⟩ := gives_bind_iff.1 h
      obtain ⟨rfl, rfl⟩ := gives_child_iff.1 h₂
      obtain ⟨taken, s₃, h₃, h⟩ := gives_bind_iff.1 h
      obtain ⟨rfl, rfl⟩ := gives_child_iff.1 h₃
      obtain ⟨rfl, rfl⟩ := gives_pure_iff.1 h
      refine ⟨s₁, admits.refl s₁, rfl, room, ?_⟩
      rw [mode, Arena.size_child]
      exact ⟨rfl, _, _, rfl⟩
    · next mode =>
      obtain ⟨fall, s₂, h₂, h⟩ := gives_bind_iff.1 h
      obtain ⟨rfl, rfl⟩ := gives_child_iff.1 h₂
      obtain ⟨rfl, rfl⟩ := gives_pure_iff.1 h
      refine ⟨s₁, admits.refl s₁, rfl, room, ?_⟩
      rw [mode]
      exact ⟨rfl, _, rfl⟩

/-- Several results are left only if there is room for a branch for each. -/
theorem affordable_of_several {size : Nat} {values : List Value}
    (h : 1 < (affordable options size values).length) :
    affordable options size values = values ∧ size + values.length ≤ options.maxBranches := by
  unfold affordable at h ⊢
  split
  · next merged => rw [if_pos merged] at h; exact absurd h (Nat.lt_irrefl 1)
  · next kept =>
    rw [if_neg kept] at h
    exact ⟨rfl, Nat.le_of_not_lt fun exceeded => kept ⟨h, exceeded⟩⟩

theorem Admits.continueWith (admits : Admits invoke id R) (slot : Slot) (values : List Value)
    (index : Nat) :
    Proceeds R options id (do
      Walk.continueWith id slot (affordable options (← get).size values) index) := by
  intro _ _ s' h
  obtain ⟨a, s₁, h₁, h⟩ := gives_bind_iff.1 h
  obtain ⟨rfl, rfl⟩ := gives_get_iff.1 h₁
  unfold Walk.continueWith at h
  split at h
  · exact (admits.bindSlot slot _).before admits (fun _ => admits.goesOn index) h
  · exact (admits.bindSlot slot _).before admits (fun _ => admits.goesOn index) h
  · next none one =>
    obtain ⟨rfl, rfl⟩ := gives_pure_iff.1 h
    have many : 1 < (affordable options s'.1.size values).length := by
      rcases afforded : affordable options s'.1.size values with _ | ⟨v, _ | ⟨w, rest⟩⟩
      · exact absurd afforded none
      · exact absurd afforded (one v)
      · exact Nat.succ_lt_succ (Nat.succ_pos _)
    obtain ⟨same, room⟩ := affordable_of_several many
    exact ⟨s', admits.refl s', rfl, rfl, many, same.symm ▸ room⟩

end Proceeds

theorem Admits.execute (admits : Admits invoke id R) (ctx : Context) (index : Nat) (step : Step) :
    Proceeds R ctx.options id (Walk.execute invoke ctx id index step) := by
  unfold Walk.execute
  dsimp only
  have bound (slot : Slot) (v : Value) : Proceeds R ctx.options id (do
      Walk.bindSlot id slot v
      return .next (index + 1)) :=
    (admits.bindSlot slot v).before admits fun _ => admits.goesOn _
  split
  · exact bound _ _
  · exact (admits.operand _ _).before admits fun _ => bound _ _
  · exact (admits.operand _ _).before admits fun _ =>
      (admits.operand _ _).before admits fun _ => bound _ _
  · exact admits.goesOn _
  · exact (admits.operand _ _).before admits fun _ => admits.fork _ _
  · exact (admits.results _ _ _ _).before admits fun _ => admits.continueWith _ _ _
  · exact (admits.load _ _ _).before admits fun _ => bound _ _
  · exact (admits.loadMember _ _ _ _).before admits fun _ => bound _ _
  · exact (admits.operand _ _).before admits fun _ => (admits.operand _ _).before admits fun _ =>
      (admits.settle _ _).before admits fun _ => bound _ _
  · exact (admits.operand _ _).before admits fun _ =>
      (admits.bindVariable _ _).before admits fun _ => admits.goesOn _
  · exact (admits.operand _ _).before admits fun _ => admits.stops _ _
  · exact admits.latest.before admits fun _ => admits.stops _ _

/-! ## Steps -/

section Step

variable {ctx : Context} {steps : Array Step} {index : Nat} {s s' : State} {next : Next}
  {b : Branch}

/-- The state in which the instruction at `index` has been reached once more. -/
def State.visit (s : State) (id index : Nat) : State := (s.1.modify id (·.visit index), s.2)

def State.add (s : State) (d : Diagnostic) : State := (s.1, s.2.add d)

theorem gives_arrive {first : Bool} (h : s.1.branch? id = some b)
    (given : Gives (arrive id index) s first s') :
    first = (b.visits index == 0) ∧ s' = s.visit id index := by
  obtain ⟨a', m'⟩ := s'
  have counted : (s.1.modify id (·.visit index)).branch? id = some (b.visit index) := by
    rw [Arena.branch?_modify, if_pos rfl, h, Option.map_some]
  cases given
  refine ⟨?_, rfl⟩
  simp only [counted, Option.elim_some, Branch.visits_visit_self]
  rw [Bool.eq_iff_iff, beq_iff_eq, beq_iff_eq]
  omega

/-- A step leaves the code, comes back to an instruction, or executes one for the first time. -/
theorem step_cases (h : s.1.branch? id = some b)
    (given : Gives (step invoke ctx steps id index) s next s') :
    (steps[index]? = none ∧ s' = s ∧ next = .stop .fallThrough (b.top?.getD .nil)) ∨
      ∃ instruction, steps[index]? = some instruction ∧
        (b.visits index ≠ 0 ∧ next = .stop .loopCutoff .any ∧
            s' = (s.visit id index).add ((Finding.loopCutoff
              (bodyName ctx.symbols (s.visit id index).1 id)).diagnostic instruction.span) ∨
          b.visits index = 0 ∧
            Gives (execute invoke ctx id index instruction) (s.visit id index) next s') := by
  unfold step at given
  split at given
  · next off =>
    refine .inl ⟨off, ?_⟩
    obtain ⟨v, s₁, read, given⟩ := gives_bind_iff.1 given
    obtain ⟨rfl, rfl⟩ := gives_pure_iff.1 given
    obtain ⟨a, s₂, got, read⟩ := gives_bind_iff.1 read
    obtain ⟨rfl, rfl⟩ := gives_get_iff.1 got
    obtain ⟨rfl, same⟩ := gives_pure_iff.1 read
    exact ⟨same, by rw [h, Option.bind_some]⟩
  · next instruction found =>
    refine .inr ⟨instruction, found, ?_⟩
    obtain ⟨first, s₁, arrived, given⟩ := gives_bind_iff.1 given
    obtain ⟨rfl, rfl⟩ := gives_arrive h arrived
    by_cases unseen : b.visits index = 0
    · rw [unseen] at given
      exact .inr ⟨unseen, given⟩
    · rw [if_neg (by simpa using unseen)] at given
      obtain ⟨a, s₂, got, given⟩ := gives_bind_iff.1 given
      obtain ⟨rfl, rfl⟩ := gives_get_iff.1 got
      obtain ⟨_, s₃, reported, given⟩ := gives_bind_iff.1 given
      obtain ⟨rfl, rfl⟩ := gives_pure_iff.1 given
      exact .inl ⟨unseen, rfl, (gives_lift_iff.1 reported).1⟩

/-- Two arenas of one size differ at most in branch `id`. -/
structure Apart (id : Nat) (a a' : Arena) : Prop where
  size : a'.size = a.size
  others : ∀ other, other ≠ id → a'.branch? other = a.branch? other

theorem Apart.trans {a a' a'' : Arena} (h : Apart id a a') (h' : Apart id a' a'') :
    Apart id a a'' :=
  ⟨h'.size.trans h.size, fun other ne => (h'.others other ne).trans (h.others other ne)⟩

theorem apart_modify (id : Nat) (a : Arena) (f : Branch → Branch) : Apart id a (a.modify id f) :=
  ⟨a.size_modify id f, fun _ ne => a.branch?_modify_of_ne f (Ne.symm ne)⟩

/-- Between two states, branch `id` alone has changed, and its bindings at most. -/
def Bound (id : Nat) (s s' : State) : Prop := ∃ f, Binds f ∧ s'.1 = s.1.modify id f

theorem bound_of_eq {id : Nat} {s s' : State} (h : s'.1 = s.1) : Bound id s s' :=
  ⟨fun b => b, ⟨fun _ => rfl, fun _ => rfl, fun _ => rfl, fun _ => rfl, fun _ => rfl⟩,
    h.trans (s.1.modify_id id).symm⟩

theorem admits_bound (invoke : Invoke) (id : Nat) : Admits invoke id (Bound id) where
  refl _ := bound_of_eq rfl
  trans := by
    rintro s s' s'' ⟨f, hf, h⟩ ⟨g, hg, h'⟩
    refine ⟨g ∘ f, ?_, by rw [h', h, Arena.modify_modify]⟩
    exact ⟨fun b => (hg.parent _).trans (hf.parent b), fun b => (hg.visited _).trans (hf.visited b),
      fun b => (hg.looped _).trans (hf.looped b),
      fun b => (hg.termination _).trans (hf.termination b),
      fun b => (hg.returned _).trans (hf.returned b)⟩
  report _ _ _ := bound_of_eq rfl
  place _ _ _ := bound_of_eq rfl
  bind _ _ f hf := ⟨f, hf, rfl⟩
  invoke _ _ _ _ _ _ _ := bound_of_eq rfl

/-- A path that goes on has executed its instruction for the first time. -/
def Advances (steps : Array Step) (index : Nat) (b b' : Branch) : Next → Prop
  | .stop _ _ => True
  | _ => index < steps.size ∧ b.visits index = 0 ∧ b'.visited = (b.visit index).visited

/-- What a step leaves of the arena, before the path goes on. -/
theorem step_goes (h : s.1.branch? id = some b)
    (given : Gives (step invoke ctx steps id index) s next s') :
    ∃ a b', Apart id s.1 a ∧ a.branch? id = some b' ∧ b'.parent = b.parent ∧
      Advances steps index b b' next ∧ Goes ctx.options id a s'.1 next := by
  have reached : (s.visit id index).1.branch? id = some (b.visit index) := by
    rw [State.visit, Arena.branch?_modify, if_pos rfl, h, Option.map_some]
  have apart : Apart id s.1 (s.visit id index).1 := apart_modify id s.1 _
  rcases step_cases h given with ⟨-, rfl, rfl⟩ |
    ⟨instruction, found, ⟨-, rfl, rfl⟩ | ⟨unseen, executed⟩⟩
  · exact ⟨s'.1, b, ⟨rfl, fun _ _ => rfl⟩, h, rfl, trivial, rfl⟩
  · exact ⟨_, _, apart, reached, rfl, trivial, rfl⟩
  · obtain ⟨s₁, ⟨f, hf, arena⟩, -, goes⟩ := (admits_bound invoke id).execute ctx index _ executed
    refine ⟨s₁.1, f (b.visit index), ?_, ?_, hf.parent _, ?_, goes⟩
    · exact apart.trans (arena ▸ apart_modify id _ f)
    · rw [arena, Arena.branch?_modify, if_pos rfl, reached, Option.map_some]
    · have advanced : index < steps.size ∧ b.visits index = 0 ∧
          (f (b.visit index)).visited = (b.visit index).visited :=
        ⟨(Array.getElem?_eq_some_iff.1 found).1, unseen, hf.visited _⟩
      cases next with
      | stop t v => trivial
      | _ => exact advanced

end Step

end Walk

end PathTyping
