import PathTyping.Proofs.Closed
import PathTyping.Proofs.Leaves

/-!
# What holds throughout an analysis

Wherever an analysis has come, the code that is kept of a body is that of the body, the results that
are kept of a call fit what its method declares, and all values are of any kind that the analysis
keeps to (`Value.Closed`).  Programs that keep this are told by `Yields`, with what they give; the
theorem about each is put together from those about its parts.

1. An instruction (`execute_yields`), a step (`step_yields`) and a walk (`Walks.sound`) leave a
   sound state, whatever calls do that yield values of the kind.
2. A call gives values of the kind that fit what its method declares (`invoke_yields`).
3. Queries leave a sound memory (`resolveMethod_yields`, `resolveCode_yields`).
-/

namespace PathTyping

open Walk

/-! ## Sound states -/

/-- The value fits the type that the method declares for what it returns, if it declares one. -/
def Method.Returns (m : Method) (v : Value) : Prop :=
  ∀ type, m.returns = some type → v.type.isAssignableTo type = true

/-- What is kept is right, and of the kind `K`. -/
structure Memory.Sound (t : SymbolTable) (K : Value → Prop) (m : Memory) : Prop where
  faithful : m.Faithful t
  kept : ∀ key values, m.find? key = some values →
    ∀ v ∈ values, K v ∧ (t.method key.call.method).Returns v

/-- All values of the arena are of the kind `K`. -/
def Arena.Only (K : Value → Prop) (a : Arena) : Prop :=
  ∀ id b, a.branch? id = some b → ∀ v ∈ b.values, K v

structure Walk.State.Sound (t : SymbolTable) (K : Value → Prop) (s : State) : Prop where
  arena : s.1.Only K
  memory : s.2.Sound t K

theorem Memory.sound_empty (t : SymbolTable) (K : Value → Prop) : Memory.empty.Sound t K :=
  ⟨nofun, nofun⟩

namespace Memory.Sound

variable {t : SymbolTable} {K : Value → Prop} {m : Memory}

theorem add (h : m.Sound t K) (d : Diagnostic) : (m.add d).Sound t K := ⟨h.faithful, h.kept⟩

theorem place (h : m.Sound t K) (v : Value) : (m.place v).2.Sound t K := ⟨h.faithful, h.kept⟩

theorem push (h : m.Sound t K) (call : CallKey) : (m.push call).Sound t K := ⟨h.faithful, h.kept⟩

theorem pop (h : m.Sound t K) : m.pop.Sound t K := ⟨h.faithful, h.kept⟩

theorem remember (h : m.Sound t K) {key : MemoKey} {values : List Value}
    (fit : ∀ v ∈ values, K v ∧ (t.method key.call.method).Returns v) :
    (m.remember key values).Sound t K := by
  refine ⟨h.faithful, fun other others found => ?_⟩
  by_cases same : key = other
  · subst same
    rw [find_remember_self] at found
    exact Option.some.inj found ▸ fit
  · exact h.kept other others (find_remember_of_ne m values same ▸ found)

end Memory.Sound

namespace Arena.Only

variable {K : Value → Prop} {a : Arena} {id : Nat} {v : Value}

theorem modify (h : a.Only K) {f : Branch → Branch}
    (keeps : ∀ b, (∀ v ∈ b.values, K v) → ∀ v ∈ (f b).values, K v) :
    (a.modify id f).Only K := fun k b found => by
  obtain ⟨b', found', rfl | ⟨-, rfl⟩⟩ := Arena.branch?_of_modify found
  · exact h k _ found'
  · exact keeps b' (h k b' found')

theorem child (h : a.Only K) (id : Nat) : (a.child id).Only K := fun k b found => by
  rcases Arena.branch?_of_child found with old | ⟨-, rfl⟩
  · exact h k b old
  · nofun

theorem root (scope : Scope) : (Arena.empty.root scope).Only K := fun k b found => by
  obtain rfl : k = 0 := Nat.lt_one_iff.1 (Arena.lt_size_of_branch? found)
  cases found
  nofun

theorem bindSlot (h : a.Only K) (id : Nat) (slot : Slot) (hv : K v) :
    (a.modify id (·.bindSlot slot v)).Only K := by
  refine h.modify fun b hb u hu => ?_
  simp only [Branch.values, Branch.bindSlot, List.mem_append, List.mem_cons, List.mem_map] at hu hb
  rcases hu with ((⟨p, hp, rfl⟩ | old) | (rfl | old)) | old
  · rcases Assoc.mem_insert hp with rfl | hp
    · exact hv
    · exact hb _ (.inl (.inl (.inl ⟨p, hp, rfl⟩)))
  · exact hb u (.inl (.inl (.inr old)))
  · exact hv
  · exact hb u (.inl (.inr old))
  · exact hb u (.inr old)

theorem rebindSlot (h : a.Only K) (id : Nat) (slot : Slot) (hv : K v) :
    (a.modify id (·.rebindSlot slot v)).Only K := by
  refine h.modify fun b hb u hu => ?_
  simp only [Branch.values, Branch.rebindSlot, List.mem_append, List.mem_map] at hu hb
  rcases hu with ((⟨p, hp, rfl⟩ | old) | old) | old
  · rcases Assoc.mem_insert hp with rfl | hp
    · exact hv
    · exact hb _ (.inl (.inl (.inl ⟨p, hp, rfl⟩)))
  · exact hb u (.inl (.inl (.inr old)))
  · exact hb u (.inl (.inr old))
  · exact hb u (.inr old)

theorem bindVariable (h : a.Only K) (id : Nat) (name : String) (hv : K v) :
    (a.modify id (·.bindVariable name v)).Only K := by
  refine h.modify fun b hb u hu => ?_
  simp only [Branch.values, Branch.bindVariable, List.mem_append, List.mem_map] at hu hb
  rcases hu with ((old | ⟨p, hp, rfl⟩) | old) | old
  · exact hb u (.inl (.inl (.inl old)))
  · rcases Assoc.mem_insert hp with rfl | hp
    · exact hv
    · exact hb _ (.inl (.inl (.inr ⟨p, hp, rfl⟩)))
  · exact hb u (.inl (.inr old))
  · exact hb u (.inr old)

theorem finish (h : a.Only K) (id : Nat) (termination : Termination) (hv : K v) :
    (a.modify id (·.finish termination v)).Only K := by
  refine h.modify fun b hb u hu => ?_
  simp only [Branch.values, Branch.finish, List.mem_append, Option.toList_some,
    List.mem_singleton] at hu hb
  rcases hu with ((old | old) | old) | rfl
  · exact hb u (.inl (.inl (.inl old)))
  · exact hb u (.inl (.inl (.inr old)))
  · exact hb u (.inl (.inr old))
  · exact hv

theorem lookupSlot (h : a.Only K) {s : Slot} (found : a.lookupSlot id s = some v) :
    K v := by
  obtain ⟨b, inside, here⟩ := List.exists_of_findSome?_eq_some found
  obtain ⟨k, at_⟩ := Arena.mem_lineage inside
  refine h k b at_ v ?_
  simp only [Branch.values, List.mem_append, List.mem_map]
  exact .inl (.inl (.inl ⟨_, Assoc.mem_of_find? here, rfl⟩))

theorem lookupVariable (h : a.Only K) {name : String}
    (found : a.lookupVariable id name = some v) : K v := by
  obtain ⟨b, inside, here⟩ := List.exists_of_findSome?_eq_some found
  obtain ⟨k, at_⟩ := Arena.mem_lineage inside
  refine h k b at_ v ?_
  simp only [Branch.values, List.mem_append, List.mem_map]
  exact .inl (.inl (.inr ⟨_, Assoc.mem_of_find? here, rfl⟩))

theorem latest (h : a.Only K) (nil : K .nil) (id : Nat) :
    K (((a.branch? id).bind Branch.top?).getD .nil) := by
  cases found : a.branch? id with
  | none => exact nil
  | some b =>
    rw [Option.bind_some]
    cases top : b.top? with
    | none => exact nil
    | some v =>
      refine h id b found v ?_
      simp only [Branch.values, List.mem_append]
      exact .inl (.inr (List.mem_of_mem_head? top))

end Arena.Only

/-! ## Programs -/

section Programs

variable {t : SymbolTable} {K : Value → Prop} {α β : Type} {V : α → Prop} {W : β → Prop}

/-- From a sound memory on, `y` gives what `V` holds of and leaves a sound memory. -/
def Analysis.Yields (t : SymbolTable) (K : Value → Prop) (V : α → Prop) (y : Analysis α) : Prop :=
  ∀ ⦃m⦄, m.Sound t K → V (y.run m).1 ∧ (y.run m).2.Sound t K

/-- From a sound state on, `x` gives what `V` holds of and leaves a sound state. -/
def Walk.Yields (t : SymbolTable) (K : Value → Prop) (V : α → Prop) (x : Walk α) : Prop :=
  ∀ ⦃s v s'⦄, State.Sound t K s → Gives x s v s' → V v ∧ State.Sound t K s'

theorem Analysis.yields_pure {v : α} (h : V v) : Analysis.Yields t K V (pure v) :=
  fun _ sound => ⟨h, sound⟩

theorem Analysis.yields_bind {y : Analysis α} {f : α → Analysis β} (hy : Analysis.Yields t K V y)
    (hf : ∀ v, V v → Analysis.Yields t K W (f v)) : Analysis.Yields t K W (y >>= f) := fun m sound => by
  obtain ⟨holds, sound⟩ := hy sound
  rw [StateT.run_bind]
  exact hf _ holds sound

theorem Analysis.yields_get : Analysis.Yields t K (Memory.Sound t K) (get : Analysis Memory) :=
  fun _ sound => ⟨sound, sound⟩

theorem Analysis.yields_modify {f : Memory → Memory} (h : ∀ m, m.Sound t K → (f m).Sound t K) :
    Analysis.Yields t K (fun _ => True) (modify f : Analysis Unit) :=
  fun m sound => ⟨trivial, h m sound⟩

theorem Analysis.Yields.weaken {V' : α → Prop} {y : Analysis α} (h : Analysis.Yields t K V y)
    (sub : ∀ v, V v → V' v) : Analysis.Yields t K V' y := fun _ sound =>
  ⟨sub _ (h sound).1, (h sound).2⟩

theorem Analysis.yields_mapM {γ : Type} {f : γ → Analysis α} {xs : List γ}
    (h : ∀ x ∈ xs, Analysis.Yields t K V (f x)) :
    Analysis.Yields t K (fun vs => ∀ v ∈ vs, V v) (xs.mapM f) := by
  induction xs with
  | nil => exact yields_pure nofun
  | cons x rest ih =>
    rw [List.mapM_cons]
    refine yields_bind (h x List.mem_cons_self) fun v hv => ?_
    refine yields_bind (ih fun y hy => h y (List.mem_cons_of_mem _ hy)) fun vs hvs => ?_
    exact yields_pure (List.forall_mem_cons.2 ⟨hv, hvs⟩)

namespace Walk

theorem yields_pure {v : α} (h : V v) : Yields t K V (pure v) := fun _ _ _ sound given => by
  obtain ⟨rfl, rfl⟩ := gives_pure_iff.1 given
  exact ⟨h, sound⟩

theorem yields_bind {x : Walk α} {f : α → Walk β} (hx : Yields t K V x)
    (hf : ∀ v, V v → Yields t K W (f v)) : Yields t K W (x >>= f) := fun _ _ _ sound given => by
  obtain ⟨v, s₁, given, given'⟩ := gives_bind_iff.1 given
  obtain ⟨holds, sound⟩ := hx sound given
  exact hf v holds sound given'

theorem yields_get : Yields t K (Arena.Only K) (get : Walk Arena) := fun _ _ _ sound given => by
  obtain ⟨rfl, rfl⟩ := gives_get_iff.1 given
  exact ⟨sound.arena, sound⟩

theorem yields_modify {g : Arena → Arena} (h : ∀ a, a.Only K → (g a).Only K) :
    Yields t K (fun _ => True) (modify g : Walk Unit) := fun _ _ _ sound given => by
  obtain rfl := gives_modify_iff.1 given
  exact ⟨trivial, h _ sound.arena, sound.memory⟩

theorem yields_lift {y : Analysis α} (h : Analysis.Yields t K V y) :
    Yields t K V (liftM y : Walk α) := fun s _ _ sound given => by
  obtain ⟨rfl, rfl⟩ := gives_lift_iff.1 given
  exact ⟨(h sound.memory).1, sound.arena, (h sound.memory).2⟩

theorem yields_mapM {γ : Type} {f : γ → Walk α} {xs : List γ} (h : ∀ x ∈ xs, Yields t K V (f x)) :
    Yields t K (fun vs => ∀ v ∈ vs, V v) (xs.mapM f) := by
  induction xs with
  | nil => exact yields_pure nofun
  | cons x rest ih =>
    rw [List.mapM_cons]
    refine yields_bind (h x List.mem_cons_self) fun v hv => ?_
    refine yields_bind (ih fun y hy => h y (List.mem_cons_of_mem _ hy)) fun vs hvs => ?_
    exact yields_pure (List.forall_mem_cons.2 ⟨hv, hvs⟩)

end Walk

end Programs

/-- Whatever values of the kind `K` a method is called with, the call gives values of that kind
that fit what the method declares, and leaves a sound memory. -/
def Invoke.Sound (t : SymbolTable) (K : Value → Prop) (invoke : Invoke) : Prop :=
  ∀ ctx, ctx.symbols = t → ∀ id receiver arguments span, (∀ r, receiver = some r → K r) →
    (∀ v ∈ arguments, K v) →
    Analysis.Yields t K (fun values => ∀ v ∈ values, K v ∧ (t.method id).Returns v)
      (invoke ctx id receiver arguments span)

/-! ## Calls before a body is entered -/

namespace Analysis

/-- What a call that nothing is followed for gives, or what a body is entered with, is of the kind
`K`. -/
def Request.Only (K : Value → Prop) : Request → Prop
  | .answered values => ∀ v ∈ values, K v
  | .enter _ receiver => ∀ r, receiver = some r → K r

section

variable {t : SymbolTable} {K : Value → Prop} {T : Ty → Prop} (closed : Value.Closed t K T)

theorem report_yields (f : Finding) (span : Span) : Yields t K (fun _ => True) (report f span) :=
  yields_modify fun _ sound => sound.add _

theorem fresh_yields {v : Value} {V : Value → Prop} (keeps : ∀ next, V (v.place next).1) :
    Yields t K V (fresh v) := fun m sound => ⟨keeps m.nextLabel, sound.place v⟩

theorem reportFault_yields (fault : Option Finding) (span : Span) :
    Yields t K (fun _ => True) (reportFault fault span) := by
  cases fault with
  | none => exact yields_pure trivial
  | some f => exact report_yields f span

theorem only_answer {v : Value} (h : K v) : Request.Only K (.answered [v]) :=
  fun _ hu => List.mem_singleton.1 hu ▸ h

include closed

theorem settle_yields {found : Except Finding Value} (h : ∀ v, found = .ok v → K v)
    (span : Span) : Yields t K K (settle found span) := by
  cases found with
  | ok v => exact yields_pure (h v rfl)
  | error f => exact yields_bind (report_yields f span) fun _ _ => yields_pure closed.any

theorem construct_yields (ctx : Context) {id : Nat} (made : T (ctx.symbols.instanceType id))
    (arguments : List Value) (span : Span) :
    Yields t K (fun values => ∀ v ∈ values, K v) (construct ctx id arguments span) := by
  refine yields_bind (reportFault_yields _ span) fun _ _ => yields_pure fun v hv => ?_
  exact List.mem_singleton.1 hv ▸ closed.ofType made

theorem receiver?_yields (ctx : Context) {callee : Value} (h : K callee) :
    Yields t K (fun receiver => ∀ r, receiver = some r → K r) (receiver? ctx callee) := by
  refine yields_bind yields_get fun m _ => yields_pure fun r found => ?_
  exact closed.target h (Option.filter_eq_some_iff.1 found).1

theorem request_yields {ctx : Context} (symbols : ctx.symbols = t) {callee : Value} (h : K callee)
    (arguments : List Value) (span : Span) :
    Yields t K (Request.Only K) (request ctx callee arguments span) := by
  have unknown : Request.Only K (.answered [.any]) := only_answer closed.any
  unfold request
  split
  · next id _ named =>
    have made : T (ctx.symbols.instanceType id) := symbols ▸ closed.made h named
    exact yields_bind (construct_yields closed ctx made arguments span) fun values hv =>
      yields_pure (show Request.Only K (.answered values) from hv)
  · unfold requestMembers
    dsimp only
    split
    · exact yields_pure unknown
    · next choice _ =>
      refine yields_bind (reportFault_yields _ span) fun _ _ => ?_
      split
      · next id _ =>
        exact yields_bind (receiver?_yields closed ctx h) fun receiver hr =>
          yields_pure (show Request.Only K (.enter id receiver) from hr)
      · next b _ =>
        refine yields_pure (only_answer ?_)
        cases b <;> exact closed.ofType (closed.basic rfl)
      · exact yields_pure unknown
  · split
    · exact yields_pure unknown
    · exact yields_pure unknown
    · exact yields_bind (report_yields _ span) fun _ _ => yields_pure unknown

theorem call_yields {invoke : Invoke} (sound : Invoke.Sound t K invoke) {ctx : Context}
    (symbols : ctx.symbols = t) {callee : Value} (h : K callee) {arguments : List Value}
    (hargs : ∀ v ∈ arguments, K v) (span : Span) :
    Yields t K (fun values => ∀ v ∈ values, K v)
      (call invoke ctx callee arguments span) := by
  refine yields_bind (request_yields closed symbols h arguments span) fun request hr => ?_
  cases request with
  | answered values => exact yields_pure hr
  | enter id receiver =>
    exact (sound ctx symbols id receiver arguments span hr hargs).weaken fun _ h v hv => (h v hv).1

end

end Analysis

/-! ## Instructions and steps -/

/-- The values with which a path goes on or ends are of the kind `K`. -/
def Next.Only (K : Value → Prop) : Next → Prop
  | .stop _ v => K v
  | .spread _ values _ => ∀ v ∈ values, K v
  | _ => True

namespace Walk

section

variable {t : SymbolTable} {K : Value → Prop} {T : Ty → Prop} (closed : Value.Closed t K T)
  {ctx : Context} {id : Nat} {span : Span}

theorem report_yields (f : Finding) (span : Span) : Yields t K (fun _ => True) (report f span) :=
  yields_lift (Analysis.report_yields f span)

theorem child_yields : Yields t K (fun _ => True) (child id) := fun s _ _ sound given => by
  obtain ⟨-, rfl⟩ := gives_child_iff.1 given
  exact ⟨trivial, sound.arena.child id, sound.memory⟩

theorem fork_yields (options : AnalysisOptions) (target index : Nat) :
    Yields t K (Next.Only K) (fork options id target index) := by
  refine yields_bind yields_get fun a _ => ?_
  split
  · exact yields_pure trivial
  · split
    · exact yields_bind child_yields fun _ _ => yields_bind child_yields fun _ _ =>
        yields_pure trivial
    · exact yields_bind child_yields fun _ _ => yields_pure trivial

theorem arrive_yields (index : Nat) : Yields t K (fun _ => True) (arrive id index) := by
  rintro s first ⟨a', m'⟩ sound given
  cases given
  exact ⟨trivial, sound.arena.modify fun _ h => h, sound.memory⟩

include closed

theorem fresh_yields {v : Value} (h : K v) : Yields t K K (fresh v) :=
  yields_lift (Analysis.fresh_yields (closed.place h))

theorem bindSlot_yields (slot : Slot) {v : Value} (h : K v) :
    Yields t K (fun _ => True) (bindSlot id slot v) :=
  yields_bind (fresh_yields closed h) fun _ h => yields_modify fun _ ha => ha.bindSlot id slot h

theorem rebindSlot_yields (slot : Slot) {v : Value} (h : K v) :
    Yields t K (fun _ => True) (rebindSlot id slot v) :=
  yields_bind (fresh_yields closed h) fun _ h => yields_modify fun _ ha => ha.rebindSlot id slot h

theorem bindVariable_yields (name : String) {v : Value} (h : K v) :
    Yields t K (fun _ => True) (bindVariable id name v) :=
  yields_bind (fresh_yields closed h) fun _ h => yields_modify fun _ ha =>
    ha.bindVariable id name h

theorem finish_yields (termination : Termination) {v : Value} (h : K v) :
    Yields t K (fun _ => True) (finish id termination v) :=
  yields_bind (fresh_yields closed h) fun _ h => yields_modify fun _ ha =>
    ha.finish id termination h

theorem operand_yields (slot : Slot) : Yields t K K (operand id span slot) :=
  yields_bind yields_get fun a ha => by
    split
    · next v found => exact yields_pure (ha.lookupSlot found)
    · exact yields_bind (report_yields _ span) fun _ _ => fresh_yields closed closed.any

theorem latest_yields : Yields t K K (latest id) :=
  yields_bind yields_get fun _ ha => yields_pure (ha.latest (closed.ofLiteral .nil) id)

theorem settle_yields {found : Except Finding Value} (h : ∀ v, found = .ok v → K v) :
    Yields t K K (settle found span) := yields_lift (Analysis.settle_yields closed h span)

theorem load_yields (symbols : ctx.symbols = t) (name : String) :
    Yields t K K (load ctx id span name) :=
  yields_bind yields_get fun a ha => by
    split
    · next v found => exact yields_pure (ha.lookupVariable found)
    · refine settle_yields closed fun v found => ?_
      subst symbols
      exact closed.named (fun r self => ha.lookupVariable self) found

theorem loadMember_yields (symbols : ctx.symbols = t) (slot : Slot) (name : String) :
    Yields t K K (loadMember ctx id span slot name) :=
  yields_bind (operand_yields closed slot) fun target h => by
    split
    · next kept found => exact yields_pure (closed.kept h found)
    · next missing =>
      split
      · exact settle_yields closed nofun
      · next u found =>
        subst symbols
        have hu : K u := closed.member h found
        have made : Yields ctx.symbols K (fun v => ∃ next, v = (u.place next).1) (fresh u) :=
          yields_lift (Analysis.fresh_yields fun next => ⟨next, rfl⟩)
        refine yields_bind made fun v ⟨next, same⟩ => ?_
        have keeps := closed.keep h hu missing found next
        rw [same]
        exact yields_bind (rebindSlot_yields closed slot keeps) fun _ _ =>
          yields_pure (closed.place hu next)

theorem results_yields {invoke : Invoke} (sound : Invoke.Sound t K invoke)
    (symbols : ctx.symbols = t) (callee : Slot) (arguments : List Slot) :
    Yields t K (fun values => ∀ v ∈ values, K v)
      (results invoke ctx id span callee arguments) :=
  yields_bind (operand_yields closed callee) fun _ hc =>
    yields_bind (yields_mapM fun slot _ => operand_yields closed slot) fun _ hargs =>
      yields_bind yields_get fun _ _ => yields_lift
        (Analysis.call_yields closed sound (show (ctx.enter _).symbols = t from symbols) hc hargs
          span)

theorem only_affordable (options : AnalysisOptions) (size : Nat) {values : List Value}
    (h : ∀ v ∈ values, K v) : ∀ v ∈ affordable options size values, K v := by
  unfold affordable
  split
  · exact fun v hv => List.mem_singleton.1 hv ▸ closed.ofTypes h
  · exact h

theorem continueWith_yields (slot : Slot) {values : List Value} (h : ∀ v ∈ values, K v)
    (index : Nat) : Yields t K (Next.Only K) (continueWith id slot values index) := by
  unfold continueWith
  split
  · exact yields_bind (bindSlot_yields closed slot closed.any) fun _ _ => yields_pure trivial
  · next v =>
    exact yields_bind (bindSlot_yields closed slot (h v List.mem_cons_self)) fun _ _ =>
      yields_pure trivial
  · exact yields_pure h

/-- An instruction keeps a sound state, whatever the calls inside of it do that yield sound
results. -/
theorem execute_yields {invoke : Invoke} (sound : Invoke.Sound t K invoke)
    (symbols : ctx.symbols = t) (index : Nat) (step : Step) :
    Yields t K (Next.Only K) (execute invoke ctx id index step) := by
  have read {slot : Slot} {span : Span} : Yields t K K (operand id span slot) :=
    operand_yields closed slot
  have bind (slot : Slot) {v : Value} (h : K v) : Yields t K (Next.Only K) (do
      bindSlot id slot v
      return .next (index + 1)) :=
    yields_bind (bindSlot_yields closed slot h) fun _ _ => yields_pure trivial
  unfold execute
  dsimp only
  split
  · exact bind _ (closed.ofLiteral _)
  · exact yields_bind read fun _ h => bind _ (closed.unary _ h)
  · next op _ _ =>
    refine yields_bind read fun v hv => yields_bind read fun w hw => bind _ ?_
    cases found : Value.binary op v w with
    | none => exact closed.any
    | some u => exact closed.binary op hv hw found
  · exact yields_pure trivial
  · exact yields_bind read fun _ _ => fork_yields _ _ _
  · exact yields_bind (results_yields closed sound symbols _ _) fun _ h => yields_bind yields_get
      fun _ _ => continueWith_yields closed _ (only_affordable closed _ _ h) _
  · exact yields_bind (load_yields closed symbols _) fun _ h => bind _ h
  · exact yields_bind (loadMember_yields closed symbols _ _) fun _ h => bind _ h
  · refine yields_bind read fun v hv => yields_bind read fun w _ => ?_
    refine yields_bind (settle_yields closed fun u found => ?_) fun _ h => bind _ h
    subst symbols
    exact closed.element hv found
  · exact yields_bind read fun _ h => yields_bind (bindVariable_yields closed _ h)
      fun _ _ => yields_pure trivial
  · exact yields_bind read fun _ h => yields_pure h
  · exact yields_bind (latest_yields closed) fun _ h => yields_pure h

theorem step_yields {invoke : Invoke} (sound : Invoke.Sound t K invoke)
    (symbols : ctx.symbols = t) (steps : Array Step) (index : Nat) :
    Yields t K (Next.Only K) (step invoke ctx steps id index) := by
  unfold step
  split
  · exact yields_bind (latest_yields closed) fun _ h => yields_pure h
  · refine yields_bind (arrive_yields index) fun _ _ => ?_
    split
    · exact execute_yields closed sound symbols index _
    · exact yields_bind yields_get fun _ _ => yields_bind (report_yields _ _) fun _ _ =>
        yields_pure closed.any

end

end Walk

/-! ## Walks -/

/-- The values that the task waits with are of the kind `K`, and its table is that of the
analysis. -/
def Task.Sound (t : SymbolTable) (K : Value → Prop) : Task → Prop
  | path ctx _ _ => ctx.symbols = t
  | all ctx _ => ctx.symbols = t
  | each ctx _ _ values _ => ctx.symbols = t ∧ ∀ v ∈ values, K v

section Walks

variable {t : SymbolTable} {K : Value → Prop} {T : Ty → Prop} {invoke : Invoke}
  {steps : Array Step} {P : Context → Nat → Nat → State → Prop} {task : Task} {s s' : State}
  {ends : List Nat}

theorem Next.Only.sound {next : Next} (h : next.Only K) {ctx : Context} (symbols : ctx.symbols = t)
    {id : Nat} (goes : next.task? ctx id = some task) : task.Sound t K := by
  cases next with
  | next index => cases goes; exact symbols
  | stop termination v => cases goes
  | split starts => cases goes; exact symbols
  | spread slot values index => cases goes; exact ⟨symbols, h⟩

/-- A new branch for a value that a path goes on with. -/
theorem sound_each (closed : Value.Closed t K T) {id : Nat} {slot : Slot} {v : Value} (h : K v)
    (sound : State.Sound t K s)
    (bound : Gives (bindSlot s.1.size slot v) (s.1.child id, s.2) () s') : State.Sound t K s' := by
  have made : State.Sound t K (s.1.child id, s.2) := ⟨sound.arena.child id, sound.memory⟩
  exact (bindSlot_yields closed slot h made bound).2

theorem Walks.sound (closed : Value.Closed t K T) (calls : Invoke.Sound t K invoke)
    (h : Walks invoke steps P task s ends s') (sound : State.Sound t K s)
    (fits : task.Sound t K) : State.Sound t K s' := by
  induction h with
  | onward _ done goes _ ih =>
    obtain ⟨only, sound⟩ := step_yields closed calls fits steps _ sound done
    exact ih sound (only.sound fits goes)
  | stop _ done finished =>
    obtain ⟨only, sound⟩ := step_yields closed calls fits steps _ sound done
    exact (finish_yields closed _ only sound finished).2
  | allNil => exact sound
  | allCons _ _ ihFirst ihRest => exact ihRest (ihFirst sound fits) fits
  | eachNil => exact sound
  | eachCons bound _ _ ihFirst ihRest =>
    obtain ⟨symbols, values⟩ := fits
    obtain ⟨first, others⟩ := List.forall_mem_cons.1 values
    exact ihRest (ihFirst (sound_each closed first sound bound) symbols) ⟨symbols, others⟩

end Walks

/-! ## Resolutions and calls -/

namespace Analysis

/-! ### What is declared -/

section

variable {m : Method}

theorem returns_declared (m : Method) : m.Returns (declared m) := fun type declares => by
  rw [declared, declares]
  exact type.isAssignableTo_self

theorem returns_coerce (m : Method) (v : Value) : m.Returns (v.coerce m.returns) := by
  intro type declares
  rw [declares]
  exact Value.coerce_type type v

/-- What a body gives its caller fits what the method declares. -/
theorem returns_resultsOf (m : Method) (r : Resolution) : ∀ v ∈ resultsOf m r, m.Returns v := by
  intro v hv
  unfold resultsOf at hv
  split at hv
  · exact List.mem_singleton.1 hv ▸ returns_declared m
  · obtain ⟨w, -, rfl⟩ := List.mem_map.1 (Value.mem_of_mem_distinct hv)
    exact returns_coerce m w

end

section

variable {t : SymbolTable} {K : Value → Prop} {T : Ty → Prop} (closed : Value.Closed t K T)
  {invoke : Invoke} {ctx : Context}

/-- What the paths of a resolution return are values of its arena. -/
theorem only_returnValues {r : Resolution} (h : r.arena.Only K) : ∀ v ∈ r.returnValues, K v := by
  have returned (bs : List Branch) (sub : bs ⊆ r.ends) :
      ∀ v ∈ bs.filterMap Branch.returned, K v := by
    intro v hv
    obtain ⟨b, hb, back⟩ := List.mem_filterMap.1 hv
    obtain ⟨id, -, found⟩ := List.mem_filterMap.1 (sub hb)
    exact h id b found v (by simp [Branch.values, back])
  intro v hv
  unfold Resolution.returnValues Resolution.returnsOf at hv
  split at hv
  · exact returned _ (fun _ hb => hb) v hv
  · exact returned _ (List.filter_subset_self _) v hv

theorem reportLowering_yields (e : LowerError) : Yields t K (fun _ => True) (reportLowering e) :=
  yields_modify fun _ sound => sound.add _

theorem body_yields (id : Nat) :
    Yields t K (fun code? => code? = (t.method id).decl.toCode.toOption) (body t id) := by
  intro m sound
  refine ⟨body_of_faithful sound.faithful id, faithful_body sound.faithful id, ?_⟩
  intro key values found
  rw [Memory.find?, (body_keeps t id m).1] at found
  exact sound.kept key values found

include closed

theorem bindAll_yields {locals : List (String × Value)} (h : ∀ p ∈ locals, K p.2) :
    Walk.Yields t K (fun _ => True)
      (locals.forM fun (name, v) => Walk.bindVariable 0 name v) := by
  induction locals with
  | nil => exact Walk.yields_pure trivial
  | cons p rest ih =>
    obtain ⟨first, others⟩ := List.forall_mem_cons.1 h
    exact Walk.yields_bind (bindVariable_yields closed p.1 first) fun _ _ => ih others

theorem openRoot_sound {scope : Scope} {locals : List (String × Value)} {m : Memory} {s : State}
    (only : ∀ p ∈ locals, K p.2) (sound : m.Sound t K)
    (opened : Gives (openRoot scope locals) (.empty, m) () s) : State.Sound t K s := by
  obtain ⟨_, s₁, planted, bound⟩ := gives_bind_iff.1 opened
  obtain rfl := gives_modify_iff.1 planted
  exact (bindAll_yields closed only ⟨Arena.Only.root scope, sound⟩ bound).2

theorem resolve_yields (calls : Invoke.Sound t K invoke) (symbols : ctx.symbols = t) (code : Code)
    (scope : Scope) {locals : List (String × Value)} (only : ∀ p ∈ locals, K p.2) :
    Yields t K (fun r => r.arena.Only K) (resolve invoke ctx code scope locals) := by
  intro m sound
  obtain ⟨s, ends, s', opened, walks, run⟩ := resolve_walks invoke ctx code scope locals m
  have after := walks.sound closed calls (openRoot_sound closed only sound opened) symbols
  rw [run]
  exact ⟨after.arena, after.memory⟩

/-! ### Results -/

theorem only_declared (id : Nat) : K (declared (t.method id)) := by
  unfold declared
  cases returns : (t.method id).returns with
  | none => exact closed.any
  | some type => exact closed.ofType (closed.returns id type returns)

theorem only_resultsOf (id : Nat) {r : Resolution} (h : r.arena.Only K) :
    ∀ v ∈ resultsOf (t.method id) r, K v := by
  intro v hv
  unfold resultsOf at hv
  split at hv
  · exact List.mem_singleton.1 hv ▸ only_declared closed id
  · obtain ⟨w, hw, rfl⟩ := List.mem_map.1 (Value.mem_of_mem_distinct hv)
    exact closed.coerce (only_returnValues h w hw) (closed.returns id)

theorem fresh_fits {m : Method} {v : Value} (h : K v) (returns : m.Returns v) :
    Yields t K (fun v => K v ∧ m.Returns v) (fresh v) :=
  fresh_yields fun next => ⟨closed.place h next, fun type declares => by
    rw [Value.place_type]
    exact returns type declares⟩

/-- One value of the declared type, which stands for all results. -/
theorem declared_yields (id : Nat) :
    Yields t K (fun values => ∀ v ∈ values, K v ∧ (t.method id).Returns v)
      (do return [← fresh (declared (t.method id))]) :=
  yields_bind (fresh_fits closed (only_declared closed id) (returns_declared _)) fun _ hv =>
    yields_pure fun _ hu => List.mem_singleton.1 hu ▸ hv

theorem cutOff_yields (id : Nat) (span : Span) :
    Yields t K (fun values => ∀ v ∈ values, K v ∧ (t.method id).Returns v)
      (cutOff t id span) := by
  refine yields_bind (yields_modify fun _ sound => ⟨sound.faithful, sound.kept⟩) fun _ _ => ?_
  exact yields_bind (report_yields _ span) fun _ _ => declared_yields closed id

theorem leave_yields (id : Nat) (receiver : Option Value) (arguments : List Value) (cutoffs : Nat)
    {r : Resolution} (h : r.arena.Only K) :
    Yields t K (fun values => ∀ v ∈ values, K v ∧ (t.method id).Returns v)
      (leave t id receiver arguments cutoffs r) := by
  refine yields_bind (yields_modify fun _ sound => sound.pop) fun _ _ => ?_
  refine yields_bind (yields_mapM fun v hv =>
    fresh_fits closed (only_resultsOf closed id h v hv) (returns_resultsOf _ r v hv))
      fun values hvs => yields_bind yields_get fun m _ => ?_
  dsimp only
  split
  · exact yields_bind (yields_modify fun _ sound => sound.remember hvs) fun _ _ => yields_pure hvs
  · exact yields_pure hvs

/-! ### Entering a method -/

theorem only_entryVariables (id : Nat) {receiver : Option Value} {arguments : List Value}
    (hr : ∀ r, receiver = some r → K r) (ha : ∀ v ∈ arguments, K v) :
    ∀ p ∈ t.entryVariables (t.method id) receiver arguments, K p.2 := by
  intro p hp
  rcases List.mem_append.1 hp with bound | self
  · obtain ⟨⟨q, i⟩, hq, rfl⟩ := List.mem_map.1 bound
    refine closed.bound (closed.params id q ?_) fun v found => ?_
    · exact List.mem_of_getElem? (List.mem_zipIdx_iff_getElem?.1 hq)
    · exact ha v (List.mem_of_getElem? found)
  · obtain ⟨v, given, rfl⟩ := Option.map_eq_some_iff.1 (Option.mem_toList.1 self)
    obtain ⟨owner, mine, rfl⟩ := Option.map_eq_some_iff.1 given
    cases receiver with
    | none => exact closed.ofType (closed.owner id owner mine)
    | some r => exact hr r rfl

theorem only_variablesIn {scope : Scope}
    (owner : ∀ owner, scope.owner = some owner → T (t.instanceType owner)) :
    ∀ p ∈ t.scopeVariables scope, K p.2 := by
  unfold SymbolTable.scopeVariables
  split
  · exact only_entryVariables closed _ nofun nofun
  · next mine => exact fun p hp => List.mem_singleton.1 hp ▸ closed.ofType (owner _ mine)
  · nofun

/-! ### Calls -/

theorem follow_yields (calls : Invoke.Sound t K invoke) (symbols : ctx.symbols = t) (id : Nat)
    {receiver : Option Value} {arguments : List Value} (hr : ∀ r, receiver = some r → K r)
    (ha : ∀ v ∈ arguments, K v) :
    Yields t K (fun values => ∀ v ∈ values, K v ∧ (t.method id).Returns v)
      (follow invoke ctx id receiver arguments) := by
  subst symbols
  refine yields_bind (body_yields id) fun code? _ => ?_
  split
  · exact declared_yields closed id
  · next code _ =>
    refine yields_bind yields_get fun m _ => ?_
    refine yields_bind (yields_modify fun _ sound => sound.push _) fun _ _ => ?_
    refine yields_bind (resolve_yields closed calls rfl code _
      (only_entryVariables closed id hr ha)) fun r h => ?_
    exact leave_yields closed id receiver arguments _ h

theorem invokeWith_yields {deeper : Option Invoke}
    (calls : ∀ invoke, deeper = some invoke → Invoke.Sound t K invoke) :
    Invoke.Sound t K (invokeWith deeper) := by
  intro ctx symbols id receiver arguments span hr ha
  refine yields_bind yields_get fun m sound => ?_
  split
  · next values found =>
    subst symbols
    exact yields_pure (sound.kept _ values found)
  · split
    · exact symbols ▸ cutOff_yields closed id span
    · next deeper =>
      split
      · exact symbols ▸ cutOff_yields closed id span
      · exact follow_yields closed (calls deeper rfl) symbols id hr ha

/-- Whatever values of the kind a method is called with, its results are of the kind and fit what
it declares. -/
theorem invoke_yields : ∀ depth, Invoke.Sound t K (Analysis.invoke depth)
  | 0 => invokeWith_yields closed nofun
  | depth + 1 => invokeWith_yields closed fun _ h => Option.some.inj h ▸ invoke_yields depth

theorem calls_yields (ctx : Context) (m : Memory) : Invoke.Sound t K (calls ctx m) :=
  invoke_yields closed _

/-! ## Queries -/

theorem resolveCode_yields (symbols : ctx.symbols = t) (code : Code) {scope : Scope}
    (owner : ∀ owner, scope.owner = some owner → T (t.instanceType owner)) :
    Yields t K (fun r => r.arena.Only K) (resolveCode ctx code scope) := by
  subst symbols
  exact yields_bind yields_get fun m _ =>
    resolve_yields closed (calls_yields closed ctx m) rfl code scope
      (only_variablesIn closed owner)

theorem resolveMethod_yields (symbols : ctx.symbols = t) (id : Nat) :
    Yields t K (fun r => r.arena.Only K) (resolveMethod ctx id) := by
  subst symbols
  refine yields_bind (body_yields id) fun code? _ => ?_
  split
  · exact yields_pure nofun
  · next code _ =>
    refine yields_bind (yields_modify fun _ sound => sound.push _) fun _ _ => ?_
    refine yields_bind yields_get fun m _ => ?_
    refine yields_bind (resolve_yields closed (calls_yields closed ctx m) rfl code _
      (only_variablesIn closed (closed.owner id))) fun r h => ?_
    exact yields_bind (yields_modify fun _ sound => sound.pop) fun _ _ => yields_pure h

theorem returnType_yields (symbols : ctx.symbols = t) (id : Nat) :
    Yields t K (fun _ => True) (returnType ctx id) := by
  refine yields_bind (resolveMethod_yields closed symbols id) fun r _ => ?_
  dsimp only
  split <;> exact yields_pure trivial

theorem typeAt_yields (symbols : ctx.symbols = t) (id : Nat) (span : Span) :
    Yields t K (fun _ => True) (typeAt ctx id span) :=
  yields_bind (resolveMethod_yields closed symbols id) fun _ _ => yields_pure trivial

theorem typeOfExpression_yields (symbols : ctx.symbols = t) (e : Expr) {scope : Scope}
    (owner : ∀ owner, scope.owner = some owner → T (t.instanceType owner)) :
    Yields t K (fun _ => True) (typeOfExpression ctx e scope) := by
  unfold typeOfExpression
  split
  · exact yields_bind (resolveCode_yields closed symbols _ owner) fun _ _ => yields_pure trivial
  · exact yields_bind (reportLowering_yields _) fun _ _ => yields_pure trivial

end

theorem only_scopeVariables {t : SymbolTable} {K : Value → Prop} {T : Ty → Prop}
    (closed : Value.ClosedAnywhere t K T) (scope : Scope) : ∀ p ∈ t.scopeVariables scope, K p.2 :=
  only_variablesIn closed.toClosed fun owner _ => closed.instances owner

end Analysis

end PathTyping
