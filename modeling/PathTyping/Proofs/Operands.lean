import PathTyping.Proofs.Roles
import PathTyping.Proofs.Histories
import PathTyping.Proofs.Kinds

/-!
# Every operand has a value

Where code accounts for what it reads, a path that comes to an instruction sees on its branch, or on
those that its branch comes from, the value of each slot that the instruction reads.  Slots may be
bound on a branch and read on a later one: a call in the middle of an expression makes a branch for
each of its results, or goes on with one value where there is no room for that.

1. `Arena.Sees`: what a branch sees goes on to be seen, on it and on the branches behind it.
2. A step reports no operand to be without a value, and leaves the next instruction with its
   operands (`step_ready`).  So does a walk (`Walks.clean`), whatever calls do that report none.
3. No query reports one (`Query.clean_history`).
4. `operands_found`: on any control path of a body or of an expression, each operand has been
   computed where its role says, and no analysis reports that one is missing.
-/

namespace PathTyping

open Walk

/-! ## What is reported -/

/-- The diagnostic says that an operand has no value. -/
def Diagnostic.IsMissingOperand (d : Diagnostic) : Prop :=
  d.kind = some .invalidOperandShape ∧
    ∃ operand, d.message = "operand " ++ operand ++ " has no value on this path"

/-- No operand was reported to have no value. -/
def Report.OperandsFound (r : Report) : Prop := ∀ d ∈ r.entries, ¬ d.IsMissingOperand

theorem Report.OperandsFound.add {r : Report} (h : r.OperandsFound) {d : Diagnostic}
    (other : ¬ d.IsMissingOperand) : (r.add d).OperandsFound := fun _ hd =>
  (mem_add hd).elim (h _) fun same => same ▸ other

theorem Report.OperandsFound.merge {r r' : Report} (h : r.OperandsFound)
    (h' : r'.OperandsFound) : (r.merge r').OperandsFound := by
  obtain ⟨entries⟩ := r'
  induction entries generalizing r with
  | nil => exact h
  | cons d rest ih =>
    obtain ⟨first, others⟩ := List.forall_mem_cons.1 h'
    exact ih (h.add first) others

theorem head?_toList_append {s : String} {c : Char} (h : s.toList.head? = some c) (t : String) :
    (s ++ t).toList.head? = some c := by
  rw [String.toList_append, List.head?_append, h]
  rfl

theorem Report.Kindless.operandsFound {r : Report} (h : r.Kindless) : r.OperandsFound :=
  fun d hd missing => by cases (h d hd).symm.trans missing.1

/-- Only what says that an operand is missing is such a diagnostic: of the findings of its kind, the
messages of the others begin with other letters. -/
theorem Finding.not_isMissingOperand {f : Finding} (h : ∀ slot, f ≠ .missingOperand slot)
    (span : Span) : ¬ (f.diagnostic span).IsMissingOperand := by
  rintro ⟨kind, operand, message⟩
  have begins : (f.diagnostic span).message.toList.head? = some 'o' := by
    rw [message]
    exact head?_toList_append (head?_toList_append rfl _) _
  cases f with
  | missingOperand slot => exact h slot rfl
  | notIndexable target key =>
    have other : (Finding.notIndexable target key).message.toList.head? = some 'c' :=
      head?_toList_append (head?_toList_append (head?_toList_append rfl _) _) _
    cases begins.symm.trans other
  | notCallable type =>
    have other : (Finding.notCallable type).message.toList.head? = some 'v' :=
      head?_toList_append (head?_toList_append rfl _) _
    cases begins.symm.trans other
  | _ => cases kind

theorem Finding.isMissingOperand_iff {f : Finding} {span : Span} :
    (f.diagnostic span).IsMissingOperand ↔ ∃ slot, f = .missingOperand slot := by
  constructor
  · intro missing
    by_contra other
    exact not_isMissingOperand (fun slot same => other ⟨slot, same⟩) span missing
  · rintro ⟨slot, rfl⟩
    exact ⟨rfl, _, rfl⟩

namespace SymbolTable

variable {t : SymbolTable} {f : Finding}

theorem named_ne_missingOperand {owner : Option Nat} {self? : Option Value} {name : String}
    (h : t.named owner self? name = .error f) (slot : Slot) : f ≠ .missingOperand slot := by
  unfold named at h
  dsimp only at h
  split at h <;> cases h
  nofun

theorem member_ne_missingOperand {target : Value} {name : String}
    (h : t.member target name = .error f) (slot : Slot) : f ≠ .missingOperand slot := by
  unfold member at h
  split at h <;> cases h
  nofun

theorem element_ne_missingOperand {target key : Value} (h : t.element target key = .error f)
    (slot : Slot) : f ≠ .missingOperand slot := by
  have entry {f : Finding} (h : t.entry target key = .error f) : f ≠ .missingOperand slot := by
    unfold SymbolTable.entry at h
    split at h
    · exact member_ne_missingOperand h slot
    · split at h <;> cases h
      exact fun same => by cases same
  unfold element at h
  split at h
  · cases h
  · cases h
  · cases h
  · exact entry h
  · exact entry h
  · cases h
    exact fun same => by cases same

end SymbolTable

/-! ## What an analysis remembers -/

/-- The code that is kept is that of the bodies, and no operand was reported to be missing. -/
structure Memory.Clean (t : SymbolTable) (m : Memory) : Prop where
  faithful : m.Faithful t
  found : m.report.OperandsFound

namespace Memory.Clean

variable {t : SymbolTable} {m : Memory}

theorem empty (t : SymbolTable) : Memory.empty.Clean t := ⟨nofun, nofun⟩

theorem add (h : m.Clean t) {d : Diagnostic} (other : ¬ d.IsMissingOperand) : (m.add d).Clean t :=
  ⟨h.faithful, h.found.add other⟩

/-- Cleanliness is a matter of the code and the report that are kept. -/
theorem of_eq (h : m.Clean t) {m' : Memory} (bodies : m'.bodies = m.bodies)
    (report : m'.report = m.report) : m'.Clean t :=
  ⟨fun id kept found => h.faithful id kept (bodies ▸ found), report ▸ h.found⟩

theorem place (h : m.Clean t) (v : Value) : (m.place v).2.Clean t := h.of_eq rfl rfl

end Memory.Clean

namespace Analysis

variable {t : SymbolTable} {α β : Type}

/-- From a clean memory on, `y` leaves a clean memory. -/
def StaysClean (t : SymbolTable) (y : Analysis α) : Prop :=
  ∀ ⦃m⦄, m.Clean t → (y.run m).2.Clean t

theorem clean_pure (v : α) : StaysClean t (pure v) := fun _ h => h

theorem clean_bind {y : Analysis α} {f : α → Analysis β} (hy : StaysClean t y)
    (hf : ∀ v, StaysClean t (f v)) : StaysClean t (y >>= f) := fun m h => by
  rw [StateT.run_bind]
  exact hf _ (hy h)

theorem clean_get : StaysClean t (get : Analysis Memory) := fun _ h => h

theorem clean_modify {f : Memory → Memory} (h : ∀ m, m.Clean t → (f m).Clean t) :
    StaysClean t (modify f : Analysis Unit) := fun m hm => h m hm

theorem clean_mapM {γ : Type} {f : γ → Analysis α} (h : ∀ x, StaysClean t (f x)) (xs : List γ) :
    StaysClean t (xs.mapM f) := by
  induction xs with
  | nil => exact clean_pure _
  | cons x rest ih =>
    rw [List.mapM_cons]
    exact clean_bind (h x) fun _ => clean_bind ih fun _ => clean_pure _

theorem clean_fresh (v : Value) : StaysClean t (fresh v) := fun _ h => h.place v

theorem clean_report {f : Finding} (h : ∀ slot, f ≠ .missingOperand slot) (span : Span) :
    StaysClean t (report f span) :=
  clean_modify fun _ hm => hm.add (Finding.not_isMissingOperand h span)

theorem clean_settle {found : Except Finding Value}
    (h : ∀ f, found = .error f → ∀ slot, f ≠ .missingOperand slot) (span : Span) :
    StaysClean t (settle found span) := by
  cases found with
  | ok v => exact clean_pure v
  | error f => exact clean_bind (clean_report (h f rfl) span) fun _ => clean_pure _

theorem clean_reportFault {fault : Option Finding}
    (h : ∀ f, fault = some f → ∀ slot, f ≠ .missingOperand slot) (span : Span) :
    StaysClean t (reportFault fault span) := by
  cases fault with
  | none => exact clean_pure _
  | some f => exact clean_report (h f rfl) span

/-! ### Calls before a body is entered -/

theorem constructionFault_ne_missingOperand {id : Nat} {arguments : List Ty} {f : Finding}
    (h : constructionFault t id arguments = some f) (slot : Slot) : f ≠ .missingOperand slot := by
  unfold constructionFault at h
  dsimp only at h
  split at h
  · split at h <;> cases h
    nofun
  · split at h <;> cases h
    nofun

theorem clean_construct (ctx : Context) (id : Nat) (arguments : List Value) (span : Span) :
    StaysClean t (construct ctx id arguments span) :=
  clean_bind (clean_reportFault (fun _ h => constructionFault_ne_missingOperand h) span) fun _ =>
    clean_pure _

theorem clean_receiver? (ctx : Context) (callee : Value) : StaysClean t (receiver? ctx callee) :=
  clean_bind clean_get fun _ => clean_pure _

theorem clean_requestMembers (ctx : Context) (callee : Value) (members : List Member)
    (arguments : List Value) (span : Span) :
    StaysClean t (requestMembers ctx callee members arguments span) := by
  unfold requestMembers
  dsimp only
  split
  · exact clean_pure _
  · next choice _ =>
    refine clean_bind (clean_reportFault (fun f h => ?_) span) fun _ => ?_
    · split at h <;> cases h
      nofun
    · split
      · exact clean_bind (clean_receiver? ctx callee) fun _ => clean_pure _
      · exact clean_pure _
      · exact clean_pure _

theorem clean_request (ctx : Context) (callee : Value) (arguments : List Value) (span : Span) :
    StaysClean t (request ctx callee arguments span) := by
  unfold request
  split
  · exact clean_bind (clean_construct ctx _ arguments span) fun _ => clean_pure _
  · exact clean_requestMembers ctx callee _ arguments span
  · split
    · exact clean_pure _
    · exact clean_pure _
    · refine clean_bind (clean_report ?_ span) fun _ => clean_pure _
      nofun

end Analysis

/-- Whatever a method is called with, the call leaves a clean memory. -/
def Invoke.Clean (t : SymbolTable) (invoke : Invoke) : Prop :=
  ∀ ctx, ctx.symbols = t → ∀ id receiver arguments span,
    Analysis.StaysClean t (invoke ctx id receiver arguments span)

theorem Analysis.clean_call {t : SymbolTable} {invoke : Invoke} (clean : Invoke.Clean t invoke)
    {ctx : Context} (symbols : ctx.symbols = t) (callee : Value) (arguments : List Value)
    (span : Span) : StaysClean t (call invoke ctx callee arguments span) := by
  refine clean_bind (clean_request ctx callee arguments span) fun request => ?_
  cases request with
  | answered values => exact clean_pure _
  | enter id receiver => exact clean ctx symbols id receiver arguments span

/-! ## What a path sees -/

/-- What instruction `i` writes into `slot` is there whenever control comes to `j`: there is no jump
from one to the other, and none leads between them. -/
structure Carries (steps : List Step) (i j : Nat) (slot : Slot) : Prop where
  before : i < j
  result : ∃ step, steps[i]? = some step ∧ step.instr.result? = some slot
  straight : Straight steps i j
  undisturbed : ∀ (k : Nat) (step : Step) (t : Nat), steps[k]? = some step →
    step.instr.target? = some t → ¬ (i < t ∧ t ≤ j)

/-- Each slot that an instruction reads is carried to it. -/
def Supplied (steps : List Step) : Prop :=
  ∀ (j : Nat) (step : Step), steps[j]? = some step → ∀ slot ∈ step.instr.operands,
    ∃ i, Carries steps i j slot

theorem Accounts.carries {steps : List Step} {roles : List Role} (h : Accounts steps roles) :
    Supplied steps := fun j step found slot hs => by
  obtain ⟨role, -, -, supplied⟩ := h.supplied j step found
  have each : List.Forall₂ (fun slot _ => (∃ i, Carries steps i j slot) ∧ True) step.instr.operands
      role.operands := supplied.imp fun _ p h =>
    ⟨⟨p.2, h.before, h.computes.result, h.straight, h.undisturbed⟩, trivial⟩
  exact ((List.forall₂_and_left _ _).1 each).1 slot hs

namespace Carries

variable {steps : List Step} {i j : Nat} {slot : Slot} {step : Step}

/-- What is carried to the next instruction was written by this one or has been carried to it. -/
theorem of_succ (h : Carries steps i (j + 1) slot) (found : steps[j]? = some step) :
    step.instr.result? = some slot ∨ Carries steps i j slot := by
  rcases Nat.lt_or_eq_of_le (Nat.le_of_lt_succ h.before) with before | rfl
  · exact .inr ⟨before, h.result, h.straight.within (Nat.le_refl _) (Nat.le_succ _),
      fun k step t found jumps between =>
        h.undisturbed k step t found jumps ⟨between.1, Nat.le_succ_of_le between.2⟩⟩
  · obtain ⟨step', found', writes⟩ := h.result
    cases found.symm.trans found'
    exact .inl writes

/-- Nothing is carried past a jump. -/
theorem not_past_jump {t : Nat} (found : steps[j]? = some step)
    (jump : step.instr.target? = some t) : ¬ Carries steps i (j + 1) slot := fun h => by
  obtain ⟨step', found', stays⟩ := h.straight j (Nat.le_of_lt_succ h.before) (Nat.lt_succ_self j)
  cases found.symm.trans found'
  cases jump.symm.trans stays

/-- Nothing is carried to where a jump leads. -/
theorem not_to_target {k : Nat} (found : steps[k]? = some step)
    (jump : step.instr.target? = some j) : ¬ Carries steps i j slot := fun h =>
  h.undisturbed k step j found jump ⟨h.before, Nat.le_refl _⟩

end Carries

namespace Arena

/-- What is carried to `index` is seen on branch `id`. -/
def Sees (steps : List Step) (a : Arena) (id index : Nat) : Prop :=
  ∀ i slot, Carries steps i index slot → (a.lookupSlot id slot).isSome = true

/-- What is bound on a branch goes on to be seen. -/
theorem isSome_lookupSlot_modify {a : Arena} {id : Nat} {slot : Slot} {f : Branch → Branch}
    (there : id < a.size) (parent : ∀ b, (f b).parent = b.parent)
    (keeps : ∀ b : Branch, (Assoc.find? b.slots slot).isSome = true →
      (Assoc.find? (f b).slots slot).isSome = true)
    (h : (a.lookupSlot id slot).isSome = true) :
    ((a.modify id f).lookupSlot id slot).isSome = true := by
  obtain ⟨b, found⟩ := exists_branch there
  obtain ⟨rest, lineage⟩ := lineage_eq_cons found
  rw [lookupSlot_eq lineage, Option.isSome_or, Bool.or_eq_true] at h
  rw [lookupSlot_eq (lineage_modify (parent b) found lineage), Option.isSome_or, Bool.or_eq_true]
  exact h.imp_left (keeps b)

/-- What a branch sees is seen on a new branch behind it. -/
theorem isSome_lookupSlot_child {a : Arena} {id : Nat} {slot : Slot} (there : id < a.size)
    (h : (a.lookupSlot id slot).isSome = true) :
    ((a.child id).lookupSlot a.size slot).isSome = true := by
  have lineage := lineage_of_parent (a.branch?_child_size id) rfl there
  rw [lineage_congr fun k hk => a.branch?_child_of_lt id (Nat.lt_of_le_of_lt hk there)] at lineage
  rw [lookupSlot_eq lineage, Option.isSome_or, Bool.or_eq_true]
  exact .inr h

end Arena

namespace Walk

/-- A path on branch `id` comes to `index` and finds there what is carried to it; no operand was
reported to be missing. -/
structure State.Ready (t : SymbolTable) (steps : List Step) (id index : Nat) (s : State) :
    Prop where
  there : id < s.1.size
  sees : s.1.Sees steps id index
  clean : s.2.Clean t

/-- From a state on in which a path is ready, `x` leaves such a state. -/
def StaysReady {α : Type} (t : SymbolTable) (steps : List Step) (id index : Nat) (x : Walk α) :
    Prop :=
  ∀ ⦃s v s'⦄, State.Ready t steps id index s → Gives x s v s' → State.Ready t steps id index s'

section StaysReady

variable {t : SymbolTable} {steps : List Step} {id index : Nat} {α β : Type}

theorem ready_pure (v : α) : StaysReady t steps id index (pure v) := fun _ _ _ h given =>
  (gives_pure_iff.1 given).2 ▸ h

theorem ready_bind {x : Walk α} {f : α → Walk β} (hx : StaysReady t steps id index x)
    (hf : ∀ v, StaysReady t steps id index (f v)) : StaysReady t steps id index (x >>= f) :=
  fun _ _ _ h given => by
    obtain ⟨v, s₁, given, given'⟩ := gives_bind_iff.1 given
    exact hf v (hx h given) given'

theorem ready_get : StaysReady t steps id index (get : Walk Arena) := fun _ _ _ h given =>
  (gives_get_iff.1 given).2 ▸ h

theorem ready_lift {y : Analysis α} (hy : Analysis.StaysClean t y) :
    StaysReady t steps id index (liftM y : Walk α) := fun _ _ _ h given => by
  obtain ⟨rfl, -⟩ := gives_lift_iff.1 given
  exact ⟨h.there, h.sees, hy h.clean⟩

theorem ready_modify {f : Branch → Branch} (parent : ∀ b, (f b).parent = b.parent)
    (keeps : ∀ slot (b : Branch), (Assoc.find? b.slots slot).isSome = true →
      (Assoc.find? (f b).slots slot).isSome = true) :
    StaysReady t steps id index (modify (·.modify id f) : Walk Unit) := fun s _ _ h given => by
  obtain rfl := gives_modify_iff.1 given
  refine ⟨?_, fun i slot carried => ?_, h.clean⟩
  · rw [Arena.size_modify]
    exact h.there
  · exact Arena.isSome_lookupSlot_modify h.there parent (keeps slot) (h.sees i slot carried)

theorem isSome_find?_insert {slots : List (Slot × Value)} {slot : Slot}
    (h : (Assoc.find? slots slot).isSome = true) (other : Slot) (v : Value) :
    (Assoc.find? (Assoc.insert slots other v) slot).isSome = true := by
  by_cases same : other = slot
  · rw [same, Assoc.find?_insert_self]
    rfl
  · rwa [Assoc.find?_insert_of_ne _ _ same]

theorem ready_fresh (v : Value) : StaysReady t steps id index (fresh v) :=
  ready_lift (Analysis.clean_fresh v)

theorem ready_bindSlot (slot : Slot) (v : Value) :
    StaysReady t steps id index (bindSlot id slot v) :=
  ready_bind (ready_fresh v) fun _ =>
    ready_modify (fun _ => rfl) fun _ _ h => isSome_find?_insert h _ _

theorem ready_rebindSlot (slot : Slot) (v : Value) :
    StaysReady t steps id index (rebindSlot id slot v) :=
  ready_bind (ready_fresh v) fun _ =>
    ready_modify (fun _ => rfl) fun _ _ h => isSome_find?_insert h _ _

theorem ready_bindVariable (name : String) (v : Value) :
    StaysReady t steps id index (bindVariable id name v) :=
  ready_bind (ready_fresh v) fun _ => ready_modify (fun _ => rfl) fun _ _ h => h

/-- What is carried to the instruction is found where it is read. -/
theorem ready_operand {i : Nat} {slot : Slot} (carried : Carries steps i index slot) (span : Span) :
    StaysReady t steps id index (operand id span slot) := fun s _ _ h given => by
  obtain ⟨a, s₁, got, given⟩ := gives_bind_iff.1 given
  obtain ⟨rfl, rfl⟩ := gives_get_iff.1 got
  obtain ⟨v, found⟩ := Option.isSome_iff_exists.1 (h.sees i slot carried)
  rw [found] at given
  exact (gives_pure_iff.1 given).2 ▸ h

theorem ready_operands {slots : List Slot}
    (carried : ∀ slot ∈ slots, ∃ i, Carries steps i index slot) (span : Span) :
    StaysReady t steps id index (slots.mapM (operand id span)) := by
  induction slots with
  | nil => exact ready_pure _
  | cons slot rest ih =>
    obtain ⟨⟨i, first⟩, others⟩ := List.forall_mem_cons.1 carried
    rw [List.mapM_cons]
    exact ready_bind (ready_operand first span) fun _ => ready_bind (ih others) fun _ =>
      ready_pure _

theorem ready_latest : StaysReady t steps id index (latest id) :=
  ready_bind ready_get fun _ => ready_pure _

theorem ready_settle {found : Except Finding Value}
    (h : ∀ f, found = .error f → ∀ slot, f ≠ .missingOperand slot) (span : Span) :
    StaysReady t steps id index (settle found span) := ready_lift (Analysis.clean_settle h span)

theorem ready_load (ctx : Context) (span : Span) (name : String) :
    StaysReady t steps id index (load ctx id span name) :=
  ready_bind ready_get fun a => by
    split
    · exact ready_pure _
    · exact ready_settle (fun _ h => SymbolTable.named_ne_missingOperand h) span

theorem ready_loadMember (ctx : Context) {i : Nat} {slot : Slot}
    (carried : Carries steps i index slot) (span : Span) (name : String) :
    StaysReady t steps id index (loadMember ctx id span slot name) :=
  ready_bind (ready_operand carried span) fun target => by
    split
    · exact ready_pure _
    · split
      · next f missing =>
        refine ready_settle (fun _ same => ?_) span
        cases same
        exact SymbolTable.member_ne_missingOperand missing
      · exact ready_bind (ready_fresh _) fun _ => ready_bind (ready_rebindSlot _ _) fun _ =>
          ready_pure _

theorem ready_results {invoke : Invoke} (calls : Invoke.Clean t invoke) {ctx : Context}
    (symbols : ctx.symbols = t) {callee : Slot} {arguments : List Slot}
    (carried : ∀ slot ∈ callee :: arguments, ∃ i, Carries steps i index slot) (span : Span) :
    StaysReady t steps id index (results invoke ctx id span callee arguments) := by
  obtain ⟨⟨i, first⟩, others⟩ := List.forall_mem_cons.1 carried
  exact ready_bind (ready_operand first span) fun _ => ready_bind (ready_operands others span)
    fun _ => ready_bind ready_get fun a => ready_lift <|
      Analysis.clean_call calls (show (ctx.enter a).symbols = t from symbols) _ _ span

end StaysReady

end Walk

/-! ## Steps -/

/-- Where paths of the task begin, they find what is carried there; what is carried to where a value
is waited with is seen or is that value. -/
def Task.Ready (steps : List Step) (a : Arena) : Task → Prop
  | path _ id index => a.Sees steps id index
  | all _ starts => ∀ start ∈ starts, ∀ i slot, ¬ Carries steps i start.2 slot
  | each _ id slot _ index => ∀ i other, Carries steps i index other →
      other = slot ∨ (a.lookupSlot id other).isSome = true

namespace Walk

/-- From a state on in which a path is ready, `x` says how the path goes on, and it is ready to. -/
def GoesReady (t : SymbolTable) (steps : List Step) (id index : Nat) (x : Walk Next) : Prop :=
  ∀ ⦃s next s'⦄, State.Ready t steps id index s → Gives x s next s' →
    s'.2.Clean t ∧ ∀ ctx task, next.task? ctx id = some task → task.Ready steps s'.1

section GoesReady

variable {t : SymbolTable} {steps : List Step} {id index : Nat} {ctx : Context} {step : Step}

theorem StaysReady.before {α : Type} {x : Walk α} {f : α → Walk Next}
    (hx : StaysReady t steps id index x) (hf : ∀ v, GoesReady t steps id index (f v)) :
    GoesReady t steps id index (x >>= f) := fun _ _ _ h given => by
  obtain ⟨v, s₁, given, given'⟩ := gives_bind_iff.1 given
  exact hf v (hx h given) given'

theorem goesReady_stop (termination : Termination) (v : Value) :
    GoesReady t steps id index (pure (.stop termination v)) := fun _ _ _ h given => by
  obtain ⟨rfl, rfl⟩ := gives_pure_iff.1 given
  exact ⟨h.clean, nofun⟩

/-- Behind a jump nothing is carried on. -/
theorem goesReady_afresh {next : Nat} (afresh : ∀ i slot, ¬ Carries steps i next slot) :
    GoesReady t steps id index (pure (.next next)) := fun _ _ _ h given => by
  obtain ⟨rfl, rfl⟩ := gives_pure_iff.1 given
  refine ⟨h.clean, ?_⟩
  rintro _ _ ⟨⟩ i slot carried
  exact absurd carried (afresh i slot)

/-- Behind an instruction without a result, what was carried to it is carried on. -/
theorem goesReady_next (found : steps[index]? = some step) (none_ : step.instr.result? = none) :
    GoesReady t steps id index (pure (.next (index + 1))) := fun _ _ _ h given => by
  obtain ⟨rfl, rfl⟩ := gives_pure_iff.1 given
  refine ⟨h.clean, ?_⟩
  rintro _ _ ⟨⟩ i slot carried
  rcases carried.of_succ found with result | carried
  · cases none_.symm.trans result
  · exact h.sees i slot carried

/-- Behind an instruction whose result is bound, that is carried on as well. -/
theorem goesReady_bind (found : steps[index]? = some step) {result : Slot}
    (writes : step.instr.result? = some result) (v : Value) :
    GoesReady t steps id index (do
      bindSlot id result v
      return .next (index + 1)) := fun s next s' h given => by
  obtain ⟨_, s₁, bound, given⟩ := gives_bind_iff.1 given
  obtain ⟨rfl, rfl⟩ := gives_pure_iff.1 given
  have ready := ready_bindSlot result v h bound
  refine ⟨ready.clean, ?_⟩
  rintro _ _ ⟨⟩ i slot carried
  rcases carried.of_succ found with same | carried
  · cases writes.symm.trans same
    obtain ⟨w, s₂, made, bound⟩ := gives_bind_iff.1 bound
    obtain ⟨rfl, -⟩ := gives_lift_iff.1 made
    obtain rfl := gives_modify_iff.1 bound
    obtain ⟨b, there⟩ := Arena.exists_branch h.there
    rw [Arena.lookupSlot_bindSlot there]
    rfl
  · exact ready.sees i slot carried

theorem goesReady_fork (options : AnalysisOptions) {target : Nat}
    (afresh : ∀ i slot, ¬ Carries steps i (index + 1) slot)
    (afresh' : ∀ i slot, ¬ Carries steps i target slot) :
    GoesReady t steps id index (fork options id target (index + 1)) := fun s next s' h given => by
  obtain ⟨a, s₁, got, given⟩ := gives_bind_iff.1 given
  obtain ⟨rfl, rfl⟩ := gives_get_iff.1 got
  split at given
  · exact goesReady_afresh afresh h given
  · split at given
    · obtain ⟨fall, s₂, made, given⟩ := gives_bind_iff.1 given
      obtain ⟨-, rfl⟩ := gives_child_iff.1 made
      obtain ⟨taken, s₃, made, given⟩ := gives_bind_iff.1 given
      obtain ⟨-, rfl⟩ := gives_child_iff.1 made
      obtain ⟨rfl, rfl⟩ := gives_pure_iff.1 given
      refine ⟨h.clean, ?_⟩
      rintro _ _ ⟨⟩ start hs
      rcases List.mem_pair.1 hs with rfl | rfl
      · exact afresh
      · exact afresh'
    · obtain ⟨fall, s₂, made, given⟩ := gives_bind_iff.1 given
      obtain ⟨-, rfl⟩ := gives_child_iff.1 made
      obtain ⟨rfl, rfl⟩ := gives_pure_iff.1 given
      refine ⟨h.clean, ?_⟩
      rintro _ _ ⟨⟩ start hs
      exact List.mem_singleton.1 hs ▸ afresh

theorem goesReady_continueWith (found : steps[index]? = some step) {result : Slot}
    (writes : step.instr.result? = some result) (values : List Value) :
    GoesReady t steps id index (continueWith id result values (index + 1)) := by
  unfold continueWith
  split
  · exact goesReady_bind found writes _
  · exact goesReady_bind found writes _
  · intro s next s' h given
    obtain ⟨rfl, rfl⟩ := gives_pure_iff.1 given
    refine ⟨h.clean, ?_⟩
    rintro _ _ ⟨⟩ i slot carried
    rcases carried.of_succ found with same | carried
    · exact .inl (Option.some.inj (same.symm.trans writes))
    · exact .inr (h.sees i slot carried)

/-- An instruction finds its operands, and hands on what is carried on. -/
theorem execute_ready {invoke : Invoke} (calls : Invoke.Clean t invoke)
    (symbols : ctx.symbols = t) (supplied : Supplied steps) (found : steps[index]? = some step) :
    GoesReady t steps id index (execute invoke ctx id index step) := by
  obtain ⟨instr, span⟩ := step
  have carried : ∀ slot ∈ instr.operands, ∃ i, Carries steps i index slot := supplied index _ found
  have read {slot : Slot} (hs : slot ∈ instr.operands) :
      StaysReady t steps id index (operand id span slot) := by
    obtain ⟨i, carried⟩ := carried slot hs
    exact ready_operand carried span
  cases instr with
  | const result l => exact goesReady_bind found rfl _
  | unary result op x =>
    exact (read List.mem_cons_self).before fun _ => goesReady_bind found rfl _
  | binary result x op y =>
    exact (read List.mem_cons_self).before fun _ =>
      (read (List.mem_cons_of_mem _ List.mem_cons_self)).before fun _ => goesReady_bind found rfl _
  | goto target => exact goesReady_afresh fun _ _ => Carries.not_to_target found rfl
  | gotoIf target condition expected =>
    exact (read List.mem_cons_self).before fun _ => goesReady_fork ctx.options
      (fun _ _ => Carries.not_past_jump found rfl) fun _ _ => Carries.not_to_target found rfl
  | call result callee arguments =>
    exact (ready_results calls symbols carried span).before fun _ => ready_get.before fun _ =>
      goesReady_continueWith found rfl _
  | load result name => exact (ready_load ctx span name).before fun _ => goesReady_bind found rfl _
  | member result target name =>
    obtain ⟨i, carried⟩ := carried target List.mem_cons_self
    exact (ready_loadMember ctx carried span name).before fun _ => goesReady_bind found rfl _
  | index result target key =>
    exact (read List.mem_cons_self).before fun _ =>
      (read (List.mem_cons_of_mem _ List.mem_cons_self)).before fun _ =>
        (ready_settle (fun _ h => SymbolTable.element_ne_missingOperand h) span).before fun _ =>
          goesReady_bind found rfl _
  | store name value =>
    exact (read List.mem_cons_self).before fun _ => (ready_bindVariable name _).before fun _ =>
      goesReady_next found rfl
  | ret value =>
    cases value with
    | some x => exact (read List.mem_cons_self).before fun _ => goesReady_stop _ _
    | none => exact ready_latest.before fun _ => goesReady_stop _ _

theorem State.Ready.visit {s : State} (h : State.Ready t steps id index s) :
    State.Ready t steps id index (s.visit id index) := by
  have arrived : Gives (modify (·.modify id (·.visit index)) : Walk Unit) s ()
      (s.visit id index) := gives_modify_iff.2 rfl
  exact ready_modify (f := (·.visit index)) (fun _ => rfl) (fun _ _ h => h) h arrived

/-- A step reports no operand to be missing, and the next one finds what is carried to it. -/
theorem step_ready {invoke : Invoke} (calls : Invoke.Clean t invoke)
    (symbols : ctx.symbols = t) (supplied : Supplied steps) {s s' : State} {next : Next}
    (ready : State.Ready t steps id index s)
    (done : Gives (Walk.step invoke ctx steps.toArray id index) s next s') :
    s'.2.Clean t ∧ ∀ ctx task, next.task? ctx id = some task → task.Ready steps s'.1 := by
  obtain ⟨b, there⟩ := Arena.exists_branch ready.there
  rcases step_cases there done with ⟨-, rfl, rfl⟩ |
    ⟨step, found, ⟨-, rfl, rfl⟩ | ⟨-, executed⟩⟩
  · exact ⟨ready.clean, nofun⟩
  · refine ⟨ready.clean.add (Finding.not_isMissingOperand ?_ _), nofun⟩
    nofun
  · rw [List.getElem?_toArray] at found
    exact execute_ready calls symbols supplied found ready.visit executed

end GoesReady

end Walk

/-! ## Walks -/

/-- The table that a task is walked with. -/
def Task.symbols : Task → SymbolTable
  | path ctx _ _ | all ctx _ | each ctx _ _ _ _ => ctx.symbols

theorem Next.symbols_task {next : Next} {ctx : Context} {id : Nat} {task : Task}
    (h : next.task? ctx id = some task) : task.symbols = ctx.symbols := by
  cases next <;> cases h <;> rfl

section Walks

variable {t : SymbolTable} {invoke : Invoke} {steps : List Step} {task : Task} {s s' : State}
  {ends : List Nat}

theorem clean_finish {id : Nat} {termination : Termination} {v : Value} {u : Unit}
    (clean : s.2.Clean t) (done : Gives (finish id termination v) s u s') : s'.2.Clean t := by
  obtain ⟨w, s₁, made, done⟩ := gives_bind_iff.1 done
  obtain ⟨rfl, -⟩ := gives_lift_iff.1 made
  obtain rfl := gives_modify_iff.1 done
  exact clean.place v

/-- A new branch on which a value is put into a slot sees it, and what is seen where it begins. -/
theorem Arena.sees_bindSlot_child {a : Arena} {id index : Nat} {slot : Slot} (there : id < a.size)
    (ready : ∀ i other, Carries steps i index other →
      other = slot ∨ (a.lookupSlot id other).isSome = true) (v : Value) :
    ((a.child id).modify a.size (·.bindSlot slot v)).Sees steps a.size index := by
  intro i other carried
  rcases ready i other carried with rfl | seen
  · rw [lookupSlot_bindSlot (a.branch?_child_size id)]
    rfl
  · have inside : a.size < (a.child id).size := a.size_child id ▸ Nat.lt_succ_self _
    exact isSome_lookupSlot_modify inside (fun _ => rfl)
      (fun _ h => Walk.isSome_find?_insert h _ _) (isSome_lookupSlot_child there seen)

/-- What a branch sees is a matter of it and of older ones. -/
theorem Arena.lookupSlot_of_older {a a' : Arena} {id : Nat}
    (same : ∀ k ≤ id, a'.branch? k = a.branch? k) (slot : Slot) :
    a'.lookupSlot id slot = a.lookupSlot id slot := by
  rw [lookupSlot, lookupSlot, lineage_congr same]

/-- Where the task begins, what is carried there is found, and no operand was reported to be
missing. -/
structure Task.Prepared (t : SymbolTable) (steps : List Step) (s : State) (task : Task) :
    Prop where
  symbols : task.symbols = t
  stands : task.Stands s.1
  ready : task.Ready steps s.1
  clean : s.2.Clean t

section Prepared

variable {P : Context → Nat → Nat → State → Prop} {ctx : Context} {id index : Nat} {slot : Slot}
  {v : Value} {values : List Value} {starts : List (Nat × Nat)} {s₁ : State} {next : Next}

theorem Walk.State.Ready.prepared (h : State.Ready t steps id index s) (symbols : ctx.symbols = t) :
    (Task.path ctx id index).Prepared t steps s := ⟨symbols, h.there, h.sees, h.clean⟩

theorem Task.Prepared.path (h : (Task.path ctx id index).Prepared t steps s) :
    State.Ready t steps id index s := ⟨h.stands, h.ready, h.clean⟩

theorem Task.Prepared.first (h : (Task.all ctx ((id, index) :: starts)).Prepared t steps s) :
    (Task.path ctx id index).Prepared t steps s where
  symbols := h.symbols
  stands := h.stands _ List.mem_cons_self
  ready i slot carried := absurd carried (h.ready _ List.mem_cons_self i slot)
  clean := h.clean

theorem Task.Prepared.rest (h : (Task.all ctx ((id, index) :: starts)).Prepared t steps s)
    (grows : s.1.size ≤ s'.1.size) (clean : s'.2.Clean t) :
    (Task.all ctx starts).Prepared t steps s' where
  symbols := h.symbols
  stands := Task.Stands.rest h.stands grows
  ready start hs := h.ready start (List.mem_cons_of_mem _ hs)
  clean := clean

theorem Task.Prepared.eachFirst
    (h : (Task.each ctx id slot (v :: values) index).Prepared t steps s)
    (bound : Gives (bindSlot s.1.size slot v) (s.1.child id, s.2) () s₁) :
    (Task.path (ctx.await values) s.1.size index).Prepared t steps s₁ := by
  have inside : s.1.size < s₁.1.size := size_of_bound bound ▸ Nat.lt_succ_self _
  obtain ⟨w, s₂, made, bound⟩ := gives_bind_iff.1 bound
  obtain ⟨rfl, -⟩ := gives_lift_iff.1 made
  obtain rfl := gives_modify_iff.1 bound
  exact ⟨h.symbols, inside, Arena.sees_bindSlot_child h.stands h.ready _, h.clean.place v⟩

/-- Neither the new branch nor the walk on it changes what is seen where they begin. -/
theorem Task.Prepared.eachLater
    (h : (Task.each ctx id slot (v :: values) index).Prepared t steps s)
    (bound : Gives (bindSlot s.1.size slot v) (s.1.child id, s.2) () s₁)
    (walks : Walks invoke steps.toArray P (.path (ctx.await values) s.1.size index) s₁ ends s')
    (clean : s'.2.Clean t) : (Task.each ctx id slot values index).Prepared t steps s' := by
  have stands : id < s.1.size := h.stands
  have same (k : Nat) (hk : k ≤ id) : s'.1.branch? k = s.1.branch? k :=
    branch?_of_each bound walks (hk.trans_lt stands)
  obtain ⟨b, there⟩ := Arena.exists_branch stands
  refine ⟨h.symbols, Arena.lt_size_of_branch? ((same id (Nat.le_refl id)).trans there), ?_, clean⟩
  intro i other carried
  rw [Arena.lookupSlot_of_older same]
  exact h.ready i other carried

variable (calls : Invoke.Clean t invoke) (supplied : Supplied steps)

include calls supplied

theorem Task.Prepared.step (h : (Task.path ctx id index).Prepared t steps s)
    (done : Gives (Walk.step invoke ctx steps.toArray id index) s next s')
    (goes : next.task? ctx id = some task) : task.Prepared t steps s' := by
  obtain ⟨clean, leads⟩ := step_ready calls h.symbols supplied h.path done
  exact ⟨(Next.symbols_task goes).trans h.symbols, ((step_framed h.stands done).2 _ goes).1,
    leads _ _ goes, clean⟩

/-- A walk reports no operand to be missing, whatever calls do that report none. -/
theorem Walks.clean (walks : Walks invoke steps.toArray P task s ends s')
    (h : task.Prepared t steps s) : s'.2.Clean t := by
  induction walks with
  | onward _ done goes _ ih => exact ih (h.step calls supplied done goes)
  | stop _ done finished =>
    exact clean_finish (step_ready calls h.symbols supplied h.path done).1 finished
  | allNil => exact h.clean
  | allCons first _ ihFirst ihRest =>
    exact ihRest (h.rest (first.framed h.first.stands).1.grows (ihFirst h.first))
  | eachNil => exact h.clean
  | eachCons bound first _ ihFirst ihRest =>
    exact ihRest (h.eachLater bound first (ihFirst (h.eachFirst bound)))

end Prepared

end Walks

/-! ## Calls -/

theorem Walk.ready_bindAll {t : SymbolTable} {steps : List Step} {id index : Nat}
    (locals : List (String × Value)) :
    StaysReady t steps id index (locals.forM fun (name, v) => bindVariable id name v) := by
  induction locals with
  | nil => exact ready_pure _
  | cons p rest ih => exact ready_bind (ready_bindVariable p.1 p.2) fun _ => ih

/-- A fresh root is ready for the first instruction, to which nothing is carried. -/
theorem Walk.ready_openRoot {t : SymbolTable} {scope : Scope} {locals : List (String × Value)}
    {m : Memory} {s : State} (clean : m.Clean t)
    (opened : Gives (openRoot scope locals) (.empty, m) () s) (steps : List Step) :
    State.Ready t steps 0 0 s := by
  obtain ⟨_, s₁, planted, bound⟩ := gives_bind_iff.1 opened
  obtain rfl := gives_modify_iff.1 planted
  have first : State.Ready t steps 0 0 (Arena.empty.root scope, m) :=
    ⟨Nat.zero_lt_one, fun i _ carried => absurd carried.before (Nat.not_lt_zero i), clean⟩
  exact ready_bindAll locals first bound

namespace Analysis

variable {t : SymbolTable} {α : Type} {deeper : Invoke} {ctx : Context} {code : Code}

theorem clean_resolve (calls : Invoke.Clean t deeper) (symbols : ctx.symbols = t)
    (supplied : Supplied code.steps) (scope : Scope) (locals : List (String × Value)) :
    StaysClean t (resolve deeper ctx code scope locals) := fun m clean => by
  obtain ⟨s, ends, s', opened, walks, run⟩ := resolve_walks deeper ctx code scope locals m
  have ready := ready_openRoot clean opened code.steps
  rw [run]
  exact walks.clean calls supplied (ready.prepared symbols)

theorem clean_reportLowering (e : LowerError) : StaysClean t (reportLowering e) :=
  clean_modify fun _ hm => hm.add fun missing => by cases missing.1

/-- Where the code of a body is asked for, it supplies what it reads. -/
theorem clean_body_bind {id : Nat} {f : Option Code → Analysis α}
    (none_ : StaysClean t (f none))
    (some_ : ∀ code, Supplied code.steps → StaysClean t (f (some code))) :
    StaysClean t (body t id >>= f) := fun m clean => by
  have made := body_of_faithful clean.faithful id
  have found : ((body t id).run m).2.report.OperandsFound := by
    cases kept : Assoc.find? m.bodies id with
    | some code => exact body_of_kept kept ▸ clean.found
    | none =>
      simp only [body, StateT.run_bind, StateT.run_get, pure_bind, kept]
      cases (t.method id).decl.toCode with
      | ok code => exact clean.found
      | error e => exact (clean_reportLowering e clean).found
  have left : ((body t id).run m).2.Clean t := ⟨faithful_body clean.faithful id, found⟩
  rw [StateT.run_bind]
  rcases out : (body t id).run m with ⟨_ | code, m'⟩ <;> rw [out] at made left
  · exact none_ left
  · refine some_ code ?_ left
    cases lowered : (t.method id).decl.toCode with
    | error e => rw [lowered] at made; cases made
    | ok code' =>
      rw [lowered] at made
      cases made
      exact (FunctionDecl.toCode_accounts lowered).carries

theorem clean_body (t : SymbolTable) (id : Nat) : StaysClean t (body t id) := by
  rw [← bind_pure (body t id)]
  exact clean_body_bind (clean_pure _) fun _ _ => clean_pure _

theorem clean_cutOff (symbols : SymbolTable) (id : Nat) (span : Span) :
    StaysClean t (cutOff symbols id span) := by
  refine clean_bind (clean_modify fun _ hm => hm.of_eq rfl rfl) fun _ => ?_
  refine clean_bind (clean_report ?_ span) fun _ => ?_
  · nofun
  · exact clean_bind (clean_fresh _) fun _ => clean_pure _

theorem clean_leave (symbols : SymbolTable) (id : Nat) (receiver : Option Value)
    (arguments : List Value) (cutoffs : Nat) (r : Resolution) :
    StaysClean t (leave symbols id receiver arguments cutoffs r) := by
  refine clean_bind (clean_modify fun _ hm => hm.of_eq rfl rfl) fun _ => ?_
  refine clean_bind (clean_mapM clean_fresh _) fun values => ?_
  refine clean_bind clean_get fun m => ?_
  split
  · exact clean_bind (clean_modify fun _ hm => hm.of_eq rfl rfl) fun _ => clean_pure _
  · exact clean_pure _

theorem clean_follow (calls : Invoke.Clean t deeper) (symbols : ctx.symbols = t) (id : Nat)
    (receiver : Option Value) (arguments : List Value) :
    StaysClean t (follow deeper ctx id receiver arguments) := by
  subst symbols
  refine clean_body_bind ?_ fun code supplied => ?_
  · exact clean_bind (clean_fresh _) fun _ => clean_pure _
  · refine clean_bind clean_get fun m => ?_
    refine clean_bind (clean_modify fun _ hm => hm.of_eq rfl rfl) fun _ => ?_
    exact clean_bind (clean_resolve calls rfl supplied _ _) fun r => clean_leave _ _ _ _ _ r

theorem clean_invokeWith {deeper? : Option Invoke}
    (calls : ∀ deeper, deeper? = some deeper → Invoke.Clean t deeper) :
    Invoke.Clean t (invokeWith deeper?) := fun ctx symbols id receiver arguments span => by
  refine clean_bind clean_get fun m => ?_
  split
  · exact clean_pure _
  · split
    · exact clean_cutOff _ id span
    · next deeper =>
      split
      · exact clean_cutOff _ id span
      · exact clean_follow (calls deeper rfl) symbols id receiver arguments

theorem clean_invoke (t : SymbolTable) (depth : Nat) : Invoke.Clean t (invoke depth) := by
  induction depth with
  | zero => exact clean_invokeWith nofun
  | succ depth ih =>
    refine clean_invokeWith ?_
    rintro _ ⟨⟩
    exact ih

/-! ## Queries -/

theorem clean_resolveMethod (ctx : Context) (id : Nat) :
    StaysClean ctx.symbols (resolveMethod ctx id) := by
  refine clean_body_bind (clean_pure _) fun code supplied => ?_
  refine clean_bind (clean_modify fun _ hm => hm.of_eq rfl rfl) fun _ => ?_
  refine clean_bind clean_get fun m => ?_
  refine clean_bind (clean_resolve (clean_invoke _ _) rfl supplied _ _) fun r => ?_
  exact clean_bind (clean_modify fun _ hm => hm.of_eq rfl rfl) fun _ => clean_pure _

theorem clean_returnType (ctx : Context) (id : Nat) :
    StaysClean ctx.symbols (returnType ctx id) := by
  refine clean_bind (clean_resolveMethod ctx id) fun r => ?_
  dsimp only
  split <;> exact clean_pure _

theorem clean_resolveCode (supplied : Supplied code.steps) (scope : Scope) :
    StaysClean ctx.symbols (resolveCode ctx code scope) :=
  clean_bind clean_get fun _ => clean_resolve (clean_invoke _ _) rfl supplied _ _

theorem clean_typeOfExpression (ctx : Context) (e : Expr) (scope : Scope) :
    StaysClean ctx.symbols (typeOfExpression ctx e scope) := by
  unfold typeOfExpression
  split
  · next code lowered =>
    exact clean_bind (clean_resolveCode (Expr.toCode_accounts lowered).carries scope) fun _ =>
      clean_pure _
  · exact clean_bind (clean_reportLowering _) fun _ => clean_pure _

theorem clean_summaries (ctx : Context) : StaysClean ctx.symbols (summaries ctx) :=
  clean_mapM (fun id => clean_bind (clean_returnType ctx id) fun _ =>
    clean_bind (clean_body _ id) fun _ => clean_pure _) _

end Analysis

/-- The code is that of a body or of an expression. -/
def Code.IsLowered (code : Code) : Prop :=
  (∃ f : FunctionDecl, f.toCode = .ok code) ∨ ∃ e : Expr, e.toCode = .ok code

theorem Code.IsLowered.supplied {code : Code} (h : code.IsLowered) : Supplied code.steps :=
  h.elim (fun ⟨_, lowered⟩ => (FunctionDecl.toCode_accounts lowered).carries) fun ⟨_, lowered⟩ =>
    (Expr.toCode_accounts lowered).carries

namespace Query

/-- If code is asked about, it is that of a body or of an expression. -/
def IsLowered : Query → Prop
  | resolveCode code _ => code.IsLowered
  | _ => True

variable {ctx : Context} {m : Memory}

theorem clean_after {q : Query} (lowered : q.IsLowered) (clean : m.Clean ctx.symbols) :
    (q.after ctx m).Clean ctx.symbols := by
  cases q with
  | body id => exact Analysis.clean_body _ id clean
  | resolveMethod id => exact Analysis.clean_resolveMethod ctx id clean
  | returnType id => exact Analysis.clean_returnType ctx id clean
  | typeAt id span =>
    exact Analysis.clean_bind (Analysis.clean_resolveMethod ctx id)
      (fun r => Analysis.clean_pure (r.typeAt span)) clean
  | resolveCode code scope => exact Analysis.clean_resolveCode lowered.supplied scope clean
  | typeOfExpression e scope => exact Analysis.clean_typeOfExpression ctx e scope clean

theorem clean_history {queries : List Query} (lowered : ∀ q ∈ queries, q.IsLowered)
    (clean : m.Clean ctx.symbols) : (history ctx m queries).Clean ctx.symbols := by
  induction queries generalizing m with
  | nil => exact clean
  | cons q rest ih =>
    obtain ⟨first, others⟩ := List.forall_mem_cons.1 lowered
    exact ih others (clean_after first clean)

end Query

/-! ## Compilations -/

namespace Compilation

theorem ofText_eq_ok {options : AnalysisOptions} {text : String} {r : Module × Report}
    (h : Module.ofText text = .ok r) : ofText options text = .ok (ofModule options r.1 r.2) := by
  rw [ofText, h]
  rfl

theorem operandsFound_ofModule (options : AnalysisOptions) (m : Module) {read : Report}
    (found : read.OperandsFound) : (ofModule options m read).report.OperandsFound := by
  have declared : (SymbolTable.ofModule m).2.OperandsFound :=
    (SymbolTable.kindless_ofModule m).operandsFound
  have analyzed := Analysis.clean_summaries (.outer (SymbolTable.ofModule m).1 options) (.empty _)
  exact (found.merge declared).merge analyzed.found

theorem operandsFound_expressionType (c : Compilation) {text : String} {type : Ty} {report : Report}
    (h : c.expressionType text = .ok (type, report)) : report.OperandsFound := by
  unfold expressionType at h
  cases parsed : Expr.ofText text with
  | error f => rw [parsed] at h; cases h
  | ok e =>
    rw [parsed] at h
    cases h
    exact (Analysis.clean_typeOfExpression _ e .module (.empty _)).found

end Compilation

/-- On any control path of the code of a body or of an expression, each slot that is read was
written by the instruction that computes the operand, from which control has come straight.  So no
analysis reports that an operand has no value: not in any row of queries about the methods of a
module, about its code or about expressions, and not in a compilation. -/
theorem operands_found :
    (∀ (f : FunctionDecl) code, f.toCode = .ok code → DefinesOperands code.steps f.roles) ∧
      (∀ (e : Expr) code, e.toCode = .ok code → DefinesOperands code.steps e.codeRoles) ∧
      (∀ (ctx : Context) (queries : List Query), (∀ q ∈ queries, q.IsLowered) →
        (Query.history ctx .empty queries).report.OperandsFound) ∧
      (∀ options text c, Compilation.ofText options text = .ok c → c.report.OperandsFound) ∧
      ∀ (c : Compilation) text type report, c.expressionType text = .ok (type, report) →
        report.OperandsFound := by
  refine ⟨fun f code lowered => (FunctionDecl.toCode_accounts lowered).definesOperands,
    fun e code lowered => (Expr.toCode_accounts lowered).definesOperands,
    fun ctx queries lowered => (Query.clean_history lowered (.empty _)).found,
    fun options text c built => ?_, fun c text type report h => c.operandsFound_expressionType h⟩
  obtain ⟨m, read, parsed, rfl⟩ := Compilation.exists_module built
  exact Compilation.operandsFound_ofModule options m (Module.kindless_ofText parsed).operandsFound

/-- A loop whose body calls in the middle of a sum, and a call with two results. -/
def summingText : String := "
  fn pick(n) \x7b if n \x7b return 1 \x7d
    return 2 \x7d
  fn main(n) \x7b while n < 9 \x7b n = 1 + pick(n) \x7d
    return -pick(n) \x7d
"

def summingRead : Module × Report := ((Module.ofText summingText).toOption).getD default

def summing : Compilation := .ofModule .standard summingRead.1 summingRead.2

def summingMain : FunctionDecl := ((SymbolTable.ofModule summingRead.1).1.method 1).decl

def summingCode : Code := summingMain.toCode.toOption.getD default

/-- `1 + pick(2)`, as an expression of its own. -/
def sumOfPick : Expr :=
  .binary .absent .add (.literal .absent (.number 1))
    (.call .absent (.name .absent "pick") [.literal .absent (.number 2)])

def sumCode : Code := sumOfPick.toCode.toOption.getD default

/-- Behind the loop, control comes to the call of the return straight from where the callee and the
argument are computed, on a path that goes once through the loop. -/
theorem operands_found_summing :
    let path := List.range 11 ++ List.range 4 ++ List.range' 11 5
    let queries : List Query := [.returnType 1, .resolveCode summingCode ⟨some 1, none⟩,
      .resolveCode sumCode .module, .typeOfExpression sumOfPick .module]
    (Compilation.ofText .standard summingText = .ok summing ∧ summing.report.OperandsFound) ∧
      (summingMain.toCode = .ok summingCode ∧ IsPath summingCode.steps path ∧ path[17]? = some 13 ∧
        ∃ step role, summingCode.steps[13]? = some step ∧ summingMain.roles[13]? = some role ∧
          step.instr.operands = [9, 10] ∧ role.operands.map Prod.snd = [11, 12] ∧
            List.Forall₂ (fun slot p => Supplies summingCode.steps summingMain.roles 13 slot p ∧
              ComesStraight path 17 p.2 13) step.instr.operands role.operands) ∧
      (sumOfPick.toCode = .ok sumCode ∧ DefinesOperands sumCode.steps sumOfPick.codeRoles) ∧
      (∀ q ∈ queries, q.IsLowered) ∧
        (Query.history (.outer summing.symbols .standard) .empty queries).report.OperandsFound ∧
          ∃ found, summing.expressionType "1 + pick(2)" = .ok found ∧ found.2.OperandsFound := by
  intro path queries
  obtain ⟨read, lowers, isPath, call, known⟩ :
      (Module.ofText summingText).toOption.isSome = true ∧
        summingMain.toCode.toOption.isSome = true ∧ IsPath summingCode.steps path ∧
          (summingCode.steps[13]?.map fun step => step.instr.operands) = some [9, 10] ∧
          (summingMain.roles[13]?.map fun role => role.operands.map Prod.snd) = some [11, 12] := by
    decide +kernel
  obtain ⟨⟨type, report⟩, asked⟩ : ∃ found, summing.expressionType "1 + pick(2)" = .ok found := by
    have row : TokenRow.ofText summingText = _ := TokenRow.ofText_of_eq_ofList (by rw [summingText])
    rw [summing, summingRead, Module.ofText, row]
    exact exists_ok (by decide +kernel)
  obtain ⟨bodies, expressions, histories, texts, asks⟩ := operands_found
  have parsed : Module.ofText summingText = .ok summingRead := eq_ok_of_isSome read
  have built : Compilation.ofText .standard summingText = .ok summing :=
    Compilation.ofText_eq_ok parsed
  have lowered : summingMain.toCode = .ok summingCode := eq_ok_of_isSome lowers
  have sumLowered : sumOfPick.toCode = .ok sumCode := rfl
  have asksLowered : ∀ q ∈ queries, q.IsLowered := by
    refine List.forall_mem_cons.2 ⟨trivial, List.forall_mem_cons.2 ⟨.inl ⟨_, lowered⟩, ?_⟩⟩
    exact List.forall_mem_cons.2 ⟨.inr ⟨_, sumLowered⟩, List.forall_mem_singleton.2 trivial⟩
  obtain ⟨step, found, reads⟩ := Option.map_eq_some_iff.1 call
  obtain ⟨role, mine, -, supplied⟩ := bodies _ _ lowered path isPath 17 13 step rfl found
  rw [mine] at known
  refine ⟨⟨built, texts _ _ _ built⟩, ⟨lowered, isPath, rfl, step, role, found, mine, reads,
    Option.some.inj known, supplied⟩, ⟨sumLowered, expressions _ _ sumLowered⟩, asksLowered,
    histories _ queries asksLowered, _, asked, asks _ _ _ _ asked⟩

/-- Code that comes from no tree may read a slot that nothing has written. -/
example :
    (Query.history (.outer .empty .standard) .empty
        [.resolveCode (.ofInstrs [.ret (some 1)]) .module]).report.entries =
      [(Finding.missingOperand 1).diagnostic .absent] := by
  decide +kernel

end PathTyping
