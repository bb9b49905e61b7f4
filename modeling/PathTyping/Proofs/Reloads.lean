import PathTyping.Proofs.Budget
import PathTyping.Proofs.Callers
import PathTyping.Proofs.Findings
import PathTyping.Proofs.Visits

/-!
# Members that are loaded again

A member that has been looked up is kept on the value, and the value takes it along into other
slots, into variables, and into calls and out of them.  What is kept is what a new lookup would
find, so nothing hangs on whether a member has been loaded before.

1. What is kept of a value is what a lookup on it finds, unless the value is a number, whose bounds
   are kept in the same place (`Value.closed_retells`).
2. A branch shows a face of a member in a slot.  Loads give that face and change nothing of it
   (`loadMember_shows`), nor does any other instruction, as long as it does not write the slot
   (`steady_execute`).
3. A path takes along what its branch shows, onto all branches that come of it (`Course.shows`), so
   that two loads of the member bind the same face (`Course.reloads`).
-/

namespace PathTyping

open Walk

/-! ## Kinds of values throughout -/

namespace Value

/-- `P` holds of the value, and so it does of what the value was loaded from and of what is kept of
it. -/
inductive Throughout (P : Value → Prop) : Value → Prop
  | mk {v : Value} (here : P v) (target : ∀ r, v.target = some r → Throughout P r)
      (kept : ∀ name p, v.property? name = some p → Throughout P p) : Throughout P v

namespace Throughout

variable {P : Value → Prop} {v u r p : Value} {name : String}

theorem here (h : v.Throughout P) : P v := by
  cases h; assumption

theorem target (h : v.Throughout P) (loaded : v.target = some r) : r.Throughout P := by
  cases h with
  | mk _ target _ => exact target r loaded

theorem kept (h : v.Throughout P) (found : v.property? name = some p) : p.Throughout P := by
  cases h with
  | mk _ _ kept => exact kept name p found

theorem copy (stays : ∀ {v : Value}, P v → P v.copy) (h : v.Throughout P) :
    v.copy.Throughout P := by
  induction h with
  | @mk v here target _ _ ih =>
    refine .mk (stays here) (fun r loaded => target r (copy_target v ▸ loaded)) fun name p found => ?_
    rw [property?_copy] at found
    obtain ⟨q, was, rfl⟩ := Option.map_eq_some_iff.1 found
    exact ih name q was

theorem place (stays : ∀ {v : Value}, P v → ∀ next, P (v.place next).1) (h : v.Throughout P)
    (next : Nat) : (v.place next).1.Throughout P := by
  induction h generalizing next with
  | @mk v here target kept _ ih =>
    refine .mk (stays here next)
      (fun r loaded => target r ((v.place_fields next).2.2.1 ▸ loaded)) fun name p found => ?_
    rcases v.property?_place next name with same | ⟨k, same⟩
    · exact kept name p (same ▸ found)
    · obtain ⟨q, was, rfl⟩ := Option.map_eq_some_iff.1 (same ▸ found)
      exact ih name q was k

theorem setProperty (h : v.Throughout P) (hp : p.Throughout P)
    (here : P (v.setProperty name p)) : (v.setProperty name p).Throughout P := by
  refine .mk here (fun r loaded => h.target loaded) fun key q found => ?_
  unfold property? Value.setProperty at found
  by_cases same : name = key
  · subst same
    rw [Assoc.find?_insert_self] at found
    exact Option.some.inj found ▸ hp
  · rw [Assoc.find?_insert_of_ne _ _ same] at found
    exact h.kept found

end Throughout

/-! ## Members that are kept -/

/-- Unless the value is a number, a lookup of a member that is kept of it succeeds, and finds a value
with the face of the one that is kept. -/
def Retells (t : SymbolTable) (v : Value) : Prop :=
  v.type ≠ .number → ∀ name p, v.property? name = some p →
    ∃ u, t.member v name = .ok u ∧ u.face = p.face

section Retells

variable {t : SymbolTable} {v w u p : Value} {name : String}

theorem face_member (h : v.face = w.face) (name : String) :
    (t.member v name).toOption.map face = (t.member w name).toOption.map face := by
  rw [toOption_member, toOption_member, type_of_face h]
  exact face_findMember h w.type

/-- What is found of one value is found of another with its face. -/
theorem member_of_face (h : v.face = w.face) (found : t.member v name = .ok u) :
    ∃ u', t.member w name = .ok u' ∧ u'.face = u.face := by
  have same := face_member (t := t) h name
  rw [found] at same
  cases found' : t.member w name with
  | error f => rw [found'] at same; cases same
  | ok u' =>
    rw [found'] at same
    exact ⟨u', rfl, (Option.some.inj same).symm⟩

theorem retells_of_plain (h : v.properties = []) : v.Retells t := fun _ name p found => by
  rw [property?, h] at found
  cases found

theorem Retells.copy (h : v.Retells t) : v.copy.Retells t := fun other name p found => by
  rw [copy_type] at other
  rw [property?_copy] at found
  obtain ⟨q, was, rfl⟩ := Option.map_eq_some_iff.1 found
  obtain ⟨u, found, same⟩ := h other name q was
  obtain ⟨u', found', same'⟩ := member_of_face (face_copy v).symm found
  exact ⟨u', found', by rw [same', same, face_copy]⟩

theorem Retells.place (h : v.Retells t) (next : Nat) : (v.place next).1.Retells t :=
  fun other name p found => by
    rw [place_type] at other
    have was : ∃ q, v.property? name = some q ∧ p.face = q.face := by
      rcases v.property?_place next name with same | ⟨k, same⟩
      · exact ⟨p, same ▸ found, rfl⟩
      · obtain ⟨q, was, rfl⟩ := Option.map_eq_some_iff.1 (same ▸ found)
        exact ⟨q, was, face_place q k⟩
    obtain ⟨q, was, alike⟩ := was
    obtain ⟨u, found, same⟩ := h other name q was
    obtain ⟨u', found', same'⟩ := member_of_face (face_place v next).symm found
    exact ⟨u', found', by rw [same', same, alike]⟩

/-- To keep a member that was looked up tells nothing new. -/
theorem Retells.keep (h : v.Retells t) (new : v.property? name = none)
    (found : t.member v name = .ok u) (next : Nat) :
    (v.copy.setProperty name (u.place next).1).Retells t := fun other key p kept => by
  have same := face_keep new found next
  rw [type_of_face same] at other
  rw [property?_keep] at kept
  split at kept
  · next mine =>
    subst mine
    obtain rfl := Option.some.inj kept
    rw [face_place]
    exact member_of_face same.symm found
  · obtain ⟨q, was, rfl⟩ := Option.map_eq_some_iff.1 kept
    obtain ⟨u, found, alike⟩ := h other key q was
    obtain ⟨u', found', alike'⟩ := member_of_face same.symm found
    exact ⟨u', found', by rw [alike', alike, face_copy]⟩

theorem throughout_of_plain (target : v.target = none) (plain : v.properties = []) :
    v.Throughout (Retells t) := by
  refine .mk (retells_of_plain plain) (fun r loaded => ?_) fun name p found => ?_
  · cases target.symm.trans loaded
  · rw [property?, plain] at found
    cases found

theorem throughout_ofLiteral (l : Literal) : (ofLiteral l).Throughout (Retells t) :=
  throughout_of_plain rfl rfl

/-- All that the analysis does with values makes values that retell their members. -/
theorem closed_retells : ClosedAnywhere t (Throughout (Retells t)) fun _ => True where
  ofType _ := throughout_of_plain rfl rfl
  ofLiteral := throughout_ofLiteral
  boundedNumber _ _ := by
    refine .mk (fun other => absurd rfl other) (fun r loaded => by cases loaded) fun name p found => ?_
    obtain ⟨x, rfl, -⟩ := property?_boundedNumber found
    exact throughout_ofLiteral _
  ofMembers receiver _ _ := .mk (retells_of_plain rfl) receiver fun _ _ found => by cases found
  copy := .copy .copy
  place h next := h.place (fun h next => h.place next) next
  type _ := trivial
  target h := h.target
  kept h := h.kept
  keep hv hu new found next := by
    have retells := hv.here.keep new found next
    exact (hv.copy .copy).setProperty (hu.place (fun h next => h.place next) next) retells
  basic _ := trivial
  arm _ _ := trivial
  join _ := trivial
  made _ _ := trivial
  owner _ _ _ := trivial
  instances _ := trivial
  params _ _ _ := trivial
  returns _ _ _ := trivial
  field _ _ := trivial
  global _ := trivial

/-! ### What is loaded -/

theorem face_loaded_of_face (h : v.face = w.face)
    (kept : (v.property? name).map face = (w.property? name).map face) :
    (loaded t v name).map face = (loaded t w name).map face := by
  rw [loaded, loaded, Option.map_or, Option.map_or, kept, face_member h]

theorem face_loaded_place (v : Value) (next : Nat) (name : String) :
    (loaded t (v.place next).1 name).map face = (loaded t v name).map face := by
  refine face_loaded_of_face (face_place v next) ?_
  rcases v.property?_place next name with same | ⟨k, same⟩
  · rw [same]
  · rw [same, Option.map_map]
    exact congrArg (Option.map · _) (funext fun p => face_place p k)

/-- A value that keeps a member that was looked up gives what it gave before. -/
theorem face_loaded_keep (new : v.property? name = none) (found : t.member v name = .ok u)
    (next : Nat) (wanted : String) :
    (loaded t (v.copy.setProperty name (u.place next).1) wanted).map face =
      (loaded t v wanted).map face := by
  have kept : (v.copy.setProperty name (u.place next).1).property? wanted =
      if name = wanted then some (u.place next).1 else (v.property? wanted).map copy :=
    property?_keep v (u.place next).1 name
  by_cases mine : name = wanted
  · subst mine
    rw [if_pos rfl] at kept
    rw [loaded_of_kept kept, loaded_of_member new found, Option.map_some, Option.map_some,
      face_place]
  · rw [if_neg mine] at kept
    refine face_loaded_of_face (face_keep new found next) ?_
    rw [kept, Option.map_map]
    exact congrArg (Option.map · _) (funext face_copy)

end Retells

end Value

/-! ## What a branch shows -/

namespace Arena

variable {t : SymbolTable} {a a' : Arena} {id k index : Nat} {slot : Slot} {name : String}

/-- The face of the member that a load through the slot gives on the branch, if there is one. -/
def shown (t : SymbolTable) (a : Arena) (id : Nat) (slot : Slot) (name : String) : Option Face :=
  (Value.loaded t (a.read id slot) name).map Value.face

theorem shown_of_lookupSlot (same : a'.lookupSlot k slot = a.lookupSlot id slot) :
    a'.shown t k slot name = a.shown t id slot name := by
  rw [shown, shown, read, read, same]

/-- A new branch shows what the one shows that it comes from. -/
theorem shown_child_size (inside : id < a.size) :
    (a.child id).shown t a.size slot name = a.shown t id slot name := by
  refine shown_of_lookupSlot ?_
  rw [lookupSlot_eq (lineage_of_parent (a.branch?_child_size id) rfl inside)]
  exact lookupSlot_child_of_lt inside

theorem shown_child_of_lt (inside : k < a.size) :
    (a.child id).shown t k slot name = a.shown t k slot name :=
  shown_of_lookupSlot (lookupSlot_child_of_lt inside)

/-- A value may be replaced in its slot by another that gives the same members. -/
theorem shown_rebindSlot {read : Slot} {v : Value} (inside : id < a.size)
    (same : ∀ name, (Value.loaded t v name).map Value.face = a.shown t id read name) (slot : Slot)
    (name : String) :
    (a.modify id (·.rebindSlot read v)).shown t id slot name = a.shown t id slot name := by
  obtain ⟨b, found⟩ := exists_branch inside
  have seen := lookupSlot_insert (f := (·.rebindSlot read v)) found rfl rfl slot
  by_cases mine : read = slot
  · subst mine
    rw [shown, Arena.read, seen, if_pos rfl, Option.getD_some, same]
  · rw [if_neg mine] at seen
    exact shown_of_lookupSlot seen

/-- What is written on a branch that nothing has come of is seen on no other. -/
theorem lookupSlot_of_framed {ctx : Context} (framed : Framed (.path ctx id index) a a')
    (unsplit : ¬ a.SplitSince 1 id) (inside : k < a.size) (ne : k ≠ id) :
    a'.lookupSlot k slot = a.lookupSlot k slot := by
  have lineage : a'.lineage k = a.lineage k := by
    induction k using Nat.strongRecOn with
    | _ k ih =>
      obtain ⟨b, found⟩ := exists_branch inside
      have found' : a'.branch? k = some b :=
        (framed.others k inside fun mine => ne (List.mem_singleton.1 mine)).trans found
      by_cases older : ∃ p < k, b.parent = .branch p
      · obtain ⟨p, older, comes⟩ := older
        have apart : p ≠ id := by
          rintro rfl
          exact unsplit ⟨k, Nat.one_le_of_lt older, b, found, comes⟩
        rw [lineage_of_parent found comes older, lineage_of_parent found' comes older,
          ih p older (older.trans inside) apart]
      · rw [lineage_of_alone found older, lineage_of_alone found' older]
  rw [lookupSlot, lookupSlot, lineage]

end Arena

namespace Walk

variable {α β : Type} {t : SymbolTable} {id index : Nat} {slot other : Slot} {name : String}
  {s s' s₁ : State} {ctx : Context} {invoke : Invoke} {span : Span} {v : Value}

/-- Nothing changes of what branch `id` shows of the member. -/
def Steady (t : SymbolTable) (id : Nat) (slot : Slot) (name : String) (s s' : State) : Prop :=
  id < s.1.size →
    s.1.size ≤ s'.1.size ∧ s'.1.shown t id slot name = s.1.shown t id slot name

section Steady

theorem steady_of_eq (same : s'.1 = s.1) : Steady t id slot name s s' := fun _ =>
  ⟨by rw [same], by rw [same]⟩

theorem Steady.trans (h : Steady t id slot name s s₁) (h' : Steady t id slot name s₁ s') :
    Steady t id slot name s s' := fun inside => by
  obtain ⟨grows, same⟩ := h inside
  obtain ⟨grows', same'⟩ := h' (Nat.lt_of_lt_of_le inside grows)
  exact ⟨grows.trans grows', same'.trans same⟩

theorem steady_modify {f : Branch → Branch} {m : Memory} (parent : ∀ b, (f b).parent = b.parent)
    (slots : ∀ b, (f b).slots = b.slots) :
    Steady t id slot name s (s.1.modify id f, m) := fun inside => by
  obtain ⟨b, found⟩ := Arena.exists_branch inside
  refine ⟨(Arena.size_modify _ _ _).ge, Arena.shown_of_lookupSlot ?_⟩
  exact Arena.lookupSlot_modify found (parent b) (slots b) slot

theorem overlooks_steady (t : SymbolTable) (id : Nat) (slot : Slot) (name : String) :
    Overlooks (Steady t id slot name) := ⟨steady_of_eq, Steady.trans⟩

theorem steady_bindVariable (local_ : String) (v : Value) :
    Within (Steady t id slot name) (bindVariable id local_ v) :=
  have overlooks := overlooks_steady t id slot name
  overlooks.seq (overlooks.lifts _) fun _ =>
    within_modify fun _ _ => steady_modify (fun _ => rfl) fun _ => rfl

/-! ### Loads -/

theorem fresh_places {w : Value} (given : Gives (Walk.fresh v) s w s') :
    ∃ next, w = (v.place next).1 ∧ s'.1 = s.1 := by
  obtain ⟨rfl, rfl⟩ := gives_lift_iff.1 given
  exact ⟨s.2.nextLabel, rfl, rfl⟩

/-- A load gives what the branch shows, or anything where it shows nothing, and the branch shows the
same from there on, of this member and of all others. -/
theorem loadMember_shows {read : Slot} {wanted : String} (inside : id < s.1.size)
    (given : Gives (loadMember ctx id span read wanted) s v s') :
    v.face = (s.1.shown ctx.symbols id read wanted).getD Value.any.face ∧
      s'.1.size = s.1.size ∧ ∀ slot name,
        s'.1.shown ctx.symbols id slot name = s.1.shown ctx.symbols id slot name := by
  obtain ⟨target, s₁, offered, given⟩ := gives_bind_iff.1 given
  obtain ⟨arena, -, label, rfl⟩ := operand_tells offered
  let target := (s.1.read id read).labelled label
  have same (name : String) : (Value.loaded ctx.symbols target name).map Value.face =
      s.1.shown ctx.symbols id read name := Value.face_loaded_of_face rfl rfl
  rw [← same]
  have unchanged (left : s'.1 = s₁.1) : s'.1.size = s.1.size ∧ ∀ slot name,
      s'.1.shown ctx.symbols id slot name = s.1.shown ctx.symbols id slot name := by
    rw [left, arena]
    exact ⟨rfl, fun _ _ => rfl⟩
  cases kept : target.property? wanted with
  | some p =>
    rw [kept] at given
    obtain ⟨rfl, rfl⟩ := gives_pure_iff.1 given
    rw [Value.loaded_of_kept kept]
    exact ⟨rfl, unchanged rfl⟩
  | none =>
    rw [kept] at given
    dsimp only at given
    cases found : ctx.symbols.member target wanted with
    | error f =>
      rw [found] at given
      obtain ⟨left, rfl⟩ := gives_lift_iff.1 given
      rw [Value.loaded_of_error kept found]
      exact ⟨rfl, unchanged (by rw [left])⟩
    | ok u =>
      rw [found] at given
      obtain ⟨p, s₂, made, given⟩ := gives_bind_iff.1 given
      obtain ⟨next, rfl, arena₁⟩ := fresh_places made
      obtain ⟨_, s₃, rebound, given⟩ := gives_bind_iff.1 given
      obtain ⟨rfl, rfl⟩ := gives_pure_iff.1 given
      obtain ⟨w, s₄, placed, rebound⟩ := gives_bind_iff.1 rebound
      obtain ⟨next', rfl, arena₂⟩ := fresh_places placed
      obtain rfl := gives_modify_iff.1 rebound
      dsimp only
      rw [Value.loaded_of_member kept found, arena₂, arena₁, arena]
      refine ⟨Value.face_place u next, Arena.size_modify _ _ _, ?_⟩
      refine Arena.shown_rebindSlot inside fun name => ?_
      rw [Value.face_loaded_place, Value.face_loaded_keep kept found, same]

theorem steady_loadMember (symbols : ctx.symbols = t) (span : Span) (read : Slot)
    (wanted : String) : Within (Steady t id slot name) (loadMember ctx id span read wanted) :=
  fun _ _ _ given inside => by
    subst symbols
    obtain ⟨-, size, same⟩ := loadMember_shows inside given
    exact ⟨size.ge, same slot name⟩

/-! ### Instructions -/

theorem steady_bindSlot (apart : other ≠ slot) (v : Value) :
    Within (Steady t id slot name) (bindSlot id other v) :=
  have overlooks := overlooks_steady t id slot name
  overlooks.seq (overlooks.lifts _) fun w => within_modify fun a m inside => by
    obtain ⟨b, found⟩ := Arena.exists_branch inside
    refine ⟨(Arena.size_modify _ _ _).ge, Arena.shown_of_lookupSlot ?_⟩
    exact (Arena.lookupSlot_insert (f := (·.bindSlot other w)) found rfl rfl slot).trans
      (if_neg apart)

theorem steady_child : Within (Steady t id slot name) (child id) :=
  fun s _ _ given inside => by
    obtain ⟨-, rfl⟩ := gives_child_iff.1 given
    exact ⟨(s.1.size_child id).ge.trans' (Nat.le_succ _), Arena.shown_child_of_lt inside⟩

theorem steady_fork (options : AnalysisOptions) (target index : Nat) :
    Within (Steady t id slot name) (fork options id target index) := by
  have overlooks := overlooks_steady t id slot name
  refine overlooks.seq overlooks.looks fun a => ?_
  split
  · exact overlooks.returns _
  · split
    · exact overlooks.seq steady_child fun _ =>
        overlooks.seq steady_child fun _ => overlooks.returns _
    · exact overlooks.seq steady_child fun _ => overlooks.returns _

theorem steady_result (apart : other ≠ slot) (v : Value) (index : Nat) :
    Within (Steady t id slot name) (do
      bindSlot id other v
      return .next index : Walk Next) :=
  have overlooks := overlooks_steady t id slot name
  overlooks.seq (steady_bindSlot apart v) fun _ => overlooks.returns _

theorem steady_continueWith (apart : other ≠ slot) (values : List Value) (index : Nat) :
    Within (Steady t id slot name) (continueWith id other values index) := by
  unfold continueWith
  split
  · exact steady_result apart _ _
  · exact steady_result apart _ _
  · exact (overlooks_steady t id slot name).returns _

/-- An instruction that does not write the slot changes nothing of what its branch shows there. -/
theorem steady_execute {step : Step} (symbols : ctx.symbols = t)
    (spares : step.instr.result? ≠ some slot) :
    Within (Steady t id slot name) (execute invoke ctx id index step) := by
  obtain ⟨instr, span⟩ := step
  have overlooks := overlooks_steady t id slot name
  have result {other : Slot} (apart : some other ≠ some slot) (v : Value) :
      Within (Steady t id slot name) (do
        bindSlot id other v
        return .next (index + 1) : Walk Next) :=
    steady_result (fun same => apart (congrArg some same)) v (index + 1)
  have read (x : Slot) : Within (Steady t id slot name) (operand id span x) :=
    overlooks.operand id span x
  unfold execute
  cases instr with
  | const _ l => exact result spares _
  | unary _ op x => exact overlooks.seq (read x) fun _ => result spares _
  | binary _ x op y =>
    exact overlooks.seq (read x) fun _ => overlooks.seq (read y) fun _ => result spares _
  | goto target => exact overlooks.returns _
  | gotoIf target condition expected =>
    exact overlooks.seq (read condition) fun _ => steady_fork _ _ _
  | call _ callee arguments =>
    exact overlooks.seq (overlooks.results _ _ _ _ _ _) fun _ => overlooks.seq overlooks.looks
      fun _ => steady_continueWith (fun same => spares (congrArg some same)) _ _
  | load _ wanted => exact overlooks.seq (overlooks.load _ _ _ _) fun _ => result spares _
  | member _ target wanted =>
    exact overlooks.seq (steady_loadMember symbols _ _ _) fun _ => result spares _
  | index _ target key =>
    exact overlooks.seq (read target) fun _ => overlooks.seq (read key) fun _ =>
      overlooks.seq (overlooks.lifts _) fun _ => result spares _
  | store local_ value =>
    exact overlooks.seq (read value) fun _ =>
      overlooks.seq (steady_bindVariable _ _) fun _ => overlooks.returns _
  | ret value =>
    cases value with
    | some x => exact overlooks.seq (read x) fun _ => overlooks.returns _
    | none => exact overlooks.seq (overlooks.latest id) fun _ => overlooks.returns _

/-- Values that are to be put on new branches are the results of the instruction. -/
theorem only_spread (invoke : Invoke) (ctx : Context) (id index : Nat) (step : Step) :
    Only (fun next => ∀ slot values target, next = .spread slot values target →
      step.instr.result? = some slot) (execute invoke ctx id index step) := by
  intro s next s' given slot values target spread
  subst spread
  by_cases calls : step.instr.isCall = true
  · obtain ⟨instr, span⟩ := step
    cases instr <;> cases calls
    obtain ⟨_, s₁, -, given⟩ := gives_bind_iff.1 given
    obtain ⟨a, s₂, -, given⟩ := gives_bind_iff.1 given
    unfold continueWith at given
    split at given
    · obtain ⟨_, s₃, -, given⟩ := gives_bind_iff.1 given
      cases (gives_pure_iff.1 given).1
    · obtain ⟨_, s₃, -, given⟩ := gives_bind_iff.1 given
      cases (gives_pure_iff.1 given).1
    · cases (gives_pure_iff.1 given).1
      rfl
  · exact (neverSpreads_execute (Bool.eq_false_of_not_eq_true calls) given).elim

end Steady

end Walk

/-! ## What a path takes along -/

/-- Where the paths of the task begin, or from which branch they come, `face` is shown of the
member. -/
def Task.Shows (t : SymbolTable) (slot : Slot) (name : String) (face : Option Face) (a : Arena) :
    Task → Prop
  | path ctx id _ => ctx.symbols = t ∧ a.shown t id slot name = face
  | all ctx starts => ctx.symbols = t ∧ ∀ start ∈ starts, a.shown t start.1 slot name = face
  | each ctx id result _ _ => ctx.symbols = t ∧ result ≠ slot ∧ a.shown t id slot name = face

/-- None of the instructions writes the slot. -/
def Unwritten (steps : Array Step) (slot : Slot) (trace : List Nat) : Prop :=
  ∀ k ∈ trace, ∀ step, steps[k]? = some step → step.instr.result? ≠ some slot

section Shows

variable {t : SymbolTable} {invoke : Invoke} {steps : Array Step} {ctx : Context}
  {id index : Nat} {slot result : Slot} {name : String} {face : Option Face} {s s' s₁ : State}
  {start task : Task} {next : Next} {trace : List Nat}

/-- The branches of a fork show what the one shows that is split. -/
theorem split_shows {options : AnalysisOptions} {starts : List (Nat × Nat)} {a a' : Arena}
    (inside : id < a.size) (prepared : Goes options id a a' (.split starts)) :
    ∀ start ∈ starts, a'.shown t start.1 slot name = a'.shown t id slot name := by
  obtain ⟨-, prepared⟩ := prepared
  have inside' : id < (a.child id).size := by rw [Arena.size_child]; omega
  have fall : (a.child id).shown t a.size slot name = (a.child id).shown t id slot name := by
    rw [Arena.shown_child_size inside, Arena.shown_child_of_lt inside]
  cases mode : options.forkMode with
  | symmetric =>
    rw [mode] at prepared
    obtain ⟨rfl, i, j, rfl⟩ := prepared
    have taken : ((a.child id).child id).shown t (a.size + 1) slot name =
        (a.child id).shown t id slot name := a.size_child id ▸ Arena.shown_child_size inside'
    rw [Arena.shown_child_of_lt inside']
    refine List.forall_mem_cons.2 ⟨?_, List.forall_mem_singleton.2 taken⟩
    rw [Arena.shown_child_of_lt (by rw [Arena.size_child]; omega), fall]
  | fallthroughOnly =>
    rw [mode] at prepared
    obtain ⟨rfl, i, rfl⟩ := prepared
    exact List.forall_mem_singleton.2 fall

/-- Where a path goes on, it shows what it has shown. -/
theorem step_shows (stands : id < s.1.size)
    (shows_ : (Task.path ctx id index).Shows t slot name face s.1)
    (spares : ∀ step, steps[index]? = some step → step.instr.result? ≠ some slot)
    (done : Gives (step invoke ctx steps id index) s next s')
    (goes : next.task? ctx id = some task) : task.Shows t slot name face s'.1 := by
  obtain ⟨symbols, showed⟩ := shows_
  obtain ⟨b, found⟩ := Arena.exists_branch stands
  rcases step_cases found done with ⟨-, -, rfl⟩ | ⟨instruction, there, ⟨-, rfl, -⟩ | ⟨-, executed⟩⟩
  · cases goes
  · cases goes
  have visit : Steady t id slot name s (s.visit id index) :=
    steady_modify (fun _ => rfl) fun _ => rfl
  obtain ⟨-, same⟩ := visit.trans
    (steady_execute symbols (spares instruction there) executed) stands
  obtain ⟨s₁, ⟨f, -, arena⟩, -, prepared⟩ :=
    (admits_bound invoke id).execute ctx index instruction executed
  have inside : id < s₁.1.size := by
    rw [arena, Arena.size_modify, State.visit, Arena.size_modify]
    exact stands
  rw [showed] at same
  generalize s₁.1 = a at prepared inside
  generalize s'.1 = a' at prepared same ⊢
  cases next with
  | next target =>
    cases goes
    exact ⟨symbols, same⟩
  | stop t v => cases goes
  | split starts =>
    cases goes
    refine ⟨symbols, ?_⟩
    rw [← same]
    exact split_shows inside prepared
  | spread result values target =>
    cases goes
    refine ⟨symbols, ?_, same⟩
    rintro rfl
    exact spares instruction there
      (only_spread invoke ctx id index instruction executed _ _ _ rfl)

/-- A path shows what it has shown, on its branch and on all that come of it, as long as it executes
nothing that writes the slot. -/
theorem Course.shows (course : Course invoke steps start s trace task s₁)
    (unsplit : start.Unsplit 1 s.1) (shows_ : start.Shows t slot name face s.1)
    (spares : Unwritten steps slot trace) : task.Shows t slot name face s₁.1 := by
  induction course with
  | here => exact shows_
  | onward course done goes ih =>
    obtain ⟨mine, others⟩ := List.forall_mem_cons.1 spares
    exact step_shows (course.leads.unsplit unsplit).stands (ih others) mine done goes
  | first _ ih =>
    obtain ⟨symbols, all⟩ := ih spares
    exact ⟨symbols, all _ List.mem_cons_self⟩
  | later course before ih =>
    obtain ⟨symbols, all⟩ := ih spares
    have waits := course.leads.unsplit unsplit
    refine ⟨symbols, fun start later => ?_⟩
    rw [← all start (List.mem_cons_of_mem _ later)]
    -- The walk before writes its own branch and new ones, and none of those that still wait.
    refine Arena.shown_of_lookupSlot (Arena.lookupSlot_of_framed
      (before.framed waits.first.stands).1 (waits.unsplit _ List.mem_cons_self)
      (waits.stands start (List.mem_cons_of_mem _ later)) fun same => ?_)
    exact (List.nodup_cons.1 waits.nodup).1 (same ▸ List.mem_map.2 ⟨start, later, rfl⟩)
  | @eachFirst _ _ id _ result _ _ s₁ _ course bound ih =>
    obtain ⟨symbols, apart, showed⟩ := ih spares
    have stands : id < s₁.1.size := (course.leads.unsplit unsplit).stands
    have inside : s₁.1.size < (s₁.1.child id).size := by
      rw [Arena.size_child]
      exact Nat.lt_succ_self _
    refine ⟨symbols, ?_⟩
    rw [(steady_bindSlot apart _ bound inside).2, Arena.shown_child_size stands, showed]
  | @eachLater _ _ id _ _ _ _ s₁ _ _ _ course bound before ih =>
    obtain ⟨symbols, apart, showed⟩ := ih spares
    have stands : id < s₁.1.size := (course.leads.unsplit unsplit).stands
    refine ⟨symbols, apart, ?_⟩
    rw [← showed]
    refine Arena.shown_of_lookupSlot (Arena.lookupSlot_of_older (fun k hk => ?_) slot)
    exact branch?_of_each bound before (Nat.lt_of_le_of_lt hk stands)

/-! ## Loads -/

/-- The step loads the member `name` of what is in the slot, and puts it into `result`. -/
structure LoadsMember (invoke : Invoke) (steps : Array Step) (ctx : Context) (id index : Nat)
    (result slot : Slot) (name : String) (s s' : State) : Prop where
  there : ∃ span, steps[index]? = some ⟨.member result slot name, span⟩
  done : Gives (step invoke ctx steps id index) s (.next (index + 1)) s'

/-- A load binds a value with the face that its branch shows, or anything where it shows none. -/
theorem LoadsMember.binds (h : LoadsMember invoke steps ctx id index result slot name s s')
    (stands : id < s.1.size) : ∃ v, s'.1.lookupSlot id result = some v ∧
      v.face = (s.1.shown ctx.symbols id slot name).getD Value.any.face := by
  obtain ⟨⟨span, there⟩, done⟩ := h
  obtain ⟨b, found⟩ := Arena.exists_branch stands
  rcases step_cases found done with ⟨-, -, ends⟩ |
    ⟨instruction, found', ⟨-, ends, -⟩ | ⟨-, executed⟩⟩
  · cases ends
  · cases ends
  obtain rfl := Option.some.inj (there.symm.trans found')
  obtain ⟨v, s₁, loaded, rest⟩ := gives_bind_iff.1 executed
  obtain ⟨_, s₂, bound, rest⟩ := gives_bind_iff.1 rest
  obtain ⟨-, rfl⟩ := gives_pure_iff.1 rest
  obtain ⟨w, s₃, placed, bound⟩ := gives_bind_iff.1 bound
  obtain ⟨next, rfl, arena⟩ := fresh_places placed
  obtain rfl := gives_modify_iff.1 bound
  have visit : Steady ctx.symbols id slot name s (s.visit id index) :=
    steady_modify (fun _ => rfl) fun _ => rfl
  obtain ⟨grows, same⟩ := visit stands
  have inside := Nat.lt_of_lt_of_le stands grows
  obtain ⟨face, size, -⟩ := loadMember_shows inside loaded
  have there' : id < s₃.1.size := by
    rw [arena, size]
    exact inside
  obtain ⟨b', found'⟩ := Arena.exists_branch there'
  refine ⟨_, Arena.lookupSlot_bindSlot found' result _, ?_⟩
  rw [Value.face_place, face, same]

/-- A step that loads a member stands where nothing has come from yet, and so does what follows. -/
theorem LoadsMember.unsplit (h : LoadsMember invoke steps ctx id index result slot name s s')
    (unsplit : (Task.path ctx id index).Unsplit 1 s.1) :
    (Task.path ctx id (index + 1)).Unsplit 1 s'.1 := step_unsplit unsplit h.done rfl

/-- Where a member is loaded into another slot, it is shown from there on as it was before. -/
theorem LoadsMember.shows (h : LoadsMember invoke steps ctx id index result slot name s s')
    (apart : result ≠ slot) (stands : id < s.1.size) :
    (Task.path ctx id (index + 1)).Shows ctx.symbols slot name
      (s.1.shown ctx.symbols id slot name) s'.1 := by
  obtain ⟨⟨span, there⟩, done⟩ := h
  refine step_shows stands ⟨rfl, rfl⟩ (fun step there' => ?_) done rfl
  obtain rfl := Option.some.inj (there.symm.trans there')
  exact fun same => apart (Option.some.inj same)

/-- A member is loaded twice through one slot, with no instruction between that writes the slot, and
what is bound has the same face. -/
theorem Course.reloads {id' j : Nat} {again : Slot} {ctx' : Context} {s₂ s₃ : State}
    (unsplit : (Task.path ctx id index).Unsplit 1 s.1) (apart : result ≠ slot)
    (first : LoadsMember invoke steps ctx id index result slot name s s₁)
    (course : Course invoke steps (.path ctx id (index + 1)) s₁ trace (.path ctx' id' j) s₂)
    (unwritten : Unwritten steps slot trace)
    (second : LoadsMember invoke steps ctx' id' j again slot name s₂ s₃) :
    ∃ v w, s₁.1.lookupSlot id result = some v ∧ s₃.1.lookupSlot id' again = some w ∧
      w.face = v.face := by
  obtain ⟨symbols, same⟩ :=
    course.shows (first.unsplit unsplit) (first.shows apart unsplit.stands) unwritten
  have stands' := (course.leads.unsplit (first.unsplit unsplit)).stands
  obtain ⟨v, bound, face⟩ := first.binds unsplit.stands
  obtain ⟨w, bound', face'⟩ := second.binds stands'
  exact ⟨v, w, bound, bound', by rw [face, face', symbols, same]⟩

end Shows

/-! ## Queries -/

theorem Query.Reaches.unsplit {ctx : Context} {m : Memory} {q : Query} {invoke : Invoke}
    {steps : Array Step} {task : Task} {s : State} (h : q.Reaches ctx m invoke steps task s) :
    task.Unsplit 1 s.1 := by
  cases h with
  | outer _ opened leads => exact leads.unsplit (unsplit_openRoot opened)
  | inner _ _ _ opened leads => exact leads.unsplit (unsplit_openRoot opened)

/-- Whatever is asked of an analysis, one query behind the other, in any scopes and with any code:
wherever the walks of the query and of the calls that it follows come to, all values on branches
retell the members that are kept of them.  Where a path loads a member through a slot into another
one, and then loads it again, on its branch or on one that comes of it, with no instruction between
that writes the slot, it binds the same type, constant and members again. -/
theorem members_reload_alike (t : SymbolTable) (options : AnalysisOptions) (earlier : List Query)
    (q : Query) :
    let ctx := Context.outer t options
    let m := Query.history ctx .empty earlier
    (∀ e, q.opens? ctx m = some e → (e.resolution ctx).1.arena.Only (Value.Retells t)) ∧
      ∀ invoke steps task s, q.Reaches ctx m invoke steps task s →
        s.1.Only (Value.Retells t) ∧
          (∀ ends s', Walks invoke steps (fun _ _ _ _ => True) task s ends s' →
            s'.1.Only (Value.Retells t)) ∧
          ∀ ctx₁ id i result slot name s₁, task = .path ctx₁ id i → result ≠ slot →
            LoadsMember invoke steps ctx₁ id i result slot name s s₁ →
              ∀ trace ctx₂ id' j again s₂ s₃,
                Course invoke steps (.path ctx₁ id (i + 1)) s₁ trace (.path ctx₂ id' j) s₂ →
                  Unwritten steps slot trace →
                    LoadsMember invoke steps ctx₂ id' j again slot name s₂ s₃ →
                      ∃ v w, s₁.1.lookupSlot id result = some v ∧
                        s₃.1.lookupSlot id' again = some w ∧ w.face = v.face := by
  intro ctx m
  have closed := Value.closed_retells (t := ctx.symbols)
  have sound := (asked_history ctx earlier).sound closed
  have retells {a : Arena} (only : a.Only (Value.Throughout (Value.Retells t))) :
      a.Only (Value.Retells t) := fun id b found v hv => (only id b found v hv).here
  refine ⟨fun e opens => ?_, fun invoke steps task s reaches => ?_⟩
  · have inside := Analysis.only_scopeVariables closed e.scope
    exact retells (Analysis.resolve_yields closed.toClosed
      (Analysis.calls_yields closed.toClosed ctx e.memory) rfl e.code e.scope inside
      (Query.Entry.sound opens sound)).1
  · obtain ⟨state, -, ended⟩ := reaches.sound closed.toClosed sound fun _ _ _ _ => trivial
    refine ⟨retells state.arena, fun ends s' walks => retells (ended ends s' walks).arena, ?_⟩
    rintro ctx₁ id i result slot name s₁ rfl apart first trace ctx₂ id' j again s₂ s₃ course
      unwritten second
    exact course.reloads reaches.unsplit apart first unwritten second

/-! ### Straight code -/

/-- The branches on which a path goes on where it is split. -/
def Next.starts? : Next → Option (List (Nat × Nat))
  | split starts => some starts
  | _ => none

theorem Next.eq_split_of_starts? {next : Next} {starts : List (Nat × Nat)}
    (h : next.starts? = some starts) : next = .split starts := by
  cases next with
  | split others => exact congrArg Next.split (Option.some.inj h)
  | _ => cases h

/-- The step at `n` on branch `id`, in code that stands in an empty module. -/
def plainStep (code : Code) (id n : Nat) : Walk Next :=
  step (Analysis.calls (.outer .empty .standard) .empty) (.outer .empty .standard)
    code.steps.toArray id n

/-- The state in which the root has executed the first `n` instructions. -/
def execution (code : Code) : Nat → State
  | 0 => (outcome (openRoot .module []) (.empty, .empty)).2
  | n + 1 => (outcome (plainStep code 0 n) (execution code n)).2

/-- The root executes instruction `n`, and goes on behind it. -/
def GoesOn (code : Code) (n : Nat) : Prop :=
  (outcome (plainStep code 0 n) (execution code n)).1.index? = some (n + 1)

instance (code : Code) (n : Nat) : Decidable (GoesOn code n) :=
  inferInstanceAs (Decidable (_ = _))

section Straight

variable {code : Code} {n : Nat}

theorem GoesOn.gives (h : GoesOn code n) :
    Gives (plainStep code 0 n) (execution code n) (.next (n + 1)) (execution code (n + 1)) :=
  Next.eq_next_of_index? h ▸ gives_outcome (plainStep code 0 n) (execution code n)

theorem course_execution {first : Nat} (h : ∀ k < n, GoesOn code (first + k)) :
    Course (Analysis.calls (.outer .empty .standard) .empty) code.steps.toArray
      (.path (.outer .empty .standard) 0 first) (execution code first)
      ((List.range n).reverse.map (first + ·)) (.path (.outer .empty .standard) 0 (first + n))
      (execution code (first + n)) := by
  induction n with
  | zero => exact .here
  | succ n ih =>
    rw [List.range_succ, List.reverse_append]
    exact (ih fun k hk => h k (Nat.lt_succ_of_lt hk)).onward (h n (Nat.lt_succ_self n)).gives rfl

theorem reaches_execution (h : ∀ k < n, GoesOn code k) :
    (Query.resolveCode code .module).Reaches (.outer .empty .standard) .empty
      (Analysis.calls (.outer .empty .standard) .empty) code.steps.toArray
      (.path (.outer .empty .standard) 0 n) (execution code n) := by
  have course : Course _ _ _ _ _ (.path _ 0 (0 + n)) (execution code (0 + n)) :=
    course_execution fun k hk => (Nat.zero_add k).symm ▸ h k hk
  rw [Nat.zero_add] at course
  exact .outer (e := ⟨code, .module, .empty⟩) rfl (gives_outcome _ _) course.leads

end Straight

/-- A member of a string is loaded on both sides of a fork, when it has been loaded before: between
the loads the string is copied, stored and handed to a call. -/
def reloadingCode : Code :=
  .ofInstrs [.const 0 (.string "abc"), .member 1 0 "length", .unary 2 .positive 0, .store "p" 2,
    .load 3 "print", .call 4 3 [0], .gotoIf 7 1 false, .member 5 0 "length", .ret (some 5)]

theorem members_reload_alike_forked :
    let ctx := Context.outer .empty .standard
    let steps := reloadingCode.steps.toArray
    let invoke := Analysis.calls ctx .empty
    ∃ s s₁ s₂ s₃,
      (Query.resolveCode reloadingCode .module).Reaches ctx .empty invoke steps (.path ctx 0 1) s ∧
      (1 : Slot) ≠ 0 ∧ LoadsMember invoke steps ctx 0 1 1 0 "length" s s₁ ∧
      Course invoke steps (.path ctx 0 2) s₁ [6, 5, 4, 3, 2] (.path ctx 1 7) s₂ ∧
      Unwritten steps 0 [6, 5, 4, 3, 2] ∧ LoadsMember invoke steps ctx 1 7 5 0 "length" s₂ s₃ ∧
      (∃ r p u, s₁.1.lookupSlot 0 0 = some r ∧ r.type = .string ∧
        r.property? "length" = some p ∧ SymbolTable.empty.member r "length" = .ok u ∧
        u.face = p.face) ∧
      ∃ v w, s₁.1.lookupSlot 0 1 = some v ∧ s₃.1.lookupSlot 1 5 = some w ∧
        v.constant.isSome = true ∧ w.face = v.face := by
  intro ctx steps invoke
  have goesOn : ∀ k < 6, GoesOn reloadingCode k := by decide +kernel
  have splits : (outcome (plainStep reloadingCode 0 6) (execution reloadingCode 6)).1 =
      .split [(1, 7), (2, 7)] := Next.eq_split_of_starts? (by decide +kernel)
  have last : (outcome (plainStep reloadingCode 1 7) (execution reloadingCode 7)).1 = .next 8 :=
    Next.eq_next_of_index? (by decide +kernel)
  obtain ⟨-, walks⟩ :=
    members_reload_alike .empty .standard [] (.resolveCode reloadingCode .module)
  have reaches := reaches_execution fun k (hk : k < 1) => goesOn k (by omega)
  have reaches' := reaches_execution fun k (hk : k < 2) => goesOn k (by omega)
  have first : LoadsMember invoke steps ctx 0 1 1 0 "length" (execution reloadingCode 1)
      (execution reloadingCode 2) := ⟨⟨_, rfl⟩, (goesOn 1 (by decide)).gives⟩
  have course : Course invoke steps (.path ctx 0 2) (execution reloadingCode 2) [6, 5, 4, 3, 2]
      (.path ctx 1 7) (execution reloadingCode 7) :=
    ((course_execution fun k (hk : k < 4) => goesOn (2 + k) (by omega)).onward
      (splits ▸ gives_outcome (plainStep reloadingCode 0 6) (execution reloadingCode 6)) rfl).first
  have second : LoadsMember invoke steps ctx 1 7 5 0 "length" (execution reloadingCode 7)
      (outcome (plainStep reloadingCode 1 7) (execution reloadingCode 7)).2 :=
    ⟨⟨_, rfl⟩, last ▸ gives_outcome (plainStep reloadingCode 1 7) (execution reloadingCode 7)⟩
  have unwritten : Unwritten steps 0 [6, 5, 4, 3, 2] := by unfold Unwritten; decide
  refine ⟨_, _, _, _, reaches, by decide, first, course, unwritten, second, ?_, ?_⟩
  · obtain ⟨string, keeps⟩ :
        ((execution reloadingCode 2).1.lookupSlot 0 0).any (·.type == .string) = true ∧
        ((execution reloadingCode 2).1.lookupSlot 0 0).any (·.property? "length" |>.isSome) = true := by
      decide +kernel
    obtain ⟨r, found, string⟩ := (Option.any_eq_true _ _).1 string
    rw [found] at keeps
    obtain ⟨p, kept⟩ := Option.isSome_iff_exists.1 keeps
    have retells := (walks _ _ _ _ reaches').1.lookupSlot found
    have type : r.type = .string := eq_of_beq string
    obtain ⟨u, looked, same⟩ := retells (by rw [type]; decide) "length" p kept
    exact ⟨r, p, u, found, type, kept, looked, same⟩
  · obtain ⟨v, w, bound, bound', same⟩ := (walks _ _ _ _ reaches).2.2 _ _ _ _ _ _ _ rfl (by decide)
      first _ _ _ _ _ _ _ course unwritten second
    have known : ((execution reloadingCode 2).1.lookupSlot 0 1).any (·.constant.isSome) = true := by
      decide +kernel
    rw [bound] at known
    exact ⟨v, w, bound, bound', known, same⟩

/-- The first load puts the member into the slot that it has been loaded from. -/
def overwritingCode : Code :=
  .ofInstrs [.const 0 (.string "abc"), .member 0 0 "length", .member 1 0 "length", .ret (some 1)]

/-- A load that writes the slot itself is followed at once by another of the same member, and what
they bind is not of one type. -/
theorem members_reload_overwritten :
    let ctx := Context.outer .empty .standard
    let steps := overwritingCode.steps.toArray
    let invoke := Analysis.calls ctx .empty
    ∃ s s₁ s₂,
      (Query.resolveCode overwritingCode .module).Reaches ctx .empty invoke steps (.path ctx 0 1) s ∧
      LoadsMember invoke steps ctx 0 1 0 0 "length" s s₁ ∧
      Course invoke steps (.path ctx 0 2) s₁ [] (.path ctx 0 2) s₁ ∧ Unwritten steps 0 [] ∧
      LoadsMember invoke steps ctx 0 2 1 0 "length" s₁ s₂ ∧
      ∃ v w, s₁.1.lookupSlot 0 0 = some v ∧ s₂.1.lookupSlot 0 1 = some w ∧ v.type = .number ∧
        w.type = .any := by
  intro ctx steps invoke
  have goesOn : ∀ k < 3, GoesOn overwritingCode k := by decide +kernel
  obtain ⟨first, second⟩ :
      ((execution overwritingCode 2).1.lookupSlot 0 0).any (·.type == .number) = true ∧
      ((execution overwritingCode 3).1.lookupSlot 0 1).any (·.type == .any) = true := by
    decide +kernel
  obtain ⟨v, bound, number⟩ := (Option.any_eq_true _ _).1 first
  obtain ⟨w, bound', any⟩ := (Option.any_eq_true _ _).1 second
  exact ⟨_, _, _, reaches_execution fun k (hk : k < 1) => goesOn k (by omega),
    ⟨⟨_, rfl⟩, (goesOn 1 (by decide)).gives⟩, .here, by unfold Unwritten; decide,
    ⟨⟨_, rfl⟩, (goesOn 2 (by decide)).gives⟩, v, w, bound, bound', eq_of_beq number, eq_of_beq any⟩

end PathTyping
