import PathTyping.Proofs.Passage
import PathTyping.Compilation
import Mathlib.Data.List.Basic

/-!
# Collapsing the results of a call

Of the values that a call returns, the caller goes on with those that `Value.distinct` keeps: one
for each type and constant.  Two values with the same type and constant may still name other
candidates, have other bounds, or be bound to another receiver, and the caller can see that.

1. If every result that is dropped has the contents of the one that is kept for it, and nothing else
   is bound to what only dropped results hold, then the caller returns what it would return if it
   went on with every result (`union_distinct`).
2. Otherwise it may not: a choice of two functions loses one of them (`union_distinct_choice`).
-/

namespace PathTyping

open Value (rename distinct distinctFrom)

/-! ## Joins over the values that are kept -/

theorem joinArms_flatMap_distinctFrom {g : Value → List Ty} {seen values : List Value}
    {arms : List Ty} (known : ∀ v ∈ seen, Ty.Known arms (g v))
    (h : ∀ v ∈ seen ++ distinctFrom seen values, ∀ w ∈ values, v.alike w = true → g v = g w) :
    Ty.joinArms arms ((distinctFrom seen values).flatMap g) =
      Ty.joinArms arms (values.flatMap g) := by
  induction values generalizing seen arms with
  | nil => rfl
  | cons w rest ih =>
    rw [distinctFrom] at h ⊢
    rw [List.flatMap_cons, Ty.joinArms_append]
    split at h
    · next dropped =>
      -- `w` is dropped: what it gives was given by the value that is kept for it.
      rw [if_pos dropped]
      obtain ⟨v, hv, same⟩ := List.any_eq_true.1 dropped
      have given := h v (List.mem_append_left _ hv) w List.mem_cons_self same
      rw [← given, Ty.joinArms_of_known (known v hv)]
      exact ih known fun u hu x hx => h u hu x (List.mem_cons_of_mem _ hx)
    · next kept =>
      rw [if_neg kept, List.flatMap_cons, Ty.joinArms_append]
      cases joined : Ty.joinArms arms (g w) with
      | none => rfl
      | some arms' =>
        obtain ⟨older, own⟩ := Ty.known_of_joinArms joined
        refine ih ?_ fun u hu x hx => h u ?_ x (List.mem_cons_of_mem _ hx)
        · intro v hv
          rcases List.mem_append.1 hv with hv | hv
          · exact (known v hv).mono older
          · exact List.mem_singleton.1 hv ▸ own
        · rw [List.append_assoc] at hu
          exact hu

/-- A join over the values that are kept is one over all values, if alike values give the same. -/
theorem join_flatMap_distinct {g : Value → List Ty} {values : List Value}
    (h : ∀ v ∈ distinct values, ∀ w ∈ values, v.alike w = true → g v = g w) :
    Ty.join ((distinct values).flatMap g) = Ty.join (values.flatMap g) := by
  have joined : Ty.joinArms [] ((distinctFrom [] values).flatMap g) =
      Ty.joinArms [] (values.flatMap g) := joinArms_flatMap_distinctFrom nofun h
  unfold Ty.join
  rw [← joined]
  rfl

theorem exists_distinctFrom (seen : List Value) {values : List Value} {w : Value}
    (hw : w ∈ values) :
    ∃ v ∈ seen ++ distinctFrom seen values, v = w ∨ v.alike w = true := by
  induction values generalizing seen with
  | nil => cases hw
  | cons u rest ih =>
    rw [distinctFrom]
    split
    · next dropped =>
      rcases List.mem_cons.1 hw with rfl | hw
      · obtain ⟨v, hv, same⟩ := List.any_eq_true.1 dropped
        exact ⟨v, List.mem_append_left _ hv, .inr same⟩
      · exact ih seen hw
    · rcases List.mem_cons.1 hw with rfl | hw
      · exact ⟨w, List.mem_append_right _ List.mem_cons_self, .inl rfl⟩
      · obtain ⟨v, hv, same⟩ := ih (seen ++ [u]) hw
        refine ⟨v, ?_, same⟩
        rw [List.append_assoc] at hv
        exact hv

/-- For every value one is kept that is alike, or the value itself. -/
theorem exists_distinct {values : List Value} {w : Value} (hw : w ∈ values) :
    ∃ v ∈ distinct values, v = w ∨ v.alike w = true := exists_distinctFrom [] hw

theorem flatMap_distinct_eq_nil {g : Value → List Ty} {values : List Value}
    (h : ∀ v ∈ distinct values, ∀ w ∈ values, v.alike w = true → g v = g w) :
    (distinct values).flatMap g = [] ↔ values.flatMap g = [] := by
  rw [List.flatMap_eq_nil_iff, List.flatMap_eq_nil_iff]
  constructor
  · intro empty w hw
    obtain ⟨v, hv, rfl | same⟩ := exists_distinct hw
    · exact empty v hv
    · exact h v hv w hw same ▸ empty v hv
  · exact fun empty v hv => empty v (Value.mem_of_mem_distinct hv)

/-! ## What ended paths return -/

/-- The types of what is returned on branches. -/
def returnedTypes (bs : List Branch) : List Ty :=
  (bs.filterMap Branch.returned).map Value.type

/-- Those of paths that were not cut off. -/
def settledTypes (bs : List Branch) : List Ty :=
  returnedTypes (bs.filter fun b => !Resolution.isCutoff b)

theorem map_type_returnsOf (bs : List Branch) :
    (Resolution.returnsOf bs).map Value.type =
      if settledTypes bs = [] then returnedTypes bs else settledTypes bs := by
  unfold Resolution.returnsOf settledTypes returnedTypes
  cases (bs.filter fun b => !Resolution.isCutoff b).filterMap Branch.returned <;> simp

theorem returnedTypes_flatMap {α : Type} (xs : List α) (g : α → List Branch) :
    returnedTypes (xs.flatMap g) = xs.flatMap fun x => returnedTypes (g x) := by
  unfold returnedTypes
  rw [List.filterMap_flatMap, List.map_flatMap]

theorem settledTypes_flatMap {α : Type} (xs : List α) (g : α → List Branch) :
    settledTypes (xs.flatMap g) = xs.flatMap fun x => settledTypes (g x) := by
  unfold settledTypes
  rw [List.filter_flatMap, returnedTypes_flatMap]

theorem returnedTypes_rename (f : Nat → Nat) (bs : List Branch) :
    returnedTypes (bs.map (Branch.rename f)) = returnedTypes bs := by
  unfold returnedTypes
  rw [returned_rename, Analysis.map_type_rename]

theorem settledTypes_rename (f : Nat → Nat) (bs : List Branch) :
    settledTypes (bs.map (Branch.rename f)) = settledTypes bs := by
  unfold settledTypes
  rw [List.filter_map]
  exact returnedTypes_rename f _

/-! ## The objects that a value refers to -/

namespace Value

section Within

variable (p : Nat → Prop)

mutual

/-- The labels of the value, of what it holds and of the receivers it is bound to satisfy `p`. -/
def Within : Value → Prop
  | ⟨label, _, _, target, _, properties⟩ =>
    p label ∧ TargetWithin target ∧ PropertiesWithin properties
termination_by structural v => v

def TargetWithin : Option Value → Prop
  | none => True
  | some v => Within v
termination_by structural target => target

def PropertiesWithin : List (String × Value) → Prop
  | [] => True
  | q :: rest => PropertyWithin q ∧ PropertiesWithin rest
termination_by structural ps => ps

def PropertyWithin : String × Value → Prop
  | (_, v) => Within v
termination_by structural q => q

end

end Within

section Congr

variable {f g : Nat → Nat} {p : Nat → Prop}

mutual

theorem rename_congr (same : ∀ l, p l → f l = g l) : ∀ v : Value, v.Within p → v.rename f = v.rename g
  | ⟨_, _, _, target, _, properties⟩, ⟨label, receiver, held⟩ => by
    rw [rename, rename, same _ label, renameTarget_congr same target receiver,
      renameProperties_congr same properties held]

theorem renameTarget_congr (same : ∀ l, p l → f l = g l) : ∀ target, TargetWithin p target →
    renameTarget f target = renameTarget g target
  | none, _ => rfl
  | some v, h => by rw [renameTarget, renameTarget, rename_congr same v h]

theorem renameProperties_congr (same : ∀ l, p l → f l = g l) : ∀ ps, PropertiesWithin p ps →
    renameProperties f ps = renameProperties g ps
  | [], _ => rfl
  | q :: rest, ⟨first, behind⟩ => by
    rw [renameProperties, renameProperties, renameProperty_congr same q first,
      renameProperties_congr same rest behind]

theorem renameProperty_congr (same : ∀ l, p l → f l = g l) : ∀ q, PropertyWithin p q →
    renameProperty f q = renameProperty g q
  | (_, v), h => by rw [renameProperty, renameProperty, rename_congr same v h]

end

end Congr

section Copies

variable {f : Nat → Nat} {k : Nat}

mutual

/-- Values with the same contents are the same after all objects that they hold have got one
name. -/
theorem rename_of_copy : ∀ v w : Value, (∀ l, v.reaches l = true → f l = k) →
    (∀ l, w.reaches l = true → f l = k) → v.copy = w.copy → v.rename f = w.rename f
  | ⟨label, _, _, _, _, ps⟩, ⟨label', _, _, _, _, qs⟩, hv, hw, same => by
    simp only [copy, mk.injEq, true_and] at same
    obtain ⟨rfl, rfl, rfl, rfl, properties⟩ := same
    have own : f label = f label' := by
      rw [hv label (by simp [reaches]), hw label' (by simp [reaches])]
    have held := renameProperties_of_copy ps qs (fun l hl => hv l (by simp [reaches, hl]))
      (fun l hl => hw l (by simp [reaches, hl])) properties
    rw [rename, rename, own, held]

theorem renameProperties_of_copy : ∀ ps qs : List (String × Value),
    (∀ l, propertiesReach l ps = true → f l = k) → (∀ l, propertiesReach l qs = true → f l = k) →
    copyProperties ps = copyProperties qs → renameProperties f ps = renameProperties f qs
  | [], [], _, _, _ => rfl
  | [], _ :: _, _, _, same => by cases same
  | _ :: _, [], _, _, same => by cases same
  | p :: ps, q :: qs, hp, hq, same => by
    simp only [copyProperties, List.cons.injEq] at same
    have first := renameProperty_of_copy p q (fun l hl => hp l (by simp [propertiesReach, hl]))
      (fun l hl => hq l (by simp [propertiesReach, hl])) same.1
    have behind := renameProperties_of_copy ps qs (fun l hl => hp l (by simp [propertiesReach, hl]))
      (fun l hl => hq l (by simp [propertiesReach, hl])) same.2
    rw [renameProperties, renameProperties, first, behind]

theorem renameProperty_of_copy : ∀ p q : String × Value,
    (∀ l, propertyReaches l p = true → f l = k) → (∀ l, propertyReaches l q = true → f l = k) →
    copyProperty p = copyProperty q → renameProperty f p = renameProperty f q
  | (_, v), (_, w), hv, hw, same => by
    simp only [copyProperty, Prod.mk.injEq] at same
    rw [renameProperty, renameProperty, same.1, rename_of_copy v w hv hw same.2]

end

end Copies

end Value

section Within

variable {f g : Nat → Nat} {p : Nat → Prop}

def Arena.Within (p : Nat → Prop) (a : Arena) : Prop :=
  ∀ id b, a.branch? id = some b → ∀ v ∈ b.values, v.Within p

def Memory.Within (p : Nat → Prop) (m : Memory) : Prop := ∀ v ∈ m.values, v.Within p

theorem Assoc.mapValues_congr {κ ν μ : Type} {g h : ν → μ} {m : Assoc κ ν}
    (same : ∀ v ∈ m.map Prod.snd, g v = h v) : mapValues g m = mapValues h m := by
  refine List.map_congr_left fun q hq => ?_
  rw [same q.2 (List.mem_map_of_mem hq)]

theorem Branch.rename_congr {b : Branch} (same : ∀ v ∈ b.values, v.rename f = v.rename g) :
    b.rename f = b.rename g := by
  simp only [values, List.mem_append] at same
  have stack : b.stack.map (Value.rename f) = b.stack.map (Value.rename g) :=
    List.map_congr_left fun v hv => same v (.inl (.inr hv))
  have slots : Assoc.mapValues (Value.rename f) b.slots = Assoc.mapValues (Value.rename g) b.slots :=
    Assoc.mapValues_congr fun v hv => same v (.inl (.inl (.inl hv)))
  have locals : Assoc.mapValues (Value.rename f) b.locals =
      Assoc.mapValues (Value.rename g) b.locals :=
    Assoc.mapValues_congr fun v hv => same v (.inl (.inl (.inr hv)))
  have returned : b.returned.map (Value.rename f) = b.returned.map (Value.rename g) :=
    Option.map_congr fun v hv => same v (.inr (Option.mem_toList.2 hv))
  unfold Branch.rename
  rw [stack, slots, locals, returned]

theorem Arena.rename_congr (same : ∀ l, p l → f l = g l) {a : Arena} (h : a.Within p) :
    a.rename f = a.rename g := by
  apply ext_branch?
  intro id
  rw [branch?_rename, branch?_rename]
  refine Option.map_congr fun b found => ?_
  exact Branch.rename_congr fun v hv => Value.rename_congr same v (h id b found v hv)

theorem Memory.rename_congr (same : ∀ l, p l → f l = g l) {m : Memory} (h : m.Within p)
    (next : f m.nextLabel = g m.nextLabel) : m.rename f = m.rename g := by
  have results : Assoc.mapValues (List.map (Value.rename f)) m.results =
      Assoc.mapValues (List.map (Value.rename g)) m.results := by
    refine Assoc.mapValues_congr fun values hvalues => List.map_congr_left fun v hv => ?_
    obtain ⟨entry, kept, rfl⟩ := List.mem_map.1 hvalues
    exact Value.rename_congr same v (h v (List.mem_flatMap.2 ⟨entry, kept, hv⟩))
  unfold Memory.rename
  rw [results, next]

end Within

/-! ## Where a call stands -/

/-- A path whose call has been followed: how it goes on, and the state that the call left. -/
structure CallSite where
  /-- How many more calls may be followed. -/
  depth : Nat
  ctx : Context
  steps : Array Step
  id : Nat
  /-- Where the result of the call is put. -/
  slot : Slot
  /-- The instruction behind the call. -/
  index : Nat
  arena : Arena
  memory : Memory

namespace CallSite

variable (c : CallSite)

/-- All paths of the caller that go on with `v`, on a branch of its own, while `values` are held. -/
def goOn (values : List Value) (v : Value) : Walk (List Nat) :=
  Walk.walkEach
    (fun ctx branch =>
      Walk.walk (Analysis.invoke c.depth) c.steps (c.steps.size + 1) ctx branch c.index)
    (c.ctx.await values) c.id c.slot [v]

/-- The branches on which these paths end. -/
def ends (values : List Value) (v : Value) : List Branch :=
  let out := ((c.goOn values v).run c.arena).run c.memory
  out.1.1.filterMap out.1.2.branch?

/-- What the caller returns if it goes on once with each of `values`. -/
def union (values : List Value) : Ty :=
  .join ((Resolution.returnsOf (values.flatMap (c.ends values))).map Value.type)

/-- If the object `l` is held by results, it is held without those that are dropped: by results that
are kept, around the caller, or on a stack of its arena. -/
def Remains (results : List Value) (l : Nat) : Prop :=
  (∃ v ∈ results, v.reaches l = true) →
    (∃ v ∈ distinct results, v.reaches l = true) ∨ c.ctx.held l = true ∨ c.arena.Stacks l

/-- Nothing that the caller could see is lost with the results that are dropped. -/
structure Collapses (results : List Value) : Prop where
  /-- Results are objects that the memory knows. -/
  objects : ∀ v ∈ results, ∀ l, v.reaches l = true → 0 < l ∧ l < c.memory.nextLabel
  /-- Each has the contents of the one that is kept for it. -/
  contents : ∀ v ∈ distinct results, ∀ w ∈ results, v.alike w = true → v.copy = w.copy
  /-- What is kept is not bound to what only dropped results hold, ... -/
  kept : ∀ v ∈ distinct results, v.Within (c.Remains results)
  /-- ... nor is what the caller has bound, ... -/
  arena : c.arena.Within (c.Remains results)
  /-- ... nor are results of other calls. -/
  memory : c.memory.Within (c.Remains results)

end CallSite

/-! ## Merging the results -/

section Merge

open Classical in
/-- Gives the objects of `p` one name. -/
noncomputable def merge (p : Nat → Prop) (k l : Nat) : Nat := if p l then k else l

variable {p : Nat → Prop} {k l n : Nat}

theorem merge_of (h : p l) : merge p k l = k := if_pos h

theorem merge_of_not (h : ¬ p l) : merge p k l = l := if_neg h

theorem renaming_merge (hk : 0 < k) (small : ∀ l, p l → 0 < l ∧ l < n) : Renaming (merge p k) n where
  zero l := by
    by_cases h : p l
    · have positive := (small l h).1
      rw [merge_of h]
      omega
    · rw [merge_of_not h]
  next l late := by
    have old : ¬ p l := fun h => by have := (small l h).2; omega
    have older : ¬ p (l + 1) := fun h => by have := (small (l + 1) h).2; omega
    rw [merge_of_not old, merge_of_not older]

/-- Merging an object `k` with others that are held, around a path that waits for `values`, leaves
`k` held. -/
theorem renamesOver_merge {ctx : Context} {a : Arena} {values : List Value} (hk : p k)
    (held : ∀ l, p l → (∃ v ∈ values, v.reaches l = true) ∨ ctx.held l = true ∨ a.Stacks l)
    (merged : ∀ v ∈ values, ∀ l, v.reaches l = true → p l) :
    (ctx.await values).RenamesOver (merge p k) a.Stacks
      { ctx with held := fun l => l == k || ctx.held l } where
  symbols := rfl
  options := rfl
  enter a' keeps := by
    have holds (l : Nat) (h : p l) : ((ctx.await values).enter a').held l = true := by
      show (a'.holds l || (values.any (·.reaches l) || ctx.held l)) = true
      rcases held l h with waiting | around | stacked
      · rw [List.any_eq_true.2 waiting, Bool.true_or, Bool.or_true]
      · rw [around, Bool.or_true, Bool.or_true]
      · rw [(keeps l stacked).holds, Bool.true_or]
    refine ⟨rfl, rfl, fun l => ?_, fun j l same other => holds l ?_⟩
    · by_cases h : p l
      · rw [holds l h, merge_of h]
        show ((a'.rename (merge p k)).holds k || (k == k || ctx.held k)) = true
        rw [beq_self_eq_true, Bool.true_or, Bool.or_true]
      · have apart : l ≠ k := fun same => h (same ▸ hk)
        have waiting : values.any (·.reaches l) = false := by
          rw [← Bool.not_eq_true, List.any_eq_true]
          rintro ⟨v, hv, reached⟩
          exact h (merged v hv l reached)
        have own : (a'.rename (merge p k)).holds l = a'.holds l := by
          rw [Bool.eq_iff_iff, a'.covers_holds (merge p k) l]
          refine ⟨?_, fun h' => ⟨l, merge_of_not h, h'⟩⟩
          rintro ⟨j, named, h'⟩
          by_cases hj : p j
          · rw [merge_of hj] at named
            exact absurd named.symm apart
          · rw [merge_of_not hj] at named
            exact named ▸ h'
        rw [merge_of_not h]
        show ((a'.rename (merge p k)).holds l || (l == k || ctx.held l)) =
          (a'.holds l || (values.any (·.reaches l) || ctx.held l))
        rw [own, waiting, beq_false_of_ne apart]
    · by_cases h : p l
      · exact h
      · rw [merge_of_not h] at same
        by_cases hj : p j
        · rw [merge_of hj] at same
          exact same ▸ hk
        · rw [merge_of_not hj] at same
          exact absurd same other

end Merge

/-! ## Going on with the results that are kept -/

namespace CallSite

variable {c : CallSite} {results : List Value}

/-- Going on with a renamed value from a renamed state ends on the renamed branches. -/
theorem ends_renamed {f : Nat → Nat} {n : Nat} (r : Renaming f n) (late : n ≤ c.memory.nextLabel)
    {values : List Value} {ctx : Context}
    (h : (c.ctx.await values).RenamesOver f c.arena.Stacks ctx) (v : Value) :
    let out := ((Walk.walkEach
      (fun ctx branch =>
        Walk.walk (Analysis.invoke c.depth) c.steps (c.steps.size + 1) ctx branch c.index)
      ctx c.id c.slot [v.rename f]).run (c.arena.rename f)).run (c.memory.rename f)
    (c.ends values v).map (Branch.rename f) = out.1.1.filterMap out.1.2.branch? := by
  have steady := Analysis.renames_invoke r c.depth
  have walked := Walk.renames_walkEach r
    (fun _ _ branch around =>
      Walk.renames_walk r steady c.steps (c.steps.size + 1) around branch c.index)
    h c.id c.slot [v]
  obtain ⟨-, -, same⟩ := walked c.arena c.memory (fun _ stacked => stacked) late
  rw [List.map_singleton] at same
  intro out
  show (c.ends values v).map (Branch.rename f) = out.1.1.filterMap out.1.2.branch?
  rw [show out = _ from same]
  unfold ends goOn
  dsimp only
  rw [List.map_filterMap]
  exact congrArg (List.filterMap · _) (funext fun id => (Arena.branch?_rename f _ id).symm)

/-- Going on with a result, and with the one that is kept for it while the others are dropped, ends
on the same branches once all results have one name. -/
theorem Collapses.ends_renamed (h : c.Collapses results) {v w : Value} (hv : v ∈ distinct results)
    (hw : w ∈ results) (same : v.copy = w.copy) : ∃ f g,
      (c.ends (distinct results) v).map (Branch.rename f) =
        (c.ends results w).map (Branch.rename g) := by
  let held (l : Nat) : Prop := ∃ u ∈ results, u.reaches l = true
  let remaining (l : Nat) : Prop := held l ∧ c.Remains results l
  have hv' : v ∈ results := Value.mem_of_mem_distinct hv
  have own : held v.label := ⟨v, hv', v.reaches_label⟩
  have kept {u : Value} (hu : u ∈ distinct results) {l : Nat} (reached : u.reaches l = true) :
      remaining l :=
    ⟨⟨u, Value.mem_of_mem_distinct hu, reached⟩, fun _ => .inl ⟨u, hu, reached⟩⟩
  have small (l : Nat) : held l → 0 < l ∧ l < c.memory.nextLabel :=
    fun ⟨u, hu, reached⟩ => h.objects u hu l reached
  have positive : 0 < v.label := (small _ own).1
  have all : Renaming (merge held v.label) c.memory.nextLabel := renaming_merge positive small
  have rest : Renaming (merge remaining v.label) c.memory.nextLabel :=
    renaming_merge positive fun l hl => small l hl.1
  -- Both runs, renamed, go on from one state, with one value, and with the same held around them.
  have alone := CallSite.ends_renamed rest (Nat.le_refl _)
    (renamesOver_merge (kept hv v.reaches_label) (fun l hl => hl.2 hl.1)
      fun u hu l reached => kept hu reached) v
  have among := CallSite.ends_renamed all (Nat.le_refl _)
    (renamesOver_merge own (fun l hl => .inl hl) fun u hu l reached => ⟨u, hu, reached⟩) w
  have agree (l : Nat) (remains : c.Remains results l) :
      merge remaining v.label l = merge held v.label l := by
    by_cases hl : held l
    · rw [merge_of hl, merge_of (show remaining l from ⟨hl, remains⟩)]
    · rw [merge_of_not hl, merge_of_not fun hr : remaining l => hl hr.1]
  have value : v.rename (merge remaining v.label) = w.rename (merge held v.label) := by
    rw [Value.rename_congr agree v (h.kept v hv)]
    exact Value.rename_of_copy v w (fun l reached => merge_of ⟨v, hv', reached⟩)
      (fun l reached => merge_of ⟨w, hw, reached⟩) same
  have next : merge remaining v.label c.memory.nextLabel =
      merge held v.label c.memory.nextLabel := by
    have fresh : ¬ held c.memory.nextLabel := fun hl => Nat.lt_irrefl _ (small _ hl).2
    rw [merge_of_not fresh, merge_of_not fun hr : remaining _ => fresh hr.1]
  rw [value, Arena.rename_congr agree h.arena, Memory.rename_congr agree h.memory next] at alone
  exact ⟨_, _, alone.trans among.symm⟩

theorem Collapses.types (h : c.Collapses results) {v w : Value} (hv : v ∈ distinct results)
    (hw : w ∈ results) (same : v.copy = w.copy) :
    returnedTypes (c.ends (distinct results) v) = returnedTypes (c.ends results w) ∧
      settledTypes (c.ends (distinct results) v) = settledTypes (c.ends results w) := by
  obtain ⟨f, g, renamed⟩ := h.ends_renamed hv hw same
  constructor
  · rw [← returnedTypes_rename f, renamed, returnedTypes_rename]
  · rw [← settledTypes_rename f, renamed, settledTypes_rename]

/-- Collapsing the results of a call loses nothing that the caller returns, where each result that
is dropped has the contents of the one that is kept for it, and nothing else is bound to what only
dropped results hold. -/
theorem union_distinct (c : CallSite) (results : List Value) (h : c.Collapses results) :
    c.union (distinct results) = c.union results := by
  have kept (v : Value) (hv : v ∈ distinct results) := h.types hv (Value.mem_of_mem_distinct hv) rfl
  have returned (v : Value) (hv : v ∈ distinct results) (w : Value) (hw : w ∈ results)
      (alike : v.alike w = true) :
      returnedTypes (c.ends results v) = returnedTypes (c.ends results w) :=
    (kept v hv).1.symm.trans (h.types hv hw (h.contents v hv w hw alike)).1
  have settled (v : Value) (hv : v ∈ distinct results) (w : Value) (hw : w ∈ results)
      (alike : v.alike w = true) :
      settledTypes (c.ends results v) = settledTypes (c.ends results w) :=
    (kept v hv).2.symm.trans (h.types hv hw (h.contents v hv w hw alike)).2
  have alone : (distinct results).flatMap (fun v => returnedTypes (c.ends (distinct results) v)) =
      (distinct results).flatMap fun v => returnedTypes (c.ends results v) :=
    List.flatMap_congr fun v hv => (kept v hv).1
  have aloneSettled :
      (distinct results).flatMap (fun v => settledTypes (c.ends (distinct results) v)) =
        (distinct results).flatMap fun v => settledTypes (c.ends results v) :=
    List.flatMap_congr fun v hv => (kept v hv).2
  unfold union
  rw [map_type_returnsOf, map_type_returnsOf]
  simp only [returnedTypes_flatMap, settledTypes_flatMap, alone, aloneSettled,
    flatMap_distinct_eq_nil settled]
  split
  · exact join_flatMap_distinct returned
  · exact join_flatMap_distinct settled

/-- A caller that returns what it gets. -/
def relay : CallSite where
  depth := 0
  ctx := .outer default .standard
  steps := #[⟨.ret (some 1), default⟩]
  id := 0
  slot := 1
  index := 0
  arena := Arena.empty.root .module
  memory := { Memory.empty with nextLabel := 4 }

/-- A constant as the object `label`. -/
def constantAt (label : Nat) (l : Literal) : Value := { Value.ofLiteral l with label := label }

theorem reaches_constantAt {label l : Nat} {c : Literal} :
    (constantAt label c).reaches l = true ↔ label = l := by
  simp [constantAt, Value.ofLiteral, Value.ofType, Value.reaches, Value.propertiesReach]

/-- Two objects with the same contents, and another. -/
def twins : List Value :=
  [constantAt 1 (.boolean true), constantAt 2 (.boolean true), constantAt 3 (.string "s")]

theorem union_distinct_twins : relay.Collapses twins ∧ (distinct twins).length < twins.length ∧
    relay.union (distinct twins) = relay.union twins := by
  have kept : distinct twins = [constantAt 1 (.boolean true), constantAt 3 (.string "s")] := rfl
  have collapses : relay.Collapses twins := by
    constructor
    · intro v hv l reached
      simp only [twins, List.mem_cons, List.not_mem_nil, or_false] at hv
      show 0 < l ∧ l < 4
      rcases hv with rfl | rfl | rfl <;> have own := reaches_constantAt.1 reached <;> omega
    · intro v hv w hw alike
      rw [kept] at hv
      simp only [twins, List.mem_cons, List.not_mem_nil, or_false] at hv hw
      rcases hv with rfl | rfl <;> rcases hw with rfl | rfl | rfl <;> first | rfl | cases alike
    · intro v hv
      have own : relay.Remains twins v.label := fun _ => .inl ⟨v, hv, v.reaches_label⟩
      rw [kept] at hv
      simp only [List.mem_cons, List.not_mem_nil, or_false] at hv
      rcases hv with rfl | rfl <;> exact ⟨own, trivial, trivial⟩
    · intro id b found v hv
      rcases id with _ | id
      · cases found
        cases hv
      · cases found
    · nofun
  exact ⟨collapses, by decide, union_distinct relay twins collapses⟩

/-! ### A choice of two functions -/

/-- One of two functions is chosen, and then called. -/
def choiceText : String :=
  "fn a() \x7b return true \x7d\nfn b() \x7b return \"s\" \x7d\n" ++
    "fn pick(c) \x7b if c \x7b return a \x7d else \x7b return b \x7d \x7d\n" ++
    "fn caller(c) \x7b return pick(c)() \x7d\n"

def choice : Compilation := ((Compilation.ofText .standard choiceText).toOption).getD default

/-- The paths through `pick`, and what the analysis remembers of them. -/
def picked : Resolution × Memory :=
  (Analysis.resolveMethod (.outer choice.symbols choice.options) 2).run .empty

/-- What `pick` returns. -/
def functions : List Value :=
  picked.1.returnValues.map (Value.coerce (choice.symbols.method 2).returns)

/-- The call of `pick` in `caller`. -/
def chooser : CallSite where
  depth := choice.options.maxCallDepth
  ctx := .outer choice.symbols choice.options
  steps := (choice.summaries[3]?.bind Summary.code).elim #[] (·.steps.toArray)
  id := 0
  slot := 3
  index := 3
  arena := Arena.empty.root ⟨some 3, none⟩
  memory := picked.2

/-- The two functions have one type and no constant, so the second is dropped, and what it returns
is lost. -/
theorem union_distinct_choice : choice.returnTypeOf? "caller" = some .boolean ∧
    chooser.union (distinct functions) = .boolean ∧
      chooser.union functions = .union [.boolean, .string] := by
  have row : TokenRow.ofText choiceText = _ :=
    TokenRow.ofText_of_eq_append (by
      unfold choiceText
      exact congrArg₂ _ String.ofList_append.symm (by with_reducible rfl))
  rw [chooser, functions, picked, choice, Compilation.ofText, Module.ofText, row]
  decide +kernel

end CallSite

end PathTyping
