import PathTyping.Proofs.Canonical

/-!
# The order of types and its joins

Assignability is reflexive, and it is transitive but for one way round: everything fits `any`, and
`any` fits a union that lists it, which has no room for everything else.  No canonical type is such
a union, and for canonical types a join is the least type that all of its types fit.  So it does not
matter in how many stages types are joined.

1. A chain of types breaks only at `any` (`isAssignableTo_trans`).
2. What is joined fits a canonical type exactly if each of the types does (`join_isAssignableTo_iff`).
3. Joining joins is joining what they were made of (`join_flatten`).
4. `join_least_in_stages`: all of this for one list of types.
-/

namespace PathTyping

namespace Ty

variable {seen types others found : List Ty} {a b c d t : Ty}

/-! ## Chains -/

/-- A union fits what its alternatives fit. -/
theorem union_isAssignableTo {arms : List Ty} (h : ∀ a ∈ arms, a.isAssignableTo d = true) :
    (union arms).isAssignableTo d = true := by
  rw [isAssignableTo, armsAssignable_iff.2 h, Bool.or_true]

/-- A union fits `any`, itself, and what its alternatives fit. -/
theorem union_isAssignableTo_iff {arms : List Ty} :
    (union arms).isAssignableTo d = true ↔
      d = any ∨ union arms = d ∨ ∀ a ∈ arms, a.isAssignableTo d = true := by
  simp only [isAssignableTo, Bool.or_eq_true, isAny_iff, decide_eq_true_eq, armsAssignable_iff,
    or_assoc]

/-- The way from one type to another leads through `any` into a union that lists it. -/
def Breaks (b c : Ty) : Prop := b = any ∧ ∃ arms, c = union arms ∧ any ∈ arms

theorem breaks_of_any (h : any.isAssignableTo c = true) : c = any ∨ Breaks any c := by
  rcases (isAssignableTo_iff rfl).1 h with rfl | listed
  · exact .inl rfl
  · cases c with
    | union arms => exact .inr ⟨rfl, arms, rfl, listed⟩
    | _ => exact .inl (List.mem_singleton.1 listed).symm

/-- The chain from a type that is no union. -/
theorem isAssignableTo_trans_of_alone (alone : a.isUnion = false) (hab : a.isAssignableTo b = true)
    (hbc : b.isAssignableTo c = true) : a.isAssignableTo c = true ∨ Breaks b c := by
  rcases (isAssignableTo_iff alone).1 hab with rfl | listed
  · rcases breaks_of_any hbc with rfl | breaks
    · exact .inl (isAssignableTo_any a)
    · exact .inr breaks
  · cases b with
    | union arms =>
      rcases union_isAssignableTo_iff.1 hbc with rfl | rfl | each
      · exact .inl (isAssignableTo_any a)
      · exact .inl hab
      · exact .inl (each a listed)
    | _ => exact .inl (List.mem_singleton.1 listed ▸ hbc)

/-- What fits a type fits all that this type fits, unless the way leads through `any` into a union
that lists it. -/
theorem isAssignableTo_trans (a : Ty) {b c : Ty} (hab : a.isAssignableTo b = true)
    (hbc : b.isAssignableTo c = true) : a.isAssignableTo c = true ∨ Breaks b c := by
  cases a with
  | union arms =>
    rcases union_isAssignableTo_iff.1 hab with rfl | rfl | each
    · rcases breaks_of_any hbc with rfl | breaks
      · exact .inl (isAssignableTo_any _)
      · exact .inr breaks
    · exact .inl hbc
    · by_cases breaks : Breaks b c
      · exact .inr breaks
      · refine .inl (union_isAssignableTo fun arm harm => ?_)
        exact (isAssignableTo_trans arm (each arm harm) hbc).resolve_right breaks
  | _ => exact isAssignableTo_trans_of_alone rfl hab hbc
termination_by sizeOf a
decreasing_by
  subst_vars
  have smaller := List.sizeOf_lt_of_mem harm
  simp only [union.sizeOf_spec]
  omega

/-- Numbers fit `any`, and `any` fits its union with the strings, which numbers do not fit. -/
theorem chain_broken_at_any :
    number.isAssignableTo any = true ∧ any.isAssignableTo (union [any, string]) = true ∧
      ¬ number.isAssignableTo (union [any, string]) = true := by decide

theorem Canonical.not_breaks (h : c.Canonical) : ¬ Breaks b c := by
  rintro ⟨-, arms, rfl, listed⟩
  exact (h.2.2 any listed).1 rfl

/-- Into a canonical type, no chain breaks. -/
theorem Canonical.trans (h : c.Canonical) (hab : a.isAssignableTo b = true)
    (hbc : b.isAssignableTo c = true) : a.isAssignableTo c = true :=
  (isAssignableTo_trans a hab hbc).resolve_right h.not_breaks

/-! ## What a join is made of -/

theorem nodup_joinArms (once : seen.Nodup) (h : joinArms seen types = some found) :
    found.Nodup := by
  induction types generalizing seen with
  | nil =>
    cases h
    exact once
  | cons t rest ih =>
    by_cases some_ : t = any
    · subst some_
      cases h
    · rw [joinArms_cons some_] at h
      exact ih (nodup_foldl_insertArm once) h

theorem joinArms_eq_none_iff : joinArms seen types = none ↔ any ∈ types := by
  induction types generalizing seen with
  | nil => exact ⟨nofun, nofun⟩
  | cons t rest ih =>
    by_cases some_ : t = any
    · subst some_
      exact ⟨fun _ => List.mem_cons_self, fun _ => rfl⟩
    · rw [joinArms_cons some_, ih, List.mem_cons]
      exact ⟨.inr, fun h => h.resolve_left fun same => some_ same.symm⟩

/-- What is `any` for one value is so for all. -/
theorem join_of_any_mem (h : any ∈ types) : join types = any := by
  rw [join, joinArms_eq_none_iff.2 h]

/-- The alternatives of a join are those of the types. -/
theorem mem_of_mem_joinArms (h : joinArms seen types = some found) {a : Ty} (ha : a ∈ found) :
    a ∈ seen ∨ ∃ u ∈ types, a ∈ u.arms := by
  induction types generalizing seen with
  | nil => cases h; exact .inl ha
  | cons u rest ih =>
    by_cases some_ : u = any
    · subst some_; cases h
    · rw [joinArms_cons some_] at h
      rcases ih h with old | ⟨w, hw, inside⟩
      · rcases mem_foldl_insertArm.1 old with old | mine
        · exact .inl old
        · exact .inr ⟨u, List.mem_cons_self, mine⟩
      · exact .inr ⟨w, List.mem_cons_of_mem _ hw, inside⟩

theorem mem_joinArms_iff (h : joinArms [] types = some found) :
    a ∈ found ↔ ∃ t ∈ types, a ∈ t.arms := by
  constructor
  · intro ha
    exact (mem_of_mem_joinArms h ha).resolve_left List.not_mem_nil
  · rintro ⟨t, ht, ha⟩
    exact ((known_of_joinArms h).2 t ht).2 a ha

theorem Canonical.arms_ne_nil (h : t.Canonical) : t.arms ≠ [] := by
  cases t with
  | union arms => exact List.ne_nil_of_length_pos (Nat.lt_of_lt_of_le Nat.zero_lt_two h.1)
  | _ => exact List.cons_ne_nil _ _

/-- A join that is not of nothing and not with `any` has alternatives, all of them plain. -/
theorem joinArms_of_canonical (canonical : ∀ t ∈ types, t.Canonical) (some_ : types ≠ [])
    (h : joinArms [] types = some found) : found ≠ [] ∧ ∀ a ∈ found, a.Plain := by
  refine ⟨?_, (plain_joinArms canonical List.nodup_nil (by simp) h).2⟩
  obtain ⟨t, ht⟩ := List.exists_mem_of_ne_nil _ some_
  obtain ⟨a, ha⟩ := List.exists_mem_of_ne_nil _ (canonical t ht).arms_ne_nil
  exact List.ne_nil_of_mem ((mem_joinArms_iff h).2 ⟨t, ht, ha⟩)

/-! ## The least type -/

/-- The alternatives of what fits a canonical type fit it too. -/
theorem Canonical.arm_isAssignableTo (h : d.Canonical) (fits : t.isAssignableTo d = true)
    (ha : a ∈ t.arms) : a.isAssignableTo d = true := by
  cases t with
  | union arms =>
    rcases union_isAssignableTo_iff.1 fits with rfl | rfl | each
    · exact isAssignableTo_any a
    · exact (isAssignableTo_iff (h.2.2 a ha).2).2 (.inr ha)
    · exact each a ha
  | _ => exact List.mem_singleton.1 ha ▸ fits

/-- A join fits what all alternatives of its types fit. -/
theorem join_isAssignableTo (filled : ∃ t ∈ types, t.arms ≠ [])
    (h : ∀ t ∈ types, t.isAssignableTo d = true ∧ ∀ a ∈ t.arms, a.isAssignableTo d = true) :
    (join types).isAssignableTo d = true := by
  unfold join
  split
  · next found joined =>
    have each (a : Ty) (ha : a ∈ found) : a.isAssignableTo d = true := by
      obtain ⟨t, ht, inside⟩ := (mem_joinArms_iff joined).1 ha
      exact (h t ht).2 a inside
    rcases found with _ | ⟨a, _ | ⟨b, rest⟩⟩
    · obtain ⟨t, ht, some_⟩ := filled
      obtain ⟨a, ha⟩ := List.exists_mem_of_ne_nil _ some_
      cases (mem_joinArms_iff joined).2 ⟨t, ht, ha⟩
    · exact each a List.mem_cons_self
    · exact union_isAssignableTo each
  · next absorbed => exact (h any (joinArms_eq_none_iff.1 absorbed)).1

/-- A join is the least type that fits what its types fit. -/
theorem join_isAssignableTo_iff (canonical : ∀ t ∈ types, t.Canonical) (some_ : types ≠ [])
    (hd : d.Canonical) :
    (join types).isAssignableTo d = true ↔ ∀ t ∈ types, t.isAssignableTo d = true := by
  constructor
  · intro fits t ht
    exact hd.trans (isAssignableTo_join canonical ht) fits
  · intro fits
    obtain ⟨t, ht⟩ := List.exists_mem_of_ne_nil _ some_
    exact join_isAssignableTo ⟨t, ht, (canonical t ht).arms_ne_nil⟩ fun t ht =>
      ⟨fits t ht, fun a ha => hd.arm_isAssignableTo (fits t ht) ha⟩

/-! ## Stages -/

theorem foldl_insertArm_insertArm :
    (insertArm found t).foldl insertArm seen = insertArm (found.foldl insertArm seen) t := by
  by_cases known : t ∈ found
  · rw [insertArm, insertArm, if_pos known, if_pos (mem_foldl_insertArm.2 (.inr known))]
  · rw [insertArm, if_neg known, List.foldl_append]
    rfl

/-- Alternatives can be gathered before they are added to others. -/
theorem foldl_insertArm_foldl {arms : List Ty} :
    (arms.foldl insertArm found).foldl insertArm seen =
      arms.foldl insertArm (found.foldl insertArm seen) := by
  induction arms generalizing found with
  | nil => rfl
  | cons a rest ih => rw [List.foldl_cons, List.foldl_cons, ih, foldl_insertArm_insertArm]

theorem joinArms_foldl :
    joinArms (found.foldl insertArm seen) types =
      (joinArms found types).map (·.foldl insertArm seen) := by
  induction types generalizing found with
  | nil => rfl
  | cons t rest ih =>
    by_cases some_ : t = any
    · subst some_
      rfl
    · rw [joinArms_cons some_, joinArms_cons some_, ← foldl_insertArm_foldl, ih]

/-- A join adds to what was seen what its types add. -/
theorem joinArms_join (canonical : ∀ t ∈ types, t.Canonical) (some_ : types ≠ []) :
    joinArms seen (join types :: others) = (joinArms seen types).bind (joinArms · others) := by
  have gathered : joinArms (([] : List Ty).foldl insertArm seen) types =
      (joinArms [] types).map (·.foldl insertArm seen) := joinArms_foldl
  rw [List.foldl_nil] at gathered
  rw [gathered, join]
  cases joined : joinArms [] types with
  | none => rfl
  | some found =>
    obtain ⟨filled, plain⟩ := joinArms_of_canonical canonical some_ joined
    have arms := arms_ofArms filled plain
    have known : ofArms found ≠ any := fun same => by
      rw [same] at arms
      exact (plain any (arms ▸ List.mem_singleton_self any)).1 rfl
    rw [joinArms_cons known, arms]
    rfl

/-- Rows of types that are joined row by row, and then all together, are joined as one row. -/
theorem join_flatten {rows : List (List Ty)} (canonical : ∀ row ∈ rows, ∀ t ∈ row, t.Canonical)
    (some_ : ∀ row ∈ rows, row ≠ []) : join rows.flatten = join (rows.map join) := by
  suffices staged : ∀ seen, joinArms seen rows.flatten = joinArms seen (rows.map join) by
    rw [join, join, staged]
  induction rows with
  | nil => exact fun _ => rfl
  | cons row rest ih =>
    intro seen
    rw [List.forall_mem_cons] at canonical some_
    rw [List.flatten_cons, List.map_cons, joinArms_append, joinArms_join canonical.1 some_.1]
    exact congrArg _ (funext fun seen => ih canonical.2 some_.2 seen)

/-- Joining once more changes nothing. -/
theorem join_join (canonical : ∀ t ∈ types, t.Canonical) : join [join types] = join types := by
  by_cases some_ : types = []
  · subst some_
    rfl
  · have staged : join [types].flatten = join ([types].map join) :=
      join_flatten (by simpa using canonical) (by simpa using some_)
    rw [List.flatten_singleton] at staged
    exact staged.symm

/-- Joining types twice changes nothing. -/
theorem join_append_self (types : List Ty) : join (types ++ types) = join types := by
  rw [join, joinArms_append, join]
  cases joined : joinArms [] types with
  | none => rfl
  | some found =>
    rw [Option.bind_some, joinArms_of_known (known_of_joinArms joined).2]

/-- Assignability is reflexive, and transitive but through `any` into a union that lists it.  The
join of canonical types is canonical, and the least type that all of them fit; it is the same
whether they are joined at once, in two stages, or more than once. -/
theorem join_least_staged :
    (∀ a : Ty, a.isAssignableTo a = true) ∧
    (∀ a b c : Ty, a.isAssignableTo b = true → b.isAssignableTo c = true →
      a.isAssignableTo c = true ∨ b = any ∧ ∃ arms, c = union arms ∧ any ∈ arms) ∧
    (∀ a b c : Ty, c.Canonical → a.isAssignableTo b = true → b.isAssignableTo c = true →
      a.isAssignableTo c = true) ∧
    ∀ types : List Ty, (∀ t ∈ types, t.Canonical) →
      (join types).Canonical ∧
      (types ≠ [] → ∀ d : Ty, d.Canonical →
        ((join types).isAssignableTo d = true ↔ ∀ t ∈ types, t.isAssignableTo d = true)) ∧
      (∀ others : List Ty, (∀ t ∈ others, t.Canonical) → types ≠ [] → others ≠ [] →
        join (types ++ others) = join [join types, join others]) ∧
      join [join types] = join types ∧
      join (types ++ types) = join types := by
  refine ⟨isAssignableTo_self, fun a b c => isAssignableTo_trans a, fun a b c h => h.trans,
    fun types canonical => ⟨canonical_join canonical, fun some_ d => ?_, ?_, join_join canonical,
      join_append_self types⟩⟩
  · exact join_isAssignableTo_iff canonical some_
  · intro others canonical' some_ some_'
    have staged : join [types, others].flatten = join ([types, others].map join) :=
      join_flatten (by simpa using ⟨canonical, canonical'⟩) (by simpa using ⟨some_, some_'⟩)
    rwa [List.flatten_cons, List.flatten_singleton] at staged

/-- Two callees, of which one gives a number or a string, or a number, and the other nothing or a
string. -/
theorem join_least_staged_overlapping :
    ((∀ t ∈ [union [number, string], number], t.Canonical) ∧
      (∀ t ∈ [nil, string], t.Canonical) ∧
      (union [string, number, nil]).Canonical ∧
      [union [number, string], number] ≠ [] ∧ [nil, string] ≠ []) ∧
    (join [union [number, string], number]).isAssignableTo (union [string, number, nil]) = true ∧
    join ([union [number, string], number] ++ [nil, string]) =
      join [join [union [number, string], number], join [nil, string]] ∧
    join [union [number, string], number, nil, string] = union [number, string, nil] := by
  have hyp : (∀ t ∈ [union [number, string], number], t.Canonical) ∧
      (∀ t ∈ [nil, string], t.Canonical) ∧ (union [string, number, nil]).Canonical := by
    simp [Canonical, Plain, isUnion]
  obtain ⟨types, others, d⟩ := hyp
  obtain ⟨-, least, staged, -⟩ := join_least_staged.2.2.2 _ types
  refine ⟨⟨types, others, d, List.cons_ne_nil _ _, List.cons_ne_nil _ _⟩, ?_, ?_, by decide⟩
  · exact (least (List.cons_ne_nil _ _) _ d).2 (by decide)
  · exact staged _ others (List.cons_ne_nil _ _) (List.cons_ne_nil _ _)

end Ty

end PathTyping
