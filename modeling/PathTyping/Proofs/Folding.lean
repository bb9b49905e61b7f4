import PathTyping.Proofs.Rounding
import PathTyping.Proofs.Joins
import PathTyping.Value.Operators

/-!
# Operators on what is known in part

A value describes the literals that it allows for: its type fits them, its constant is the literal
if it has one, and its bounds enclose it.  What an operator gives for two values covers what it
gives for any literals that they describe.

1. `Comparison.ofBounds_sound`: what bounds decide holds of every number between them.
2. `covers_add`, `covers_arithmetic`, `covers_comparison`, `covers_equality`, `covers_logical`: the
   rules for two operands, one after the other.
3. `operators_cover_folding`: all operators cover what they fold.
-/

namespace PathTyping

/-! ## Types of literals -/

namespace Ty

theorem ofLiteral_plain (a : Literal) : (ofLiteral a).Plain := by
  cases a <;> exact ⟨nofun, rfl⟩

/-- A plain type that fits one of some types fits their join. -/
theorem isAssignableTo_join_of_plain {t d : Ty} {types : List Ty} (plain : t.Plain) (h : d ∈ types)
    (fits : t.isAssignableTo d = true) : t.isAssignableTo (join types) = true := by
  unfold join
  split
  · next arms joined =>
    obtain ⟨some_, known⟩ := (known_of_joinArms joined).2 d h
    have inside := known t (((isAssignableTo_iff plain.2).1 fits).resolve_left some_)
    rw [isAssignableTo_iff plain.2]
    rcases arms with _ | ⟨a, _ | ⟨b, rest⟩⟩
    · cases inside
    · obtain rfl := List.mem_singleton.1 inside
      exact .inr (by rw [ofArms, arms_of_not_union plain.2]; exact inside)
    · exact .inr inside
  · exact isAssignableTo_any t

/-- The join of two plain types fits what both of them fit. -/
theorem join_two_isAssignableTo {t u d : Ty} (ht : t.Plain) (hu : u.Plain)
    (fits : t.isAssignableTo d = true) (fits' : u.isAssignableTo d = true) :
    (join [t, u]).isAssignableTo d = true := by
  refine join_isAssignableTo ⟨t, List.mem_cons_self, ?_⟩ ?_
  · rw [arms_of_not_union ht.2]
    exact List.cons_ne_nil _ _
  · simp [fits, fits', arms_of_not_union ht.2, arms_of_not_union hu.2]

/-- Two plain types that are the same have a value in common with all that they fit. -/
theorem overlaps_of_fits {t d e : Ty} (plain : t.Plain) (fits : t.isAssignableTo d = true)
    (fits' : t.isAssignableTo e = true) : d.overlaps e = true := by
  rw [isAssignableTo_iff plain.2] at fits fits'
  rcases fits with rfl | inside
  · rfl
  · rcases fits' with rfl | inside'
    · simp [overlaps, isAny]
    · simp only [overlaps, Bool.or_eq_true, List.any_eq_true, decide_eq_true_eq]
      exact .inr ⟨t, inside, inside'⟩

end Ty

/-- A number is neither infinite nor none at all. -/
def Literal.IsFinite (a : Literal) : Prop := ∀ x, a = .number x → x.isFinite = true

namespace Value

open Decimal

/-- What is known of a value holds of a literal. -/
structure Describes (v : Value) (a : Literal) : Prop where
  type : (Ty.ofLiteral a).isAssignableTo v.type = true
  constant : ∀ l, v.constant = some l → l = a
  least : ∀ m, v.bounds.1 = some m → ∃ x, a = .number x ∧ m ≤ x
  greatest : ∀ m, v.bounds.2 = some m → ∃ x, a = .number x ∧ x ≤ m

/-- What an operator gives for values covers what it gives for literals that these describe. -/
structure Covers (r folded : Value) : Prop where
  type : folded.type.isAssignableTo r.type = true
  /-- What is decided for the values is decided alike for the literals. -/
  decided : ∀ l, r.constant = some l → folded.constant = some l
  described : ∀ l, folded.constant = some l → r.Describes l

/-! ## Described literals -/

section

variable {v w : Value} {a b : Literal}

theorem eq_of_fits {t : Ty} (plain : t.Plain) (h : (Ty.ofLiteral a).isAssignableTo t = true) :
    Ty.ofLiteral a = t :=
  Ty.eq_of_isAssignableTo (Ty.canonical_of_not_union (Ty.ofLiteral_plain a).2) plain h

theorem Describes.isNumber (d : Describes v a) (h : v.type = .number) : ∃ x, a = .number x := by
  have same := eq_of_fits (t := .number) ⟨nofun, rfl⟩ (h ▸ d.type)
  cases a <;> first | exact ⟨_, rfl⟩ | cases same

theorem Describes.isString (d : Describes v a) (h : v.type = .string) : ∃ s, a = .string s := by
  have same := eq_of_fits (t := .string) ⟨nofun, rfl⟩ (h ▸ d.type)
  cases a <;> first | exact ⟨_, rfl⟩ | cases same

theorem Describes.isBoolean (d : Describes v a) (h : v.type = .boolean) :
    ∃ b, a = .boolean b := by
  have same := eq_of_fits (t := .boolean) ⟨nofun, rfl⟩ (h ▸ d.type)
  cases a <;> first | exact ⟨_, rfl⟩ | cases same

theorem Describes.of_number? {x : Float} (d : Describes v a) (h : v.number? = some x) :
    a = .number x := by
  unfold number? at h
  split at h
  · next found =>
    cases h
    exact (d.constant _ found).symm
  · cases h

theorem Describes.of_string? {s : String} (d : Describes v a) (h : v.string? = some s) :
    a = .string s := by
  unfold string? at h
  split at h
  · next found =>
    cases h
    exact (d.constant _ found).symm
  · cases h

theorem Describes.of_boolean? {t : Bool} (d : Describes v a) (h : v.boolean? = some t) :
    a = .boolean t := by
  unfold boolean? at h
  split at h
  · next found =>
    cases h
    exact (d.constant _ found).symm
  · cases h

/-! ## Results without bounds -/

theorem describes_ofType {t : Ty} (fits : (Ty.ofLiteral a).isAssignableTo t = true) :
    (ofType t).Describes a :=
  ⟨fits, nofun, nofun, nofun⟩

theorem describes_ofLiteral (h : ∀ x, a = .number x → (standing? x).isSome = true) :
    (ofLiteral a).Describes a := by
  refine ⟨Ty.isAssignableTo_self _, fun l same => (Option.some.inj same).symm, ?_, ?_⟩
  all_goals
    intro m found
    cases a with
    | number x =>
      cases found
      exact ⟨m, rfl, le_refl_of_number (h m rfl)⟩
    | string s => cases found
    | boolean b => cases found
    | nil => cases found

theorem covers_ofLiteral (h : ∀ x, a = .number x → (standing? x).isSome = true) :
    Covers (ofLiteral a) (ofLiteral a) := by
  refine ⟨Ty.isAssignableTo_self _, fun l same => same, fun l same => ?_⟩
  cases same
  exact describes_ofLiteral h

/-- A value of which only the type is known covers all results of that type. -/
theorem covers_ofType {t : Ty} {folded : Value} (fits : folded.type.isAssignableTo t = true)
    (own : ∀ l, folded.constant = some l → folded.type = .ofLiteral l) :
    Covers (ofType t) folded :=
  ⟨fits, nofun, fun l same => describes_ofType (own l same ▸ fits)⟩

theorem covers_ofTruth {known folded : Option Bool}
    (h : ∀ t, known = some t → folded = some t) : Covers (ofTruth known) (ofTruth folded) := by
  cases known with
  | some t =>
    rw [h t rfl]
    exact covers_ofLiteral nofun
  | none =>
    cases folded with
    | none => exact covers_ofType (Ty.isAssignableTo_self _) nofun
    | some t => exact covers_ofType (Ty.isAssignableTo_self _) fun l same => by cases same; rfl

/-! ## Comparisons -/

/-- Bounds that stand apart keep apart the numbers between them. -/
theorem lt_of_isBelow {x y : Float} (dv : v.Describes (.number x)) (dw : w.Describes (.number y))
    (h : isBelow v.bounds.2 w.bounds.1 = true) : x < y := by
  unfold isBelow at h
  split at h
  · next m n greatest least =>
    obtain ⟨_, same, below⟩ := dv.greatest m greatest
    obtain ⟨_, same', above⟩ := dw.least n least
    cases same
    cases same'
    exact lt_of_le_of_lt_of_le below (of_decide_eq_true h) above
  · cases h

theorem le_of_isAtMost {x y : Float} (dv : v.Describes (.number x)) (dw : w.Describes (.number y))
    (h : isAtMost v.bounds.2 w.bounds.1 = true) : x ≤ y := by
  unfold isAtMost at h
  split at h
  · next m n greatest least =>
    obtain ⟨_, same, below⟩ := dv.greatest m greatest
    obtain ⟨_, same', above⟩ := dw.least n least
    cases same
    cases same'
    exact le_trans_of_number (le_trans_of_number below (of_decide_eq_true h)) above
  · cases h

theorem decided_of {always never : Bool} {p q : Prop} [Decidable p] [Decidable q] {t : Bool}
    (yes : always = true → p) (no : never = true → q) (apart : q → ¬p)
    (h : decided always never = some t) : decided (decide p) (decide q) = some t := by
  unfold decided at h
  split at h
  · next holds =>
    cases h
    simp [decided, yes holds]
  · split at h
    · next fails =>
      cases h
      simp [decided, no fails, apart (no fails)]
    · cases h

/-- What bounds decide holds of all numbers between them. -/
theorem Comparison.ofBounds_sound {op : Comparison} {x y : Float} {t : Bool}
    (dv : v.Describes (.number x)) (dw : w.Describes (.number y))
    (h : op.ofBounds v w = some t) :
    op.ofBounds (ofLiteral (.number x)) (ofLiteral (.number y)) = some t := by
  cases op with
  | less => exact decided_of (lt_of_isBelow dv dw) (le_of_isAtMost dw dv) not_lt_of_le_number h
  | lessEqual =>
    exact decided_of (le_of_isAtMost dv dw) (lt_of_isBelow dw dv)
      (fun less le => not_lt_of_le_number le less) h
  | greater => exact decided_of (lt_of_isBelow dw dv) (le_of_isAtMost dv dw) not_lt_of_le_number h
  | greaterEqual =>
    exact decided_of (le_of_isAtMost dw dv) (lt_of_isBelow dv dw)
      (fun less le => not_lt_of_le_number le less) h

theorem covers_comparison {op : Comparison} {r folded : Value} (dv : v.Describes a)
    (dw : w.Describes b) (h : comparison op v w = some r)
    (hf : comparison op (ofLiteral a) (ofLiteral b) = some folded) : Covers r folded := by
  unfold comparison at h
  split at h
  · next number number' =>
    obtain ⟨x, rfl⟩ := dv.isNumber number
    obtain ⟨y, rfl⟩ := dw.isNumber number'
    cases h
    cases hf
    exact covers_ofTruth fun t known => Comparison.ofBounds_sound dv dw known
  · next string string' =>
    obtain ⟨s, rfl⟩ := dv.isString string
    obtain ⟨t, rfl⟩ := dw.isString string'
    cases hf
    split at h
    · next s' t' left right =>
      cases h
      cases dv.of_string? left
      cases dw.of_string? right
      exact covers_ofTruth fun t known => known
    · cases h
      exact covers_ofTruth nofun
  · cases h

/-! ## Equality and logic -/

theorem same_type_of_same (h : a.same b = true) : Ty.ofLiteral a = Ty.ofLiteral b := by
  cases a <;> cases b <;> first | rfl | cases h

theorem equal?_sound {t : Bool} (dv : v.Describes a) (dw : w.Describes b)
    (h : equal? v w = some t) : equal? (ofLiteral a) (ofLiteral b) = some t := by
  unfold equal? at h
  split at h
  · next l l' left right =>
    cases h
    cases dv.constant l left
    cases dw.constant l' right
    rfl
  · split at h
    · cases h
    · next apart =>
      cases h
      -- the same literal would be a value that both types have
      cases same : a.same b with
      | false => exact congrArg some same
      | true =>
        refine absurd (Ty.overlaps_of_fits (Ty.ofLiteral_plain a) dv.type ?_) apart
        rw [same_type_of_same same]
        exact dw.type

/-- A connective keeps to what it says of operands that are known in part. -/
def Settles (combine : Option Bool → Option Bool → Option Bool) : Prop :=
  ∀ {p q : Option Bool} {s t u : Bool}, (∀ x, p = some x → s = x) → (∀ x, q = some x → t = x) →
    combine p q = some u → combine (some s) (some t) = some u

theorem settles_andKnown : Settles andKnown := by
  intro p q s t u hp hq h
  rcases p with _ | _ | _ <;> rcases q with _ | _ | _ <;> cases h <;> cases s <;> cases t <;>
    simp_all [andKnown]

theorem settles_orKnown : Settles orKnown := by
  intro p q s t u hp hq h
  rcases p with _ | _ | _ <;> rcases q with _ | _ | _ <;> cases h <;> cases s <;> cases t <;>
    simp_all [orKnown]

theorem covers_logical {combine : Option Bool → Option Bool → Option Bool}
    (settles : Settles combine) (dv : v.Describes a) (dw : w.Describes b) :
    Covers (logical combine v w) (logical combine (ofLiteral a) (ofLiteral b)) := by
  by_cases booleans : v.type = .boolean ∧ w.type = .boolean
  · obtain ⟨s, rfl⟩ := dv.isBoolean booleans.1
    obtain ⟨t, rfl⟩ := dw.isBoolean booleans.2
    rw [logical, if_pos booleans]
    refine covers_ofTruth fun u known => settles (fun x found => ?_) (fun x found => ?_) known
    · cases dv.of_boolean? found
      rfl
    · cases dw.of_boolean? found
      rfl
  · rw [logical, if_neg booleans]
    have fits : (Ty.ofLiteral a).isAssignableTo (.join [v.type, w.type]) = true :=
      Ty.isAssignableTo_join_of_plain (Ty.ofLiteral_plain a) (by simp) dv.type
    have fits' : (Ty.ofLiteral b).isAssignableTo (.join [v.type, w.type]) = true :=
      Ty.isAssignableTo_join_of_plain (Ty.ofLiteral_plain b) (by simp) dw.type
    unfold logical
    split
    · next both =>
      have boolean : Ty.boolean.isAssignableTo (.join [v.type, w.type]) = true := both.1 ▸ fits
      cases combine (ofLiteral a).boolean? (ofLiteral b).boolean? with
      | none => exact covers_ofType boolean nofun
      | some u => exact covers_ofType boolean fun l same => by cases same; rfl
    · exact covers_ofType (Ty.join_two_isAssignableTo (Ty.ofLiteral_plain a) (Ty.ofLiteral_plain b)
        fits fits') nofun

/-! ## Arithmetic -/

/-- A number between the bounds of a result. -/
theorem describes_boundedNumber {least greatest : Option Float} {z : Float}
    (below : ∀ m, least = some m → m ≤ z) (above : ∀ m, greatest = some m → z ≤ m) :
    (boundedNumber least greatest).Describes (.number z) := by
  refine ⟨rfl, nofun, fun m found => ⟨z, rfl, below m ?_⟩, fun m found => ⟨z, rfl, above m ?_⟩⟩
  · rwa [bounds_boundedNumber] at found
  · rwa [bounds_boundedNumber] at found

theorem covers_boundedNumber {least greatest : Option Float} {z : Float}
    (below : ∀ m, least = some m → m ≤ z) (above : ∀ m, greatest = some m → z ≤ m) :
    Covers (boundedNumber least greatest) (ofLiteral (.number z)) :=
  ⟨rfl, nofun, fun l same => by cases same; exact describes_boundedNumber below above⟩

theorem known_le {f : Float → Float → Float} {p q : Option Float} {z : Float}
    (h : ∀ m n, p = some m → q = some n → f m n ≤ z) : ∀ k, known f p q = some k → k ≤ z := by
  intro k found
  rcases p with _ | m <;> rcases q with _ | n <;> cases found
  exact h m n rfl rfl

theorem le_known {f : Float → Float → Float} {p q : Option Float} {z : Float}
    (h : ∀ m n, p = some m → q = some n → z ≤ f m n) : ∀ k, known f p q = some k → z ≤ k := by
  intro k found
  rcases p with _ | m <;> rcases q with _ | n <;> cases found
  exact h m n rfl rfl

theorem Describes.above_least {x m : Float} (d : v.Describes (.number x))
    (h : v.bounds.1 = some m) : m ≤ x := by
  obtain ⟨_, same, le⟩ := d.least m h
  cases same
  exact le

theorem Describes.below_greatest {x m : Float} (d : v.Describes (.number x))
    (h : v.bounds.2 = some m) : x ≤ m := by
  obtain ⟨_, same, le⟩ := d.greatest m h
  cases same
  exact le

/-- Sums lie between the sums of the bounds. -/
theorem covers_sum {x y : Float} (fx : x.isFinite = true) (fy : y.isFinite = true)
    (dv : v.Describes (.number x)) (dw : w.Describes (.number y)) :
    Covers (boundedNumber (known (· + ·) v.bounds.1 w.bounds.1)
      (known (· + ·) v.bounds.2 w.bounds.2)) (ofLiteral (.number (x + y))) :=
  covers_boundedNumber
    (known_le fun _ _ left right =>
      add_monotone (dv.above_least left) (dw.above_least right) (.inr ⟨fx, fy⟩))
    (le_known fun _ _ left right =>
      add_monotone (dv.below_greatest left) (dw.below_greatest right) (.inl ⟨fx, fy⟩))

theorem covers_difference {x y : Float} (fx : x.isFinite = true) (fy : y.isFinite = true)
    (dv : v.Describes (.number x)) (dw : w.Describes (.number y)) :
    Covers (boundedNumber (known (· - ·) v.bounds.1 w.bounds.2)
      (known (· - ·) v.bounds.2 w.bounds.1)) (ofLiteral (.number (x - y))) :=
  covers_boundedNumber
    (known_le fun _ _ left right =>
      sub_monotone (dv.above_least left) (dw.below_greatest right) (.inr ⟨fx, fy⟩))
    (le_known fun _ _ left right =>
      sub_monotone (dv.below_greatest left) (dw.above_least right) (.inl ⟨fx, fy⟩))

/-- A remainder lies between the divisor and its negative, and above zero if the dividend does. -/
theorem covers_remainder {x d : Float} (fx : x.isFinite = true) (fd : d.isFinite = true)
    (pos : 0.0 < d) (dv : v.Describes (.number x)) :
    Covers (boundedNumber
      (some (if v.bounds.1.any fun m => 0.0 ≤ m then 0.0 else -d)) (some d))
      (ofLiteral (.number (remainder x d))) := by
  have origin : standing? 0.0 = some 0 := by decide
  obtain ⟨i, hi⟩ := exists_standing? fx
  obtain ⟨_, j, at_zero, hj, positive⟩ := lt_iff.1 pos
  cases origin.symm.trans at_zero
  obtain ⟨k, stands, close, above, -⟩ := standing?_remainder hi hj fx fd (by omega)
  refine covers_boundedNumber (fun m found => ?_) (fun m found => ?_)
  · obtain rfl := Option.some.inj found
    split
    · next holds =>
      -- the dividend is not negative, as its lower bound is not
      obtain ⟨m, least, notNegative⟩ := (Option.any_eq_true _ _).1 holds
      obtain ⟨_, _, at_zero, hm, le⟩ := le_iff.1 (of_decide_eq_true notNegative)
      obtain ⟨_, _, hm', hi', le'⟩ := le_iff.1 (dv.above_least least)
      cases origin.symm.trans at_zero
      cases hm.symm.trans hm'
      cases hi.symm.trans hi'
      exact le_iff.2 ⟨0, k, origin, stands, above (by omega)⟩
    · exact le_iff.2 ⟨-j, k, by rw [standing?_neg, hj]; rfl, stands, by omega⟩
  · obtain rfl := Option.some.inj found
    exact le_iff.2 ⟨k, j, stands, hj, by omega⟩

theorem isSome_standing?_fold {op : Arithmetic} {x y z : Float} (fx : x.isFinite = true)
    (fy : y.isFinite = true) (h : op.fold x y = some z) : (standing? z).isSome = true := by
  cases op with
  | subtract =>
    cases h
    rw [sub_eq_add]
    exact isSome_standing?_add fx (by rwa [isFinite_neg])
  | multiply =>
    cases h
    exact isSome_standing?_mul fx fy
  | divide =>
    simp only [Arithmetic.fold] at h
    split at h
    · cases h
    · next divides =>
      cases h
      exact isSome_standing?_div fx fy divides
  | modulo =>
    simp only [Arithmetic.fold] at h
    split at h
    · cases h
    · next divides =>
      cases h
      obtain ⟨i, hi⟩ := exists_standing? fx
      obtain ⟨j, hj⟩ := exists_standing? fy
      have some_ : j ≠ 0 := by
        rintro rfl
        exact divides (beq_iff.2 ⟨0, hj, by decide⟩)
      obtain ⟨k, stands, -⟩ := standing?_remainder hi hj fx fy some_
      rw [stands]
      rfl

/-- The estimate of an operation covers what it folds to. -/
theorem covers_estimate {op : Arithmetic} {x y z : Float} (fx : x.isFinite = true)
    (fy : y.isFinite = true) (dv : v.Describes (.number x)) (dw : w.Describes (.number y))
    (h : op.fold x y = some z) : Covers (op.estimate v w) (ofLiteral (.number z)) := by
  have open_ : Covers (ofType .number) (ofLiteral (.number z)) :=
    covers_ofType rfl fun l same => by cases same; rfl
  cases op with
  | subtract =>
    cases h
    exact covers_difference fx fy dv dw
  | multiply => exact open_
  | divide => exact open_
  | modulo =>
    unfold Arithmetic.estimate
    dsimp only
    split
    · next d divisor =>
      cases dw.of_number? divisor
      split
      · next pos =>
        simp only [Arithmetic.fold] at h
        split at h
        · cases h
        · cases h
          exact covers_remainder fx fy pos dv
      · exact open_
    · exact open_

theorem estimate_open (op : Arithmetic) (v w : Value) :
    (op.estimate v w).type = .number ∧ (op.estimate v w).constant = none := by
  cases op with
  | modulo =>
    unfold Arithmetic.estimate
    dsimp only
    split
    · split <;> exact ⟨rfl, rfl⟩
    · exact ⟨rfl, rfl⟩
  | _ => exact ⟨rfl, rfl⟩

/-- Numbers are computed where the operation has a result, and estimated elsewhere. -/
theorem arithmetic_numbers (op : Arithmetic) (number : v.type = .number)
    (number' : w.type = .number) :
    (∃ x y z, v.number? = some x ∧ w.number? = some y ∧ op.fold x y = some z ∧
        arithmetic op v w = some (ofLiteral (.number z))) ∨
      ((∀ x y, v.number? = some x → w.number? = some y → op.fold x y = none) ∧
        arithmetic op v w = some (op.estimate v w)) := by
  unfold arithmetic
  rw [number, number']
  cases left : v.number? with
  | none => exact .inr ⟨nofun, rfl⟩
  | some x =>
    cases right : w.number? with
    | none => exact .inr ⟨nofun, rfl⟩
    | some y =>
      cases result : op.fold x y with
      | none =>
        refine .inr ⟨fun _ _ same same' => ?_, by simp only [result]⟩
        cases same
        cases same'
        exact result
      | some z => exact .inl ⟨x, y, z, rfl, rfl, result, by simp only [result]⟩

theorem arithmetic_other {op : Arithmetic} {r : Value}
    (other : ¬(v.type = .number ∧ w.type = .number)) (h : arithmetic op v w = some r) :
    r = ofType .number := by
  unfold arithmetic at h
  split at h
  · next number number' => exact absurd ⟨number, number'⟩ other
  · exact (Option.some.inj h).symm
  · exact (Option.some.inj h).symm
  · cases h

theorem covers_arithmetic {op : Arithmetic} {r folded : Value} (fa : a.IsFinite)
    (fb : b.IsFinite) (dv : v.Describes a) (dw : w.Describes b)
    (h : arithmetic op v w = some r)
    (hf : arithmetic op (ofLiteral a) (ofLiteral b) = some folded) : Covers r folded := by
  -- Only numbers have a rule among literals.
  obtain ⟨x, y, rfl, rfl⟩ : ∃ x y, a = .number x ∧ b = .number y := by
    cases a <;> cases b <;> first | exact ⟨_, _, rfl, rfl⟩ | cases hf
  have fx := fa x rfl
  have fy := fb y rfl
  obtain ⟨_, _, z, same, same', result, computed⟩ | ⟨unknown, estimated⟩ :=
    arithmetic_numbers op (v := ofLiteral (.number x)) (w := ofLiteral (.number y)) rfl rfl
  · cases same
    cases same'
    cases hf.symm.trans computed
    by_cases numbers : v.type = .number ∧ w.type = .number
    · obtain ⟨x', y', z', left, right, result', computed⟩ | ⟨-, estimated⟩ :=
        arithmetic_numbers op numbers.1 numbers.2
      · cases dv.of_number? left
        cases dw.of_number? right
        cases result.symm.trans result'
        cases h.symm.trans computed
        refine covers_ofLiteral fun _ same => ?_
        cases same
        exact isSome_standing?_fold fx fy result
      · cases h.symm.trans estimated
        exact covers_estimate fx fy dv dw result
    · rw [arithmetic_other numbers h]
      exact covers_ofType rfl fun l same => by cases same; rfl
  · cases hf.symm.trans estimated
    obtain ⟨number, none_⟩ := estimate_open op (ofLiteral (.number x)) (ofLiteral (.number y))
    have left_open : r.type = .number ∧ r.constant = none := by
      by_cases numbers : v.type = .number ∧ w.type = .number
      · obtain ⟨x', y', z, left, right, result, -⟩ | ⟨-, estimated⟩ :=
          arithmetic_numbers op numbers.1 numbers.2
        · cases dv.of_number? left
          cases dw.of_number? right
          exact nomatch (unknown x y rfl rfl).symm.trans result
        · cases h.symm.trans estimated
          exact estimate_open op v w
      · rw [arithmetic_other numbers h]
        exact ⟨rfl, rfl⟩
    refine ⟨by rw [number, left_open.1]; rfl, ?_, ?_⟩
    · rw [left_open.2]; nofun
    · rw [none_]; nofun

/-- Texts that are joined are as constant as their parts. -/
theorem covers_joined {r : Value} (dv : v.Describes a) (dw : w.Describes b)
    (h : (match v.constant, w.constant with
      | some l, some l' => some (ofLiteral (.string (l.plainText ++ l'.plainText)))
      | _, _ => some (ofType .string)) = some r) :
    Covers r (ofLiteral (.string (a.plainText ++ b.plainText))) := by
  split at h
  · next l l' left right =>
    cases h
    cases dv.constant l left
    cases dw.constant l' right
    exact covers_ofLiteral nofun
  · cases h
    exact covers_ofType rfl fun l same => by cases same; rfl

theorem covers_add {r folded : Value} (fa : a.IsFinite) (fb : b.IsFinite) (dv : v.Describes a)
    (dw : w.Describes b) (h : add v w = some r)
    (hf : add (ofLiteral a) (ofLiteral b) = some folded) : Covers r folded := by
  unfold add at h
  split at h
  · next number number' =>
    obtain ⟨x, rfl⟩ := dv.isNumber number
    obtain ⟨y, rfl⟩ := dw.isNumber number'
    cases hf
    split at h
    · next x' y' left right =>
      cases dv.of_number? left
      cases dw.of_number? right
      cases h
      refine covers_ofLiteral fun _ same => ?_
      cases same
      exact isSome_standing?_add (fa x rfl) (fb y rfl)
    · cases h
      exact covers_sum (fa x rfl) (fb y rfl) dv dw
  · next string string' =>
    obtain ⟨s, rfl⟩ := dv.isString string
    obtain ⟨t, rfl⟩ := dw.isString string'
    cases hf
    exact covers_joined dv dw h
  · next string number =>
    obtain ⟨s, rfl⟩ := dv.isString string
    obtain ⟨y, rfl⟩ := dw.isNumber number
    cases hf
    exact covers_joined dv dw h
  · next number string =>
    obtain ⟨x, rfl⟩ := dv.isNumber number
    obtain ⟨t, rfl⟩ := dw.isString string
    cases hf
    exact covers_joined dv dw h
  · cases h

/-! ## One operand -/

/-- What counts as true or false does so in every literal that it allows for. -/
theorem truthiness_sound {t : Bool} (d : v.Describes a) (h : v.truthiness = some t) :
    (ofLiteral a).truthiness = some t := by
  have fits {t : Ty} (same : v.type = t) : (Ty.ofLiteral a).isAssignableTo t = true := same ▸ d.type
  have plain {t : Ty} (same : v.type = t) (ht : t.Plain) : Ty.ofLiteral a = t :=
    eq_of_fits ht (fits same)
  unfold truthiness at h
  split at h
  · next nil =>
    cases d.constant _ nil
    exact h
  · next nil _ =>
    have own := plain nil ⟨nofun, rfl⟩
    cases a <;> first | exact h | cases own
  · next boolean _ =>
    cases d.constant _ boolean
    exact h
  · next notNil notBoolean known _ =>
    cases d.constant _ known
    cases a <;> first | exact h | exact absurd rfl notNil | exact absurd rfl (notBoolean _)
  · next number =>
    have own := plain number ⟨nofun, rfl⟩
    cases a <;> first | exact h | cases own
  · next string =>
    have own := plain string ⟨nofun, rfl⟩
    cases a <;> first | exact h | cases own
  · next function =>
    have own := plain function ⟨nofun, rfl⟩
    cases a <;> cases own
  · next class_ =>
    have own := plain class_ ⟨nofun, rfl⟩
    cases a <;> cases own
  · next instance_ =>
    have own := plain instance_ ⟨nofun, rfl⟩
    cases a <;> cases own
  · cases h

theorem Describes.copy (d : v.Describes a) : v.copy.Describes a :=
  ⟨by simpa using d.type, by simpa using d.constant, by simpa using d.least,
    by simpa using d.greatest⟩

/-- A value stands for what it describes. -/
theorem covers_copy (d : v.Describes a) : Covers v.copy (ofLiteral a).copy := by
  refine ⟨by rw [copy_type, copy_type]; exact d.type, fun l known => ?_, fun l same => ?_⟩
  · rw [copy_constant] at known
    rw [copy_constant, d.constant l known]
    rfl
  · rw [copy_constant] at same
    cases same
    exact d.copy

/-- The bounds of a number, negated and exchanged. -/
theorem covers_negative_number {x : Float} (fx : x.isFinite = true)
    (d : v.Describes (.number x)) (numeric : v.type ≠ .number → v.bounds = (none, none)) :
    Covers v.negative (ofLiteral (.number (-x))) := by
  unfold negative
  split
  · next y known =>
    cases d.of_number? known
    refine covers_ofLiteral fun _ same => ?_
    cases same
    exact isSome_standing?_of_isFinite (by rwa [isFinite_neg])
  · next unknown =>
    split
    · refine covers_boundedNumber (fun m found => ?_) (fun m found => ?_)
      · obtain ⟨g, greatest, rfl⟩ := Option.map_eq_some_iff.1 found
        exact neg_antitone (d.below_greatest greatest)
      · obtain ⟨g, least, rfl⟩ := Option.map_eq_some_iff.1 found
        exact neg_antitone (d.above_least least)
    · next other =>
      -- of a number that may be something else nothing but the type is known
      have none_ : v.constant = none := by
        cases known : v.constant with
        | none => rfl
        | some l =>
          cases d.constant l known
          exact nomatch (show v.number? = some x by rw [number?, known]).symm.trans unknown
      have boundless := numeric other
      have fits : (Ty.ofLiteral (.number (-x))).isAssignableTo v.copy.type = true := by
        rw [copy_type]
        exact d.type
      refine ⟨fits, by simp [none_], fun l same => ?_⟩
      cases same
      exact ⟨fits, by simp [none_], by simp [boundless], by simp [boundless]⟩

theorem covers_unary {op : UnaryOp} (numeric : v.type ≠ .number → v.bounds = (none, none))
    (fa : a.IsFinite) (d : v.Describes a) : Covers (unary op v) (unary op (ofLiteral a)) := by
  cases op with
  | positive => exact covers_copy d
  | negative =>
    cases a with
    | number x => exact covers_negative_number (fa x rfl) d numeric
    | _ =>
      have unknown : v.number? = none := by
        cases known : v.number? with
        | none => rfl
        | some x => cases d.of_number? known
      have other : v.type ≠ .number := fun number => by
        obtain ⟨x, same⟩ := d.isNumber number
        cases same
      have kept : v.negative = v.copy := by rw [negative, unknown]; exact if_neg other
      show Covers v.negative _
      rw [kept]
      exact covers_copy d
  | not =>
    show Covers v.negation (ofLiteral a).negation
    unfold negation
    cases known : v.truthiness with
    | some t =>
      rw [truthiness_sound d known]
      exact covers_ofLiteral fun _ same => by cases same
    | none =>
      cases (ofLiteral a).truthiness with
      | some t => exact covers_ofType rfl fun l same => by cases same; rfl
      | none => exact covers_ofType rfl fun _ same => by cases same

/-- Every operator covers what it folds.  In particular what it decides for values is decided
alike for all literals that they describe, and the bounds of sums, differences and remainders
enclose every result.  Of the values nothing is asked but that, for a single operand, only numbers
have bounds. -/
theorem operators_cover_folding {v w : Value} {a b : Literal}
    (numeric : v.type ≠ .number → v.bounds = (none, none)) (fa : a.IsFinite) (fb : b.IsFinite)
    (dv : v.Describes a) (dw : w.Describes b) :
    (∀ op r folded, binary op v w = some r →
      binary op (ofLiteral a) (ofLiteral b) = some folded → Covers r folded) ∧
    ∀ op, Covers (unary op v) (unary op (ofLiteral a)) := by
  refine ⟨fun op r folded h hf => ?_, fun op => covers_unary numeric fa dv⟩
  cases op with
  | add => exact covers_add fa fb dv dw h hf
  | subtract | multiply | divide | modulo => exact covers_arithmetic fa fb dv dw h hf
  | less | lessEqual | greater | greaterEqual => exact covers_comparison dv dw h hf
  | equal =>
    cases h
    cases hf
    exact covers_ofTruth fun t known => equal?_sound dv dw known
  | notEqual =>
    cases h
    cases hf
    refine covers_ofTruth fun t known => ?_
    obtain ⟨s, same, rfl⟩ := Option.map_eq_some_iff.1 known
    rw [equal?_sound dv dw same]
    rfl
  | and =>
    cases h
    cases hf
    exact covers_logical settles_andKnown dv dw
  | or =>
    cases h
    cases hf
    exact covers_logical settles_orKnown dv dw

/-- A number between -3 and 2 is below 4, and leaves a remainder between -4 and 4. -/
theorem operators_cover_folding_between :
    let v := boundedNumber (some (-3.0)) (some 2.0)
    let w := ofLiteral (.number 4.0)
    v.Describes (.number (-2.5)) ∧ w.Describes (.number 4.0) ∧
      binary .less v w = some (ofLiteral (.boolean true)) ∧
      (∀ folded, binary .less (ofLiteral (.number (-2.5))) w = some folded →
        folded.constant = some (.boolean true)) ∧
      (boundedNumber (some (-4.0)) (some 4.0)).Describes
        (.number (remainder (-2.5) 4.0)) ∧
      v.negative.Describes (.number (-(-2.5))) := by
  intro v w
  have finite : Literal.IsFinite (.number (-2.5)) := fun x same => by cases same; decide +kernel
  have finite' : Literal.IsFinite (.number 4.0) := fun x same => by cases same; decide +kernel
  have dv : v.Describes (.number (-2.5)) := by
    refine ⟨rfl, nofun, fun m found => ⟨_, rfl, ?_⟩, fun m found => ⟨_, rfl, ?_⟩⟩
    · obtain rfl : (-3.0 : Float) = m := Option.some.inj found
      decide +kernel
    · obtain rfl : (2.0 : Float) = m := Option.some.inj found
      decide +kernel
  have dw : w.Describes (.number 4.0) := describes_ofLiteral fun x same => by
    cases same
    decide +kernel
  have less : binary .less v w = some (ofLiteral (.boolean true)) :=
    congrArg (fun t => some (ofTruth t))
      (by decide +kernel : Comparison.ofBounds .less v w = some true)
  have estimated : binary .modulo v w = some (boundedNumber (some (-4.0)) (some 4.0)) := by
    show some (if (0.0 : Float) < 4.0 then boundedNumber
      (some (if v.bounds.1.any fun m => 0.0 ≤ m then 0.0 else -4.0)) (some 4.0)
      else ofType .number) = _
    rw [if_pos (by decide +kernel), if_neg (by decide +kernel)]
  have computed : binary .modulo (ofLiteral (.number (-2.5))) w =
      some (ofLiteral (.number (remainder (-2.5) 4.0))) := by
    have fold : Arithmetic.fold .modulo (-2.5) 4.0 = some (remainder (-2.5) 4.0) := by
      rw [Arithmetic.fold, if_neg (by decide +kernel)]
    show arithmetic .modulo (ofLiteral (.number (-2.5))) (ofLiteral (.number 4.0)) = _
    simp only [arithmetic, ofLiteral, ofType, Ty.ofLiteral, number?, fold]
  obtain ⟨covers, negated⟩ := operators_cover_folding (v := v) (fun other => absurd rfl other)
    finite finite' dv dw
  exact ⟨dv, dw, less, fun folded h => (covers .less _ folded less h).decided _ rfl,
    (covers .modulo _ _ estimated computed).described _ rfl, (negated .negative).described _ rfl⟩

end

end Value

end PathTyping
