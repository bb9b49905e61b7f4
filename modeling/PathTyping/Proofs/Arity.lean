import Mathlib.Data.List.Basic
import PathTyping.Compilation

/-!
# Counting and placing arguments

Whether a candidate takes a number of arguments is decided by counting its required parameters,
while arguments are given to parameters by their positions.  The two agree if the required
parameters come first: then every parameter that has to be given an argument is given one.  If a
required parameter stands behind one that is not, a call with as many arguments as there are
required parameters is accepted and leaves the last of them out.

1. `requiredFirst_iff_lt_minArity`: required parameters come first exactly if each stands at a
   position that the least number of arguments covers.
2. `Choice.isSome_score?_of_matched`: the member that a matched choice goes to takes the arguments.
3. `Choice.supplies_required_iff`: the lists of parameters for which a matched choice supplies every
   required one.
-/

namespace PathTyping

/-! ## The order of parameters -/

/-- No required parameter stands behind one that is not. -/
def RequiredFirst (params : List Param) : Prop :=
  params.Pairwise fun p q => q.isRequired = true → p.isRequired = true

instance (params : List Param) : Decidable (RequiredFirst params) :=
  inferInstanceAs (Decidable (params.Pairwise _))

theorem minArity_cons (p : Param) (params : List Param) :
    minArity (p :: params) = minArity params + if p.isRequired then 1 else 0 :=
  List.countP_cons

theorem RequiredFirst.lt_minArity {params : List Param} (first : RequiredFirst params) {i : Nat}
    {p : Param} (found : params[i]? = some p) (required : p.isRequired = true) :
    i < minArity params := by
  induction params generalizing i with
  | nil => simp at found
  | cons q rest ih =>
    obtain ⟨before, first⟩ := List.pairwise_cons.1 first
    cases i with
    | zero =>
      have same : q = p := by simpa using found
      rw [minArity_cons, same, required]
      exact Nat.succ_pos _
    | succ i =>
      have found : rest[i]? = some p := by simpa using found
      rw [minArity_cons, before p (List.mem_of_getElem? found) required]
      exact Nat.succ_lt_succ (ih first found)

/-- The last of the required parameters, of which there are not more than stand up to it. -/
theorem exists_last_required {params : List Param} (some_required : 0 < minArity params) :
    ∃ i p, params[i]? = some p ∧ p.isRequired = true ∧ minArity params ≤ i + 1 := by
  induction params with
  | nil => simp [minArity] at some_required
  | cons q rest ih =>
    rcases Nat.eq_zero_or_pos (minArity rest) with none_left | some_left
    · have required : q.isRequired = true := by
        by_contra optional
        simp [minArity_cons, none_left, optional] at some_required
      exact ⟨0, q, rfl, required, by simp [minArity_cons, none_left, required]⟩
    · obtain ⟨i, p, found, required, bound⟩ := ih some_left
      refine ⟨i + 1, p, by simpa using found, required, ?_⟩
      rw [minArity_cons]
      split <;> omega

theorem requiredFirst_iff_lt_minArity {params : List Param} :
    RequiredFirst params ↔
      ∀ i p, params[i]? = some p → p.isRequired = true → i < minArity params := by
  refine ⟨fun first i p found required => first.lt_minArity found required, fun covered => ?_⟩
  induction params with
  | nil => exact List.Pairwise.nil
  | cons q rest ih =>
    have next (i : Nat) (p : Param) (found : rest[i]? = some p) (required : p.isRequired = true) :
        i + 1 < minArity (q :: rest) :=
      covered (i + 1) p (by simpa using found) required
    cases leads : q.isRequired with
    | true =>
      refine List.pairwise_cons.2 ⟨fun _ _ _ => leads, ih fun i p found required => ?_⟩
      have := next i p found required
      rw [minArity_cons, leads, if_pos rfl] at this
      omega
    | false =>
      -- The last required parameter of the rest would stand behind all that are counted.
      have none_left : minArity rest = 0 := by
        by_contra some_left
        obtain ⟨i, p, found, required, bound⟩ :=
          exists_last_required (Nat.pos_of_ne_zero some_left)
        have := next i p found required
        rw [minArity_cons, leads] at this
        simp only [Bool.false_eq_true, if_false] at this
        omega
      have optional (p : Param) (hp : p ∈ rest) : ¬p.isRequired = true :=
        List.countP_eq_zero.1 none_left p hp
      refine List.pairwise_cons.2 ⟨fun p hp required => absurd required (optional p hp), ?_⟩
      exact ih fun i p found required =>
        absurd required (optional p (List.mem_of_getElem? found))

/-! ## Arguments in their positions -/

theorem boundParams_getElem? {params : List Param} {arguments : List Value} {i : Nat} {p : Param}
    {v : Value} (found : params[i]? = some p) (given : arguments[i]? = some v) :
    (boundParams params arguments)[i]? = some (p.name, p.bound (some v)) := by
  simp [boundParams, List.getElem?_zipIdx, found, given]

namespace Choice

variable {t : SymbolTable} {candidates : List Member} {arguments : List Ty} {m : Member}
  {params : List Param}

/-- The candidate takes the arguments with the parameters that it has. -/
def Fits (t : SymbolTable) (arguments : List Ty) (m : Member) : Prop :=
  ∀ params, t.params? m = some params → (score? params arguments).isSome = true

theorem fits_of_better {best : Option (Member × Nat)} (chosen : ∀ p ∈ best, Fits t arguments p.1)
    (declared : t.params? m = some params) :
    ∀ p ∈ better best m (score? params arguments), Fits t arguments p.1 := by
  intro p hp
  rw [Option.mem_def] at hp
  unfold better at hp
  have mine (n : Nat) (scored : score? params arguments = some n) : Fits t arguments m := by
    intro others same
    rw [Option.some.inj (same.symm.trans declared), scored]
    rfl
  split at hp
  · exact chosen p hp
  · next n scored =>
    cases hp
    exact mine n scored
  · next b k n scored =>
    split at hp
    · cases hp
      exact mine n scored
    · cases hp
      exact chosen (b, k) rfl

theorem fits_of_best? {listed : List (Member × List Param)}
    (declared : ∀ p ∈ listed, t.params? p.1 = some p.2) :
    ∀ p ∈ best? arguments listed, Fits t arguments p.1 := by
  have go (best : Option (Member × Nat)) (chosen : ∀ p ∈ best, Fits t arguments p.1) :
      ∀ p ∈ listed.foldl (fun best p => better best p.1 (score? p.2 arguments)) best,
        Fits t arguments p.1 := by
    induction listed generalizing best with
    | nil => exact chosen
    | cons first rest ih =>
      exact ih (fun p hp => declared p (List.mem_cons_of_mem _ hp)) _
        (fits_of_better chosen (declared first List.mem_cons_self))
  exact go none fun _ h => by cases h

theorem params?_of_mem_callable {p : Member × List Param} (h : p ∈ callable t candidates) :
    t.params? p.1 = some p.2 := by
  obtain ⟨_, -, found⟩ := List.mem_filterMap.1 h
  obtain ⟨_, declared, rfl⟩ := Option.map_eq_some_iff.1 found
  exact declared

theorem isSome_score?_of_matched (h : Choice.of? t candidates arguments = some ⟨m, true⟩)
    (declared : t.params? m = some params) : (score? params arguments).isSome = true := by
  unfold Choice.of? at h
  split at h
  · cases h
  · next fallback others rest listed =>
    split at h
    · next best n found =>
      cases h
      exact fits_of_best? (listed ▸ fun p => params?_of_mem_callable) (m, n) found params declared
    · simp at h

theorem minArity_le_of_score (h : (score? params arguments).isSome = true) :
    minArity params ≤ arguments.length := by
  unfold score? at h
  split at h
  · next accepted => exact of_decide_eq_true (Bool.and_eq_true_iff.1 accepted).1
  · cases h

/-! ## Arguments that suit every parameter -/

theorem points_any (param : Ty) : points param .any = some 1 := by simp [points, Ty.isAny]

theorem isSome_receiver? {position : Nat}
    (room : position < params.length ∨ params.any Param.variadic = true) :
    (receiver? params position).isSome = true := by
  have rest (h : params.any Param.variadic = true) :
      (params.find? Param.variadic).isSome = true := by simpa using h
  unfold receiver?
  split
  · next p found =>
    split
    · next variadic => exact rest (List.any_eq_true.2 ⟨p, List.mem_of_getElem? found, variadic⟩)
    · rfl
  · next beyond =>
    exact rest (room.resolve_left (Nat.not_lt.2 (List.getElem?_eq_none_iff.1 beyond)))

theorem isSome_total_any {count position : Nat}
    (room : position + count ≤ params.length ∨ params.any Param.variadic = true) :
    (total params position (List.replicate count .any)).isSome = true := by
  induction count generalizing position with
  | zero => rfl
  | succ count ih =>
    obtain ⟨p, received⟩ := Option.isSome_iff_exists.1
      (isSome_receiver? (room.imp_left fun h => show position < params.length by omega))
    have beyond : position + 1 + count ≤ params.length ∨ params.any Param.variadic = true :=
      room.imp_left fun h => by omega
    obtain ⟨k, later⟩ := Option.isSome_iff_exists.1 (ih beyond)
    simp [List.replicate_succ, total, received, points_any, later]

/-- As many arguments as there are required parameters are accepted, whichever these are. -/
theorem isSome_score?_minArity (params : List Param) :
    (score? params (List.replicate (minArity params) .any)).isSome = true := by
  have enough := minArity_le_length params
  have accepted : acceptsCount params (minArity params) = true := by
    unfold acceptsCount maxArity
    split <;> simp [enough]
  rw [score?, List.length_replicate, if_pos accepted]
  exact isSome_total_any (.inl (by omega))

theorem of?_singleton (declared : t.params? m = some params)
    (h : (score? params arguments).isSome = true) :
    Choice.of? t [m] arguments = some ⟨m, true⟩ := by
  obtain ⟨n, scored⟩ := Option.isSome_iff_exists.1 h
  simp [Choice.of?, callable, declared, best?, better, scored]

end Choice

/-! ## Supplying what is required -/

/-- Every required parameter has an argument at its own position, and starts with that argument
wherever arguments of these types are handed over. -/
def SuppliesRequired (params : List Param) (arguments : List Ty) : Prop :=
  ∀ i p, params[i]? = some p → p.isRequired = true →
    i < arguments.length ∧ ∀ values : List Value, values.map Value.type = arguments →
      ∃ v, values[i]? = some v ∧ (boundParams params values)[i]? = some (p.name, p.bound (some v))

theorem suppliesRequired_iff {params : List Param} {arguments : List Ty} :
    SuppliesRequired params arguments ↔
      ∀ i p, params[i]? = some p → p.isRequired = true → i < arguments.length := by
  refine ⟨fun h i p found required => (h i p found required).1, fun h i p found required => ?_⟩
  have inside := h i p found required
  refine ⟨inside, fun values types => ?_⟩
  have inside : i < values.length := by rwa [← types, List.length_map] at inside
  exact ⟨values[i], List.getElem?_eq_getElem inside,
    boundParams_getElem? found (List.getElem?_eq_getElem inside)⟩

/-- A matched choice of a member supplies its required parameters, whatever else there is to choose
from and whatever the arguments are, exactly if these parameters come first. -/
theorem Choice.supplies_required_iff {t : SymbolTable} {m : Member} {params : List Param}
    (declared : t.params? m = some params) :
    RequiredFirst params ↔ ∀ candidates arguments,
      Choice.of? t candidates arguments = some ⟨m, true⟩ → SuppliesRequired params arguments := by
  constructor
  · intro first candidates arguments chosen
    have enough := minArity_le_of_score (isSome_score?_of_matched chosen declared)
    exact suppliesRequired_iff.2 fun i p found required =>
      Nat.lt_of_lt_of_le (first.lt_minArity found required) enough
  · intro supplied
    refine requiredFirst_iff_lt_minArity.2 fun i p found required => ?_
    have chosen := of?_singleton declared (isSome_score?_minArity params)
    simpa using suppliesRequired_iff.1 (supplied _ _ chosen) i p found required

/-- The table of a text that can be read. -/
def tableOf (text : String) : SymbolTable :=
  ((Module.ofText text).toOption.map fun (m, _) => (SymbolTable.ofModule m).1).getD .empty

/-- One overload asks for its arguments first, the other one for its second. -/
def eitherEndText : String :=
  "fn f(a, b = 1, ...rest) \x7b return a \x7d\nfn f(a: Nil = nil, b: String) \x7b return b \x7d\n"

theorem supplies_required_iff_eitherEnd :
    ((tableOf eitherEndText).params? (.method 0) =
        some ((tableOf eitherEndText).method 0).params ∧
      Choice.of? (tableOf eitherEndText) [.method 0, .method 1] [.number, .string, .nil] =
        some ⟨.method 0, true⟩ ∧
      SuppliesRequired ((tableOf eitherEndText).method 0).params [.number, .string, .nil]) ∧
    ∃ candidates arguments,
      Choice.of? (tableOf eitherEndText) candidates arguments = some ⟨.method 1, true⟩ ∧
      ¬SuppliesRequired ((tableOf eitherEndText).method 1).params arguments := by
  obtain ⟨first, last, chosen⟩ : RequiredFirst ((tableOf eitherEndText).method 0).params ∧
      ¬RequiredFirst ((tableOf eitherEndText).method 1).params ∧
        Choice.of? (tableOf eitherEndText) [.method 0, .method 1] [.number, .string, .nil] =
          some ⟨.method 0, true⟩ := by
    have row : TokenRow.ofText eitherEndText = _ :=
      TokenRow.ofText_of_eq_ofList (by rw [eitherEndText])
    rw [tableOf, Module.ofText, row]
    decide +kernel
  refine ⟨⟨rfl, chosen, (Choice.supplies_required_iff rfl).1 first _ _ chosen⟩, ?_⟩
  have missed := mt (Choice.supplies_required_iff
    (t := tableOf eitherEndText) (m := .method 1) rfl).2 last
  push Not at missed
  exact missed

/-- A function whose second parameter has to be given an argument and whose first has not. -/
def backwardText : String := "fn f(a = 1, b) \x7b return b \x7d\n"

/-- One argument is accepted, and goes to the parameter that could do without it: the other starts
with its bare declared type. -/
theorem matched_omits_required :
    ∃ m read, Module.ofText backwardText = .ok (m, read) ∧
      let t := (SymbolTable.ofModule m).1
      Choice.of? t (t.getMembers "f") [.number] = some ⟨.method 0, true⟩ ∧
      (t.method 0).params.map (fun p => (p.name, p.isRequired)) = [("a", false), ("b", true)] ∧
      ¬SuppliesRequired (t.method 0).params [.number] ∧
      (boundParams (t.method 0).params [.ofType .number]).map (fun b => (b.1, b.2.type)) =
        [("a", .number), ("b", .any)] := by
  have known : (Module.ofText backwardText).toOption.map (fun (m, _) =>
      let t := (SymbolTable.ofModule m).1
      (Choice.of? t (t.getMembers "f") [.number],
        (t.method 0).params.map fun p => (p.name, p.isRequired),
        (boundParams (t.method 0).params [.ofType .number]).map fun b => (b.1, b.2.type))) =
      some (some ⟨.method 0, true⟩, [("a", false), ("b", true)],
        [("a", .number), ("b", .any)]) := by
    have row : TokenRow.ofText backwardText = _ := TokenRow.ofText_of_eq_ofList (by rw [backwardText])
    rw [Module.ofText, row]
    decide +kernel
  cases parsed : Module.ofText backwardText with
  | error e => simp [parsed, Except.toOption] at known
  | ok found =>
    rw [parsed] at known
    obtain ⟨chosen, rest⟩ := Prod.mk.inj (Option.some.inj known)
    obtain ⟨params, bound⟩ := Prod.mk.inj rest
    refine ⟨found.1, found.2, rfl, chosen, params, fun supplied => ?_, bound⟩
    have second := congrArg (·[1]?) params
    rw [List.getElem?_map] at second
    obtain ⟨p, second, facts⟩ := Option.map_eq_some_iff.1 second
    exact absurd (suppliesRequired_iff.1 supplied 1 p second (Prod.mk.inj facts).2) (by decide)

end PathTyping
