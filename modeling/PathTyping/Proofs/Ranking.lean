import Mathlib.Algebra.GroupWithZero.Nat
import Mathlib.Data.List.Induction
import PathTyping.Proofs.Arity

/-!
# The earliest of the best

Whether a candidate takes a list of arguments is said here without counting points: there are
enough arguments and not too many, and each of them suits the parameter that receives it.  The
points are a sum, two for each argument of exactly the type that is declared and one for each other.
What is chosen is then the earliest of the candidates with most points.

1. `Choice.score?_eq_some_iff`: a candidate has points exactly if it takes the arguments, and how
   many.
2. One candidate more changes what is best only if it has more points (`Choice.Best.snoc`), so what
   is kept in the end is the earliest of the best (`Choice.best_best?`).
3. `Choice.of?_earliest_best`: what is chosen, and when.
-/

namespace PathTyping

namespace Choice

/-! ## Which parameter receives an argument -/

/-- The parameter receives the argument at `position`: it stands there and takes one argument, or it
is the first to take any number, and no other stands there that takes only one. -/
inductive Receives (params : List Param) (position : Nat) (p : Param) : Prop
  | own (found : params[position]? = some p) (single : p.variadic = false)
  | rest {before after : List Param} (split : params = before ++ p :: after)
      (variadic : p.variadic = true) (first : ∀ q ∈ before, q.variadic = false)
      (others : ∀ q, params[position]? = some q → q.variadic = true)

section Receives

variable {params : List Param} {position : Nat} {p q : Param}

theorem find?_variadic_iff : params.find? Param.variadic = some p ↔ p.variadic = true ∧
    ∃ before after, params = before ++ p :: after ∧ ∀ q ∈ before, q.variadic = false := by
  simp [List.find?_eq_some_iff_append]

theorem receiver?_eq_some_iff :
    receiver? params position = some p ↔ Receives params position p := by
  constructor
  · intro received
    have rest (others : ∀ q, params[position]? = some q → q.variadic = true)
        (found : params.find? Param.variadic = some p) : Receives params position p := by
      obtain ⟨variadic, before, after, split, first⟩ := find?_variadic_iff.1 found
      exact .rest split variadic first others
    unfold receiver? at received
    split at received
    · next q found =>
      split at received
      · next variadic =>
        refine rest (fun r same => ?_) received
        rwa [← Option.some.inj (found.symm.trans same)]
      · next single =>
        cases received
        exact .own found (Bool.eq_false_iff.2 single)
    · next beyond => exact rest (fun q found => by rw [beyond] at found; cases found) received
  · rintro (⟨found, single⟩ | ⟨split, variadic, first, others⟩)
    · rw [receiver?, found]
      simp [single]
    · have last := find?_variadic_iff.2 ⟨variadic, _, _, split, first⟩
      unfold receiver?
      split
      · next q found => rw [if_pos (others q found), last]
      · exact last

theorem Receives.unique (h : Receives params position p) (h' : Receives params position q) :
    p = q :=
  Option.some.inj ((receiver?_eq_some_iff.2 h).symm.trans (receiver?_eq_some_iff.2 h'))

end Receives

/-! ## Points -/

/-- A value of type `argument` may be handed over for a parameter of type `param`: one of the two
may be anything, the type fits, or it is a union and has an alternative in common with the other. -/
def Suits (param argument : Ty) : Prop :=
  param = .any ∨ argument = .any ∨ argument.isAssignableTo param = true ∨
    argument.isUnion = true ∧ argument.overlaps param = true

/-- The parameter that receives the argument at `position` is declared with exactly its type. -/
def ExactAt (params : List Param) (position : Nat) (argument : Ty) : Prop :=
  argument ≠ .any ∧ ∃ p, Receives params position p ∧ p.type = argument

instance (params : List Param) (position : Nat) (argument : Ty) :
    Decidable (ExactAt params position argument) :=
  decidable_of_iff (argument ≠ .any ∧ ∃ p ∈ receiver? params position, p.type = argument) <| by
    simp only [ExactAt, Option.mem_def, receiver?_eq_some_iff]

theorem Receives.exactAt_iff {params : List Param} {p : Param} {position : Nat} {argument : Ty}
    (received : Receives params position p) :
    ExactAt params position argument ↔ argument ≠ .any ∧ p.type = argument := by
  refine and_congr_right fun _ => ⟨?_, fun same => ⟨p, received, same⟩⟩
  rintro ⟨q, other, same⟩
  exact other.unique received ▸ same

/-- A call with arguments of these types may go to a method with these parameters. -/
structure Takes (params : List Param) (arguments : List Ty) : Prop where
  enough : params.countP Param.isRequired ≤ arguments.length
  room : (∃ p ∈ params, p.variadic = true) ∨ arguments.length ≤ params.length
  suits : ∀ (i : Nat) (argument : Ty), arguments[i]? = some argument →
    ∃ p, Receives params i p ∧ Suits p.type argument

/-- Two points for each argument of exactly the declared type, and one for each other. -/
def worth (params : List Param) (arguments : List Ty) : Nat :=
  (arguments.zipIdx.map fun (argument, i) => if ExactAt params i argument then 2 else 1).sum

section Points

variable {params : List Param} {param argument : Ty} {arguments : List Ty} {n position : Nat}

theorem acceptsCount_iff {count : Nat} : acceptsCount params count = true ↔
    params.countP Param.isRequired ≤ count ∧
      ((∃ p ∈ params, p.variadic = true) ∨ count ≤ params.length) := by
  rw [acceptsCount, Bool.and_eq_true, decide_eq_true_iff]
  refine and_congr Iff.rfl ?_
  unfold maxArity
  split
  · next variadic =>
    have some_ : ∃ p ∈ params, p.variadic = true := by simpa using variadic
    simp [some_]
  · next single =>
    have none_ : ¬ ∃ p ∈ params, p.variadic = true := by simpa using single
    simp [none_]

theorem points_eq_some_iff : points param argument = some n ↔
    Suits param argument ∧ n = if argument ≠ .any ∧ param = argument then 2 else 1 := by
  unfold points Suits
  by_cases open_ : param = .any ∨ argument = .any
  · have unknown : ¬ (argument ≠ .any ∧ param = argument) := by
      rintro ⟨known, rfl⟩
      exact known (open_.elim id id)
    have suits : param = .any ∨ argument = .any ∨ argument.isAssignableTo param = true ∨
        argument.isUnion = true ∧ argument.overlaps param = true :=
      open_.imp_right .inl
    rw [if_pos (by simpa using open_), if_neg unknown, Option.some.injEq]
    exact ⟨fun one => ⟨suits, one.symm⟩, fun h => h.2.symm⟩
  · rw [if_neg (by simpa using open_)]
    obtain ⟨declared, known⟩ := not_or.1 open_
    by_cases same : param = argument
    · rw [if_pos same, if_pos ⟨known, same⟩, Option.some.injEq]
      exact ⟨fun two => ⟨.inr (.inr (.inl (same ▸ Ty.isAssignableTo_self _))), two.symm⟩,
        fun h => h.2.symm⟩
    · have inexact : ¬ (argument ≠ .any ∧ param = argument) := fun h => same h.2
      rw [if_neg same, if_neg inexact]
      simp only [declared, known, false_or, Bool.or_eq_true, Bool.and_eq_true]
      split
      · next loose =>
        rw [Option.some.injEq]
        exact ⟨fun one => ⟨loose, one.symm⟩, fun h => h.2.symm⟩
      · next unfit => exact iff_of_false nofun fun h => unfit h.1

theorem total_eq_some_iff : total params position arguments = some n ↔
    (∀ (i : Nat) (argument : Ty), arguments[i]? = some argument →
      ∃ p, Receives params (position + i) p ∧ Suits p.type argument) ∧
    n = ((arguments.zipIdx position).map fun (argument, i) =>
      if ExactAt params i argument then 2 else 1).sum := by
  induction arguments generalizing position n with
  | nil => simp [total, eq_comm]
  | cons argument rest ih =>
    have later (P : Nat → Ty → Prop) :
        (∀ (i : Nat) (a : Ty), (argument :: rest)[i]? = some a → P (position + i) a) ↔
          P position argument ∧
            ∀ (i : Nat) (a : Ty), rest[i]? = some a → P (position + 1 + i) a := by
      constructor
      · intro all
        refine ⟨all 0 argument rfl, fun i a found => ?_⟩
        rw [Nat.add_assoc, Nat.add_comm 1]
        exact all (i + 1) a found
      · rintro ⟨first, others⟩ (_ | i) a found
        · cases found
          exact first
        · rw [Nat.add_comm i, ← Nat.add_assoc]
          exact others i a found
    rw [later fun i a => ∃ p, Receives params i p ∧ Suits p.type a]
    simp only [total, Option.bind_eq_bind, Option.bind_eq_some_iff, receiver?_eq_some_iff,
      points_eq_some_iff, ih, Option.pure_def, Option.some.injEq, List.zipIdx_cons, List.map_cons,
      List.sum_cons]
    constructor
    · rintro ⟨p, received, k, ⟨suits, rfl⟩, m, ⟨others, rfl⟩, rfl⟩
      refine ⟨⟨⟨p, received, suits⟩, others⟩, ?_⟩
      congr 2
      exact propext received.exactAt_iff.symm
    · rintro ⟨⟨⟨p, received, suits⟩, others⟩, rfl⟩
      refine ⟨p, received, _, ⟨suits, rfl⟩, _, ⟨others, rfl⟩, ?_⟩
      congr 2
      exact propext received.exactAt_iff.symm

/-- A candidate has points exactly if it takes the arguments. -/
theorem score?_eq_some_iff : score? params arguments = some n ↔
    Takes params arguments ∧ n = worth params arguments := by
  have counted : acceptsCount params arguments.length = true ↔ _ := acceptsCount_iff
  unfold score?
  split
  · next accepted =>
    obtain ⟨enough, room⟩ := counted.1 accepted
    rw [total_eq_some_iff]
    simp only [Nat.zero_add]
    exact and_congr_left' ⟨fun suits => ⟨enough, room, suits⟩, Takes.suits⟩
  · next refused => simpa using fun takes _ => refused (counted.2 ⟨takes.enough, takes.room⟩)

theorem score?_eq_none_iff : score? params arguments = none ↔ ¬ Takes params arguments := by
  rw [Option.eq_none_iff_forall_ne_some]
  exact ⟨fun h takes => h _ (score?_eq_some_iff.2 ⟨takes, rfl⟩),
    fun h n scored => h (score?_eq_some_iff.1 scored).1⟩

end Points

/-! ## The best of a list -/

/-- What is best among the candidates: nothing if none takes the arguments, and otherwise the
earliest of those that have most points. -/
inductive Best (arguments : List Ty) (listed : List (Member × List Param)) :
    Option (Member × Nat) → Prop
  | none (refused : ∀ p ∈ listed, ¬ Takes p.2 arguments) : Best arguments listed none
  | some {m : Member} {params : List Param} {before after : List (Member × List Param)}
      (split : listed = before ++ (m, params) :: after) (takes : Takes params arguments)
      (less : ∀ p ∈ before, Takes p.2 arguments → worth p.2 arguments < worth params arguments)
      (most : ∀ p ∈ after, Takes p.2 arguments → worth p.2 arguments ≤ worth params arguments) :
      Best arguments listed (some (m, worth params arguments))

variable {arguments : List Ty} {listed : List (Member × List Param)}

/-- The step: one candidate more is better if it has more points than any before it. -/
theorem Best.snoc {best : Option (Member × Nat)} (h : Best arguments listed best)
    (p : Member × List Param) :
    Best arguments (listed ++ [p]) (better best p.1 (score? p.2 arguments)) := by
  have last (P : Member × List Param → Prop) (all : ∀ q ∈ listed, P q) (mine : P p) :
      ∀ q ∈ listed ++ [p], P q := fun q hq =>
    (List.mem_append.1 hq).elim (all q) fun same => List.mem_singleton.1 same ▸ mine
  have longer {m : Member} {params : List Param} {before after : List (Member × List Param)}
      (split : listed = before ++ (m, params) :: after) :
      listed ++ [p] = before ++ (m, params) :: (after ++ [p]) := by rw [split]; simp
  have latest : listed ++ [p] = listed ++ (p.1, p.2) :: [] := rfl
  cases scored : score? p.2 arguments with
  | none =>
    have refused := score?_eq_none_iff.1 scored
    cases h with
    | none others => exact .none (last _ others refused)
    | @some m params before after split takes less most =>
      refine .some (longer split) takes less fun q hq => ?_
      rcases List.mem_append.1 hq with old | new
      · exact most q old
      · exact fun takes' => absurd takes' (List.mem_singleton.1 new ▸ refused)
  | some n =>
    obtain ⟨takes', rfl⟩ := score?_eq_some_iff.1 scored
    cases h with
    | none others =>
      exact .some latest takes' (fun q hq takes => absurd takes (others q hq)) nofun
    | @some m params before after split takes less most =>
      simp only [better]
      split
      · next more =>
        refine .some latest takes' (fun q hq takes => ?_) nofun
        have bounded : worth q.2 arguments ≤ worth params arguments := by
          rw [split] at hq
          rcases List.mem_append.1 hq with old | hq
          · exact Nat.le_of_lt (less q old takes)
          · rcases List.mem_cons.1 hq with rfl | new
            · exact Nat.le_refl _
            · exact most q new takes
        exact Nat.lt_of_le_of_lt bounded more
      · next enough =>
        refine .some (longer split) takes less fun q hq => ?_
        rcases List.mem_append.1 hq with old | new
        · exact most q old
        · exact fun _ => List.mem_singleton.1 new ▸ Nat.le_of_not_lt enough

theorem best?_snoc (p : Member × List Param) : best? arguments (listed ++ [p]) =
    better (best? arguments listed) p.1 (score? p.2 arguments) := by
  rw [best?, List.foldl_append]
  rfl

/-- The run: what is kept in the end is best among all. -/
theorem best_best? (arguments : List Ty) (listed : List (Member × List Param)) :
    Best arguments listed (best? arguments listed) := by
  induction listed using List.reverseRecOn with
  | nil => exact .none nofun
  | append_singleton listed p ih => exact best?_snoc p ▸ ih.snoc p

/-! ## What is chosen -/

/-- The member can be called, with arguments of these types. -/
def Admits (t : SymbolTable) (arguments : List Ty) (m : Member) : Prop :=
  ∃ params, t.params? m = some params ∧ Takes params arguments

/-- The points of a member for arguments of these types. -/
def worthOf (t : SymbolTable) (arguments : List Ty) (m : Member) : Nat :=
  (t.params? m).elim 0 (worth · arguments)

/-- The member takes the arguments; no other candidate that does has more points, and none before it
has as many. -/
def EarliestBest (t : SymbolTable) (candidates : List Member) (arguments : List Ty) (m : Member) :
    Prop :=
  Admits t arguments m ∧
    (∀ c ∈ candidates, Admits t arguments c → worthOf t arguments c ≤ worthOf t arguments m) ∧
    ∃ before after, candidates = before ++ m :: after ∧
      ∀ c ∈ before, Admits t arguments c → worthOf t arguments c < worthOf t arguments m

section Chosen

variable {t : SymbolTable} {candidates : List Member} {m : Member} {params : List Param}

theorem worthOf_eq (declared : t.params? m = some params) :
    worthOf t arguments m = worth params arguments := by rw [worthOf, declared]; rfl

theorem mem_callable_iff {p : Member × List Param} :
    p ∈ callable t candidates ↔ p.1 ∈ candidates ∧ t.params? p.1 = some p.2 := by
  constructor
  · intro listed
    obtain ⟨m, there, found⟩ := List.mem_filterMap.1 listed
    obtain ⟨_, declared, rfl⟩ := Option.map_eq_some_iff.1 found
    exact ⟨there, declared⟩
  · rintro ⟨there, declared⟩
    exact List.mem_filterMap.2 ⟨p.1, there, by rw [declared]; rfl⟩

theorem callable_snoc (t : SymbolTable) (candidates : List Member) (m : Member) :
    callable t (candidates ++ [m]) =
      callable t candidates ++ ((t.params? m).map (m, ·)).toList := by
  rw [callable, List.filterMap_append]
  cases declared : t.params? m <;> simp [callable, declared]

/-- The first candidate that can be called. -/
theorem head?_callable (t : SymbolTable) (candidates : List Member) :
    (callable t candidates).head?.map Prod.fst = candidates.find? Member.isCallable := by
  induction candidates with
  | nil => rfl
  | cons m rest ih =>
    have known := t.params?_isSome m
    cases declared : t.params? m with
    | none =>
      rw [declared] at known
      rw [List.find?_cons_of_neg (by simp [← known]), ← ih]
      simp [callable, declared]
    | some params =>
      rw [declared] at known
      rw [List.find?_cons_of_pos known.symm]
      simp [callable, declared]

/-- What is chosen, by what is best among the candidates that can be called. -/
theorem of?_eq (t : SymbolTable) (candidates : List Member) (arguments : List Ty) :
    Choice.of? t candidates arguments =
      match best? arguments (callable t candidates) with
      | some (m, _) => some ⟨m, true⟩
      | none => (candidates.find? Member.isCallable).map (⟨·, false⟩) := by
  rw [← head?_callable t, Choice.of?]
  cases callable t candidates with
  | nil => rfl
  | cons p rest =>
    rcases p with ⟨m, params⟩
    dsimp only
    cases best? arguments ((m, params) :: rest) <;> rfl

theorem of?_eq_matched_iff : Choice.of? t candidates arguments = some ⟨m, true⟩ ↔
    ∃ n, best? arguments (callable t candidates) = some (m, n) := by
  rw [of?_eq]
  cases best? arguments (callable t candidates) with
  | none => simp
  | some p => simp [Prod.ext_iff]

theorem of?_matched_iff : (∃ m, Choice.of? t candidates arguments = some ⟨m, true⟩) ↔
    ∃ m ∈ candidates, Admits t arguments m := by
  simp only [of?_eq_matched_iff]
  have best := best_best? arguments (callable t candidates)
  constructor
  · rintro ⟨m, n, found⟩
    rw [found] at best
    cases best with
    | @some _ params before after split takes less most =>
      have listed : (m, params) ∈ callable t candidates := by rw [split]; simp
      obtain ⟨there, declared⟩ := mem_callable_iff.1 listed
      exact ⟨m, there, params, declared, takes⟩
  · rintro ⟨m, there, params, declared, takes⟩
    cases found : best? arguments (callable t candidates) with
    | some p => exact ⟨p.1, p.2, rfl⟩
    | none =>
      rw [found] at best
      cases best with
      | none refused =>
        exact absurd takes (refused (m, params) (mem_callable_iff.2 ⟨there, declared⟩))

theorem earliestBest_of_matched (h : Choice.of? t candidates arguments = some ⟨m, true⟩) :
    EarliestBest t candidates arguments m := by
  obtain ⟨n, found⟩ := of?_eq_matched_iff.1 h
  have best := best_best? arguments (callable t candidates)
  rw [found] at best
  cases best with
  | @some _ params before after split takes less most =>
    obtain ⟨front, back, rfl, listed, rest⟩ := List.filterMap_eq_append_iff.1 split
    obtain ⟨skipped, c, others, rfl, silent, own, -⟩ := List.filterMap_eq_cons_iff.1 rest
    obtain ⟨_, declared, same⟩ := Option.map_eq_some_iff.1 own
    cases same
    -- Candidates that cannot be called stand between the listed ones.
    have early (d : Member) (hd : d ∈ front ++ skipped) (admits : Admits t arguments d) :
        worthOf t arguments d < worthOf t arguments m := by
      obtain ⟨ps, declared', takes'⟩ := admits
      rw [worthOf_eq declared, worthOf_eq declared']
      rcases List.mem_append.1 hd with hd | hd
      · refine less (d, ps) (listed ▸ ?_) takes'
        exact mem_callable_iff.2 ⟨hd, declared'⟩
      · have absent := silent d hd
        rw [declared'] at absent
        cases absent
    refine ⟨⟨params, declared, takes⟩, fun d hd admits => ?_, front ++ skipped, others, by simp,
      early⟩
    obtain ⟨ps, declared', takes'⟩ := admits
    have there : (d, ps) ∈ before ++ (m, params) :: after :=
      split ▸ mem_callable_iff.2 ⟨hd, declared'⟩
    rw [worthOf_eq declared, worthOf_eq declared']
    rcases List.mem_append.1 there with old | there
    · exact Nat.le_of_lt (less _ old takes')
    · rcases List.mem_cons.1 there with same | new
      · cases same
        exact Nat.le_refl _
      · exact most _ new takes'

theorem of?_snoc (h : Choice.of? t candidates arguments = some ⟨m, true⟩) (other : Member) :
    Choice.of? t (candidates ++ [other]) arguments = some ⟨m, true⟩ ∨
      Admits t arguments other ∧ worthOf t arguments m < worthOf t arguments other ∧
        Choice.of? t (candidates ++ [other]) arguments = some ⟨other, true⟩ := by
  obtain ⟨n, found⟩ := of?_eq_matched_iff.1 h
  simp only [of?_eq_matched_iff, callable_snoc]
  cases declared : t.params? other with
  | none => exact .inl ⟨n, by simpa using found⟩
  | some params =>
    have points : n = worthOf t arguments m := by
      have best := best_best? arguments (callable t candidates)
      rw [found] at best
      cases best with
      | @some _ ps before after split takes less most =>
        have listed : (m, ps) ∈ callable t candidates := by rw [split]; simp
        exact (worthOf_eq (mem_callable_iff.1 listed).2).symm
    simp only [Option.map_some, Option.toList_some, best?_snoc, found]
    cases scored : score? params arguments with
    | none => exact .inl ⟨n, rfl⟩
    | some k =>
      obtain ⟨takes, rfl⟩ := score?_eq_some_iff.1 scored
      simp only [better]
      split
      · next more =>
        refine .inr ⟨⟨params, declared, takes⟩, ?_, _, rfl⟩
        rwa [worthOf_eq declared, ← points]
      · exact .inl ⟨n, rfl⟩

end Chosen

/-- There is no choice exactly if nothing can be called.  It is matched exactly if a candidate takes
the arguments, and then it is the earliest of those with most points; otherwise it is the first that
can be called.  One candidate more changes a matched choice only if it has more points, and then it
is chosen. -/
theorem of?_earliest_best (t : SymbolTable) (candidates : List Member) (arguments : List Ty) :
    (Choice.of? t candidates arguments = none ↔ ∀ m ∈ candidates, m.isCallable = false) ∧
    ((∃ m, Choice.of? t candidates arguments = some ⟨m, true⟩) ↔
      ∃ m ∈ candidates, Admits t arguments m) ∧
    ∀ m,
      (Choice.of? t candidates arguments = some ⟨m, true⟩ →
        EarliestBest t candidates arguments m ∧
        ∀ other, Choice.of? t (candidates ++ [other]) arguments = some ⟨m, true⟩ ∨
          Admits t arguments other ∧ worthOf t arguments m < worthOf t arguments other ∧
            Choice.of? t (candidates ++ [other]) arguments = some ⟨other, true⟩) ∧
      (Choice.of? t candidates arguments = some ⟨m, false⟩ →
        candidates.find? Member.isCallable = some m) := by
  refine ⟨of?_eq_none_iff, of?_matched_iff, fun m => ⟨fun chosen => ?_, fun fallback => ?_⟩⟩
  · exact ⟨earliestBest_of_matched chosen, of?_snoc chosen⟩
  · rw [of?_eq] at fallback
    cases best : best? arguments (callable t candidates) with
    | some p => rw [best] at fallback; cases fallback
    | none =>
      rw [best] at fallback
      obtain ⟨first, found, same⟩ := Option.map_eq_some_iff.1 fallback
      cases same
      exact found

/-- One overload takes anything, two take a number, one of them with more behind it. -/
def rankedText : String :=
  "fn f(a) \x7b return a \x7d\nfn f(a: Number, ...rest) \x7b return a \x7d\n" ++
    "fn f(a: Number) \x7b return a \x7d\n"

theorem of?_earliest_best_ranked :
    let t := tableOf rankedText
    t.getMembers "f" = [.method 0, .method 1, .method 2] ∧
      (t.getMembers "f").map (worthOf t [.number]) = [1, 2, 2] ∧
      EarliestBest t (t.getMembers "f") [.number] (.method 1) ∧
      Choice.of? t (t.getMembers "f" ++ [.method 2]) [.number] = some ⟨.method 1, true⟩ ∧
      Choice.of? t [.method 0, .method 1] [.number] = some ⟨.method 1, true⟩ ∧
      [Member.method 2, .method 1].find? Member.isCallable = some (.method 2) ∧
      ¬ ∃ m ∈ [Member.method 2, .method 1], Admits t [.string] m := by
  intro t
  have known : t.getMembers "f" = [.method 0, .method 1, .method 2] ∧
      (t.getMembers "f").map (worthOf t [.number]) = [1, 2, 2] ∧
      Choice.of? t (t.getMembers "f") [.number] = some ⟨.method 1, true⟩ ∧
      Choice.of? t [.method 0, .method 1] [.number] = some ⟨.method 1, true⟩ ∧
      Choice.of? t [.method 2, .method 1] [.string] = some ⟨.method 2, false⟩ := by
    have row : TokenRow.ofText rankedText = _ :=
      TokenRow.ofText_of_eq_append (by unfold rankedText; with_reducible rfl)
    dsimp only [t]
    rw [tableOf, Module.ofText, row]
    decide +kernel
  obtain ⟨named, points, chosen, outdone, refused⟩ := known
  have several := ((of?_earliest_best t (t.getMembers "f") [.number]).2.2 (.method 1)).1 chosen
  have unmatched := of?_earliest_best t [.method 2, .method 1] [.string]
  refine ⟨named, points, several.1, ?_, outdone, (unmatched.2.2 (.method 2)).2 refused,
    fun fits => ?_⟩
  · refine (several.2 (.method 2)).resolve_right fun outdoes => absurd outdoes.2.1 ?_
    rw [named] at points
    simp only [List.map_cons, List.cons.injEq] at points
    omega
  · obtain ⟨m, matched⟩ := unmatched.2.1.2 fits
    cases refused.symm.trans matched

end Choice

end PathTyping
