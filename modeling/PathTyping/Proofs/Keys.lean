import PathTyping.Proofs.Lockstep
import Mathlib.Logic.Relation

/-!
# What results are kept under

Results that are kept of a call answer every later call with the same key.  The key tells the type,
the constant, the bounds and the members of each argument, but not what the argument was loaded
from.  That tells nothing more as long as methods are called on instances of their class and no call
is cut off: the results of such a call look like those that following it gives with nothing but its
arguments, on no receiver and with no results kept.

1. A body that is entered with values which look alike is repeated alike
   (`MethodCall.answered_of_repeated`).
2. Wherever results that are kept can be found again by following the call, they can be after a call
   that is followed to its end (`MethodCall.settles`).
3. `results_of_key`: two calls with one key have results of the same types and constants, and so
   has whatever is kept under the key.
-/

namespace PathTyping

open Walk Value

/-! ## Calls that are followed -/

namespace MethodCall

/-- A method of a class is called on an instance of the class, if it is called on anything. -/
def OnInstance (c : MethodCall) : Prop :=
  ∀ r owner, c.receiver = some r → (c.ctx.symbols.method c.id).owner = some owner →
    r.type = c.ctx.symbols.instanceType owner

end MethodCall

namespace Analysis

/-- The results of a call that is followed to a depth with nothing but its arguments: on no
receiver, whatever is kept and whichever calls are being followed. -/
def bare : Nat → Invoke
  | 0 => fun _ _ _ _ _ => pure []
  | n + 1 => fun ctx id _ arguments _ => follow (bare n) ctx id none arguments

end Analysis

/-! ## What is kept -/

/-- The arguments are told by the key. -/
structure MemoKey.Fits (key : MemoKey) (arguments : List Value) : Prop where
  types : key.call.arguments = arguments.map Value.type
  values : key.arguments = arguments.map ValueKey.of

/-- The code that is kept is that of the bodies, and the results that are kept of a call are those
that following it gives. -/
structure Memory.Recalls (t : SymbolTable) (options : AnalysisOptions) (m : Memory) : Prop where
  faithful : m.Faithful t
  kept : ∀ key values, m.find? key = some values → ∃ arguments, key.Fits arguments ∧
    (∀ v ∈ arguments, v.Tidy t) ∧ ∀ᶠ n in Filter.atTop, Answered t options (Memory.Faithful t)
      (Analysis.bare n) key.call.method arguments values

section Keys

variable {t : SymbolTable} {options : AnalysisOptions} {m m' : Memory}

theorem inert_faithful (t : SymbolTable) : Memory.Inert (Memory.Faithful t) :=
  ⟨fun h _ => h, fun h _ => h⟩

theorem inert_recalls (t : SymbolTable) (options : AnalysisOptions) :
    Memory.Inert (Memory.Recalls t options) :=
  ⟨fun h _ => ⟨h.faithful, h.kept⟩, fun h _ => ⟨h.faithful, h.kept⟩⟩

theorem Memory.Recalls.push (h : m.Recalls t options) (call : CallKey) :
    (m.push call).Recalls t options := ⟨h.faithful, h.kept⟩

theorem Memory.Recalls.pop (h : m.Recalls t options) : m.pop.Recalls t options :=
  ⟨h.faithful, h.kept⟩

theorem Memory.Recalls.remember (h : m.Recalls t options) {key : MemoKey}
    {arguments values : List Value} (fits : key.Fits arguments)
    (tidy : ∀ v ∈ arguments, v.Tidy t)
    (answered : ∀ᶠ n in Filter.atTop, Answered t options (Memory.Faithful t) (Analysis.bare n)
      key.call.method arguments values) : (m.remember key values).Recalls t options := by
  refine ⟨h.faithful, fun other others found => ?_⟩
  by_cases same : key = other
  · subst same
    rw [Memory.find_remember_self] at found
    exact Option.some.inj found ▸ ⟨arguments, fits, tidy, answered⟩
  · exact h.kept other others (Memory.find_remember_of_ne m values same ▸ found)

theorem like_of_keys {values others : List Value} (tidy : ∀ v ∈ values, v.Tidy t)
    (tidy' : ∀ v ∈ others, v.Tidy t) (types : values.map Value.type = others.map Value.type)
    (keys : values.map ValueKey.of = others.map ValueKey.of) :
    List.Forall₂ (Like t) values others := by
  induction values generalizing others with
  | nil =>
    cases others with
    | nil => exact .nil
    | cons w rest => cases types
  | cons v values ih =>
    cases others with
    | nil => cases types
    | cons w others =>
      obtain ⟨type, types⟩ := List.cons.inj types
      obtain ⟨key, keys⟩ := List.cons.inj keys
      obtain ⟨first, rest⟩ := List.forall_mem_cons.1 tidy
      obtain ⟨first', rest'⟩ := List.forall_mem_cons.1 tidy'
      exact .cons ⟨face_eq_of_key type key, first, first'⟩ (ih rest rest' types keys)

/-- Arguments that are told by one key look alike. -/
theorem MemoKey.Fits.like {key : MemoKey} {arguments others : List Value}
    (h : key.Fits arguments) (h' : key.Fits others) (tidy : ∀ v ∈ arguments, v.Tidy t)
    (tidy' : ∀ v ∈ others, v.Tidy t) : List.Forall₂ (Like t) arguments others :=
  like_of_keys tidy tidy' (h.types.symm.trans h'.types) (h.values.symm.trans h'.values)

theorem MethodCall.fits (c : MethodCall) : c.key.Fits c.arguments := ⟨rfl, rfl⟩

theorem forall₂_symm {values others : List Value} (h : List.Forall₂ (Like t) values others) :
    List.Forall₂ (Like t) others values :=
  List.Forall₂.flip (h.imp fun _ _ like => like.symm)

theorem forall₂_trans {values others more : List Value}
    (h : List.Forall₂ (Like t) values others) (h' : List.Forall₂ (Like t) others more) :
    List.Forall₂ (Like t) values more := by
  induction h generalizing more with
  | nil => exact h'
  | cons first _ ih =>
    cases h' with
    | cons first' rest' => exact .cons (first.trans first') (ih rest')

theorem Answered.of_like {N : Memory → Prop} {answer : Invoke} {id : Nat}
    {arguments others results : List Value} (h : Answered t options N answer id others results)
    (like : List.Forall₂ (Like t) others arguments) :
    Answered t options N answer id arguments results :=
  fun ctx receiver values span m under same hm =>
    h ctx receiver values span m under (forall₂_trans like same) hm

end Keys

/-! ## Results of a body -/

section Results

variable {t : SymbolTable} {a a' : Arena} {ends : List Nat}

/-- Paths have ended alike, and what they return looks alike. -/
structure Branch.EndsLike (t : SymbolTable) (b b' : Branch) : Prop where
  termination : b.termination = b'.termination
  returned : Option.Rel (Value.Like t) b.returned b'.returned

theorem like_returned {bs bs' : List Branch} (h : List.Forall₂ (Branch.EndsLike t) bs bs') :
    List.Forall₂ (Like t) (bs.filterMap Branch.returned) (bs'.filterMap Branch.returned) := by
  induction h with
  | nil => exact .nil
  | @cons b b' bs bs' first _ ih =>
    have returned := first.returned
    rw [List.filterMap_cons, List.filterMap_cons]
    generalize b.returned = x at returned ⊢
    generalize b'.returned = y at returned ⊢
    cases returned with
    | none => exact ih
    | some like => exact .cons like ih

theorem endsLike_settled {bs bs' : List Branch} (h : List.Forall₂ (Branch.EndsLike t) bs bs') :
    List.Forall₂ (Branch.EndsLike t) (bs.filter fun b => !Resolution.isCutoff b)
      (bs'.filter fun b => !Resolution.isCutoff b) := by
  induction h with
  | nil => exact .nil
  | @cons b b' bs bs' first _ ih =>
    have same : Resolution.isCutoff b = Resolution.isCutoff b' := by
      rw [Resolution.isCutoff, Resolution.isCutoff, first.termination]
    rw [List.filter_cons, List.filter_cons, same]
    split
    · exact .cons first ih
    · exact ih

theorem like_returnsOf {bs bs' : List Branch} (h : List.Forall₂ (Branch.EndsLike t) bs bs') :
    List.Forall₂ (Like t) (Resolution.returnsOf bs) (Resolution.returnsOf bs') := by
  have settled := like_returned (endsLike_settled h)
  unfold Resolution.returnsOf
  generalize (bs.filter _).filterMap Branch.returned = vs at settled ⊢
  generalize (bs'.filter _).filterMap Branch.returned = ws at settled ⊢
  cases settled with
  | nil => exact like_returned h
  | cons first rest => exact .cons first rest

theorem Ended.endsLike (h : Ended t a a' ends) :
    List.Forall₂ (Branch.EndsLike t) (ends.filterMap a.branch?) (ends.filterMap a'.branch?) := by
  induction ends with
  | nil => exact .nil
  | cons id rest ih =>
    obtain ⟨b, b', found, found', termination, returned⟩ := h id List.mem_cons_self
    rw [List.filterMap_cons_some found, List.filterMap_cons_some found']
    exact .cons ⟨termination, returned⟩ (ih fun k hk => h k (List.mem_cons_of_mem _ hk))

theorem like_coerced (declared : Option Ty) {values others : List Value}
    (h : List.Forall₂ (Like t) values others) :
    List.Forall₂ (Like t) (values.map (Value.coerce declared))
      (others.map (Value.coerce declared)) := by
  rw [List.forall₂_map_left_iff, List.forall₂_map_right_iff]
  exact h.imp fun _ _ like => like.coerce declared

theorem Analysis.like_resultsOf (m : Method) (h : Ended t a a' ends) (code : Code) :
    List.Forall₂ (Like t) (resultsOf m ⟨a, ends, code⟩) (resultsOf m ⟨a', ends, code⟩) := by
  have distinct := like_distinct (like_coerced m.returns (like_returnsOf h.endsLike))
  unfold resultsOf Resolution.returnValues Resolution.ends
  generalize Value.distinct ((Resolution.returnsOf (ends.filterMap a.branch?)).map _) = vs
    at distinct ⊢
  generalize Value.distinct ((Resolution.returnsOf (ends.filterMap a'.branch?)).map _) = ws
    at distinct ⊢
  cases distinct with
  | nil => exact .cons (tidy_ofType _).like .nil
  | cons first rest => exact .cons first rest

end Results

/-! ## Entering -/

theorem Analysis.mapM_fresh_like {values others : List Value}
    (h : List.Forall₂ (Like t) values others) (m m' : Memory) :
    List.Forall₂ (Like t) ((values.mapM fresh).run m).1 ((others.mapM fresh).run m').1 := by
  induction h generalizing m m' with
  | nil => exact .nil
  | @cons v w _ _ first _ ih =>
    rw [List.mapM_cons, List.mapM_cons]
    exact .cons (first.place _ _) (ih (m.place v).2 (m'.place w).2)

section Enter

variable {t : SymbolTable} {options : AnalysisOptions} {L N : Memory → Prop} {s r : State}
  {scope : Scope}

theorem Arena.lineage_of_root {a : Arena} {b : Branch} (found : a.branch? 0 = some b)
    (root : b.parent = .root scope) : a.lineage 0 = [b] := by
  rw [Arena.lineage, show a.branches[0]? = some b from found]
  simp only [root]

theorem abreast_root (t : SymbolTable) (scope : Scope) :
    Abreast t 0 (Arena.empty.root scope) (Arena.empty.root scope) := by
  have found : (Arena.empty.root scope).branch? 0 = some (.fresh (.root scope) []) :=
    Arena.branch?_push_size .empty _
  have alone := Arena.lineage_of_root found rfl
  refine ⟨rfl, ⟨_, _, found, found, .nil, rfl⟩, fun slot => ?_, fun name => ?_, rfl⟩
  · rw [Arena.lookupSlot_eq alone]
    exact .none
  · rw [Arena.lookupVariable_eq alone]
    exact .none

/-- Variables of the same names have values that look alike. -/
def Bindings (t : SymbolTable) (locals others : List (String × Value)) : Prop :=
  List.Forall₂ (fun p q => p.1 = q.1 ∧ Like t p.2 q.2) locals others

theorem bindAll_agrees (inert : Memory.Inert L ∧ Memory.Inert N)
    {locals others : List (String × Value)} (h : Bindings t locals others) :
    Agrees t L N 0 (fun _ _ => True) (locals.forM fun (name, v) => Walk.bindVariable 0 name v)
      (others.forM fun (name, v) => Walk.bindVariable 0 name v) := by
  induction h with
  | nil => exact agrees_pure trivial
  | @cons p q _ _ first _ ih =>
    obtain ⟨name, v⟩ := p
    obtain ⟨name', w⟩ := q
    obtain ⟨rfl, like⟩ := first
    exact agrees_bind (bindVariable_agrees inert name like) fun _ _ _ => ih

theorem openRoot_beside (inert : Memory.Inert L ∧ Memory.Inert N)
    {locals others : List (String × Value)} (h : Bindings t locals others) {m m' : Memory}
    (left : L m) (right : N m') (opened : Gives (openRoot scope locals) (.empty, m) () s)
    (opened' : Gives (openRoot scope others) (.empty, m') () r) : Beside t L N 0 s r := by
  obtain ⟨_, s₁, planted, bound⟩ := gives_bind_iff.1 opened
  obtain rfl := gives_modify_iff.1 planted
  obtain ⟨_, r₁, planted', bound'⟩ := gives_bind_iff.1 opened'
  obtain rfl := gives_modify_iff.1 planted'
  exact (bindAll_agrees inert h ⟨abreast_root t scope, left, right⟩ bound bound').2

theorem rel_getElem? {values others : List Value} (h : List.Forall₂ (Like t) values others)
    (i : Nat) : Option.Rel (Like t) values[i]? others[i]? := by
  induction h generalizing i with
  | nil => exact .none
  | cons first _ ih =>
    cases i with
    | zero => exact .some first
    | succ i => exact ih i

/-- On an instance of its class, or on nothing, a body starts with variables that look alike. -/
theorem entryVariables_like (m : Method) {receiver receiver' : Option Value}
    (instance_ : ∀ r owner, m.owner = some owner → r ∈ receiver ∨ r ∈ receiver' →
      r.Tidy t ∧ r.type = t.instanceType owner)
    {arguments others : List Value} (h : List.Forall₂ (Like t) arguments others) :
    Bindings t (t.entryVariables m receiver arguments) (t.entryVariables m receiver' others) := by
  refine List.rel_append ?_ ?_
  · rw [boundParams, boundParams, List.forall₂_map_left_iff, List.forall₂_map_right_iff,
      List.forall₂_same]
    rintro ⟨p, i⟩ -
    exact ⟨rfl, like_bound p (rel_getElem? h i)⟩
  · unfold SymbolTable.receiver?
    cases owned : m.owner with
    | none => exact .nil
    | some owner =>
      have like {receiver : Option Value} (of : ∀ r, receiver = some r →
          r.Tidy t ∧ r.type = t.instanceType owner) :
          Like t (receiver.getD (.ofType (t.instanceType owner)))
            (.ofType (t.instanceType owner)) := by
        cases receiver with
        | none => exact (tidy_ofType _).like
        | some r =>
          obtain ⟨tidy, type⟩ := of r rfl
          have plain := tidy.plain type
          rw [type] at plain
          exact ⟨plain, tidy, tidy_ofType _⟩
      have left := like fun r given => instance_ r owner owned (.inl given)
      have right := like fun r given => instance_ r owner owned (.inr given)
      exact .cons ⟨rfl, left.trans right.symm⟩ .nil

end Enter

/-! ## Calls with one key -/

section Settles

variable {t : SymbolTable} {options : AnalysisOptions}

theorem eventually_succ {P : Nat → Prop} (h : ∀ᶠ n in Filter.atTop, P (n + 1)) :
    ∀ᶠ n in Filter.atTop, P n := by
  rwa [← Filter.map_add_atTop_eq_nat 1, Filter.eventually_map]

/-- The body of a method that is followed on one side is followed on the other. -/
theorem body_both {m m₁ m' : Memory} {id : Nat} {code? : Option Code} (h : m.Faithful t)
    (h' : m'.Faithful t) (body : (Analysis.body t id).run m = (code?, m₁)) :
    ∃ m₁', (Analysis.body t id).run m' = (code?, m₁') ∧ m₁'.Faithful t := by
  have made := Analysis.body_of_faithful h id
  rw [body] at made
  refine ⟨((Analysis.body t id).run m').2, Prod.ext ?_ rfl, Analysis.faithful_body h' id⟩
  exact (Analysis.body_of_faithful h' id).trans made.symm

theorem Memory.Recalls.body {m m₁ : Memory} {id : Nat} {code? : Option Code}
    (h : m.Recalls t options) (body : (Analysis.body t id).run m = (code?, m₁)) :
    m₁.Recalls t options := by
  obtain rfl : ((Analysis.body t id).run m).2 = m₁ := congrArg Prod.snd body
  refine ⟨Analysis.faithful_body h.faithful id, fun key values found => ?_⟩
  rw [Memory.find?, (Analysis.body_keeps t id m).1] at found
  exact h.kept key values found

theorem Analysis.leave_like {m m' : Memory} {a a' : Arena} {ends : List Nat} {code : Code}
    (ended : Ended t a a' ends) (h : m'.Faithful t) (id : Nat) (receiver receiver' : Option Value)
    (arguments others : List Value) (cutoffs cutoffs' : Nat) :
    List.Forall₂ (Like t) ((leave t id receiver arguments cutoffs ⟨a, ends, code⟩).run m).1
        ((leave t id receiver' others cutoffs' ⟨a', ends, code⟩).run m').1 ∧
      ((leave t id receiver' others cutoffs' ⟨a', ends, code⟩).run m').2.Faithful t := by
  obtain ⟨values, -⟩ := leave_run t id receiver arguments cutoffs ⟨a, ends, code⟩ m
  obtain ⟨values', after⟩ := leave_run t id receiver' others cutoffs' ⟨a', ends, code⟩ m'
  rw [values, values']
  refine ⟨mapM_fresh_like (like_resultsOf _ ended code) _ _, ?_⟩
  have left : (((resultsOf (t.method id) ⟨a', ends, code⟩).mapM fresh).run m'.pop).2.Faithful t :=
    mapM_fresh_inert (inert_faithful t) _ h
  rcases after with same | same
  · exact same ▸ left
  · exact same ▸ left

theorem Analysis.leave_recalls {id : Nat} {receiver : Option Value} {arguments : List Value}
    {cutoffs : Nat} {r : Resolution} {m : Memory} (h : m.Recalls t options)
    (tidy : ∀ v ∈ arguments, v.Tidy t)
    (answered : ∀ᶠ n in Filter.atTop, Answered t options (Memory.Faithful t) (bare n) id arguments
      ((leave t id receiver arguments cutoffs r).run m).1) :
    ((leave t id receiver arguments cutoffs r).run m).2.Recalls t options := by
  obtain ⟨values, after⟩ := leave_run t id receiver arguments cutoffs r m
  rw [values] at answered
  have left := mapM_fresh_inert (inert_recalls t options) (resultsOf (t.method id) r) h.pop
  rcases after with same | same
  · exact same ▸ left
  · exact same ▸ left.remember ⟨rfl, rfl⟩ tidy answered

/-! ### Following -/

variable {c : MethodCall}

/-- On a receiver or on none, a body starts with variables that look alike. -/
theorem MethodCall.OnInstance.bindings (on : c.OnInstance) (tidy : c.Tidy t options)
    (receiver : Option Value) (given : ∀ r, receiver = some r → c.receiver = some r)
    {others : List Value} (like : List.Forall₂ (Like t) c.arguments others) :
    Bindings t c.locals (t.entryVariables (t.method c.id) receiver others) := by
  obtain rfl := tidy.under.symbols
  have instance_ (r : Value) (owner : Nat) (owned : (c.ctx.symbols.method c.id).owner = some owner)
      (hr : c.receiver = some r) :
      r.Tidy c.ctx.symbols ∧ r.type = c.ctx.symbols.instanceType owner :=
    ⟨tidy.receiver r hr, on r owner hr owned⟩
  exact entryVariables_like _ (fun r owner owned => Or.rec (instance_ r owner owned)
    fun hr => instance_ r owner owned (given r hr)) like

/-- A method without code is answered with what it declares. -/
theorem answered_declared {m m' : Memory} {id : Nat} (faithful : m.Faithful t)
    (body : (Analysis.body t id).run m = (none, m')) (arguments : List Value) (n : Nat) :
    Answered t options (Memory.Faithful t) (Analysis.bare (n + 1)) id arguments
      [(m'.place (Analysis.declared (t.method id))).1] := by
  intro ctx receiver others span m₁ under _ faithful'
  obtain ⟨m₁', body', faithful'⟩ := body_both faithful faithful' body
  obtain rfl := under.symbols
  rw [Analysis.bare, Analysis.follow_of_none _ _ _ body']
  exact ⟨.cons ((tidy_ofType _).like.place _ _) .nil, faithful'⟩

/-- If the walk through its body is repeated alike, so is the call. -/
theorem MethodCall.answered_of_repeated {m : Memory} {code : Code} {s s' : State}
    {ends : List Nat} {n cutoffs : Nat} (tidy : c.Tidy t options) (on : c.OnInstance)
    (recalls : c.memory.Recalls t options)
    (body : (Analysis.body t c.id).run c.memory = (some code, m))
    (opened : Gives (openRoot c.scope c.locals) (.empty, m.push c.key.call) () s)
    (repeated : Repeated t options (Memory.Faithful t) (Analysis.bare n) code.steps.toArray
      (.path c.ctx 0 0) s ends s') :
    PathTyping.Answered t options (Memory.Faithful t) (Analysis.bare (n + 1)) c.id c.arguments
      ((Analysis.leave t c.id c.receiver c.arguments cutoffs ⟨s'.1, ends, code⟩).run s'.2).1 := by
  intro ctx receiver others span m' under like faithful
  obtain ⟨m₁, body', faithful⟩ := body_both recalls.faithful faithful body
  obtain rfl := under.symbols
  obtain ⟨r, ends', r', opened', walks, run⟩ :=
    Analysis.follow_of_code (Analysis.bare n) none others body'
  have scope : c.scope = ⟨some c.id, (ctx.symbols.method c.id).owner⟩ := by
    rw [MethodCall.scope, tidy.under.symbols]
  rw [scope] at opened
  have beside := openRoot_beside ⟨inert_recalls ctx.symbols options, inert_faithful ctx.symbols⟩
    (on.bindings tidy none nofun like) ((recalls.body body).push c.key.call)
    (show (m₁.push _).Faithful ctx.symbols from faithful) opened opened'
  obtain ⟨rfl, -, ended, right⟩ :=
    repeated (.path tidy.under under beside.arena) beside.right walks
  rw [Analysis.bare, run]
  exact Analysis.leave_like ended right c.id c.receiver none c.arguments others _ _

/-- A resolution whose calls are answered alike from somewhere on is repeated alike from somewhere
on. -/
theorem Analysis.resolve_repeated {ctx : Context} {locals : List (String × Value)} {m : Memory}
    (code : Code) (scope : Scope) (depth : Nat) (under : ctx.Under t options)
    (bindings : Bindings t locals locals) (recalls : m.Recalls t options)
    (calls : ∀ c : MethodCall, c.depth = depth → Raises ctx code scope locals m c →
      c.Tidy t options → c.memory.Recalls t options →
        (∀ᶠ n in Filter.atTop, c.Answered t options (Memory.Faithful t) (bare n)) ∧
          c.after.Recalls t options) :
    ∃ s ends s', Gives (openRoot scope locals) (.empty, m) () s ∧
      (resolve (Analysis.invoke depth) ctx code scope locals).run m =
        (⟨s'.1, ends, code⟩, s'.2) ∧ s'.2.Recalls t options ∧
      ∀ᶠ n in Filter.atTop, Repeated t options (Memory.Faithful t) (bare n) code.steps.toArray
        (.path ctx 0 0) s ends s' := by
  obtain ⟨s, ends, s', opened, walks, run⟩ :=
    resolve_walks (Analysis.invoke depth) ctx code scope locals m
  have inert : Memory.Inert (Memory.Recalls t options) ∧ Memory.Inert (Memory.Faithful t) :=
    ⟨inert_recalls t options, inert_faithful t⟩
  have self := openRoot_beside inert bindings recalls recalls.faithful opened opened
  obtain ⟨after, repeated⟩ := walks.abreast inert (fun _ h => h.faithful)
    (fun ctx' id' index' s₁ c leads deep issues recalls tidy =>
      calls c deep ⟨s, ctx', id', index', s₁, opened, deep.symm ▸ leads, issues⟩ tidy recalls)
    self.left (.path under under self.arena)
  exact ⟨s, ends, s', opened, run, after, repeated⟩

/-- A call that is followed is answered alike from somewhere on, if the calls in its body are. -/
theorem MethodCall.settles_of_nested {depth : Nat} (deep : c.depth = depth + 1)
    (tidy : c.Tidy t options) (uncut : c.Uncut) (on : c.OnInstance)
    (recalls : c.memory.Recalls t options) (unknown : c.memory.find? c.key = none)
    (nested : ∀ c', c.Enters c' → c'.depth = depth → c'.Tidy t options →
      c'.memory.Recalls t options →
        (∀ᶠ n in Filter.atTop, c'.Answered t options (Memory.Faithful t) (Analysis.bare n)) ∧
          c'.after.Recalls t options) :
    (∀ᶠ n in Filter.atTop, c.Answered t options (Memory.Faithful t) (Analysis.bare n)) ∧
      c.after.Recalls t options := by
  obtain rfl := tidy.under.symbols
  have entered := (uncut.followed unknown).2
  have run : (Analysis.invoke c.depth c.ctx c.id c.receiver c.arguments c.span).run c.memory =
      (Analysis.follow (Analysis.invoke depth) c.ctx c.id c.receiver c.arguments).run c.memory := by
    rw [deep]
    exact Analysis.invoke_of_new unknown entered
  rw [MethodCall.after, run]
  unfold MethodCall.Answered
  rw [MethodCall.results, run]
  rcases body : (Analysis.body c.ctx.symbols c.id).run c.memory with ⟨_ | code, m⟩
  · rw [Analysis.follow_of_none _ _ _ body]
    exact ⟨eventually_succ (.of_forall (answered_declared recalls.faithful body c.arguments)),
      (recalls.body body).faithful, (recalls.body body).kept⟩
  · have like : List.Forall₂ (Like c.ctx.symbols) c.arguments c.arguments :=
      List.forall₂_same.2 fun v hv => (tidy.arguments v hv).like
    have bindings := on.bindings tidy c.receiver (fun _ given => given) like
    obtain ⟨s, ends, s', opened, resolved, after, repeated⟩ :=
      Analysis.resolve_repeated code c.scope depth tidy.under bindings
        ((recalls.body body).push c.key.call) fun c' deep' raised tidy recalls =>
          nested c' ⟨by rw [deep, deep'], unknown, entered, code, m, body, raised⟩ deep' tidy
            recalls
    rw [MethodCall.follow_of_resolved body resolved]
    have answered : ∀ᶠ n in Filter.atTop, PathTyping.Answered c.ctx.symbols options
        (Memory.Faithful c.ctx.symbols) (Analysis.bare n) c.id c.arguments
        ((Analysis.leave c.ctx.symbols c.id c.receiver c.arguments m.cutoffs
          ⟨s'.1, ends, code⟩).run s'.2).1 :=
      eventually_succ <| repeated.mono fun n repeated =>
        answered_of_repeated tidy on recalls body opened repeated
    exact ⟨answered, Analysis.leave_recalls after tidy.arguments answered⟩

/-- Results that are kept are those that following the call gives. -/
theorem MethodCall.settles_of_kept (tidy : c.Tidy t options) (recalls : c.memory.Recalls t options)
    {values : List Value} (kept : c.memory.find? c.key = some values) :
    (∀ᶠ n in Filter.atTop, c.Answered t options (Memory.Faithful t) (Analysis.bare n)) ∧
      c.after.Recalls t options := by
  have run : (Analysis.invoke c.depth c.ctx c.id c.receiver c.arguments c.span).run c.memory =
      (values, c.memory) := Analysis.invoke_of_kept kept
  obtain ⟨arguments, fits, tidy', answered⟩ := recalls.kept _ _ kept
  rw [MethodCall.after, run]
  unfold MethodCall.Answered
  rw [MethodCall.results, run]
  have like := fits.like c.fits tidy' tidy.arguments
  exact ⟨answered.mono fun n answered => answered.of_like like, recalls⟩

/-- A call that is followed throughout, with all calls that come up, is answered alike by following
it far enough with nothing but its arguments; and so is whatever is kept after it. -/
theorem MethodCall.settles (depth : Nat) : ∀ c : MethodCall, c.depth = depth → c.Tidy t options →
    c.Uncut → c.memory.Recalls t options →
      (∀ c', Relation.ReflTransGen MethodCall.Enters c c' → c'.OnInstance) →
        (∀ᶠ n in Filter.atTop, c.Answered t options (Memory.Faithful t) (Analysis.bare n)) ∧
          c.after.Recalls t options := by
  induction depth with
  | zero =>
    intro c deep tidy uncut recalls on
    cases kept : c.memory.find? c.key with
    | some values => exact settles_of_kept tidy recalls kept
    | none => exact absurd deep (uncut.followed kept).1
  | succ depth ih =>
    intro c deep tidy uncut recalls on
    cases kept : c.memory.find? c.key with
    | some values => exact settles_of_kept tidy recalls kept
    | none =>
      exact settles_of_nested deep tidy uncut (on c .refl) recalls kept
        fun c' enters deep' tidy' recalls' => ih c' deep' tidy' (enters.uncut uncut) recalls'
          fun c'' reached => on c'' (.head enters reached)

end Settles

/-! ## One key, one answer -/

/-- Values that have one type and one constant. -/
def SameAnswer (values others : List Value) : Prop :=
  List.Forall₂ (fun v w => v.type = w.type ∧ v.constant = w.constant) values others

/-- A call with an empty memo that is followed to its end: it is made with tidy values, no call is
cut off on the way, and methods of a class are called on instances of it. -/
structure MethodCall.Whole (t : SymbolTable) (options : AnalysisOptions) (c : MethodCall) :
    Prop where
  tidy : c.Tidy t options
  empty : c.memory.results = []
  faithful : c.memory.Faithful t
  uncut : c.Uncut
  on : ∀ c', Relation.ReflTransGen MethodCall.Enters c c' → c'.OnInstance

section Whole

variable {t : SymbolTable} {options : AnalysisOptions} {c c' : MethodCall}

theorem MethodCall.Whole.settles (h : c.Whole t options) :
    (∀ᶠ n in Filter.atTop, c.Answered t options (Memory.Faithful t) (Analysis.bare n)) ∧
      c.after.Recalls t options := by
  refine MethodCall.settles c.depth c rfl h.tidy h.uncut
    ⟨h.faithful, fun key values found => ?_⟩ h.on
  rw [Memory.find?, h.empty] at found
  cases found

/-- What one procedure answers alike has the same types and constants. -/
theorem sameAnswer_of_answered {N : Memory → Prop} {answer : Invoke} {id : Nat}
    {arguments others results results' : List Value}
    (h : Answered t options N answer id arguments results)
    (h' : Answered t options N answer id others results')
    (like : List.Forall₂ (Like t) arguments others) {m : Memory} (hm : N m) :
    SameAnswer results results' := by
  have ask {results : List Value} (h : Answered t options N answer id arguments results) :=
    (h ⟨t, options, fun _ => false⟩ none arguments .absent m ⟨rfl, rfl⟩ (forall₂_left like) hm).1
  have first := ask h
  have second := ask (h'.of_like (forall₂_symm like))
  generalize ((answer _ id none arguments _).run m).1 = answers at first second
  clear h h' ask
  induction first generalizing results' with
  | nil => cases second; exact .nil
  | cons like _ ih =>
    cases second with
    | cons like' rest =>
      have face := like.face.trans like'.face.symm
      exact .cons ⟨type_of_face face, constant_of_face face⟩ (ih rest)

/-- The return memo's key is complete as long as methods of classes are called on instances of them.
Two calls with one key that are followed to their ends from an empty memo have results of the same
types and constants; and whatever one of them leaves in the memo answers every call with that key
as following it would. -/
theorem results_of_key (h : c.Whole t options) (h' : c'.Whole t options) :
    (c.key = c'.key → SameAnswer c.results c'.results) ∧
      ∀ values, c.after.find? c'.key = some values → SameAnswer values c'.results := by
  obtain ⟨answered, recalls⟩ := h.settles
  obtain ⟨answered', -⟩ := h'.settles
  refine ⟨fun same => ?_, fun values kept => ?_⟩
  · obtain ⟨n, here, there⟩ := (answered.and answered').exists
    have like := c.fits.like (same ▸ c'.fits) h.tidy.arguments h'.tidy.arguments
    have id : c.id = c'.id := congrArg (fun key => key.call.method) same
    refine sameAnswer_of_answered (m := c.memory) here ?_ like h.faithful
    rw [id]
    exact there
  · obtain ⟨arguments, fits, tidy, answered⟩ := recalls.kept _ _ kept
    obtain ⟨n, here, there⟩ := (answered.and answered').exists
    have like := fits.like c'.fits tidy h'.tidy.arguments
    exact sameAnswer_of_answered here there like h.faithful

/-- Nothing has to be known of receivers where no class has methods. -/
theorem MethodCall.onInstance_of_unowned (unowned : ∀ m ∈ c.ctx.symbols.methods, m.owner = none)
    (reached : Relation.ReflTransGen MethodCall.Enters c c') : c'.OnInstance := by
  have same : c'.ctx.symbols = c.ctx.symbols := by
    induction reached with
    | refl => rfl
    | tail _ enters ih => exact enters.symbols.trans ih
  intro r owner _ owned
  rw [same, SymbolTable.method] at owned
  cases found : c.ctx.symbols.methods[c'.id]? with
  | none => rw [found] at owned; cases owned
  | some m =>
    rw [found, Option.getD_some, unowned m (List.mem_of_getElem? found)] at owned
    cases owned

end Whole

/-! ### A string whose length was loaded before -/

/-- The length of a string, twice. -/
def lengthsText : String :=
  "fn size(s) \x7b return s.length \x7d\nfn twice(s) \x7b return size(s) + size(s) \x7d\n"

def lengths : Compilation := ((Compilation.ofText .standard lengthsText).toOption).getD default

def word : Value := .ofLiteral (.string "abc")

/-- The word, with its length kept. -/
def measured : Value :=
  word.copy.setProperty "length" ((Value.ofLiteral (.number (Float.ofNat 3))).place 1).1

def doubling (v : Value) : MethodCall where
  depth := AnalysisOptions.standard.maxCallDepth
  ctx := .outer lengths.symbols .standard
  id := 1
  receiver := none
  arguments := [v]
  span := .absent
  memory := .empty

theorem lengths_unowned : ∀ m ∈ lengths.symbols.methods, m.owner = none := by
  have unowned : lengths.symbols.methods.all (·.owner.isNone) = true := by
    have row : TokenRow.ofText lengthsText = _ := TokenRow.ofText_of_eq_ofList (by rw [lengthsText])
    rw [lengths, Compilation.ofText, Module.ofText, row]
    decide +kernel
  exact fun m hm => Option.isNone_iff_eq_none.1 (List.all_eq_true.1 unowned m hm)

theorem whole_doubling {v : Value} (tidy : v.Tidy lengths.symbols) (uncut : (doubling v).Uncut) :
    (doubling v).Whole lengths.symbols .standard where
  tidy := ⟨⟨rfl, rfl⟩, nofun, fun _ hv => List.mem_singleton.1 hv ▸ tidy⟩
  empty := rfl
  faithful := nofun
  uncut := uncut
  on _ reached := MethodCall.onInstance_of_unowned lengths_unowned reached

theorem results_of_key_measured : (doubling word).Whole lengths.symbols .standard ∧
    (doubling measured).Whole lengths.symbols .standard ∧
      (doubling word).key = (doubling measured).key ∧ word.properties.length = 0 ∧
        measured.properties.length = 1 ∧
          SameAnswer (doubling word).results (doubling measured).results := by
  obtain ⟨uncut, uncut', key⟩ : (doubling word).after.cutoffs = 0 ∧
      (doubling measured).after.cutoffs = 0 ∧ (doubling word).key = (doubling measured).key := by
    have row : TokenRow.ofText lengthsText = _ := TokenRow.ofText_of_eq_ofList (by rw [lengthsText])
    rw [doubling, doubling, lengths, Compilation.ofText, Module.ofText, row]
    decide +kernel
  have fresh := whole_doubling (tidy_ofLiteral _) uncut
  have kept := whole_doubling ((tidy_ofLiteral _).keep (tidy_ofLiteral _) rfl rfl 1) uncut'
  exact ⟨fresh, kept, key, rfl, rfl, (results_of_key fresh kept).1 key⟩

/-! ### A method that is called on its class -/

/-- A method that returns what it is called on is handed to a function that calls it: once as the
method of an instance, once as that of the class. -/
def handedText : String :=
  "class P \x7b fn m() \x7b return self \x7d \x7d\nfn call(f) \x7b return f() \x7d\n" ++
    "fn a() \x7b var p = P()\n return call(p.m) \x7d\nfn b() \x7b return call(P.m) \x7d\n"

def handed : Compilation := ((Compilation.ofText .standard handedText).toOption).getD default

/-- The function is called with the method of an object that is held. -/
def handing (object : Value) : MethodCall where
  depth := AnalysisOptions.standard.maxCallDepth
  ctx := { Context.outer handed.symbols .standard with held := (· == 1) }
  id := 1
  receiver := none
  arguments := [.ofMembers handed.symbols (some { object with label := 1 }) [.method 0]]
  span := .absent
  memory := { Memory.empty with nextLabel := 2 }

def onInstance : MethodCall := handing (.ofType (handed.symbols.instanceType 0))

def onClass : MethodCall := handing (.ofMembers handed.symbols none [.class_ 0])

theorem SameAnswer.types {values others : List Value} (h : SameAnswer values others) :
    values.map Value.type = others.map Value.type := by
  induction h with
  | nil => rfl
  | cons first _ ih => rw [List.map_cons, List.map_cons, first.1, ih]

/-- The two calls have one key, an empty memo and one stack, and nothing is cut off; but one returns
an instance and the other the class.  So what `b` is said to return depends on whether `a` was asked
before. -/
theorem results_of_key_bound :
    let ctx := Context.outer handed.symbols .standard
    (onInstance.key = onClass.key ∧ onInstance.memory.results = [] ∧ onClass.memory.results = [] ∧
        onInstance.memory.stack = onClass.memory.stack ∧ onInstance.Uncut ∧ onClass.Uncut ∧
          ¬ SameAnswer onInstance.results onClass.results) ∧
      ((Analysis.returnType ctx 3).run .empty).1 = handed.symbols.classType 0 ∧
        ((Analysis.returnType ctx 3).run ((Analysis.returnType ctx 2).run .empty).2).1 =
          handed.symbols.instanceType 0 := by
  intro ctx
  obtain ⟨key, uncut, uncut', differ, returns⟩ :
      onInstance.key = onClass.key ∧ onInstance.after.cutoffs = 0 ∧ onClass.after.cutoffs = 0 ∧
        onInstance.results.map Value.type ≠ onClass.results.map Value.type ∧
        ((Analysis.returnType ctx 3).run .empty).1 = handed.symbols.classType 0 ∧
          ((Analysis.returnType ctx 3).run ((Analysis.returnType ctx 2).run .empty).2).1 =
            handed.symbols.instanceType 0 := by
    have row : TokenRow.ofText handedText = _ :=
      TokenRow.ofText_of_eq_append (by unfold handedText; with_reducible rfl)
    dsimp only [ctx]
    rw [onInstance, onClass, handing, handing, handed, Compilation.ofText, Module.ofText, row]
    decide +kernel
  exact ⟨⟨key, rfl, rfl, rfl, uncut, uncut', fun same => differ same.types⟩, returns⟩

end PathTyping
