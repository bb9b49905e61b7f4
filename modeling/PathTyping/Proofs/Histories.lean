import PathTyping.Proofs.Keys

/-!
# Histories

One analysis answers queries one behind the other and keeps results of the calls that it has
followed.  A call may be answered from what is kept where, asked of a fresh analysis, it would be
cut off; so what a query answers can depend on what was asked before.  But it can only where a call
is cut off: results that a cutoff has gone into are not kept, and a query in which no call is cut
off is answered as by following its calls with nothing kept.

1. Whatever calls do, cut off or not, what is kept are results that following a call gives
   (`MethodCall.recalls_after`, `Query.recalls_after`).
2. Two resolutions of one code in which no call is cut off return values that look alike, whatever
   was kept before them (`Query.Entry.Whole.alike`).
3. `types_of_history`: a query for a type answers as it does when it is asked alone.
-/

namespace PathTyping

open Walk Value

/-! ## Calls that may be cut off -/

section Cut

variable {t : SymbolTable} {options : AnalysisOptions} {m m' : Memory}

namespace Analysis

/-- What was computed across a cutoff is not kept. -/
theorem leave_of_cut {id : Nat} {receiver : Option Value} {arguments : List Value} {cutoffs : Nat}
    {r : Resolution} (cut : m.cutoffs ≠ cutoffs) :
    ((leave t id receiver arguments cutoffs r).run m).2 =
      (((resultsOf (t.method id) r).mapM fresh).run m.pop).2 := by
  have inert : Memory.Inert fun m' => m'.cutoffs = m.cutoffs := ⟨fun h _ => h, fun h _ => h⟩
  have left : (((resultsOf (t.method id) r).mapM fresh).run m.pop).2.cutoffs = m.cutoffs :=
    mapM_fresh_inert inert _ rfl
  rcases out : ((resultsOf (t.method id) r).mapM fresh).run m.pop with ⟨values, m'⟩
  rw [out] at left
  rw [leave, run_bind_of_eq (x := modify Memory.pop) rfl, run_bind_of_eq out,
    run_bind_of_eq (x := get) rfl, if_neg (left.symm ▸ cut)]
  rfl

theorem cutOff_recalls (recalls : m.Recalls t options) (symbols : SymbolTable) (id : Nat)
    (span : Span) : ((cutOff symbols id span).run m).2.Recalls t options :=
  ⟨recalls.faithful, recalls.kept⟩

end Analysis

namespace MethodCall

variable {c : MethodCall}

theorem Sound.tidy (h : c.Sound t (Value.Tidy t)) (under : c.ctx.Under t options) :
    c.Tidy t options := ⟨under, h.receiver, h.arguments⟩

theorem Sound.bindings (h : c.Sound t (Value.Tidy t)) : ∀ p ∈ c.locals, p.2.Tidy t := by
  obtain rfl := h.symbols
  exact Analysis.only_entryVariables closed_tidy.toClosed _ h.receiver h.arguments

/-- A call that is followed but cut off keeps nothing, and leaves what the calls in its body leave
behind. -/
theorem recalls_of_follow {depth : Nat} (deep : c.depth = depth + 1)
    (sound : c.Sound t (Value.Tidy t)) (recalls : c.memory.Recalls t options)
    (unknown : c.memory.find? c.key = none) (entered : c.key.call ∉ c.memory.stack)
    (cut : ¬ c.Uncut)
    (nested : ∀ c', c.Enters c' → c'.Sound t (Value.Tidy t) → c'.memory.Recalls t options →
      c'.after.Recalls t options) : c.after.Recalls t options := by
  obtain rfl := sound.symbols
  have inert := inert_recalls c.ctx.symbols options
  have kept := (Analysis.body_keeps c.ctx.symbols c.id c.memory).2
  have begun := (Analysis.body_yields c.id sound.memory).2
  unfold Uncut at cut
  rw [after, deep, Analysis.invoke_of_new unknown entered] at cut ⊢
  rcases body : (Analysis.body c.ctx.symbols c.id).run c.memory with ⟨_ | code, m⟩
  · rw [Analysis.follow_of_none _ _ _ body]
    exact inert.place (recalls.body body) (Analysis.declared (c.ctx.symbols.method c.id))
  · rw [body] at kept begun
    have within := Analysis.resolve_keeps inert (fun c' deep' raised =>
      nested c' ⟨by rw [deep, deep'], unknown, entered, code, m, body, raised⟩
        (raised.sound closed_tidy.toClosed rfl sound.bindings (begun.push _)))
      ((recalls.body body).push c.key.call)
    rcases resolved : (Analysis.resolve (Analysis.invoke depth) c.ctx code c.scope c.locals).run
      (m.push c.key.call) with ⟨r, m'⟩
    rw [resolved] at within
    rw [follow_of_resolved body resolved] at cut ⊢
    rw [Analysis.leave_cutoffs, ← kept] at cut
    rw [Analysis.leave_of_cut cut]
    exact Analysis.mapM_fresh_inert inert _ within.pop

/-- A call that is cut off leaves what the calls in its body leave behind, if it has entered it. -/
theorem recalls_of_cut (sound : c.Sound t (Value.Tidy t)) (recalls : c.memory.Recalls t options)
    (cut : ¬ c.Uncut)
    (nested : ∀ c', c.Enters c' → c'.Sound t (Value.Tidy t) → c'.memory.Recalls t options →
      c'.after.Recalls t options) : c.after.Recalls t options := by
  cases kept : c.memory.find? c.key with
  | some values =>
    rw [after, Analysis.invoke_of_kept kept]
    exact recalls
  | none =>
    cases deep : c.depth with
    | zero =>
      rw [after, deep, Analysis.invoke_zero kept]
      exact Analysis.cutOff_recalls recalls _ c.id c.span
    | succ depth =>
      by_cases entered : c.key.call ∈ c.memory.stack
      · rw [after, deep, Analysis.invoke_of_entered kept entered]
        exact Analysis.cutOff_recalls recalls _ c.id c.span
      · exact recalls_of_follow deep sound recalls kept entered cut nested

/-- Whether calls are cut off on the way or not: what is kept after a call are results that
following a call gives, if that is so before it and methods of a class are called on instances of
it. -/
theorem recalls_after (depth : Nat) : ∀ c : MethodCall, c.depth = depth →
    c.ctx.options = options → c.Sound t (Value.Tidy t) → c.memory.Recalls t options →
      (∀ c', Relation.ReflTransGen Enters c c' → c'.OnInstance) → c.after.Recalls t options := by
  induction depth with
  | zero =>
    intro c deep limits sound recalls on
    by_cases uncut : c.Uncut
    · exact (settles 0 c deep (sound.tidy ⟨sound.symbols, limits⟩) uncut recalls on).2
    · refine recalls_of_cut sound recalls uncut fun c' enters => ?_
      exact absurd (deep.symm.trans enters.depth) (Nat.succ_ne_zero _).symm
  | succ depth ih =>
    intro c deep limits sound recalls on
    by_cases uncut : c.Uncut
    · exact (settles _ c deep (sound.tidy ⟨sound.symbols, limits⟩) uncut recalls on).2
    · refine recalls_of_cut sound recalls uncut fun c' enters sound' recalls' => ?_
      have deeper : c'.depth = depth := Nat.succ.inj (enters.depth.symm.trans deep)
      exact ih c' deeper (enters.options.trans limits) sound' recalls' fun c'' reached =>
        on c'' (.head enters reached)

end MethodCall

end Cut

/-! ## Queries -/

/-- What an analysis can be asked. -/
inductive Query
  | body (id : Nat)
  | resolveMethod (id : Nat)
  | returnType (id : Nat)
  | typeAt (id : Nat) (span : Span)
  | resolveCode (code : Code) (scope : Scope)
  | typeOfExpression (e : Expr) (scope : Scope)

namespace Query

/-- The method that the query is about, if it is about one. -/
def method? : Query → Option Nat
  | body id | resolveMethod id | returnType id | typeAt id _ => some id
  | resolveCode _ _ | typeOfExpression _ _ => none

/-- Where the paths of a query begin: the code, its scope, and what is remembered there. -/
structure Entry where
  code : Code
  scope : Scope
  memory : Memory

/-- Where the paths of the query begin, if there is code for it. -/
def opens? (ctx : Context) (m : Memory) : Query → Option Entry
  | body _ => none
  | resolveMethod id | returnType id | typeAt id _ =>
    let (code?, m) := (Analysis.body ctx.symbols id).run m
    code?.map fun code =>
      ⟨code, ⟨some id, (ctx.symbols.method id).owner⟩, m.push (Analysis.openCall ctx.symbols id)⟩
  | resolveCode code scope => some ⟨code, scope, m⟩
  | typeOfExpression e scope => e.toCode.toOption.map fun code => ⟨code, scope, m⟩

/-- What is remembered after the query. -/
def after (ctx : Context) (m : Memory) : Query → Memory
  | body id => ((Analysis.body ctx.symbols id).run m).2
  | resolveMethod id => ((Analysis.resolveMethod ctx id).run m).2
  | returnType id => ((Analysis.returnType ctx id).run m).2
  | typeAt id span => ((Analysis.typeAt ctx id span).run m).2
  | resolveCode code scope => ((Analysis.resolveCode ctx code scope).run m).2
  | typeOfExpression e scope => ((Analysis.typeOfExpression ctx e scope).run m).2

namespace Entry

/-- What the paths come to. -/
def resolution (ctx : Context) (e : Entry) : Resolution × Memory :=
  (Analysis.resolve (Analysis.calls ctx e.memory) ctx e.code e.scope
    (ctx.symbols.scopeVariables e.scope)).run e.memory

/-- The call comes up on one of the paths, or in the body of a call that is followed. -/
def Makes (ctx : Context) (e : Entry) (c : MethodCall) : Prop :=
  ∃ outer : MethodCall, outer.depth = ctx.options.maxCallDepth - e.memory.stack.length ∧
    Raises ctx e.code e.scope (ctx.symbols.scopeVariables e.scope) e.memory outer ∧
      Relation.ReflTransGen MethodCall.Enters outer c

/-- No call is cut off, and methods of a class are called on instances of it. -/
structure Whole (ctx : Context) (e : Entry) : Prop where
  uncut : (e.resolution ctx).2.cutoffs = e.memory.cutoffs
  on : ∀ c, e.Makes ctx c → c.OnInstance

end Entry

/-- Methods of a class are called on instances of it, in the query and in the bodies of calls that
are followed. -/
def OnInstances (ctx : Context) (m : Memory) (q : Query) : Prop :=
  ∀ e c, q.opens? ctx m = some e → e.Makes ctx c → c.OnInstance

/-- No call is cut off in the query, and methods of a class are called on instances of it. -/
structure Whole (ctx : Context) (m : Memory) (q : Query) : Prop where
  uncut : (q.after ctx m).cutoffs = m.cutoffs
  on : q.OnInstances ctx m

/-- What is remembered after queries that are asked one behind the other. -/
def history (ctx : Context) (m : Memory) : List Query → Memory
  | [] => m
  | q :: rest => history ctx (q.after ctx m) rest

/-- Methods of a class are called on instances of it, in all of the queries. -/
def AllOnInstances (ctx : Context) (m : Memory) : List Query → Prop
  | [] => True
  | q :: rest => q.OnInstances ctx m ∧ AllOnInstances ctx (q.after ctx m) rest

end Query

/-! ### Resolutions without cutoffs -/

namespace Query.Entry

variable {ctx : Context} {e e' : Entry}

theorem scopeVariables_bindings (t : SymbolTable) (scope : Scope) :
    Bindings t (t.scopeVariables scope) (t.scopeVariables scope) :=
  List.forall₂_same.2 fun p hp =>
    ⟨rfl, (Analysis.only_scopeVariables closed_tidy scope p hp).like⟩

/-- Without a cutoff, a resolution is repeated alike by following its calls far enough with nothing
kept. -/
theorem Whole.repeated (whole : e.Whole ctx) (recalls : e.memory.Recalls ctx.symbols ctx.options) :
    ∃ s ends s',
      Gives (openRoot e.scope (ctx.symbols.scopeVariables e.scope)) (.empty, e.memory) () s ∧
      e.resolution ctx = (⟨s'.1, ends, e.code⟩, s'.2) ∧
        ∀ᶠ n in Filter.atTop, Repeated ctx.symbols ctx.options (Memory.Faithful ctx.symbols)
          (Analysis.bare n) e.code.steps.toArray (.path ctx 0 0) s ends s' := by
  obtain ⟨s, ends, s', opened, run, -, repeated⟩ := Analysis.resolve_repeated e.code e.scope
    (ctx.options.maxCallDepth - e.memory.stack.length) ⟨rfl, rfl⟩
    (scopeVariables_bindings ctx.symbols e.scope) recalls fun c deep raised tidy recalls => by
      refine MethodCall.settles c.depth c rfl tidy ?_ recalls fun c' reached =>
        whole.on c' ⟨c, deep, raised, reached⟩
      obtain ⟨before, behind⟩ := raised.inside abides_notFewer
      have during : NotFewer c.memory c.after :=
        (abides_notFewer.passes c.depth).invoke _ _ _ _ _ _
      have uncut := whole.uncut
      rw [deep] at behind
      unfold NotFewer at before behind during
      exact Nat.le_antisymm (behind.trans (uncut.trans_le before)) during
  exact ⟨s, ends, s', opened, run, repeated⟩

/-- Two resolutions of one code without a cutoff end on the same branches and return values that
look alike, whatever was kept before them. -/
theorem Whole.alike (whole : e.Whole ctx) (whole' : e'.Whole ctx)
    (recalls : e.memory.Recalls ctx.symbols ctx.options)
    (recalls' : e'.memory.Recalls ctx.symbols ctx.options) (code : e'.code = e.code)
    (scope : e'.scope = e.scope) :
    (e.resolution ctx).1.terminals = (e'.resolution ctx).1.terminals ∧
      List.Forall₂ (Like ctx.symbols) (e.resolution ctx).1.returnValues
        (e'.resolution ctx).1.returnValues := by
  obtain ⟨s, ends, s', opened, run, repeated⟩ := whole.repeated recalls
  obtain ⟨r, ends', r', opened', run', repeated'⟩ := whole'.repeated recalls'
  rw [scope] at opened'
  rw [code] at repeated'
  obtain ⟨n, once, twice⟩ := (repeated.and repeated').exists
  -- Both are compared with one walk that has nothing kept.
  obtain ⟨q, others, q', opened'', walks, -⟩ := resolve_walks (Analysis.bare n) ctx e.code e.scope
    (ctx.symbols.scopeVariables e.scope) e.memory
  have inert : Memory.Inert (Memory.Recalls ctx.symbols ctx.options) ∧
      Memory.Inert (Memory.Faithful ctx.symbols) := ⟨inert_recalls _ _, inert_faithful _⟩
  have bindings := scopeVariables_bindings ctx.symbols e.scope
  have beside := openRoot_beside inert bindings recalls recalls.faithful opened opened''
  have beside' := openRoot_beside inert bindings recalls' recalls.faithful opened' opened''
  obtain ⟨rfl, -, ended, -⟩ :=
    once (.path ⟨rfl, rfl⟩ ⟨rfl, rfl⟩ beside.arena) beside.right walks
  obtain ⟨rfl, -, ended', -⟩ :=
    twice (.path ⟨rfl, rfl⟩ ⟨rfl, rfl⟩ beside'.arena) beside'.right walks
  rw [run, run']
  refine ⟨rfl, ?_⟩
  exact forall₂_trans (like_returnsOf ended.endsLike)
    (forall₂_symm (like_returnsOf ended'.endsLike))

end Query.Entry

/-! ### What is remembered -/

namespace Query

variable {ctx : Context} {m : Memory} {q : Query} {e : Entry}

/-- Code that is asked for is kept, and a method that is asked for is entered. -/
theorem entered (h : q.opens? ctx m = some e) :
    e.memory = m ∨ ∃ id code? m' call,
      (Analysis.body ctx.symbols id).run m = (code?, m') ∧ e.memory = m'.push call := by
  cases q with
  | body id => cases h
  | resolveMethod id | returnType id | typeAt id =>
    obtain ⟨code, -, rfl⟩ := Option.map_eq_some_iff.1 h
    exact .inr ⟨id, _, _, _, rfl, rfl⟩
  | resolveCode code scope => cases h; exact .inl rfl
  | typeOfExpression e scope =>
    obtain ⟨code, -, rfl⟩ := Option.map_eq_some_iff.1 h
    exact .inl rfl

theorem Entry.cutoffs (h : q.opens? ctx m = some e) : e.memory.cutoffs = m.cutoffs := by
  rcases entered h with same | ⟨id, code?, m', call, body, same⟩
  · rw [same]
  · have kept := (Analysis.body_keeps ctx.symbols id m).2
    rw [body] at kept
    rw [same]
    exact kept

theorem Entry.recalls (h : q.opens? ctx m = some e)
    (recalls : m.Recalls ctx.symbols ctx.options) :
    e.memory.Recalls ctx.symbols ctx.options := by
  rcases entered h with same | ⟨id, code?, m', call, body, same⟩
  · rwa [same]
  · rw [same]
    exact (recalls.body body).push call

theorem Entry.sound {K : Value → Prop} (h : q.opens? ctx m = some e)
    (sound : m.Sound ctx.symbols K) : e.memory.Sound ctx.symbols K := by
  rcases entered h with same | ⟨id, code?, m', call, body, same⟩
  · rwa [same]
  · have kept := (Analysis.body_yields id sound).2
    rw [body] at kept
    rw [same]
    exact kept.push call

/-- A query for a method resolves its code. -/
theorem resolveMethod_of_entry {id : Nat} (h : (resolveMethod id).opens? ctx m = some e) :
    (Analysis.resolveMethod ctx id).run m =
      ((e.resolution ctx).1, (e.resolution ctx).2.pop) := by
  obtain ⟨code, found, rfl⟩ := Option.map_eq_some_iff.1 h
  exact Analysis.resolveMethod_of_code (Prod.ext found rfl)

theorem resolveMethod_of_none {id : Nat} (h : (resolveMethod id).opens? ctx m = none) :
    (Analysis.resolveMethod ctx id).run m =
      (.empty, ((Analysis.body ctx.symbols id).run m).2) := by
  have missing : ((Analysis.body ctx.symbols id).run m).1 = none := Option.map_eq_none_iff.1 h
  rcases out : (Analysis.body ctx.symbols id).run m with ⟨code?, m'⟩
  rw [out] at missing
  obtain rfl : code? = none := missing
  rw [Analysis.resolveMethod, Analysis.run_bind_of_eq out]
  rfl

/-- What a method is said to return, by the resolution of its code. -/
def answer (method : Method) (r : Resolution) : Ty :=
  if r.terminals.isEmpty then .any
  else .join (r.returnValues.map fun v => (v.coerce method.returns).type)

theorem returnType_run (ctx : Context) (id : Nat) (m : Memory) :
    (Analysis.returnType ctx id).run m =
      (answer (ctx.symbols.method id) ((Analysis.resolveMethod ctx id).run m).1,
        ((Analysis.resolveMethod ctx id).run m).2) := by
  rcases out : (Analysis.resolveMethod ctx id).run m with ⟨r, m'⟩
  rw [Analysis.returnType, Analysis.run_bind_of_eq out, answer]
  dsimp only
  split <;> rfl

theorem typeOfExpression_run {x : Expr} {code : Code} (lowers : x.toCode = .ok code)
    (scope : Scope) (ctx : Context) (m : Memory) :
    (Analysis.typeOfExpression ctx x scope).run m =
      ((Entry.resolution ctx ⟨code, scope, m⟩).1.returnType,
        (Entry.resolution ctx ⟨code, scope, m⟩).2) := by
  rw [Analysis.typeOfExpression, lowers]
  rfl

theorem after_of_entry (h : q.opens? ctx m = some e) :
    q.after ctx m = (e.resolution ctx).2 ∨ q.after ctx m = (e.resolution ctx).2.pop := by
  cases q with
  | body id => cases h
  | resolveMethod id => exact .inr (congrArg Prod.snd (resolveMethod_of_entry h))
  | returnType id =>
    right
    rw [after, returnType_run]
    exact congrArg Prod.snd (resolveMethod_of_entry h)
  | typeAt id => exact .inr (congrArg Prod.snd (resolveMethod_of_entry h))
  | resolveCode code scope => cases h; exact .inl rfl
  | typeOfExpression x scope =>
    obtain ⟨code, lowers, rfl⟩ := Option.map_eq_some_iff.1 h
    left
    cases made : x.toCode with
    | error fault => rw [made] at lowers; cases lowers
    | ok code' =>
      rw [made] at lowers
      cases lowers
      exact congrArg Prod.snd (typeOfExpression_run made scope ctx m)

/-- A query that has no code to resolve has asked for it. -/
theorem after_of_unopened (h : q.opens? ctx m = none) :
    (∃ id, q.method? = some id ∧ q.after ctx m = ((Analysis.body ctx.symbols id).run m).2) ∨
      ∃ x scope fault, q = .typeOfExpression x scope ∧ x.toCode = .error fault ∧
        q.after ctx m = m.add ⟨some .lowering, .error, fault.message, some fault.span⟩ := by
  cases q with
  | body id => exact .inl ⟨id, rfl, rfl⟩
  | resolveMethod id | typeAt id =>
    exact .inl ⟨id, rfl, congrArg Prod.snd (resolveMethod_of_none h)⟩
  | returnType id =>
    refine .inl ⟨id, rfl, ?_⟩
    rw [after, returnType_run]
    exact congrArg Prod.snd (resolveMethod_of_none h)
  | resolveCode code scope => cases h
  | typeOfExpression x scope =>
    cases made : x.toCode with
    | error fault =>
      refine .inr ⟨x, scope, fault, rfl, made, ?_⟩
      rw [after, Analysis.typeOfExpression_of_error scope made]
      rfl
    | ok code => rw [opens?, made] at h; cases h

/-- A query for which there is no code makes no call. -/
theorem after_of_none (h : q.opens? ctx m = none) :
    (∃ id, q.after ctx m = ((Analysis.body ctx.symbols id).run m).2) ∨
      ∃ d, q.after ctx m = m.add d :=
  (after_of_unopened h).imp (fun ⟨id, _, after⟩ => ⟨id, after⟩)
    fun ⟨_, _, _, _, _, after⟩ => ⟨_, after⟩

theorem asked_after (h : Asked ctx m) (q : Query) : Asked ctx (q.after ctx m) := by
  cases q with
  | body id => exact .body id h
  | resolveMethod id => exact .resolveMethod id h
  | returnType id => exact .returnType id h
  | typeAt id span => exact .typeAt id span h
  | resolveCode code scope => exact .resolveCode code scope h
  | typeOfExpression e scope => exact .typeOfExpression e scope h

/-- What is kept after a query are results that following a call gives, whether calls were cut off
in it or not. -/
theorem recalls_after (asked : Asked ctx m) (recalls : m.Recalls ctx.symbols ctx.options)
    (on : q.OnInstances ctx m) : (q.after ctx m).Recalls ctx.symbols ctx.options := by
  cases found : q.opens? ctx m with
  | none =>
    rcases after_of_none found with ⟨id, same⟩ | ⟨d, same⟩
    · exact same ▸ recalls.body rfl
    · exact same ▸ (inert_recalls _ _).add recalls d
  | some e =>
    have sound := Entry.sound found (asked.sound closed_tidy)
    have left : (e.resolution ctx).2.Recalls ctx.symbols ctx.options :=
      Analysis.resolve_keeps (inert_recalls _ _) (fun c deep raised hm =>
        MethodCall.recalls_after c.depth c rfl raised.context.2
          (raised.sound closed_tidy.toClosed rfl (Analysis.only_scopeVariables closed_tidy _) sound) hm
            fun c' reached => on e c' found ⟨c, deep, raised, reached⟩)
        (Entry.recalls found recalls)
    rcases after_of_entry found with same | same
    · exact same ▸ left
    · exact same ▸ left.pop

theorem recalls_history {earlier : List Query} (asked : Asked ctx m)
    (recalls : m.Recalls ctx.symbols ctx.options) (on : AllOnInstances ctx m earlier) :
    (history ctx m earlier).Recalls ctx.symbols ctx.options := by
  induction earlier generalizing m with
  | nil => exact recalls
  | cons q rest ih =>
    exact ih (asked_after asked q) (recalls_after asked recalls on.1) on.2

/-- A query without a cutoff resolves its code without one. -/
theorem Whole.entry (whole : q.Whole ctx m) (h : q.opens? ctx m = some e) : e.Whole ctx := by
  refine ⟨?_, fun c made => whole.on e c h made⟩
  rw [Entry.cutoffs h, ← whole.uncut]
  rcases after_of_entry h with same | same
  · rw [same]
  · rw [same]
    rfl

/-! ### What is answered -/

theorem opens?_of_faithful (faithful : m.Faithful ctx.symbols) (id : Nat) :
    (resolveMethod id).opens? ctx m =
      (ctx.symbols.method id).decl.toCode.toOption.map fun code =>
        ⟨code, ⟨some id, (ctx.symbols.method id).owner⟩,
          ((Analysis.body ctx.symbols id).run m).2.push (Analysis.openCall ctx.symbols id)⟩ := by
  rw [← Analysis.body_of_faithful faithful id]
  rfl

theorem answer_alike {t : SymbolTable} (method : Method) {r r' : Resolution}
    (terminals : r.terminals = r'.terminals)
    (like : List.Forall₂ (Like t) r.returnValues r'.returnValues) :
    answer method r = answer method r' := by
  have types := types_of_like (like_coerced method.returns like)
  rw [List.map_map, List.map_map] at types
  unfold answer
  rw [terminals]
  exact congrArg (if r'.terminals.isEmpty then Ty.any else Ty.join ·) types

/-- Whatever is kept, a query for what a method returns answers the same if no call is cut off. -/
theorem returnType_alike {m' : Memory} {id : Nat} (whole : (returnType id).Whole ctx m)
    (whole' : (returnType id).Whole ctx m') (recalls : m.Recalls ctx.symbols ctx.options)
    (recalls' : m'.Recalls ctx.symbols ctx.options) :
    ((Analysis.returnType ctx id).run m).1 = ((Analysis.returnType ctx id).run m').1 := by
  have found := opens?_of_faithful recalls.faithful id
  have found' := opens?_of_faithful recalls'.faithful id
  rw [returnType_run, returnType_run]
  cases lowers : (ctx.symbols.method id).decl.toCode.toOption with
  | none =>
    rw [lowers] at found found'
    rw [resolveMethod_of_none found, resolveMethod_of_none found']
  | some code =>
    rw [lowers] at found found'
    rw [resolveMethod_of_entry found, resolveMethod_of_entry found']
    obtain ⟨terminals, like⟩ := (whole.entry found).alike (whole'.entry found')
      (Entry.recalls found recalls) (Entry.recalls found' recalls') rfl rfl
    exact answer_alike _ terminals like

/-- Whatever is kept, a query for what an expression is answers the same if no call is cut off. -/
theorem typeOfExpression_alike {m' : Memory} {x : Expr} {scope : Scope}
    (whole : (typeOfExpression x scope).Whole ctx m)
    (whole' : (typeOfExpression x scope).Whole ctx m')
    (recalls : m.Recalls ctx.symbols ctx.options)
    (recalls' : m'.Recalls ctx.symbols ctx.options) :
    ((Analysis.typeOfExpression ctx x scope).run m).1 =
      ((Analysis.typeOfExpression ctx x scope).run m').1 := by
  cases lowers : x.toCode with
  | error fault =>
    rw [Analysis.typeOfExpression_of_error scope lowers]
    rfl
  | ok code =>
    rw [typeOfExpression_run lowers, typeOfExpression_run lowers]
    have found (m : Memory) : (typeOfExpression x scope).opens? ctx m = some ⟨code, scope, m⟩ := by
      rw [opens?, lowers]
      rfl
    obtain ⟨-, like⟩ := (whole.entry (found m)).alike (whole'.entry (found m')) recalls recalls'
      rfl rfl
    exact congrArg Ty.join (types_of_like like)

/-! ### Compilations -/

/-- What a compilation asks, one method behind the other. -/
def summarized (ids : List Nat) : List Query := ids.flatMap fun id => [returnType id, body id]

/-- The summary of a method tells what it returns when the methods before it have been asked. -/
theorem returns_of_mem {ids : List Nat} {summary : Summary}
    (h : summary ∈ ((ids.mapM (Analysis.summary ctx)).run m).1) :
    ∃ before after, ids = before ++ summary.id :: after ∧ summary.returns =
      ((Analysis.returnType ctx summary.id).run (history ctx m (summarized before))).1 := by
  induction ids generalizing m with
  | nil => cases h
  | cons id rest ih =>
    rw [List.mapM_cons] at h
    rcases List.mem_cons.1 h with rfl | h
    · exact ⟨[], rest, rfl, rfl⟩
    · obtain ⟨before, after, rfl, returns⟩ := ih h
      exact ⟨id :: before, after, rfl, returns⟩

theorem returns_of_mem_summaries (ctx : Context) (m : Memory) {summary : Summary}
    (h : summary ∈ ((Analysis.summaries ctx).run m).1) : summary.returns =
      ((Analysis.returnType ctx summary.id).run
        (history ctx m (summarized (List.range summary.id)))).1 := by
  obtain ⟨before, after, ids, returns⟩ := returns_of_mem h
  have at_ : (List.range ctx.symbols.methods.length)[before.length]? = some summary.id := by
    rw [ids, List.getElem?_append_right (Nat.le_refl _), Nat.sub_self, List.getElem?_cons_zero]
  obtain ⟨inside, same⟩ := List.getElem?_eq_some_iff.1 at_
  rw [List.getElem_range] at same
  rw [List.length_range] at inside
  have front : (List.range ctx.symbols.methods.length).take before.length = before := by
    rw [ids, List.take_left]
  rw [List.take_range, Nat.min_eq_left (Nat.le_of_lt inside), same] at front
  rwa [front]

end Query

/-- Between queries, an analysis keeps nothing but results that following a call gives, so a query
for a type answers as it does when it is asked alone, whatever was asked before, as long as it cuts
off no call either way and methods of classes are called on instances of them.  So what a
compilation says that a method returns is what the method returns when nothing else is asked. -/
theorem types_of_history :
    (∀ (ctx : Context) (earlier : List Query), Query.AllOnInstances ctx .empty earlier →
      let m := Query.history ctx .empty earlier
      (∀ id, (Query.returnType id).Whole ctx m → (Query.returnType id).Whole ctx .empty →
        ((Analysis.returnType ctx id).run m).1 = ((Analysis.returnType ctx id).run .empty).1) ∧
      ∀ e scope, (Query.typeOfExpression e scope).Whole ctx m →
        (Query.typeOfExpression e scope).Whole ctx .empty →
          ((Analysis.typeOfExpression ctx e scope).run m).1 =
            ((Analysis.typeOfExpression ctx e scope).run .empty).1) ∧
    ∀ options module read,
      let c := Compilation.ofModule options module read
      let ctx := Context.outer c.symbols options
      ∀ s ∈ c.summaries,
        let before := Query.summarized (List.range s.id)
        Query.AllOnInstances ctx .empty before →
          (Query.returnType s.id).Whole ctx (Query.history ctx .empty before) →
            (Query.returnType s.id).Whole ctx .empty →
              s.returns = ((Analysis.returnType ctx s.id).run .empty).1 := by
  have start (ctx : Context) : Memory.empty.Recalls ctx.symbols ctx.options := ⟨nofun, nofun⟩
  have recalls (ctx : Context) (earlier : List Query)
      (on : Query.AllOnInstances ctx .empty earlier) :
      (Query.history ctx .empty earlier).Recalls ctx.symbols ctx.options :=
    Query.recalls_history .start (start ctx) on
  refine ⟨fun ctx earlier on => ⟨fun id whole alone => ?_, fun e scope whole alone => ?_⟩,
    fun options module read => ?_⟩
  · exact Query.returnType_alike whole alone (recalls ctx earlier on) (start ctx)
  · exact Query.typeOfExpression_alike whole alone (recalls ctx earlier on) (start ctx)
  · intro c ctx s hs before on whole alone
    rw [Query.returns_of_mem_summaries ctx .empty hs]
    exact Query.returnType_alike whole alone (recalls ctx before on) (start ctx)

/-! ### Functions that call one another -/

section Unowned

variable {ctx : Context}

theorem Query.onInstances_of_unowned (unowned : ∀ m ∈ ctx.symbols.methods, m.owner = none)
    (m : Memory) (q : Query) : q.OnInstances ctx m := by
  rintro e c - ⟨outer, -, raised, reached⟩
  rw [← raised.context.1] at unowned
  exact MethodCall.onInstance_of_unowned unowned reached

theorem Query.allOnInstances_of_unowned (unowned : ∀ m ∈ ctx.symbols.methods, m.owner = none)
    (earlier : List Query) : ∀ m, AllOnInstances ctx m earlier := by
  induction earlier with
  | nil => exact fun _ => trivial
  | cons q rest ih => exact fun m => ⟨onInstances_of_unowned unowned m q, ih _⟩

end Unowned

/-- What a method is said to return by an analysis that was asked before what others return. -/
def Context.returnsAfter (ctx : Context) (ids : List Nat) (id : Nat) : Ty :=
  ((Analysis.returnType ctx id).run (Query.history ctx .empty (ids.map .returnType))).1

/-- Each function calls the one before it. -/
def towerText : String := "
  fn leaf() \x7b return 1 \x7d
  fn mid() \x7b return leaf() \x7d
  fn top() \x7b return mid() \x7d
"

def tower (options : AnalysisOptions) : Compilation :=
  ((Compilation.ofText options towerText).toOption).getD default

/-- `mid()`, as an expression of its own. -/
def callOfMid : Expr := .call .absent (.name .absent "mid") []

/-- Of the three functions the last is asked about when the results of the first are kept, and a
call of the second when the last was asked about; the answers are those of a fresh analysis.  So is
what the compilation says of the last. -/
theorem types_of_history_tower :
    let c := tower .standard
    let ctx := Context.outer c.symbols .standard
    let m := Query.history ctx .empty [.returnType 1, .body 2]
    let m' := Query.history ctx .empty [.resolveMethod 2]
    Compilation.ofText .standard towerText = .ok c ∧ m.results.length = 1 ∧ m'.results.length = 2 ∧
      ((Analysis.returnType ctx 2).run m).1 = ((Analysis.returnType ctx 2).run .empty).1 ∧
      ((Analysis.typeOfExpression ctx callOfMid .module).run m').1 =
        ((Analysis.typeOfExpression ctx callOfMid .module).run .empty).1 ∧
      ∃ s ∈ c.summaries, s.id = 2 ∧ s.returns = ((Analysis.returnType ctx 2).run .empty).1 ∧
        s.returns = .number := by
  intro c ctx m m'
  obtain ⟨⟨read, functions, listed, kept, kept', number⟩, ⟨fresh, later, last⟩, alone, called⟩ :
      ((Compilation.ofText .standard towerText).toOption.isSome = true ∧
          ctx.symbols.methods.all (·.owner.isNone) = true ∧ 2 ∈ c.summaries.map Summary.id ∧
          m.results.length = 1 ∧ m'.results.length = 2 ∧
          ((Analysis.returnType ctx 2).run .empty).1 = .number) ∧
        (((Query.returnType 2).after ctx .empty).cutoffs = 0 ∧
          ((Query.returnType 2).after ctx m).cutoffs = m.cutoffs ∧
          let asked := Query.history ctx .empty (Query.summarized (List.range 2))
          ((Query.returnType 2).after ctx asked).cutoffs = asked.cutoffs) ∧
        ((Query.typeOfExpression callOfMid .module).after ctx .empty).cutoffs = 0 ∧
          ((Query.typeOfExpression callOfMid .module).after ctx m').cutoffs = m'.cutoffs := by
    have row : TokenRow.ofText towerText = _ := TokenRow.ofText_of_eq_ofList (by rw [towerText])
    dsimp only [c, ctx, m, m']
    rw [tower, Compilation.ofText, Module.ofText, row]
    decide +kernel
  have built : Compilation.ofText .standard towerText = .ok c := eq_ok_of_isSome read
  have unowned : ∀ m ∈ ctx.symbols.methods, m.owner = none := fun m hm =>
    Option.isNone_iff_eq_none.1 (List.all_eq_true.1 functions m hm)
  have on := Query.allOnInstances_of_unowned unowned
  have single := Query.onInstances_of_unowned unowned
  obtain ⟨queries, compilations⟩ := types_of_history
  obtain ⟨module, report, -, same⟩ := Compilation.exists_module built
  obtain ⟨s, hs, third⟩ := List.mem_map.1 listed
  have told : s.returns = ((Analysis.returnType ctx 2).run .empty).1 := by
    have told := compilations .standard module report
    rw [← same] at told
    have told := told s hs (on _ _)
    rw [third] at told
    exact told ⟨last, single _ _⟩ ⟨fresh, single _ _⟩
  refine ⟨built, kept, kept', ?_, ?_, s, hs, third, told, told.trans number⟩
  · exact (queries ctx _ (on _ _)).1 2 ⟨later, single _ _⟩ ⟨fresh, single _ _⟩
  · exact (queries ctx _ (on _ _)).2 callOfMid .module ⟨called, single _ _⟩ ⟨alone, single _ _⟩

/-! ### Answers that depend on what is kept -/

def shallow (calls : Nat) : AnalysisOptions := ⟨.symmetric, calls, 4096⟩

/-- A function that calls what it is given is called in such a call with another function. -/
def knotText : String := "
  fn apply(f) \x7b return f() \x7d
  fn one() \x7b return apply(two) \x7d
  fn two() \x7b return 1 \x7d
  fn pre() \x7b return apply(two) \x7d
  fn main() \x7b return apply(one) \x7d
"

def knot : Compilation := ((Compilation.ofText .standard knotText).toOption).getD default

/-- A method is called on an object that is held, in one function, and on one that is not held any
more, in another. -/
def looseText : String := "
  class P \x7b fn m() \x7b return 1 \x7d \x7d
  fn get() \x7b var p = P()
    return p.m \x7d
  fn call(f) \x7b return f() \x7d
  fn pre() \x7b return call(get()) \x7d
  fn far(p) \x7b return near(p) \x7d
  fn near(p) \x7b return p.m() \x7d
  fn main() \x7b var p = P()
    call(p.m)
    return far(p) \x7d
"

def loose : Compilation := ((Compilation.ofText (shallow 3) looseText).toOption).getD default

/-- What was asked before decides which calls are cut off, and so what is answered.  Where two calls
may be followed, the last function of the tower returns a number only if the second was asked about
before.  However many may be followed, a call that comes up inside of one that it is not told from
is followed only if its results are kept.  And a query that cuts off no call when it is asked alone
may cut one off later: where results are kept, those are not computed that would have been kept on
the way to them.  With no call cut off, a method that is called on its class is not told from one
that is called on an instance if a value carries what it is called on. -/
theorem types_of_history_differ :
    (Compilation.ofText (shallow 2) towerText = .ok (tower (shallow 2)) ∧
        (Context.outer (tower (shallow 2)).symbols (shallow 2)).returnsAfter [] 2 = .any ∧
        (Context.outer (tower (shallow 2)).symbols (shallow 2)).returnsAfter [1] 2 = .number) ∧
      (Compilation.ofText .standard knotText = .ok knot ∧
        (Context.outer knot.symbols .standard).returnsAfter [] 4 = .any ∧
        (Context.outer knot.symbols .standard).returnsAfter [3] 4 = .number) ∧
      (Compilation.ofText (shallow 3) looseText = .ok loose ∧
        (Context.outer loose.symbols (shallow 3)).returnsAfter [] 6 = .number ∧
        (Context.outer loose.symbols (shallow 3)).returnsAfter [3] 6 = .any) ∧
      Compilation.ofText .standard handedText = .ok handed ∧
        (Context.outer handed.symbols .standard).returnsAfter [] 3 = handed.symbols.classType 0 ∧
        (Context.outer handed.symbols .standard).returnsAfter [2] 3 =
          handed.symbols.instanceType 0 := by
  have ofTower : (Compilation.ofText (shallow 2) towerText).toOption.isSome = true ∧
      (Context.outer (tower (shallow 2)).symbols (shallow 2)).returnsAfter [] 2 = .any ∧
      (Context.outer (tower (shallow 2)).symbols (shallow 2)).returnsAfter [1] 2 = .number := by
    have row : TokenRow.ofText towerText = _ := TokenRow.ofText_of_eq_ofList (by rw [towerText])
    rw [tower, Compilation.ofText, Module.ofText, row]
    decide +kernel
  have ofKnot : (Compilation.ofText .standard knotText).toOption.isSome = true ∧
      (Context.outer knot.symbols .standard).returnsAfter [] 4 = .any ∧
      (Context.outer knot.symbols .standard).returnsAfter [3] 4 = .number := by
    have row : TokenRow.ofText knotText = _ := TokenRow.ofText_of_eq_ofList (by rw [knotText])
    rw [knot, Compilation.ofText, Module.ofText, row]
    decide +kernel
  have ofLoose : (Compilation.ofText (shallow 3) looseText).toOption.isSome = true ∧
      (Context.outer loose.symbols (shallow 3)).returnsAfter [] 6 = .number ∧
      (Context.outer loose.symbols (shallow 3)).returnsAfter [3] 6 = .any := by
    have row : TokenRow.ofText looseText = _ := TokenRow.ofText_of_eq_ofList (by rw [looseText])
    rw [loose, Compilation.ofText, Module.ofText, row]
    decide +kernel
  have ofHanded : (Compilation.ofText .standard handedText).toOption.isSome = true ∧
      (Context.outer handed.symbols .standard).returnsAfter [] 3 = handed.symbols.classType 0 ∧
      (Context.outer handed.symbols .standard).returnsAfter [2] 3 =
        handed.symbols.instanceType 0 := by
    have row : TokenRow.ofText handedText = _ :=
      TokenRow.ofText_of_eq_append (by unfold handedText; with_reducible rfl)
    rw [handed, Compilation.ofText, Module.ofText, row]
    decide +kernel
  exact ⟨⟨eq_ok_of_isSome ofTower.1, ofTower.2⟩, ⟨eq_ok_of_isSome ofKnot.1, ofKnot.2⟩,
    ⟨eq_ok_of_isSome ofLoose.1, ofLoose.2⟩, eq_ok_of_isSome ofHanded.1, ofHanded.2⟩

end PathTyping
