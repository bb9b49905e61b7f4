import PathTyping.Proofs.Collapse
import PathTyping.Proofs.WellFormed

/-!
# What callers see

A query for what a method returns follows its body with parameters that are known by their
declarations only; a call follows it with the arguments at hand.  Where these tell nothing more than
the declarations do, the two look alike when they begin, and they stay so: whatever results are kept
by then are those that following a call gives.

1. Wherever a call comes up, what is remembered are results that following a call gives
   (`Query.Entry.Makes.recalls`).
2. An argument of the declared type of which nothing else is known leaves its parameter as it is
   without an argument, unless the parameter has a literal to start with (`Param.like_of_isOpenTo`).
3. `returnType_of_calls`: the results of such calls are together of the type that the method is said
   to return.
-/

namespace PathTyping

open Walk Value

/-! ## Where calls come up -/

section Recalls

variable {t : SymbolTable} {options : AnalysisOptions} {ctx : Context} {e : Query.Entry}
  {c c' : MethodCall}

/-- If what is kept are results that following a call gives, so it is at a call within. -/
theorem MethodCall.Enters.recalls (enters : c.Enters c') (sound : c.Sound t (Value.Tidy t))
    (limits : c.ctx.options = options) (recalls : c.memory.Recalls t options)
    (on : ∀ other, Relation.ReflTransGen MethodCall.Enters c other → other.OnInstance) :
    c'.memory.Recalls t options := by
  obtain rfl := sound.symbols
  obtain ⟨code, m', body, raised⟩ := enters.raised
  refine raised.keeps (inert_recalls _ _) (fun other deep raised' recalls => ?_)
    ((recalls.body body).push c.key.call)
  have entered : c.Enters other :=
    ⟨deep ▸ enters.depth, enters.unknown, enters.entered, code, m', body, raised'⟩
  exact MethodCall.recalls_after other.depth other rfl (entered.options.trans limits)
    (entered.sound closed_tidy.toClosed sound) recalls fun _ reached => on _ (.head entered reached)

/-- Wherever a call comes up in a query, what is kept by then are results that following a call
gives. -/
theorem Query.Entry.Makes.recalls (made : e.Makes ctx c)
    (sound : e.memory.Sound ctx.symbols (Value.Tidy ctx.symbols))
    (recalls : e.memory.Recalls ctx.symbols ctx.options)
    (on : ∀ other, e.Makes ctx other → other.OnInstance) :
    c.ctx.options = ctx.options ∧ c.memory.Recalls ctx.symbols ctx.options := by
  obtain ⟨outer, deep, raised, reached⟩ := made
  have making {other : MethodCall} (made : e.Makes ctx other) :
      other.Sound ctx.symbols (Value.Tidy ctx.symbols) :=
    made.sound closed_tidy.toClosed sound fun _ _ => trivial
  induction reached with
  | refl =>
    refine ⟨raised.context.2, raised.keeps (inert_recalls _ _) (fun other same raised' kept => ?_)
      recalls⟩
    have made : e.Makes ctx other := ⟨other, same.trans deep, raised', .refl⟩
    exact MethodCall.recalls_after other.depth other rfl raised'.context.2 (making made) kept
      fun _ reached => on _ ⟨other, same.trans deep, raised', reached⟩
  | tail reached enters ih =>
    obtain ⟨limits, kept⟩ := ih
    have made : e.Makes ctx _ := ⟨outer, deep, raised, reached⟩
    exact ⟨enters.options.trans limits, enters.recalls (making made) limits kept fun _ further =>
      on _ ⟨outer, deep, raised, reached.trans further⟩⟩

end Recalls

/-! ## What arguments tell -/

/-- Nothing is known of the value but its type. -/
def Value.isBare (type : Ty) (v : Value) : Bool :=
  v.type == type && v.constant.isNone && v.members.isNone && v.bounds.1.isNone && v.bounds.2.isNone

/-- Without an argument, the parameter starts with a literal. -/
def Param.folds (p : Param) : Bool :=
  match p.default with
  | some (.literal l) => (Ty.ofLiteral l).isAssignableTo p.type
  | _ => false

/-- What is handed over tells the parameter nothing: the parameter takes the rest of the arguments,
or nothing is handed over, or of what is handed over no more is known than the declared type.  A
parameter that would start with a literal is told something by any argument. -/
def Param.isOpenTo (p : Param) : Option Value → Bool
  | none => true
  | some v => p.variadic || (v.isBare p.type && !p.folds)

section Arguments

variable {t : SymbolTable} {p : Param} {v : Value} {argument : Option Value}

theorem Value.face_of_isBare {type : Ty} (h : v.isBare type = true) :
    v.face = (Value.ofType type).face := by
  simp only [Value.isBare, Bool.and_eq_true, beq_iff_eq, Option.isNone_iff_eq_none] at h
  obtain ⟨⟨⟨⟨rfl, constant⟩, members⟩, least⟩, greatest⟩ := h
  rw [Value.face, constant, members, Prod.ext (x := v.bounds) (y := (none, none)) least greatest]
  rfl

theorem Param.bound_of_variadic (h : p.variadic = true) (argument : Option Value) :
    p.bound argument = .any := by
  unfold Param.bound
  rw [if_pos h]

theorem Param.bound_of_not_folds (h : p.folds = false) (single : p.variadic = false) :
    p.bound none = .ofType p.type := by
  unfold Param.folds at h
  unfold Param.bound
  rw [single]
  cases given : p.default with
  | none => rfl
  | some d =>
    cases d with
    | literal l =>
      rw [given] at h
      exact if_neg (Bool.eq_false_iff.1 h)
    | _ => rfl

theorem Param.bound_of_fits (h : v.type.isAssignableTo p.type = true)
    (single : p.variadic = false) : p.bound (some v) = v.copy := by
  unfold Param.bound
  rw [single]
  exact if_pos h

/-- An argument that tells nothing leaves its parameter as it is without one. -/
theorem Param.like_of_isOpenTo (h : p.isOpenTo argument = true)
    (tidy : ∀ v, argument = some v → v.Tidy t) : Like t (p.bound none) (p.bound argument) := by
  cases argument with
  | none => exact like_bound p .none
  | some v =>
    cases single : p.variadic with
    | true =>
      rw [p.bound_of_variadic single, p.bound_of_variadic single]
      exact (tidy_ofType _).like
    | false =>
      rw [Param.isOpenTo, single, Bool.false_or, Bool.and_eq_true, Bool.not_eq_true'] at h
      have face := Value.face_of_isBare h.1
      have fits : v.type.isAssignableTo p.type = true := by
        rw [type_of_face face]
        exact p.type.isAssignableTo_self
      rw [p.bound_of_not_folds h.2 single, p.bound_of_fits fits single]
      refine ⟨?_, tidy_ofType _, (tidy v rfl).copy⟩
      rw [face_copy, face]

end Arguments

/-! ## Calls and queries -/

/-- A call of the method comes up in a query, which is asked behind others, and no call is cut off
in it; methods of classes are called on instances of them, and the arguments tell the parameters
nothing. -/
structure OpenCall (ctx : Context) (id : Nat) (c : MethodCall) : Prop where
  method : c.id = id
  made : ∃ (earlier : List Query) (q : Query) (e : Query.Entry),
    Query.AllOnInstances ctx .empty earlier ∧
      q.OnInstances ctx (Query.history ctx .empty earlier) ∧
        q.opens? ctx (Query.history ctx .empty earlier) = some e ∧ e.Makes ctx c
  uncut : c.Uncut
  opens : (ctx.symbols.method id).params.zipIdx.all (fun (p, i) => p.isOpenTo c.arguments[i]?)

section Calls

variable {t : SymbolTable} {options : AnalysisOptions} {ctx : Context} {e : Query.Entry}
  {id : Nat} {code : Code} {c : MethodCall} {arguments : List Value}

/-- What a call hands back is together of the type that the query for its method answers with. -/
theorem join_resultsOf (m : Method) {r : Resolution} {scope : Scope} (bears : r.Bears scope) :
    Ty.join ((Analysis.resultsOf m r).map Value.type) = Query.answer m r := by
  have ended : ¬ r.terminals.isEmpty = true := fun none_ =>
    bears.nonempty (List.isEmpty_iff.1 none_)
  have returned : r.returnValues.map (Value.coerce m.returns) ≠ [] := fun none_ =>
    bears.returnValues_ne_nil (List.map_eq_nil_iff.1 none_)
  have alike (v w : Value) (same : v.alike w = true) : [v.type] = [w.type] := by
    rw [Value.alike, Bool.and_eq_true] at same
    rw [eq_of_beq same.1]
  have joined : Ty.join ((distinct (r.returnValues.map (Value.coerce m.returns))).map Value.type) =
      Ty.join ((r.returnValues.map (Value.coerce m.returns)).map Value.type) := by
    rw [List.map_eq_flatMap, List.map_eq_flatMap (f := Value.type)]
    exact join_flatMap_distinct fun v _ w _ same => alike v w same
  rw [Query.answer, if_neg ended, Analysis.resultsOf]
  cases kept : distinct (r.returnValues.map (Value.coerce m.returns)) with
  | nil =>
    obtain ⟨v, hv⟩ := List.exists_mem_of_ne_nil _ returned
    obtain ⟨w, hw, -⟩ := exists_distinct hv
    exact absurd (kept ▸ hw) List.not_mem_nil
  | cons first rest =>
    rw [kept] at joined
    rw [joined, List.map_map]
    rfl

theorem map_type_mapM_fresh (values : List Value) (m : Memory) :
    ((values.mapM Analysis.fresh).run m).1.map Value.type = values.map Value.type := by
  induction values generalizing m with
  | nil => rfl
  | cons v rest ih =>
    rw [List.mapM_cons]
    exact congrArg₂ List.cons (Value.place_type v _) (ih _)

/-- Where the arguments tell nothing, a body starts with variables that look as they do without
arguments. -/
theorem entryVariables_open (m : Method)
    (opens : m.params.zipIdx.all fun (p, i) => p.isOpenTo arguments[i]?)
    (tidy : ∀ v ∈ arguments, v.Tidy t) :
    Bindings t (t.entryVariables m none []) (t.entryVariables m none arguments) := by
  refine List.rel_append ?_ ?_
  · rw [boundParams, boundParams, List.forall₂_map_left_iff, List.forall₂_map_right_iff,
      List.forall₂_same]
    rintro ⟨p, i⟩ hp
    exact ⟨rfl, Param.like_of_isOpenTo (List.all_eq_true.1 opens _ hp)
      fun v given => tidy v (List.mem_of_getElem? given)⟩
  · unfold SymbolTable.receiver?
    cases m.owner with
    | none => exact .nil
    | some owner => exact .cons ⟨rfl, (tidy_ofType _).like⟩ .nil

theorem body_of_lowers {m : Memory} (faithful : m.Faithful t)
    (lowers : (t.method id).decl.toCode = .ok code) :
    ∃ m', (Analysis.body t id).run m = (some code, m') ∧ m'.Faithful t := by
  have known := Analysis.body_of_faithful faithful id
  rw [lowers] at known
  exact ⟨_, Prod.ext known rfl, Analysis.faithful_body faithful id⟩

/-- A call with such arguments that is answered as following it is hands back values of the types
that the paths return which a query for its method follows. -/
theorem types_of_answered (whole : e.Whole ctx) (recalls : e.memory.Recalls ctx.symbols ctx.options)
    (lowers : (ctx.symbols.method id).decl.toCode = .ok e.code)
    (scope : e.scope = ⟨some id, (ctx.symbols.method id).owner⟩)
    (opens : (ctx.symbols.method id).params.zipIdx.all fun (p, i) => p.isOpenTo arguments[i]?)
    (tidy : ∀ v ∈ arguments, v.Tidy ctx.symbols) {results : List Value}
    (answered : ∀ᶠ n in Filter.atTop, Answered ctx.symbols ctx.options
      (Memory.Faithful ctx.symbols) (Analysis.bare n) id arguments results) :
    results.map Value.type =
      (Analysis.resultsOf (ctx.symbols.method id) (e.resolution ctx).1).map Value.type := by
  obtain ⟨s, ends, s', opened, run, repeated⟩ := whole.repeated recalls
  have deeper := (Filter.tendsto_add_atTop_nat 1).eventually answered
  obtain ⟨n, answered, repeated⟩ := (deeper.and repeated).exists
  -- Both are compared with following the call on nothing, and nothing kept of the calls in it.
  obtain ⟨m, body, faithful⟩ := body_of_lowers recalls.faithful lowers
  obtain ⟨r, ends', r', opened', walks, followed⟩ :=
    Analysis.follow_of_code (Analysis.bare n) none arguments body
  have bindings : Bindings ctx.symbols (ctx.symbols.scopeVariables e.scope)
      (ctx.symbols.entryVariables (ctx.symbols.method id) none arguments) := by
    rw [scope]
    exact entryVariables_open _ opens tidy
  rw [scope] at opened
  have inert : Memory.Inert (Memory.Recalls ctx.symbols ctx.options) ∧
      Memory.Inert (Memory.Faithful ctx.symbols) := ⟨inert_recalls _ _, inert_faithful _⟩
  have pushed : (m.push (.of ctx.symbols id none arguments)).Faithful ctx.symbols := faithful
  have beside := openRoot_beside inert (scope ▸ bindings) recalls pushed opened opened'
  obtain ⟨rfl, -, ended, -⟩ :=
    repeated (.path ⟨rfl, rfl⟩ ⟨rfl, rfl⟩ beside.arena) beside.right walks
  have self : List.Forall₂ (Like ctx.symbols) arguments arguments :=
    List.forall₂_same.2 fun v hv => (tidy v hv).like
  have back := (answered ctx none arguments .absent e.memory ⟨rfl, rfl⟩ self recalls.faithful).1
  rw [Analysis.bare, followed, (Analysis.leave_run ..).1] at back
  rw [run, types_of_like back, map_type_mapM_fresh]
  exact (types_of_like (Analysis.like_resultsOf (ctx.symbols.method id) ended e.code)).symm

theorem asked_history (ctx : Context) (earlier : List Query) :
    Asked ctx (Query.history ctx .empty earlier) := by
  suffices goes : ∀ m, Asked ctx m → Asked ctx (Query.history ctx m earlier) from goes _ .start
  induction earlier with
  | nil => exact fun _ asked => asked
  | cons q rest ih => exact fun m asked => ih _ (Query.asked_after asked q)

theorem recalls_of_history {earlier : List Query}
    (on : Query.AllOnInstances ctx .empty earlier) :
    (Query.history ctx .empty earlier).Recalls ctx.symbols ctx.options :=
  Query.recalls_history .start ⟨nofun, nofun⟩ on

/-- Such a call is answered as following it far enough with nothing kept is. -/
theorem OpenCall.answered (call : OpenCall ctx id c) : (∀ v ∈ c.arguments, v.Tidy ctx.symbols) ∧
    ∀ᶠ n in Filter.atTop, Answered ctx.symbols ctx.options (Memory.Faithful ctx.symbols)
      (Analysis.bare n) id c.arguments c.results := by
  obtain ⟨rfl, ⟨earlier, q, e, before, on, opens, made⟩, uncut, -⟩ := call
  have sound := Query.Entry.sound opens ((asked_history ctx earlier).sound closed_tidy)
  have recalls := Query.Entry.recalls opens (recalls_of_history before)
  have on (other : MethodCall) (made : e.Makes ctx other) : other.OnInstance :=
    on e other opens made
  have tidy := made.sound closed_tidy.toClosed sound fun _ _ => trivial
  obtain ⟨limits, kept⟩ := made.recalls sound recalls on
  obtain ⟨outer, deep, raised, reached⟩ := made
  have settled := MethodCall.settles c.depth c rfl (tidy.tidy ⟨tidy.symbols, limits⟩) uncut kept
    fun other further => on other ⟨outer, deep, raised, reached.trans further⟩
  exact ⟨tidy.arguments, settled.1⟩

/-- A call that tells its method nothing hands back what is together of the type that the method is
said to return, whatever the query for that was asked behind. -/
theorem OpenCall.type_eq (call : OpenCall ctx id c) {before : List Query}
    (on : Query.AllOnInstances ctx .empty before)
    (whole : (Query.returnType id).Whole ctx (Query.history ctx .empty before))
    (lowers : (ctx.symbols.method id).decl.toCode = .ok code) :
    Ty.join (c.results.map Value.type) =
      ((Analysis.returnType ctx id).run (Query.history ctx .empty before)).1 := by
  have recalls := recalls_of_history on
  have found := Query.opens?_of_faithful recalls.faithful id
  rw [lowers] at found
  obtain ⟨tidy, answered⟩ := call.answered
  have types := types_of_answered (whole.entry found) (Query.Entry.recalls found recalls) lowers rfl
    call.opens tidy answered
  rw [types, Query.returnType_run, Query.resolveMethod_of_entry found]
  exact join_resultsOf _ (resolve_bears ..)

end Calls

/-! ### Calls on a straight path -/

/-- The call that a path makes at an instruction, if it makes one. -/
def Walk.callAt? (depth : Nat) (ctx : Context) (steps : Array Step) (id index : Nat) (s : State) :
    Option MethodCall :=
  match steps[index]? with
  | some ⟨.call _ callee arguments, span⟩ =>
    let (first, s₀) := outcome (arrive id index) s
    let (v, s₁) := outcome (operand id span callee) s₀
    let (values, s₂) := outcome (arguments.mapM (operand id span)) s₁
    match first, (Analysis.request (ctx.enter s₂.1) v values span).run s₂.2 with
    | true, (.enter method receiver, m) =>
      some ⟨depth, ctx.enter s₂.1, method, receiver, values, span, m⟩
    | _, _ => none
  | _ => none

/-- The calls that a path makes for as long as it goes straight on. -/
def Walk.straightCalls (depth : Nat) (ctx : Context) (steps : Array Step) :
    Nat → Nat → State → List MethodCall
  | 0, _, _ => []
  | fuel + 1, index, s =>
    (callAt? depth ctx steps 0 index s).toList ++
      match outcome (step (Analysis.invoke depth) ctx steps 0 index) s with
      | (.next index', s') => straightCalls depth ctx steps fuel index' s'
      | _ => []

/-- The calls that a query for a method makes on its way to the first branching, if it is asked of a
fresh analysis. -/
def Context.callsIn (ctx : Context) (id : Nat) : List MethodCall :=
  ((Query.returnType id).opens? ctx .empty).toList.flatMap fun e =>
    let opened := outcome (openRoot e.scope (ctx.symbols.scopeVariables e.scope)) (.empty, e.memory)
    straightCalls (ctx.options.maxCallDepth - e.memory.stack.length) ctx e.code.steps.toArray
      e.code.steps.length 0 opened.2

section Straight

variable {depth fuel id index : Nat} {ctx : Context} {steps : Array Step} {s : State}
  {c : MethodCall}

theorem issues_of_callAt? (h : callAt? depth ctx steps id index s = some c) :
    c.depth = depth ∧ Issues steps ctx id index s c := by
  unfold callAt? at h
  split at h
  · next result callee arguments span here =>
    dsimp only at h
    split at h
    · next arrived requested =>
      cases h
      exact ⟨rfl, result, callee, arguments, _, _, _, _, here, arrived ▸ gives_outcome _ _,
        gives_outcome _ _, gives_outcome _ _, rfl, requested⟩
    · cases h
  · cases h

theorem leads_of_straightCalls (h : c ∈ straightCalls depth ctx steps fuel index s) :
    ∃ index' s', c.depth = depth ∧
      Leads (Analysis.invoke depth) steps (.path ctx 0 index) s (.path ctx 0 index') s' ∧
        Issues steps ctx 0 index' s' c := by
  induction fuel generalizing index s with
  | zero => cases h
  | succ fuel ih =>
    rcases List.mem_append.1 h with here | later
    · obtain ⟨deep, issues⟩ := issues_of_callAt? (Option.mem_toList.1 here)
      exact ⟨index, s, deep, .here, issues⟩
    · split at later
      · next index₁ s₁ done =>
        obtain ⟨index', s', deep, leads, issues⟩ := ih later
        have gone : Gives (step (Analysis.invoke depth) ctx steps 0 index) s (.next index₁) s₁ := by
          have given := gives_outcome (step (Analysis.invoke depth) ctx steps 0 index) s
          rwa [done] at given
        exact ⟨index', s', deep, .onward gone rfl leads, issues⟩
      · cases later

theorem makes_of_callsIn (h : c ∈ ctx.callsIn id) :
    ∃ e, (Query.returnType id).opens? ctx .empty = some e ∧ e.Makes ctx c := by
  obtain ⟨e, opens, here⟩ := List.mem_flatMap.1 h
  obtain ⟨index, s, deep, leads, issues⟩ := leads_of_straightCalls here
  refine ⟨e, Option.mem_toList.1 opens, c, deep, ?_, .refl⟩
  exact ⟨_, ctx, 0, index, s, gives_outcome _ _, deep.symm ▸ leads, issues⟩

end Straight

/-- What a method is said to return is what callers see that tell it nothing: wherever such a call
comes up in an analysis, and if it supplies optional arguments as well as if it leaves them out,
its results are together of that type.  So they are of the type that a compilation gives for the
method. -/
theorem returnType_of_calls :
    (∀ (ctx : Context) (before : List Query) id code,
      (ctx.symbols.method id).decl.toCode = .ok code → Query.AllOnInstances ctx .empty before →
        (Query.returnType id).Whole ctx (Query.history ctx .empty before) →
          ∀ call, OpenCall ctx id call → Ty.join (call.results.map Value.type) =
            ((Analysis.returnType ctx id).run (Query.history ctx .empty before)).1) ∧
    ∀ options module read,
      let c := Compilation.ofModule options module read
      let ctx := Context.outer c.symbols options
      ∀ s ∈ c.summaries, ∀ code, (c.symbols.method s.id).decl.toCode = .ok code →
        let before := Query.summarized (List.range s.id)
        Query.AllOnInstances ctx .empty before →
          (Query.returnType s.id).Whole ctx (Query.history ctx .empty before) →
            ∀ call, OpenCall ctx s.id call → Ty.join (call.results.map Value.type) = s.returns := by
  refine ⟨fun ctx before id code lowers on whole call opens => opens.type_eq on whole lowers,
    fun options module read => ?_⟩
  intro c ctx s hs code lowers before on whole call opens
  rw [Query.returns_of_mem_summaries ctx .empty hs]
  exact opens.type_eq on whole lowers

/-- A call on the way of a query for another function, where no class has methods. -/
theorem openCall_of_callsIn {ctx : Context} {id other : Nat} {c : MethodCall}
    (unowned : ∀ m ∈ ctx.symbols.methods, m.owner = none) (h : c ∈ ctx.callsIn other)
    (method : c.id = id) (uncut : c.after.cutoffs = c.memory.cutoffs)
    (opens : (ctx.symbols.method id).params.zipIdx.all fun (p, i) => p.isOpenTo c.arguments[i]?) :
    OpenCall ctx id c := by
  obtain ⟨e, asked, made⟩ := makes_of_callsIn h
  exact ⟨method, ⟨[], _, e, trivial, Query.onInstances_of_unowned unowned _ _, asked, made⟩, uncut,
    opens⟩

/-- A function with a parameter that may be left out is called with an argument for it, and
without. -/
def scalingText : String := "
  fn scale(x: Number, by = 1 + 1) \x7b if x < by \x7b return x \x7d
    return \"far\" \x7d
  fn near(n: Number) \x7b return scale(n) \x7d
  fn far(n: Number, m) \x7b return scale(n, m) \x7d
"

def scaling : Compilation := ((Compilation.ofText .standard scalingText).toOption).getD default

theorem returnType_of_calls_scaling :
    let ctx := Context.outer scaling.symbols .standard
    Compilation.ofText .standard scalingText = .ok scaling ∧
      ∃ few all, OpenCall ctx 0 few ∧ few.arguments.length = 1 ∧ OpenCall ctx 0 all ∧
        all.arguments.length = 2 ∧
          Ty.join (few.results.map Value.type) = ((Analysis.returnType ctx 0).run .empty).1 ∧
          Ty.join (all.results.map Value.type) = ((Analysis.returnType ctx 0).run .empty).1 ∧
            ∃ s ∈ scaling.summaries, s.id = 0 ∧ Ty.join (all.results.map Value.type) = s.returns ∧
              s.returns = .union [.number, .string] := by
  -- What is read of the text stays behind `outer`, so that it is evaluated only once.
  dsimp only
  generalize outer : Context.outer scaling.symbols .standard = ctx
  obtain ⟨read, functions, ⟨few, near, ofFew⟩, ⟨all, far, ofAll⟩, listed, uncut, coded⟩ :
      (Compilation.ofText .standard scalingText).toOption.isSome = true ∧
        ctx.symbols.methods.all (·.owner.isNone) = true ∧
        (∃ few ∈ ctx.callsIn 1, few.id = 0 ∧ few.arguments.length = 1 ∧
          few.after.cutoffs = few.memory.cutoffs ∧
          (ctx.symbols.method 0).params.zipIdx.all (fun (p, i) => p.isOpenTo few.arguments[i]?)) ∧
        (∃ all ∈ ctx.callsIn 2, all.id = 0 ∧ all.arguments.length = 2 ∧
          all.after.cutoffs = all.memory.cutoffs ∧
          (ctx.symbols.method 0).params.zipIdx.all (fun (p, i) => p.isOpenTo all.arguments[i]?)) ∧
        (∃ s ∈ scaling.summaries, s.id = 0 ∧ s.returns = .union [.number, .string]) ∧
        ((Query.returnType 0).after ctx .empty).cutoffs = 0 ∧
        (ctx.symbols.method 0).decl.toCode.toOption.isSome = true := by
    have row : TokenRow.ofText scalingText = _ := TokenRow.ofText_of_eq_ofList (by rw [scalingText])
    rw [← outer, scaling, Compilation.ofText, Module.ofText, row]
    decide +kernel
  have built : Compilation.ofText .standard scalingText = .ok scaling := eq_ok_of_isSome read
  have unowned : ∀ m ∈ ctx.symbols.methods, m.owner = none := fun m hm =>
    Option.isNone_iff_eq_none.1 (List.all_eq_true.1 functions m hm)
  have whole : (Query.returnType 0).Whole ctx .empty :=
    ⟨uncut, Query.onInstances_of_unowned unowned _ _⟩
  obtain ⟨code, lowers⟩ := exists_ok coded
  have table : ctx.symbols = scaling.symbols := by rw [← outer, Context.symbols_outer]
  have few' := openCall_of_callsIn unowned near ofFew.1 ofFew.2.2.1 ofFew.2.2.2
  have all' := openCall_of_callsIn unowned far ofAll.1 ofAll.2.2.1 ofAll.2.2.2
  obtain ⟨queries, compilations⟩ := returnType_of_calls
  obtain ⟨module, report, -, same⟩ := Compilation.exists_module built
  obtain ⟨s, hs, first, returns⟩ := listed
  have told := compilations .standard module report
  dsimp only at told
  rw [← same, outer, ← table] at told
  have told := told s hs code (first ▸ lowers)
  rw [first] at told
  refine ⟨built, few, all, few', ofFew.2.1, all', ofAll.2.1, ?_, ?_, s, hs, first, ?_, returns⟩
  · exact queries ctx [] 0 code lowers trivial whole few few'
  · exact queries ctx [] 0 code lowers trivial whole all all'
  · exact told trivial whole all all'

/-! ### Calls that tell more -/

instance (c : MethodCall) : Decidable c.Uncut :=
  inferInstanceAs (Decidable (c.after.cutoffs = c.memory.cutoffs))

/-- A call supplies each parameter with an argument of the type that it declares, none of them
constant, and no call is cut off in it.  And yet its results are not of the given type. -/
def MethodCall.Exceeds (ctx : Context) (id : Nat) (returns : Ty) (c : MethodCall) : Prop :=
  c.id = id ∧ c.arguments.map Value.type = (ctx.symbols.method id).params.map Param.type ∧
    (∀ v ∈ c.arguments, v.constant = none) ∧ c.Uncut ∧
      ¬ (Ty.join (c.results.map Value.type)).isAssignableTo returns = true

instance (ctx : Context) (id : Nat) (returns : Ty) (c : MethodCall) :
    Decidable (c.Exceeds ctx id returns) :=
  inferInstanceAs (Decidable (_ ∧ _ ∧ _ ∧ _ ∧ ¬ _))

/-- In a query of a fresh analysis, a call of a module function with a body that has code exceeds
what the function is said to return where no call is cut off. -/
def Context.Exceeds (ctx : Context) (id caller : Nat) : Prop :=
  (ctx.symbols.method id).owner = none ∧
    (ctx.symbols.method id).decl.toCode.toOption.isSome = true ∧
      ((Query.returnType id).after ctx .empty).cutoffs = 0 ∧
        ∃ e call, (Query.returnType caller).opens? ctx .empty = some e ∧ e.Makes ctx call ∧
          call.Exceeds ctx id ((Analysis.returnType ctx id).run .empty).1

theorem Context.exceeds_of_callsIn {ctx : Context} {id caller : Nat}
    (h : (ctx.symbols.method id).owner = none ∧
      (ctx.symbols.method id).decl.toCode.toOption.isSome = true ∧
        ((Query.returnType id).after ctx .empty).cutoffs = 0 ∧
          ∃ call ∈ ctx.callsIn caller,
            call.Exceeds ctx id ((Analysis.returnType ctx id).run .empty).1) :
    ctx.Exceeds id caller := by
  obtain ⟨free, lowers, uncut, call, here, exceeds⟩ := h
  obtain ⟨e, opens, made⟩ := makes_of_callsIn here
  exact ⟨free, lowers, uncut, e, call, opens, made, exceeds⟩

/-- The parameter starts with a number if it is not given anything. -/
def startingText : String := "
  fn f(a = 1) \x7b return a \x7d
  fn caller(x) \x7b return f(x) \x7d
"

/-- Which function is chosen depends on what the parameter returns. -/
def choosingText : String := "
  fn g(x: String) \x7b return \"s\" \x7d
  fn g(x: Number) \x7b return 1 \x7d
  fn k() \x7b return 1 \x7d
  fn m(h: Function) \x7b return g(h()) \x7d
  fn caller() \x7b return m(k) \x7d
"

/-- Which function is chosen depends on what the least value of the parameter is. -/
def namingText : String := "
  class P \x7b var a0: Number \x7d
  fn g(x: String) \x7b return \"s\" \x7d
  fn g(x: Number) \x7b return 1 \x7d
  fn m(x: Number, p: P) \x7b return g(p[\"a\" + x.min]) \x7d
  fn caller(s: String) \x7b return m(s.length, P()) \x7d
"

/-- A method is called on its class before it is called on an instance. -/
def turningText : String := "
  class P \x7b fn m() \x7b return self \x7d \x7d
  fn call(f) \x7b return f() \x7d
  fn run(p: P) \x7b return call(p.m) \x7d
  fn caller() \x7b call(P.m)
    return run(P()) \x7d
"

def Context.ofText (text : String) : Context :=
  .outer ((Compilation.ofText .standard text).toOption.getD default).symbols .standard

/-- A function is said to return what it returns where no argument is supplied, though one may be:
the literal that a parameter starts with stands in the way of anything else.  What is known of an
argument beside its type and its constant, which are its members and its bounds, decides which
function is called in the body.  And results that are kept of a call are given where a value that is
handed over carries what it is called on. -/
theorem calls_exceed_returnType :
    (Context.ofText startingText).Exceeds 0 1 ∧ (Context.ofText choosingText).Exceeds 3 4 ∧
      (Context.ofText namingText).Exceeds 2 3 ∧ (Context.ofText turningText).Exceeds 2 3 := by
  refine ⟨?_, ?_, ?_, ?_⟩
  · have row : TokenRow.ofText startingText = _ :=
      TokenRow.ofText_of_eq_ofList (by rw [startingText])
    rw [Context.ofText, Compilation.ofText, Module.ofText, row]
    exact Context.exceeds_of_callsIn (by decide +kernel)
  · have row : TokenRow.ofText choosingText = _ :=
      TokenRow.ofText_of_eq_ofList (by rw [choosingText])
    rw [Context.ofText, Compilation.ofText, Module.ofText, row]
    exact Context.exceeds_of_callsIn (by decide +kernel)
  · have row : TokenRow.ofText namingText = _ := TokenRow.ofText_of_eq_ofList (by rw [namingText])
    rw [Context.ofText, Compilation.ofText, Module.ofText, row]
    exact Context.exceeds_of_callsIn (by decide +kernel)
  · have row : TokenRow.ofText turningText = _ := TokenRow.ofText_of_eq_ofList (by rw [turningText])
    rw [Context.ofText, Compilation.ofText, Module.ofText, row]
    exact Context.exceeds_of_callsIn (by decide +kernel)

end PathTyping
