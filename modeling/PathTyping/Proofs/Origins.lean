import PathTyping.Proofs.Histories

/-!
# Where kept results come from

Results are kept when a call has been followed to its end and not one call was cut off meanwhile,
which an analysis tells by its count.  Whatever else went into them are results that were kept
before, and those have come about in the same way.  So nothing that is kept has anything to do with
a value that only stands for a call.  While a call is followed, calls with its key are cut off; so
no results are kept under its key in between, and what is kept is never replaced.

1. Calls keep what is kept, and keep nothing new under the keys of calls that are being followed
   (`abides_extends`).
2. `MethodCall.Stores`: a call is followed to its end, and its results are kept.  Nothing was kept
   under its key right before (`Stores.unknown`), and no call inside of it is cut off
   (`Stores.not_cutOff`).
3. If all that is kept is untainted before a call, so it is at the calls inside of it, and behind it
   (`MethodCall.untainted_after`, by induction on how many calls may be followed).
4. `Query.kept_untainted`: so it is throughout the queries that one analysis is asked.
-/

namespace PathTyping

open Analysis

/-! ## What is kept is kept -/

namespace Memory

/-- The same calls are being followed.  Under their keys, and where results were kept, nothing has
changed. -/
structure Extends (m m' : Memory) : Prop where
  stack : m'.stack = m.stack
  same : ∀ key, key.call ∈ m.stack ∨ m.find? key ≠ none → m'.find? key = m.find? key

/-- Results that were kept are kept. -/
def Retains (m m' : Memory) : Prop :=
  ∀ key values, m.find? key = some values → m'.find? key = some values

variable {m m' m'' : Memory}

theorem extends_of_eq (stack : m'.stack = m.stack) (results : m'.results = m.results) :
    m.Extends m' := ⟨stack, fun key _ => congrArg (Assoc.find? · key) results⟩

theorem retains_of_results (same : m'.results = m.results) : m.Retains m' :=
  fun key _ kept => (congrArg (Assoc.find? · key) same).trans kept

theorem Extends.retains (h : m.Extends m') : m.Retains m' := fun key values kept =>
  (h.same key (.inr (by rw [kept]; exact Option.some_ne_none _))).trans kept

theorem Retains.trans (h : m.Retains m') (h' : m'.Retains m'') : m.Retains m'' :=
  fun key values kept => h' key values (h key values kept)

/-- Results that are kept where none were kept replace nothing. -/
theorem retains_remember {key : MemoKey} (unknown : m.find? key = none) (values : List Value) :
    m.Retains (m.remember key values) := fun other found kept => by
  have apart : key ≠ other := fun same => by
    rw [← same, unknown] at kept
    cases kept
  rw [find_remember_of_ne _ _ apart, kept]

end Memory

theorem Analysis.body_extends (t : SymbolTable) (id : Nat) (m : Memory) :
    m.Extends ((body t id).run m).2 := by
  refine Memory.extends_of_eq ?_ (body_keeps t id m).1
  cases kept : Assoc.find? m.bodies id with
  | some code => rw [body_of_kept kept]
  | none =>
    simp only [body, StateT.run_bind, StateT.run_get, pure_bind, kept]
    cases (t.method id).decl.toCode <;> rfl

theorem abides_extends : Abides Memory.Extends where
  refl m := Memory.extends_of_eq rfl rfl
  trans {m m' m''} h h' := by
    refine ⟨h'.stack.trans h.stack, fun key known => ?_⟩
    have same := h.same key known
    refine (h'.same key ?_).trans same
    rw [h.stack, same]
    exact known
  report m d := Memory.extends_of_eq rfl rfl
  place m v := Memory.extends_of_eq rfl rfl
  cut m := Memory.extends_of_eq rfl rfl
  body := body_extends
  enter h := ⟨congrArg List.tail h.stack, fun key known =>
    h.same key (known.imp_left (List.mem_cons_of_mem _))⟩
  remember {m m' key} values unknown entered h := by
    refine ⟨h.stack, fun other known => ?_⟩
    have apart : key ≠ other := by
      rintro rfl
      exact known.elim entered fun kept => kept unknown
    rw [Memory.find_remember_of_ne _ _ apart]
    exact h.same other known

/-! ## Calls whose results are kept -/

namespace MethodCall

variable {c c' : MethodCall} {m : Memory} {values : List Value}

/-- Instead of the results of the call, a value is given that stands for them: no results are kept,
and no more calls may be followed or the same call is being followed. -/
def CutOff (c : MethodCall) : Prop :=
  c.memory.find? c.key = none ∧ (c.depth = 0 ∨ c.key.call ∈ c.memory.stack)

/-- The call is followed to the end of its body.  When `m` is remembered, no more calls have been
cut off than at the beginning, and `values` are kept. -/
def Stores (c : MethodCall) (m : Memory) (values : List Value) : Prop :=
  ∃ depth code m₁ r m₂, c.depth = depth + 1 ∧ c.memory.find? c.key = none ∧
    c.key.call ∉ c.memory.stack ∧ (body c.ctx.symbols c.id).run c.memory = (some code, m₁) ∧
    (resolve (invoke depth) c.ctx code c.scope c.locals).run (m₁.push c.key.call) = (r, m₂) ∧
    ((resultsOf (c.ctx.symbols.method c.id) r).mapM fresh).run m₂.pop = (values, m) ∧
    m.cutoffs = m₁.cutoffs

/-- A call that is cut off is answered by the value that stands for its results. -/
theorem CutOff.run (cut : c.CutOff) :
    (invoke c.depth c.ctx c.id c.receiver c.arguments c.span).run c.memory =
      (Analysis.cutOff c.ctx.symbols c.id c.span).run c.memory := by
  obtain ⟨unknown, why⟩ := cut
  cases deep : c.depth with
  | zero => exact invoke_zero unknown
  | succ depth => exact invoke_of_entered unknown (why.resolve_left (by rw [deep]; nofun))

theorem leave_of_same {id : Nat} {receiver : Option Value} {arguments : List Value} {cutoffs : Nat}
    {r : Resolution} {t : SymbolTable} {m₂ : Memory}
    (left : ((resultsOf (t.method id) r).mapM fresh).run m₂.pop = (values, m))
    (same : m.cutoffs = cutoffs) : (leave t id receiver arguments cutoffs r).run m₂ =
      (values, m.remember (.of t id receiver arguments) values) := by
  rw [leave, run_bind_of_eq (x := modify Memory.pop) rfl, run_bind_of_eq left,
    run_bind_of_eq (x := get) rfl, if_pos same]
  rfl

/-- What is stored is what the call hands back. -/
theorem Stores.run (stores : c.Stores m values) :
    (invoke c.depth c.ctx c.id c.receiver c.arguments c.span).run c.memory =
      (values, m.remember c.key values) := by
  obtain ⟨depth, code, m₁, r, m₂, deep, unknown, entered, body, resolved, left, same⟩ := stores
  rw [deep, invoke_of_new unknown entered, follow_of_resolved body resolved, leave_of_same left same]
  rfl

theorem Stores.after (stores : c.Stores m values) : c.after = m.remember c.key values :=
  congrArg Prod.snd stores.run

theorem mapM_fresh_keeps (values : List Value) (m : Memory) :
    ((values.mapM fresh).run m).2.results = m.results ∧
      ((values.mapM fresh).run m).2.cutoffs = m.cutoffs :=
  mapM_fresh_inert (M := fun m' => m'.results = m.results ∧ m'.cutoffs = m.cutoffs)
    ⟨fun h _ => h, fun h _ => h⟩ values ⟨rfl, rfl⟩

/-- Right before the results of a call are kept, none are kept under its key. -/
theorem Stores.unknown (stores : c.Stores m values) : m.find? c.key = none := by
  obtain ⟨depth, code, m₁, r, m₂, deep, unknown, entered, body, resolved, left, same⟩ := stores
  have begun := (body_keeps c.ctx.symbols c.id c.memory).1
  rw [body] at begun
  have within := abides_extends.resolve (abides_extends.passes depth) c.ctx code c.scope c.locals
    (m₁.push c.key.call)
  rw [resolved] at within
  have placed := (mapM_fresh_keeps (resultsOf (c.ctx.symbols.method c.id) r) m₂.pop).1
  rw [left] at placed
  calc m.find? c.key = m₂.find? c.key := congrArg (Assoc.find? · c.key) placed
    _ = (m₁.push c.key.call).find? c.key := within.same _ (.inl List.mem_cons_self)
    _ = c.memory.find? c.key := congrArg (Assoc.find? · c.key) begun
    _ = none := unknown

theorem Stores.uncut (stores : c.Stores m values) : c.Uncut := by
  have after := stores.after
  obtain ⟨depth, code, m₁, r, m₂, deep, unknown, entered, body, resolved, left, same⟩ := stores
  have begun := (body_keeps c.ctx.symbols c.id c.memory).2
  rw [body] at begun
  rw [Uncut, after]
  exact same.trans begun

theorem uncut_of_reached (reached : Relation.ReflTransGen Enters c c') (uncut : c.Uncut) :
    c'.Uncut := by
  induction reached with
  | refl => exact uncut
  | tail _ enters ih => exact enters.uncut ih

/-- In a call whose results are kept, no call is cut off, however deep inside. -/
theorem Stores.not_cutOff (stores : c.Stores m values)
    (reached : Relation.ReflTransGen Enters c c') : ¬ c'.CutOff := fun ⟨unknown, why⟩ => by
  obtain ⟨deep, entered⟩ := (uncut_of_reached reached stores.uncut).followed unknown
  exact why.elim deep entered

/-! ### What is kept between a call and the calls inside of it -/

theorem extends_after (c : MethodCall) : c.memory.Extends c.after :=
  (abides_extends.passes c.depth).invoke _ _ _ _ _ _

/-- Whether the results of a call are kept or not, what is kept at the end of its body is kept. -/
theorem leave_retains {t : SymbolTable} {id : Nat} {receiver : Option Value}
    {arguments : List Value} {cutoffs : Nat} {r : Resolution} {m₂ : Memory}
    (unknown : m₂.find? (.of t id receiver arguments) = none) :
    m₂.Retains ((leave t id receiver arguments cutoffs r).run m₂).2 := by
  have placed := (mapM_fresh_keeps (resultsOf (t.method id) r) m₂.pop).1
  have find (key : MemoKey) :
      (((resultsOf (t.method id) r).mapM fresh).run m₂.pop).2.find? key = m₂.find? key :=
    congrArg (Assoc.find? · key) placed
  have kept : m₂.Retains (((resultsOf (t.method id) r).mapM fresh).run m₂.pop).2 :=
    fun key values kept => (find key).trans kept
  rcases (leave_run t id receiver arguments cutoffs r m₂).2 with same | same
  · rwa [same]
  · rw [same]
    exact kept.trans (Memory.retains_remember ((find _).trans unknown) _)

theorem Enters.retains (enters : c.Enters c') : c'.after.Retains c.after := by
  obtain ⟨deep, unknown, entered, code, m, body, raised⟩ := enters
  have within := (raised.inside abides_extends).2.retains
  have begun := (body_keeps c.ctx.symbols c.id c.memory).1
  rw [body] at begun
  have whole := abides_extends.resolve (abides_extends.passes c'.depth) c.ctx code c.scope c.locals
    (m.push c.key.call)
  rcases resolved : (resolve (invoke c'.depth) c.ctx code c.scope c.locals).run
    (m.push c.key.call) with ⟨r, m₂⟩
  rw [resolved] at within whole
  have absent : m₂.find? c.key = none :=
    (whole.same _ (.inl List.mem_cons_self)).trans
      ((congrArg (Assoc.find? · c.key) begun).trans unknown)
  have run : c.after = ((leave c.ctx.symbols c.id c.receiver c.arguments m.cutoffs r).run m₂).2 := by
    rw [MethodCall.after, deep, invoke_of_new unknown entered, follow_of_resolved body resolved]
  rw [run]
  exact within.trans (leave_retains absent)

theorem retains_of_reached (reached : Relation.ReflTransGen Enters c c') :
    c'.after.Retains c.after := by
  induction reached with
  | refl => exact fun _ _ kept => kept
  | tail _ enters ih => exact enters.retains.trans ih

end MethodCall

/-! ## Untainted results -/

/-- The results have been kept behind a call of `made` in which no call was cut off, however deep
inside, and in which none was answered by results that are not of this kind in their turn. -/
inductive Untainted (made : MethodCall → Prop) : MemoKey → List Value → Prop
  | stored {c : MethodCall} {m : Memory} {values : List Value} (comes : made c)
      (stores : c.Stores m values)
      (whole : ∀ c', Relation.ReflTransGen MethodCall.Enters c c' → ¬ c'.CutOff)
      (hits : ∀ c' found, Relation.ReflTransGen MethodCall.Enters c c' →
        c'.memory.find? c'.key = some found → Untainted made c'.key found) :
      Untainted made c.key values

/-- All that is kept is as `P` says. -/
def Memory.Keeps (P : MemoKey → List Value → Prop) (m : Memory) : Prop :=
  ∀ key values, m.find? key = some values → P key values

section Keeps

variable {P : MemoKey → List Value → Prop} {m m' : Memory}

theorem Memory.Keeps.of_results (h : m.Keeps P) (same : m'.results = m.results) : m'.Keeps P :=
  fun key values kept => h key values ((congrArg (Assoc.find? · key) same).symm.trans kept)

theorem inert_keeps (P : MemoKey → List Value → Prop) : Memory.Inert (Memory.Keeps P) :=
  ⟨fun h _ => h, fun h _ => h⟩

theorem Memory.Keeps.remember {key : MemoKey} {values : List Value} (h : m.Keeps P)
    (new : P key values) : (m.remember key values).Keeps P := fun other found kept => by
  by_cases mine : key = other
  · subst mine
    rw [find_remember_self] at kept
    cases kept
    exact new
  · rw [find_remember_of_ne _ _ mine] at kept
    exact h other found kept

end Keeps

namespace MethodCall

variable {P : MemoKey → List Value → Prop} {c c' : MethodCall}

/-- What is kept at a call that comes up in another is as it was before the other, if the calls
before it leave it so. -/
theorem Enters.keeps (enters : c.Enters c') (start : c.memory.Keeps P)
    (nested : ∀ other, c.Enters other → other.memory.Keeps P → other.after.Keeps P) :
    c'.memory.Keeps P := by
  obtain ⟨deep, unknown, entered, code, m, body, raised⟩ := enters
  have begun := (body_keeps c.ctx.symbols c.id c.memory).1
  rw [body] at begun
  have pushed : (m.push c.key.call).Keeps P := start.of_results begun
  refine raised.keeps (inert_keeps P) (fun other same raised' => nested other ?_) pushed
  exact ⟨deep.trans (congrArg (· + 1) same.symm), unknown, entered, code, m, body, raised'⟩

/-- Behind a call, what is kept is as before it, if the calls inside of it leave it so and what the
call itself stores is so. -/
theorem keeps_after (start : c.memory.Keeps P)
    (nested : ∀ other, c.Enters other → other.memory.Keeps P → other.after.Keeps P)
    (stores : ∀ m values, c.Stores m values → P c.key values) : c.after.Keeps P := by
  cases unknown : c.memory.find? c.key with
  | some values =>
    rw [after, invoke_of_kept unknown]
    exact start
  | none =>
    by_cases cut : c.CutOff
    · rw [after, cut.run]
      exact start
    obtain ⟨depth, deep⟩ := Nat.exists_eq_succ_of_ne_zero fun none => cut ⟨unknown, .inl none⟩
    have entered : c.key.call ∉ c.memory.stack := fun entered => cut ⟨unknown, .inr entered⟩
    have begun := (body_keeps c.ctx.symbols c.id c.memory).1
    rcases body : (body c.ctx.symbols c.id).run c.memory with ⟨_ | code, m₁⟩
    · rw [body] at begun
      rw [after, deep, invoke_of_new unknown entered, follow_of_none _ _ _ body]
      exact (inert_keeps P).place (start.of_results begun) (declared (c.ctx.symbols.method c.id))
    · rw [body] at begun
      have pushed : (m₁.push c.key.call).Keeps P := start.of_results begun
      have within := resolve_keeps (inert_keeps P) (fun other same raised => nested other
        ⟨deep.trans (congrArg Nat.succ same.symm), unknown, entered, code, m₁, body, raised⟩) pushed
      rcases resolved : (resolve (invoke depth) c.ctx code c.scope c.locals).run
        (m₁.push c.key.call) with ⟨r, m₂⟩
      rw [resolved] at within
      rcases left : ((resultsOf (c.ctx.symbols.method c.id) r).mapM fresh).run m₂.pop with
        ⟨values, m⟩
      have placed := mapM_fresh_keeps (resultsOf (c.ctx.symbols.method c.id) r) m₂.pop
      rw [left] at placed
      have kept : m.Keeps P := within.of_results placed.1
      by_cases same : m.cutoffs = m₁.cutoffs
      · have stored : c.Stores m values :=
          ⟨depth, code, m₁, r, m₂, deep, unknown, entered, body, resolved, left, same⟩
        rw [stored.after]
        exact kept.remember (stores m values stored)
      · rw [after, deep, invoke_of_new unknown entered, follow_of_resolved body resolved,
          leave_of_cut fun counted : m₂.cutoffs = m₁.cutoffs => same (placed.2.trans counted), left]
        exact kept

variable {made : MethodCall → Prop}

theorem depth_of_reached (reached : Relation.ReflTransGen Enters c c') : c'.depth ≤ c.depth := by
  induction reached with
  | refl => exact Nat.le_refl _
  | tail _ enters ih => exact Nat.le_of_succ_le (enters.depth.symm.trans_le ih)

theorem made_of_reached (closed : ∀ {c c' : MethodCall}, made c → c.Enters c' → made c')
    (comes : made c) (reached : Relation.ReflTransGen Enters c c') : made c' := by
  induction reached with
  | refl => exact comes
  | tail _ enters ih => exact closed ih enters

theorem keeps_of_reached (start : c.memory.Keeps P)
    (nested : ∀ other, other.depth < c.depth → Relation.ReflTransGen Enters c other →
      other.memory.Keeps P → other.after.Keeps P)
    (reached : Relation.ReflTransGen Enters c c') : c'.memory.Keeps P := by
  induction reached with
  | refl => exact start
  | @tail inner c' reached enters ih =>
    refine enters.keeps ih fun other enters' => nested other ?_ (reached.tail enters')
    exact Nat.lt_of_lt_of_le (enters'.depth ▸ Nat.lt_succ_self _) (depth_of_reached reached)

/-- If all that is kept is untainted before a call, it is so behind it. -/
theorem untainted_after (closed : ∀ {c c' : MethodCall}, made c → c.Enters c' → made c')
    (c : MethodCall) (comes : made c) (start : c.memory.Keeps (Untainted made)) :
    c.after.Keeps (Untainted made) := by
  have nested : ∀ other, other.depth < c.depth → Relation.ReflTransGen Enters c other →
      other.memory.Keeps (Untainted made) → other.after.Keeps (Untainted made) :=
    fun other _ reached => untainted_after closed other (made_of_reached closed comes reached)
  refine keeps_after start (fun other enters => nested other ?_ (.single enters))
    fun m values stores => ?_
  · exact enters.depth ▸ Nat.lt_succ_self _
  · exact .stored comes stores (fun _ reached => stores.not_cutOff reached)
      fun c' found reached => keeps_of_reached start nested reached c'.key found
termination_by c.depth

end MethodCall

/-! ## Queries -/

namespace Query

variable {ctx : Context} {qs : List Query} {q : Query} {e : Entry} {m : Memory} {c c' : MethodCall}

/-- The call comes up when the queries are asked, one behind the other. -/
def Comes (ctx : Context) (qs : List Query) (c : MethodCall) : Prop :=
  ∃ before q after e, qs = before ++ q :: after ∧
    q.opens? ctx (history ctx .empty before) = some e ∧ e.Makes ctx c

theorem Comes.enters (comes : Comes ctx qs c) (enters : c.Enters c') : Comes ctx qs c' := by
  obtain ⟨before, q, after, e, parts, opens, outer, deep, raised, reached⟩ := comes
  exact ⟨before, q, after, e, parts, opens, outer, deep, raised, reached.tail enters⟩

theorem history_append (ctx : Context) (before after : List Query) (m : Memory) :
    history ctx m (before ++ after) = history ctx (history ctx m before) after := by
  induction before generalizing m with
  | nil => rfl
  | cons q rest ih => exact ih (q.after ctx m)

/-- The paths of a query begin with what is kept before it. -/
theorem Entry.results (h : q.opens? ctx m = some e) : e.memory.results = m.results := by
  rcases entered h with same | ⟨id, code?, m', call, body, same⟩
  · rw [same]
  · have kept := (Analysis.body_keeps ctx.symbols id m).1
    rw [body] at kept
    rw [same]
    exact kept

/-- What is kept behind a query is as before it, if the calls in it leave it so. -/
theorem keeps_after {P : MemoKey → List Value → Prop} (start : m.Keeps P)
    (calls : ∀ e c, q.opens? ctx m = some e → e.Makes ctx c → c.memory.Keeps P →
      c.after.Keeps P) : (q.after ctx m).Keeps P := by
  cases opens : q.opens? ctx m with
  | none =>
    rcases after_of_none opens with ⟨id, same⟩ | ⟨d, same⟩
    · exact start.of_results (same ▸ (body_keeps ctx.symbols id m).1)
    · exact same ▸ (inert_keeps P).add start d
  | some e =>
    have left : (e.resolution ctx).2.Keeps P :=
      resolve_keeps (inert_keeps P) (fun c deep raised => calls e c opens ⟨c, deep, raised, .refl⟩)
        (start.of_results (Entry.results opens))
    rcases after_of_entry opens with same | same
    · exact same ▸ left
    · exact left.of_results (same ▸ rfl)

theorem Entry.retains_after (h : q.opens? ctx m = some e) :
    (e.resolution ctx).2.Retains (q.after ctx m) := by
  rcases after_of_entry h with same | same
  · exact Memory.retains_of_results (same ▸ rfl)
  · exact Memory.retains_of_results (same ▸ rfl)

theorem retains_after (ctx : Context) (m : Memory) (q : Query) : m.Retains (q.after ctx m) := by
  cases opens : q.opens? ctx m with
  | none =>
    rcases after_of_none opens with ⟨id, same⟩ | ⟨d, same⟩
    · exact Memory.retains_of_results (same ▸ (body_keeps ctx.symbols id m).1)
    · exact Memory.retains_of_results (same ▸ rfl)
  | some e =>
    have resolved : e.memory.Retains (e.resolution ctx).2 :=
      (abides_extends.resolve (abides_extends.passes _) ctx e.code e.scope
        (ctx.symbols.scopeVariables e.scope) e.memory).retains
    exact ((Memory.retains_of_results (Entry.results opens)).trans resolved).trans
      (Entry.retains_after opens)

theorem retains_history (ctx : Context) (qs : List Query) (m : Memory) :
    m.Retains (history ctx m qs) := by
  induction qs generalizing m with
  | nil => exact fun _ _ kept => kept
  | cons q rest ih => exact (retains_after ctx m q).trans (ih (q.after ctx m))

/-- What is kept behind a call is kept behind its query. -/
theorem Entry.Makes.retains (opens : q.opens? ctx m = some e) (made : e.Makes ctx c) :
    c.after.Retains (q.after ctx m) := by
  obtain ⟨outer, deep, raised, reached⟩ := made
  have within := (raised.inside abides_extends).2.retains
  rw [deep] at within
  exact ((MethodCall.retains_of_reached reached).trans within).trans (Entry.retains_after opens)

theorem untainted_history (before after : List Query) :
    (history ctx .empty before).Keeps (Untainted (Comes ctx (before ++ after))) := by
  induction before using List.reverseRecOn generalizing after with
  | nil => exact nofun
  | append_singleton front q ih =>
    rw [history_append, List.append_assoc]
    refine keeps_after (ih (q :: after)) fun e c opens made start => ?_
    exact MethodCall.untainted_after Comes.enters c ⟨front, q, after, e, rfl, opens, made⟩ start

/-- Whatever an analysis is asked, all that it ever keeps is untainted: it was stored behind a call
in which no call was cut off, however deep inside, and whatever was found on the way had been stored
so before.  What is kept once stays as it is: when results are stored, none are kept under their
key. -/
theorem kept_untainted (ctx : Context) (qs : List Query) :
    (∀ key values, (history ctx .empty qs).find? key = some values →
      Untainted (Comes ctx qs) key values) ∧
    (∀ c, Comes ctx qs c → ∀ key values,
      (c.memory.find? key = some values → c.after.find? key = some values) ∧
      (c.after.find? key = some values → (history ctx .empty qs).find? key = some values)) ∧
    ∀ c m values, Comes ctx qs c → c.Stores m values →
      m.find? c.key = none ∧ c.after = m.remember c.key values := by
  refine ⟨?_, fun c comes key values => ⟨c.extends_after.retains key values, ?_⟩,
    fun c m values _ stores => ⟨stores.unknown, stores.after⟩⟩
  · have whole := @untainted_history ctx qs []
    rwa [List.append_nil] at whole
  · obtain ⟨before, q, after, e, rfl, opens, made⟩ := comes
    rw [history_append]
    exact ((Entry.Makes.retains opens made).trans (retains_history ctx after _)) key values

/-- The last function of the tower is asked about, and then a call of the second: what is kept by
then has been stored behind calls that came up. -/
theorem kept_untainted_tower :
    let ctx := Context.outer (tower .standard).symbols .standard
    let qs := [.resolveMethod 2, .typeOfExpression callOfMid .module]
    (history ctx .empty qs).results.map (fun (_, values) => values.map Value.type) =
        [[.number], [.number]] ∧
      ∃ key values c m, (history ctx .empty qs).find? key = some values ∧
        Untainted (Comes ctx qs) key values ∧ Comes ctx qs c ∧ c.key = key ∧ c.Stores m values ∧
        m.find? key = none := by
  intro ctx qs
  have kept : (history ctx .empty qs).results.map (fun (_, values) => values.map Value.type) =
      [[.number], [.number]] := by
    have row : TokenRow.ofText towerText = _ := TokenRow.ofText_of_eq_ofList (by rw [towerText])
    dsimp only [ctx, qs]
    rw [tower, Compilation.ofText, Module.ofText, row]
    decide +kernel
  obtain ⟨untainted, -, stored⟩ := kept_untainted ctx qs
  refine ⟨kept, ?_⟩
  rcases results : (history ctx .empty qs).results with _ | ⟨⟨key, values⟩, rest⟩
  · rw [results] at kept
    cases kept
  · have found : (history ctx .empty qs).find? key = some values := by
      rw [Memory.find?, results, Assoc.find?, if_pos rfl]
    have origin := untainted key values found
    refine ⟨key, values, ?_⟩
    cases origin with
    | @stored c m _ comes stores whole hits =>
      exact ⟨c, m, found, .stored comes stores whole hits, comes, rfl, stores,
        (stored c m values comes stores).1⟩

end Query

end PathTyping
