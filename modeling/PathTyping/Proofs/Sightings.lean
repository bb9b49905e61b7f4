import PathTyping.Proofs.Consistent
import PathTyping.Proofs.Assignments

/-!
# What an analysis sees of an expression

The type of an expression is read off the branches on which paths have ended, but its value may have
been put into its slot on any branch, at any time.  No value is overlooked, and none is taken for
another: a slot is written by one instruction, and from each branch there come some on which paths
end.

1. A join depends on what is joined, up to the order of its alternatives (`Ty.perm_arms_join`).
2. In a resolution, a slot is written by its instruction alone (`Query.Entry.once_resolution`), and
   what was seen on a branch is seen where a path has ended (`Resolution.Bears.exists_end`).
3. The code has one instruction for the value of an expression (`FunctionDecl.Finds.evaluates`).
4. So the ends see whatever was bound, and nothing else (`evaluations_seen`).
-/

namespace PathTyping

open Walk

/-! ## Joins -/

namespace Ty

variable {seen types others found as bs : List Ty} {a : Ty}

theorem perm_arms_ofArms (h : as.Perm bs) : (ofArms as).arms.Perm (ofArms bs).arms := by
  have length := h.length_eq
  rcases as with _ | ⟨a, _ | ⟨a', as⟩⟩
  · rw [List.length_eq_zero_iff.1 length.symm]
  · obtain ⟨b, rfl⟩ := List.length_eq_one_iff.1 length.symm
    rw [List.perm_singleton.1 h]
  · rcases bs with _ | ⟨b, _ | ⟨b', bs⟩⟩
    · cases length
    · exact absurd length (by simp)
    · exact h

/-- Neither the order of the types nor how often each is there matters, but for the order of the
alternatives. -/
theorem perm_arms_join (h : ∀ t, t ∈ types ↔ t ∈ others) :
    (join types).arms.Perm (join others).arms := by
  unfold join
  cases left : joinArms [] types with
  | none =>
    rw [joinArms_eq_none_iff.2 ((h any).1 (joinArms_eq_none_iff.1 left))]
  | some as =>
    cases right : joinArms [] others with
    | none =>
      have absorbed : joinArms [] types = none :=
        joinArms_eq_none_iff.2 ((h any).2 (joinArms_eq_none_iff.1 right))
      cases left.symm.trans absorbed
    | some bs =>
      have once := nodup_joinArms List.nodup_nil left
      have once' := nodup_joinArms List.nodup_nil right
      refine perm_arms_ofArms ((List.perm_ext_iff_of_nodup once once').2 fun a => ?_)
      rw [mem_joinArms_iff left, mem_joinArms_iff right]
      simp only [h]

end Ty

/-! ## Resolutions -/

/-- Wherever a walk comes to, it finds what is carried there. -/
theorem Leads.prepared {t : SymbolTable} {invoke : Invoke} {steps : List Step} {s s₁ : State}
    {task task' : Task} (calls : Invoke.Clean t invoke) (supplied : Supplied steps)
    (leads : Leads invoke steps.toArray task s task' s₁) (h : task.Prepared t steps s) :
    task'.Prepared t steps s₁ := by
  induction leads with
  | here => exact h
  | onward done goes _ ih => exact ih (h.step calls supplied done goes)
  | first _ ih => exact ih h.first
  | later before _ ih =>
    exact ih (h.rest (before.framed h.first.stands).1.grows (before.clean calls supplied h.first))
  | eachFirst bound _ ih => exact ih (h.eachFirst bound)
  | eachLater bound before _ ih =>
    exact ih (h.eachLater bound before (before.clean calls supplied (h.eachFirst bound)))

theorem Walk.types_bindAll {id : Nat} (locals : List (String × Value)) :
    LeavesTypes id (locals.forM fun (name, v) => bindVariable id name v) := by
  induction locals with
  | nil => exact (overlooks_alike id).returns _
  | cons p rest ih => exact (overlooks_alike id).seq (types_bindVariable p.1 p.2) fun _ => ih

section Start

variable {scope : Scope} {locals : List (String × Value)} {m : Memory} {s : State} {ctx : Context}

/-- A fresh root is alone, and nothing is seen on it in any slot. -/
theorem Walk.openRoot_alone (opened : Gives (openRoot scope locals) (.empty, m) () s) :
    s.1.size = 1 ∧ (∀ k p, ¬ s.1.ComesFrom k p) ∧ ∀ slot, s.1.seen 0 slot = none := by
  obtain ⟨f, hf, arena⟩ := openRoot_bound opened
  have size : s.1.size = 1 := arena ▸ Arena.size_modify _ _ _
  have root : (Arena.empty.root scope).branch? 0 = some (.fresh (.root scope) []) :=
    Arena.branch?_push_size .empty _
  refine ⟨size, fun k p comes => ?_, fun slot => ?_⟩
  · obtain rfl : k = 0 := Nat.lt_one_iff.1 (size ▸ comes.lt)
    rw [arena, Arena.comesFrom_modify hf.parent] at comes
    obtain ⟨b, found, parent⟩ := comes
    cases root.symm.trans found
    cases parent
  · obtain ⟨_, s₁, planted, bound⟩ := gives_bind_iff.1 opened
    obtain rfl := gives_modify_iff.1 planted
    refine (congrFun (types_bindAll locals bound).types slot).trans ?_
    exact Arena.seen_of_alone root fun ⟨_, _, parent⟩ => Parent.noConfusion parent

theorem Walk.unsplit_openRoot (opened : Gives (openRoot scope locals) (.empty, m) () s) :
    (Task.path ctx 0 0).Unsplit 1 s.1 := by
  obtain ⟨size, uncome, -⟩ := openRoot_alone opened
  refine ⟨fun k late old => ?_, show 0 < s.1.size by omega, List.nodup_singleton 0, ?_⟩
  · omega
  · rintro k - ⟨j, -, comes⟩
    exact uncome j k comes

theorem Walk.singly_openRoot (opened : Gives (openRoot scope locals) (.empty, m) () s)
    (slot : Slot) (i : Nat) (E : Prop) : (Task.path ctx 0 0).Singly slot i E s.1 := by
  obtain ⟨size, uncome, nothing⟩ := openRoot_alone opened
  refine ⟨show 0 < s.1.size by omega, ⟨fun k p comes => absurd comes (uncome k p),
    fun k b found there => ?_, fun k p T comes => absurd comes (uncome k p)⟩, nofun⟩
  obtain rfl : k = 0 := Nat.lt_one_iff.1 (size ▸ Arena.lt_size_of_branch? found)
  rw [nothing] at there
  cases there

end Start

namespace Resolution

variable {r : Resolution} {scope : Scope} {slot : Slot} {i : Nat} {E : Prop} {span : Span} {T : Ty}

/-- What is seen on a branch is seen where a path has ended. -/
theorem Bears.exists_end (bears : r.Bears scope) (once : r.arena.Once slot i E) {k : Nat}
    (there : r.arena.seen k slot = some T) : ∃ e ∈ r.terminals, r.arena.seen e slot = some T := by
  have inside := Arena.lt_size_of_seen there
  -- Branches that come of one are younger, so there are fewer behind each.
  induction left : r.arena.size - k using Nat.strongRecOn generalizing k with
  | _ n ih =>
    by_cases ended : k ∈ r.terminals
    · exact ⟨k, ended, there⟩
    · obtain ⟨j, comes⟩ := not_not.1 fun unforked => ended ((bears.leaf k inside).2 unforked)
      have comes : r.arena.ComesFrom j k := comes
      have younger := once.older j k comes
      have inside' := comes.lt
      exact ih (r.arena.size - j) (by omega) (once.inherits j k T comes there) inside' rfl

/-- The types that are seen in the slot where paths have ended. -/
def endTypes (r : Resolution) (slot : Slot) : List Ty := r.terminals.filterMap (r.arena.seen · slot)

theorem typeAt_of_slotFor? (found : r.code.slotFor? span = some slot) :
    r.typeAt span = if r.endTypes slot = [] then none else some (.join (r.endTypes slot)) := by
  have types : r.endTypes slot =
      (r.terminals.filterMap fun id => r.arena.lookupSlot id slot).map Value.type :=
    List.map_filterMap.symm
  rw [typeAt, found, types]
  dsimp only
  cases r.terminals.filterMap fun id => r.arena.lookupSlot id slot <;> rfl

end Resolution

/-! ### What is ever bound -/

section Binds

variable {a : Arena} {k : Nat} {slot : Slot} {T : Ty}

/-- On some branch there is a value of the type in the slot. -/
def Arena.Binds (a : Arena) (slot : Slot) (T : Ty) : Prop :=
  ∃ k b v, a.branch? k = some b ∧ Assoc.find? b.slots slot = some v ∧ v.type = T

theorem Arena.Binds.seen (h : a.Binds slot T) : ∃ k, a.seen k slot = some T := by
  obtain ⟨k, b, v, found, bound, rfl⟩ := h
  obtain ⟨rest, lineage⟩ := lineage_eq_cons found
  refine ⟨k, ?_⟩
  rw [Arena.seen, lookupSlot_eq lineage, bound]
  rfl

theorem Arena.binds_of_seen (h : a.seen k slot = some T) : a.Binds slot T := by
  obtain ⟨v, found, rfl⟩ := Option.map_eq_some_iff.1 h
  obtain ⟨b, behind, bound⟩ := List.exists_of_findSome?_eq_some found
  obtain ⟨j, there⟩ := mem_lineage behind
  exact ⟨j, b, v, there, bound, rfl⟩

end Binds

namespace Query.Entry

variable {ctx : Context} {o : Entry} {task : Task} {slot : Slot} {i : Nat} {T : Ty} {s : State}

/-- A task that the paths come to, and the state there. -/
def ComesTo (ctx : Context) (o : Entry) (task : Task) (s : State) : Prop :=
  ∃ s₀, Gives (openRoot o.scope (ctx.symbols.scopeVariables o.scope)) (.empty, o.memory) () s₀ ∧
    Leads (Analysis.calls ctx o.memory) o.code.steps.toArray (.path ctx 0 0) s₀ task s

/-- A path executes the instruction: it comes there for the first time. -/
def Executes (ctx : Context) (o : Entry) (i : Nat) : Prop :=
  ∃ ctx' k s, o.ComesTo ctx (.path ctx' k i) s ∧ (s.1.visit k i).1 = true

/-- A value of the type is in the slot on some branch, at any time: wherever the paths come to, for
what a step puts into a slot is there when it is done, or in the end. -/
def EverBinds (ctx : Context) (o : Entry) (slot : Slot) (T : Ty) : Prop :=
  (∃ task s, o.ComesTo ctx task s ∧ s.1.Binds slot T) ∨
    (o.resolution ctx).1.arena.Binds slot T

end Query.Entry

namespace Query.Entry

variable {ctx : Context} {o : Entry} {slot : Slot} {i : Nat} {T : Ty}

/-- What the paths of an entry come to: the slot has been written by its instruction alone, what
has been seen there on the way is seen in the end, and something is if the instruction has been
executed. -/
theorem once_resolution (clean : o.memory.Clean ctx.symbols) (supplied : Supplied o.code.steps)
    (alone : ∀ k step, o.code.steps[k]? = some step → step.instr.result? = some slot → k = i)
    (writes : ∃ step, o.code.steps[i]? = some step ∧ step.instr.result? = some slot) :
    let a := (o.resolution ctx).1.arena
    a.Once slot i (o.Executes ctx i) ∧ (∀ task s, o.ComesTo ctx task s → s.1.Retains slot a) ∧
      (o.Executes ctx i → ∃ k T, a.seen k slot = some T) := by
  intro a
  obtain ⟨s₀, ends, s', opened, walks, run⟩ := resolve_walks (Analysis.calls ctx o.memory) ctx
    o.code o.scope (ctx.symbols.scopeVariables o.scope) o.memory
  have final : a = s'.1 := congrArg (·.1.arena) run
  have calls : Invoke.Clean ctx.symbols (Analysis.calls ctx o.memory) := Analysis.clean_invoke _ _
  have prepared : (Task.path ctx 0 0).Prepared ctx.symbols o.code.steps s₀ :=
    (ready_openRoot clean opened o.code.steps).prepared rfl
  have unsplit : (Task.path ctx 0 0).Unsplit 1 s₀.1 := unsplit_openRoot opened
  have singly : (Task.path ctx 0 0).Singly slot i (o.Executes ctx i) s₀.1 :=
    singly_openRoot opened slot i _
  have walks : Walks (Analysis.calls ctx o.memory) o.code.steps.toArray
      (fun _ => Poised ctx.symbols o.code.steps i (o.Executes ctx i)) (.path ctx 0 0) s₀ ends
      s' := walks.of_leads fun ctx' k index s leads => by
    have here := leads.prepared calls supplied prepared
    refine ⟨here.path, (leads.unsplit unsplit).unsplit k (List.mem_singleton_self k), ?_⟩
    rintro rfl first
    exact ⟨ctx', k, s, ⟨s₀, opened, leads⟩, first⟩
  have retains (task : Task) (s : State) (comes : o.ComesTo ctx task s) : s.1.Retains slot a := by
    obtain ⟨s₀', opened', leads⟩ := comes
    obtain ⟨-, rfl⟩ := opened.unique opened'
    exact final ▸ (leads.once supplied alone walks singly).2
  refine ⟨final ▸ (walks.once supplied alone singly).1, retains, ?_⟩
  rintro ⟨ctx', k, s, ⟨s₀', opened', leads⟩, first⟩
  obtain ⟨-, rfl⟩ := opened.unique opened'
  obtain ⟨step, found, writes⟩ := writes
  obtain ⟨others, s₁, rest⟩ := leads.walks walks
  obtain ⟨task, s₂, j, T, onward, seen⟩ :=
    rest.binds supplied (leads.holds walks).ready found writes first
  exact ⟨j, T, retains task s₂ ⟨s₀, opened, leads.trans onward⟩ j T seen⟩

end Query.Entry

/-! ## The instruction of an expression -/

/-- The instruction at `i` is the one that computes the value of the expression, and the only one
that writes the slot which the code names for it. -/
structure Code.Evaluates (code : Code) (e : Expr) (slot : Slot) (i : Nat) : Prop where
  finds : code.slotFor? e.span = some slot
  computes : ∃ step, code.steps[i]? = some step ∧ step.span = e.source.span ∧
    e.source.instr? slot step.instr.operands = some step.instr
  alone : ∀ k step, code.steps[k]? = some step → step.instr.result? = some slot → k = i

theorem Code.Evaluates.writes {code : Code} {e : Expr} {slot : Slot} {i : Nat}
    (h : code.Evaluates e slot i) :
    ∃ step, code.steps[i]? = some step ∧ step.instr.result? = some slot := by
  obtain ⟨step, found, -, instr⟩ := h.computes
  exact ⟨step, found, (Expr.of_instr? instr).2⟩

/-- Wherever the code of an expression stands, an instruction of it computes the value. -/
theorem Expr.computes_of_infix {e : Expr} {used : Nat} {x : ExprCode} {steps : List Step}
    (lowered : e.lower used = .ok x) (within : x.code.steps <:+: steps) :
    ∃ (i : Nat) (step : Step), steps[i]? = some step ∧ step.span = e.source.span ∧
      e.source.instr? x.value step.instr.operands = some step.instr := by
  obtain ⟨front, back, rfl⟩ := within
  let base := front.length
  let roles := List.replicate base Role.jump ++ e.roles base
  have placed : Placed (front ++ x.code.steps ++ back) roles x.code.steps (e.roles base) base := by
    refine ⟨?_, ?_⟩
    · rw [List.append_assoc, List.drop_left]
      exact List.prefix_append _ _
    · rw [List.drop_append_of_le_length (by simp), List.drop_of_length_le (by simp),
        List.nil_append]
  have laid := e.lower_laid used x base lowered placed
  obtain ⟨⟨⟨left, right⟩, computes⟩, -⟩ := List.forall₂_cons.1 laid.values
  obtain ⟨step, role, found, known, fits, -⟩ := laid.traced _ left right
  obtain ⟨role', known', mine⟩ := computes.role
  cases known.symm.trans known'
  obtain ⟨span, -, slot, instr⟩ := fits _ mine
  obtain ⟨step', found', writes⟩ := computes.result
  cases found.symm.trans found'
  cases (Expr.of_instr? instr).2.symm.trans writes
  exact ⟨_, step, found, span, instr⟩

/-- Each expression that is evaluated has an instruction. -/
theorem FunctionDecl.Finds.evaluates {f : FunctionDecl} {code : Code} (h : f.Finds code)
    (lowers : f.toCode = .ok code) {e : Expr} (inside : e ∈ f.expressions)
    (read : ∀ s v, .assign s e v ∉ f.expressions) : ∃ slot i, code.Evaluates e slot i := by
  obtain ⟨used, x, -, lowered, within, finds⟩ := h.produced e inside read
  obtain ⟨i, step, found, span, instr⟩ := e.computes_of_infix lowered within
  have apart : (results code.steps).Nodup := by
    obtain ⟨g, body, same⟩ := FunctionDecl.toCode_steps lowers
    rw [← same, Stmt.lowerBlock_results body]
    exact List.nodup_range' 1
  exact ⟨x.value, i, finds, ⟨step, found, span, instr⟩, fun k step' found' writes' =>
    eq_of_results apart found' found writes' (Expr.of_instr? instr).2⟩

/-! ## What is found for an expression -/

namespace Query.Entry

variable {ctx : Context} {o : Entry} {slot : Slot} {i : Nat} {e : Expr}

/-- What is found is nothing if no path has executed the instruction, and otherwise the union of
the types, finitely many, of all values that were ever put into the slot. -/
structure Sees (ctx : Context) (o : Entry) (slot : Slot) (i : Nat) (found : Option Ty) :
    Prop where
  evaluated : found = none ↔ ¬ o.Executes ctx i
  finite : ∃ types : List Ty, ∀ T, T ∈ types ↔ o.EverBinds ctx slot T
  union : ∀ T types, found = some T → (∀ U, U ∈ types ↔ o.EverBinds ctx slot U) →
    T.arms.Perm (Ty.join types).arms

theorem resolution_code (ctx : Context) (o : Entry) : (o.resolution ctx).1.code = o.code := by
  obtain ⟨s, ends, s', -, -, run⟩ := resolve_walks (Analysis.calls ctx o.memory) ctx o.code o.scope
    (ctx.symbols.scopeVariables o.scope) o.memory
  exact congrArg (·.1.code) run

section Sees

variable (clean : o.memory.Clean ctx.symbols) (supplied : Supplied o.code.steps)
  (evaluates : o.code.Evaluates e slot i)

include clean supplied evaluates

/-- The ends of the paths see whatever was bound, and nothing else. -/
theorem mem_endTypes_iff {T : Ty} :
    T ∈ (o.resolution ctx).1.endTypes slot ↔ o.EverBinds ctx slot T := by
  obtain ⟨once, retains, -⟩ := once_resolution clean supplied evaluates.alone evaluates.writes
  have bears : (o.resolution ctx).1.Bears o.scope := resolve_bears _ _ _ _ _ _
  constructor
  · intro ended
    obtain ⟨k, -, seen⟩ := List.mem_filterMap.1 ended
    exact .inr (Arena.binds_of_seen seen)
  · intro ever
    obtain ⟨k, seen⟩ : ∃ k, (o.resolution ctx).1.arena.seen k slot = some T := by
      rcases ever with ⟨task, s, comes, binds⟩ | binds
      · obtain ⟨k, seen⟩ := binds.seen
        exact ⟨k, retains task s comes k T seen⟩
      · exact binds.seen
    obtain ⟨k', ended, seen⟩ := bears.exists_end once seen
    exact List.mem_filterMap.2 ⟨k', ended, seen⟩

/-- Something is bound if the instruction is executed, and only then. -/
theorem executes_iff : o.Executes ctx i ↔ (o.resolution ctx).1.endTypes slot ≠ [] := by
  obtain ⟨once, -, bound⟩ := once_resolution clean supplied evaluates.alone evaluates.writes
  constructor
  · intro executes
    obtain ⟨k, T, seen⟩ := bound executes
    exact List.ne_nil_of_mem <|
      (mem_endTypes_iff clean supplied evaluates).2 (.inr (Arena.binds_of_seen seen))
  · intro some_
    obtain ⟨T, ended⟩ := List.exists_mem_of_ne_nil _ some_
    obtain ⟨k, -, seen⟩ := List.mem_filterMap.1 ended
    obtain ⟨b, found⟩ := Arena.exists_branch (Arena.lt_size_of_seen seen)
    exact (once.came k b found (Option.isSome_of_mem seen)).2

theorem sees_resolution : o.Sees ctx slot i ((o.resolution ctx).1.typeAt e.span) := by
  have finds : (o.resolution ctx).1.code.slotFor? e.span = some slot := by
    rw [resolution_code]
    exact evaluates.finds
  have all (T : Ty) : T ∈ (o.resolution ctx).1.endTypes slot ↔ o.EverBinds ctx slot T :=
    mem_endTypes_iff clean supplied evaluates
  rw [Resolution.typeAt_of_slotFor? finds]
  refine ⟨?_, ⟨_, all⟩, ?_⟩
  · rw [executes_iff clean supplied evaluates, not_not]
    split
    · next none_ => exact iff_of_true rfl none_
    · next some_ => exact iff_of_false nofun some_
  · intro T others answer same
    obtain ⟨-, ⟨⟩⟩ := Option.ite_none_left_eq_some.1 answer
    exact Ty.perm_arms_join fun U => (all U).trans (same U).symm

end Sees

end Query.Entry

/-- The body of a method of a module is that of one of its functions, if there is anything in it. -/
theorem Module.exists_function {m : Module} {id : Nat} {e : Expr}
    (inside : e ∈ ((SymbolTable.ofModule m).1.method id).decl.expressions) :
    ∃ f ∈ m.functions, ((SymbolTable.ofModule m).1.method id).decl = f.2 := by
  unfold SymbolTable.method at inside ⊢
  cases found : (SymbolTable.ofModule m).1.methods[id]? with
  | none =>
    rw [found] at inside
    cases inside
  | some x =>
    obtain ⟨t, owner, f, hf, rfl⟩ :=
      (Filing.files_ofModule m).methods x (List.mem_of_getElem? found)
    exact ⟨f, hf, rfl⟩

/-- Whatever has been asked before about a module that is read from a text: what is found for an
expression of the body of a method, unless it is the target of an assignment, is nothing if no path
has executed the instruction that computes it; and otherwise it is the union of the types of all
values that were in the slot of the expression, on any branch and at any time, also on paths that
were cut off. -/
theorem evaluations_seen {text : String} {m : Module} {read : Report}
    (parsed : Module.ofText text = .ok (m, read)) {ctx : Context}
    (symbols : ctx.symbols = (SymbolTable.ofModule m).1) {queries : List Query}
    (lowered : ∀ q ∈ queries, q.IsLowered) {id : Nat} {code : Code}
    (lowers : (ctx.symbols.method id).decl.toCode = .ok code) {e : Expr}
    (inside : e ∈ (ctx.symbols.method id).decl.expressions)
    (valued : ∀ s v, .assign s e v ∉ (ctx.symbols.method id).decl.expressions) :
    let memory := Query.history ctx .empty queries
    ∃ o slot i, (Query.resolveMethod id).opens? ctx memory = some o ∧ o.code = code ∧
      code.Evaluates e slot i ∧
        o.Sees ctx slot i (((Analysis.resolveMethod ctx id).run memory).1.typeAt e.span) := by
  intro memory
  have clean : memory.Clean ctx.symbols := Query.clean_history lowered (.empty _)
  have finds : (ctx.symbols.method id).decl.Finds code := by
    rw [symbols] at lowers inside ⊢
    obtain ⟨f, hf, same⟩ := Module.exists_function inside
    rw [same] at lowers ⊢
    obtain ⟨row, scanned, parsed⟩ := Module.exists_tokens parsed
    have apart := (Module.ofTokens_spans parsed (TokenRow.ordered scanned)).apart
    exact FunctionDecl.finds_of_nodup lowers
      (apart.sublist ((Module.sublist_expressions hf).map Expr.span))
  obtain ⟨slot, i, evaluates⟩ := finds.evaluates lowers inside valued
  have opens := Query.opens?_of_faithful clean.faithful id
  rw [lowers] at opens
  refine ⟨_, slot, i, opens, rfl, evaluates, ?_⟩
  rw [Query.resolveMethod_of_entry opens]
  refine Query.Entry.sees_resolution ?_ (FunctionDecl.toCode_accounts lowers).carries evaluates
  exact (Analysis.clean_body ctx.symbols id clean).of_eq rfl rfl

/-- A call in a loop, and one behind a return. -/
def pickingText : String := "
  fn pick(n) \x7b if n \x7b return 1 \x7d
    return \"one\" \x7d
  fn main(n) \x7b while n < 9 \x7b n = pick(n) \x7d
    return n
    pick(n) \x7d
"

def pickingRead : Module × Report := ((Module.ofText pickingText).toOption).getD default

def pickingContext : Context := .outer (SymbolTable.ofModule pickingRead.1).1 .standard

def pickingMain : FunctionDecl := (pickingContext.symbols.method 1).decl

def pickingCode : Code := pickingMain.toCode.toOption.getD default

/-- What the body comes to when results of the call are kept. -/
def picked : Resolution :=
  ((Analysis.resolveMethod pickingContext 1).run
    (Query.history pickingContext .empty [.returnType 0])).1

/-- The call in the loop, and the one behind the return. -/
def pickingCalls : Expr × Expr :=
  (pickingMain.expressions[5]?.getD default, pickingMain.expressions[9]?.getD default)

/-- What is assigned to. -/
def Expr.assignee? : Expr → Option Expr
  | .assign _ t _ => some t
  | _ => none

/-- What the call in the loop gives is found, although every path that makes it is cut off when it
comes back to the condition. -/
theorem evaluations_seen_picking :
    Module.ofText pickingText = .ok pickingRead ∧ (Query.returnType 0).IsLowered ∧
      pickingMain.toCode = .ok pickingCode ∧
      (∀ e ∈ [pickingCalls.1, pickingCalls.2], e ∈ pickingMain.expressions ∧
        ∀ s v, .assign s e v ∉ pickingMain.expressions) ∧
      picked.typeAt pickingCalls.1.span = some (.union [.number, .string]) ∧
      picked.typeAt pickingCalls.2.span = none ∧
      (∃ (o : Query.Entry) (slot : Slot) (i : Nat), pickingCode.Evaluates pickingCalls.1 slot i ∧
        o.Executes pickingContext i ∧
        (∀ k ∈ picked.terminals, (picked.arena.seen k slot).isSome = true →
          (picked.arena.branch? k).any Resolution.isCutoff = true) ∧
        ∀ types, (∀ T, T ∈ types ↔ o.EverBinds pickingContext slot T) →
          [Ty.number, Ty.string].Perm (Ty.join types).arms) ∧
      ∃ (o : Query.Entry) (slot : Slot) (i : Nat), pickingCode.Evaluates pickingCalls.2 slot i ∧
        ¬ o.Executes pickingContext i := by
  obtain ⟨read, lowers, inside, inside', apart, named, found, found', cut⟩ :
      (Module.ofText pickingText).toOption.isSome = true ∧
        pickingMain.toCode.toOption.isSome = true ∧
        pickingMain.expressions[5]?.isSome = true ∧ pickingMain.expressions[9]?.isSome = true ∧
        ((pickingMain.expressions.filterMap Expr.assignee?).all fun t =>
          t.span != pickingCalls.1.span && t.span != pickingCalls.2.span) = true ∧
        pickingCode.slotFor? pickingCalls.1.span = some 6 ∧
        picked.typeAt pickingCalls.1.span = some (.union [.number, .string]) ∧
        picked.typeAt pickingCalls.2.span = none ∧
        (picked.terminals.all fun k => !(picked.arena.seen k 6).isSome ||
          (picked.arena.branch? k).any Resolution.isCutoff) = true := by
    decide +kernel
  have parsed : Module.ofText pickingText = .ok pickingRead := eq_ok_of_isSome read
  have pair : Module.ofText pickingText = .ok (pickingRead.1, pickingRead.2) := by
    rw [Prod.eta, parsed]
  have lowered : pickingMain.toCode = .ok pickingCode := eq_ok_of_isSome lowers
  have mem {n : Nat} (there : pickingMain.expressions[n]?.isSome = true) :
      pickingMain.expressions[n]?.getD default ∈ pickingMain.expressions := by
    obtain ⟨e, found⟩ := Option.isSome_iff_exists.1 there
    rw [found]
    exact List.mem_of_getElem? found
  have asks : ∀ e ∈ [pickingCalls.1, pickingCalls.2], e ∈ pickingMain.expressions ∧
      ∀ s v, .assign s e v ∉ pickingMain.expressions := by
    have other (s : Span) (t v : Expr) (target : .assign s t v ∈ pickingMain.expressions) :
        t.span ≠ pickingCalls.1.span ∧ t.span ≠ pickingCalls.2.span := by
      have spans := List.all_eq_true.1 apart t (List.mem_filterMap.2 ⟨_, target, rfl⟩)
      simpa using spans
    refine List.forall_mem_cons.2 ⟨⟨mem inside, fun s v target => (other s _ v target).1 rfl⟩, ?_⟩
    exact List.forall_mem_singleton.2 ⟨mem inside', fun s v target => (other s _ v target).2 rfl⟩
  have asked : ∀ q ∈ [Query.returnType 0], q.IsLowered := List.forall_mem_singleton.2 trivial
  obtain ⟨⟨first, valued⟩, second⟩ := List.forall_mem_cons.1 asks
  obtain ⟨second, valued'⟩ := List.forall_mem_singleton.1 second
  obtain ⟨o, slot, i, -, -, evaluates, sees⟩ :=
    evaluations_seen pair rfl asked lowered first valued
  obtain ⟨o', slot', i', -, -, evaluates', sees'⟩ :=
    evaluations_seen pair rfl asked lowered second valued'
  refine ⟨parsed, trivial, lowered, asks, found, found', ⟨o, slot, i, evaluates, ?_, ?_, ?_⟩,
    o', slot', i', evaluates', sees'.evaluated.1 found'⟩
  · by_contra unexecuted
    cases (sees.evaluated.2 unexecuted).symm.trans found
  · cases named.symm.trans evaluates.finds
    intro k ended seen
    have either := List.all_eq_true.1 cut k ended
    rw [seen, Bool.not_true, Bool.false_or] at either
    exact either
  · exact fun types same => sees.union _ types found same

end PathTyping
