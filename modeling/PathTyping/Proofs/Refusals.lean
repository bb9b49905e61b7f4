import PathTyping.Proofs.Attribution
import PathTyping.Proofs.Patches

/-!
# Bodies without code

Members and indexed values can be written left of `=`, but code can only assign to names.  Lowering
stops at the first assignment to anything else, however deep in the body it is hidden, and a
compilation reports it in place of what it would have found in the code.

1. `Expr.refused?` is what lowering refuses of an expression by itself; a body is refused for the
   first expression of which something is refused (`FunctionDecl.fault?_toCode`).
2. Readers let nothing but names, members and indexed values be assigned to
   (`Module.isAssignable`), and list expressions in the order of the text (`Module.inTextOrder`).
3. What is said of a report and of the code that is kept lasts through an analysis
   (`Memory.Lasting`, `Query.lasting_history`): so a body that has no code has been reported
   (`Memory.lasting_explains`).
4. `refusals_reported`: which bodies are refused, for what, and what is told of it.
-/

namespace PathTyping

/-! ## Faults -/

/-- Why something has no code, if it has none. -/
def fault? {α : Type} : Except LowerError α → Option LowerError
  | .ok _ => none
  | .error e => some e

section Fault

variable {α β : Type}

@[simp] theorem fault?_pure (v : α) : fault? (pure v) = none := rfl

/-- Of two faults the first counts. -/
theorem fault?_bind {x : Except LowerError α} {f : α → Except LowerError β} {o : Option LowerError}
    (h : ∀ v, fault? (f v) = o) : fault? (x >>= f) = (fault? x).or o := by
  cases x with
  | error e => rfl
  | ok v => exact h v

theorem fault?_bind_pure (x : Except LowerError α) (f : α → β) :
    fault? (x >>= fun v => pure (f v)) = fault? x := by
  cases x <;> rfl

theorem fault?_eq_some {x : Except LowerError α} {e : LowerError} :
    fault? x = some e ↔ x = .error e := by
  cases x <;> simp [fault?]

end Fault

namespace Expr

/-- What lowering refuses of an expression itself, whatever its parts: to assign to anything but a
name. -/
def refused? : Expr → Option LowerError
  | assign _ (name _ _) _ => none
  | assign _ t _ => some (.unsupportedTarget t.span)
  | _ => none

mutual

/-- The code of an expression is refused for the first of its parts that lowering refuses. -/
theorem fault?_lower : ∀ (e : Expr) (used : Nat),
    fault? (e.lower used) = e.preorder.findSome? refused?
  | literal s v, used | name s n, used | self s, used => rfl
  | unary s op e, used | group s e, used | member s e n ns, used => by
    rw [lower, fault?_bind_pure, fault?_lower e, preorder]
    rfl
  | binary s op l r, used => by
    show _ = (l.preorder ++ r.preorder).findSome? refused?
    rw [lower, fault?_bind fun x => by rw [fault?_bind_pure, fault?_lower r], fault?_lower l,
      List.findSome?_append]
  | index s o i, used => by
    show _ = (o.preorder ++ i.preorder).findSome? refused?
    rw [lower, fault?_bind fun x => by rw [fault?_bind_pure, fault?_lower i], fault?_lower o,
      List.findSome?_append]
  | call s f args, used => by
    show _ = (f.preorder ++ preorderList args).findSome? refused?
    rw [lower, fault?_bind fun x => by rw [fault?_bind_pure, fault?_lowerList args],
      fault?_lower f, List.findSome?_append]
  | assign s (name r n) v, used => by
    rw [lower, fault?_bind_pure, fault?_lower v]
    rfl
  | assign s (literal _ _) v, used | assign s (self _) v, used | assign s (unary _ _ _) v, used
  | assign s (binary _ _ _ _) v, used | assign s (assign _ _ _) v, used
  | assign s (call _ _ _) v, used | assign s (member _ _ _ _) v, used
  | assign s (index _ _ _) v, used | assign s (group _ _) v, used => rfl

theorem fault?_lowerList : ∀ (es : List Expr) (used : Nat),
    fault? (lowerList used es) = (preorderList es).findSome? refused?
  | [], used => rfl
  | e :: rest, used => by
    rw [lowerList, fault?_bind fun x => by rw [fault?_bind_pure, fault?_lowerList rest],
      fault?_lower e, preorderList, List.findSome?_append]

end

end Expr

namespace Stmt

open PathTyping.Expr (refused?)

mutual

theorem fault?_lower : ∀ (s : Stmt) (base used : Nat),
    fault? (s.lower base used) = s.expressions.findSome? refused?
  | var s n e, base, used | ret s (some e), base, used | expr e, base, used => by
    rw [lower, fault?_bind_pure, e.fault?_lower, expressions]
  | ret s none, base, used => rfl
  | cond s c a none, base, used => by
    rw [lower, fault?_bind fun x => by rw [fault?_bind_pure, fault?_lowerBlock a],
      c.fault?_lower, expressions, List.append_nil, List.findSome?_append]
  | cond s c a (some b), base, used => by
    rw [lower, fault?_bind fun x => by
      rw [fault?_bind fun y => by rw [fault?_bind_pure, fault?_lowerBlock b], fault?_lowerBlock a],
      c.fault?_lower, expressions, List.findSome?_append, List.findSome?_append, Option.or_assoc]
  | loop s c b, base, used => by
    rw [lower, fault?_bind fun x => by rw [fault?_bind_pure, fault?_lowerBlock b],
      c.fault?_lower, expressions, List.findSome?_append]

theorem fault?_lowerBlock : ∀ (b : List Stmt) (base used : Nat),
    fault? (lowerBlock base used b) = (blockExpressions b).findSome? refused?
  | [], base, used => rfl
  | s :: rest, base, used => by
    rw [lowerBlock, fault?_bind fun x => by rw [fault?_bind_pure, fault?_lowerBlock rest],
      fault?_lower s, blockExpressions, List.findSome?_append]

end

end Stmt

theorem FunctionDecl.fault?_toCode (f : FunctionDecl) :
    fault? f.toCode = f.expressions.findSome? Expr.refused? := by
  unfold toCode
  dsimp only
  rw [fault?_bind_pure, Stmt.fault?_lowerBlock, expressions]

/-! ## Functions of a module -/

/-- The expression assigns to the member, or to the indexed value, at `target`. -/
inductive Expr.AssignsInto : Expr → Span → Prop
  | member (s target : Span) (object : Expr) (name : String) (nameSpan : Span) (v : Expr) :
      AssignsInto (.assign s (.member target object name nameSpan) v) target
  | index (s target : Span) (object i v : Expr) :
      AssignsInto (.assign s (.index target object i) v) target

/-- The first expression in the body that assigns to a member or to an indexed value assigns to
the one at `target`. -/
def FunctionDecl.FirstAssignsInto (f : FunctionDecl) (target : Span) : Prop :=
  ∃ before e after, f.expressions = before ++ e :: after ∧ e.AssignsInto target ∧
    ∀ n ∈ before, ∀ other, ¬ n.AssignsInto other

/-- Nothing is assigned to but names, members and indexed values. -/
def FunctionDecl.IsAssignable (f : FunctionDecl) : Prop :=
  ∀ s t v, .assign s t v ∈ f.expressions → t.isTarget = true

theorem Expr.refused?_eq_some {n : Expr} {e : LowerError}
    (targets : ∀ s t v, n = .assign s t v → t.isTarget = true) :
    n.refused? = some e ↔ ∃ target, n.AssignsInto target ∧ e = .unsupportedTarget target := by
  cases n with
  | assign s t v =>
    have fits := targets s t v rfl
    cases t with
    | name r n => exact ⟨nofun, nofun⟩
    | member r o n ns =>
      refine ⟨fun h => ⟨r, .member .., (Option.some.inj h).symm⟩, ?_⟩
      rintro ⟨_, ⟨⟩, rfl⟩
      rfl
    | index r o i =>
      refine ⟨fun h => ⟨r, .index .., (Option.some.inj h).symm⟩, ?_⟩
      rintro ⟨_, ⟨⟩, rfl⟩
      rfl
    | _ => cases fits
  | _ => exact ⟨nofun, nofun⟩

namespace FunctionDecl

variable {f : FunctionDecl} (assignable : f.IsAssignable)
include assignable

/-- Lowering refuses a body for the first assignment to a member or to an indexed value. -/
theorem toCode_eq_error_iff {e : LowerError} : f.toCode = .error e ↔
    ∃ target, f.FirstAssignsInto target ∧ e = .unsupportedTarget target := by
  have targets {n : Expr} (hn : n ∈ f.expressions) (e : LowerError) :=
    Expr.refused?_eq_some (n := n) (e := e) fun s t v same => assignable s t v (same ▸ hn)
  rw [← fault?_eq_some, fault?_toCode, List.findSome?_eq_some_iff]
  constructor
  · rintro ⟨before, n, after, whole, refused, accepted⟩
    obtain ⟨target, into, rfl⟩ := (targets (by simp [whole]) e).1 refused
    refine ⟨target, ⟨before, n, after, whole, into, fun k hk other into' => ?_⟩, rfl⟩
    have refused' := (targets (by simp [whole, hk]) _).2 ⟨other, into', rfl⟩
    rw [accepted k hk] at refused'
    cases refused'
  · rintro ⟨target, ⟨before, n, after, whole, into, none_⟩, rfl⟩
    refine ⟨before, n, after, whole, (targets (by simp [whole]) _).2 ⟨target, into, rfl⟩,
      fun k hk => Option.eq_none_iff_forall_not_mem.2 fun e refused => ?_⟩
    obtain ⟨other, into', -⟩ := (targets (by simp [whole, hk]) e).1 refused
    exact none_ k hk other into'

/-- Lowering refuses a body just where something in it assigns to a member or to an indexed
value. -/
theorem exists_toCode_eq_error_iff : (∃ e, f.toCode = .error e) ↔
    ∃ n ∈ f.expressions, ∃ target, n.AssignsInto target := by
  constructor
  · rintro ⟨e, refused⟩
    obtain ⟨target, ⟨before, n, after, whole, into, -⟩, -⟩ :=
      (toCode_eq_error_iff assignable).1 refused
    exact ⟨n, by simp [whole], target, into⟩
  · rintro ⟨n, hn, target, into⟩
    have refused := (Expr.refused?_eq_some fun s t v same => assignable s t v (same ▸ hn)).2
      ⟨target, into, rfl⟩
    cases made : f.toCode with
    | error e => exact ⟨e, rfl⟩
    | ok code =>
      have accepted := fault?_toCode f
      rw [made] at accepted
      rw [List.findSome?_eq_none_iff.1 accepted.symm n hn] at refused
      cases refused

end FunctionDecl

/-- The expressions of a function sit on tokens that follow one another, in the order in which they
are listed. -/
theorem Module.expressions_sit {row : TokenRow} {m : Module} {report : Report}
    (parsed : Module.ofTokens row = .ok (m, report)) {f : String × FunctionDecl}
    (hf : f ∈ m.functions) :
    ∃ ts es, ts <:+: row.tokens ∧ Rooms ts es ∧ es.flatMap Expr.preorder = f.2.allExpressions := by
  obtain ⟨t, c, r, inside, read, whole⟩ := Module.functions_read parsed f hf
  obtain ⟨ts, rest, es, rooms, nodes⟩ := (Reading.function_lists t.span c).holds read
  refine ⟨ts, es, ?_, rooms, whole ▸ nodes⟩
  exact (List.prefix_append ts _).isInfix.trans
    (rest ▸ (List.suffix_cons t _).trans inside).isInfix

theorem Module.isAssignable {row : TokenRow} {m : Module} {report : Report}
    (parsed : Module.ofTokens row = .ok (m, report)) {f : String × FunctionDecl}
    (hf : f ∈ m.functions) : f.2.IsAssignable := by
  intro s t v hn
  obtain ⟨ts, es, -, rooms, nodes⟩ := Module.expressions_sit parsed hf
  have listed : .assign s t v ∈ f.2.allExpressions := List.mem_append_right _ hn
  rw [← nodes] at listed
  obtain ⟨e, he, hn⟩ := List.mem_flatMap.1 listed
  obtain ⟨us, -, sits⟩ := rooms.exists_sits e he
  obtain ⟨vs, -, sits⟩ := sits.inner hn
  cases sits with
  | atom atom => unfold Token.atom? at atom; split at atom <;> cases atom
  | assign left target operator newlines right => exact target

/-- The expressions of a function are listed in the order of the text. -/
theorem Module.inTextOrder {text : String} {m : Module} {report : Report}
    (parsed : Module.ofText text = .ok (m, report)) {f : String × FunctionDecl}
    (hf : f ∈ m.functions) : InTextOrder f.2.expressions := by
  obtain ⟨row, scanned, parsed⟩ := Module.exists_tokens parsed
  obtain ⟨ts, es, inside, rooms, nodes⟩ := Module.expressions_sit parsed hf
  have ordered := (TokenRow.ordered scanned).within inside
  have all : InTextOrder f.2.allExpressions := nodes ▸ rooms.inTextOrder ordered fun e he => by
    obtain ⟨us, within, sits⟩ := rooms.exists_sits e he
    exact sits.inTextOrder (ordered.within within)
  exact all.sublist (List.sublist_append_right _ _)

/-! ## What an analysis reports of a body without code -/

/-- What is said of a memory is about its report and the code that is kept; it holds on when
something is reported, and when a body is asked for. -/
structure Memory.Lasting (t : SymbolTable) (M : Memory → Prop) : Prop where
  same : ∀ {m m'}, M m → m'.report = m.report → m'.bodies = m.bodies → M m'
  add : ∀ {m}, M m → ∀ d, M (m.add d)
  body : ∀ {m}, M m → ∀ id, M ((Analysis.body t id).run m).2

namespace Memory.Lasting

open Analysis

variable {ctx : Context} {t : SymbolTable} {M : Memory → Prop} {m : Memory} (lasting : Lasting t M)
include lasting

theorem inert : Memory.Inert M := ⟨lasting.add, fun h _ => lasting.same h rfl rfl⟩

theorem cutOff (id : Nat) (span : Span) (h : M m) : M ((Analysis.cutOff t id span).run m).2 :=
  have counted : M { m with cutoffs := m.cutoffs + 1 } := lasting.same h rfl rfl
  lasting.inert.place
    (lasting.add counted ((Finding.recursionCutoff (t.qualifiedName id)).diagnostic span))
    (declared (t.method id))

theorem leave (id : Nat) (receiver : Option Value) (arguments : List Value) (cutoffs : Nat)
    (r : Resolution) (h : M m) :
    M ((Analysis.leave t id receiver arguments cutoffs r).run m).2 := by
  have left := mapM_fresh_inert lasting.inert (resultsOf (t.method id) r)
    (lasting.same h rfl rfl : M m.pop)
  rcases (leave_run t id receiver arguments cutoffs r m).2 with same | same
  · exact same ▸ left
  · exact same ▸ lasting.same left rfl rfl

omit lasting in
/-- What lasts is not changed by a call. -/
theorem call {depth : Nat} {c : MethodCall} (lasting : Lasting c.ctx.symbols M)
    (deep : c.depth = depth) (h : M c.memory) : M c.after := by
  induction depth generalizing c with
  | zero =>
    rw [MethodCall.after, deep]
    cases kept : c.memory.find? c.key with
    | some values => rwa [invoke_of_kept kept]
    | none => rw [invoke_zero kept]; exact lasting.cutOff _ _ h
  | succ depth ih =>
    rw [MethodCall.after, deep]
    cases kept : c.memory.find? c.key with
    | some values => rwa [invoke_of_kept kept]
    | none =>
      by_cases entered : c.key.call ∈ c.memory.stack
      · rw [invoke_of_entered kept entered]
        exact lasting.cutOff _ _ h
      · rw [invoke_of_new kept entered]
        have begun := lasting.body h c.id
        rcases out : (Analysis.body c.ctx.symbols c.id).run c.memory with ⟨_ | code, m⟩
        all_goals replace begun : M m := by rwa [out] at begun
        · rw [follow_of_none _ _ _ out]
          exact lasting.inert.place begun (declared (c.ctx.symbols.method c.id))
        · rw [follow_of_body _ _ _ out]
          refine lasting.leave _ _ _ _ _ (resolve_keeps lasting.inert
            (fun other deep raised h => ?_) (lasting.same begun rfl rfl))
          exact ih (raised.context.1 ▸ lasting) deep h

end Memory.Lasting

namespace Query

variable {ctx : Context} {M : Memory → Prop} {m : Memory} (lasting : Memory.Lasting ctx.symbols M)
include lasting

theorem lasting_after (h : M m) (q : Query) : M (q.after ctx m) := by
  cases found : q.opens? ctx m with
  | none =>
    rcases after_of_none found with ⟨id, same⟩ | ⟨d, same⟩
    · exact same ▸ lasting.body h id
    · exact same ▸ lasting.add h d
  | some e =>
    have opened : M e.memory := by
      rcases entered found with same | ⟨id, code?, m', call, body, same⟩
      · exact same ▸ h
      · have begun := lasting.body h id
        rw [body] at begun
        exact same ▸ lasting.same begun rfl rfl
    have left : M (e.resolution ctx).2 := Analysis.resolve_keeps lasting.inert
      (fun c deep raised => Memory.Lasting.call (raised.context.1 ▸ lasting) deep) opened
    rcases after_of_entry found with same | same
    · exact same ▸ left
    · exact same ▸ lasting.same left rfl rfl

theorem lasting_history (h : M m) (queries : List Query) : M (history ctx m queries) := by
  induction queries generalizing m with
  | nil => exact h
  | cons q rest ih => exact ih (lasting_after lasting h q)

end Query

/-! ### Reported faults -/

def LowerError.diagnostic (e : LowerError) : Diagnostic :=
  ⟨some .lowering, .error, e.message, some e.span⟩

theorem Report.has_add {r : Report} {d : Diagnostic} (h : r.has d = true) (d' : Diagnostic) :
    (r.add d').has d = true := by
  unfold add
  split
  · exact h
  · exact List.any_append.trans (by rw [show r.entries.any (·.same d) = true from h]; rfl)

theorem Report.has_add_self (r : Report) (d : Diagnostic) : (r.add d).has d = true := by
  cases known : r.has d with
  | true => rwa [add_of_has known]
  | false =>
    rw [has, entries_add known, List.any_append]
    simp [Diagnostic.same_iff]

theorem Report.has_of_same {r : Report} {d d' : Diagnostic} (same : d.same d' = true)
    (h : r.has d = true) : r.has d' = true := by
  obtain ⟨e, he, same'⟩ := List.any_eq_true.1 h
  rw [Diagnostic.same_iff] at same same'
  refine List.any_eq_true.2 ⟨e, he, Diagnostic.same_iff.2 ?_⟩
  exact ⟨same'.1.trans same.1, same'.2.1.trans same.2.1, same'.2.2.trans same.2.2⟩

/-- What one of two reports has, has what they are merged to. -/
theorem Report.has_merge {r r' : Report} {d : Diagnostic}
    (h : r.has d = true ∨ r'.has d = true) : (r.merge r').has d = true := by
  obtain ⟨entries⟩ := r'
  induction entries generalizing r with
  | nil => exact h.resolve_right nofun
  | cons e rest ih =>
    refine ih (h.elim (fun mine => .inl (has_add mine e)) fun others => ?_)
    rcases List.any_cons.symm.trans others |> Bool.or_eq_true_iff.1 with same | later
    · exact .inl (has_of_same same (r.has_add_self e))
    · exact .inr later

namespace Analysis

/-- The code of a body is made when it is first asked for, or it is reported why there is none. -/
theorem body_of_new {t : SymbolTable} {id : Nat} {m : Memory}
    (new : Assoc.find? m.bodies id = none) : ((body t id).run m).2 =
      match (t.method id).decl.toCode with
      | .ok code => { m with bodies := Assoc.insert m.bodies id (some code) }
      | .error e => { m.add e.diagnostic with bodies := Assoc.insert m.bodies id none } := by
  simp only [body, StateT.run_bind, StateT.run_get, pure_bind, new]
  cases (t.method id).decl.toCode <;> rfl

theorem find?_body (t : SymbolTable) (id : Nat) (m : Memory) :
    Assoc.find? ((body t id).run m).2.bodies id = some ((body t id).run m).1 := by
  cases kept : Assoc.find? m.bodies id with
  | some code => rw [body_of_kept kept, kept]
  | none =>
    simp only [body, StateT.run_bind, StateT.run_get, pure_bind, kept]
    cases (t.method id).decl.toCode <;> exact Assoc.find?_insert_self _ _ _

end Analysis

namespace Memory

/-- Why a body has no code is reported as soon as it is known that it has none. -/
def Explains (t : SymbolTable) (m : Memory) : Prop :=
  ∀ id e, Assoc.find? m.bodies id = some none → (t.method id).decl.toCode = .error e →
    m.report.has e.diagnostic = true

/-- What has been reported is not taken back. -/
theorem lasting_has (t : SymbolTable) (d : Diagnostic) :
    Lasting t fun m => m.report.has d = true where
  same h report _ := report ▸ h
  add h d' := Report.has_add h d'
  body {m} h id := by
    cases kept : Assoc.find? m.bodies id with
    | some code => rwa [Analysis.body_of_kept kept]
    | none =>
      rw [Analysis.body_of_new kept]
      cases (t.method id).decl.toCode with
      | ok code => exact h
      | error e => exact Report.has_add h _

theorem lasting_explains (t : SymbolTable) : Lasting t (Explains t) where
  same h report bodies id e missing failed := by
    rw [bodies] at missing
    rw [report]
    exact h id e missing failed
  add h d id e missing failed := Report.has_add (h id e missing failed) d
  body {m} h id := by
    cases kept : Assoc.find? m.bodies id with
    | some code => rwa [Analysis.body_of_kept kept]
    | none =>
      rw [Analysis.body_of_new kept]
      intro other e missing failed
      cases made : (t.method id).decl.toCode with
      | ok code =>
        rw [made] at missing
        by_cases mine : id = other
        · rw [← mine, made] at failed
          cases failed
        · exact h other e (Assoc.find?_insert_of_ne _ _ mine ▸ missing) failed
      | error e' =>
        rw [made] at missing
        by_cases mine : id = other
        · rw [← mine, made] at failed
          cases failed
          exact Report.has_add_self _ _
        · exact Report.has_add (h other e (Assoc.find?_insert_of_ne _ _ mine ▸ missing) failed) _

end Memory

theorem Memory.lasting_faithful (t : SymbolTable) : Lasting t (Faithful t) where
  same h _ bodies := by rwa [Faithful, bodies]
  add h _ := h
  body h id := Analysis.faithful_body h id

theorem Memory.faithful_empty (t : SymbolTable) : Memory.empty.Faithful t := nofun

/-- After a body has been asked for, the report tells why it has no code. -/
theorem Query.has_history {ctx : Context} {m : Memory} (faithful : m.Faithful ctx.symbols)
    (explains : m.Explains ctx.symbols) {queries : List Query} {id : Nat}
    (asked : .body id ∈ queries) {e : LowerError}
    (failed : (ctx.symbols.method id).decl.toCode = .error e) :
    (history ctx m queries).report.has e.diagnostic = true := by
  induction queries generalizing m with
  | nil => cases asked
  | cons q rest ih =>
    have faithful' := lasting_after (Memory.lasting_faithful _) faithful q
    have explains' := lasting_after (Memory.lasting_explains _) explains q
    rcases List.mem_cons.1 asked with rfl | later
    · have missing := Analysis.find?_body ctx.symbols id m
      rw [Analysis.body_of_faithful faithful, failed] at missing
      exact lasting_history (Memory.lasting_has _ _) (explains' id e missing failed) rest
    · exact ih faithful' explains' later

/-! ## Compilations -/

/-- A body is refused just where something in it assigns to a member or to an indexed value, and it
is refused for the first such assignment.  To write the code from its first instruction to its last
gives the same, and never fills in what is no jump. -/
structure FunctionDecl.RefusesTargets (f : FunctionDecl) : Prop where
  exists_iff : (∃ e, f.toCode = .error e) ↔
    ∃ n ∈ f.expressions, ∃ target, n.AssignsInto target
  error_iff : ∀ e, f.toCode = .error e ↔
    ∃ target, f.FirstAssignsInto target ∧ e = .unsupportedTarget target
  written : f.draft = f.toCode.mapError .refused
  noJump : ∀ index, f.draft ≠ .error (.noJump index)

theorem FunctionDecl.IsAssignable.refusesTargets {f : FunctionDecl} (h : f.IsAssignable) :
    f.RefusesTargets where
  exists_iff := f.exists_toCode_eq_error_iff h
  error_iff _ := f.toCode_eq_error_iff h
  written := f.draft_eq
  noJump := f.draft_ne_noJump

/-- What a compilation tells of a method with the declaration `f`: code is missing just where
something in the body assigns to a member or to an indexed value.  Then the method is said to
return anything, and the first such assignment is reported as an error where its target stands. -/
structure Summary.TellsRefusal (c : Compilation) (s : Summary) (f : FunctionDecl) : Prop where
  code : s.code = none ↔ ∃ n ∈ f.expressions, ∃ target, n.AssignsInto target
  returns : s.code = none → s.returns = .any
  reported : ∀ target, f.FirstAssignsInto target →
    (LowerError.unsupportedTarget target).diagnostic ∈ c.report.entries

theorem SymbolTable.exists_function {m : Module} {id : Nat}
    (has : id < (SymbolTable.ofModule m).1.methods.length) :
    ∃ f ∈ m.functions, ((SymbolTable.ofModule m).1.method id).decl = f.2 := by
  obtain ⟨t, owner, f, hf, same⟩ := (Filing.files_ofModule m).methods _ (List.getElem_mem has)
  refine ⟨f, hf, ?_⟩
  rw [method, List.getElem?_eq_getElem has, Option.getD_some, same]
  rfl

/-- The summary of a method has its code. -/
theorem Query.code_of_mem {ctx : Context} {m : Memory} (faithful : m.Faithful ctx.symbols)
    {ids : List Nat} {s : Summary} (h : s ∈ ((ids.mapM (Analysis.summary ctx)).run m).1) :
    s.code = (ctx.symbols.method s.id).decl.toCode.toOption := by
  induction ids generalizing m with
  | nil => cases h
  | cons id rest ih =>
    rw [List.mapM_cons] at h
    have after := lasting_after (Memory.lasting_faithful _) faithful (.returnType id)
    rcases List.mem_cons.1 h with rfl | h
    · exact Analysis.body_of_faithful after id
    · exact ih (lasting_after (Memory.lasting_faithful _) after (.body id)) h

namespace Compilation

variable {options : AnalysisOptions} {text : String} {c : Compilation} {s : Summary}

theorem code_of_mem (built : ofText options text = .ok c) (hs : s ∈ c.summaries) :
    s.code = (c.symbols.method s.id).decl.toCode.toOption := by
  obtain ⟨m, read, -, rfl⟩ := exists_module built
  exact @Query.code_of_mem (.outer _ options) _ (Memory.faithful_empty _) _ _ hs

theorem returns_of_error (built : ofText options text = .ok c) (hs : s ∈ c.summaries)
    {e : LowerError} (failed : (c.symbols.method s.id).decl.toCode = .error e) :
    s.returns = .any := by
  obtain ⟨m, read, -, rfl⟩ := exists_module built
  let ctx : Context := .outer (SymbolTable.ofModule m).1 options
  have faithful : (Query.history ctx .empty
      (Query.summarized (List.range s.id))).Faithful ctx.symbols :=
    Query.lasting_history (Memory.lasting_faithful _) (Memory.faithful_empty _) _
  have opens := Query.opens?_of_faithful faithful s.id
  rw [show (ctx.symbols.method s.id).decl.toCode = .error e from failed] at opens
  rw [Query.returns_of_mem_summaries ctx .empty hs, Query.returnType_run,
    Query.resolveMethod_of_none opens]
  rfl

/-- Why a body has no code is in the report, as an error. -/
theorem mem_report_of_error (built : ofText options text = .ok c) (hs : s ∈ c.summaries)
    {e : LowerError} (failed : (c.symbols.method s.id).decl.toCode = .error e) :
    e.diagnostic ∈ c.report.entries := by
  have known : c.report.has e.diagnostic = true := by
    have has := lt_of_mem_summaries built hs
    obtain ⟨m, read, -, rfl⟩ := exists_module built
    let ctx : Context := .outer (SymbolTable.ofModule m).1 options
    have asked : .body s.id ∈ Query.summarized (List.range ctx.symbols.methods.length) :=
      List.mem_flatMap.2 ⟨s.id, List.mem_range.2 has, by simp⟩
    have found := @Query.has_history ctx .empty (Memory.faithful_empty _) (fun _ _ => nofun) _ _
      asked e failed
    rw [← Query.memory_summaries] at found
    exact Report.has_merge (.inr found)
  obtain ⟨d, hd, same⟩ := List.any_eq_true.1 known
  obtain ⟨kind, span, message⟩ := Diagnostic.same_iff.1 same
  have some_ : d.kind.isSome = true := kind ▸ rfl
  obtain ⟨id, -, raised⟩ := raised_of_kind built hd some_
  cases raised with
  | finding f => cases f <;> cases kind
  | lowering failed' =>
    dsimp only [LowerError.diagnostic] at span message ⊢
    rwa [← span, ← message]

end Compilation

/-- Whatever row of tokens a module is read from: the body of a function of it is refused just where
something in it, at any depth, assigns to a member or to an indexed value, for the first such
assignment, and no jump is missing when code is written.  First is what comes first in the text, and
what is outside before what is within it.  And whatever text is compiled: the summary of a function
has no code just where its body is refused; then the function may return anything, and the first
such assignment is reported as an error at its target. -/
theorem refusals_reported :
    (∀ row m report, Module.ofTokens row = .ok (m, report) →
      ∀ f ∈ m.functions, f.2.RefusesTargets) ∧
    (∀ text m report, Module.ofText text = .ok (m, report) →
      ∀ f ∈ m.functions, InTextOrder f.2.expressions) ∧
    ∀ options text c, Compilation.ofText options text = .ok c →
      ∃ m report, Module.ofText text = .ok (m, report) ∧ ∀ s ∈ c.summaries,
        ∃ f ∈ m.functions, (c.symbols.method s.id).decl = f.2 ∧ s.TellsRefusal c f.2 := by
  refine ⟨fun row m report parsed f hf => (Module.isAssignable parsed hf).refusesTargets,
    fun text m report parsed f hf => Module.inTextOrder parsed hf, fun options text c built => ?_⟩
  obtain ⟨m, report, parsed, same⟩ := Compilation.exists_module built
  refine ⟨m, report, parsed, fun s hs => ?_⟩
  have has := Compilation.lt_of_mem_summaries built hs
  have code := Compilation.code_of_mem built hs
  have returns := @Compilation.returns_of_error _ _ _ _ built hs
  have reported := @Compilation.mem_report_of_error _ _ _ _ built hs
  obtain ⟨f, hf, decl⟩ : ∃ f ∈ m.functions, (c.symbols.method s.id).decl = f.2 := by
    subst same
    exact SymbolTable.exists_function has
  obtain ⟨row, -, parsed⟩ := Module.exists_tokens parsed
  have refuses := (Module.isAssignable parsed hf).refusesTargets
  rw [decl] at code returns reported
  have missing : s.code = none ↔ ∃ e, f.2.toCode = .error e := by
    rw [code]
    cases f.2.toCode <;> simp [Except.toOption]
  refine ⟨f, hf, decl, missing.trans refuses.exists_iff, fun none_ => ?_, fun target first => ?_⟩
  · obtain ⟨e, failed⟩ := missing.1 none_
    exact returns failed
  · exact reported ((refuses.error_iff _).2 ⟨target, first, rfl⟩)

/-- Three members of `p` are assigned to: one within what is assigned to `a`, in an index in an
argument in a condition; one in the loop; and one behind it. -/
def hiddenText : String := "
  fn f(p, q) \x7b
    while g(q[a = p.x = 1]) \x7b p.y = 2 \x7d
    return p.z = 3
  \x7d
  fn g(x) \x7b return x \x7d
"

def hiddenRead : Module × Report := ((Module.ofText hiddenText).toOption).getD default

def hidden : Compilation := ((Compilation.ofText .standard hiddenText).toOption).getD default

theorem refusals_reported_hidden :
    Module.ofText hiddenText = .ok hiddenRead ∧
      Compilation.ofText .standard hiddenText = .ok hidden ∧
      (∀ f ∈ hiddenRead.1.functions, f.2.RefusesTargets ∧ InTextOrder f.2.expressions) ∧
      (∃ f ∈ hiddenRead.1.functions, f.2.FirstAssignsInto ⟨3, 19, 3, 21⟩) ∧
      (∀ s ∈ hidden.summaries, ∃ f ∈ hiddenRead.1.functions,
        (hidden.symbols.method s.id).decl = f.2 ∧ s.TellsRefusal hidden f.2) ∧
      hidden.summaries.map (fun s => (s.name, s.code.isSome)) = [("f", false), ("g", true)] ∧
      hidden.report.entries.map (fun d => (d.kind, d.span)) =
        [(some .lowering, some ⟨3, 19, 3, 21⟩)] := by
  obtain ⟨parsed, built, faults, summaries, entries⟩ :
      (Module.ofText hiddenText).toOption.isSome = true ∧
        (Compilation.ofText .standard hiddenText).toOption.isSome = true ∧
        hiddenRead.1.functions.map (fun f => fault? f.2.toCode) =
          [some (.unsupportedTarget ⟨3, 19, 3, 21⟩), none] ∧
        hidden.summaries.map (fun s => (s.name, s.code.isSome)) = [("f", false), ("g", true)] ∧
        hidden.report.entries.map (fun d => (d.kind, d.span)) =
          [(some .lowering, some ⟨3, 19, 3, 21⟩)] := by
    have row : TokenRow.ofText hiddenText = _ := TokenRow.ofText_of_eq_ofList (by rw [hiddenText])
    rw [hiddenRead, hidden, Compilation.ofText, Module.ofText, row]
    decide +kernel
  replace parsed : Module.ofText hiddenText = .ok hiddenRead := eq_ok_of_isSome parsed
  replace built : Compilation.ofText .standard hiddenText = .ok hidden := eq_ok_of_isSome built
  have pair : Module.ofText hiddenText = .ok (hiddenRead.1, hiddenRead.2) := by
    rw [Prod.eta, parsed]
  obtain ⟨row, -, read⟩ := Module.exists_tokens pair
  have refuses := refusals_reported.1 row _ _ read
  have ordered := refusals_reported.2.1 _ _ _ pair
  refine ⟨parsed, built, fun f hf => ⟨refuses f hf, ordered f hf⟩, ?_, ?_, summaries, entries⟩
  · have fault : some (LowerError.unsupportedTarget ⟨3, 19, 3, 21⟩) ∈
        hiddenRead.1.functions.map fun f => fault? f.2.toCode := faults ▸ List.mem_cons_self
    obtain ⟨f, hf, refused⟩ := List.mem_map.1 fault
    obtain ⟨target, first, same⟩ := ((refuses f hf).error_iff _).1 (fault?_eq_some.1 refused)
    cases same
    exact ⟨f, hf, first⟩
  · obtain ⟨m, report, parsed', told⟩ := refusals_reported.2.2 _ _ _ built
    obtain rfl : m = hiddenRead.1 :=
      congrArg Prod.fst (Except.ok.inj (parsed'.symm.trans parsed))
    exact told

end PathTyping
