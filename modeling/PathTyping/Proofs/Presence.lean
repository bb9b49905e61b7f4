import PathTyping.Command.Outcome
import PathTyping.Proofs.Findings
import PathTyping.Proofs.Origins

/-!
# All that is found is reported

What there is to find in a text is told here without a report: where the text cannot be scanned or
read, which declarations are at odds, which bodies have no code, which calls are not followed, and
what is wrong at the instructions that paths come to.  A report drops what has the words of something
that is in it.  As the words tell the level, it is the same thing then, so the report on a text has
all that is found in it and nothing else.

1. What is found in a call is reported by it (`MethodCall.Finds.has`), and it reports nothing but
   that and what the calls inside of it report (`MethodCall.after_only`).
2. So it is with queries that are asked one behind the other (`Query.FoundIn.has`,
   `Query.history_only`).
3. `Compilation.Finds`: all that there is to find.
4. `findings_reported`: reports keep the first of each, and that of a text loses no error.
-/

namespace PathTyping

open Walk

/-! ## Bodies -/

/-- The body has not been asked for yet, and it has no code. -/
structure Memory.Refuses (t : SymbolTable) (m : Memory) (id : Nat) (e : LowerError) : Prop where
  new : Assoc.find? m.bodies id = none
  failed : (t.method id).decl.toCode = .error e

/-- The diagnostic is found where a path of the resolution comes to. -/
def Shows (depth : Nat) (ctx : Context) (code : Code) (scope : Scope)
    (locals : List (String × Value)) (m : Memory) (d : Diagnostic) : Prop :=
  ∃ s ctx' id index s', Gives (openRoot scope locals) (.empty, m) () s ∧
    Leads (Analysis.invoke depth) code.steps.toArray (.path ctx 0 0) s (.path ctx' id index) s' ∧
      d ∈ s'.1.found ctx'.symbols code.steps.toArray id index

namespace Analysis

variable {t : SymbolTable} {ctx : Context} {id depth : Nat} {m : Memory} {code : Code}
  {scope : Scope} {locals : List (String × Value)} {d : Diagnostic} {e : LowerError}
  {R : Diagnostic → Prop}

theorem body_of_refuses (h : m.Refuses t id e) :
    ((body t id).run m).1 = none ∧ ((body t id).run m).2.report.has e.diagnostic = true := by
  have found := find?_body t id m
  rw [body_of_new h.new, h.failed] at found ⊢
  refine ⟨?_, Report.has_add_self _ _⟩
  exact (Option.some.inj ((Assoc.find?_insert_self _ _ _).symm.trans found)).symm

theorem body_only (refused : ∀ e, m.Refuses t id e → R e.diagnostic) (only : m.report.Only R) :
    ((body t id).run m).2.report.Only R := by
  cases kept : Assoc.find? m.bodies id with
  | some code => rwa [body_of_kept kept]
  | none =>
    rw [body_of_new kept]
    cases made : (t.method id).decl.toCode with
    | ok code => exact only
    | error e => exact Report.Only.add only (refused e ⟨kept, made⟩)

/-- Nothing is reported of a body that has code. -/
theorem report_of_code (h : ((body t id).run m).1 = some code) :
    ((body t id).run m).2.report = m.report := by
  cases kept : Assoc.find? m.bodies id with
  | some known => rw [body_of_kept kept]
  | none =>
    cases made : (t.method id).decl.toCode with
    | ok other => rw [body_of_new kept, made]
    | error e => rw [(body_of_refuses ⟨kept, made⟩).1] at h; cases h

theorem resolve_has (shows : Shows depth ctx code scope locals m d) :
    ((resolve (invoke depth) ctx code scope locals).run m).2.report.has d = true := by
  obtain ⟨s, ctx', id, index, s₁, opened, leads, found⟩ := shows
  obtain ⟨_, ends, s', opened', walks, run⟩ := resolve_walks (invoke depth) ctx code scope locals m
  obtain ⟨-, rfl⟩ := opened.unique opened'
  rw [run]
  exact leads.has walks found

theorem resolve_only (shown : ∀ d, Shows depth ctx code scope locals m d → R d)
    (calls : ∀ c : MethodCall, c.depth = depth → Raises ctx code scope locals m c →
      c.memory.report.Only R → c.after.report.Only R) (only : m.report.Only R) :
    ((resolve (invoke depth) ctx code scope locals).run m).2.report.Only R := by
  obtain ⟨s, ends, s', opened, walks, run⟩ := resolve_walks (invoke depth) ctx code scope locals m
  rw [run]
  refine walks.only
    (fun ctx' id index s₁ leads d hd => shown d ⟨s, ctx', id, index, s₁, opened, leads, hd⟩)
    (fun ctx' id index s₁ c leads deep issues => calls c deep ?_)
    (reports_openRoot scope locals opened only)
  exact ⟨s, ctx', id, index, s₁, opened, deep ▸ leads, issues⟩

end Analysis

/-! ## Calls -/

namespace MethodCall

open Analysis

variable {c c' : MethodCall} {depth : Nat} {code : Code} {m : Memory} {d : Diagnostic}
  {R : Diagnostic → Prop}

/-- What is found in a call: that it is cut off, why the body has no code, or what is wrong where a
path through the body comes to.  What is found in the calls that are made there is theirs. -/
inductive Finds (c : MethodCall) : Diagnostic → Prop
  | cutOff (cut : c.CutOff) :
      Finds c ((Finding.recursionCutoff (c.ctx.symbols.qualifiedName c.id)).diagnostic c.span)
  | lowering {e : LowerError} (unknown : c.memory.find? c.key = none) (uncut : ¬ c.CutOff)
      (refused : c.memory.Refuses c.ctx.symbols c.id e) : Finds c e.diagnostic
  | inside {depth : Nat} {code : Code} {m : Memory} {d : Diagnostic}
      (follows : c.Follows depth code m)
      (shows : Shows depth c.ctx code c.scope c.locals (m.push c.key.call) d) : Finds c d

/-- A call that is not cut off is followed if its results are not kept. -/
theorem followed (unknown : c.memory.find? c.key = none) (uncut : ¬ c.CutOff) :
    ∃ depth, c.depth = depth + 1 ∧ c.key.call ∉ c.memory.stack := by
  obtain ⟨depth, deep⟩ := Nat.exists_eq_succ_of_ne_zero fun none => uncut ⟨unknown, .inl none⟩
  exact ⟨depth, deep, fun entered => uncut ⟨unknown, .inr entered⟩⟩

/-- A call of a method without code only asks for it. -/
theorem report_of_missing (unknown : c.memory.find? c.key = none) (uncut : ¬ c.CutOff)
    (missing : ((body c.ctx.symbols c.id).run c.memory).1 = none) :
    c.after.report = ((body c.ctx.symbols c.id).run c.memory).2.report := by
  obtain ⟨depth, deep, entered⟩ := followed unknown uncut
  rw [after, deep, invoke_of_new unknown entered, follow_of_none _ _ _ (Prod.ext missing rfl)]
  rfl

/-- What remains of a call that is followed is to leave its body. -/
theorem Follows.after_eq (follows : c.Follows depth code m) :
    c.after =
      let done := (resolve (invoke depth) c.ctx code c.scope c.locals).run (m.push c.key.call)
      ((leave c.ctx.symbols c.id c.receiver c.arguments m.cutoffs done.1).run done.2).2 := by
  rcases resolved : (resolve (invoke depth) c.ctx code c.scope c.locals).run
    (m.push c.key.call) with ⟨r, m₂⟩
  rw [after, follows.depth, invoke_of_new follows.unknown follows.entered,
    follow_of_resolved follows.body resolved]

theorem Follows.has (follows : c.Follows depth code m)
    (h : ((resolve (invoke depth) c.ctx code c.scope c.locals).run
      (m.push c.key.call)).2.report.has d = true) : c.after.report.has d = true := by
  rw [follows.after_eq]
  exact (Memory.lasting_has c.ctx.symbols d).leave c.id c.receiver c.arguments m.cutoffs _ h

theorem Finds.has (h : c.Finds d) : c.after.report.has d = true := by
  cases h with
  | cutOff cut =>
    rw [after, cut.run]
    exact Report.has_add_self _ _
  | lowering unknown uncut refused =>
    obtain ⟨missing, has⟩ := body_of_refuses refused
    rwa [report_of_missing unknown uncut missing]
  | inside follows shows => exact follows.has (resolve_has shows)

theorem Enters.has (enters : c.Enters c') (h : c'.after.report.has d = true) :
    c.after.report.has d = true := by
  obtain ⟨deep, unknown, entered, code, m, body, raised⟩ := enters
  exact Follows.has ⟨deep, unknown, entered, body⟩ ((raised.inside (abides_has d)).2 h)

/-- What is reported by a call is reported by those in which it comes up. -/
theorem has_of_reached (reached : Relation.ReflTransGen Enters c c')
    (h : c'.after.report.has d = true) : c.after.report.has d = true := by
  induction reached with
  | refl => exact h
  | tail _ enters ih => exact ih (enters.has h)

/-- A call reports nothing but what is found in it and in the calls inside. -/
theorem after_only (c : MethodCall)
    (finds : ∀ c', Relation.ReflTransGen Enters c c' → ∀ d, c'.Finds d → R d)
    (only : c.memory.report.Only R) : c.after.report.Only R := by
  have mine := finds c .refl
  cases unknown : c.memory.find? c.key with
  | some values =>
    rw [after, invoke_of_kept unknown]
    exact only
  | none =>
    by_cases cut : c.CutOff
    · rw [after, cut.run]
      exact Report.Only.add only (mine _ (.cutOff cut))
    have begun := body_only (fun e refused => mine _ (.lowering unknown cut refused)) only
    cases made : ((body c.ctx.symbols c.id).run c.memory).1 with
    | none => rwa [Report.Only, report_of_missing unknown cut made]
    | some code =>
      obtain ⟨depth, deep, entered⟩ := followed unknown cut
      have opens : (body c.ctx.symbols c.id).run c.memory = (some code, _) := Prod.ext made rfl
      have follows : c.Follows depth code _ := ⟨deep, unknown, entered, opens⟩
      rw [follows.after_eq]
      refine reports_leave _ _ _ _ _ _ (resolve_only (fun d shows => mine d (.inside follows shows))
        (fun other same raised => ?_) begun)
      -- Fewer calls may be followed in the body.
      have enters : c.Enters other :=
        ⟨deep.trans (congrArg (· + 1) same.symm), unknown, entered, code, _, opens, raised⟩
      exact after_only other fun c' reached => finds c' (.head enters reached)
termination_by c.depth
decreasing_by omega

end MethodCall

/-! ## Queries -/

namespace Query

variable {ctx : Context} {m : Memory} {q : Query} {e : Entry} {c : MethodCall} {d : Diagnostic}
  {R : Diagnostic → Prop}

/-- What is found when the query is asked: what is wrong where its paths come to, what is found in
the calls that come up, or why the body or the expression that is asked about has no code. -/
inductive Finds (ctx : Context) (m : Memory) (q : Query) : Diagnostic → Prop
  | paths {e : Entry} {d : Diagnostic} (opens : q.opens? ctx m = some e)
      (shows : Shows (ctx.options.maxCallDepth - e.memory.stack.length) ctx e.code e.scope
        (ctx.symbols.scopeVariables e.scope) e.memory d) : Finds ctx m q d
  | calls {e : Entry} {c : MethodCall} {d : Diagnostic} (opens : q.opens? ctx m = some e)
      (makes : e.Makes ctx c) (finds : c.Finds d) : Finds ctx m q d
  | body {id : Nat} {fault : LowerError} (about : q.method? = some id)
      (refused : m.Refuses ctx.symbols id fault) : Finds ctx m q fault.diagnostic
  | expression {x : Expr} {scope : Scope} {fault : LowerError}
      (about : q = .typeOfExpression x scope) (failed : x.toCode = .error fault) :
      Finds ctx m q fault.diagnostic

/-- A query about a body without code has nothing to resolve. -/
theorem opens?_of_missing {id : Nat} (about : q.method? = some id)
    (missing : ((Analysis.body ctx.symbols id).run m).1 = none) : q.opens? ctx m = none := by
  cases q <;> cases about
  · rfl
  all_goals exact Option.map_eq_none_iff.2 missing

/-- Nothing is reported before a query resolves its code. -/
theorem Entry.report (h : q.opens? ctx m = some e) : e.memory.report = m.report := by
  cases q with
  | body id => cases h
  | resolveMethod id | returnType id | typeAt id =>
    obtain ⟨code, made, rfl⟩ := Option.map_eq_some_iff.1 h
    exact Analysis.report_of_code made
  | resolveCode code scope => cases h; rfl
  | typeOfExpression x scope =>
    obtain ⟨code, -, rfl⟩ := Option.map_eq_some_iff.1 h
    rfl

theorem Entry.report_after (h : q.opens? ctx m = some e) :
    (q.after ctx m).report = (e.resolution ctx).2.report := by
  rcases after_of_entry h with same | same
  · rw [same]
  · rw [same]
    rfl

theorem Entry.Makes.reported (opens : q.opens? ctx m = some e) (made : e.Makes ctx c)
    (h : c.after.report.has d = true) : (q.after ctx m).report.has d = true := by
  obtain ⟨outer, deep, raised, reached⟩ := made
  have within := (raised.inside (abides_has d)).2 (MethodCall.has_of_reached reached h)
  rw [deep] at within
  rw [Entry.report_after opens]
  exact within

theorem Finds.has (h : q.Finds ctx m d) : (q.after ctx m).report.has d = true := by
  cases h with
  | paths opens shows =>
    rw [Entry.report_after opens]
    exact Analysis.resolve_has shows
  | calls opens makes finds => exact makes.reported opens finds.has
  | body about refused =>
    obtain ⟨missing, has⟩ := Analysis.body_of_refuses refused
    have unopened := opens?_of_missing about missing
    rcases after_of_unopened unopened with ⟨_, same, after⟩ | ⟨_, _, _, same, -⟩
    · cases about.symm.trans same
      rwa [after]
    · rw [same] at about
      cases about
  | expression about failed =>
    have unopened : q.opens? ctx m = none := by rw [about, opens?, failed]; rfl
    rcases after_of_unopened unopened with ⟨_, same, -⟩ | ⟨_, _, _, same, failed', after⟩
    · rw [about] at same
      cases same
    · cases about.symm.trans same
      cases failed.symm.trans failed'
      rw [after]
      exact Report.has_add_self _ _

/-- A query reports nothing but what it finds. -/
theorem after_only (finds : ∀ d, q.Finds ctx m d → R d) (only : m.report.Only R) :
    (q.after ctx m).report.Only R := by
  cases opens : q.opens? ctx m with
  | none =>
    rcases after_of_unopened opens with ⟨id, about, after⟩ | ⟨x, scope, fault, about, failed, after⟩
    · rw [after]
      exact Analysis.body_only (fun e refused => finds _ (.body about refused)) only
    · rw [after]
      exact Report.Only.add only (finds _ (.expression about failed))
  | some e =>
    rw [Entry.report_after opens]
    refine Analysis.resolve_only (fun d shows => finds d (.paths opens shows))
      (fun c deep raised => c.after_only fun c' reached d found => ?_) (Entry.report opens ▸ only)
    exact finds d (.calls opens ⟨c, deep, raised, reached⟩ found)

/-- The diagnostic is found by one of the queries, which are asked one behind the other. -/
def FoundIn (ctx : Context) (m : Memory) (queries : List Query) (d : Diagnostic) : Prop :=
  ∃ before q after, queries = before ++ q :: after ∧ q.Finds ctx (history ctx m before) d

theorem FoundIn.has {queries : List Query} (h : FoundIn ctx m queries d) :
    (history ctx m queries).report.has d = true := by
  obtain ⟨before, q, after, rfl, finds⟩ := h
  rw [history_append]
  exact lasting_history (Memory.lasting_has ctx.symbols d) finds.has after

theorem history_only (queries : List Query) (found : ∀ d, FoundIn ctx m queries d → R d)
    (only : m.report.Only R) : (history ctx m queries).report.Only R := by
  induction queries generalizing m with
  | nil => exact only
  | cons q rest ih =>
    refine ih (fun d ⟨before, p, after, parts, finds⟩ => found d ?_)
      (after_only (fun d finds => found d ⟨[], q, rest, rfl, finds⟩) only)
    exact ⟨q :: before, p, after, congrArg (q :: ·) parts, finds⟩

end Query

/-! ### Levels -/

theorem Arena.lawful_found {t : SymbolTable} {steps : Array Step} {a : Arena} {id index : Nat}
    {d : Diagnostic} (h : d ∈ a.found t steps id index) : d.Lawful := by
  unfold found at h
  split at h
  · cases h
  · obtain ⟨f, -, rfl⟩ := List.mem_map.1 h
    exact Diagnostic.lawful_finding f _

theorem Shows.lawful {depth : Nat} {ctx : Context} {code : Code} {scope : Scope}
    {locals : List (String × Value)} {m : Memory} {d : Diagnostic}
    (h : Shows depth ctx code scope locals m d) : d.Lawful :=
  have ⟨_, _, _, _, _, _, _, found⟩ := h
  Arena.lawful_found found

theorem MethodCall.Finds.lawful {c : MethodCall} {d : Diagnostic} (h : c.Finds d) : d.Lawful := by
  cases h with
  | cutOff => exact Diagnostic.lawful_finding _ _
  | lowering => exact Diagnostic.lawful_lowering _
  | inside _ shows => exact shows.lawful

theorem Query.FoundIn.lawful {ctx : Context} {m : Memory} {queries : List Query} {d : Diagnostic}
    (h : FoundIn ctx m queries d) : d.Lawful := by
  obtain ⟨before, q, after, -, finds⟩ := h
  cases finds with
  | paths _ shows => exact shows.lawful
  | calls _ _ finds => exact finds.lawful
  | body | expression => exact Diagnostic.lawful_lowering _

/-! ## Compilations -/

theorem Report.hasErrors_iff {r : Report} :
    r.hasErrors = true ↔ ∃ d ∈ r.entries, d.level = .error := by
  simp [hasErrors]

namespace Compilation

variable {options : AnalysisOptions} {text : String} {d : Diagnostic}

/-- The report on a text, whether it can be read or not. -/
def reportOn (options : AnalysisOptions) (text : String) : Report :=
  match ofText options text with
  | .error f => f.report
  | .ok c => c.report

/-- The queries of which the summaries of all methods come. -/
def queries (t : SymbolTable) : List Query := Query.summarized (List.range t.methods.length)

/-- What there is to find in a text: why it cannot be scanned, the parameters that come too late, as
far as it is read, why it cannot be read, what is at odds among its declarations, and what the
analysis of their bodies comes to. -/
inductive Finds (options : AnalysisOptions) (text : String) : Diagnostic → Prop
  | scanning {e : ScanError} (failed : TokenRow.ofText text = .error e) :
      Finds options text (.error e.message (some (.point e.place.line e.place.column)))
  | lateBefore {row : TokenRow} {f : ParseFailure} {p : Parameter}
      (scanned : TokenRow.ofText text = .ok row) (failed : Module.ofTokens row = .error f)
      (late : p ∈ Reading.itemsBefore (.ofRow row)) :
      Finds options text (Reading.followsVariadic p)
  | reading {row : TokenRow} {f : ParseFailure} (scanned : TokenRow.ofText text = .ok row)
      (failed : Module.ofTokens row = .error f) : Finds options text f.error.diagnostic
  | late {m : Module} {read : Report} {p : Parameter} (parsed : Module.ofText text = .ok (m, read))
      (late : p ∈ m.lateParameters) : Finds options text (Reading.followsVariadic p)
  | filing {m : Module} {read : Report} {d : Diagnostic}
      (parsed : Module.ofText text = .ok (m, read)) (noted : d ∈ Filing.notes m) :
      Finds options text d
  | analysis {m : Module} {read : Report} {d : Diagnostic}
      (parsed : Module.ofText text = .ok (m, read))
      (found : Query.FoundIn (.outer (SymbolTable.ofModule m).1 options) .empty
        (queries (SymbolTable.ofModule m).1) d) : Finds options text d

theorem Finds.lawful (h : Finds options text d) : d.Lawful := by
  cases h with
  | scanning => exact Diagnostic.lawful_scan _ _
  | lateBefore | late => exact Diagnostic.lawful_followsVariadic _
  | reading => exact Diagnostic.lawful_parse _
  | filing _ noted => exact Filing.lawful_notes _ _ noted
  | analysis _ found => exact found.lawful

theorem reportOn_of_scan {e : ScanError} (failed : TokenRow.ofText text = .error e) :
    reportOn options text = (ReadFailure.scan e).report := by
  rw [reportOn, ofText, Module.ofText, failed]
  rfl

theorem reportOn_of_parse {row : TokenRow} {f : ParseFailure}
    (scanned : TokenRow.ofText text = .ok row) (failed : Module.ofTokens row = .error f) :
    reportOn options text = f.report := by
  rw [reportOn, ofText, Module.ofText, scanned]
  dsimp only
  rw [failed]
  rfl

/-- The report on a text that is read: on the reading, on the declarations and on the bodies. -/
theorem reportOn_of_module {m : Module} {read : Report}
    (parsed : Module.ofText text = .ok (m, read)) :
    reportOn options text = (read.merge ((Filing.notes m).foldl .add .empty)).merge
      (Query.history (.outer (SymbolTable.ofModule m).1 options) .empty
        (queries (SymbolTable.ofModule m).1)).report := by
  rw [reportOn, ofText, parsed, ← Filing.report_eq, queries, ← Query.memory_summaries]
  rfl

theorem Finds.has (h : Finds options text d) : (reportOn options text).has d = true := by
  have behind {row : TokenRow} {f : ParseFailure} (scanned : TokenRow.ofText text = .ok row)
      (failed : Module.ofTokens row = .error f) :=
    (Module.ofTokens_error (TokenRow.ordered scanned).nodup_spans failed).report
  cases h with
  | scanning failed =>
    rw [reportOn_of_scan failed]
    exact Report.has_add_self _ _
  | lateBefore scanned failed late =>
    rw [reportOn_of_parse scanned failed]
    refine Report.has_of_mem ?_
    rw [behind scanned failed]
    exact List.mem_append_left _ (List.mem_map_of_mem late)
  | reading scanned failed =>
    rw [reportOn_of_parse scanned failed]
    refine Report.has_of_mem ?_
    rw [behind scanned failed]
    exact List.mem_append_right _ (List.mem_singleton_self _)
  | late parsed late =>
    obtain ⟨row, scanned, read⟩ := Module.exists_tokens parsed
    have entries := Module.ofTokens_ok (TokenRow.ordered scanned).nodup_spans read
    rw [reportOn_of_module parsed]
    refine Report.has_merge (.inl (Report.has_merge (.inl (Report.has_of_mem ?_))))
    rw [entries]
    exact List.mem_map_of_mem late
  | filing parsed noted =>
    rw [reportOn_of_module parsed]
    exact Report.has_merge (.inl (Report.has_merge (.inr (Report.has_foldl_add (.inr noted)))))
  | analysis parsed found =>
    rw [reportOn_of_module parsed]
    exact Report.has_merge (.inr found.has)

theorem reportOn_only (options : AnalysisOptions) (text : String) :
    (reportOn options text).Only (Finds options text) := by
  intro d hd
  cases scanned : TokenRow.ofText text with
  | error e =>
    rw [reportOn_of_scan scanned] at hd
    obtain rfl := List.mem_singleton.1 hd
    exact .scanning scanned
  | ok row =>
    have distinct := (TokenRow.ordered scanned).nodup_spans
    cases read : Module.ofTokens row with
    | error f =>
      rw [reportOn_of_parse scanned read, (Module.ofTokens_error distinct read).report] at hd
      rcases List.mem_append.1 hd with before | last
      · obtain ⟨p, late, rfl⟩ := List.mem_map.1 before
        exact .lateBefore scanned read late
      · obtain rfl := List.mem_singleton.1 last
        exact .reading scanned read
    | ok found =>
      obtain ⟨m, report⟩ := found
      have parsed : Module.ofText text = .ok (m, report) := by
        rw [Module.ofText, scanned]
        dsimp only
        rw [read]
      rw [reportOn_of_module parsed] at hd
      rcases Report.mem_merge hd with front | behind
      · rcases Report.mem_merge front with first | filed
        · rw [Module.ofTokens_ok distinct read] at first
          obtain ⟨p, late, rfl⟩ := List.mem_map.1 first
          exact .late parsed late
        · exact .filing parsed ((Report.mem_foldl_add filed).resolve_left List.not_mem_nil)
      · exact Query.history_only _ (fun d found => .analysis parsed found)
          (fun _ listed => absurd listed List.not_mem_nil) d behind

/-- The report on a text has all that there is to find in it and nothing else. -/
theorem mem_reportOn_iff : d ∈ (reportOn options text).entries ↔ Finds options text d :=
  ⟨reportOn_only options text d, fun h =>
    Report.mem_of_has (fun e he => (reportOn_only options text e he).lawful) h.lawful h.has⟩

theorem hasErrors_reportOn_iff :
    (reportOn options text).hasErrors = true ↔ ∃ d, Finds options text d ∧ d.level = .error := by
  simp only [Report.hasErrors_iff, mem_reportOn_iff]

/-- A check of all functions of a text fails if there is an error in the report. -/
theorem status_check_iff {r : Request} (verb : r.verb = .check) (all : r.function = none) :
    (r.runOn options text).status = .failure ↔ (reportOn options text).hasErrors = true := by
  rw [Request.runOn, Outcome.status_after, reportOn]
  cases built : ofText options text with
  | error f =>
    obtain ⟨d, hd, level, -⟩ := ReadFailure.exists_error (ofText_eq_error_iff.1 built)
    exact iff_of_true rfl (Report.hasErrors_iff.2 ⟨d, hd, level⟩)
  | ok c =>
    dsimp only
    rw [Request.answer, verb, Report.hasErrors_iff]
    dsimp only
    rw [Request.check, all, entriesOf]
    dsimp only
    cases count : c.report.entries.countP (·.level == .error) with
    | zero =>
      refine iff_of_false nofun fun ⟨d, hd, level⟩ => ?_
      exact List.countP_eq_zero.1 count d hd (by simp [level])
    | succ n =>
      refine iff_of_true rfl ?_
      obtain ⟨d, hd, level⟩ := List.countP_pos_iff.1 ((Nat.succ_pos n).trans_eq count.symm)
      exact ⟨d, hd, by simpa using level⟩

end Compilation

/-- Whatever is added to a report, or merged into it, the first of each kind, span and message is
kept, in the order in which they were reported.  No error is lost by that in the report on a text,
whether the text can be read or not: all that there is to find in it is reported as it is found, and
nothing else is.  So there is an error in the report just where one is found, and just then a check
of all functions fails. -/
theorem findings_reported :
    (∀ ds r, Report.Collects ds r → r.entries = Diagnostic.distinct ds) ∧
      ∀ options text,
        (∀ d, d ∈ (Compilation.reportOn options text).entries ↔
          Compilation.Finds options text d) ∧
        ((Compilation.reportOn options text).hasErrors = true ↔
          ∃ d, Compilation.Finds options text d ∧ d.level = .error) ∧
        ∀ r : Request, r.verb = .check → r.function = none →
          ((r.runOn options text).status = .failure ↔
            ∃ d, Compilation.Finds options text d ∧ d.level = .error) := by
  refine ⟨fun ds r collects => collects.entries_eq, fun options text => ?_⟩
  have errors := @Compilation.hasErrors_reportOn_iff options text
  exact ⟨fun d => Compilation.mem_reportOn_iff, errors,
    fun r verb all => (Compilation.status_check_iff verb all).trans errors⟩

/-- A parameter comes too late, a class is declared twice, a field hides a method, `g` assigns to a
member, `h` calls itself in a loop, and calls `f` in two ways, which looks for `zz` in both. -/
def mixedText : String := "
  class P \x7b var a
    fn a() \x7b return 1 \x7d \x7d
  class P \x7b \x7d
  fn f(...xs, y) \x7b return zz \x7d
  fn g(p) \x7b p.q = 1 \x7d
  fn h() \x7b while true \x7b h() \x7d return f(1) + f(2) \x7d
"

/-- A warning would hide an error with its words. -/
theorem findings_reported_mixed :
    let w := Diagnostic.warning "m" none
    let e := Diagnostic.error "m" none
    let r := (Report.empty.add w).merge ((Report.empty.add e).add w)
    let check : Request := ⟨.check, "mixed", none, none, false, none, false⟩
    (Report.Collects [w, e, w] r ∧ r.entries = [w]) ∧
      (Compilation.reportOn .standard mixedText).entries.map (fun d => (d.level, d.message)) =
        [(.error, "parameter 'y' follows a variadic parameter"), (.error, "duplicate class 'P'"),
          (.warning, "method 'a' is shadowed by a field of class 'P'"),
          (.error, "unresolved identifier 'zz'"),
          (.error, "assignment to this kind of target is not supported (line 6, column 13)"),
          (.note, "recursive call to 'h' not expanded"),
          (.note, "loop in 'h' analyzed for one iteration")] ∧
      (∀ d ∈ (Compilation.reportOn .standard mixedText).entries,
        Compilation.Finds .standard mixedText d) ∧
      check.verb = .check ∧ check.function = none ∧
        (check.runOn .standard mixedText).status = .failure := by
  intro w e r check
  obtain ⟨collects, found⟩ := findings_reported
  obtain ⟨mem, -, status⟩ := found .standard mixedText
  have both : Report.Collects [w, e, w] r := .merge (.add .empty w) (.add (.add .empty e) w)
  refine ⟨⟨both, (collects _ _ both).trans (by decide)⟩, (and_iff_left_of_imp fun shown => ?_).2 ?_⟩
  · have listed : (Level.error, "duplicate class 'P'") ∈
        (Compilation.reportOn .standard mixedText).entries.map fun d => (d.level, d.message) := by
      rw [shown]
      decide
    obtain ⟨d, hd, same⟩ := List.mem_map.1 listed
    exact ⟨fun d hd => (mem d).1 hd, rfl, rfl,
      (status check rfl rfl).2 ⟨d, (mem d).1 hd, congrArg Prod.fst same⟩⟩
  · have row : TokenRow.ofText mixedText = _ := TokenRow.ofText_of_eq_ofList (by rw [mixedText])
    rw [Compilation.reportOn, Compilation.ofText, Module.ofText, row]
    decide +kernel

end PathTyping
