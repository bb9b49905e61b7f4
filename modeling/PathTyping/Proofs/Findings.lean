import PathTyping.Proofs.Gathering

/-!
# What an instruction finds

Where a path stands at an instruction, the arena tells what is wrong there: operands that are
missing, a name, a member or an element that is not there, a callee that cannot be called.  Nothing
that is remembered has a part in it.  A step reports just that, and what the call reports that it
makes.

1. `Arena.findings`: what is wrong at an instruction, by the arena alone.
2. `step_report`: a step adds that to the report, and then follows a call if it makes one.
3. `Walks.only`, `Leads.has`: so a walk reports what is found wherever it comes to, and what its
   calls report, and nothing else.
-/

namespace PathTyping

open Walk

/-! ## Faults -/

/-- What is found instead of a value. -/
def faultOf : Except Finding Value → Option Finding
  | .ok _ => none
  | .error f => some f

namespace SymbolTable

/-- What is wrong with a call of a value, with arguments of these types. -/
def callFault (t : SymbolTable) (callee : Value) (arguments : List Ty) : Option Finding :=
  match callee.members with
  | some (.class_ id :: _) => Analysis.constructionFault t id arguments
  | some members =>
    match Choice.of? t members arguments with
    | none => none
    | some choice =>
      if choice.matched then none
      else some (.noMatchingOverload (t.memberName choice.member) arguments)
  | none =>
    match callee.type with
    | .any => none
    | .function => none
    | type => some (.notCallable type)

/-- What is wrong with the load of a member, unless it is kept as a property. -/
def memberFault (t : SymbolTable) (target : Value) (name : String) : Option Finding :=
  match target.property? name with
  | some _ => none
  | none => faultOf (t.member target name)

end SymbolTable

/-- The slots that the instruction reads, in this order. -/
def Instr.reads : Instr → List Slot
  | const _ _ => []
  | unary _ _ x => [x]
  | binary _ x _ y => [x, y]
  | goto _ => []
  | gotoIf _ condition _ => [condition]
  | call _ callee arguments => callee :: arguments
  | load _ _ => []
  | member _ target _ => [target]
  | index _ target key => [target, key]
  | store _ value => [value]
  | ret value => value.toList

namespace Arena

/-- What is read from a slot; where no value is in it, `any` stands in. -/
def read (a : Arena) (id : Nat) (slot : Slot) : Value := (a.lookupSlot id slot).getD .any

/-- The slots without a value, of those that are read. -/
def missing (a : Arena) (id : Nat) (slots : List Slot) : List Finding :=
  (slots.filter fun slot => (a.lookupSlot id slot).isNone).map .missingOperand

/-- What is wrong with an instruction beside its operands. -/
def fault? (t : SymbolTable) (a : Arena) (id : Nat) : Instr → Option Finding
  | .call _ callee arguments =>
    t.callFault (a.read id callee) (arguments.map fun slot => (a.read id slot).type)
  | .load _ name =>
    match a.lookupVariable id name with
    | some _ => none
    | none => faultOf (t.named (a.scope id).owner (a.lookupVariable id "self") name)
  | .member _ target name => t.memberFault (a.read id target) name
  | .index _ target key => faultOf (t.element (a.read id target) (a.read id key))
  | _ => none

/-- All that is wrong with an instruction that is executed on the branch. -/
def findings (t : SymbolTable) (a : Arena) (id : Nat) (instr : Instr) : List Finding :=
  a.missing id instr.reads ++ (a.fault? t id instr).toList

/-- What is reported where a path comes to an index: what is wrong with the instruction there, or
that the path has executed it before. -/
def found (t : SymbolTable) (steps : Array Step) (a : Arena) (id index : Nat) : List Diagnostic :=
  match steps[index]? with
  | none => []
  | some step =>
    let (first, a) := a.visit id index
    let findings :=
      if first then a.findings t id step.instr else [.loopCutoff (bodyName t a id)]
    findings.map (·.diagnostic step.span)

theorem missing_cons (a : Arena) (id : Nat) (slot : Slot) (slots : List Slot) :
    a.missing id (slot :: slots) = a.missing id [slot] ++ a.missing id slots := by
  unfold missing
  cases h : (a.lookupSlot id slot).isNone <;> simp [h]

theorem findings_of_none {t : SymbolTable} {a : Arena} {id : Nat} {instr : Instr}
    (h : a.fault? t id instr = none) : a.findings t id instr = a.missing id instr.reads := by
  rw [findings, h]
  exact List.append_nil _

end Arena

/-! ## Reports -/

namespace Report

def tell (r : Report) (span : Span) (findings : List Finding) : Report :=
  (findings.map (·.diagnostic span)).foldl add r

theorem tell_append (r : Report) (span : Span) (fs gs : List Finding) :
    r.tell span (fs ++ gs) = (r.tell span fs).tell span gs := by
  rw [tell, List.map_append, List.foldl_append]
  rfl

end Report

/-! ## Values up to their labels -/

section Labels

variable {t : SymbolTable} {v w : Value} {a : Arena} {id : Nat} {slot : Slot}

/-- The value with another label. -/
def Value.labelled (v : Value) (label : Nat) : Value := { v with label := label }

/-- Of what is read, only the label is not known: where a value is missing, a new object stands in
for it. -/
def Arena.Offers (a : Arena) (id : Nat) (slot : Slot) (v : Value) : Prop :=
  ∃ label, v = (a.read id slot).labelled label

theorem findMember_label (name : String) (v : Value) (label : Nat) (type : Ty) :
    (t.findMember name (v.labelled label) type).isSome = (t.findMember name v type).isSome := by
  cases type with
  | instance_ c | classObject c =>
    rw [SymbolTable.findMember, SymbolTable.findMember]
    cases t.classMembers c.id name <;> rfl
  | _ => rfl

theorem faultOf_member_label (v : Value) (label : Nat) (name : String) :
    faultOf (t.member (v.labelled label) name) = faultOf (t.member v name) := by
  have same := findMember_label (t := t) name v label v.type
  unfold SymbolTable.member
  rw [show (v.labelled label).type = v.type from rfl]
  cases h : t.findMember name (v.labelled label) v.type <;>
    cases h' : t.findMember name v v.type <;> simp [h, h', faultOf] at same ⊢

theorem memberFault_label (v : Value) (label : Nat) (name : String) :
    t.memberFault (v.labelled label) name = t.memberFault v name := by
  unfold SymbolTable.memberFault
  rw [faultOf_member_label]
  rfl

theorem faultOf_element_label (v w : Value) (label other : Nat) :
    faultOf (t.element (v.labelled label) (w.labelled other)) = faultOf (t.element v w) := by
  have entry : faultOf (t.entry (v.labelled label) (w.labelled other)) =
      faultOf (t.entry v w) := by
    unfold SymbolTable.entry
    rw [show (w.labelled other).string? = w.string? from rfl]
    cases w.string? with
    | some name => exact faultOf_member_label v label name
    | none => rfl
  unfold SymbolTable.element
  rw [show (v.labelled label).type = v.type from rfl,
    show (w.labelled other).type = w.type from rfl]
  split
  · rfl
  · rfl
  · rfl
  · exact entry
  · exact entry
  · rfl

end Labels

/-! ## Programs -/

section Programs

variable {α β : Type} {id : Nat}

/-- Nothing is reported. -/
def Walk.Quiet (x : Walk α) : Prop := Within (fun s s' => s'.2.report = s.2.report) x

namespace Walk

theorem quiet_pure (v : α) : Quiet (pure v) := fun _ _ _ given => (gives_pure_iff.1 given).2 ▸ rfl

theorem quiet_get : Quiet (get : Walk Arena) := fun _ _ _ given => (gives_get_iff.1 given).2 ▸ rfl

theorem quiet_modify (g : Arena → Arena) : Quiet (modify g : Walk Unit) :=
  within_modify fun _ _ => rfl

theorem quiet_fresh (v : Value) : Quiet (Walk.fresh v) := within_lift fun _ _ => rfl

theorem quiet_child : Quiet (child id) := fun _ _ _ given => (gives_child_iff.1 given).2 ▸ rfl

theorem quiet_bind {x : Walk α} {f : α → Walk β} (hx : Quiet x) (hf : ∀ v, Quiet (f v)) :
    Quiet (x >>= f) := fun _ _ _ given => by
  obtain ⟨v, s₁, given, given'⟩ := gives_bind_iff.1 given
  exact (hf v given').trans (hx given)

theorem quiet_bindSlot (slot : Slot) (v : Value) : Quiet (bindSlot id slot v) :=
  quiet_bind (quiet_fresh v) fun _ => quiet_modify _

theorem quiet_rebindSlot (slot : Slot) (v : Value) : Quiet (rebindSlot id slot v) :=
  quiet_bind (quiet_fresh v) fun _ => quiet_modify _

theorem quiet_bindVariable (name : String) (v : Value) : Quiet (bindVariable id name v) :=
  quiet_bind (quiet_fresh v) fun _ => quiet_modify _

theorem quiet_finish (termination : Termination) (v : Value) : Quiet (finish id termination v) :=
  quiet_bind (quiet_fresh v) fun _ => quiet_modify _

theorem quiet_latest : Quiet (latest id) := quiet_bind quiet_get fun _ => quiet_pure _

theorem quiet_fork (options : AnalysisOptions) (target index : Nat) :
    Quiet (fork options id target index) := by
  refine quiet_bind quiet_get fun a => ?_
  split
  · exact quiet_pure _
  · split
    · exact quiet_bind quiet_child fun _ => quiet_bind quiet_child fun _ => quiet_pure _
    · exact quiet_bind quiet_child fun _ => quiet_pure _

theorem quiet_continueWith (slot : Slot) (values : List Value) (index : Nat) :
    Quiet (continueWith id slot values index) := by
  unfold continueWith
  split
  · exact quiet_bind (quiet_bindSlot slot _) fun _ => quiet_pure _
  · exact quiet_bind (quiet_bindSlot slot _) fun _ => quiet_pure _
  · exact quiet_pure _

end Walk

end Programs

/-! ### Operands and lookups -/

section Operands

variable {t : SymbolTable} {ctx : Context} {id : Nat} {span : Span} {s s' : State} {v : Value}

theorem any_place (next : Nat) : (Value.any.place next).1 = Value.any.labelled next := by
  simp [Value.any, Value.ofType, Value.place, Value.placeProperties, Value.labelled]

/-- To read a slot changes nothing but that a missing operand is reported. -/
theorem operand_tells {slot : Slot} (given : Gives (operand id span slot) s v s') :
    s'.1 = s.1 ∧ s'.2.report = s.2.report.tell span (s.1.missing id [slot]) ∧
      s.1.Offers id slot v := by
  obtain ⟨a, s₁, got, given⟩ := gives_bind_iff.1 given
  obtain ⟨rfl, rfl⟩ := gives_get_iff.1 got
  unfold Arena.Offers Arena.read Arena.missing
  split at given
  · next w found =>
    obtain ⟨rfl, rfl⟩ := gives_pure_iff.1 given
    refine ⟨rfl, by simp [found, Report.tell], v.label, ?_⟩
    rw [found]
    cases v
    rfl
  · next absent =>
    obtain ⟨_, s₂, reported, given⟩ := gives_bind_iff.1 given
    obtain ⟨rfl, -⟩ := gives_lift_iff.1 reported
    obtain ⟨rfl, rfl⟩ := gives_lift_iff.1 given
    refine ⟨rfl, by simp [absent]; rfl, s₁.2.nextLabel, ?_⟩
    rw [absent]
    exact any_place _

/-- Two slots are read, one behind the other. -/
theorem operandPair_tells {slot other : Slot} {s₁ : State} {w : Value}
    (first : Gives (operand id span slot) s v s₁) (second : Gives (operand id span other) s₁ w s') :
    s'.2.report = s.2.report.tell span (s.1.missing id [slot, other]) ∧
      s.1.Offers id slot v ∧ s.1.Offers id other w := by
  obtain ⟨arena, report, offers⟩ := operand_tells first
  obtain ⟨-, report', offers'⟩ := operand_tells second
  rw [arena] at report' offers'
  refine ⟨?_, offers, offers'⟩
  rw [report', report, s.1.missing_cons id slot [other], Report.tell_append]

theorem operands_tell {slots : List Slot} {vs : List Value}
    (given : Gives (slots.mapM (operand id span)) s vs s') :
    s'.1 = s.1 ∧ s'.2.report = s.2.report.tell span (s.1.missing id slots) ∧
      vs.map Value.type = slots.map fun slot => (s.1.read id slot).type := by
  induction slots generalizing s vs with
  | nil =>
    obtain ⟨rfl, rfl⟩ := gives_pure_iff.1 given
    exact ⟨rfl, rfl, rfl⟩
  | cons slot rest ih =>
    rw [List.mapM_cons] at given
    obtain ⟨v, s₁, read, given⟩ := gives_bind_iff.1 given
    obtain ⟨ws, s₂, reads, given⟩ := gives_bind_iff.1 given
    obtain ⟨rfl, rfl⟩ := gives_pure_iff.1 given
    obtain ⟨arena, report, label, rfl⟩ := operand_tells read
    obtain ⟨arena', report', types⟩ := ih reads
    rw [arena] at arena' report' types
    refine ⟨arena', ?_, congrArg (_ :: ·) types⟩
    rw [report', report, s.1.missing_cons id slot rest, Report.tell_append]

theorem settle_tells {looked : Except Finding Value} (given : Gives (settle looked span) s v s') :
    s'.1 = s.1 ∧ s'.2.report = s.2.report.tell span (faultOf looked).toList := by
  obtain ⟨rfl, -⟩ := gives_lift_iff.1 given
  cases looked <;> exact ⟨rfl, rfl⟩

theorem load_tells {name : String} (given : Gives (load ctx id span name) s v s') :
    s'.2.report = s.2.report.tell span (s.1.findings ctx.symbols id (.load 0 name)) := by
  obtain ⟨a, s₁, got, given⟩ := gives_bind_iff.1 given
  obtain ⟨rfl, rfl⟩ := gives_get_iff.1 got
  show _ = s₁.2.report.tell span (s₁.1.fault? ctx.symbols id (.load 0 name)).toList
  unfold Arena.fault?
  split at given
  · next found =>
    obtain ⟨-, rfl⟩ := gives_pure_iff.1 given
    simp only [found]
    rfl
  · next absent =>
    simp only [absent]
    exact (settle_tells given).2

theorem loadMember_tells {slot : Slot} {name : String}
    (given : Gives (loadMember ctx id span slot name) s v s') :
    s'.2.report = s.2.report.tell span (s.1.findings ctx.symbols id (.member 0 slot name)) := by
  obtain ⟨target, s₁, read, given⟩ := gives_bind_iff.1 given
  obtain ⟨arena, report, label, offered⟩ := operand_tells read
  show _ = s.2.report.tell span (s.1.missing id [slot] ++
    (ctx.symbols.memberFault (s.1.read id slot) name).toList)
  rw [Report.tell_append, ← report, ← memberFault_label _ label, ← offered]
  unfold SymbolTable.memberFault
  cases kept : target.property? name with
  | some p =>
    rw [kept] at given
    obtain ⟨-, rfl⟩ := gives_pure_iff.1 given
    rfl
  | none =>
    rw [kept] at given
    dsimp only at given ⊢
    cases found : ctx.symbols.member target name with
    | error f =>
      rw [found] at given
      exact (settle_tells given).2
    | ok u =>
      rw [found] at given
      exact quiet_bind (quiet_fresh _) (fun _ => quiet_bind (quiet_rebindSlot _ _) fun _ =>
        quiet_pure _) given

end Operands

/-! ### Calls -/

namespace Analysis

theorem reportFault_tells (fault : Option Finding) (span : Span) (m : Memory) :
    ((reportFault fault span).run m).2.report = m.report.tell span fault.toList := by
  cases fault <;> rfl

theorem requestMembers_tells (ctx : Context) (callee : Value) (members : List Member)
    (arguments : List Value) (span : Span) (m : Memory) :
    ((requestMembers ctx callee members arguments span).run m).2.report =
      m.report.tell span (match Choice.of? ctx.symbols members (arguments.map Value.type) with
        | none => none
        | some choice =>
          if choice.matched then none
          else some (Finding.noMatchingOverload (ctx.symbols.memberName choice.member)
            (arguments.map Value.type))).toList := by
  unfold requestMembers
  dsimp only
  rcases Choice.of? ctx.symbols members (arguments.map Value.type) with _ | ⟨member, matched⟩
  · rfl
  · cases matched <;> cases member <;> rfl

/-- What a call reports before a body is entered. -/
theorem request_tells (ctx : Context) (callee : Value) (arguments : List Value) (span : Span)
    (m : Memory) : ((request ctx callee arguments span).run m).2.report =
      m.report.tell span (ctx.symbols.callFault callee (arguments.map Value.type)).toList := by
  unfold request SymbolTable.callFault
  rcases callee.members with _ | _ | ⟨first, rest⟩
  · cases callee.type <;> rfl
  · exact requestMembers_tells ctx callee [] arguments span m
  · cases first with
    | class_ id => exact reportFault_tells _ span m
    | _ => exact requestMembers_tells ctx callee _ arguments span m

end Analysis

section Steps

variable {depth : Nat} {ctx ctx' : Context} {id index : Nat} {steps : Array Step} {s s' s₁ : State}
  {next : Next} {task : Task} {ends : List Nat} {P : Context → Nat → Nat → State → Prop}

theorem gives_arrive_iff {first : Bool} : Gives (arrive id index) s first s' ↔
    first = (s.1.visit id index).1 ∧ s' = ((s.1.visit id index).2, s.2) := by
  obtain ⟨a', m'⟩ := s'
  refine ⟨fun h => ?_, fun ⟨hf, hs⟩ => hf ▸ hs ▸ rfl⟩
  cases h
  exact ⟨rfl, rfl⟩

/-- An instruction that is no call reports what is wrong with it. -/
theorem execute_tells {invoke : Invoke} {step : Step}
    (other : ∀ result callee arguments, step.instr ≠ .call result callee arguments)
    (given : Gives (execute invoke ctx id index step) s next s') :
    s'.2.report = s.2.report.tell step.span (s.1.findings ctx.symbols id step.instr) := by
  obtain ⟨instr, span⟩ := step
  have bind (slot : Slot) (v : Value) :
      Quiet (do bindSlot id slot v; return .next (index + 1) : Walk Next) :=
    quiet_bind (quiet_bindSlot slot v) fun _ => quiet_pure _
  cases instr with
  | call result callee arguments => exact absurd rfl (other _ _ _)
  | const result l => exact bind _ _ given
  | unary result op x =>
    obtain ⟨v, s₁, read, given⟩ := gives_bind_iff.1 given
    rw [Arena.findings_of_none rfl]
    exact (bind _ _ given).trans (operand_tells read).2.1
  | binary result x op y =>
    obtain ⟨v, s₁, read, given⟩ := gives_bind_iff.1 given
    obtain ⟨w, s₂, read', given⟩ := gives_bind_iff.1 given
    rw [Arena.findings_of_none rfl]
    exact (bind _ _ given).trans (operandPair_tells read read').1
  | goto target => exact quiet_pure (Next.next target) given
  | gotoIf target condition expected =>
    obtain ⟨v, s₁, read, given⟩ := gives_bind_iff.1 given
    rw [Arena.findings_of_none rfl]
    exact (quiet_fork _ _ _ given).trans (operand_tells read).2.1
  | load result name =>
    obtain ⟨v, s₁, loaded, given⟩ := gives_bind_iff.1 given
    exact (bind _ _ given).trans (load_tells loaded)
  | member result target name =>
    obtain ⟨v, s₁, loaded, given⟩ := gives_bind_iff.1 given
    exact (bind _ _ given).trans (loadMember_tells loaded)
  | index result target key =>
    obtain ⟨v, s₁, read, given⟩ := gives_bind_iff.1 given
    obtain ⟨w, s₂, read', given⟩ := gives_bind_iff.1 given
    obtain ⟨u, s₃, settled, given⟩ := gives_bind_iff.1 given
    obtain ⟨report, ⟨label, target_⟩, ⟨label', key_⟩⟩ := operandPair_tells read read'
    rw [bind _ _ given, (settle_tells settled).2, report, target_, key_, faultOf_element_label,
      ← Report.tell_append]
    rfl
  | store name value =>
    obtain ⟨v, s₁, read, given⟩ := gives_bind_iff.1 given
    rw [Arena.findings_of_none rfl]
    exact (quiet_bind (quiet_bindVariable _ _) (fun _ => quiet_pure _) given).trans
      (operand_tells read).2.1
  | ret value =>
    rw [Arena.findings_of_none rfl]
    cases value with
    | some x =>
      obtain ⟨v, s₁, read, given⟩ := gives_bind_iff.1 given
      exact (quiet_pure _ given).trans (operand_tells read).2.1
    | none => exact quiet_bind quiet_latest (fun _ => quiet_pure _) given

/-- A call reports what is wrong with it before it is followed. -/
theorem results_tells {result callee : Slot} {slots : List Slot} {span : Span} {s₀ : State}
    (here : steps[index]? = some ⟨.call result callee slots, span⟩)
    (arrived : Gives (arrive id index) s true s₀) {values : List Value}
    (given : Gives (Walk.results (Analysis.invoke depth) ctx id span callee slots) s₀ values s') :
    s'.2.report = s₀.2.report.tell span
        (s₀.1.findings ctx.symbols id (.call result callee slots)) ∨
      ∃ c : MethodCall, c.depth = depth ∧ Issues steps ctx id index s c ∧
        c.memory.report = s₀.2.report.tell span
          (s₀.1.findings ctx.symbols id (.call result callee slots)) ∧
        s'.2.report = c.after.report := by
  obtain ⟨v, s₁, read, given⟩ := gives_bind_iff.1 given
  obtain ⟨vs, s₂, reads, given⟩ := gives_bind_iff.1 given
  obtain ⟨a, s₃, got, given⟩ := gives_bind_iff.1 given
  obtain ⟨rfl, rfl⟩ := gives_get_iff.1 got
  obtain ⟨rfl, rfl⟩ := gives_lift_iff.1 given
  obtain ⟨arena, report, label, offered⟩ := operand_tells read
  obtain ⟨-, report', types⟩ := operands_tell reads
  have asked := Analysis.request_tells (ctx.enter s₃.1) v vs span s₃.2
  have whole : ((Analysis.request (ctx.enter s₃.1) v vs span).run s₃.2).2.report =
      s₀.2.report.tell span (s₀.1.findings ctx.symbols id (.call result callee slots)) := by
    rw [asked, report', report, types, arena, offered, Arena.findings, Instr.reads,
      s₀.1.missing_cons id callee slots, Report.tell_append, Report.tell_append]
    rfl
  dsimp only
  rw [Analysis.call, StateT.run_bind]
  rcases out : (Analysis.request (ctx.enter s₃.1) v vs span).run s₃.2 with ⟨request, m⟩
  rw [out] at whole
  cases request with
  | answered answers => exact .inl whole
  | enter method receiver =>
    exact .inr ⟨⟨depth, ctx.enter s₃.1, method, receiver, vs, span, m⟩, rfl,
      ⟨result, callee, slots, v, s₀, s₁, s₃, here, arrived, read, reads, rfl, out⟩, whole, rfl⟩

/-- The step makes a call when it has reported what is found, and reports what the call leaves. -/
def Calls (depth : Nat) (ctx : Context) (steps : Array Step) (id index : Nat) (s s' : State)
    (c : MethodCall) : Prop :=
  c.depth = depth ∧ Issues steps ctx id index s c ∧
    c.memory.report = (s.1.found ctx.symbols steps id index).foldl .add s.2.report ∧
    s'.2.report = c.after.report

/-- A step reports what is found where the path stands.  That is all, or a call follows that
reports the rest. -/
theorem step_report
    (done : Gives (Walk.step (Analysis.invoke depth) ctx steps id index) s next s') :
    s'.2.report = (s.1.found ctx.symbols steps id index).foldl .add s.2.report ∨
      ∃ c, Calls depth ctx steps id index s s' c := by
  unfold Walk.step at done
  cases here : steps[index]? with
  | none =>
    rw [here] at done
    refine .inl ?_
    rw [Arena.found, here]
    exact quiet_bind quiet_latest (fun _ => quiet_pure _) done
  | some step =>
    rw [here] at done
    obtain ⟨first, s₀, arrived, done⟩ := gives_bind_iff.1 done
    obtain ⟨rfl, rfl⟩ := gives_arrive_iff.1 arrived
    have found (fs : List Finding)
        (same : fs = if (s.1.visit id index).1 then
          (s.1.visit id index).2.findings ctx.symbols id step.instr
          else [.loopCutoff (bodyName ctx.symbols (s.1.visit id index).2 id)]) :
        s.2.report.tell step.span fs =
          (s.1.found ctx.symbols steps id index).foldl .add s.2.report := by
      rw [same, Arena.found, here]
      rfl
    split at done
    · next fresh =>
      by_cases call : ∃ result callee arguments, step.instr = .call result callee arguments
      · obtain ⟨instr, span⟩ := step
        obtain ⟨result, callee, slots, rfl⟩ := call
        obtain ⟨values, s₁, answered, done⟩ := gives_bind_iff.1 done
        have behind : s'.2.report = s₁.2.report :=
          quiet_bind quiet_get (fun _ => quiet_continueWith _ _ _) done
        rw [fresh] at arrived
        rw [behind, ← found _ (if_pos fresh).symm]
        rcases results_tells here arrived answered with quiet | ⟨c, deep, issues, before, after⟩
        · exact .inl quiet
        · rw [found _ (if_pos fresh).symm] at before
          exact .inr ⟨c, deep, issues, before, behind.trans after⟩
      · refine .inl ?_
        rw [← found _ (if_pos fresh).symm]
        exact execute_tells (fun r c as same => call ⟨r, c, as, same⟩) done
    · next again =>
      refine .inl ?_
      rw [← found _ (if_neg again).symm]
      obtain ⟨a, s₁, got, done⟩ := gives_bind_iff.1 done
      obtain ⟨rfl, rfl⟩ := gives_get_iff.1 got
      obtain ⟨_, s₂, reported, done⟩ := gives_bind_iff.1 done
      obtain ⟨-, rfl⟩ := gives_pure_iff.1 done
      obtain ⟨rfl, -⟩ := gives_lift_iff.1 reported
      rfl

/-! ## Walks -/

section Only

variable {R : Diagnostic → Prop}

/-- Wherever the walk comes to, what is found there is of the kind `R`. -/
def FindsOnly (R : Diagnostic → Prop) (depth : Nat) (steps : Array Step) (task : Task)
    (s : State) : Prop :=
  ∀ ctx id index s₁, Leads (Analysis.invoke depth) steps task s (.path ctx id index) s₁ →
    ∀ d ∈ s₁.1.found ctx.symbols steps id index, R d

theorem step_only
    (done : Gives (Walk.step (Analysis.invoke depth) ctx steps id index) s next s')
    (found : ∀ d ∈ s.1.found ctx.symbols steps id index, R d)
    (calls : ∀ c : MethodCall, c.depth = depth → Issues steps ctx id index s c →
      c.memory.report.Only R → c.after.report.Only R)
    (only : s.2.report.Only R) : s'.2.report.Only R := by
  have told : ((s.1.found ctx.symbols steps id index).foldl Report.add s.2.report).Only R :=
    fun d hd => (Report.mem_foldl_add hd).elim (only d) (found d)
  rcases step_report done with quiet | ⟨c, deep, issues, before, after⟩
  · rwa [quiet]
  · rw [after]
    exact calls c deep issues (before ▸ told)

/-- What is reported is what has been, what is found where the walk comes to, and what is reported
by the calls that are made there. -/
theorem Walks.only
    (walks : Walks (Analysis.invoke depth) steps (fun _ _ _ _ => True) task s ends s')
    (found : FindsOnly R depth steps task s)
    (calls : Spares (fun m => m.report.Only R) depth steps task s)
    (only : s.2.report.Only R) : s'.2.report.Only R := by
  induction walks with
  | onward _ done goes _ ih =>
    refine ih (fun ctx id index s₁ leads => found ctx id index s₁ (.onward done goes leads))
      (fun ctx id index s₁ c leads => calls ctx id index s₁ c (.onward done goes leads)) ?_
    exact step_only done (found _ _ _ _ .here) (fun c => calls _ _ _ _ c .here) only
  | stop _ done finished =>
    have same := quiet_finish _ _ finished
    show Report.Only R _
    rw [same]
    exact step_only done (found _ _ _ _ .here) (fun c => calls _ _ _ _ c .here) only
  | allNil => exact only
  | allCons walks _ first rest =>
    refine rest (fun ctx id index s₁ leads => found ctx id index s₁ (.later walks leads))
      (fun ctx id index s₁ c leads => calls ctx id index s₁ c (.later walks leads)) ?_
    exact first (fun ctx id index s₁ leads => found ctx id index s₁ (.first leads))
      (fun ctx id index s₁ c leads => calls ctx id index s₁ c (.first leads)) only
  | eachNil => exact only
  | eachCons bound walks _ first rest =>
    refine rest (fun ctx id index s₁ leads => found ctx id index s₁ (.eachLater bound walks leads))
      (fun ctx id index s₁ c leads => calls ctx id index s₁ c (.eachLater bound walks leads)) ?_
    refine first (fun ctx id index s₁ leads => found ctx id index s₁ (.eachFirst bound leads))
      (fun ctx id index s₁ c leads => calls ctx id index s₁ c (.eachFirst bound leads)) ?_
    have same := quiet_bindSlot _ _ bound
    show Report.Only R _
    rw [same]
    exact only

end Only

/-- What has been reported is not taken back. -/
theorem abides_has (d : Diagnostic) :
    Abides fun m m' => m.report.has d = true → m'.report.has d = true where
  refl _ h := h
  trans h h' hm := h' (h hm)
  report _ e h := Report.has_add h e
  place _ _ h := h
  cut _ h := h
  body t id _ h := (Memory.lasting_has t d).body h id
  enter h hm := h hm
  remember _ _ _ h hm := h hm

theorem has_after (c : MethodCall) {d : Diagnostic} (h : c.memory.report.has d = true) :
    c.after.report.has d = true :=
  ((abides_has d).passes c.depth).invoke c.memory c.ctx c.id c.receiver c.arguments c.span h

/-- What is found where a walk comes to has been reported when the walk is done. -/
theorem Leads.has
    (leads : Leads (Analysis.invoke depth) steps task s (.path ctx id index) s₁)
    (walks : Walks (Analysis.invoke depth) steps P task s ends s') {d : Diagnostic}
    (hd : d ∈ s₁.1.found ctx.symbols steps id index) : s'.2.report.has d = true := by
  have passes := (abides_has d).passes depth
  obtain ⟨-, ends', s₂, rest, behind⟩ := leads.inside passes walks
  refine behind ?_
  have told {next : Next} {s₃ : State}
      (done : Gives (Walk.step (Analysis.invoke depth) ctx steps id index) s₁ next s₃) :
      s₃.2.report.has d = true := by
    have found := Report.has_foldl_add (r := s₁.2.report) (.inr hd)
    rcases step_report done with quiet | ⟨c, -, -, before, after⟩
    · rwa [quiet]
    · rw [after]
      exact has_after c (before ▸ found)
  cases rest with
  | onward _ done _ walks => exact walks.passes passes (told done)
  | stop _ done finished => exact passes.finish finished (told done)

end Steps

end PathTyping
