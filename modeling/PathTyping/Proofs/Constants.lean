import PathTyping.Proofs.Annotations
import PathTyping.Proofs.Filing

/-!
# Literals that are computed twice

What a literal in parentheses and behind minus signs comes to is told where declarations are filed,
by recursion on its tree, and is computed again where its code is run.  Both give the same value.
So the value of a constant may stand for what would be computed in its place, and a default that is
a literal for the argument that is missing.

1. The code of such an expression is a constant and the negations of it (`Expr.lower_folds`).
2. On a root where nothing has been executed, the code is executed from its first instruction to its
   last and leaves the literal in its slot (`Folds.walks`).
3. A constant is filed with the value of its declaration (`SymbolTable.IsConstant.declared`), and
   its name comes to that value (`Expr.yields_constant`).
4. A parameter is bound by its default as by the same literal as an argument
   (`Param.bound_default`).
5. `literals_agree`: both computations, and what takes the place of the second.
-/

namespace PathTyping

open Walk

/-! ## The code of a literal -/

/-- The value is the literal: it has its type, is constant, and there is nothing else to it. -/
structure Value.Is (v : Value) (l : Literal) : Prop where
  type : v.type = .ofLiteral l
  constant : v.constant = some l
  target : v.target = none
  members : v.members = none
  properties : v.properties = []

/-- The instructions put a constant into a slot and negate it, time and again, up to the literal in
the last slot. -/
inductive Folds : List Step → Slot → Literal → Prop
  | const (slot : Slot) (l : Literal) (span : Span) : Folds [⟨.const slot l, span⟩] slot l
  | negative {steps : List Step} {slot : Slot} {x : Float} (result : Slot) (span : Span)
      (h : Folds steps slot (.number x)) :
      Folds (steps ++ [⟨.unary result .negative slot, span⟩]) result (.number (-x))

/-- The code of an expression that is a literal folds to it. -/
theorem Expr.lower_folds {e : Expr} {l : Literal} (folded : e.literal? = some l) (used : Nat) :
    ∃ x, e.lower used = .ok x ∧ Folds x.code.steps x.value l := by
  fun_induction Expr.literal? e generalizing l with
  | case1 span value =>
    cases folded
    exact ⟨_, rfl, .const (used + 1) value span⟩
  | case2 span e ih =>
    obtain ⟨x, lowers, folds⟩ := ih folded
    refine ⟨⟨x.code.record span x.value, x.value⟩, ?_, folds⟩
    rw [lower, lowers]
    rfl
  | case3 span e x inner ih =>
    cases folded
    obtain ⟨y, lowers, folds⟩ := ih inner
    refine ⟨.compute y.code (.unary · .negative y.value) span, ?_, folds.negative _ span⟩
    rw [lower, lowers]
    rfl
  | case4 => cases folded
  | case5 => cases folded

namespace Value.Is

variable {v : Value} {l : Literal}

theorem ofLiteral (l : Literal) : (Value.ofLiteral l).Is l := ⟨rfl, rfl, rfl, rfl, rfl⟩

theorem place (h : v.Is l) (next : Nat) : (v.place next).1.Is l := by
  obtain ⟨label, type, constant, target, members, properties⟩ := v
  obtain ⟨sameType, sameConstant, sameTarget, sameMembers, sameProperties⟩ := h
  dsimp only at sameType sameConstant sameTarget sameMembers sameProperties
  subst sameType sameConstant sameTarget sameMembers sameProperties
  unfold Value.place
  split <;> exact ⟨rfl, rfl, rfl, rfl, rfl⟩

/-- All that is known of the value is the literal. -/
theorem copy_eq (h : v.Is l) : v.copy = Value.ofLiteral l := by
  obtain ⟨label, type, constant, target, members, properties⟩ := v
  obtain ⟨sameType, sameConstant, sameTarget, sameMembers, sameProperties⟩ := h
  dsimp only at sameType sameConstant sameTarget sameMembers sameProperties
  subst sameType sameConstant sameTarget sameMembers sameProperties
  rfl

/-- A number that is constant is negated. -/
theorem negative {x : Float} (h : v.Is (.number x)) :
    Value.unary .negative v = Value.ofLiteral (.number (-x)) := by
  have number : v.number? = some x := by rw [Value.number?, h.constant]
  rw [Value.unary, Value.negative, number]

end Value.Is

/-! ## Running it -/

section Run

variable {invoke : Invoke} {ctx : Context} {steps : Array Step} {instruction : Step}
  {scope : Scope} {report : Report} {n : Nat} {s s' : State} {l : Literal} {slot : Slot} {v : Value}
  {code rest : List Step} {next : Next}

/-- A path is on its root, before the instruction `n`, and nothing has been reported beside
`report`. -/
structure Walk.State.Stands (scope : Scope) (report : Report) (n : Nat) (s : State) : Prop where
  root : ∃ b, s.1.branch? 0 = some b ∧ b.parent = .root scope ∧ ∀ i, n ≤ i → b.visits i = 0
  report : s.2.report = report

/-- What is in the state when a value has been put into a slot of the root. -/
def Walk.State.bound (s : State) (slot : Slot) (v : Value) : State :=
  (s.1.modify 0 (·.bindSlot slot (v.place s.2.nextLabel).1), (s.2.place v).2)

theorem gives_bindSlot (s : State) (slot : Slot) (v : Value) :
    Gives (bindSlot 0 slot v) s () (s.bound slot v) := rfl

/-- An instruction that has not been reached before is executed. -/
theorem Walk.State.Stands.step (stands : s.Stands scope report n)
    (here : steps[n]? = some instruction)
    (given : Gives (execute invoke ctx 0 n instruction) (s.visit 0 n) next s') :
    Gives (Walk.step invoke ctx steps 0 n) s next s' := by
  obtain ⟨b, found, -, new⟩ := stands.root
  obtain ⟨first, s₁, arrived⟩ := gives_some (arrive 0 n) s
  obtain ⟨rfl, rfl⟩ := gives_arrive found arrived
  unfold Walk.step
  rw [here]
  refine gives_bind arrived ?_
  rw [new n le_rfl]
  exact given

/-- To put a value into a slot is to go on with it in the slot. -/
theorem Walk.State.Stands.bound (stands : s.Stands scope report n) (slot : Slot) (v : Value) :
    ((s.visit 0 n).bound slot v).Stands scope report (n + 1) ∧
      ((s.visit 0 n).bound slot v).1.lookupSlot 0 slot = some (v.place s.2.nextLabel).1 := by
  obtain ⟨b, found, parent, new⟩ := stands.root
  have visited : (s.visit 0 n).1.branch? 0 = some (b.visit n) := by
    rw [State.visit, Arena.branch?_modify, if_pos rfl, found, Option.map_some]
  refine ⟨⟨⟨(b.visit n).bindSlot slot (v.place s.2.nextLabel).1, ?_, parent, fun i late => ?_⟩,
    stands.report⟩, Arena.lookupSlot_bindSlot visited slot _⟩
  · rw [State.bound, Arena.branch?_modify, if_pos rfl, visited, Option.map_some]
    rfl
  · exact (b.visits_visit_of_ne (by omega)).trans (new i (by omega))

/-- What is in a slot is read. -/
theorem Walk.State.Stands.operand (stands : s.Stands scope report n) (span : Span)
    (sees : s.1.lookupSlot 0 slot = some v) :
    Gives (Walk.operand 0 span slot) (s.visit 0 n) v (s.visit 0 n) := by
  obtain ⟨b, found, -⟩ := stands.root
  obtain ⟨others, lineage⟩ := Arena.lineage_eq_cons found
  have visited : (s.visit 0 n).1.lookupSlot 0 slot = some v := by
    rw [Arena.lookupSlot_eq lineage] at sees
    rw [State.visit, Arena.lookupSlot_eq (Arena.lineage_modify (by rfl) found lineage)]
    exact sees
  refine gives_bind (gives_get_iff.2 ⟨rfl, rfl⟩) ?_
  rw [visited]
  exact gives_pure_iff.2 ⟨rfl, rfl⟩

variable (invoke ctx) in
/-- The code of a literal is walked to its end, with nothing to report, and the literal is in its
slot. -/
theorem Folds.walks {P : Context → Nat → Nat → State → Prop} (holds : ∀ ctx id n s, P ctx id n s)
    (folds : Folds code slot l) (stands : s.Stands scope report 0) (rest : List Step) :
    ∃ s' : State, s'.Stands scope report code.length ∧
      (∃ v, s'.1.lookupSlot 0 slot = some v ∧ v.Is l) ∧
      ∀ ends s'', Walks invoke (code ++ rest).toArray P (.path ctx 0 code.length) s' ends s'' →
        Walks invoke (code ++ rest).toArray P (.path ctx 0 0) s ends s'' := by
  induction folds generalizing rest with
  | const slot l span =>
    obtain ⟨stands', sees⟩ := stands.bound slot (.ofLiteral l)
    refine ⟨_, stands', ⟨_, sees, (Value.Is.ofLiteral l).place _⟩, fun ends s'' behind => ?_⟩
    have executed : Gives (execute invoke ctx 0 0 ⟨.const slot l, span⟩) (s.visit 0 0) (.next 1)
        ((s.visit 0 0).bound slot (.ofLiteral l)) :=
      gives_bind (gives_bindSlot _ _ _) (gives_pure_iff.2 ⟨rfl, rfl⟩)
    exact .onward (holds ..) (stands.step rfl executed) rfl behind
  | @negative earlier operand x result span folds ih =>
    -- What stands before the negation is followed by it and by the rest.
    obtain ⟨s₁, stands₁, ⟨v, sees₁, is⟩, before⟩ :=
      ih (⟨.unary result .negative operand, span⟩ :: rest)
    obtain ⟨stands', sees⟩ := stands₁.bound result (.ofLiteral (.number (-x)))
    rw [List.append_assoc, List.length_append]
    refine ⟨_, stands', ⟨_, sees, (Value.Is.ofLiteral _).place _⟩, fun ends s'' behind =>
      before ends s'' ?_⟩
    have executed : Gives (execute invoke ctx 0 earlier.length
        ⟨.unary result .negative operand, span⟩) (s₁.visit 0 earlier.length)
        (.next (earlier.length + 1))
        ((s₁.visit 0 earlier.length).bound result (.ofLiteral (.number (-x)))) := by
      refine gives_bind (stands₁.operand span sees₁) ?_
      rw [is.negative]
      exact gives_bind (gives_bindSlot _ _ _) (gives_pure_iff.2 ⟨rfl, rfl⟩)
    exact .onward (holds ..) (stands₁.step (by simp) executed) rfl behind

/-- All that the code comes to is one path, which returns the literal. -/
structure Resolution.Gives (r : Resolution) (l : Literal) : Prop where
  terminals : r.terminals = [0]
  returns : ∃ b v, r.arena.branch? 0 = some b ∧ b.termination = some .return_ ∧
    b.returned = some v ∧ v.Is l

/-- Where the literal is in a slot, returning it ends the path. -/
theorem Walk.State.Stands.returns {P : Context → Nat → Nat → State → Prop}
    (holds : ∀ ctx id n s, P ctx id n s) {span : Span} (stands : s.Stands scope report n)
    (sees : s.1.lookupSlot 0 slot = some v) (is : v.Is l)
    (here : steps[n]? = some ⟨.ret (some slot), span⟩) :
    ∃ s', Walks invoke steps P (.path ctx 0 n) s [0] s' ∧ s'.2.report = report ∧
      ∃ b v, s'.1.branch? 0 = some b ∧ b.termination = some .return_ ∧ b.returned = some v ∧
        v.Is l := by
  obtain ⟨b, found, -, -⟩ := stands.root
  have read := stands.operand span sees
  have done : Gives (Walk.step invoke ctx steps 0 n) s (.stop .return_ v) (s.visit 0 n) :=
    stands.step here (gives_bind read (gives_pure_iff.2 ⟨rfl, rfl⟩))
  let s' : State :=
    ((s.visit 0 n).1.modify 0 (·.finish .return_ (v.place s.2.nextLabel).1), (s.2.place v).2)
  have finished : Gives (finish 0 .return_ v) (s.visit 0 n) () s' := rfl
  refine ⟨s', .stop (holds ..) done finished, stands.report,
    (b.visit n).finish .return_ (v.place s.2.nextLabel).1, _, ?_, rfl, rfl, is.place _⟩
  rw [Arena.branch?_modify, if_pos rfl, State.visit, Arena.branch?_modify, if_pos rfl, found]
  rfl

theorem report_bindAll (locals : List (String × Value)) {u : Unit}
    (bound : Gives (locals.forM fun (name, v) => Walk.bindVariable 0 name v) s u s') :
    s'.2.report = s.2.report := by
  induction locals generalizing s with
  | nil => exact (gives_pure_iff.1 bound).2 ▸ rfl
  | cons p rest ih =>
    obtain ⟨_, s₁, first, others⟩ := gives_bind_iff.1 bound
    exact (ih others).trans (congrArg (Memory.report ∘ Prod.snd) first).symm

/-- Variables that are bound on a fresh root are no reason to report anything. -/
theorem openRoot_stands {locals : List (String × Value)} {m : Memory}
    (opened : Gives (openRoot scope locals) (.empty, m) () s) : s.Stands scope m.report 0 := by
  obtain ⟨f, hf, arena⟩ := openRoot_bound opened
  refine ⟨⟨f (.fresh (.root scope) []), ?_, hf.parent _, fun i _ => ?_⟩, ?_⟩
  · rw [arena, Arena.branch?_modify, if_pos rfl]
    rfl
  · rw [Branch.visits, hf.visited]
    rfl
  · obtain ⟨_, s₁, planted, bound⟩ := gives_bind_iff.1 opened
    obtain rfl := gives_modify_iff.1 planted
    exact report_bindAll locals bound

/-- Code that folds to a literal and returns it comes to that literal and reports nothing. -/
theorem Folds.resolve {locals : List (String × Value)} {m : Memory} {span : Span} {code : Code}
    {steps : List Step} (folds : Folds steps slot l)
    (whole : code.steps = steps ++ [⟨.ret (some slot), span⟩]) :
    ((Analysis.resolve invoke ctx code scope locals).run m).1.Gives l ∧
      ((Analysis.resolve invoke ctx code scope locals).run m).2.report = m.report := by
  obtain ⟨s, ends, s', opened, walks, run⟩ := resolve_walks invoke ctx code scope locals m
  rw [whole] at walks
  let last : Step := ⟨.ret (some slot), span⟩
  obtain ⟨s₁, stands, ⟨v, sees, is⟩, before⟩ := folds.walks invoke ctx
    (fun _ _ _ _ => trivial) (openRoot_stands opened) [last]
  have here : (steps ++ [last]).toArray[steps.length]? = some last := by simp
  obtain ⟨s₂, ended, report, returned⟩ :=
    stands.returns (fun _ _ _ _ => trivial) sees is here
  obtain ⟨rfl, rfl⟩ := walks.unique (before _ _ ended)
  rw [run]
  exact ⟨⟨rfl, returned⟩, report⟩

/-- A variable that is not bound is none. -/
theorem openRoot_unbound {locals : List (String × Value)} {m : Memory} {name : String}
    (hidden : ∀ p ∈ locals, p.1 ≠ name)
    (opened : Gives (openRoot scope locals) (.empty, m) () s) :
    s.1.lookupVariable 0 name = none := by
  obtain ⟨_, s₁, planted, bound⟩ := gives_bind_iff.1 opened
  obtain rfl := gives_modify_iff.1 planted
  have root : RootWith [] (Arena.empty.root scope) := ⟨_, scope, rfl, rfl, rfl⟩
  obtain ⟨all, root', same⟩ := root.bindOthers hidden bound
  rw [root'.lookupVariable, same]
  rfl

/-- A name that is not that of a variable is looked up in the table. -/
theorem Walk.State.Stands.load (stands : s.Stands scope report n) (span : Span) {name : String}
    {w : Value} (unbound : s.1.lookupVariable 0 name = none)
    (named : ∀ self?, ctx.symbols.named scope.owner self? name = .ok w) :
    Gives (Walk.load ctx 0 span name) (s.visit 0 n) w (s.visit 0 n) := by
  obtain ⟨b, found, parent, -⟩ := stands.root
  have alone : s.1.lineage 0 = [b] := by
    rw [Arena.lineage, show s.1.branches[0]? = some b from found]
    simp only [parent]
  have lineage : (s.visit 0 n).1.lineage 0 = [b.visit n] :=
    Arena.lineage_modify (by rfl) found alone
  have unbound : (s.visit 0 n).1.lookupVariable 0 name = none := by
    rw [Arena.lookupVariable_eq alone] at unbound
    rw [Arena.lookupVariable_eq lineage]
    exact unbound
  have inside : (s.visit 0 n).1.scope 0 = scope := by
    rw [Arena.scope, lineage]
    simp only [List.filterMap_cons, show (b.visit n).parent = .root scope from parent]
    rfl
  refine gives_bind (gives_get_iff.2 ⟨rfl, rfl⟩) ?_
  rw [unbound]
  dsimp only
  rw [inside, named]
  exact gives_lift_iff.2 ⟨rfl, rfl⟩

/-- Where a name stands for a literal when the code starts, reading it gives that literal. -/
theorem resolve_load {locals : List (String × Value)} {m : Memory} {span span' : Span}
    {name : String} {code : Code} (hidden : ∀ p ∈ locals, p.1 ≠ name)
    (named : ∀ self?, ctx.symbols.named scope.owner self? name = .ok (.ofLiteral l))
    (whole : code.steps = [⟨.load slot name, span⟩, ⟨.ret (some slot), span'⟩]) :
    ((Analysis.resolve invoke ctx code scope locals).run m).1.Gives l ∧
      ((Analysis.resolve invoke ctx code scope locals).run m).2.report = m.report := by
  obtain ⟨s, ends, s', opened, walks, run⟩ := resolve_walks invoke ctx code scope locals m
  rw [whole] at walks
  have stands := openRoot_stands opened
  have read := stands.load span (openRoot_unbound hidden opened) named
  obtain ⟨stands', sees⟩ := stands.bound slot (.ofLiteral l)
  have executed : Gives (execute invoke ctx 0 0 ⟨.load slot name, span⟩) (State.visit s 0 0)
      (.next 1) (State.bound (State.visit s 0 0) slot (.ofLiteral l)) :=
    gives_bind read (gives_bind (gives_bindSlot _ _ _) (gives_pure_iff.2 ⟨rfl, rfl⟩))
  have here : [⟨.load slot name, span⟩, (⟨.ret (some slot), span'⟩ : Step)].toArray[0 + 1]? =
      some ⟨.ret (some slot), span'⟩ := rfl
  obtain ⟨s₂, last, report, returned⟩ := stands'.returns (fun _ _ _ _ => trivial) sees
    ((Value.Is.ofLiteral l).place _) here
  obtain ⟨rfl, rfl⟩ :=
    walks.unique (.onward trivial (stands.step rfl executed) rfl last)
  rw [run]
  exact ⟨⟨rfl, returned⟩, report⟩

end Run

/-! ## What is filed of a constant -/

/-- The first member of a name is a constant with a value: then the name stands for that value,
unless a member of the class goes by it. -/
theorem SymbolTable.named_of_constant {t : SymbolTable} {name : String} {id : Nat} {l : Literal}
    (first : t.getMember? name = some (.global id)) (constant : (t.global id).constant = true)
    (value : (t.global id).value = some l) {owner : Option Nat}
    (own : ∀ o, owner = some o → t.classMembers o name = []) (self? : Option Value) :
    t.named owner self? name = .ok (.ofLiteral l) := by
  have unowned : (owner.bind fun id => t.ofMembers? self? (t.classMembers id name)) = none := by
    cases owner with
    | none => rfl
    | some o => rw [Option.bind_some, own o rfl]; rfl
  have outer : t.ofMembers? none (t.getMembers name) = some (.ofLiteral l) := by
    have leads : (t.getMembers name).head? = some (.global id) := by
      rw [getMembers, List.head?_map, List.head?_filter]
      exact first
    obtain ⟨rest, members⟩ := List.head?_eq_some_iff.1 leads
    rw [members, ofMembers?, memberValue, constant, value]
  rw [named, unowned, outer]
  rfl

namespace Filing

variable {items : List Item} {s : Filing}

/-- What is filed of a global comes from a declaration among the items, of the name under which it
is found. -/
def KnowsGlobals (items : List Item) (t : SymbolTable) : Prop :=
  ∀ name id, (name, .global id) ∈ t.members → ∃ g, .global g ∈ items ∧ g.name = name ∧
    ∃ info, t.globals[id]? = some info ∧ info.constant = g.constant ∧ info.span = g.span ∧
      info.value = if g.constant then g.value.literal? else none

theorem KnowsGlobals.addMember {t : SymbolTable} (h : KnowsGlobals items t) (name : String)
    {m : Member} (other : m.globalId? = none) :
    KnowsGlobals items { t with members := t.members ++ [(name, m)] } := by
  intro name' id hid
  rcases List.mem_append.1 hid with old | new
  · exact h name' id old
  · cases List.mem_singleton.1 new
    cases other

theorem KnowsGlobals.addItem (h : KnowsGlobals items s.table) {i : Item} (hi : i ∈ items) :
    KnowsGlobals items (s.addItem i).table := by
  cases i with
  | function f =>
    simp only [Filing.addItem, addFunction]
    split
    · exact h
    · exact h
    · exact h.addMember f.name (m := .method s.table.methods.length) rfl
  | class_ c =>
    simp only [Filing.addItem, addClass]
    split
    · exact h
    · next id _ =>
      split
      · refine foldl_keeps (Q := fun s => KnowsGlobals items s.table) (fun s f _ h => h) ?_
        refine foldl_keeps (Q := fun s => KnowsGlobals items s.table) (fun s f _ h => ?_) ?_
        · unfold addField
          split <;> exact h
        · exact h.addMember c.name (m := .class_ id) rfl
      · exact h
  | global g =>
    simp only [Filing.addItem, addGlobal]
    split
    · exact h
    · intro name id hid
      rcases List.mem_append.1 hid with old | new
      · obtain ⟨g', mem, same, info, found, rest⟩ := h name id old
        have inside := (List.getElem?_eq_some_iff.1 found).1
        exact ⟨g', mem, same, info, (List.getElem?_append_left inside).trans found, rest⟩
      · cases List.mem_singleton.1 new
        exact ⟨g, hi, rfl, _, List.getElem?_concat_length, rfl, rfl, rfl⟩

theorem knowsGlobals_ofModule (m : Module) : KnowsGlobals m.items (ofModule m).table := by
  refine foldl_keeps (Q := fun s => KnowsGlobals m.items s.table)
    (fun s i hi h => h.addItem hi) ?_
  refine foldl_keeps (Q := fun s => KnowsGlobals m.items s.table) (fun s i _ h => ?_) nofun
  cases i with
  | class_ c =>
    simp only [nameItem, nameClass]
    split <;> exact h
  | _ => exact h

end Filing

/-- A name that stands first of all for a constant. -/
def SymbolTable.IsConstant (t : SymbolTable) (name : String) (id : Nat) : Prop :=
  t.getMember? name = some (.global id) ∧ (t.global id).constant = true

/-- A constant has the value of its declaration, as far as that is a literal. -/
theorem SymbolTable.IsConstant.declared {m : Module} {name : String} {id : Nat}
    (h : (SymbolTable.ofModule m).1.IsConstant name id) :
    ∃ g, .global g ∈ m.items ∧ g.name = name ∧ g.constant = true ∧
      ((SymbolTable.ofModule m).1.global id).span = g.span ∧
      ((SymbolTable.ofModule m).1.global id).value = g.value.literal? := by
  obtain ⟨first, constant⟩ := h
  obtain ⟨⟨name', member⟩, here, rfl⟩ := Option.map_eq_some_iff.1 first
  obtain rfl : name' = name := by simpa using List.find?_some here
  obtain ⟨g, hg, named, info, found, same, span, value⟩ :=
    Filing.knowsGlobals_ofModule m name' id (List.mem_of_find?_eq_some here)
  have is : (SymbolTable.ofModule m).1.global id = info := by
    rw [SymbolTable.global, show (SymbolTable.ofModule m).1.globals[id]? = some info from found]
    rfl
  rw [is] at constant ⊢
  have fixed : g.constant = true := same.symm.trans constant
  rw [if_pos fixed] at value
  exact ⟨g, hg, named, fixed, span, value⟩

/-! ## What is filed of a default -/

/-- The default of a parameter that is a literal is filed as that literal. -/
theorem Filing.default_of_decl {m : Module} {x : Method} {i : Nat} {q : Parameter} {e : Expr}
    {l : Literal} (filed : x ∈ (SymbolTable.ofModule m).1.methods)
    (param : x.decl.parameters[i]? = some q) (given : q.default = some e)
    (folded : e.literal? = some l) :
    ∃ p, x.params[i]? = some p ∧ p.default = some (.literal l) := by
  obtain ⟨t, owner, ⟨_, f⟩, -, rfl⟩ := (files_ofModule m).methods x filed
  refine ⟨t.paramOf q, ?_, ?_⟩
  · rw [SymbolTable.methodOf, List.getElem?_map, show f.parameters[i]? = some q from param]
    rfl
  · rw [SymbolTable.paramOf, given, Option.map_some, folded]

/-- A literal that is given for a parameter binds it as the same literal does that is its
default. -/
theorem Param.bound_default {p : Param} {l : Literal} {v : Value}
    (default : p.default = some (.literal l)) (is : v.Is l) :
    p.bound (some v) = p.bound none := by
  simp only [Param.bound, default, is.type, is.copy_eq]

/-- A last argument that binds its parameter as no argument does changes nothing. -/
theorem boundParams_append {params : List Param} {arguments : List Value} {v : Value}
    (same : ∀ p, params[arguments.length]? = some p → p.bound (some v) = p.bound none) :
    boundParams params (arguments ++ [v]) = boundParams params arguments := by
  refine List.map_congr_left fun ⟨p, i⟩ hp => ?_
  have here : params[i]? = some p := List.mem_zipIdx_iff_getElem?.1 hp
  refine congrArg (p.name, ·) ?_
  rcases Nat.lt_trichotomy i arguments.length with before | rfl | behind
  · rw [List.getElem?_append_left before]
  · rw [List.getElem?_concat_length, List.getElem?_eq_none le_rfl, same p here]
  · rw [List.getElem?_eq_none behind.le, List.getElem?_eq_none (by simp; omega)]

/-! ## Both computations -/

/-- What the expression comes to in a scope: its code has one path, which returns the literal, and
nothing is reported. -/
def Expr.Yields (e : Expr) (l : Literal) (ctx : Context) (scope : Scope) : Prop :=
  ∃ code, e.toCode = .ok code ∧ ∀ m : Memory,
    ((Analysis.resolveCode ctx code scope).run m).1.Gives l ∧
      ((Analysis.resolveCode ctx code scope).run m).2.report = m.report

/-- An expression that is a literal comes to it wherever it stands. -/
theorem Expr.yields_literal {e : Expr} {l : Literal} (folded : e.literal? = some l)
    (ctx : Context) (scope : Scope) : e.Yields l ctx scope := by
  obtain ⟨x, lowers, folds⟩ := lower_folds folded 0
  let code := x.code.emit (.ret (some x.value)) e.span
  refine ⟨⟨code.steps, code.records⟩, ?_, fun m => ?_⟩
  · rw [toCode, lowers]
    rfl
  · rw [Analysis.resolveCode, Analysis.run_bind_of_eq (x := get) rfl]
    exact folds.resolve rfl

/-- The name of a constant, where nothing else goes by it, comes to its value. -/
theorem Expr.yields_constant {ctx : Context} {scope : Scope} {name : String} {id : Nat}
    {l : Literal} (span : Span) (constant : ctx.symbols.IsConstant name id)
    (value : (ctx.symbols.global id).value = some l)
    (hidden : ∀ p ∈ ctx.symbols.scopeVariables scope, p.1 ≠ name)
    (own : ∀ o, scope.owner = some o → ctx.symbols.classMembers o name = []) :
    (Expr.name span name).Yields l ctx scope := by
  refine ⟨_, rfl, fun m => ?_⟩
  rw [Analysis.resolveCode, Analysis.run_bind_of_eq (x := get) rfl]
  exact resolve_load hidden (fun self? =>
    SymbolTable.named_of_constant constant.1 constant.2 value own self?) rfl

/-- What a literal comes to where it is filed is what it comes to in its place.  A parameter without
an argument is bound as if its default had been evaluated and given, and to read a constant is to
evaluate what it is declared to be. -/
theorem literals_agree {e : Expr} {l : Literal} (folded : e.literal? = some l) :
    (∀ ctx scope, e.Yields l ctx scope) ∧
      (∀ m, ∀ x ∈ (SymbolTable.ofModule m).1.methods, ∀ q (arguments : List Value),
        x.decl.parameters[arguments.length]? = some q → q.default = some e →
        ∀ (t : SymbolTable) receiver (v : Value), v.Is l →
          t.entryVariables x receiver (arguments ++ [v]) =
            t.entryVariables x receiver arguments) ∧
      ∀ m name id, (SymbolTable.ofModule m).1.IsConstant name id →
        ∃ g, .global g ∈ m.items ∧ g.name = name ∧ g.constant = true ∧
          ((SymbolTable.ofModule m).1.global id).span = g.span ∧
          (g.value = e → ∀ (ctx : Context) (scope : Scope) (span : Span),
            ctx.symbols = (SymbolTable.ofModule m).1 →
            (∀ p ∈ ctx.symbols.scopeVariables scope, p.1 ≠ name) →
            (∀ o, scope.owner = some o → ctx.symbols.classMembers o name = []) →
            (Expr.name span name).Yields l ctx scope) := by
  refine ⟨Expr.yields_literal folded, ?_, ?_⟩
  · intro m x filed q arguments param given t receiver v is
    obtain ⟨p, here, default⟩ := Filing.default_of_decl filed param given folded
    have same : boundParams x.params (arguments ++ [v]) = boundParams x.params arguments := by
      refine boundParams_append fun p' here' => ?_
      obtain rfl := Option.some.inj (here.symm.trans here')
      exact Param.bound_default default is
    rw [SymbolTable.entryVariables, SymbolTable.entryVariables, same]
  · intro m name id constant
    obtain ⟨g, hg, named, fixed, span, value⟩ := constant.declared
    refine ⟨g, hg, named, fixed, span, fun is ctx scope place table hidden own => ?_⟩
    rw [is, folded, ← table] at value
    exact Expr.yields_constant place (table ▸ constant) value hidden own

/-- A number behind two minus signs and in parentheses. -/
def negatedTwice : Expr :=
  .unary default .negative
    (.group default (.unary default .negative (.literal default (.number 3))))

/-- A constant that is such a number, and a function with such a default behind another
parameter. -/
def limitModule : Module :=
  ⟨[.global ⟨true, "LIMIT", default, none, negatedTwice⟩,
    .function ⟨"f", default, [⟨"a", default, none, none, false⟩,
      ⟨"x", default, none, some negatedTwice, false⟩], none, [], default⟩]⟩

theorem literals_agree_negatedTwice :
    negatedTwice.literal? = some (.number (-(-3))) ∧
      negatedTwice.Yields (.number (-(-3))) (.outer .empty .standard) ⟨none, none⟩ ∧
      (∃ f ∈ (SymbolTable.ofModule limitModule).1.methods,
        SymbolTable.empty.entryVariables f none [.any, .ofLiteral (.number (-(-3)))] =
          SymbolTable.empty.entryVariables f none [.any]) ∧
      (Expr.name default "LIMIT").Yields (.number (-(-3)))
        (.outer (SymbolTable.ofModule limitModule).1 .standard) ⟨none, none⟩ := by
  have folded : negatedTwice.literal? = some (.number (-(-3))) := rfl
  obtain ⟨evaluated, defaults, constants⟩ := literals_agree folded
  refine ⟨folded, evaluated _ _, ⟨_, List.mem_singleton_self _, ?_⟩, ?_⟩
  · exact defaults limitModule _ (List.mem_singleton_self _) _ [.any] rfl rfl .empty none _
      (.ofLiteral _)
  · obtain ⟨g, hg, -, -, -, reads⟩ := constants limitModule "LIMIT" 0 ⟨by decide +kernel, rfl⟩
    have is : g.value = negatedTwice := by
      rcases List.mem_cons.1 hg with here | there
      · exact congrArg GlobalDecl.value (Item.global.inj here)
      · cases List.mem_singleton.1 there
    exact reads is _ _ _ rfl nofun nofun

end PathTyping
