import PathTyping.Proofs.Identities

/-!
# What each instruction is for

The code of a tree is laid out by the tree alone: `roles` lists for each instruction the expression
that it computes and the expressions whose values it takes, each with the index of the instruction
that computes it.  An instruction takes its values over a stretch of code that no jump leaves or
enters, so on whatever way control comes to it, it has just passed through the whole stretch.

1. The code of an expression keeps to its roles and has no jumps (`Expr.lower_laid`).
2. The jumps of a statement go to where such stretches begin or end (`Stmt.lower_arranged`).
3. Each slot is written by one instruction (`Stmt.lowerBlock_results`), so the roles tell where the
   value of an operand comes from (`Stmt.lowerBlock_accounts`).
4. A control path to an instruction comes straight from those that compute its operands
   (`IsPath.straight`, `Accounts.definesOperands`).
-/

namespace PathTyping

/-! ## Control paths -/

namespace Instr

/-- The slots that the instruction reads. -/
def operands : Instr → List Slot
  | unary _ _ x => [x]
  | binary _ x _ y => [x, y]
  | gotoIf _ c _ => [c]
  | call _ f args => f :: args
  | member _ t _ => [t]
  | index _ t k => [t, k]
  | store _ v => [v]
  | ret (some v) => [v]
  | const _ _ | load _ _ | goto _ | ret none => []

/-- Where control may go from the instruction at `index`. -/
def successors (index : Nat) : Instr → List Nat
  | goto t => [t]
  | gotoIf t _ _ => [index + 1, t]
  | ret _ => []
  | _ => [index + 1]

theorem target?_of_result? {i : Instr} {slot : Slot} (h : i.result? = some slot) :
    i.target? = none := by
  cases i <;> first | rfl | cases h

/-- Control goes to the next instruction or to the target of a jump. -/
theorem mem_successors {i : Instr} {index next : Nat} (h : next ∈ i.successors index) :
    next = index + 1 ∨ i.target? = some next := by
  cases i with
  | goto t => exact .inr (congrArg some (List.mem_singleton.1 h).symm)
  | gotoIf t c b => exact (List.mem_pair.1 h).imp id fun same => congrArg some same.symm
  | ret v => cases h
  | _ => exact .inl (List.mem_singleton.1 h)

end Instr

/-- Control may go from the instruction at `i` to index `j`. -/
def LeadsTo (steps : List Step) (i j : Nat) : Prop :=
  ∃ step, steps[i]? = some step ∧ j ∈ step.instr.successors i

/-- Control may go through the indices, one behind the other, from the first instruction on. -/
structure IsPath (steps : List Step) (path : List Nat) : Prop where
  starts : path[0]? = some 0
  goes : path.IsChain (LeadsTo steps)

instance (steps : List Step) : DecidableRel (LeadsTo steps) := fun i j =>
  decidable_of_iff (∃ step ∈ steps[i]?, j ∈ step.instr.successors i) Iff.rfl

instance (steps : List Step) (path : List Nat) : Decidable (IsPath steps path) :=
  decidable_of_iff (path[0]? = some 0 ∧ path.IsChain (LeadsTo steps))
    ⟨fun h => ⟨h.1, h.2⟩, fun h => ⟨h.starts, h.goes⟩⟩

/-- Where no jump leads between `i` and `i + d`, control has come straight from the one to the
other. -/
theorem IsPath.straight {steps : List Step} {path : List Nat} (h : IsPath steps path) {i : Nat}
    (d : Nat) (undisturbed : ∀ (k : Nat) (step : Step) (t : Nat), steps[k]? = some step →
      step.instr.target? = some t → ¬ (i < t ∧ t ≤ i + d)) :
    ∀ n, path[n]? = some (i + d) →
      ∃ before, path.take (n + 1) = before ++ List.range' i (d + 1) := by
  induction d with
  | zero =>
    intro n at_
    exact ⟨path.take n, by rw [List.take_add_one, at_]; rfl⟩
  | succ d ih =>
    intro n at_
    cases n with
    | zero => cases h.starts.symm.trans at_
    | succ n =>
      obtain ⟨inside, same⟩ := List.getElem?_eq_some_iff.1 at_
      obtain ⟨step, found, next⟩ := List.isChain_iff_getElem.1 h.goes n inside
      rw [same] at next
      have before : n < path.length := Nat.lt_of_succ_lt inside
      have last : path[n] = i + d := by
        rcases Instr.mem_successors next with next | target
        · exact (Nat.succ.inj next).symm
        · exact absurd ⟨Nat.lt_add_of_pos_right (Nat.succ_pos d), Nat.le_refl _⟩
            (undisturbed _ _ _ found target)
      obtain ⟨before, taken⟩ := ih (fun k step t found target between =>
        undisturbed k step t found target ⟨between.1, Nat.le_succ_of_le between.2⟩) n
          (List.getElem?_eq_some_iff.2 ⟨_, last⟩)
      refine ⟨before, ?_⟩
      rw [List.take_add_one, taken, at_, List.append_assoc, List.range'_1_concat (n := d + 1)]
      rfl

/-! ## Roles -/

/-- What an instruction is for: the expression that it computes, if it computes one, and the
expressions whose values it takes, with the indices of the instructions that compute them. -/
structure Role where
  computes : Option Expr
  operands : List (Expr × Nat)

/-- The role of an instruction that only jumps. -/
def Role.jump : Role := ⟨none, []⟩

namespace Expr

/-- The expressions whose values the value of an expression is made of.  A target of an assignment
is not evaluated. -/
def operands : Expr → List Expr
  | literal _ _ | name _ _ | self _ => []
  | unary _ _ e | member _ e _ _ | assign _ _ e | group _ e => [e]
  | binary _ _ l r | index _ l r => [l, r]
  | call _ f args => f :: args

/-- The instruction that computes an expression from the slots of its operands. -/
def instr? (result : Slot) : Expr → List Slot → Option Instr
  | literal _ v, [] => some (.const result v)
  | name _ n, [] => some (.load result n)
  | self _, [] => some (.load result "self")
  | unary _ op _, [x] => some (.unary result op x)
  | binary _ op _ _, [x, y] => some (.binary result x op y)
  | call _ _ _, f :: args => some (.call result f args)
  | member _ _ n _, [x] => some (.member result x n)
  | index _ _ _, [x, k] => some (.index result x k)
  | _, _ => none

/-- The value is computed by an instruction of the expression's own.  An assignment and a group
have the value of what they contain. -/
def isComputed : Expr → Bool
  | assign _ _ _ | group _ _ => false
  | _ => true

/-- The expression whose instruction computes the value. -/
def source : Expr → Expr
  | assign _ _ v => source v
  | group _ e => source e
  | e => e

mutual

/-- The number of instructions that an expression comes to. -/
def extent : Expr → Nat
  | literal _ _ | name _ _ | self _ => 1
  | unary _ _ e | member _ e _ _ | assign _ _ e => extent e + 1
  | binary _ _ l r | index _ l r => extent l + extent r + 1
  | call _ f args => extent f + extentList args + 1
  | group _ e => extent e

def extentList : List Expr → Nat
  | [] => 0
  | e :: rest => extent e + extentList rest

end

/-- The index of the instruction that computes the value of an expression whose code begins at
`base`. -/
def valueAt (base : Nat) : Expr → Nat
  | assign _ _ v => valueAt base v
  | group _ e => valueAt base e
  | e => base + extentList e.operands

/-- The same for several expressions, the code of which begins at `base`. -/
def valuesAt (base : Nat) : List Expr → List (Expr × Nat)
  | [] => []
  | e :: rest => (e, e.valueAt base) :: valuesAt (base + e.extent) rest

mutual

/-- The roles of the instructions of an expression whose code begins at `base`. -/
def roles (base : Nat) : Expr → List Role
  | literal s v => [⟨some (literal s v), []⟩]
  | name s n => [⟨some (name s n), []⟩]
  | self s => [⟨some (self s), []⟩]
  | unary s op e => roles base e ++ [⟨some (unary s op e), valuesAt base [e]⟩]
  | binary s op l r =>
    roles base l ++ roles (base + l.extent) r ++ [⟨some (binary s op l r), valuesAt base [l, r]⟩]
  | assign _ _ v => roles base v ++ [⟨none, valuesAt base [v]⟩]
  | call s f args =>
    roles base f ++ rolesList (base + f.extent) args ++
      [⟨some (call s f args), valuesAt base (f :: args)⟩]
  | member s o n ns => roles base o ++ [⟨some (member s o n ns), valuesAt base [o]⟩]
  | index s o i =>
    roles base o ++ roles (base + o.extent) i ++ [⟨some (index s o i), valuesAt base [o, i]⟩]
  | group _ e => roles base e

def rolesList (base : Nat) : List Expr → List Role
  | [] => []
  | e :: rest => roles base e ++ rolesList (base + e.extent) rest

end

/-- The roles of the instructions of an expression whose code begins at `base`, and of one behind
it that takes the value. -/
def takenRoles (base : Nat) (e : Expr) : List Role :=
  e.roles base ++ [⟨none, valuesAt base [e]⟩]

theorem of_instr? {e : Expr} {result : Slot} {values : List Slot} {i : Instr}
    (h : e.instr? result values = some i) : i.operands = values ∧ i.result? = some result := by
  unfold instr? at h
  split at h <;> cases h <;> exact ⟨rfl, rfl⟩

theorem map_fst_valuesAt (base : Nat) (es : List Expr) : (valuesAt base es).map Prod.fst = es := by
  induction es generalizing base with
  | nil => rfl
  | cons e rest ih => rw [valuesAt, List.map_cons, ih]

section Computed

variable {e : Expr} (own : e.isComputed = true)

include own

theorem source_of_computed : e.source = e := by
  cases e with
  | assign _ _ _ | group _ _ => cases own
  | _ => rfl

theorem valueAt_of_computed (base : Nat) : e.valueAt base = base + extentList e.operands := by
  cases e with
  | assign _ _ _ | group _ _ => cases own
  | _ => rfl

theorem extent_of_computed : e.extent = extentList e.operands + 1 := by
  cases e with
  | assign _ _ _ | group _ _ => cases own
  | _ => simp [extent, operands, extentList]

theorem slots_of_computed : e.slots = slotsList e.operands + 1 := by
  cases e with
  | assign _ _ _ | group _ _ => cases own
  | _ => simp [slots, operands, slotsList]

theorem roles_of_computed (base : Nat) :
    e.roles base = rolesList base e.operands ++ [⟨some e, valuesAt base e.operands⟩] := by
  cases e with
  | assign _ _ _ | group _ _ => cases own
  | _ => simp [roles, operands, rolesList, valuesAt]

end Computed

theorem sizeOf_lt_of_mem_operands {e o : Expr} (h : o ∈ e.operands) : sizeOf o < sizeOf e := by
  refine sizeOf_lt_of_mem_parts (e := e) ?_
  cases e <;> simp_all [operands, parts]

/-- What holds of an expression if it holds of its operands, holds of every expression. -/
theorem operands_induction {P : Expr → Prop} (step : ∀ e, (∀ o ∈ operands e, P o) → P e)
    (e : Expr) : P e :=
  step e fun o _ => operands_induction step o
termination_by sizeOf e
decreasing_by exact sizeOf_lt_of_mem_operands ‹_›

end Expr

namespace Stmt

mutual

/-- The roles of the instructions of a statement whose code begins at `base`.  A return without a
value takes nil. -/
def roles (base : Nat) : Stmt → List Role
  | var _ _ e => e.takenRoles base
  | cond _ c a b =>
    let inner := base + c.extent + 1
    match b with
    | none => c.takenRoles base ++ blockRoles inner a
    | some b =>
      let consequent := blockRoles inner a ++ [.jump]
      c.takenRoles base ++ consequent ++ blockRoles (inner + consequent.length) b
  | loop _ c b => c.takenRoles base ++ blockRoles (base + c.extent + 1) b ++ [.jump]
  | ret _ (some e) => e.takenRoles base
  | ret s none => (Expr.literal s .nil).takenRoles base
  | expr e => e.roles base
termination_by structural s => s

def blockRoles (base : Nat) : List Stmt → List Role
  | [] => []
  | s :: rest =>
    let first := roles base s
    first ++ blockRoles (base + first.length) rest
termination_by structural b => b

end

end Stmt

/-! ## Lowered expressions -/

namespace Expr

/-- How an expression is lowered where `used` slots are taken. -/
inductive Lowers (used : Nat) : Expr → ExprCode → Prop
  | compute {e : Expr} {f : Fragment} {values : List Slot} {instr : Slot → Instr}
      (own : e.isComputed = true) (lowered : lowerList used e.operands = .ok (f, values))
      (does : ∀ slot, e.instr? slot values = some (instr slot)) :
      Lowers used e (.compute f instr e.span)
  | assign {s ts : Span} {n : String} {v : Expr} {x : ExprCode} (lowered : v.lower used = .ok x) :
      Lowers used (assign s (name ts n) v)
        ⟨(x.code.emit (.store n x.value) s).record s x.value, x.value⟩
  | group {s : Span} {e : Expr} {x : ExprCode} (lowered : e.lower used = .ok x) :
      Lowers used (group s e) ⟨x.code.record s x.value, x.value⟩

theorem lowerList_cons {used : Nat} {e : Expr} {x : ExprCode} {es : List Expr}
    {lowered : Fragment × List Slot} (h : e.lower used = .ok x)
    (hs : lowerList x.code.used es = .ok lowered) :
    lowerList used (e :: es) = .ok (x.code.append lowered.1, x.value :: lowered.2) := by
  rw [lowerList, h]
  exact congrArg (Except.map fun g => (x.code.append g.1, x.value :: g.2)) hs

theorem lowerList_one {used : Nat} {e : Expr} {x : ExprCode} (h : e.lower used = .ok x) :
    lowerList used [e] = .ok (x.code, [x.value]) :=
  (lowerList_cons h rfl).trans
    (congrArg (fun f => Except.ok (f, [x.value])) x.code.append_start)

theorem lowerList_two {used : Nat} {e e' : Expr} {x x' : ExprCode} (h : e.lower used = .ok x)
    (h' : e'.lower x.code.used = .ok x') :
    lowerList used [e, e'] = .ok (x.code.append x'.code, [x.value, x'.value]) :=
  lowerList_cons h (lowerList_one h')

theorem lowers_of_lower {used : Nat} {e : Expr} {x : ExprCode} (h : e.lower used = .ok x) :
    Lowers used e x := by
  cases e with
  | literal s v => cases h; exact .compute rfl rfl fun _ => rfl
  | name s n => cases h; exact .compute rfl rfl fun _ => rfl
  | self s => cases h; exact .compute rfl rfl fun _ => rfl
  | unary s op e =>
    obtain ⟨y, hy, h⟩ := bind_eq_ok h
    cases h
    exact .compute rfl (lowerList_one hy) fun _ => rfl
  | binary s op l r =>
    obtain ⟨y, hy, h⟩ := bind_eq_ok h
    obtain ⟨z, hz, h⟩ := bind_eq_ok h
    cases h
    exact .compute rfl (lowerList_two hy hz) fun _ => rfl
  | assign s t v =>
    obtain ⟨_, _, y, rfl, hy, rfl⟩ := lower_assign_eq_ok h
    exact .assign hy
  | call s f args =>
    obtain ⟨y, hy, h⟩ := bind_eq_ok h
    obtain ⟨⟨g, values⟩, hz, h⟩ := bind_eq_ok h
    cases h
    exact @Lowers.compute _ (call s f args) _ _ _ rfl (lowerList_cons hy hz) fun _ => rfl
  | member s o n ns =>
    obtain ⟨y, hy, h⟩ := bind_eq_ok h
    cases h
    exact .compute rfl (lowerList_one hy) fun _ => rfl
  | index s o i =>
    obtain ⟨y, hy, h⟩ := bind_eq_ok h
    obtain ⟨z, hz, h⟩ := bind_eq_ok h
    cases h
    exact .compute rfl (lowerList_two hy hz) fun _ => rfl
  | group s e =>
    obtain ⟨y, hy, h⟩ := bind_eq_ok h
    cases h
    exact .group hy

theorem lowerList_cons_eq_ok {used : Nat} {e : Expr} {es : List Expr} {r : Fragment × List Slot}
    (h : lowerList used (e :: es) = .ok r) : ∃ x f values, e.lower used = .ok x ∧
      lowerList x.code.used es = .ok (f, values) ∧ r = (x.code.append f, x.value :: values) := by
  obtain ⟨x, hx, h⟩ := bind_eq_ok h
  obtain ⟨⟨f, values⟩, hf, h⟩ := bind_eq_ok h
  cases h
  exact ⟨x, f, values, hx, hf, rfl⟩

/-! ### How long the code is -/

theorem lowerList_extent {es : List Expr}
    (each : ∀ e ∈ es, ∀ used x, e.lower used = .ok x → x.code.size = e.extent) :
    ∀ {used : Nat} {r : Fragment × List Slot}, lowerList used es = .ok r →
      r.1.size = extentList es := by
  induction es with
  | nil => intro _ _ h; cases h; rfl
  | cons e es ih =>
    intro used r h
    obtain ⟨x, f, values, hx, hf, rfl⟩ := lowerList_cons_eq_ok h
    obtain ⟨first, others⟩ := List.forall_mem_cons.1 each
    rw [Fragment.size_append, first _ _ hx, ih others hf, extentList]

theorem lower_extent (e : Expr) :
    ∀ (used : Nat) (x : ExprCode), e.lower used = .ok x → x.code.size = e.extent := by
  induction e using operands_induction with
  | step e ih =>
    intro used x h
    cases lowers_of_lower h with
    | compute own lowered _ =>
      rw [extent_of_computed own, ← lowerList_extent ih lowered]
      exact Fragment.size_emitResult _ _ _
    | @assign s ts n v y lowered =>
      rw [extent, ← ih v List.mem_cons_self _ _ lowered]
      exact Fragment.size_emit _ _ _
    | @group s v y lowered => exact ih v List.mem_cons_self used y lowered

mutual

theorem length_roles (base : Nat) (e : Expr) : (e.roles base).length = e.extent := by
  cases e <;> simp [roles, extent, length_roles, length_rolesList, Nat.add_assoc]

theorem length_rolesList (base : Nat) (es : List Expr) :
    (rolesList base es).length = extentList es := by
  cases es <;> simp [rolesList, extentList, length_roles, length_rolesList]

end

theorem length_emit {e : Expr} {used : Nat} {x : ExprCode} (h : e.lower used = .ok x)
    (instr : Instr) (span : Span) :
    (x.code.emit instr span).steps.length = e.extent + 1 :=
  (x.code.size_emit instr span).trans (congrArg (· + 1) (e.lower_extent _ _ h))

theorem length_takenRoles (base : Nat) (e : Expr) :
    (e.takenRoles base).length = e.extent + 1 := by
  rw [takenRoles, List.length_append, length_roles, List.length_singleton]

end Expr

/-! ## Stretches of code -/

/-- A stretch of code stands from `base` on, with the roles of its instructions. -/
structure Placed (steps : List Step) (roles : List Role) (seg : List Step) (rs : List Role)
    (base : Nat) : Prop where
  steps : seg <+: steps.drop base
  roles : rs <+: roles.drop base

theorem prefix_drop_right {α : Type} {xs as bs : List α} {base : Nat}
    (h : as ++ bs <+: xs.drop base) : bs <+: xs.drop (base + as.length) := by
  obtain ⟨rest, h⟩ := h
  rw [← List.drop_drop, ← h, List.append_assoc, List.drop_left]
  exact List.prefix_append _ _

theorem getElem?_of_prefix_drop {α : Type} {xs as : List α} {a : α} {base : Nat}
    (h : a :: as <+: xs.drop base) : xs[base]? = some a := by
  obtain ⟨rest, h⟩ := h
  rw [← Nat.add_zero base, ← List.getElem?_drop, ← h]
  rfl

namespace Placed

variable {steps : List Step} {roles : List Role} {seg seg' : List Step} {rs rs' : List Role}
  {base index : Nat}

theorem left (h : Placed steps roles (seg ++ seg') (rs ++ rs') base) :
    Placed steps roles seg rs base :=
  ⟨(List.prefix_append _ _).trans h.steps, (List.prefix_append _ _).trans h.roles⟩

theorem right (h : Placed steps roles (seg ++ seg') (rs ++ rs') base)
    (same : rs.length = seg.length) (behind : base + seg.length = index) :
    Placed steps roles seg' rs' index := by
  subst behind
  exact ⟨prefix_drop_right h.steps, same ▸ prefix_drop_right h.roles⟩

theorem head {step : Step} {role : Role} (h : Placed steps roles (step :: seg) (role :: rs) base) :
    steps[base]? = some step ∧ roles[base]? = some role :=
  ⟨getElem?_of_prefix_drop h.steps, getElem?_of_prefix_drop h.roles⟩

end Placed

section Stretches

variable {steps : List Step} {roles : List Role} {lo mid hi : Nat}

/-- There are instructions from `lo` on up to `hi`, and none of them is a jump. -/
def Straight (steps : List Step) (lo hi : Nat) : Prop :=
  ∀ k, lo ≤ k → k < hi → ∃ step, steps[k]? = some step ∧ step.instr.target? = none

/-- The instruction at `i` computes the value of `e` and writes it into `slot`. -/
structure Computes (steps : List Step) (roles : List Role) (i : Nat) (e : Expr) (slot : Slot) :
    Prop where
  role : ∃ role, roles[i]? = some role ∧ role.computes = some e.source
  result : ∃ step, steps[i]? = some step ∧ step.instr.result? = some slot

/-- The instruction at `p.2` computes `p.1` for the one at `j`, which reads it from `slot`, and is
followed by that one without a jump. -/
structure Feeds (steps : List Step) (roles : List Role) (j : Nat) (slot : Slot) (p : Expr × Nat) :
    Prop where
  before : p.2 < j
  computes : Computes steps roles p.2 p.1 slot
  straight : Straight steps p.2 j

/-- An instruction that computes an expression is the one of that expression, and takes the values
of its operands. -/
def Role.Fits (role : Role) (step : Step) : Prop :=
  ∀ e, role.computes = some e → step.span = e.span ∧ role.operands.map Prod.fst = e.operands ∧
    ∃ slot, e.instr? slot step.instr.operands = some step.instr

/-- The instructions from `lo` on up to `hi` fit their roles, and are fed from there. -/
def Traced (steps : List Step) (roles : List Role) (lo hi : Nat) : Prop :=
  ∀ j, lo ≤ j → j < hi → ∃ step role, steps[j]? = some step ∧ roles[j]? = some role ∧
    role.Fits step ∧ List.Forall₂ (fun slot p => lo ≤ p.2 ∧ Feeds steps roles j slot p)
      step.instr.operands role.operands

theorem Computes.of_source {i : Nat} {e e' : Expr} {slot : Slot}
    (h : Computes steps roles i e slot) (same : e'.source = e.source) :
    Computes steps roles i e' slot := ⟨same ▸ h.role, h.result⟩

theorem Straight.within (h : Straight steps lo hi) {lo' hi' : Nat} (left : lo ≤ lo')
    (right : hi' ≤ hi) : Straight steps lo' hi' := fun k hk hk' =>
  h k (Nat.le_trans left hk) (Nat.lt_of_lt_of_le hk' right)

theorem Straight.append (h : Straight steps lo mid) (h' : Straight steps mid hi) :
    Straight steps lo hi := fun k hk hk' =>
  (Nat.lt_or_ge k mid).elim (h k hk) fun behind => h' k behind hk'

theorem Straight.one {step : Step} (found : steps[lo]? = some step)
    (stays : step.instr.target? = none) : Straight steps lo (lo + 1) := fun k hk hk' => by
  obtain rfl : k = lo := Nat.le_antisymm (Nat.le_of_lt_succ hk') hk
  exact ⟨step, found, stays⟩

theorem straight_refl (steps : List Step) (lo : Nat) : Straight steps lo lo :=
  fun _ hk hk' => absurd hk (Nat.not_le.2 hk')

theorem traced_refl (steps : List Step) (roles : List Role) (lo : Nat) : Traced steps roles lo lo :=
  fun _ hk hk' => absurd hk (Nat.not_le.2 hk')

theorem Traced.append (h : Traced steps roles lo mid) (h' : Traced steps roles mid hi)
    (le : lo ≤ mid) : Traced steps roles lo hi := fun j hj hj' => by
  rcases Nat.lt_or_ge j mid with before | behind
  · exact h j hj before
  · obtain ⟨step, role, found, known, fits, fed⟩ := h' j behind hj'
    exact ⟨step, role, found, known, fits, fed.imp fun _ _ h => ⟨Nat.le_trans le h.1, h.2⟩⟩

/-- Behind a stretch stands one more instruction, which is fed from there. -/
theorem Traced.snoc (h : Traced steps roles lo hi) {step : Step} {role : Role}
    (found : steps[hi]? = some step) (known : roles[hi]? = some role) (fits : role.Fits step)
    (fed : List.Forall₂ (fun slot p => lo ≤ p.2 ∧ Feeds steps roles hi slot p) step.instr.operands
      role.operands) : Traced steps roles lo (hi + 1) := fun j hj hj' => by
  rcases Nat.lt_or_ge j hi with before | behind
  · exact h j hj before
  · obtain rfl : j = hi := Nat.le_antisymm (Nat.le_of_lt_succ hj') behind
    exact ⟨step, role, found, known, fits, fed⟩

/-- The code of expressions stands from `base` on, and leaves their values in the slots. -/
structure Laid (steps : List Step) (roles : List Role) (es : List Expr) (base : Nat)
    (slots : List Slot) : Prop where
  traced : Traced steps roles base (base + Expr.extentList es)
  straight : Straight steps base (base + Expr.extentList es)
  values : List.Forall₂ (fun slot p => (base ≤ p.2 ∧ p.2 < base + Expr.extentList es) ∧
    Computes steps roles p.2 p.1 slot) slots (Expr.valuesAt base es)

namespace Laid

variable {e : Expr} {es : List Expr} {base : Nat} {slot : Slot} {slots : List Slot}

theorem nil (base : Nat) : Laid steps roles [] base [] :=
  ⟨traced_refl _ _ _, straight_refl _ _, .nil⟩

theorem cons (h : Laid steps roles [e] base [slot])
    (h' : Laid steps roles es (base + e.extent) slots) :
    Laid steps roles (e :: es) base (slot :: slots) := by
  have size : base + Expr.extentList (e :: es) = base + e.extent + Expr.extentList es :=
    (Nat.add_assoc _ _ _).symm
  obtain ⟨first, -⟩ := List.forall₂_cons.1 h.values
  refine ⟨?_, ?_, .cons ⟨⟨first.1.1, ?_⟩, first.2⟩ (h'.values.imp fun _ _ found => ?_)⟩
  · rw [size]
    exact h.traced.append h'.traced (Nat.le_add_right _ _)
  · rw [size]
    exact h.straight.append h'.straight
  · rw [size]
    exact Nat.lt_of_lt_of_le first.1.2 (Nat.le_add_right _ _)
  · rw [size]
    exact ⟨⟨Nat.le_trans (Nat.le_add_right _ _) found.1.1, found.1.2⟩, found.2⟩

/-- The instruction behind the code is fed with the values. -/
theorem feeds (h : Laid steps roles es base slots) :
    List.Forall₂ (fun slot p => base ≤ p.2 ∧
      Feeds steps roles (base + Expr.extentList es) slot p) slots (Expr.valuesAt base es) :=
  h.values.imp fun _ _ found =>
    ⟨found.1.1, found.1.2, found.2, h.straight.within found.1.1 (Nat.le_refl _)⟩

end Laid

namespace Expr

theorem lowerList_laid {es : List Expr}
    (each : ∀ e ∈ es, ∀ used x base, e.lower used = .ok x →
      Placed steps roles x.code.steps (e.roles base) base → Laid steps roles [e] base [x.value]) :
    ∀ {used base : Nat} {r : Fragment × List Slot}, lowerList used es = .ok r →
      Placed steps roles r.1.steps (rolesList base es) base → Laid steps roles es base r.2 := by
  induction es with
  | nil => intro _ base _ h _; cases h; exact .nil base
  | cons e es ih =>
    intro used base r h placed
    obtain ⟨x, f, values, hx, hf, rfl⟩ := lowerList_cons_eq_ok h
    obtain ⟨first, others⟩ := List.forall_mem_cons.1 each
    have size : x.code.steps.length = e.extent := e.lower_extent _ _ hx
    exact (first _ _ _ hx placed.left).cons <| ih others hf <|
      placed.right ((e.length_roles base).trans size.symm) (congrArg (base + ·) size)

/-- The code of an expression keeps to its roles, and has no jumps. -/
theorem lower_laid (e : Expr) : ∀ (used : Nat) (x : ExprCode) (base : Nat), e.lower used = .ok x →
    Placed steps roles x.code.steps (e.roles base) base →
      Laid steps roles [e] base [x.value] := by
  induction e using operands_induction with
  | step e ih =>
    intro used x base h placed
    cases lowers_of_lower h with
    | @compute _ f values instr own lowered does =>
      have reads := fun slot => (of_instr? (does slot)).1
      have writes := fun slot => (of_instr? (does slot)).2
      rw [roles_of_computed own] at placed
      have operands := lowerList_laid ih lowered placed.left
      have size : f.steps.length = extentList e.operands :=
        lowerList_extent (fun o _ => o.lower_extent) lowered
      obtain ⟨found, known⟩ := (placed.right ((length_rolesList base _).trans size.symm)
        (congrArg (base + ·) size)).head
      have all : base + extentList [e] = base + extentList e.operands + 1 := by
        rw [extentList, extentList, extent_of_computed own, Nat.add_zero, Nat.add_assoc]
      have computes : Computes steps roles (base + extentList e.operands) e (f.used + 1) :=
        ⟨⟨_, known, congrArg some (source_of_computed own).symm⟩, _, found, writes _⟩
      rw [← valueAt_of_computed own] at computes
      refine ⟨?_, ?_, .cons ⟨⟨?_, ?_⟩, computes⟩ .nil⟩
      · rw [all]
        refine operands.traced.snoc found known ?_ (reads _ ▸ operands.feeds)
        rintro _ ⟨⟩
        exact ⟨rfl, map_fst_valuesAt _ _, _, (reads _).symm ▸ does _⟩
      · rw [all]
        exact operands.straight.append (.one found (Instr.target?_of_result? (writes _)))
      · rw [valueAt_of_computed own]
        exact Nat.le_add_right _ _
      · rw [all, valueAt_of_computed own]
        exact Nat.lt_succ_self _
    | @assign s ts n v y lowered =>
      have value := ih v List.mem_cons_self _ _ _ lowered placed.left
      have size : y.code.steps.length = v.extent := v.lower_extent _ _ lowered
      obtain ⟨found, known⟩ := (placed.right ((v.length_roles base).trans size.symm)
        (congrArg (base + ·) size)).head
      have all : base + extentList [assign s (name ts n) v] = base + extentList [v] + 1 := rfl
      obtain ⟨⟨inside, computes⟩, -⟩ := List.forall₂_cons.1 value.values
      refine ⟨?_, ?_, .cons ⟨⟨inside.1, ?_⟩, computes.of_source rfl⟩ .nil⟩
      · rw [all]
        exact value.traced.snoc found known nofun value.feeds
      · rw [all]
        exact value.straight.append (.one found rfl)
      · rw [all]
        exact Nat.lt_succ_of_lt inside.2
    | @group s v y lowered =>
      have value := ih v List.mem_cons_self _ _ _ lowered placed
      obtain ⟨⟨inside, computes⟩, -⟩ := List.forall₂_cons.1 value.values
      exact ⟨value.traced, value.straight, .cons ⟨inside, computes.of_source rfl⟩ .nil⟩

end Expr

/-! ## Statements -/

/-- The jumps between `lo` and `hi` go to where `P` holds. -/
def Targets (steps : List Step) (lo hi : Nat) (P : Nat → Prop) : Prop :=
  ∀ j step t, lo ≤ j → j < hi → steps[j]? = some step → step.instr.target? = some t → P t

/-- Control may come to `t` without getting between the computation of a value and the instruction
that takes it. -/
structure Seam (roles : List Role) (lo hi t : Nat) : Prop where
  inside : lo ≤ t ∧ t ≤ hi
  clear : ∀ j role, lo ≤ j → j < hi → roles[j]? = some role →
    ∀ p ∈ role.operands, ¬ (p.2 < t ∧ t ≤ j)

/-- The instructions from `lo` on up to `hi` have roles, and their jumps go to where `P` holds. -/
structure Arranged (steps : List Step) (roles : List Role) (lo hi : Nat) (P : Nat → Prop) :
    Prop where
  le : lo ≤ hi
  traced : Traced steps roles lo hi
  targets : Targets steps lo hi P

section Arranged

variable {P Q R : Nat → Prop} {t : Nat}

/-- What an instruction takes is computed in the same stretch. -/
theorem Traced.operands (h : Traced steps roles lo hi) {j : Nat} {role : Role} (left : lo ≤ j)
    (right : j < hi) (known : roles[j]? = some role) : ∀ p ∈ role.operands, lo ≤ p.2 ∧ p.2 < j := by
  obtain ⟨step, role', -, known', -, fed⟩ := h j left right
  cases known.symm.trans known'
  have inside : List.Forall₂ (fun p _ => (lo ≤ p.2 ∧ p.2 < j) ∧ True) role.operands
      step.instr.operands := (fed.imp fun _ _ h => ⟨⟨h.1, h.2.before⟩, trivial⟩).flip
  exact ((List.forall₂_and_left _ _).1 inside).1

theorem Traced.seam_start (h : Traced steps roles lo hi) (le : lo ≤ hi) : Seam roles lo hi lo :=
  ⟨⟨Nat.le_refl _, le⟩, fun _ _ left right known p hp between =>
    Nat.not_le.2 between.1 (h.operands left right known p hp).1⟩

theorem seam_end (le : lo ≤ hi) : Seam roles lo hi hi :=
  ⟨⟨le, Nat.le_refl _⟩, fun _ _ _ right _ _ _ between => Nat.not_le.2 right between.2⟩

theorem Seam.append_right (h : Seam roles lo mid t) (traced : Traced steps roles mid hi)
    (le : mid ≤ hi) : Seam roles lo hi t := by
  refine ⟨⟨h.inside.1, Nat.le_trans h.inside.2 le⟩, fun j role left right known p hp between => ?_⟩
  rcases Nat.lt_or_ge j mid with before | behind
  · exact h.clear j role left before known p hp between
  · have := (traced.operands behind right known p hp).1
    exact Nat.not_le.2 between.1 (Nat.le_trans h.inside.2 this)

theorem Seam.append_left (h : Seam roles mid hi t) (le : lo ≤ mid) : Seam roles lo hi t := by
  refine ⟨⟨Nat.le_trans le h.inside.1, h.inside.2⟩, fun j role left right known p hp between => ?_⟩
  rcases Nat.lt_or_ge j mid with before | behind
  · exact Nat.not_le.2 before (Nat.le_trans h.inside.1 between.2)
  · exact h.clear j role behind right known p hp between

theorem Arranged.append (h : Arranged steps roles lo mid P) (h' : Arranged steps roles mid hi Q)
    (left : ∀ t, P t → R t) (right : ∀ t, Q t → R t) : Arranged steps roles lo hi R where
  le := Nat.le_trans h.le h'.le
  traced := h.traced.append h'.traced h.le
  targets j step t hj hj' found jumps := by
    rcases Nat.lt_or_ge j mid with before | behind
    · exact left t (h.targets j step t hj before found jumps)
    · exact right t (h'.targets j step t behind hj' found jumps)

theorem Arranged.mono (h : Arranged steps roles lo hi P) (sub : ∀ t, P t → Q t) :
    Arranged steps roles lo hi Q :=
  ⟨h.le, h.traced, fun j step t hj hj' found jumps => sub t (h.targets j step t hj hj' found jumps)⟩

theorem Laid.arranged {es : List Expr} {base : Nat} {slots : List Slot}
    (h : Laid steps roles es base slots) :
    Arranged steps roles base (base + Expr.extentList es) P :=
  ⟨Nat.le_add_right _ _, h.traced, fun j step t hj hj' found jumps => by
    obtain ⟨step', found', stays⟩ := h.straight j hj hj'
    cases found.symm.trans found'
    cases stays.symm.trans jumps⟩

theorem arranged_one {step : Step} (found : steps[lo]? = some step)
    (known : roles[lo]? = some .jump) (none_ : step.instr.operands = []) :
    Arranged steps roles lo (lo + 1) (step.instr.target? = some ·) where
  le := Nat.le_succ _
  traced := (traced_refl _ _ _).snoc found known nofun (none_ ▸ .nil)
  targets j other t hj hj' found' jumps := by
    obtain rfl : j = lo := Nat.le_antisymm (Nat.le_of_lt_succ hj') hj
    cases found.symm.trans found'
    exact jumps

/-- The code of an expression, and the instruction that takes its value. -/
theorem taken_arranged {e : Expr} {used base : Nat} {x : ExprCode} {instr : Instr} {span : Span}
    (h : e.lower used = .ok x) (reads : instr.operands = [x.value])
    (placed : Placed steps roles (x.code.emit instr span).steps (e.takenRoles base) base) :
    Arranged steps roles base (base + e.extent + 1) (instr.target? = some ·) := by
  have value := e.lower_laid _ _ _ h placed.left
  have size : x.code.steps.length = e.extent := e.lower_extent _ _ h
  obtain ⟨found, known⟩ := (placed.right ((e.length_roles base).trans size.symm)
    (congrArg (base + ·) size)).head
  have quiet : Arranged steps roles base (base + e.extent) (instr.target? = some ·) :=
    value.arranged
  refine ⟨Nat.le_succ_of_le quiet.le, quiet.traced.snoc found known nofun (reads ▸ value.feeds),
    fun j step t hj hj' found' jumps => ?_⟩
  rcases Nat.lt_or_ge j (base + e.extent) with before | behind
  · exact quiet.targets j step t hj before found' jumps
  · obtain rfl : j = base + e.extent := Nat.le_antisymm (Nat.le_of_lt_succ hj') behind
    cases found.symm.trans found'
    exact jumps

/-- A stretch of code, and a jump behind it. -/
theorem Arranged.snoc_jump (h : Arranged steps roles lo hi (Seam roles lo hi)) {step : Step}
    (found : steps[hi]? = some step) (known : roles[hi]? = some .jump)
    (jump : step.instr = .goto t) :
    Arranged steps roles lo (hi + 1) fun t' => Seam roles lo (hi + 1) t' ∨ t' = t := by
  have jumps := arranged_one found known (by rw [jump]; rfl)
  refine h.append jumps (fun t' ht => .inl (ht.append_right jumps.traced jumps.le))
    fun t' ht => .inr ?_
  rw [jump] at ht
  exact (Option.some.inj ht).symm

/-- A stretch of code behind a test, which may be jumped over. -/
theorem Arranged.guarded {exits : Nat → Prop}
    (test : Arranged steps roles lo mid (some hi = some ·))
    (h : Arranged steps roles mid hi fun t => Seam roles mid hi t ∨ exits t) :
    Arranged steps roles lo hi fun t => Seam roles lo hi t ∨ exits t :=
  test.append h (fun _ ht => .inl (Option.some.inj ht ▸ seam_end (Nat.le_trans test.le h.le)))
    fun _ ht => ht.imp_left (·.append_left test.le)

end Arranged

namespace Stmt

mutual

theorem length_roles {base used : Nat} : ∀ {s : Stmt} {f : Fragment},
    lower base used s = .ok f → (s.roles base).length = f.size
  | var _ _ e, _, h => by
    obtain ⟨x, hx, h⟩ := bind_eq_ok h
    cases h
    rw [roles, e.length_takenRoles, Fragment.size_emit, e.lower_extent _ _ hx]
  | cond _ c a none, _, h => by
    obtain ⟨x, hx, h⟩ := bind_eq_ok h
    obtain ⟨y, hy, h⟩ := bind_eq_ok h
    cases h
    rw [c.lower_extent _ _ hx] at hy
    simp [roles, c.length_takenRoles, length_blockRoles hy, c.lower_extent _ _ hx]
  | cond _ c a (some b), _, h => by
    obtain ⟨x, hx, h⟩ := bind_eq_ok h
    obtain ⟨y, hy, h⟩ := bind_eq_ok h
    obtain ⟨z, hz, h⟩ := bind_eq_ok h
    cases h
    rw [c.lower_extent _ _ hx] at hy hz
    have consequent := length_blockRoles hy
    simp only [roles, List.length_append, c.length_takenRoles, consequent, List.length_singleton,
      ← Nat.add_assoc, length_blockRoles hz, Fragment.size_append, Fragment.size_emit,
      c.lower_extent _ _ hx]
  | loop _ c b, _, h => by
    obtain ⟨x, hx, h⟩ := bind_eq_ok h
    obtain ⟨y, hy, h⟩ := bind_eq_ok h
    cases h
    rw [c.lower_extent _ _ hx] at hy
    simp only [roles, List.length_append, c.length_takenRoles, length_blockRoles hy,
      List.length_singleton, Fragment.size_append, Fragment.size_emit, c.lower_extent _ _ hx]
  | ret _ (some e), _, h => by
    obtain ⟨x, hx, h⟩ := bind_eq_ok h
    cases h
    rw [roles, e.length_takenRoles, Fragment.size_emit, e.lower_extent _ _ hx]
  | ret _ none, _, h => by cases h; rfl
  | expr e, _, h => by
    obtain ⟨x, hx, h⟩ := bind_eq_ok h
    cases h
    exact (e.length_roles base).trans (e.lower_extent _ _ hx).symm

theorem length_blockRoles {base used : Nat} : ∀ {b : List Stmt} {f : Fragment},
    lowerBlock base used b = .ok f → (blockRoles base b).length = f.size
  | [], _, h => by cases h; rfl
  | s :: rest, _, h => by
    obtain ⟨x, hx, h⟩ := bind_eq_ok h
    obtain ⟨y, hy, h⟩ := bind_eq_ok h
    cases h
    have first := length_roles hx
    simp only [blockRoles, List.length_append, first, length_blockRoles hy, Fragment.size_append]

end

mutual

/-- The code of a statement keeps to its roles, and its jumps go to seams of it. -/
theorem lower_arranged {base used : Nat} : ∀ {s : Stmt} {f : Fragment},
    lower base used s = .ok f → Placed steps roles f.steps (s.roles base) base →
      Arranged steps roles base (base + f.size) (Seam roles base (base + f.size))
  | var _ _ e, _, h, placed => by
    obtain ⟨x, hx, h⟩ := bind_eq_ok h
    cases h
    rw [Fragment.size_emit, e.lower_extent _ _ hx]
    exact (taken_arranged hx rfl placed).mono nofun
  | cond s c a none, _, h, placed => by
    obtain ⟨x, hx, h⟩ := bind_eq_ok h
    obtain ⟨y, hy, h⟩ := bind_eq_ok h
    cases h
    have size := c.lower_extent _ _ hx
    have taken := Expr.length_emit hx
    rw [size] at hy placed
    have tested := taken_arranged hx rfl placed.left
    have consequent := lowerBlock_arranged hy <|
      placed.right ((c.length_takenRoles base).trans (taken _ _).symm)
        (congrArg (base + ·) (taken _ _))
    rw [Fragment.size_append, Fragment.size_emit, size, ← Nat.add_assoc]
    exact (tested.guarded (consequent.mono fun _ ht => .inl ht)).mono
      fun _ ht => ht.elim id False.elim
  | cond s c a (some b), _, h, placed => by
    obtain ⟨x, hx, h⟩ := bind_eq_ok h
    obtain ⟨y, hy, h⟩ := bind_eq_ok h
    obtain ⟨z, hz, h⟩ := bind_eq_ok h
    cases h
    have size := c.lower_extent _ _ hx
    have taken := Expr.length_emit hx
    have rest : (blockRoles (base + c.extent + 1) a ++ [Role.jump]).length = y.size + 1 := by
      rw [size] at hy
      rw [List.length_append, length_blockRoles hy, List.length_singleton]
    rw [Stmt.roles, rest, size] at placed
    rw [size] at hy hz
    have tested := taken_arranged hx rfl placed.left.left
    have middle := placed.left.right ((c.length_takenRoles base).trans (taken _ _).symm)
      (congrArg (base + ·) (taken _ _))
    have consequent := lowerBlock_arranged hy middle.left
    obtain ⟨found, known⟩ := (middle.right (length_blockRoles hy) rfl).head
    have front (i j : Instr) : ((x.code.emit i c.span).append (y.emit j s)).size =
        c.extent + 1 + (y.size + 1) := by
      rw [Fragment.size_append, Fragment.size_emit, Fragment.size_emit, size]
    have begins (i j : Instr) : base + ((x.code.emit i c.span).append (y.emit j s)).size =
        base + (c.extent + 1) + (y.size + 1) :=
      (congrArg (base + ·) (front i j)).trans (Nat.add_assoc _ _ _).symm
    have alternative := lowerBlock_arranged hz <| placed.right
      (by rw [List.length_append, rest, c.length_takenRoles]; exact (front _ _).symm) (begins _ _)
    have first := tested.guarded (consequent.snoc_jump found known rfl)
    rw [Fragment.size_append, front, ← Nat.add_assoc, ← Nat.add_assoc, ← Nat.add_assoc]
    refine first.append alternative (fun t ht => ?_) fun t ht => ht.append_left first.le
    rcases ht with ht | rfl
    · exact ht.append_right alternative.traced alternative.le
    · exact seam_end (Nat.le_trans first.le alternative.le)
  | loop s c b, _, h, placed => by
    obtain ⟨x, hx, h⟩ := bind_eq_ok h
    obtain ⟨y, hy, h⟩ := bind_eq_ok h
    cases h
    have size := c.lower_extent _ _ hx
    have taken := Expr.length_emit hx
    rw [size] at hy placed
    have tested := taken_arranged hx rfl placed.left.left
    have body := lowerBlock_arranged hy <| placed.left.right
      ((c.length_takenRoles base).trans (taken _ _).symm) (congrArg (base + ·) (taken _ _))
    have front (i : Instr) : ((x.code.emit i c.span).append y).size = c.extent + 1 + y.size := by
      rw [Fragment.size_append, Fragment.size_emit, size]
    obtain ⟨found, known⟩ := (placed.right
      (by rw [List.length_append, length_blockRoles hy, c.length_takenRoles]
          exact (front _).symm)
      ((congrArg (base + ·) (front _)).trans (Nat.add_assoc base (c.extent + 1) y.size).symm)).head
    have whole := tested.guarded (body.snoc_jump found known rfl)
    rw [Fragment.size_emit, front, ← Nat.add_assoc, ← Nat.add_assoc, ← Nat.add_assoc]
    refine whole.mono fun t ht => ?_
    rcases ht with ht | rfl
    · exact ht
    · exact whole.traced.seam_start whole.le
  | ret _ (some e), _, h, placed => by
    obtain ⟨x, hx, h⟩ := bind_eq_ok h
    cases h
    rw [Fragment.size_emit, e.lower_extent _ _ hx]
    exact (taken_arranged hx rfl placed).mono nofun
  | ret s none, _, h, placed => by
    cases h
    have nil : (Expr.literal s .nil).lower used = .ok _ := rfl
    exact (taken_arranged nil rfl placed).mono nofun
  | expr e, _, h, placed => by
    obtain ⟨x, hx, h⟩ := bind_eq_ok h
    cases h
    rw [e.lower_extent _ _ hx]
    exact (e.lower_laid _ _ _ hx placed).arranged

theorem lowerBlock_arranged {base used : Nat} : ∀ {b : List Stmt} {f : Fragment},
    lowerBlock base used b = .ok f → Placed steps roles f.steps (blockRoles base b) base →
      Arranged steps roles base (base + f.size) (Seam roles base (base + f.size))
  | [], _, h, _ => by
    cases h
    exact ⟨Nat.le_refl _, traced_refl _ _ _, fun _ _ _ hj hj' => absurd hj (Nat.not_le.2 hj')⟩
  | s :: rest, _, h, placed => by
    obtain ⟨x, hx, h⟩ := bind_eq_ok h
    obtain ⟨y, hy, h⟩ := bind_eq_ok h
    cases h
    have first := lower_arranged hx placed.left
    have behind := placed.right (length_roles hx) rfl
    rw [length_roles hx] at behind
    have others := lowerBlock_arranged hy behind
    rw [Fragment.size_append, ← Nat.add_assoc]
    exact first.append others (fun t ht => ht.append_right others.traced others.le)
      fun t ht => ht.append_left first.le

end

end Stmt

end Stretches

/-! ## Slots -/

/-- The slots that the instructions write, in their order. -/
def results (steps : List Step) : List Slot := steps.filterMap (·.instr.result?)

theorem results_append (as bs : List Step) : results (as ++ bs) = results as ++ results bs :=
  List.filterMap_append

theorem Fragment.results_append (f g : Fragment) :
    results (f.append g).steps = results f.steps ++ results g.steps := List.filterMap_append

/-- An instruction without a result writes no slot. -/
theorem Fragment.results_emit {instr : Instr} (none_ : instr.result? = none) (f : Fragment)
    (span : Span) : results (f.emit instr span).steps = results f.steps := by
  simp [results, Fragment.emit, none_]

/-- A slot is written by one instruction at most. -/
theorem eq_of_results {steps : List Step} (apart : (results steps).Nodup) {i k : Nat}
    {step step' : Step} {slot : Slot} (found : steps[i]? = some step)
    (found' : steps[k]? = some step') (writes : step.instr.result? = some slot)
    (writes' : step'.instr.result? = some slot) : i = k := by
  have pairwise := List.pairwise_iff_getElem.1 (List.pairwise_filterMap.1 apart)
  obtain ⟨inside, rfl⟩ := List.getElem?_eq_some_iff.1 found
  obtain ⟨inside', rfl⟩ := List.getElem?_eq_some_iff.1 found'
  rcases Nat.lt_trichotomy i k with before | same | behind
  · exact absurd rfl (pairwise i k inside inside' before slot writes slot writes')
  · exact same
  · exact absurd rfl (pairwise k i inside' inside behind slot writes' slot writes)

namespace Expr

theorem lowerList_results {es : List Expr} (each : ∀ e ∈ es, ∀ used x, e.lower used = .ok x →
      results x.code.steps = List.range' (used + 1) e.slots) :
    ∀ {used : Nat} {r : Fragment × List Slot}, lowerList used es = .ok r →
      results r.1.steps = List.range' (used + 1) (slotsList es) := by
  induction es with
  | nil => intro _ _ h; cases h; rfl
  | cons e es ih =>
    intro used r h
    obtain ⟨x, f, values, hx, hf, rfl⟩ := lowerList_cons_eq_ok h
    obtain ⟨first, others⟩ := List.forall_mem_cons.1 each
    have behind := ih others hf
    rw [lower_slots hx, Nat.add_right_comm] at behind
    rw [Fragment.append, results_append, first _ _ hx, behind, List.range'_append_1, slotsList]

/-- The instructions of an expression write the slots that it takes, one behind the other. -/
theorem lower_results (e : Expr) : ∀ (used : Nat) (x : ExprCode), e.lower used = .ok x →
    results x.code.steps = List.range' (used + 1) e.slots := by
  induction e using operands_induction with
  | step e ih =>
    intro used x h
    cases lowers_of_lower h with
    | @compute _ f values instr own lowered does =>
      have writes := fun slot => (of_instr? (does slot)).2
      have operands := lowerList_results ih lowered
      have last : results [⟨instr (f.used + 1), e.span⟩] = [used + 1 + slotsList e.operands] := by
        rw [lowerList_slots lowered, Nat.add_right_comm]
        simp [results, writes]
      show results (f.steps ++ [⟨instr (f.used + 1), e.span⟩]) = _
      rw [results_append, operands, last, slots_of_computed own, List.range'_1_concat]
    | @assign s ts n v y lowered =>
      show results (y.code.steps ++ [_]) = _
      rw [results_append, ih v List.mem_cons_self _ _ lowered]
      exact List.append_nil _
    | @group s v y lowered => exact ih v List.mem_cons_self used y lowered

end Expr

namespace Stmt

mutual

/-- The instructions of a statement write the slots that it takes, one behind the other. -/
theorem lower_results {base used : Nat} : ∀ {s : Stmt} {f : Fragment},
    lower base used s = .ok f → results f.steps = List.range' (used + 1) s.slots
  | var _ _ e, _, h => by
    obtain ⟨x, hx, h⟩ := bind_eq_ok h
    cases h
    exact (Fragment.results_emit rfl _ _).trans (e.lower_results _ _ hx)
  | cond _ c a none, _, h => by
    obtain ⟨x, hx, h⟩ := bind_eq_ok h
    obtain ⟨y, hy, h⟩ := bind_eq_ok h
    cases h
    have consequent := lowerBlock_results hy
    rw [c.lower_slots hx, Nat.add_right_comm] at consequent
    rw [Fragment.results_append, Fragment.results_emit rfl, c.lower_results _ _ hx, consequent,
      List.range'_append_1]
    rfl
  | cond _ c a (some b), _, h => by
    obtain ⟨x, hx, h⟩ := bind_eq_ok h
    obtain ⟨y, hy, h⟩ := bind_eq_ok h
    obtain ⟨z, hz, h⟩ := bind_eq_ok h
    cases h
    have consequent := lowerBlock_results hy
    have alternative := lowerBlock_results hz
    rw [c.lower_slots hx, Nat.add_right_comm] at consequent
    rw [lowerBlock_slots hy, c.lower_slots hx, Nat.add_assoc used,
      Nat.add_right_comm] at alternative
    rw [Fragment.results_append, Fragment.results_append, Fragment.results_emit rfl,
      Fragment.results_emit rfl, c.lower_results _ _ hx, consequent, List.range'_append_1,
      alternative, List.range'_append_1]
    rfl
  | loop _ c b, _, h => by
    obtain ⟨x, hx, h⟩ := bind_eq_ok h
    obtain ⟨y, hy, h⟩ := bind_eq_ok h
    cases h
    have body := lowerBlock_results hy
    rw [c.lower_slots hx, Nat.add_right_comm] at body
    rw [Fragment.results_emit rfl, Fragment.results_append, Fragment.results_emit rfl,
      c.lower_results _ _ hx, body, List.range'_append_1]
    rfl
  | ret _ (some e), _, h => by
    obtain ⟨x, hx, h⟩ := bind_eq_ok h
    cases h
    exact (Fragment.results_emit rfl _ _).trans (e.lower_results _ _ hx)
  | ret _ none, _, h => by cases h; rfl
  | expr e, _, h => by
    obtain ⟨x, hx, h⟩ := bind_eq_ok h
    cases h
    exact e.lower_results _ _ hx

theorem lowerBlock_results {base used : Nat} : ∀ {b : List Stmt} {f : Fragment},
    lowerBlock base used b = .ok f → results f.steps = List.range' (used + 1) (blockSlots b)
  | [], _, h => by cases h; rfl
  | s :: rest, _, h => by
    obtain ⟨x, hx, h⟩ := bind_eq_ok h
    obtain ⟨y, hy, h⟩ := bind_eq_ok h
    cases h
    have others := lowerBlock_results hy
    rw [lower_slots hx, Nat.add_right_comm] at others
    rw [Fragment.results_append, lower_results hx, others, List.range'_append_1]
    rfl

end

end Stmt

/-! ## Bodies and expressions -/

/-- The instruction at `p.2` is the one that computes `p.1` for the one at `j`, which reads it from
`slot`: no other writes the slot, and no jump leaves or enters the stretch between the two. -/
structure Supplies (steps : List Step) (roles : List Role) (j : Nat) (slot : Slot)
    (p : Expr × Nat) : Prop extends Feeds steps roles j slot p where
  alone : ∀ (k : Nat) (step : Step), steps[k]? = some step → step.instr.result? = some slot →
    k = p.2
  undisturbed : ∀ (k : Nat) (step : Step) (t : Nat), steps[k]? = some step →
    step.instr.target? = some t → ¬ (p.2 < t ∧ t ≤ j)

/-- Each instruction fits its role, and each slot that it reads is supplied with the value of the
expression that the role names. -/
structure Accounts (steps : List Step) (roles : List Role) : Prop where
  length : roles.length = steps.length
  supplied : ∀ (j : Nat) (step : Step), steps[j]? = some step → ∃ role, roles[j]? = some role ∧
    role.Fits step ∧ List.Forall₂ (Supplies steps roles j) step.instr.operands role.operands

theorem Stmt.lowerBlock_accounts {b : List Stmt} {f : Fragment} (h : lowerBlock 0 0 b = .ok f) :
    Accounts f.steps (blockRoles 0 b) := by
  have arranged := lowerBlock_arranged h ⟨List.prefix_rfl, List.prefix_rfl⟩
  rw [Nat.zero_add] at arranged
  have apart : (results f.steps).Nodup := by
    rw [lowerBlock_results h]
    exact List.nodup_range' 1
  refine ⟨length_blockRoles h, fun j step found => ?_⟩
  have inside := (List.getElem?_eq_some_iff.1 found).1
  obtain ⟨step', role, found', known, fits, fed⟩ := arranged.traced j (Nat.zero_le _) inside
  cases found.symm.trans found'
  refine ⟨role, known, fits, ?_⟩
  have clear : ∀ p ∈ role.operands, ∀ (k : Nat) (step : Step) (t : Nat), f.steps[k]? = some step →
      step.instr.target? = some t → ¬ (p.2 < t ∧ t ≤ j) := fun p hp k step t found jumps =>
    (arranged.targets k step t (Nat.zero_le _) (List.getElem?_eq_some_iff.1 found).1 found
      jumps).clear j role (Nat.zero_le _) inside known p hp
  have both := (List.forall₂_and_left _ _).2 ⟨clear, (fed.imp fun _ _ h => h.2).flip⟩
  refine both.flip.imp fun slot p ⟨undisturbed, feeds⟩ => ⟨feeds, fun k step found writes => ?_,
    undisturbed⟩
  obtain ⟨step', found', writes'⟩ := feeds.computes.result
  exact eq_of_results apart found found' writes writes'

/-- On the path, control has come straight from `i` to `j`, where it is at `n`. -/
def ComesStraight (path : List Nat) (n i j : Nat) : Prop :=
  ∃ before, path.take (n + 1) = before ++ List.range' i (j + 1 - i)

/-- On every control path, each slot that an instruction reads was written by the instruction that
computes the operand, from which control has come straight. -/
def DefinesOperands (steps : List Step) (roles : List Role) : Prop :=
  ∀ path, IsPath steps path → ∀ (n j : Nat) (step : Step), path[n]? = some j →
    steps[j]? = some step → ∃ role, roles[j]? = some role ∧ role.Fits step ∧
      List.Forall₂ (fun slot p => Supplies steps roles j slot p ∧ ComesStraight path n p.2 j)
        step.instr.operands role.operands

theorem Accounts.definesOperands {steps : List Step} {roles : List Role}
    (h : Accounts steps roles) : DefinesOperands steps roles := by
  intro path isPath n j step at_ found
  obtain ⟨role, known, fits, supplied⟩ := h.supplied j step found
  refine ⟨role, known, fits, supplied.imp fun slot p supplies => ⟨supplies, ?_⟩⟩
  obtain ⟨d, rfl⟩ := Nat.exists_eq_add_of_le supplies.before.le
  rw [ComesStraight, Nat.add_assoc, Nat.add_sub_cancel_left]
  exact isPath.straight d supplies.undisturbed n at_

/-- The statements that the code of a function comes from: its body, and a return behind it where
the code of the body may be left by its end. -/
def FunctionDecl.completed (f : FunctionDecl) : List Stmt :=
  match Stmt.lowerBlock 0 0 f.body with
  | .ok body => if body.isClosed then f.body else f.body ++ [.ret f.span none]
  | .error _ => f.body

/-- The roles of the instructions of a function. -/
def FunctionDecl.roles (f : FunctionDecl) : List Role := Stmt.blockRoles 0 f.completed

/-- The roles of the instructions of an expression by itself. -/
def Expr.codeRoles (e : Expr) : List Role := Stmt.blockRoles 0 [.ret e.span (some e)]

theorem FunctionDecl.toCode_steps {f : FunctionDecl} {code : Code} (h : f.toCode = .ok code) :
    ∃ g, Stmt.lowerBlock 0 0 f.completed = .ok g ∧ g.steps = code.steps := by
  obtain ⟨body, lowered, h⟩ := bind_eq_ok h
  cases h
  unfold completed
  rw [lowered]
  dsimp only
  split
  · exact ⟨body, lowered, rfl⟩
  · refine ⟨body.append (Stmt.returnNil (.start body.used) f.span), ?_, ?_⟩
    · rw [Stmt.lowerBlock_append, lowered]
      exact congrArg (fun g => Except.ok (body.append g)) (Fragment.append_start _)
    · simp [Fragment.append, Stmt.returnNil, Fragment.start, Fragment.emitResult, Fragment.emit]

theorem FunctionDecl.toCode_accounts {f : FunctionDecl} {code : Code} (h : f.toCode = .ok code) :
    Accounts code.steps f.roles := by
  obtain ⟨g, lowered, same⟩ := toCode_steps h
  exact same ▸ Stmt.lowerBlock_accounts lowered

theorem Expr.toCode_steps {e : Expr} {code : Code} (h : e.toCode = .ok code) :
    ∃ g, Stmt.lowerBlock 0 0 [.ret e.span (some e)] = .ok g ∧ g.steps = code.steps := by
  obtain ⟨x, lowered, h⟩ := bind_eq_ok h
  cases h
  have statement : Stmt.lower 0 0 (.ret e.span (some e)) =
      .ok (x.code.emit (.ret (some x.value)) e.span) := by rw [Stmt.lower, lowered]; rfl
  refine ⟨_, ?_, rfl⟩
  rw [Stmt.lowerBlock, statement]
  exact congrArg Except.ok (Fragment.append_start _)

theorem Expr.toCode_accounts {e : Expr} {code : Code} (h : e.toCode = .ok code) :
    Accounts code.steps e.codeRoles := by
  obtain ⟨g, lowered, same⟩ := toCode_steps h
  exact same ▸ Stmt.lowerBlock_accounts lowered

end PathTyping
