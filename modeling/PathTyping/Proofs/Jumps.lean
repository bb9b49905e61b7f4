import PathTyping.Proofs.Visits

/-!
# The jumps of a body

The jumps of lowered code are those of its tree: `Stmt.jumps` lists them without looking at any
instruction, from how long the code of each part is.  A conditional skips forward over a block; a
loop skips forward behind its own end, where it jumps back to its condition.  No other jump goes
back, and since behind the body there is a return wherever a jump might lead, all stay inside.

1. The code has exactly the jumps of its tree (`Stmt.lower_shaped`), and where the tree has a loop
   stand its condition, the test and the jump back (`Stmt.lower_loops`).
2. The jumps of a tree go forward and to no further than its end, but for those that close a loop
   (`Stmt.jumps_within`).
3. So lowered code is in order (`FunctionDecl.toCode_ordered`, `Expr.toCode_ordered`), and no path
   through code that is in order leaves it (`Code.Ordered.resolve`).
-/

namespace PathTyping

open Walk

/-! ## The jumps of code -/

/-- Where a jump stands, whether it depends on a condition, and where it goes. -/
structure Jump where
  index : Nat
  tests : Bool
  target : Nat
  deriving DecidableEq

namespace Instr

/-- The jump that the instruction is, if it is one, at `index`. -/
def jump? (index : Nat) : Instr → Option Jump
  | goto t => some ⟨index, false, t⟩
  | gotoIf t _ _ => some ⟨index, true, t⟩
  | _ => none

/-- The instruction is one that lowered code may have: a jump is made if the condition does not
hold, and what is returned is in a slot. -/
def isPlain : Instr → Bool
  | gotoIf _ _ expected => !expected
  | ret value => value.isSome
  | _ => true

theorem jump?_eq_none {i : Instr} (h : i.target? = none) (index : Nat) : i.jump? index = none := by
  cases i <;> first | rfl | cases h

theorem isPlain_of_result? {i : Instr} {slot : Slot} (h : i.result? = some slot) :
    i.isPlain = true := by
  cases i <;> first | rfl | cases h

end Instr

/-- The jumps of code that stands at `base`. -/
def jumpsOf (base : Nat) (steps : List Step) : List Jump :=
  (steps.zipIdx base).filterMap fun p => p.1.instr.jump? p.2

theorem jumpsOf_append (base : Nat) (as bs : List Step) :
    jumpsOf base (as ++ bs) = jumpsOf base as ++ jumpsOf (base + as.length) bs := by
  rw [jumpsOf, List.zipIdx_append, List.filterMap_append]
  rfl

theorem jumpsOf_one (base : Nat) (step : Step) :
    jumpsOf base [step] = (step.instr.jump? base).toList := by
  cases found : step.instr.jump? base <;> simp [jumpsOf, found]

theorem mem_jumpsOf {steps : List Step} {j : Jump} :
    j ∈ jumpsOf 0 steps ↔
      ∃ i, ∃ step : Step, steps[i]? = some step ∧ step.instr.jump? i = some j := by
  simp only [jumpsOf, List.mem_filterMap, Prod.exists, List.mem_zipIdx_iff_getElem?]
  exact exists_comm

/-- Code stands at `base`, is as long as told, has the jumps that are listed, and is plain. -/
structure Fragment.Shaped (base extent : Nat) (jumps : List Jump) (f : Fragment) : Prop where
  size : f.size = extent
  jumps : jumpsOf base f.steps = jumps
  plain : ∀ step ∈ f.steps, step.instr.isPlain = true

namespace Fragment.Shaped

variable {base mid m n : Nat} {js ks : List Jump} {f g : Fragment}

theorem append (h : f.Shaped base m js) (h' : g.Shaped mid n ks) (behind : base + m = mid) :
    (f.append g).Shaped base (m + n) (js ++ ks) where
  size := by rw [size_append, h.size, h'.size]
  jumps := by
    rw [Fragment.append, jumpsOf_append, h.jumps, show f.steps.length = m from h.size, behind,
      h'.jumps]
  plain step hs := (List.mem_append.1 hs).elim (h.plain step) (h'.plain step)

theorem emit (h : f.Shaped base m js) (instr : Instr) (plain : instr.isPlain = true)
    (span : Span) :
    (f.emit instr span).Shaped base (m + 1) (js ++ (instr.jump? (base + m)).toList) where
  size := by rw [size_emit, h.size]
  jumps := by
    rw [Fragment.emit, jumpsOf_append, h.jumps, jumpsOf_one, show f.steps.length = m from h.size]
  plain step hs := by
    rcases List.mem_append.1 hs with hs | hs
    · exact h.plain step hs
    · exact List.mem_singleton.1 hs ▸ plain

theorem emit_straight (h : f.Shaped base m js) {instr : Instr} (plain : instr.isPlain = true)
    (stays : instr.target? = none) (span : Span) : (f.emit instr span).Shaped base (m + 1) js := by
  have more := h.emit instr plain span
  rwa [Instr.jump?_eq_none stays, Option.toList_none, List.append_nil] at more

theorem emit_goto (h : f.Shaped base m js) (target : Nat) (span : Span)
    (behind : base + m = mid) :
    (f.emit (.goto target) span).Shaped base (m + 1) (js ++ [⟨mid, false, target⟩]) :=
  behind ▸ h.emit (.goto target) rfl span

theorem emit_test (h : f.Shaped base m js) (target : Nat) (value : Slot) (span : Span) :
    (f.emit (.gotoIf target value false) span).Shaped base (m + 1)
      (js ++ [⟨base + m, true, target⟩]) :=
  h.emit (.gotoIf target value false) rfl span

end Fragment.Shaped

namespace Expr

theorem lowerList_plain {es : List Expr} (each : ∀ e ∈ es, ∀ used x, e.lower used = .ok x →
      ∀ step ∈ x.code.steps, step.instr.isPlain = true) :
    ∀ {used : Nat} {r : Fragment × List Slot}, lowerList used es = .ok r →
      ∀ step ∈ r.1.steps, step.instr.isPlain = true := by
  induction es with
  | nil => intro _ _ h; cases h; exact fun _ hs => absurd hs List.not_mem_nil
  | cons e es ih =>
    intro used r h step hs
    obtain ⟨x, f, values, hx, hf, rfl⟩ := lowerList_cons_eq_ok h
    obtain ⟨first, others⟩ := List.forall_mem_cons.1 each
    exact (List.mem_append.1 hs).elim (first _ _ hx step) (ih others hf step)

theorem lower_plain (e : Expr) : ∀ (used : Nat) (x : ExprCode), e.lower used = .ok x →
    ∀ step ∈ x.code.steps, step.instr.isPlain = true := by
  induction e using operands_induction with
  | step e ih =>
    intro used x h step hs
    cases lowers_of_lower h with
    | @compute _ f values instr own lowered does =>
      rcases List.mem_append.1 hs with hs | hs
      · exact lowerList_plain ih lowered step hs
      · rw [List.mem_singleton.1 hs]
        exact Instr.isPlain_of_result? (of_instr? (does _)).2
    | @assign s ts n v y lowered =>
      rcases List.mem_append.1 hs with hs | hs
      · exact ih v List.mem_cons_self _ _ lowered step hs
      · rw [List.mem_singleton.1 hs]
        rfl
    | @group s v y lowered => exact ih v List.mem_cons_self _ _ lowered step hs

/-- The code of an expression has no jumps. -/
theorem lower_shaped {e : Expr} {used : Nat} {x : ExprCode} (h : e.lower used = .ok x)
    (base : Nat) : x.code.Shaped base e.extent [] where
  size := e.lower_extent _ _ h
  jumps := by
    have straight := (e.lower_laid used x 0 h ⟨List.prefix_rfl, List.prefix_rfl⟩).straight
    refine List.filterMap_eq_nil_iff.2 fun ⟨step, i⟩ hs => ?_
    obtain ⟨d, found⟩ : ∃ d, x.code.steps[d]? = some step :=
      List.mem_iff_getElem?.1 (List.fst_mem_of_mem_zipIdx hs)
    have inside := (List.getElem?_eq_some_iff.1 found).1
    have size : x.code.steps.length = e.extent := e.lower_extent _ _ h
    obtain ⟨step', found', stays⟩ := straight d (Nat.zero_le d) (by
      rw [extentList, extentList]
      omega)
    cases found.symm.trans found'
    exact Instr.jump?_eq_none stays i
  plain := e.lower_plain _ _ h

end Expr

/-! ## The jumps of trees -/

/-- A loop: its condition, the first of its instructions, and the last. -/
structure Loop where
  condition : Expr
  first : Nat
  last : Nat

namespace Stmt

mutual

/-- The number of instructions that a statement comes to. -/
def extent : Stmt → Nat
  | var _ _ e => e.extent + 1
  | cond _ c a b =>
    c.extent + 1 + blockExtent a +
      (match b with
        | some b => 1 + blockExtent b
        | none => 0)
  | loop _ c b => c.extent + 1 + blockExtent b + 1
  | ret _ (some e) => e.extent + 1
  | ret _ none => 2
  | expr e => e.extent
termination_by structural s => s

def blockExtent : List Stmt → Nat
  | [] => 0
  | s :: rest => extent s + blockExtent rest
termination_by structural b => b

end

mutual

/-- The jumps of a statement whose code stands at `base`. -/
def jumps (base : Nat) : Stmt → List Jump
  | cond _ c a b =>
    let inner := base + c.extent + 1
    let behind := inner + blockExtent a
    match b with
    | none => ⟨base + c.extent, true, behind⟩ :: blockJumps inner a
    | some b =>
      ⟨base + c.extent, true, behind + 1⟩ :: blockJumps inner a ++
        ⟨behind, false, behind + 1 + blockExtent b⟩ :: blockJumps (behind + 1) b
  | loop _ c b =>
    let inner := base + c.extent + 1
    let last := inner + blockExtent b
    ⟨base + c.extent, true, last + 1⟩ :: blockJumps inner b ++ [⟨last, false, base⟩]
  | var _ _ _ | ret _ _ | expr _ => []
termination_by structural s => s

def blockJumps (base : Nat) : List Stmt → List Jump
  | [] => []
  | s :: rest => jumps base s ++ blockJumps (base + s.extent) rest
termination_by structural b => b

end

mutual

/-- The loops of a statement whose code stands at `base`. -/
def loops (base : Nat) : Stmt → List Loop
  | cond _ c a b =>
    let inner := base + c.extent + 1
    blockLoops inner a ++
      (match b with
        | some b => blockLoops (inner + blockExtent a + 1) b
        | none => [])
  | loop _ c b =>
    let inner := base + c.extent + 1
    ⟨c, base, inner + blockExtent b⟩ :: blockLoops inner b
  | var _ _ _ | ret _ _ | expr _ => []
termination_by structural s => s

def blockLoops (base : Nat) : List Stmt → List Loop
  | [] => []
  | s :: rest => loops base s ++ blockLoops (base + s.extent) rest
termination_by structural b => b

end

mutual

/-- The code of a statement has the jumps of the statement. -/
theorem lower_shaped {base used : Nat} : ∀ {s : Stmt} {f : Fragment},
    lower base used s = .ok f → f.Shaped base s.extent (s.jumps base)
  | var _ _ e, _, h => by
    obtain ⟨x, hx, h⟩ := bind_eq_ok h
    cases h
    exact (Expr.lower_shaped hx base).emit_straight rfl rfl _
  | cond s c a none, _, h => by
    obtain ⟨x, hx, h⟩ := bind_eq_ok h
    obtain ⟨y, hy, h⟩ := bind_eq_ok h
    cases h
    have condition := Expr.lower_shaped hx base
    rw [condition.size] at hy ⊢
    have consequent := lowerBlock_shaped hy
    rw [consequent.size]
    exact (condition.emit_test _ x.value c.span).append consequent rfl
  | cond s c a (some b), _, h => by
    obtain ⟨x, hx, h⟩ := bind_eq_ok h
    obtain ⟨y, hy, h⟩ := bind_eq_ok h
    obtain ⟨z, hz, h⟩ := bind_eq_ok h
    cases h
    have condition := Expr.lower_shaped hx base
    rw [condition.size] at hy hz ⊢
    have consequent := lowerBlock_shaped hy
    rw [consequent.size] at hz ⊢
    have alternative := lowerBlock_shaped hz
    rw [alternative.size]
    let other := base + c.extent + 1 + blockExtent a + 1
    have tested := condition.emit_test other x.value c.span
    have skipped := consequent.emit_goto (other + blockExtent b) s rfl
    have whole := (tested.append skipped rfl).append alternative (by omega)
    refine ⟨whole.size.trans ?_, whole.jumps.trans ?_, whole.plain⟩
    · rw [extent]
      omega
    · simp [jumps, other]
  | loop s c b, _, h => by
    obtain ⟨x, hx, h⟩ := bind_eq_ok h
    obtain ⟨y, hy, h⟩ := bind_eq_ok h
    cases h
    have condition := Expr.lower_shaped hx base
    rw [condition.size] at hy ⊢
    have body := lowerBlock_shaped hy
    rw [body.size]
    exact ((condition.emit_test _ x.value c.span).append body rfl).emit_goto base s (by omega)
  | ret _ (some e), _, h => by
    obtain ⟨x, hx, h⟩ := bind_eq_ok h
    cases h
    exact (Expr.lower_shaped hx base).emit_straight rfl rfl _
  | ret s none, _, h => by
    cases h
    exact ⟨rfl, rfl, by simp [returnNil, Fragment.start, Fragment.emitResult, Fragment.emit,
      Instr.isPlain]⟩
  | expr e, _, h => by
    obtain ⟨x, hx, h⟩ := bind_eq_ok h
    cases h
    exact Expr.lower_shaped hx base

theorem lowerBlock_shaped {base used : Nat} : ∀ {b : List Stmt} {f : Fragment},
    lowerBlock base used b = .ok f → f.Shaped base (blockExtent b) (blockJumps base b)
  | [], _, h => by
    cases h
    exact ⟨rfl, rfl, nofun⟩
  | s :: rest, _, h => by
    obtain ⟨x, hx, h⟩ := bind_eq_ok h
    obtain ⟨y, hy, h⟩ := bind_eq_ok h
    cases h
    have first := lower_shaped hx
    rw [first.size] at hy
    exact first.append (lowerBlock_shaped hy) rfl

end

end Stmt

/-! ### Which way they go -/

/-- A jump stands between `lo` and `hi` and goes no further; it goes forward, or closes a loop. -/
structure Jump.Within (lo hi : Nat) (loops : List Loop) (j : Jump) : Prop where
  inside : lo ≤ j.index ∧ j.index < hi
  target : lo ≤ j.target ∧ j.target ≤ hi
  forward : j.index < j.target ∨
    j.tests = false ∧ ∃ l ∈ loops, l.first = j.target ∧ l.last = j.index

theorem Jump.Within.mono {lo hi lo' hi' : Nat} {loops loops' : List Loop} {j : Jump}
    (h : j.Within lo hi loops) (left : lo' ≤ lo) (right : hi ≤ hi') (sub : loops ⊆ loops') :
    j.Within lo' hi' loops' where
  inside := ⟨left.trans h.inside.1, Nat.lt_of_lt_of_le h.inside.2 right⟩
  target := ⟨left.trans h.target.1, h.target.2.trans right⟩
  forward := h.forward.imp_right fun ⟨goto, l, hl, same⟩ => ⟨goto, l, sub hl, same⟩

namespace Stmt

mutual

/-- The jumps of a statement go forward and to no further than its end, but for those that close a
loop. -/
theorem jumps_within (base : Nat) :
    ∀ s : Stmt, ∀ j ∈ s.jumps base, j.Within base (base + s.extent) (s.loops base)
  | var _ _ _ => nofun
  | cond _ c a none => by
    refine List.forall_mem_cons.2 ⟨⟨?_, ?_, .inl ?_⟩, fun j hj => ?_⟩
    · simp only [extent]; omega
    · simp only [extent]; omega
    · dsimp only; omega
    · refine (blockJumps_within _ a j hj).mono (by omega) ?_ (List.subset_append_left _ _)
      simp only [extent]; omega
  | cond _ c a (some b) => by
    refine List.forall_mem_append.2 ⟨List.forall_mem_cons.2 ⟨⟨?_, ?_, .inl ?_⟩, fun j hj => ?_⟩,
      List.forall_mem_cons.2 ⟨⟨?_, ?_, .inl ?_⟩, fun j hj => ?_⟩⟩
    · simp only [extent]; omega
    · simp only [extent]; omega
    · dsimp only; omega
    · refine (blockJumps_within _ a j hj).mono (by omega) ?_ (List.subset_append_left _ _)
      simp only [extent]; omega
    · simp only [extent]; omega
    · simp only [extent]; omega
    · dsimp only; omega
    · refine (blockJumps_within _ b j hj).mono (by omega) ?_ (List.subset_append_right _ _)
      simp only [extent]; omega
  | loop _ c b => by
    refine List.forall_mem_append.2 ⟨List.forall_mem_cons.2 ⟨⟨?_, ?_, .inl ?_⟩, fun j hj => ?_⟩,
      List.forall_mem_singleton.2 ⟨?_, ?_, .inr ⟨rfl, _, List.mem_cons_self, rfl, rfl⟩⟩⟩
    · simp only [extent]; omega
    · simp only [extent]; omega
    · dsimp only; omega
    · refine (blockJumps_within _ b j hj).mono (by omega) ?_ (List.subset_cons_self _ _)
      simp only [extent]; omega
    · simp only [extent]; omega
    · simp only [extent]; omega
  | ret _ _ => nofun
  | expr _ => nofun

theorem blockJumps_within (base : Nat) : ∀ b : List Stmt, ∀ j ∈ blockJumps base b,
    j.Within base (base + blockExtent b) (blockLoops base b)
  | [] => nofun
  | s :: rest => by
    refine List.forall_mem_append.2 ⟨fun j hj => ?_, fun j hj => ?_⟩
    · refine (jumps_within base s j hj).mono (Nat.le_refl _) ?_ (List.subset_append_left _ _)
      rw [blockExtent]
      omega
    · refine (blockJumps_within _ rest j hj).mono (by omega) ?_ (List.subset_append_right _ _)
      rw [blockExtent]
      omega

end

end Stmt

/-! ### Loops -/

/-- In the code, the loop begins with its condition, behind which a test skips what is left of it,
and it ends with a jump to the first instruction of the condition. -/
structure Loop.Stands (steps : List Step) (l : Loop) : Prop where
  order : l.first < l.last
  condition : ∃ used x, l.condition.lower used = .ok x ∧ x.code.steps <+: steps.drop l.first ∧
    steps[l.first + l.condition.extent]? =
      some ⟨.gotoIf (l.last + 1) x.value false, l.condition.span⟩
  closes : ∃ span, steps[l.last]? = some ⟨.goto l.first, span⟩

namespace Stmt

variable {steps : List Step}

mutual

/-- Where the tree has a loop, one stands in the code. -/
theorem lower_loops {base used : Nat} : ∀ {s : Stmt} {f : Fragment}, lower base used s = .ok f →
    f.steps <+: steps.drop base → ∀ l ∈ s.loops base, l.Stands steps
  | var _ _ _, _, _, _ => nofun
  | cond s c a none, _, h, stands => by
    obtain ⟨x, hx, h⟩ := bind_eq_ok h
    obtain ⟨y, hy, h⟩ := bind_eq_ok h
    cases h
    have size := c.lower_extent _ _ hx
    rw [size] at hy
    have inner := prefix_drop_right stands
    rw [Expr.length_emit hx] at inner
    exact List.forall_mem_append.2 ⟨lowerBlock_loops hy inner, nofun⟩
  | cond s c a (some b), _, h, stands => by
    obtain ⟨x, hx, h⟩ := bind_eq_ok h
    obtain ⟨y, hy, h⟩ := bind_eq_ok h
    obtain ⟨z, hz, h⟩ := bind_eq_ok h
    cases h
    have size := c.lower_extent _ _ hx
    have sizeA := (lowerBlock_shaped hy).size
    rw [size] at hy hz
    rw [sizeA] at hz
    have front := (List.prefix_append _ _).trans stands
    have inner := prefix_drop_right front
    rw [Expr.length_emit hx] at inner
    have other := prefix_drop_right stands
    have length (i j : Instr) : ((x.code.emit i c.span).append (y.emit j s)).steps.length =
        c.extent + 1 + (blockExtent a + 1) := by
      rw [Fragment.append, List.length_append, Expr.length_emit hx]
      exact congrArg (c.extent + 1 + ·) ((y.size_emit j s).trans (congrArg (· + 1) sizeA))
    rw [length, ← Nat.add_assoc, ← Nat.add_assoc, ← Nat.add_assoc] at other
    exact List.forall_mem_append.2
      ⟨lowerBlock_loops hy ((List.prefix_append _ _).trans inner), lowerBlock_loops hz other⟩
  | loop s c b, _, h, stands => by
    obtain ⟨x, hx, h⟩ := bind_eq_ok h
    obtain ⟨y, hy, h⟩ := bind_eq_ok h
    cases h
    have size := c.lower_extent _ _ hx
    have sizeB := (lowerBlock_shaped hy).size
    rw [size] at hy stands
    rw [sizeB] at stands
    have front := (List.prefix_append _ _).trans stands
    have tested := (List.prefix_append _ _).trans front
    have inner := prefix_drop_right front
    rw [Expr.length_emit hx] at inner
    have test := prefix_drop_right tested
    rw [show x.code.steps.length = c.extent from size] at test
    have closes := prefix_drop_right stands
    have length (i : Instr) : ((x.code.emit i c.span).append y).steps.length =
        c.extent + 1 + blockExtent b := by
      rw [Fragment.append, List.length_append, Expr.length_emit hx]
      exact congrArg (c.extent + 1 + ·) sizeB
    rw [length, ← Nat.add_assoc, ← Nat.add_assoc] at closes
    refine List.forall_mem_cons.2 ⟨⟨?_, ?_, s, getElem?_of_prefix_drop closes⟩,
      lowerBlock_loops hy inner⟩
    · dsimp only
      omega
    · exact ⟨used, x, hx, (List.prefix_append _ _).trans tested, getElem?_of_prefix_drop test⟩
  | ret _ _, _, _, _ => nofun
  | expr _, _, _, _ => nofun

theorem lowerBlock_loops {base used : Nat} : ∀ {b : List Stmt} {f : Fragment},
    lowerBlock base used b = .ok f → f.steps <+: steps.drop base →
      ∀ l ∈ blockLoops base b, l.Stands steps
  | [], _, _, _ => nofun
  | s :: rest, _, h, stands => by
    obtain ⟨x, hx, h⟩ := bind_eq_ok h
    obtain ⟨y, hy, h⟩ := bind_eq_ok h
    cases h
    have size := (lower_shaped hx).size
    have behind := prefix_drop_right stands
    rw [show x.steps.length = s.extent from size] at behind
    rw [size] at hy
    exact List.forall_mem_append.2 ⟨lower_loops hx ((List.prefix_append _ _).trans stands),
      lowerBlock_loops hy behind⟩

end

end Stmt

/-! ## Code in order -/

/-- Slots are written in their order, each once.  A test jumps forward if its condition does not
hold, no jump leads out of the code, and those that lead back are the ends of the loops.  What is
returned is in a slot, and the last instruction returns. -/
structure Code.Ordered (code : Code) (loops : List Loop) : Prop where
  slots : results code.steps = List.range' 1 (results code.steps).length
  tests : ∀ i t value expected span, code.steps[i]? = some ⟨.gotoIf t value expected, span⟩ →
    expected = false ∧ i < t ∧ t < code.size
  gotos : ∀ i t span, code.steps[i]? = some ⟨.goto t, span⟩ →
    t < code.size ∧ (t ≤ i ↔ ∃ l ∈ loops, l.first = t ∧ l.last = i)
  stands : ∀ l ∈ loops, l.Stands code.steps
  returns : ∀ step ∈ code.steps, step.instr ≠ .ret none
  last : ∃ value span, code.steps.getLast? = some ⟨.ret (some value), span⟩

theorem Instr.ret_of_isPlain {i : Instr} (plain : i.isPlain = true) (returns : i.isReturn = true) :
    ∃ value, i = .ret (some value) := by
  cases i with
  | ret value =>
    cases value with
    | none => cases plain
    | some value => exact ⟨value, rfl⟩
  | _ => cases returns

/-- The code of statements is in order if no jump leads to its end, where it returns. -/
theorem Stmt.lowerBlock_ordered {b : List Stmt} {f : Fragment} {code : Code}
    (h : lowerBlock 0 0 b = .ok f) (same : f.steps = code.steps)
    (targets : ∀ j ∈ blockJumps 0 b, j.target ≠ code.size)
    (last : code.steps.getLast?.any (·.instr.isReturn) = true) :
    code.Ordered (blockLoops 0 b) := by
  have shaped := lowerBlock_shaped h
  have size : blockExtent b = code.size := by
    rw [← shaped.size, Fragment.size, same, Code.size]
  have stands : ∀ l ∈ blockLoops 0 b, l.Stands code.steps :=
    lowerBlock_loops h (same ▸ List.prefix_rfl)
  have plain := shaped.plain
  have jump {i t : Nat} {tests : Bool} {step : Step} (found : code.steps[i]? = some step)
      (jumps : step.instr.jump? i = some ⟨i, tests, t⟩) :
      t < code.size ∧ (i < t ∨ tests = false ∧ ∃ l ∈ blockLoops 0 b, l.first = t ∧ l.last = i) := by
    have mem : ⟨i, tests, t⟩ ∈ blockJumps 0 b :=
      shaped.jumps ▸ mem_jumpsOf.2 ⟨i, step, same ▸ found, jumps⟩
    have within := blockJumps_within 0 b _ mem
    rw [Nat.zero_add, size] at within
    exact ⟨Nat.lt_of_le_of_ne within.target.2 (targets _ mem), within.forward⟩
  rw [same] at plain
  refine ⟨?_, fun i t value expected span found => ?_, fun i t span found => ?_, stands,
    fun step hs none_ => ?_, ?_⟩
  · rw [← same, lowerBlock_results h, List.length_range']
  · have mine := plain _ (List.mem_of_getElem? found)
    obtain ⟨inside, forward | ⟨⟨⟩, -⟩⟩ := jump found rfl
    exact ⟨by simpa [Instr.isPlain] using mine, forward, inside⟩
  · obtain ⟨inside, forward⟩ := jump found rfl
    refine ⟨inside, fun back => (forward.resolve_left (Nat.not_lt.2 back)).2, ?_⟩
    rintro ⟨l, hl, rfl, rfl⟩
    exact (stands l hl).order.le
  · have mine := plain step hs
    rw [none_] at mine
    cases mine
  · cases found : code.steps.getLast? with
    | none => rw [found] at last; cases last
    | some step =>
      rw [found] at last
      obtain ⟨value, returns⟩ :=
        Instr.ret_of_isPlain (plain step (List.mem_of_getLast? found)) last
      exact ⟨value, step.span, by rw [← returns]⟩

/-- A return at the end adds neither jumps nor loops. -/
theorem Stmt.blockJumps_snoc_ret (base : Nat) (b : List Stmt) (s : Span) (v : Option Expr) :
    blockJumps base (b ++ [.ret s v]) = blockJumps base b ∧
      blockLoops base (b ++ [.ret s v]) = blockLoops base b := by
  induction b generalizing base with
  | nil => exact ⟨rfl, rfl⟩
  | cons s rest ih => simp [blockJumps, blockLoops, ih]

theorem FunctionDecl.toCode_ordered {f : FunctionDecl} {code : Code} (h : f.toCode = .ok code) :
    code.Ordered (Stmt.blockLoops 0 f.body) := by
  obtain ⟨g, completed, same⟩ := toCode_steps h
  obtain ⟨body, lowered, h⟩ := bind_eq_ok h
  cases h
  have shaped := Stmt.lowerBlock_shaped lowered
  unfold FunctionDecl.completed at completed
  rw [lowered] at completed
  dsimp only at completed same
  split at completed
  · next closed =>
    rw [if_pos closed] at same ⊢
    obtain ⟨returns, apart⟩ := (Bool.and_eq_true _ _).mp closed
    refine Stmt.lowerBlock_ordered completed same (fun j hj ends => ?_) returns
    rw [← shaped.jumps] at hj
    obtain ⟨i, step, found, jumps⟩ := mem_jumpsOf.1 hj
    have target : step.instr.target? = some j.target := by
      cases instr : step.instr <;> rw [instr] at jumps <;> cases jumps <;> rfl
    have led : (body.steps.any fun step => step.instr.target? == some body.size) = true :=
      List.any_eq_true.2 ⟨step, List.mem_of_getElem? found, by
        rw [target, ends]
        exact beq_self_eq_true _⟩
    rw [led] at apart
    cases apart
  · next opened =>
    rw [if_neg opened] at same ⊢
    obtain ⟨jumps, loops⟩ := Stmt.blockJumps_snoc_ret 0 f.body f.span none
    rw [← loops]
    refine Stmt.lowerBlock_ordered completed same (fun j hj ends => ?_) ?_
    · rw [jumps] at hj
      have within := (Stmt.blockJumps_within 0 f.body j hj).target.2
      rw [ends, Nat.zero_add, ← shaped.size] at within
      have longer : body.size < (Stmt.returnNil body f.span).size := by
        rw [Stmt.returnNil, Fragment.size_emit, Fragment.size_emitResult]
        omega
      exact absurd longer (Nat.not_lt.2 within)
    · simp [Stmt.returnNil, Fragment.emit, Fragment.emitResult, Instr.isReturn]

/-- An expression by itself has no jumps. -/
theorem Expr.toCode_ordered {e : Expr} {code : Code} (h : e.toCode = .ok code) :
    code.Ordered [] ∧ ∀ step ∈ code.steps, step.instr.target? = none := by
  obtain ⟨g, lowered, same⟩ := toCode_steps h
  have jumps : jumpsOf 0 code.steps = [] := same ▸ (Stmt.lowerBlock_shaped lowered).jumps
  obtain ⟨x, -, h⟩ := bind_eq_ok h
  cases h
  refine ⟨Stmt.lowerBlock_ordered lowered same nofun (by simp [Fragment.emit, Instr.isReturn]), ?_⟩
  intro step hs
  obtain ⟨i, found⟩ := List.mem_iff_getElem?.1 hs
  by_contra jumping
  obtain ⟨j, jump⟩ : ∃ j, step.instr.jump? i = some j := by
    cases instr : step.instr <;> rw [instr] at jumping <;>
      first | exact ⟨_, rfl⟩ | exact absurd rfl jumping
  have mem := mem_jumpsOf.2 ⟨i, step, found, jump⟩
  rw [jumps] at mem
  cases mem

/-! ## Paths through code in order -/

/-- However the code is resolved, each path is at an instruction wherever it comes to, and never at
one that returns without a slot; so what was computed last is never asked for.  Each path ends where
it comes back to an instruction, or by returning what is in a slot. -/
def Code.Contained (code : Code) : Prop :=
  ∀ (invoke : Invoke) (ctx : Context) (scope : Scope) (locals : List (String × Value)) (m : Memory),
    let r := ((Analysis.resolve invoke ctx code scope locals).run m).1
    ∃ s₀, Gives (openRoot scope locals) (.empty, m) () s₀ ∧
      (∀ ctx' k i s,
        Leads invoke code.steps.toArray (.path ctx 0 0) s₀ (.path ctx' k i) s →
          ∃ step, code.steps[i]? = some step ∧ step.instr ≠ .ret none) ∧
      ∀ e ∈ r.terminals, ∃ b, r.arena.branch? e = some b ∧
        (b.termination = some .loopCutoff ∨ b.termination = some .return_ ∧
          ∃ ctx' i s value span,
            Leads invoke code.steps.toArray (.path ctx 0 0) s₀ (.path ctx' e i) s ∧
              code.steps[i]? = some ⟨.ret (some value), span⟩)

/-- The paths of the task begin at one of the first `n` instructions. -/
def Task.Inside (n : Nat) : Task → Prop
  | path _ _ index => index < n
  | all _ starts => ∀ start ∈ starts, start.2 < n
  | each _ _ _ _ index => index < n

namespace Code.Ordered

variable {code : Code} {loops : List Loop}

theorem nonempty (h : code.Ordered loops) : 0 < code.size := by
  obtain ⟨value, span, last⟩ := h.last
  exact List.length_pos_of_mem (List.mem_of_getLast? last)

/-- Control stays inside the code. -/
theorem successor_lt (h : code.Ordered loops) {i t : Nat} {step : Step}
    (found : code.steps[i]? = some step) (next : t ∈ step.instr.successors i) : t < code.size := by
  obtain ⟨instr, span⟩ := step
  have inside : i < code.size := (List.getElem?_eq_some_iff.1 found).1
  have after (stays : instr.isReturn = false) : i + 1 < code.size := by
    refine Nat.lt_of_le_of_ne inside fun ends => ?_
    obtain ⟨value, span', last⟩ := h.last
    rw [List.getLast?_eq_getElem?, ← show code.size = code.steps.length from rfl, ← ends,
      Nat.add_sub_cancel] at last
    cases found.symm.trans last
    cases stays
  cases instr with
  | goto target =>
    obtain rfl := List.mem_singleton.1 next
    exact (h.gotos i t span found).1
  | gotoIf target value expected =>
    rcases List.mem_pair.1 next with rfl | rfl
    · exact after rfl
    · exact (h.tests i t value expected span found).2.2
  | ret value => cases next
  | _ => exact List.mem_singleton.1 next ▸ after rfl

/-- The step: a path that goes on goes on inside the code. -/
theorem step_inside (h : code.Ordered loops) {invoke : Invoke} {ctx : Context} {id index : Nat}
    {next : Next} {task : Task} {s s' : State} (stands : id < s.1.size)
    (done : Gives (step invoke ctx code.steps.toArray id index) s next s')
    (goes : next.task? ctx id = some task) : task.Inside code.size := by
  obtain ⟨step, found, follows⟩ := step_follows stands done goes
  rw [List.getElem?_toArray] at found
  have inside {t : Nat} (ht : t ∈ step.instr.onward ctx.options.forkMode index) : t < code.size :=
    h.successor_lt found (Instr.mem_successors_of_onward ht)
  cases next with
  | next target => cases goes; exact inside follows
  | stop t v => cases goes
  | split starts => cases goes; exact fun start hs => inside (follows start hs)
  | spread slot values target => cases goes; exact inside follows

/-- The run: so it is wherever a walk comes to. -/
theorem leads_inside (h : code.Ordered loops) {invoke : Invoke} {task task' : Task} {s s' : State}
    (leads : Leads invoke code.steps.toArray task s task' s') (unsplit : task.Unsplit 1 s.1)
    (inside : task.Inside code.size) : task'.Inside code.size := by
  induction leads with
  | here => exact inside
  | onward done goes _ ih =>
    exact ih (step_unsplit unsplit done goes) (h.step_inside unsplit.stands done goes)
  | first _ ih => exact ih unsplit.first (inside _ List.mem_cons_self)
  | later before _ ih =>
    exact ih (unsplit.rest before) fun start hs => inside start (List.mem_cons_of_mem _ hs)
  | eachFirst bound _ ih => exact ih (unsplit.eachFirst bound) inside
  | eachLater bound before _ ih => exact ih (unsplit.eachLater bound before) inside

theorem contained (h : code.Ordered loops) : code.Contained := by
  intro invoke ctx scope locals m r
  obtain ⟨s₀, ends, s', opened, walks, run⟩ := resolve_walks invoke ctx code scope locals m
  have arena : r.arena = s'.1 := congrArg (·.1.arena) run
  have terminals : r.terminals = ends := congrArg (·.1.terminals) run
  have unsplit : (Task.path ctx 0 0).Unsplit 1 s₀.1 := unsplit_openRoot opened
  have begun : (Task.path ctx 0 0).Records [] s₀.1 := openRoot_records opened
  have at_ {ctx' : Context} {k i : Nat} {s : State}
      (leads : Leads invoke code.steps.toArray (.path ctx 0 0) s₀ (.path ctx' k i) s) :
      ∃ step, code.steps[i]? = some step := by
    have inside : i < code.size := h.leads_inside leads unsplit h.nonempty
    exact ⟨_, List.getElem?_eq_getElem inside⟩
  rw [arena, terminals]
  refine ⟨s₀, opened, fun ctx' k i s leads => ?_, fun e ended => ?_⟩
  · obtain ⟨step, found⟩ := at_ leads
    exact ⟨step, found, h.returns step (List.mem_of_getElem? found)⟩
  · obtain ⟨trace, ctx', i, s, t, v, s₁, course, stops⟩ := Course.exists_stop .here walks ended
    obtain ⟨-, b, found, ended⟩ := course.ends walks unsplit begun stops
    refine ⟨b, found, ?_⟩
    obtain ⟨⟨instr, span⟩, there⟩ := at_ course.leads
    have inside : i < code.size := (List.getElem?_eq_some_iff.1 there).1
    cases ended with
    | refused cut _ _ => exact .inl cut
    | left _ outside _ => exact absurd inside (Nat.not_lt.2 outside)
    | returned returns _ new _ =>
      refine .inr ⟨returns, ctx', i, s, ?_⟩
      cases step_recounts (course.records unsplit begun).2 stops with
      | leaves outside => exact absurd inside (Nat.not_lt.2 outside)
      | refuses _ again _ => exact absurd again new
      | executes found' _ _ _ follows =>
        rw [List.getElem?_toArray, there] at found'
        cases found'
        have slotted := h.returns _ (List.mem_of_getElem? there)
        cases instr with
        | ret value =>
          cases value with
          | none => exact absurd rfl slotted
          | some value => exact ⟨value, span, course.leads, there⟩
        | _ => cases follows.2

end Code.Ordered

/-- The code of a body is in order, with the loops of the body, and that of an expression is in
order and has no jumps.  Neither is ever left by its end, nor returns what was computed last. -/
theorem lowered_in_order :
    (∀ (f : FunctionDecl) (code : Code), f.toCode = .ok code →
      code.Ordered (Stmt.blockLoops 0 f.body) ∧ code.Contained) ∧
    ∀ (e : Expr) (code : Code), e.toCode = .ok code →
      code.Ordered [] ∧ (∀ step ∈ code.steps, step.instr.target? = none) ∧ code.Contained := by
  constructor
  · intro f code lowered
    have ordered := FunctionDecl.toCode_ordered lowered
    exact ⟨ordered, ordered.contained⟩
  · intro e code lowered
    obtain ⟨ordered, straight⟩ := Expr.toCode_ordered lowered
    exact ⟨ordered, straight, ordered.contained⟩

/-- A loop in a conditional in a loop, with a block that ends in a return. -/
def nestedText : String := "
  fn f(n) \x7b
    while n \x7b
      if n > 1 \x7b return n \x7d else \x7b while f(n) \x7b n = n - 1 \x7d \x7d
    \x7d
  \x7d
"

/-- The function, and its code. -/
def nestedDecl : FunctionDecl :=
  ((SymbolTable.ofModule ((Module.ofText nestedText).toOption.getD default).1).1.method 0).decl

def nestedCode : Code := nestedDecl.toCode.toOption.getD default

theorem lowered_in_order_nested :
    nestedDecl.toCode = .ok nestedCode ∧ nestedCode.size = 21 ∧
      (Stmt.blockLoops 0 nestedDecl.body).map (fun l => (l.first, l.last)) = [(0, 18), (9, 17)] ∧
      nestedCode.Ordered (Stmt.blockLoops 0 nestedDecl.body) ∧ nestedCode.Contained ∧
      (∃ code : Code, (Expr.literal .absent .nil).toCode = .ok code ∧ code.Ordered []) := by
  obtain ⟨lowers, size, loops⟩ : nestedDecl.toCode.toOption.isSome = true ∧
      nestedCode.size = 21 ∧
      (Stmt.blockLoops 0 nestedDecl.body).map (fun l => (l.first, l.last)) =
        [(0, 18), (9, 17)] := by
    decide +kernel
  have lowered : nestedDecl.toCode = .ok nestedCode := eq_ok_of_isSome lowers
  obtain ⟨ordered, contained⟩ := lowered_in_order.1 _ _ lowered
  exact ⟨lowered, size, loops, ordered, contained, _, rfl,
    (lowered_in_order.2 (.literal .absent .nil) _ rfl).1⟩

end PathTyping
