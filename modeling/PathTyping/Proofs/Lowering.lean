import PathTyping.Proofs.Execution

/-!
# Code does what its body does

Wherever the code of an expression or of a statement stands in a longer piece of code, running it
there performs what the tree performs, in the same order and on the same operands.

1. Expressions run straight through (`arrives_lower`): the value is left in the slot that lowering
   names, and no slot that was in use before is written.
2. Statements (`follows_lower`) leave their block as their code leaves its place: by its end, by
   a return, or, if a loop has used up its bound, after at least that many instructions.
3. The code of a function comes to what its body comes to (`reaches_toCode`), so that both end
   alike (`toCode_preserves`).  Code without the return of nil behind it cannot be left by its end
   (`index_ne_size`).
-/

namespace PathTyping

open Stage

variable {ν σ : Type}

/-- `seg` stands in `steps` from index `base` on. -/
def Stands (steps : List Step) (base : Nat) (seg : List Step) : Prop :=
  ∀ i s, seg[i]? = some s → steps[base + i]? = some s

namespace Stands

theorem self (steps : List Step) : Stands steps 0 steps := fun i s h => by rwa [Nat.zero_add]

variable {steps : List Step} {base : Nat} {seg rest : List Step}

theorem left (h : Stands steps base (seg ++ rest)) : Stands steps base seg := fun i s hi => by
  refine h i s ?_
  rw [List.getElem?_append_left (List.getElem?_eq_some_iff.1 hi).1, hi]

theorem right (h : Stands steps base (seg ++ rest)) :
    Stands steps (base + seg.length) rest := fun i s hi => by
  have := h (seg.length + i) s (by rw [List.getElem?_append_right (by omega)]; simpa using hi)
  rwa [Nat.add_assoc]

theorem head {s : Step} (h : Stands steps base (s :: rest)) : steps[base]? = some s :=
  h 0 s rfl

theorem last {f : Fragment} {instr : Instr} {span : Span}
    (h : Stands steps base (f.emit instr span).steps) :
    steps[base + f.size]? = some ⟨instr, span⟩ := h.right.head

theorem behind_append {f g : Fragment} (h : Stands steps base (f.append g).steps) :
    Stands steps (base + f.size) g.steps := h.right

theorem at_ {place : Nat} (h : Stands steps base seg) (same : base = place) :
    Stands steps place seg := same ▸ h

theorem behind_emit {f g : Fragment} {instr : Instr} {span : Span}
    (h : Stands steps base ((f.emit instr span).append g).steps) :
    Stands steps (base + f.size + 1) g.steps := by
  have := h.behind_append
  rwa [Fragment.size_emit, ← Nat.add_assoc] at this

end Stands

/-! ## Runs -/

/-- From `a` the code comes to `b` in `count` instructions. -/
def Reaches (I : Interpretation ν σ) (steps : List Step) (count : Nat)
    (a b : Stage ν × World ν σ) : Prop :=
  (run I steps count a.1).run a.2 = b

namespace Reaches

variable {I : Interpretation ν σ} {steps : List Step}

theorem refl (a : Stage ν × World ν σ) : Reaches I steps 0 a a := rfl

theorem trans {m n : Nat} {a b c : Stage ν × World ν σ} (h : Reaches I steps m a b)
    (h' : Reaches I steps n b c) : Reaches I steps (m + n) a c := by
  unfold Reaches at *
  rw [run_add, StateT.run_bind, h]
  exact h'

theorem execute {c : Frame ν} {s : Step} (h : steps[c.index]? = some s) (w : World ν σ) :
    Reaches I steps 1 (running c, w) ((Stage.execute I c s.instr).run w) := by
  unfold Reaches
  rw [run_succ, h]
  rfl

/-- A run that has ended stays where it is. -/
theorem stays {m n : Nat} {a : Stage ν × World ν σ} {stage : Stage ν} {w : World ν σ}
    (h : Reaches I steps m a (stage, w)) (ended : ∀ c, stage ≠ running c) (hle : m ≤ n) :
    Reaches I steps n a (stage, w) := by
  obtain ⟨k, rfl⟩ := Nat.exists_eq_add_of_le hle
  refine h.trans ?_
  cases stage with
  | running c => exact absurd rfl (ended c)
  | returned v => exact congrArg (StateT.run · w) (run_returned ..)
  | stuck => exact congrArg (StateT.run · w) (run_stuck ..)

end Reaches

/-! ## Expressions -/

theorem bind_eq_ok {ε α β : Type} {x : Except ε α} {f : α → Except ε β} {b : β}
    (h : x >>= f = .ok b) : ∃ a, x = .ok a ∧ f a = .ok b := by
  cases x with
  | error e => cases h
  | ok a => exact ⟨a, rfl, h⟩

/-- From `c` on, `code` comes to its end in the world `w'`, where `P` holds of the slots, and leaves
alone the slots that were in use. -/
def Arrives (I : Interpretation ν σ) (steps : List Step) (c : Frame ν) (w : World ν σ)
    (used : Nat) (code : Fragment) (w' : World ν σ) (P : (Slot → Option ν) → Prop) : Prop :=
  ∃ n c', Reaches I steps n (running c, w) (running c', w') ∧
    c'.index = c.index + code.size ∧ P c'.slots ∧ ∀ s ≤ used, c'.slots s = c.slots s

namespace Expr

theorem lower_assign_eq_ok {used : Nat} {s : Span} {t v : Expr} {x : ExprCode}
    (h : lower used (assign s t v) = .ok x) :
    ∃ ts n y, t = name ts n ∧ v.lower used = .ok y ∧
      x = ⟨(y.code.emit (.store n y.value) s).record s y.value, y.value⟩ := by
  cases t with
  | name ts n =>
    obtain ⟨y, hy, h⟩ := bind_eq_ok h
    exact ⟨ts, n, y, rfl, hy, (Except.ok.inj h).symm⟩
  | _ => cases h

mutual

/-- The slots behind the code of an expression include that of its value. -/
theorem lower_used {used : Nat} : ∀ {e : Expr} {x : ExprCode}, e.lower used = .ok x →
    used ≤ x.code.used ∧ x.value ≤ x.code.used
  | literal _ _, _, h => by cases h; exact ⟨Nat.le_succ _, Nat.le_refl _⟩
  | name _ _, _, h => by cases h; exact ⟨Nat.le_succ _, Nat.le_refl _⟩
  | self _, _, h => by cases h; exact ⟨Nat.le_succ _, Nat.le_refl _⟩
  | unary _ _ _, _, h => by
    obtain ⟨y, hy, h⟩ := bind_eq_ok h
    cases h
    exact ⟨Nat.le_succ_of_le (lower_used hy).1, Nat.le_refl _⟩
  | binary _ _ _ _, _, h => by
    obtain ⟨y, hy, h⟩ := bind_eq_ok h
    obtain ⟨z, hz, h⟩ := bind_eq_ok h
    cases h
    have taken := Nat.le_trans (lower_used hy).1 (lower_used hz).1
    exact ⟨Nat.le_succ_of_le taken, Nat.le_refl _⟩
  | assign _ _ _, _, h => by
    obtain ⟨_, _, y, _, hy, rfl⟩ := lower_assign_eq_ok h
    have taken := lower_used hy
    exact taken
  | call _ _ _, _, h => by
    obtain ⟨y, hy, h⟩ := bind_eq_ok h
    obtain ⟨z, hz, h⟩ := bind_eq_ok h
    cases h
    have taken := Nat.le_trans (lower_used hy).1 (lowerList_used hz).1
    exact ⟨Nat.le_succ_of_le taken, Nat.le_refl _⟩
  | member _ _ _ _, _, h => by
    obtain ⟨y, hy, h⟩ := bind_eq_ok h
    cases h
    exact ⟨Nat.le_succ_of_le (lower_used hy).1, Nat.le_refl _⟩
  | index _ _ _, _, h => by
    obtain ⟨y, hy, h⟩ := bind_eq_ok h
    obtain ⟨z, hz, h⟩ := bind_eq_ok h
    cases h
    have taken := Nat.le_trans (lower_used hy).1 (lower_used hz).1
    exact ⟨Nat.le_succ_of_le taken, Nat.le_refl _⟩
  | group _ _, _, h => by
    obtain ⟨y, hy, h⟩ := bind_eq_ok h
    cases h
    have taken := lower_used hy
    exact taken

theorem lowerList_used {used : Nat} : ∀ {es : List Expr} {r : Fragment × List Slot},
    lowerList used es = .ok r → used ≤ r.1.used ∧ ∀ s ∈ r.2, s ≤ r.1.used
  | [], _, h => by cases h; exact ⟨Nat.le_refl _, by simp⟩
  | _ :: _, _, h => by
    obtain ⟨y, hy, h⟩ := bind_eq_ok h
    obtain ⟨z, hz, h⟩ := bind_eq_ok h
    cases h
    have first := lower_used hy
    have others := lowerList_used hz
    refine ⟨Nat.le_trans first.1 others.1, fun s hs => ?_⟩
    rcases List.mem_cons.1 hs with rfl | hs
    · exact Nat.le_trans first.2 others.1
    · exact others.2 s hs

end

end Expr

namespace Arrives

variable {I : Interpretation ν σ} {steps : List Step} {c : Frame ν} {w w' : World ν σ}
  {used : Nat} {P Q : (Slot → Option ν) → Prop}

theorem start (c : Frame ν) (w : World ν σ) (used : Nat) (h : P c.slots) :
    Arrives I steps c w used (.start used) w P := ⟨0, c, .refl _, rfl, h, fun _ _ => rfl⟩

theorem append {f g : Fragment} {w'' : World ν σ} (first : Arrives I steps c w used f w' P)
    (bound : used ≤ f.used)
    (local_ : ∀ a b : Slot → Option ν, (∀ s ≤ f.used, b s = a s) → P a → P b)
    (second : ∀ c' : Frame ν, c'.index = c.index + f.size →
      Arrives I steps c' w' f.used g w'' Q) :
    Arrives I steps c w used (f.append g) w'' (fun slots => P slots ∧ Q slots) := by
  obtain ⟨m, c₁, reach₁, index₁, holds₁, kept₁⟩ := first
  obtain ⟨n, c₂, reach₂, index₂, holds₂, kept₂⟩ := second c₁ index₁
  refine ⟨m + n, c₂, reach₁.trans reach₂, ?_, ⟨local_ _ _ kept₂ holds₁, holds₂⟩, fun s hs => ?_⟩
  · rw [index₂, index₁, Fragment.size_append, Nat.add_assoc]
  · rw [kept₂ s (Nat.le_trans hs bound), kept₁ s hs]

/-- Behind its operands an instruction computes a value into the next slot. -/
theorem compute {f : Fragment} {instr : Slot → Instr} {span : Span} {e : Effect ν σ ν}
    (operands : Arrives I steps c w used f w' P) (bound : used ≤ f.used)
    (stands : Stands steps c.index (ExprCode.compute f instr span).code.steps)
    (does : ∀ c' : Frame ν, P c'.slots →
      Stage.execute I c' (instr (f.used + 1)) = computing c' (f.used + 1) e) :
    Arrives I steps c w used (ExprCode.compute f instr span).code (e.run w').2
      (fun slots => slots (f.used + 1) = some (e.run w').1) := by
  obtain ⟨n, c', reach, index, holds, kept⟩ := operands
  have at_end : steps[c'.index]? = some ⟨instr (f.used + 1), span⟩ := by
    rw [index]; exact stands.right.head
  have done := Reaches.execute (I := I) at_end w'
  rw [does c' holds] at done
  refine ⟨n + 1, _, reach.trans done, ?_, Frame.slots_write_self .., fun s hs => ?_⟩
  · simp [index, ExprCode.compute, Nat.add_assoc]
  · have apart : s ≠ f.used + 1 := by omega
    rw [Frame.slots_write_of_ne _ _ apart]
    exact kept s hs

end Arrives

namespace Expr

variable {I : Interpretation ν σ} {steps : List Step}

mutual

/-- The code of an expression evaluates it. -/
theorem arrives_lower {used : Nat} : ∀ {e : Expr} {x : ExprCode}, e.lower used = .ok x →
    ∀ (c : Frame ν) (w : World ν σ), Stands steps c.index x.code.steps →
      Arrives I steps c w used x.code ((e.eval I).run w).2
        (fun slots => slots x.value = some ((e.eval I).run w).1)
  | literal _ _, _, h, c, w, hs => by
    cases h
    exact (Arrives.start c w used trivial).compute (P := fun _ => True) (Nat.le_refl _) hs
      fun _ _ => rfl
  | name _ _, _, h, c, w, hs => by
    cases h
    exact (Arrives.start c w used trivial).compute (P := fun _ => True) (Nat.le_refl _) hs
      fun _ _ => rfl
  | self _, _, h, c, w, hs => by
    cases h
    exact (Arrives.start c w used trivial).compute (P := fun _ => True) (Nat.le_refl _) hs
      fun _ _ => rfl
  | unary _ op x, _, h, c, w, hs => by
    obtain ⟨y, hy, h⟩ := bind_eq_ok h
    cases h
    refine (arrives_lower hy c w hs.left).compute
      (e := I.perform (.unary op ((x.eval I).run w).1)) (lower_used hy).1 hs fun c' hx => ?_
    simp only [Stage.execute, reading, hx]
  | binary _ op l r, _, h, c, w, hs => by
    obtain ⟨y, hy, h⟩ := bind_eq_ok h
    obtain ⟨z, hz, h⟩ := bind_eq_ok h
    cases h
    have left := arrives_lower hy c w hs.left.left
    have right (c' : Frame ν) (hc : c'.index = c.index + y.code.size) :=
      arrives_lower hz c' ((l.eval I).run w).2 (hc ▸ hs.left.right)
    have taken := lower_used hy
    have both := left.append taken.1 (fun a b agree => (agree _ taken.2).trans) right
    refine both.compute
      (e := I.perform (.binary ((l.eval I).run w).1 op ((r.eval I).run ((l.eval I).run w).2).1))
      (Nat.le_trans taken.1 (lower_used hz).1) hs fun c' hx => ?_
    simp only [Stage.execute, reading, hx.1, hx.2]
  | assign _ _ v, _, h, c, w, hs => by
    obtain ⟨_, n, y, rfl, hy, rfl⟩ := lower_assign_eq_ok h
    obtain ⟨count, c', reach, index, found, kept⟩ := arrives_lower hy c w hs.left
    have at_end : steps[c'.index]? = some ⟨.store n y.value, _⟩ := index ▸ hs.last
    have done := Reaches.execute (I := I) at_end ((v.eval I).run w).2
    simp only [Stage.execute, reading, found] at done
    refine ⟨count + 1, c'.next, reach.trans done, ?_, found, kept⟩
    simp [index, Nat.add_assoc]
  | call _ f args, _, h, c, w, hs => by
    obtain ⟨y, hy, h⟩ := bind_eq_ok h
    obtain ⟨⟨code, values⟩, hz, h⟩ := bind_eq_ok h
    cases h
    have callee := arrives_lower hy c w hs.left.left
    have operands (c' : Frame ν) (hc : c'.index = c.index + y.code.size) :=
      arrives_lowerList hz c' ((f.eval I).run w).2 (hc ▸ hs.left.right)
    have taken := lower_used hy
    have both := callee.append taken.1 (fun a b agree => (agree _ taken.2).trans) operands
    refine both.compute
      (e := I.perform (.call ((f.eval I).run w).1
        ((evalList I args).run ((f.eval I).run w).2).1))
      (Nat.le_trans taken.1 (lowerList_used hz).1) hs fun c' hx => ?_
    simp only [Stage.execute, reading, hx.1, hx.2]
  | member _ o n _, _, h, c, w, hs => by
    obtain ⟨y, hy, h⟩ := bind_eq_ok h
    cases h
    refine (arrives_lower hy c w hs.left).compute
      (e := I.perform (.member ((o.eval I).run w).1 n)) (lower_used hy).1 hs fun c' hx => ?_
    simp only [Stage.execute, reading, hx]
  | index _ o i, _, h, c, w, hs => by
    obtain ⟨y, hy, h⟩ := bind_eq_ok h
    obtain ⟨z, hz, h⟩ := bind_eq_ok h
    cases h
    have left := arrives_lower hy c w hs.left.left
    have right (c' : Frame ν) (hc : c'.index = c.index + y.code.size) :=
      arrives_lower hz c' ((o.eval I).run w).2 (hc ▸ hs.left.right)
    have taken := lower_used hy
    have both := left.append taken.1 (fun a b agree => (agree _ taken.2).trans) right
    refine both.compute
      (e := I.perform (.index ((o.eval I).run w).1 ((i.eval I).run ((o.eval I).run w).2).1))
      (Nat.le_trans taken.1 (lower_used hz).1) hs fun c' hx => ?_
    simp only [Stage.execute, reading, hx.1, hx.2]
  | group _ _, _, h, c, w, hs => by
    obtain ⟨y, hy, h⟩ := bind_eq_ok h
    cases h
    exact arrives_lower hy c w hs

theorem arrives_lowerList {used : Nat} : ∀ {es : List Expr} {r : Fragment × List Slot},
    lowerList used es = .ok r →
    ∀ (c : Frame ν) (w : World ν σ), Stands steps c.index r.1.steps →
      Arrives I steps c w used r.1 ((evalList I es).run w).2
        (fun slots => r.2.mapM slots = some ((evalList I es).run w).1)
  | [], _, h, c, w, _ => by cases h; exact .start c w used rfl
  | e :: _, _, h, c, w, hs => by
    obtain ⟨y, hy, h⟩ := bind_eq_ok h
    obtain ⟨⟨code, values⟩, hz, h⟩ := bind_eq_ok h
    cases h
    have first := arrives_lower hy c w hs.left
    have others (c' : Frame ν) (hc : c'.index = c.index + y.code.size) :=
      arrives_lowerList hz c' ((e.eval I).run w).2 (hc ▸ hs.right)
    have taken := lower_used hy
    have both := first.append taken.1 (fun a b agree => (agree _ taken.2).trans) others
    obtain ⟨n, c', reach, index, ⟨hx, hxs⟩, kept⟩ := both
    refine ⟨n, c', reach, index, ?_, kept⟩
    simp only [List.mapM_cons, hx, hxs]
    rfl

end

end Expr

/-! ## Statements -/

/-- From `c` on, the code leaves the place of a block as `result` leaves the block: at index `exit`,
by a return, or not within `bound` instructions. -/
def Follows (I : Interpretation ν σ) (steps : List Step) (c : Frame ν) (w : World ν σ)
    (bound exit : Nat) : Flow ν × World ν σ → Prop
  | (.onward, w') => ∃ n c', Reaches I steps n (running c, w) (running c', w') ∧ c'.index = exit
  | (.returned v, w') => ∃ n, Reaches I steps n (running c, w) (returned v, w')
  | (.unfinished, w') => ∃ n c', bound ≤ n ∧ Reaches I steps n (running c, w) (running c', w')

namespace Follows

variable {I : Interpretation ν σ} {steps : List Step} {c c' : Frame ν} {w w' : World ν σ}
  {bound exit : Nat} {result : Flow ν × World ν σ}

theorem onward {n : Nat} (h : Reaches I steps n (running c, w) (running c', w'))
    (index : c'.index = exit) : Follows I steps c w bound exit (.onward, w') := ⟨n, c', h, index⟩

/-- What comes before a block adds to the instructions that are run. -/
theorem after {n : Nat} (h : Reaches I steps n (running c, w) (running c', w'))
    (follows : Follows I steps c' w' bound exit result) :
    Follows I steps c w (bound + n) exit result := by
  obtain ⟨flow, _⟩ := result
  cases flow with
  | onward =>
    obtain ⟨m, d, reach, index⟩ := follows
    exact ⟨n + m, d, h.trans reach, index⟩
  | returned v =>
    obtain ⟨m, reach⟩ := follows
    exact ⟨n + m, h.trans reach⟩
  | unfinished =>
    obtain ⟨m, d, long, reach⟩ := follows
    exact ⟨n + m, d, by omega, h.trans reach⟩

theorem mono {less : Nat} (h : less ≤ bound) (follows : Follows I steps c w bound exit result) :
    Follows I steps c w less exit result := by
  obtain ⟨flow, _⟩ := result
  cases flow with
  | onward => exact follows
  | returned v => exact follows
  | unfinished =>
    obtain ⟨n, d, long, reach⟩ := follows
    exact ⟨n, d, Nat.le_trans h long, reach⟩

theorem reach {n : Nat} (h : Reaches I steps n (running c, w) (running c', w'))
    (follows : Follows I steps c' w' bound exit result) :
    Follows I steps c w bound exit result := (follows.after h).mono (Nat.le_add_right _ _)

/-- Where a block ends says nothing of a block that is not left there. -/
theorem elsewhere (flow : Flow ν) (left : flow ≠ .onward) {other : Nat}
    (follows : Follows I steps c w bound exit (flow, w')) :
    Follows I steps c w bound other (flow, w') := by
  cases flow with
  | onward => exact absurd rfl left
  | returned v => exact follows
  | unfinished => exact follows

end Follows

namespace Stmt

variable {I : Interpretation ν σ} {steps : List Step}

/-- Behind the code of an expression its value is stored. -/
theorem reaches_store {e : Expr} {used : Nat} {x : ExprCode} (h : e.lower used = .ok x)
    {c : Frame ν} {w : World ν σ} {name : String} {span : Span}
    (hs : Stands steps c.index (x.code.emit (.store name x.value) span).steps) :
    ∃ n c', Reaches I steps n (running c, w) (running c',
      ((do let v ← e.eval I; I.perform (.store name v) : Effect ν σ Unit).run w).2) ∧
      c'.index = c.index + x.code.size + 1 := by
  obtain ⟨n, c', reach, index, found, -⟩ := e.arrives_lower (I := I) h c w hs.left
  have at_end : steps[c'.index]? = some ⟨.store name x.value, span⟩ := index ▸ hs.last
  have done := Reaches.execute (I := I) at_end ((e.eval I).run w).2
  simp only [execute, reading, found] at done
  exact ⟨n + 1, c'.next, reach.trans done, by rw [Frame.index_next, index]⟩

/-- Behind the code of a condition the run goes on behind the jump, or jumps if it is false. -/
theorem reaches_test {e : Expr} {used : Nat} {x : ExprCode} (h : e.lower used = .ok x)
    {c : Frame ν} {w w' : World ν σ} {target : Nat} {span : Span} {b : Bool}
    (hs : Stands steps c.index (x.code.emit (.gotoIf target x.value false) span).steps)
    (test : (e.test I).run w = (b, w')) :
    ∃ n c', Reaches I steps (n + 1) (running c, w) (running c', w') ∧
      c'.index = if b then c.index + x.code.size + 1 else target := by
  obtain ⟨n, c', reach, index, found, -⟩ := e.arrives_lower (I := I) h c w hs.left
  have at_end : steps[c'.index]? = some ⟨.gotoIf target x.value false, span⟩ := index ▸ hs.last
  have done := Reaches.execute (I := I) at_end ((e.eval I).run w).2
  have truth : (I.perform (.truth ((e.eval I).run w).1)).run ((e.eval I).run w).2 = (b, w') := test
  simp only [execute, reading, found, StateT.run_bind, truth] at done
  cases b with
  | true => exact ⟨n, c'.next, reach.trans done, by rw [Frame.index_next, index]; rfl⟩
  | false => exact ⟨n, c'.goto target, reach.trans done, rfl⟩

/-- Behind `f` nil is computed and returned. -/
theorem reaches_returnNil {f : Fragment} {base : Nat} {span : Span} {c : Frame ν}
    (w : World ν σ) (hs : Stands steps base (returnNil f span).steps)
    (hc : c.index = base + f.size) :
    Reaches I steps 2 (running c, w)
      (returned ((I.perform (.const .nil)).run w).1, ((I.perform (.const .nil)).run w).2) := by
  have first : steps[c.index]? = some ⟨.const (f.used + 1) .nil, span⟩ := by
    rw [hc]; exact hs.left.right.head
  have second : steps[c.index + 1]? = some ⟨.ret (some (f.used + 1)), span⟩ := by
    have := hs.last
    rwa [Fragment.size_emitResult, ← Nat.add_assoc, ← hc] at this
  have compute := Reaches.execute (I := I) first w
  have leave := Reaches.execute (I := I)
    (c := c.write (f.used + 1) ((I.perform (.const .nil)).run w).1) second
    ((I.perform (.const .nil)).run w).2
  simp only [execute, Frame.slots_write_self, reading] at leave
  exact compute.trans leave

/-! ### One kind of statement after the other -/

theorem run_execBlock_cons (bound : Nat) (s : Stmt) (rest : List Stmt) (w : World ν σ) :
    (execBlock I bound (s :: rest)).run w =
      match (exec I bound s).run w with
      | (.onward, w') => (execBlock I bound rest).run w'
      | left => left := by
  rw [execBlock, StateT.run_bind]
  rcases (exec I bound s).run w with ⟨flow, w'⟩
  cases flow <;> rfl

theorem run_cond (bound : Nat) (s : Span) (e : Expr) (a : List Stmt) (b : Option (List Stmt))
    (w : World ν σ) :
    (exec I bound (.cond s e a b)).run w =
      match (e.test I).run w with
      | (true, w') => (execBlock I bound a).run w'
      | (false, w') => (b.elim (pure .onward) (execBlock I bound)).run w' := by
  cases b with
  | none =>
    rw [exec, StateT.run_bind]
    rcases (e.test I).run w with ⟨truth, w'⟩
    cases truth <;> rfl
  | some b =>
    rw [exec, StateT.run_bind]
    rcases (e.test I).run w with ⟨truth, w'⟩
    cases truth <;> rfl

theorem run_repeatWhile_succ (condition : Effect ν σ Bool) (body : Effect ν σ (Flow ν))
    (bound : Nat) (w : World ν σ) :
    (repeatWhile condition body (bound + 1)).run w =
      match condition.run w with
      | (false, w') => (.onward, w')
      | (true, w') =>
        match body.run w' with
        | (.onward, w'') => (repeatWhile condition body bound).run w''
        | left => left := by
  rw [repeatWhile, StateT.run_bind]
  rcases condition.run w with ⟨b, w'⟩
  cases b with
  | false => rfl
  | true =>
    show (body >>= _).run w' = _
    rw [StateT.run_bind]
    simp only
    rcases body.run w' with ⟨flow, w''⟩
    cases flow <;> rfl

/-- A loop whose code stands at `base`, where its block is followed wherever it is entered. -/
theorem follows_loop {e : Expr} {used base bound : Nat} {x : ExprCode} {y : Fragment}
    {behind : Nat} {s : Span} (h : e.lower used = .ok x)
    (head : Stands steps base (x.code.emit (.gotoIf behind x.value false) e.span).steps)
    (back : steps[base + x.code.size + 1 + y.size]? = some ⟨.goto base, s⟩)
    {body : Effect ν σ (Flow ν)}
    (inner : ∀ (c : Frame ν) (w : World ν σ), c.index = base + x.code.size + 1 →
      Follows I steps c w bound (base + x.code.size + 1 + y.size) (body.run w)) :
    ∀ rounds ≤ bound, ∀ (c : Frame ν) (w : World ν σ), c.index = base →
      Follows I steps c w rounds behind ((repeatWhile (e.test I) body rounds).run w) := by
  intro rounds
  induction rounds with
  | zero => exact fun _ c w _ => ⟨0, c, Nat.le_refl _, .refl _⟩
  | succ rounds ih =>
    intro hle c w hc
    rcases test : (e.test I).run w with ⟨b, w'⟩
    rw [run_repeatWhile_succ, test]
    obtain ⟨n, c₁, reach₁, index₁⟩ := reaches_test h (hc ▸ head) test
    cases b with
    | false => exact .onward reach₁ index₁
    | true =>
      have round := inner c₁ w' (by rw [index₁, hc]; rfl)
      rcases out : body.run w' with ⟨flow, w''⟩
      rw [out] at round
      simp only [out]
      cases flow with
      | returned v => exact .mono hle (.elsewhere (.returned v) nofun (round.reach reach₁))
      | unfinished => exact .mono hle (.elsewhere .unfinished nofun (round.reach reach₁))
      | onward =>
        obtain ⟨m, c₂, reach₂, index₂⟩ := round
        have jump := Reaches.execute (I := I) (c := c₂) (index₂ ▸ back) w''
        have again := ih (by omega) (c₂.goto base) w'' rfl
        exact (again.after ((reach₁.trans reach₂).trans jump)).mono (by omega)

mutual

/-- The code of a statement is left as the statement leaves its block. -/
theorem follows_lower (bound : Nat) {base used : Nat} : ∀ {s : Stmt} {f : Fragment},
    lower base used s = .ok f → Stands steps base f.steps →
    ∀ (c : Frame ν) (w : World ν σ), c.index = base →
      Follows I steps c w bound (base + f.size) ((exec I bound s).run w)
  | var _ n e, _, h, hs, c, w, hc => by
    obtain ⟨x, hx, h⟩ := bind_eq_ok h
    cases h
    obtain ⟨m, c', reach, index⟩ := reaches_store (I := I) (w := w) hx (hc ▸ hs)
    exact .onward reach (by rw [index, hc, Fragment.size_emit, Nat.add_assoc])
  | cond _ e a none, _, h, hs, c, w, hc => by
    obtain ⟨x, hx, h⟩ := bind_eq_ok h
    obtain ⟨y, hy, h⟩ := bind_eq_ok h
    cases h
    rcases test : (e.test I).run w with ⟨b, w'⟩
    obtain ⟨n, c', reach, index⟩ := reaches_test hx (hc ▸ hs.left) test
    rw [run_cond, test]
    cases b with
    | false => exact .onward reach (by simp [index, hc, Nat.add_assoc])
    | true =>
      have inner := follows_lowerBlock bound hy hs.behind_emit c' w' (by simp [index, hc])
      exact Follows.reach reach (by simpa [Nat.add_assoc] using inner)
  | cond _ e a (some b), _, h, hs, c, w, hc => by
    obtain ⟨x, hx, h⟩ := bind_eq_ok h
    obtain ⟨y, hy, h⟩ := bind_eq_ok h
    obtain ⟨z, hz, h⟩ := bind_eq_ok h
    cases h
    rcases test : (e.test I).run w with ⟨truth, w'⟩
    obtain ⟨n, c', reach, index⟩ := reaches_test hx (hc ▸ hs.left.left) test
    rw [run_cond, test]
    cases truth with
    | false =>
      have other :=
        follows_lowerBlock bound hz (hs.behind_append.at_ (by simp [Nat.add_assoc])) c' w'
        (by simp [index, hc])
      exact Follows.reach reach (by simpa [Nat.add_assoc] using other)
    | true =>
      have inner := follows_lowerBlock bound hy hs.left.behind_emit.left c' w' (by simp [index, hc])
      rcases out : (execBlock I bound a).run w' with ⟨flow, w''⟩
      rw [out] at inner
      simp only [out]
      cases flow with
      | returned v => exact .elsewhere (.returned v) nofun (inner.reach reach)
      | unfinished => exact .elsewhere .unfinished nofun (inner.reach reach)
      | onward =>
        obtain ⟨m, c₁, reach₁, index₁⟩ := inner
        have leave := Reaches.execute (I := I) (c := c₁) (index₁ ▸ hs.left.behind_emit.last) w''
        refine .onward ((reach.trans reach₁).trans leave) ?_
        simp only [Frame.index_goto, Fragment.size_append, Fragment.size_emit]
        omega
  | loop _ e b, _, h, hs, c, w, hc => by
    obtain ⟨x, hx, h⟩ := bind_eq_ok h
    obtain ⟨y, hy, h⟩ := bind_eq_ok h
    cases h
    have back := hs.last
    rw [Fragment.size_append, Fragment.size_emit, ← Nat.add_assoc, ← Nat.add_assoc] at back
    have inner := follows_lowerBlock bound hy hs.left.behind_emit
    have rounds := follows_loop hx hs.left.left back inner bound (Nat.le_refl _) c w hc
    rw [exec]
    simpa [Nat.add_assoc, Nat.add_comm 1] using rounds
  | ret _ (some e), _, h, hs, c, w, hc => by
    obtain ⟨x, hx, h⟩ := bind_eq_ok h
    cases h
    obtain ⟨n, c', reach, index, found, -⟩ := e.arrives_lower (I := I) hx c w (hc ▸ hs.left)
    have at_end := hs.last
    rw [← hc, ← index] at at_end
    have done := Reaches.execute (I := I) at_end ((e.eval I).run w).2
    simp only [execute, reading, found] at done
    exact ⟨n + 1, reach.trans done⟩
  | ret _ none, _, h, hs, c, w, hc => by
    cases h
    exact ⟨2, reaches_returnNil w hs (by simp [hc])⟩
  | expr e, _, h, hs, c, w, hc => by
    obtain ⟨x, hx, h⟩ := bind_eq_ok h
    cases h
    obtain ⟨m, c', reach, index, -, -⟩ := e.arrives_lower (I := I) hx c w (hc ▸ hs)
    exact .onward reach (by rw [index, hc])

theorem follows_lowerBlock (bound : Nat) {base used : Nat} : ∀ {b : List Stmt} {f : Fragment},
    lowerBlock base used b = .ok f → Stands steps base f.steps →
    ∀ (c : Frame ν) (w : World ν σ), c.index = base →
      Follows I steps c w bound (base + f.size) ((execBlock I bound b).run w)
  | [], _, h, _, c, w, hc => by
    cases h
    exact .onward (.refl _) hc
  | s :: rest, _, h, hs, c, w, hc => by
    obtain ⟨x, hx, h⟩ := bind_eq_ok h
    obtain ⟨y, hy, h⟩ := bind_eq_ok h
    cases h
    have first := follows_lower bound hx hs.left c w hc
    rcases out : (exec I bound s).run w with ⟨flow, w'⟩
    rw [out] at first
    rw [run_execBlock_cons, out]
    cases flow with
    | returned v => exact .elsewhere (.returned v) nofun first
    | unfinished => exact .elsewhere .unfinished nofun first
    | onward =>
      obtain ⟨n, c', reach, index⟩ := first
      have others := follows_lowerBlock bound hy hs.right c' w' index
      rw [Fragment.size_append, ← Nat.add_assoc]
      exact others.reach reach

end

end Stmt

/-! ## Functions -/

theorem reading_eq_running {α : Type} {read : Option α} {go : α → Effect ν σ (Stage ν)}
    {c : Frame ν} {w w' : World ν σ} (h : (reading read go).run w = (running c, w')) :
    ∃ a, (go a).run w = (running c, w') := by
  cases read with
  | none => cases h
  | some a => exact ⟨a, h⟩

theorem index_of_computing {c c' : Frame ν} {slot : Slot} {e : Effect ν σ ν}
    {w w' : World ν σ} (h : (computing c slot e).run w = (running c', w')) :
    c'.index = c.index + 1 := by cases h; rfl

/-- An instruction that does not end the run goes on behind itself or at its target. -/
theorem index_of_execute {I : Interpretation ν σ} {c c' : Frame ν} {i : Instr}
    {w w' : World ν σ} (h : (execute I c i).run w = (running c', w')) :
    c'.index = c.index + 1 ∧ i.isReturn = false ∨ i.target? = some c'.index := by
  cases i with
  | const r l => exact .inl ⟨index_of_computing h, rfl⟩
  | unary r op x =>
    obtain ⟨_, h⟩ := reading_eq_running h
    exact .inl ⟨index_of_computing h, rfl⟩
  | binary r x op y =>
    obtain ⟨_, h⟩ := reading_eq_running h
    obtain ⟨_, h⟩ := reading_eq_running h
    exact .inl ⟨index_of_computing h, rfl⟩
  | goto t => cases h; exact .inr rfl
  | gotoIf t x expected =>
    obtain ⟨v, h⟩ := reading_eq_running h
    rcases truth : (I.perform (.truth v)).run w with ⟨b, w₁⟩
    rw [StateT.run_bind, truth] at h
    change (if b = expected then _ else _ : Effect ν σ (Stage ν)).run w₁ = _ at h
    by_cases hb : b = expected
    · rw [if_pos hb] at h
      cases h
      exact .inr rfl
    · rw [if_neg hb] at h
      cases h
      exact .inl ⟨rfl, rfl⟩
  | call r f args =>
    obtain ⟨_, h⟩ := reading_eq_running h
    obtain ⟨_, h⟩ := reading_eq_running h
    exact .inl ⟨index_of_computing h, rfl⟩
  | load r n => exact .inl ⟨index_of_computing h, rfl⟩
  | member r t n =>
    obtain ⟨_, h⟩ := reading_eq_running h
    exact .inl ⟨index_of_computing h, rfl⟩
  | index r t k =>
    obtain ⟨_, h⟩ := reading_eq_running h
    obtain ⟨_, h⟩ := reading_eq_running h
    exact .inl ⟨index_of_computing h, rfl⟩
  | store n x =>
    obtain ⟨_, h⟩ := reading_eq_running h
    cases h
    exact .inl ⟨rfl, rfl⟩
  | ret value =>
    cases value with
    | some x =>
      obtain ⟨_, h⟩ := reading_eq_running h
      cases h
    | none =>
      simp only [execute] at h
      split at h <;> cases h

namespace Fragment

/-- The last instruction of closed code is a return, and no instruction leads behind it. -/
theorem of_isClosed {f : Fragment} (closed : f.isClosed = true) {i : Nat} {s : Step}
    (h : f.steps[i]? = some s) :
    (i + 1 = f.size → s.instr.isReturn = true) ∧ s.instr.target? ≠ some f.size := by
  simp only [isClosed, Bool.and_eq_true, Bool.not_eq_true', List.any_eq_false] at closed
  refine ⟨fun last => ?_, fun target => ?_⟩
  · have : f.steps.getLast? = some s := by
      rw [List.getLast?_eq_getElem?, ← h]; congr 1; exact (Nat.eq_sub_of_add_eq last).symm
    simpa [this] using closed.1
  · exact closed.2 s (List.mem_of_getElem? h) (by simp [target])

/-- Closed code is not left by its end. -/
theorem index_ne_size {I : Interpretation ν σ} {f : Fragment} (closed : f.isClosed = true)
    (n : Nat) : ∀ {c c' : Frame ν} {w w' : World ν σ}, c.index ≠ f.size →
      Reaches I f.steps n (running c, w) (running c', w') → c'.index ≠ f.size := by
  induction n with
  | zero => intro c c' w w' hc h; cases h; exact hc
  | succ n ih =>
    intro c c' w w' hc h
    unfold Reaches at h
    rw [run_succ, StateT.run_bind] at h
    cases found : f.steps[c.index]? with
    | none =>
      rw [found] at h
      change (run I f.steps n stuck).run w = _ at h
      rw [run_stuck] at h
      cases h
    | some s =>
      rw [found] at h
      rcases next : (execute I c s.instr).run w with ⟨stage, w₁⟩
      simp only [reading, next] at h
      cases stage with
      | returned v =>
        change (run I f.steps n (returned v)).run w₁ = _ at h
        rw [run_returned] at h
        cases h
      | stuck =>
        change (run I f.steps n stuck).run w₁ = _ at h
        rw [run_stuck] at h
        cases h
      | running d =>
        refine ih ?_ h
        obtain ⟨last, target⟩ := of_isClosed closed found
        rcases index_of_execute next with ⟨index, no_return⟩ | jump
        · intro hd
          rw [last (index ▸ hd)] at no_return
          cases no_return
        · rintro hd
          exact target (hd ▸ jump)

end Fragment

/-- What code has come to where its body gives `result` within a bound. -/
def Stage.Matches (stage : Stage ν) : Option ν → Prop
  | some v => stage = returned v
  | none => ∃ c, stage = running c

/-- The code of a function comes to what its body comes to within a bound, after at least that many
instructions. -/
theorem FunctionDecl.reaches_toCode {f : FunctionDecl} {code : Code} (h : f.toCode = .ok code)
    (I : Interpretation ν σ) (bound : Nat) (w : World ν σ) :
    ∃ n stage, bound ≤ n ∧
      Reaches I code.steps n (running .start, w) (stage, ((f.exec I bound).run w).2) ∧
      stage.Matches ((f.exec I bound).run w).1 := by
  obtain ⟨body, hbody, h⟩ := bind_eq_ok h
  have standing : Stands code.steps 0 body.steps := by
    cases h
    split
    · exact .self _
    · exact (Stands.self (Stmt.returnNil body f.span).steps).left.left
  have follows := Stmt.follows_lowerBlock (I := I) bound hbody standing .start w rfl
  rw [exec, StateT.run_bind]
  rcases out : (Stmt.execBlock I bound f.body).run w with ⟨flow, w'⟩
  rw [out] at follows
  cases flow with
  | returned v =>
    obtain ⟨n, reach⟩ := follows
    exact ⟨_, _, Nat.le_max_right n bound, reach.stays nofun (Nat.le_max_left n bound), rfl⟩
  | unfinished =>
    obtain ⟨n, c, long, reach⟩ := follows
    exact ⟨n, _, long, reach, c, rfl⟩
  | onward =>
    obtain ⟨n, c', reach, index⟩ := follows
    rw [Nat.zero_add] at index
    by_cases closed : body.isClosed = true
    · rw [if_pos closed] at h
      cases h
      have start : (Frame.start : Frame ν).index ≠ body.size := by
        intro empty
        simp [Fragment.isClosed, List.eq_nil_of_length_eq_zero empty.symm] at closed
      exact absurd index (Fragment.index_ne_size closed n start reach)
    · rw [if_neg closed] at h
      cases h
      have leave :=
        Stmt.reaches_returnNil (I := I) w' (Stands.self (Stmt.returnNil body f.span).steps)
        (by rw [index, Nat.zero_add])
      exact ⟨_, _, Nat.le_max_right (n + 2) bound,
        (reach.trans leave).stays nofun (Nat.le_max_left (n + 2) bound), rfl⟩

/-- The code of a body and the body end with the same value, if they end, in the same world; what
either has performed so far, the other performs in the same order; and the code is never stuck. -/
theorem FunctionDecl.toCode_preserves {f : FunctionDecl} {code : Code} (h : f.toCode = .ok code)
    (I : Interpretation ν σ) (s : σ) :
    (∀ v w, f.Ends I s v w ↔ code.Ends I s v w) ∧
      (∀ bound, ∃ count, f.performed I s bound = code.performed I s count) ∧
      (∀ count, ∃ bound, code.performed I s count <+: f.performed I s bound) ∧
      ∀ count w, code.run I s count ≠ (.stuck, w) := by
  have comes (bound : Nat) := reaches_toCode h I bound ⟨s, []⟩
  refine ⟨fun v w => ⟨?_, ?_⟩, fun bound => ?_, fun count => ?_, fun count w stuck => ?_⟩
  · rintro ⟨bound, ends⟩
    obtain ⟨n, stage, -, reach, agree⟩ := comes bound
    rw [ends] at reach agree
    cases agree
    exact ⟨n, reach⟩
  · -- a bound as long as the run leaves the body no way to be unfinished
    rintro ⟨count, ends⟩
    have ended : Reaches I code.steps count (running .start, ⟨s, []⟩) (returned v, w) := ends
    obtain ⟨n, stage, long, reach, agree⟩ := comes count
    rcases out : (f.exec I count).run ⟨s, []⟩ with ⟨result, w'⟩
    rw [out] at reach agree
    cases (ended.stays nofun long).symm.trans reach
    cases result with
    | none => obtain ⟨c, running⟩ := agree; cases running
    | some v' => cases agree; exact ⟨count, out⟩
  · obtain ⟨n, stage, -, reach, -⟩ := comes bound
    exact ⟨n, congrArg (fun b => b.2.performed) reach.symm⟩
  · obtain ⟨n, stage, long, reach, -⟩ := comes count
    have same : code.performed I s n = f.performed I s count :=
      congrArg (fun b => b.2.performed) reach
    exact ⟨count, same ▸ code.performed_prefix I s long⟩
  · obtain ⟨n, stage, long, reach, agree⟩ := comes count
    have ended : Reaches I code.steps count (running .start, ⟨s, []⟩) (.stuck, w) := stuck
    cases (ended.stays nofun long).symm.trans reach
    rcases out : ((f.exec I count).run ⟨s, []⟩).1 with _ | v
    · rw [out] at agree; obtain ⟨c, running⟩ := agree; cases running
    · rw [out] at agree; cases agree

/-- `while c { if c { return c } else { x = self } }`, whose end can be reached. -/
def waiting : FunctionDecl :=
  let c := Expr.name .absent "c"
  let store := Expr.assign .absent (.name .absent "x") (.self .absent)
  ⟨"waiting", .absent, [], none,
    [.loop .absent c [.cond .absent c [.ret .absent (some c)] (some [.expr store])]], .absent⟩

/-- Asking for a truth value counts the state down; the answer is whether the state is odd. -/
def countdown : Interpretation Nat Nat
  | .store _ _, n => ((), n)
  | .truth _, n => (n % 2 == 1, n - 1)
  | .const _, n | .unary _ _, n | .binary _ _ _, n | .load _, n | .member _ _, n
  | .index _ _, n | .call _ _, n => (n, n)

theorem toCode_preserves_waiting :
    ∃ code, waiting.toCode = .ok code ∧
      (∀ v w, waiting.Ends countdown 3 v w ↔ code.Ends countdown 3 v w) ∧
      (∀ bound, ∃ count, waiting.performed countdown 3 bound = code.performed countdown 3 count) ∧
      (∀ count, ∃ bound, code.performed countdown 3 count <+: waiting.performed countdown 3 bound) ∧
      ∀ count w, code.run countdown 3 count ≠ (.stuck, w) :=
  ⟨_, rfl, FunctionDecl.toCode_preserves rfl countdown 3⟩

end PathTyping
