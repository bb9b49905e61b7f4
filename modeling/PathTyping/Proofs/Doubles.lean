import Mathlib
import PathTyping.Decimal.Double

/-!
# The order of doubles

Every finite double is a whole number of times the least positive one, and the infinities stand
beyond all of them.  So each number has a place on a line of integers; comparing doubles is
comparing places, and negation mirrors them.

1. `Double.ofUnpacked_unpack`: the parts of a double are those that its arithmetic works with.
2. `Double.unpack_pack`: a number that is a double is the same again after it was packed.
3. `Double.compare_eq`: doubles are compared as their places are.
4. `le_iff`, `lt_iff`, `beq_iff`, `neg_antitone`: the comparisons, by places.
-/

namespace PathTyping.Decimal

open Float.Model (UnpackedFloat Format)
open Float.Model.UnpackedFloat (Sign unpackExponent unpackMantissa unpackSign)

namespace Double

/-! ## Bits -/

/-- The double with these bits. -/
def ofBits (bits : Nat) : Double :=
  let negative := decide (2 ^ (63 : Nat) ≤ bits)
  let exponent : Nat := bits / 2 ^ (52 : Nat) % 2 ^ (11 : Nat)
  let fraction : Nat := bits % 2 ^ (52 : Nat)
  if exponent = 2 ^ (11 : Nat) - 1 then
    if fraction = 0 then .infinite negative else .notANumber
  else if exponent = 0 then .finite negative fraction (-1074)
  else .finite negative (fraction + 2 ^ (52 : Nat)) ((exponent : Int) - 1075)

theorem ofFloat_eq_ofBits (x : Float) : ofFloat x = ofBits x.toBits.toNat := rfl

/-- The sign as a bit. -/
def isNegative : Sign → Bool
  | .negative => true
  | .positive => false

/-- The form of a number that arithmetic has taken apart. -/
def ofUnpacked : UnpackedFloat → Double
  | .notANumber => .notANumber
  | .infinity s => .infinite (isNegative s)
  | .zero s => .finite (isNegative s) 0 (-1074)
  | .finite s m e _ => .finite (isNegative s) m e

theorem toNat_unpackExponent (b : BitVec 64) :
    (@unpackExponent Format.binary64 b).toNat = b.toNat / 2 ^ 52 % 2 ^ 11 := by
  simp [unpackExponent, Nat.shiftRight_eq_div_pow]

theorem toNat_unpackMantissa (b : BitVec 64) :
    (@unpackMantissa Format.binary64 b).toNat = b.toNat % 2 ^ 52 := by
  simp [unpackMantissa]

theorem isNegative_unpackSign (b : BitVec 64) :
    isNegative (Sign.ofBitVec (@unpackSign Format.binary64 b)) = decide (2 ^ 63 ≤ b.toNat) := by
  have bound := b.isLt
  have bit : (@unpackSign Format.binary64 b).toNat = b.toNat / 2 ^ 63 := by
    simp [unpackSign, Nat.shiftRight_eq_div_pow]
    omega
  have zero : @unpackSign Format.binary64 b = 0#1 ↔ b.toNat < 2 ^ 63 := by
    rw [← BitVec.toNat_inj, bit]
    simp only [BitVec.toNat_ofNat]
    omega
  unfold Sign.ofBitVec
  split
  · next clear =>
    have := zero.1 clear
    simp only [isNegative, false_eq_decide_iff]
    omega
  · next set =>
    have := mt zero.2 set
    simp only [isNegative, true_eq_decide_iff]
    omega

theorem ofUnpacked_unpack (b : BitVec 64) :
    ofUnpacked (UnpackedFloat.unpack Format.binary64 b) = ofBits b.toNat := by
  have e := toNat_unpackExponent b
  have m := toNat_unpackMantissa b
  have full : @unpackExponent Format.binary64 b = -1#_ ↔
      b.toNat / 2 ^ 52 % 2 ^ 11 = 2 ^ 11 - 1 := by
    rw [← BitVec.toNat_inj, e]; rfl
  have least : @unpackExponent Format.binary64 b = 0#_ ↔ b.toNat / 2 ^ 52 % 2 ^ 11 = 0 := by
    rw [← BitVec.toNat_inj, e]; rfl
  have blank : @unpackMantissa Format.binary64 b = 0#_ ↔ b.toNat % 2 ^ 52 = 0 := by
    rw [← BitVec.toNat_inj, m]; rfl
  have bias : Format.binary64.exponentBias = 1023 := rfl
  unfold UnpackedFloat.unpack ofBits
  rw [← isNegative_unpackSign]
  simp only [full, least]
  split
  · simp only [blank]
    split <;> rfl
  · split
    · split
      · next h =>
        rw [blank.1 h]; rfl
      · next he _ =>
        simp only [ofUnpacked, m, e, he, bias]
        rfl
    · next h =>
      have implicit :
          (1#1 ++ @unpackMantissa Format.binary64 b).toNat = b.toNat % 2 ^ 52 + 2 ^ 52 := by
        rw [BitVec.toNat_append, ← Nat.shiftLeft_add_eq_or_of_lt (BitVec.isLt _), m]
        exact Nat.add_comm _ _
      simp only [ofUnpacked, implicit, e, bias]
      congr 1

theorem ofUnpacked_injective {u w : UnpackedFloat} (h : ofUnpacked u = ofUnpacked w) : u = w := by
  have sign {s t : Sign} (h : isNegative s = isNegative t) : s = t := by
    cases s <;> cases t <;> first | rfl | cases h
  cases u <;> cases w <;> simp only [ofUnpacked, reduceCtorEq, infinite.injEq, finite.injEq] at h
  · rw [sign h]
  · rfl
  · rw [sign h.1]
  · omega
  · omega
  · obtain ⟨same, rfl, rfl⟩ := h
    rw [sign same]

/-- The sign bit. -/
def signBit (negative : Bool) : Nat := if negative then 2 ^ 63 else 0

theorem toNat_packComponents (s : Sign) (e : BitVec 11) (m : BitVec 52) :
    (UnpackedFloat.packComponents Format.binary64 s e m).toNat =
      signBit (isNegative s) + e.toNat * 2 ^ 52 + m.toNat := by
  have sign : s.toBitVec.toNat * 2 ^ 63 = signBit (isNegative s) := by cases s <;> rfl
  rw [← sign, UnpackedFloat.packComponents, BitVec.toNat_append,
    ← Nat.shiftLeft_add_eq_or_of_lt m.isLt, BitVec.toNat_append,
    ← Nat.shiftLeft_add_eq_or_of_lt e.isLt, Nat.shiftLeft_eq, Nat.shiftLeft_eq]
  show (_ * 2 ^ 11 + _) * 2 ^ 52 + _ = _
  ring

theorem ofBits_fields (negative : Bool) {e f : Nat} (he : e < 2047) (hf : f < 2 ^ 52) :
    ofBits (signBit negative + e * 2 ^ 52 + f) =
      if e = 0 then .finite negative f (-1074) else .finite negative (f + 2 ^ 52) (e - 1075) := by
  have sign : decide (2 ^ 63 ≤ signBit negative + e * 2 ^ 52 + f) = negative := by
    cases negative <;> simp [signBit] <;> omega
  have exponent : (signBit negative + e * 2 ^ 52 + f) / 2 ^ 52 % 2 ^ 11 = e := by
    cases negative <;> simp [signBit] <;> omega
  have fraction : (signBit negative + e * 2 ^ 52 + f) % 2 ^ 52 = f := by
    cases negative <;> simp [signBit] <;> omega
  rw [ofBits, sign, exponent, fraction, if_neg (by omega)]

theorem ofBits_infinite (negative : Bool) :
    ofBits (signBit negative + 2047 * 2 ^ 52) = .infinite negative := by
  cases negative <;> decide

/-- What a finite number has to be to be one of the doubles, but for its exponent being small
enough. -/
structure Shaped (m : Nat) (e : Int) : Prop where
  narrow : m < 2 ^ 53
  least : -1074 ≤ e
  full : 2 ^ 52 ≤ m ∨ e = -1074

theorem ofUnpacked_unpack_pack {s : Sign} {m : Nat} {e : Int} (pos : 0 < m) (h : Shaped m e) :
    ofUnpacked (UnpackedFloat.unpack Format.binary64
        (UnpackedFloat.pack Format.binary64 (.finite s m e pos))) =
      if e ≤ 971 then .finite (isNegative s) m e else .infinite (isNegative s) := by
  obtain ⟨narrow, least, full⟩ := h
  have bias : Format.binary64.exponentBias = 1023 := rfl
  have width : Format.binary64.mantissaBits = 53 := rfl
  rw [ofUnpacked_unpack, UnpackedFloat.pack]
  simp only [bias, width]
  split
  · next large =>
    rw [if_neg (by simp at large; omega), UnpackedFloat.packedInfinity, toNat_packComponents]
    exact ofBits_infinite _
  · next inside =>
    have inside : e ≤ 971 := by simp at inside; omega
    have whole : m.log2 + 1 = 53 ↔ 2 ^ 52 ≤ m := by
      have := Nat.le_log2 (n := m) (k := 52) (by omega)
      have := Nat.log2_lt (n := m) (k := 53) (by omega)
      omega
    rw [if_pos inside]
    split
    · next wide =>
      have normal := whole.1 wide
      rw [toNat_packComponents, BitVec.toNat_ofNat, BitVec.toNat_ofNat,
        Nat.mod_eq_of_lt (by simp; omega),
        ofBits_fields _ (by simp; omega) (Nat.mod_lt _ (by decide)), if_neg (by simp; omega)]
      congr 1
      · simp; omega
      · simp; omega
    · next small =>
      have small := mt whole.2 small
      have least : e = -1074 := full.resolve_left small
      have fraction : (BitVec.ofNat 52 m).toNat = m := by
        rw [BitVec.toNat_ofNat, Nat.mod_eq_of_lt (by omega)]
      have fields := ofBits_fields (isNegative s) (e := 0) (f := m) (by decide) (by omega)
      rw [toNat_packComponents, fraction]
      simpa [least] using fields


theorem shaped_of_ofBits {n : Nat} {negative : Bool} {m : Nat} {e : Int}
    (h : ofBits n = .finite negative m e) : Shaped m e ∧ e ≤ 971 := by
  unfold ofBits at h
  dsimp only at h
  split at h
  · split at h <;> cases h
  · next notFull =>
    split at h
    · cases h
      exact ⟨⟨by omega, by decide, .inr rfl⟩, by decide⟩
    · cases h
      exact ⟨⟨by omega, by omega, .inl (by omega)⟩, by omega⟩

/-- The number is a double or none at all. -/
def InRange (u : UnpackedFloat) : Prop :=
  ∀ s m e pos, u = .finite s m e pos → Shaped m e ∧ e ≤ 971

theorem inRange_unpack (b : BitVec 64) : InRange (UnpackedFloat.unpack Format.binary64 b) := by
  intro s m e pos h
  have view := ofUnpacked_unpack b
  rw [h] at view
  exact shaped_of_ofBits view.symm

theorem InRange.neg {u : UnpackedFloat} (h : InRange u) : InRange u.neg := by
  intro s m e pos same
  cases u <;> simp only [UnpackedFloat.neg, reduceCtorEq, UnpackedFloat.finite.injEq] at same
  obtain ⟨-, rfl, rfl⟩ := same
  exact h _ _ _ _ rfl

theorem unpack_pack {u : UnpackedFloat} (h : InRange u) : (Float.Model.pack u).unpack = u := by
  refine ofUnpacked_injective ?_
  show ofUnpacked (UnpackedFloat.unpack Format.binary64 (UnpackedFloat.pack Format.binary64 u)) = _
  cases u with
  | notANumber => decide
  | infinity s => cases s <;> decide
  | zero s => cases s <;> decide
  | finite s m e pos =>
    obtain ⟨shaped, small⟩ := h _ _ _ _ rfl
    rw [ofUnpacked_unpack_pack pos shaped, if_pos small]
    rfl

/-! ## Places on the line -/

/-- A number of units on one side of zero. -/
def signed (negative : Bool) (n : Nat) : Int := if negative then -n else n

@[simp] theorem signed_true (n : Nat) : signed true n = -n := rfl

@[simp] theorem signed_false (n : Nat) : signed false n = n := rfl

theorem signed_isNegative_neg (s : Sign) (n : Nat) :
    signed (isNegative (-s)) n = -signed (isNegative s) n := by
  cases s
  · exact (Int.neg_neg _).symm
  · rfl

/-- The first power of two that is too large for a finite double. -/
def widest : Nat := 2098

/-- Beyond all finite doubles. -/
def beyond : Nat := 2 ^ widest

/-- Where a double stands on the line, counted in the least positive one. -/
def units? : Double → Option Int
  | .notANumber => none
  | .infinite negative => some (signed negative beyond)
  | .finite negative m e => some (signed negative (m * 2 ^ (e + 1074).toNat))

theorem eq_notANumber {u : UnpackedFloat} (h : (ofUnpacked u).units? = none) :
    u = .notANumber := by
  cases u with
  | notANumber => rfl
  | infinity s => simp [ofUnpacked, units?] at h
  | zero s => simp [ofUnpacked, units?] at h
  | finite s m e pos => simp [ofUnpacked, units?] at h

theorem scaled_lt_beyond {m : Nat} {e : Int} (narrow : m < 2 ^ 53) (small : e ≤ 971) :
    m * 2 ^ (e + 1074).toNat < beyond :=
  calc m * 2 ^ (e + 1074).toNat < 2 ^ 53 * 2 ^ (e + 1074).toNat :=
        Nat.mul_lt_mul_of_pos_right narrow (Nat.two_pow_pos _)
    _ = 2 ^ (53 + (e + 1074).toNat) := (Nat.pow_add ..).symm
    _ ≤ 2 ^ widest := Nat.pow_le_pow_right (by decide) (by unfold widest; omega)

theorem scaled_lt {m n : Nat} {e f : Int} (hm : Shaped m e) (hn : Shaped n f) (h : e < f) :
    m * 2 ^ (e + 1074).toNat < n * 2 ^ (f + 1074).toNat := by
  have full := hn.full.resolve_right (by have := hm.least; omega)
  calc m * 2 ^ (e + 1074).toNat < 2 ^ 53 * 2 ^ (e + 1074).toNat :=
        Nat.mul_lt_mul_of_pos_right hm.narrow (Nat.two_pow_pos _)
    _ = 2 ^ 52 * 2 ^ ((e + 1074).toNat + 1) := by ring
    _ ≤ n * 2 ^ (f + 1074).toNat :=
        Nat.mul_le_mul full (Nat.pow_le_pow_right (by decide) (by have := hm.least; omega))

theorem compare_scaled {m n : Nat} {e f : Int} (hm : Shaped m e) (hn : Shaped n f) :
    (compare e f).then (compare m n) =
      compare (m * 2 ^ (e + 1074).toNat) (n * 2 ^ (f + 1074).toNat) := by
  rcases Int.lt_trichotomy e f with less | rfl | greater
  · rw [compare_lt_iff_lt.2 less, compare_lt_iff_lt.2 (scaled_lt hm hn less)]
    rfl
  · have pos := Nat.two_pow_pos (e + 1074).toNat
    rw [compare_eq_iff_eq.2 rfl]
    show compare m n = _
    rcases Nat.lt_trichotomy m n with less | rfl | greater
    · rw [compare_lt_iff_lt.2 less, compare_lt_iff_lt.2 (Nat.mul_lt_mul_of_pos_right less pos)]
    · rw [compare_eq_iff_eq.2 rfl, compare_eq_iff_eq.2 rfl]
    · rw [compare_gt_iff_gt.2 greater,
        compare_gt_iff_gt.2 (Nat.mul_lt_mul_of_pos_right greater pos)]
  · rw [compare_gt_iff_gt.2 greater, compare_gt_iff_gt.2 (scaled_lt hn hm greater)]
    rfl

theorem compare_signed (negative : Bool) (m n : Nat) :
    compare (signed negative m) (signed negative n) =
      if negative then (compare m n).swap else compare m n := by
  rcases Nat.lt_trichotomy m n with less | rfl | greater <;> cases negative
  · rw [compare_lt_iff_lt.2 less]; exact compare_lt_iff_lt.2 (by simp [signed]; omega)
  · rw [compare_lt_iff_lt.2 less]; exact compare_gt_iff_gt.2 (by simp [signed]; omega)
  · rw [compare_eq_iff_eq.2 rfl, compare_eq_iff_eq.2 rfl]; rfl
  · rw [compare_eq_iff_eq.2 rfl, compare_eq_iff_eq.2 rfl]; rfl
  · rw [compare_gt_iff_gt.2 greater]; exact compare_gt_iff_gt.2 (by simp [signed]; omega)
  · rw [compare_gt_iff_gt.2 greater]; exact compare_lt_iff_lt.2 (by simp [signed]; omega)

/-- Two places stand in this order. -/
def Ordered (i j : Int) : Ordering → Prop
  | .lt => i < j
  | .eq => i = j
  | .gt => j < i

theorem Ordered.compare_eq {i j : Int} {o : Ordering} (h : Ordered i j o) :
    some o = some (compare i j) := by
  cases o with
  | lt => rw [compare_lt_iff_lt.2 h]
  | eq => rw [compare_eq_iff_eq.2 h]
  | gt => rw [compare_gt_iff_gt.2 h]

theorem compare_finite {s t : Sign} {m n : Nat} {e f : Int} {pos : 0 < m} {pos' : 0 < n}
    (hm : Shaped m e) (hn : Shaped n f) :
    UnpackedFloat.compare (.finite s m e pos) (.finite t n f pos') =
      some (compare (signed (isNegative s) (m * 2 ^ (e + 1074).toNat))
        (signed (isNegative t) (n * 2 ^ (f + 1074).toNat))) := by
  have mpos : 0 < m * 2 ^ (e + 1074).toNat := Nat.mul_pos pos (Nat.two_pow_pos _)
  have npos : 0 < n * 2 ^ (f + 1074).toNat := Nat.mul_pos pos' (Nat.two_pow_pos _)
  cases s <;> cases t
  · rw [compare_signed, ← compare_scaled hm hn]; rfl
  · refine Ordered.compare_eq (o := .lt) ?_
    simp only [Ordered, isNegative, signed_true, signed_false]
    omega
  · refine Ordered.compare_eq (o := .gt) ?_
    simp only [Ordered, isNegative, signed_true, signed_false]
    omega
  · rw [compare_signed, ← compare_scaled hm hn]; rfl

/-- The order of doubles is that of their places. -/
theorem compare_eq {u w : UnpackedFloat} (hu : InRange u) (hw : InRange w) {i j : Int}
    (hi : (ofUnpacked u).units? = some i) (hj : (ofUnpacked w).units? = some j) :
    u.compare w = some (compare i j) := by
  have large : 0 < beyond := Nat.two_pow_pos _
  have within {s m e pos} (h : InRange (.finite s m e pos)) :
      0 < m * 2 ^ (e + 1074).toNat ∧ m * 2 ^ (e + 1074).toNat < beyond :=
    ⟨Nat.mul_pos pos (Nat.two_pow_pos _),
      scaled_lt_beyond (h _ _ _ _ rfl).1.narrow (h _ _ _ _ rfl).2⟩
  rcases u with s | _ | s | ⟨s, m, e, pos⟩ <;> rcases w with t | _ | t | ⟨t, n, f, pos'⟩ <;>
    cases hi <;> cases hj
  case finite.finite => exact compare_finite (hu _ _ _ _ rfl).1 (hw _ _ _ _ rfl).1
  case infinity.infinity =>
    cases s <;> cases t
    · exact Ordered.compare_eq (o := .eq) rfl
    · refine Ordered.compare_eq (o := .lt) ?_
      simp only [Ordered, isNegative, signed_true, signed_false]
      omega
    · refine Ordered.compare_eq (o := .gt) ?_
      simp only [Ordered, isNegative, signed_true, signed_false]
      omega
    · exact Ordered.compare_eq (o := .eq) rfl
  -- Elsewhere the signs decide, and that a finite double is neither zero nor beyond all.
  all_goals
    first | have := within hu | have := within hw | skip
    cases s <;> cases t <;> refine Ordered.compare_eq ?_ <;>
      simp only [Ordered, isNegative, signed_true, signed_false] <;> omega

theorem units?_within {u : UnpackedFloat} (hu : InRange u) {i : Int}
    (hi : (ofUnpacked u).units? = some i) : -(beyond : Int) ≤ i ∧ i ≤ beyond := by
  rcases u with s | _ | s | ⟨s, m, e, pos⟩ <;> cases hi
  · cases s <;> simp only [isNegative, signed_true, signed_false] <;> omega
  · cases s <;> simp only [Nat.zero_mul, isNegative, signed_true, signed_false] <;> omega
  · have := scaled_lt_beyond (hu _ _ _ _ rfl).1.narrow (hu _ _ _ _ rfl).2
    cases s <;> simp only [isNegative, signed_true, signed_false] <;> omega

theorem units?_inside {u : UnpackedFloat} (hu : InRange u) {i : Int}
    (hi : (ofUnpacked u).units? = some i) (finite : u.isFinite = true) :
    -(beyond : Int) < i ∧ i < beyond := by
  have large : 0 < beyond := Nat.two_pow_pos _
  rcases u with s | _ | s | ⟨s, m, e, pos⟩ <;> cases hi
  · cases finite
  · cases s <;> simp only [Nat.zero_mul, isNegative, signed_true, signed_false] <;> omega
  · have := scaled_lt_beyond (hu _ _ _ _ rfl).1.narrow (hu _ _ _ _ rfl).2
    cases s <;> simp only [isNegative, signed_true, signed_false] <;> omega

end Double

open Double

/-! ## Comparisons -/

/-- Where a number stands on the line, counted in the least positive double. -/
def standing? (x : Float) : Option Int := (ofFloat x).units?

theorem standing?_eq (x : Float) : standing? x = (ofUnpacked x.toModel.unpack).units? := by
  rw [standing?, ofFloat_eq_ofBits]
  exact congrArg units? (ofUnpacked_unpack x.toModel.toBits.toBitVec).symm

theorem standing?_ofModel_pack (u : UnpackedFloat) :
    standing? (.ofModel (.pack u)) = (ofUnpacked (Float.Model.pack u).unpack).units? :=
  standing?_eq _

theorem inRange (x : Float) : InRange x.toModel.unpack := inRange_unpack _

theorem standing?_ofBits {n : Nat} (h : n < 2 ^ 64) :
    standing? (Float.ofBits (UInt64.ofNat n)) = (Double.ofBits n).units? := by
  show standing? (.ofModel (.pack (UnpackedFloat.unpack Format.binary64
    (UInt64.ofNat n).toBitVec))) = _
  rw [standing?_ofModel_pack, unpack_pack (inRange_unpack _), ofUnpacked_unpack]
  congr 2
  exact Nat.mod_eq_of_lt h

theorem isFinite_iff {x : Float} :
    x.isFinite = true ↔ ∃ i, standing? x = some i ∧ -(beyond : Int) < i ∧ i < beyond := by
  rw [standing?_eq]
  constructor
  · intro h
    replace h : x.toModel.unpack.isFinite = true := h
    have inRange := inRange x
    generalize x.toModel.unpack = u at *
    cases found : (ofUnpacked u).units? with
    | none =>
      rw [eq_notANumber found] at h
      cases h
    | some i => exact ⟨i, rfl, units?_inside inRange found h⟩
  · rintro ⟨i, found, above, below⟩
    show x.toModel.unpack.isFinite = true
    cases view : x.toModel.unpack with
    | notANumber => rw [view] at found; cases found
    | infinity s =>
      rw [view] at found
      cases found
      cases s <;> simp only [isNegative, signed_true, signed_false] at above below <;> omega
    | zero s => rfl
    | finite s m e pos => rfl

theorem standing?_within {x : Float} {i : Int} (h : standing? x = some i) :
    -(beyond : Int) ≤ i ∧ i ≤ beyond :=
  units?_within (inRange x) (standing?_eq x ▸ h)

/-- Numbers are compared by where they stand, and what is no number by nothing. -/
theorem compare_eq_map (x y : Float) :
    x.toModel.unpack.compare y.toModel.unpack =
      (standing? x).bind fun i => (standing? y).map fun j => compare i j := by
  have hx := inRange x
  have hy := inRange y
  rw [standing?_eq, standing?_eq]
  generalize x.toModel.unpack = u, y.toModel.unpack = w at *
  cases hi : (ofUnpacked u).units? with
  | none =>
    obtain rfl := eq_notANumber hi
    cases w <;> rfl
  | some i =>
    cases hj : (ofUnpacked w).units? with
    | none =>
      obtain rfl := eq_notANumber hj
      cases u <;> rfl
    | some j => exact compare_eq hx hy hi hj

theorem le_iff {x y : Float} :
    x ≤ y ↔ ∃ i j, standing? x = some i ∧ standing? y = some j ∧ i ≤ j := by
  have unfolded : x ≤ y ↔ (x.toModel.unpack.compare y.toModel.unpack).any (·.isLE) = true :=
    decide_eq_true_iff
  rw [unfolded, compare_eq_map]
  cases standing? x <;> cases standing? y <;> simp [compare_le_iff_le, Ordering.isLE_iff_ne_gt]

theorem lt_iff {x y : Float} :
    x < y ↔ ∃ i j, standing? x = some i ∧ standing? y = some j ∧ i < j := by
  have unfolded : x < y ↔ (x.toModel.unpack.compare y.toModel.unpack == some .lt) = true :=
    decide_eq_true_iff
  rw [unfolded, compare_eq_map]
  cases standing? x <;> cases standing? y <;> simp [compare_lt_iff_lt]

theorem beq_iff {x y : Float} :
    (x == y) = true ↔ ∃ i, standing? x = some i ∧ standing? y = some i := by
  have unfolded : (x == y) = true ↔
      (x.toModel.unpack.compare y.toModel.unpack == some .eq) = true := Iff.rfl
  rw [unfolded, compare_eq_map]
  cases standing? x with
  | none => simp
  | some i => cases standing? y <;> simp [eq_comm (a := i)]

theorem unpack_neg (x : Float) : (-x).toModel.unpack = x.toModel.unpack.neg :=
  unpack_pack (inRange x).neg

theorem standing?_neg (x : Float) : standing? (-x) = (standing? x).map (-·) := by
  rw [standing?_eq, standing?_eq, unpack_neg]
  rcases x.toModel.unpack with s | _ | s | ⟨s, m, e, pos⟩
  · simp [UnpackedFloat.neg, ofUnpacked, units?, signed_isNegative_neg]
  · rfl
  · simp [UnpackedFloat.neg, ofUnpacked, units?, signed_isNegative_neg]
  · simp [UnpackedFloat.neg, ofUnpacked, units?, signed_isNegative_neg]

theorem isFinite_neg (x : Float) : (-x).isFinite = x.isFinite := by
  show (-x).toModel.unpack.isFinite = x.toModel.unpack.isFinite
  rw [unpack_neg]
  cases x.toModel.unpack <;> rfl

theorem isSome_standing?_of_isFinite {x : Float} (h : x.isFinite = true) :
    (standing? x).isSome = true := by
  obtain ⟨i, stands, -⟩ := isFinite_iff.1 h
  rw [stands]
  rfl

theorem exists_standing? {x : Float} (h : x.isFinite = true) : ∃ i, standing? x = some i :=
  Option.isSome_iff_exists.1 (isSome_standing?_of_isFinite h)

theorem le_refl_of_number {x : Float} (h : (standing? x).isSome = true) : x ≤ x := by
  obtain ⟨i, stands⟩ := Option.isSome_iff_exists.1 h
  exact le_iff.2 ⟨i, i, stands, stands, Int.le_refl i⟩

theorem le_trans_of_number {x y z : Float} (h : x ≤ y) (h' : y ≤ z) : x ≤ z := by
  obtain ⟨i, j, hi, hj, le⟩ := le_iff.1 h
  obtain ⟨_, k, hj', hk, le'⟩ := le_iff.1 h'
  cases hj.symm.trans hj'
  exact le_iff.2 ⟨i, k, hi, hk, Int.le_trans le le'⟩

theorem lt_of_le_of_lt_of_le {x y z u : Float} (h : x ≤ y) (h' : y < z) (h'' : z ≤ u) : x < u := by
  obtain ⟨i, j, hi, hj, le⟩ := le_iff.1 h
  obtain ⟨_, k, hj', hk, less⟩ := lt_iff.1 h'
  obtain ⟨_, l, hk', hl, le'⟩ := le_iff.1 h''
  cases hj.symm.trans hj'
  cases hk.symm.trans hk'
  exact lt_iff.2 ⟨i, l, hi, hl, by omega⟩

theorem not_lt_of_le_number {x y : Float} (h : y ≤ x) : ¬x < y := by
  intro less
  obtain ⟨j, i, hj, hi, le⟩ := le_iff.1 h
  obtain ⟨_, _, hi', hj', lt⟩ := lt_iff.1 less
  cases hi.symm.trans hi'
  cases hj.symm.trans hj'
  omega

theorem neg_antitone {x y : Float} (h : x ≤ y) : -y ≤ -x := by
  obtain ⟨i, j, hi, hj, le⟩ := le_iff.1 h
  refine le_iff.2 ⟨-j, -i, ?_, ?_, Int.neg_le_neg le⟩
  · rw [standing?_neg, hj]; rfl
  · rw [standing?_neg, hi]; rfl

end PathTyping.Decimal
