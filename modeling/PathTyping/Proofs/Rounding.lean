import PathTyping.Proofs.Doubles

/-!
# The arithmetic of doubles

A sum of doubles is the double nearest to the exact sum, and between two the even one.  On places
this is rounding of integers, which keeps their order; so sums and differences grow with what is
added and shrink with what is taken away.  A remainder is cut toward zero where it is too long,
which keeps it below the divisor.

1. `Double.rounded_mono`: rounding keeps the order.
2. `Double.units?_round`: how the rounding of mantissa and exponent acts on places.
3. `Double.units?_add`: where a sum stands.
4. `add_monotone`, `sub_monotone`: sums and differences of finite doubles are monotone.
5. `standing?_remainder`: a remainder lies between zero and the divisor.
-/

namespace PathTyping.Decimal

open Float.Model (UnpackedFloat Format totalExponent)
open Float.Model.UnpackedFloat (Sign ExtendedMantissa Accuracy)

namespace Double

/-! ## Rounding -/

/-- `m / 2 ^ k` as a whole number, to the nearest and between two to the even one. -/
def nearest (m k : Nat) : Nat :=
  if 2 * (m % 2 ^ k) < 2 ^ k then m / 2 ^ k
  else if 2 * (m % 2 ^ k) = 2 ^ k then m / 2 ^ k + m / 2 ^ k % 2
  else m / 2 ^ k + 1

theorem nearest_mono {m n : Nat} (h : m ≤ n) (k : Nat) : nearest m k ≤ nearest n k := by
  have quotient : m / 2 ^ k ≤ n / 2 ^ k := Nat.div_le_div_right h
  unfold nearest
  rcases Nat.lt_or_eq_of_le quotient with less | same
  · split_ifs <;> omega
  · have remainder : m % 2 ^ k ≤ n % 2 ^ k := by
      have hm := Nat.div_add_mod m (2 ^ k)
      have hn := Nat.div_add_mod n (2 ^ k)
      rw [same] at hm
      omega
    rw [same]
    split_ifs <;> omega

theorem nearest_mul (m j k : Nat) : nearest (m * 2 ^ j) (k + j) = nearest m k := by
  have pos := Nat.two_pow_pos j
  have quotient : m * 2 ^ j / 2 ^ (k + j) = m / 2 ^ k := by
    rw [Nat.pow_add, Nat.mul_div_mul_right _ _ pos]
  have remainder : m * 2 ^ j % 2 ^ (k + j) = m % 2 ^ k * 2 ^ j := by
    rw [Nat.pow_add, Nat.mul_mod_mul_right]
  have half : 2 * (m % 2 ^ k * 2 ^ j) < 2 ^ (k + j) ↔ 2 * (m % 2 ^ k) < 2 ^ k := by
    rw [Nat.pow_add, ← Nat.mul_assoc, Nat.mul_lt_mul_right pos]
  have tie : 2 * (m % 2 ^ k * 2 ^ j) = 2 ^ (k + j) ↔ 2 * (m % 2 ^ k) = 2 ^ k := by
    rw [Nat.pow_add, ← Nat.mul_assoc, Nat.mul_left_inj (Nat.ne_of_gt pos)]
  simp only [nearest, quotient, remainder, half, tie]

@[simp] theorem nearest_zero_right (m : Nat) : nearest m 0 = m := by simp [nearest, Nat.mod_one]

theorem nearest_le {m k : Nat} (h : m < 2 ^ (53 + k)) : nearest m k ≤ 2 ^ 53 := by
  have : m / 2 ^ k < 2 ^ 53 := Nat.div_lt_of_lt_mul (by rwa [← Nat.pow_add, Nat.add_comm])
  unfold nearest
  split_ifs <;> omega

theorem le_nearest {m k : Nat} (h : 2 ^ (52 + k) ≤ m) : 2 ^ 52 ≤ nearest m k := by
  have : 2 ^ 52 ≤ m / 2 ^ k :=
    (Nat.le_div_iff_mul_le (Nat.two_pow_pos k)).2 (by rwa [← Nat.pow_add])
  unfold nearest
  split_ifs <;> omega

theorem shiftRight_succ (em : ExtendedMantissa) (k : Nat) :
    em >>> (k + 1) = (em >>> k).shiftRightOne := rfl

/-- What is left of a mantissa after some of its bits were shifted out. -/
theorem shifted (m k : Nat) :
    ExtendedMantissa.ofMantissaAndAccuracy m .exact >>> k =
      ⟨m / 2 ^ k, decide (2 ^ k ≤ 2 * (m % 2 ^ k)), decide (2 * (m % 2 ^ k) % 2 ^ k ≠ 0)⟩ := by
  induction k with
  | zero =>
    simp [HShiftRight.hShiftRight, Nat.repeat, ExtendedMantissa.ofMantissaAndAccuracy, Nat.mod_one]
  | succ k ih =>
    have below := Nat.mod_lt m (Nat.two_pow_pos k)
    have split : m % 2 ^ (k + 1) = m % 2 ^ k + 2 ^ k * (m / 2 ^ k % 2) := by
      rw [Nat.pow_succ, Nat.mod_mul]
    have doubled : 2 * m % 2 ^ (k + 1) = 2 * (m % 2 ^ k) := by
      rw [Nat.pow_succ, Nat.mul_comm (2 ^ k), Nat.mul_mod_mul_left]
    rw [shiftRight_succ, ih, ExtendedMantissa.shiftRightOne]
    congr 1
    · rw [Nat.div_div_eq_div_mul, Nat.pow_succ]
    · rw [split]
      rcases Nat.mod_two_eq_zero_or_one (m / 2 ^ k) with even | odd
      · simp [even, Nat.pow_succ]; omega
      · simp [odd, Nat.pow_succ]; omega
    · rw [Nat.mul_mod_mod 2 m (2 ^ (k + 1)), doubled]
      by_cases half : 2 ^ k ≤ 2 * (m % 2 ^ k)
      · simp [half]; have := Nat.two_pow_pos k; omega
      · simp [half, Nat.mod_eq_of_lt (Nat.lt_of_not_le half)]

/-- The two bits behind a mantissa tell on which side of the middle the rest stands. -/
theorem roundedMantissa_bits (q : Nat) {r p : Nat} (below : r < p) :
    (ExtendedMantissa.mk q (decide (p ≤ 2 * r)) (decide (2 * r % p ≠ 0))).roundedMantissa =
      if 2 * r < p then q else if 2 * r = p then q + q % 2 else q + 1 := by
  rcases Nat.lt_trichotomy (2 * r) p with less | same | greater
  · rw [if_pos less, Nat.mod_eq_of_lt less, decide_eq_false (Nat.not_le.2 less)]
    cases decide (2 * r ≠ 0) <;> rfl
  · rw [if_neg (by omega), if_pos same, same, Nat.mod_self, decide_eq_true (Nat.le_refl p)]
    rfl
  · have rest : 2 * r % p ≠ 0 := by
      rw [Nat.mod_eq_sub_mod (Nat.le_of_lt greater), Nat.mod_eq_of_lt (by omega)]
      omega
    rw [if_neg (by omega), if_neg (by omega), decide_eq_true (Nat.le_of_lt greater),
      decide_eq_true rest]
    rfl

theorem roundedMantissa_shifted (m k : Nat) :
    (ExtendedMantissa.ofMantissaAndAccuracy m .exact >>> k).roundedMantissa = nearest m k := by
  rw [shifted, roundedMantissa_bits _ (Nat.mod_lt m (Nat.two_pow_pos k)), nearest]

/-- The bits of a number that a mantissa has no room for. -/
def excess (n : Nat) : Nat := n.log2 + 1 - 53

/-- The place of a double that stands nearest to a place. -/
def rounded (n : Nat) : Nat := min (nearest n (excess n) * 2 ^ excess n) beyond

theorem lt_of_excess (n : Nat) : n < 2 ^ (53 + excess n) :=
  Nat.lt_of_lt_of_le Nat.lt_log2_self (Nat.pow_le_pow_right (by decide) (by unfold excess; omega))

theorem le_of_excess {n : Nat} (h : excess n ≠ 0) : 2 ^ (52 + excess n) ≤ n := by
  have large : n ≠ 0 := by rintro rfl; exact h rfl
  refine Nat.le_trans (Nat.pow_le_pow_right (by decide) ?_) (Nat.log2_self_le large)
  unfold excess at h ⊢
  omega

theorem rounded_mono {m n : Nat} (h : m ≤ n) : rounded m ≤ rounded n := by
  refine min_le_min_right _ ?_
  have grows : excess m ≤ excess n := by
    rcases Nat.eq_zero_or_pos m with rfl | pos
    · exact Nat.zero_le _
    · have := (Nat.le_log2 (by omega)).2 ((Nat.log2_self_le (Nat.ne_of_gt pos)).trans h)
      unfold excess
      omega
  rcases Nat.eq_or_lt_of_le grows with same | less
  · rw [same]
    exact Nat.mul_le_mul_right _ (nearest_mono h _)
  · calc nearest m (excess m) * 2 ^ excess m
        ≤ 2 ^ 53 * 2 ^ excess m := Nat.mul_le_mul_right _ (nearest_le (lt_of_excess m))
      _ = 2 ^ 52 * 2 ^ (excess m + 1) := by ring
      _ ≤ nearest n (excess n) * 2 ^ excess n :=
        Nat.mul_le_mul (le_nearest (le_of_excess (by omega)))
          (Nat.pow_le_pow_right (by decide) less)

theorem log2_scaled {m : Nat} (pos : 0 < m) (k : Nat) : (m * 2 ^ k).log2 = m.log2 + k := by
  have ne := Nat.ne_of_gt pos
  refine (Nat.log2_eq_iff (Nat.ne_of_gt (Nat.mul_pos pos (Nat.two_pow_pos k)))).2 ⟨?_, ?_⟩
  · rw [Nat.pow_add]
    exact Nat.mul_le_mul_right _ (Nat.log2_self_le ne)
  · rw [Nat.add_right_comm, Nat.pow_add]
    exact Nat.mul_lt_mul_of_pos_right Nat.lt_log2_self (Nat.two_pow_pos k)

theorem targetExponent_eq {m : Nat} {e : Int} (pos : 0 < m) (least : -1074 ≤ e) :
    Format.binary64.targetExponent (totalExponent m e) =
      excess (m * 2 ^ (e + 1074).toNat) - 1074 := by
  have bits : Format.binary64.mantissaBits = 53 := rfl
  have smallest : Format.binary64.minExponent = -1074 := rfl
  rw [Format.targetExponent, totalExponent, bits, smallest, excess, log2_scaled pos]
  omega

/-- A mantissa that has become too wide by one bit loses that bit. -/
theorem carry {r : Nat} {e : Int} (least : -1074 ≤ e) (bound : r ≤ 2 ^ 53) :
    UnpackedFloat.shiftToTargetExponent Format.binary64 r e .exact =
      if r < 2 ^ 53 then (⟨r, false, false⟩, e) else (⟨2 ^ 52, false, false⟩, e + 1) := by
  have bits : Format.binary64.mantissaBits = 53 := rfl
  have smallest : Format.binary64.minExponent = -1074 := rfl
  have target : Format.binary64.targetExponent (totalExponent r e) =
      max (r.log2 + 1 + e - 53) (-1074) := by
    rw [Format.targetExponent, totalExponent, bits, smallest]; rfl
  rw [UnpackedFloat.shiftToTargetExponent, target, UnpackedFloat.shiftToExponent]
  split
  · next small =>
    have narrow : r.log2 ≤ 52 := by
      rcases Nat.eq_zero_or_pos r with rfl | pos
      · decide
      · exact Nat.le_of_lt_succ ((Nat.log2_lt (Nat.ne_of_gt pos)).2 small)
    have still : (max ((r.log2 : Int) + 1 + e - 53) (-1074) - e).toNat = 0 := by omega
    rw [still]
    simp
    rfl
  · next large =>
    obtain rfl : r = 2 ^ 53 := by omega
    have once : (max (((2 ^ 53 : Nat).log2 : Int) + 1 + e - 53) (-1074) - e).toNat = 1 := by
      rw [Nat.log2_two_pow]
      omega
    rw [once]
    rfl

/-- The double that stands at `r * 2 ^ (e + 1074)`. -/
def settled (s : Sign) (r : Nat) (e : Int) : UnpackedFloat :=
  if h : r = 0 then .zero s
  else if r < 2 ^ 53 then .finite s r e (Nat.pos_of_ne_zero h)
  else .finite s (2 ^ 52) (e + 1) (by decide)

theorem roundWithAccuracy_eq (s : Sign) {m : Nat} {e : Int} (pos : 0 < m) (least : -1074 ≤ e)
    (wide : e ≤ excess (m * 2 ^ (e + 1074).toNat) - 1074) :
    UnpackedFloat.roundWithAccuracy Format.binary64 s m e .exact =
      settled s (nearest (m * 2 ^ (e + 1074).toNat) (excess (m * 2 ^ (e + 1074).toNat)))
        (excess (m * 2 ^ (e + 1074).toNat) - 1074) := by
  have target := targetExponent_eq pos least
  have bound := nearest_le (lt_of_excess (m * 2 ^ (e + 1074).toNat))
  have drop : nearest m ((excess (m * 2 ^ (e + 1074).toNat) : Int) - 1074 - e).toNat =
      nearest (m * 2 ^ (e + 1074).toNat) (excess (m * 2 ^ (e + 1074).toNat)) := by
    rw [← nearest_mul m (e + 1074).toNat]
    congr 1
    omega
  generalize m * 2 ^ (e + 1074).toNat = n at *
  rw [UnpackedFloat.roundWithAccuracy, UnpackedFloat.shiftToTargetExponent, target,
    UnpackedFloat.shiftToExponent]
  have place : e + ((excess n : Int) - 1074 - e).toNat = excess n - 1074 := by omega
  have carried := carry (e := excess n - 1074) (by omega) bound
  unfold settled
  by_cases small : nearest n (excess n) < 2 ^ 53
  · rw [if_pos small] at carried
    simp only [roundedMantissa_shifted, drop, place, carried, if_pos small]
  · rw [if_neg small] at carried
    have some_bits : nearest n (excess n) ≠ 0 := by omega
    simp only [roundedMantissa_shifted, drop, place, carried, if_neg small, dif_neg some_bits]
    exact dif_neg (by decide)

theorem units?_settled (s : Sign) {r : Nat} {e : Int} (least : -1074 ≤ e) (bound : r ≤ 2 ^ 53)
    (full : 2 ^ 52 ≤ r ∨ e = -1074) :
    (ofUnpacked (Float.Model.pack (settled s r e)).unpack).units? =
      some (signed (isNegative s) (min (r * 2 ^ (e + 1074).toNat) beyond)) := by
  have finite {m : Nat} {f : Int} (pos : 0 < m) (shaped : Shaped m f) :
      (ofUnpacked (Float.Model.pack (.finite s m f pos)).unpack).units? =
        some (signed (isNegative s) (min (m * 2 ^ (f + 1074).toNat) beyond)) := by
    have packed := ofUnpacked_unpack_pack (s := s) pos shaped
    show (ofUnpacked (UnpackedFloat.unpack Format.binary64
      (UnpackedFloat.pack Format.binary64 _))).units? = _
    rw [packed]
    split
    · next small =>
      rw [min_eq_left (Nat.le_of_lt (scaled_lt_beyond shaped.narrow small))]
      rfl
    · next large =>
      have far : beyond ≤ m * 2 ^ (f + 1074).toNat := by
        calc beyond ≤ 2 ^ (52 + (f + 1074).toNat) :=
              Nat.pow_le_pow_right (by decide) (by unfold widest; omega)
          _ = 2 ^ 52 * 2 ^ (f + 1074).toNat := Nat.pow_add ..
          _ ≤ m * 2 ^ (f + 1074).toNat :=
            Nat.mul_le_mul_right _ (shaped.full.resolve_right (by omega))
      rw [min_eq_right far]
      rfl
  unfold settled
  split
  · next zero =>
    rw [zero, unpack_pack (by intro s m e pos h; cases h)]
    simp [ofUnpacked, units?]
  · next pos =>
    split
    · next small => exact finite (Nat.pos_of_ne_zero pos) ⟨small, least, full⟩
    · next large =>
      obtain rfl : r = 2 ^ 53 := by omega
      rw [finite (by decide) ⟨by decide, by omega, .inl (by decide)⟩]
      have step : (e + 1 + 1074).toNat = (e + 1074).toNat + 1 := by omega
      rw [step, Nat.pow_succ]
      congr 3
      ring

/-- Rounding takes the double nearest to a place. -/
theorem units?_round (s : Sign) {m : Nat} {e : Int} (pos : 0 < m) (least : -1074 ≤ e) :
    (ofUnpacked (Float.Model.pack (UnpackedFloat.round Format.binary64 s m e)).unpack).units? =
      some (signed (isNegative s) (rounded (m * 2 ^ (e + 1074).toNat))) := by
  have target := targetExponent_eq pos least
  rw [UnpackedFloat.round, target, UnpackedFloat.decreaseExponent]
  generalize spare : (e - (excess (m * 2 ^ (e + 1074).toNat) - 1074)).toNat = a
  have same : (m <<< a) * 2 ^ (e - a + 1074).toNat = m * 2 ^ (e + 1074).toNat := by
    rw [Nat.shiftLeft_eq, Nat.mul_assoc, ← Nat.pow_add]
    congr 2
    omega
  have pos' : 0 < m <<< a := by
    rw [Nat.shiftLeft_eq]
    exact Nat.mul_pos pos (Nat.two_pow_pos a)
  dsimp only
  rw [roundWithAccuracy_eq s pos' (by omega) (by rw [same]; omega), same]
  generalize m * 2 ^ (e + 1074).toNat = n at *
  have full : 2 ^ 52 ≤ nearest n (excess n) ∨ (excess n : Int) - 1074 = -1074 := by
    by_cases narrow : excess n = 0
    · exact .inr (by omega)
    · exact .inl (le_nearest (le_of_excess narrow))
  have back : ((excess n : Int) - 1074 + 1074).toNat = excess n := by omega
  rw [units?_settled s (by omega) (nearest_le (lt_of_excess n)) full, back, rounded]

/-! ## Sums -/

/-- A place on either side of zero, rounded. -/
def roundedInt (i : Int) : Int := if i < 0 then -rounded i.natAbs else rounded i.natAbs

theorem rounded_zero : rounded 0 = 0 := by
  show min (nearest 0 0 * 2 ^ 0) beyond = 0
  simp

theorem roundedInt_mono {i j : Int} (h : i ≤ j) : roundedInt i ≤ roundedInt j := by
  unfold roundedInt
  split
  · split
    · have := rounded_mono (m := j.natAbs) (n := i.natAbs) (by omega)
      omega
    · omega
  · split
    · omega
    · have := rounded_mono (m := i.natAbs) (n := j.natAbs) (by omega)
      omega

theorem roundedInt_signed (negative : Bool) (n : Nat) :
    roundedInt (signed negative n) = signed negative (rounded n) := by
  cases negative with
  | false =>
    rw [roundedInt, signed_false, if_neg (by omega)]
    rfl
  | true =>
    rw [roundedInt, signed_true, Int.natAbs_neg, Int.natAbs_natCast]
    rcases Nat.eq_zero_or_pos n with rfl | pos
    · simp [rounded_zero]
    · rw [if_pos (by omega), signed_true]

/-- A place where a double stands is not moved. -/
theorem rounded_of_shaped {m : Nat} {e : Int} (pos : 0 < m) (h : Shaped m e) (small : e ≤ 971) :
    rounded (m * 2 ^ (e + 1074).toNat) = m * 2 ^ (e + 1074).toNat := by
  have narrow : m.log2 ≤ 52 := Nat.le_of_lt_succ ((Nat.log2_lt (Nat.ne_of_gt pos)).2 h.narrow)
  have room : excess (m * 2 ^ (e + 1074).toNat) ≤ (e + 1074).toNat := by
    rw [excess, log2_scaled pos]
    omega
  obtain ⟨j, split⟩ := Nat.exists_eq_add_of_le room
  have exact_ : nearest (m * 2 ^ (e + 1074).toNat) (excess (m * 2 ^ (e + 1074).toNat)) *
      2 ^ excess (m * 2 ^ (e + 1074).toNat) = m * 2 ^ (e + 1074).toNat := by
    generalize excess (m * 2 ^ (e + 1074).toNat) = k at *
    rw [split, Nat.add_comm k j, Nat.pow_add, ← Nat.mul_assoc]
    have := nearest_mul (m * 2 ^ j) k 0
    rw [Nat.zero_add] at this
    rw [this, nearest_zero_right]
  rw [rounded, exact_, min_eq_left (Nat.le_of_lt (scaled_lt_beyond h.narrow small))]

theorem units?_normalize (i : Int) {e : Int} (least : -1074 ≤ e) :
    (ofUnpacked (Float.Model.pack
      (UnpackedFloat.normalize Format.binary64 i e .positive)).unpack).units? =
      some (roundedInt (i * 2 ^ (e + 1074).toNat)) := by
  unfold UnpackedFloat.normalize
  rcases Int.lt_trichotomy i 0 with less | rfl | greater
  · rw [compare_lt_iff_lt.2 less]
    obtain ⟨m, rfl⟩ := Int.exists_eq_neg_ofNat (Int.le_of_lt less)
    have value : -(m : Int) * 2 ^ (e + 1074).toNat =
        signed true (m * 2 ^ (e + 1074).toNat) := by simp
    simp only [Int.neg_neg, Int.toNat_natCast]
    rw [units?_round .negative (by omega) least, value, roundedInt_signed]
    rfl
  · rw [compare_eq_iff_eq.2 rfl]
    simp only []
    rw [unpack_pack (by intro s m e pos h; cases h)]
    simp [ofUnpacked, units?, isNegative, roundedInt, rounded_zero]
  · rw [compare_gt_iff_gt.2 greater]
    obtain ⟨m, rfl⟩ := Int.eq_ofNat_of_zero_le (Int.le_of_lt greater)
    have value : (m : Int) * 2 ^ (e + 1074).toNat =
        signed false (m * 2 ^ (e + 1074).toNat) := by simp
    simp only [Int.toNat_natCast]
    rw [units?_round .positive (by omega) least, value, roundedInt_signed]
    rfl

theorem rounded_le (n : Nat) : rounded n ≤ beyond := min_le_right _ _

theorem roundedInt_within (i : Int) : -(beyond : Int) ≤ roundedInt i ∧ roundedInt i ≤ beyond := by
  have := rounded_le i.natAbs
  unfold roundedInt
  split <;> omega

/-- The place of a sum, by those of its parts. -/
def sum (i j : Int) : Int :=
  if i = beyond ∨ j = beyond then beyond
  else if i = -beyond ∨ j = -beyond then -beyond
  else roundedInt (i + j)

theorem sum_mono {i j i' j' : Int} (hi : i ≤ i') (hj : j ≤ j') (inside : i' ≤ beyond)
    (inside' : j' ≤ beyond) (within : -(beyond : Int) ≤ i) (within' : -(beyond : Int) ≤ j) :
    sum i j ≤ sum i' j' := by
  have left := roundedInt_within (i + j)
  have right := roundedInt_within (i' + j')
  have middle := roundedInt_mono (Int.add_le_add hi hj)
  unfold sum
  split_ifs <;> omega

/-- On a smaller exponent the mantissa counts the same units. -/
theorem apply_decreaseExponent (s : Sign) (m : Nat) {e f : Int} (least : -1074 ≤ f) (h : f ≤ e) :
    s.apply (UnpackedFloat.decreaseExponent m e f).1 * 2 ^ (f + 1074).toNat =
      signed (isNegative s) (m * 2 ^ (e + 1074).toNat) := by
  have split : (e + 1074).toNat = (e - f).toNat + (f + 1074).toNat := by omega
  rw [UnpackedFloat.decreaseExponent, split, Nat.pow_add]
  cases s <;> simp [Sign.apply, isNegative, Nat.shiftLeft_eq] <;> ring

theorem roundedInt_of_inRange {u : UnpackedFloat} (hu : InRange u) {i : Int}
    (hi : (ofUnpacked u).units? = some i) (finite : u.isFinite = true) : roundedInt i = i := by
  rcases u with s | _ | s | ⟨s, m, e, pos⟩ <;> cases hi
  · cases finite
  · rw [roundedInt_signed]; simp [rounded_zero]
  · obtain ⟨shaped, small⟩ := hu _ _ _ _ rfl
    rw [roundedInt_signed, rounded_of_shaped pos shaped small]

theorem sum_of_inside {i j : Int} (hi : -(beyond : Int) < i ∧ i < beyond)
    (hj : -(beyond : Int) < j ∧ j < beyond) : sum i j = roundedInt (i + j) := by
  rw [sum, if_neg (by omega), if_neg (by omega)]

theorem sum_infinite_left {s : Sign} {j : Int} (hj : j ≠ -signed (isNegative s) beyond) :
    sum (signed (isNegative s) beyond) j = signed (isNegative s) beyond := by
  have large : 0 < beyond := Nat.two_pow_pos _
  cases s <;> simp only [isNegative, signed_true, signed_false] at hj ⊢ <;> unfold sum <;>
    split_ifs <;> omega

theorem sum_comm (i j : Int) : sum i j = sum j i := by
  simp only [sum, or_comm, Int.add_comm]

/-- A sum stands where its parts say, unless these are opposite infinities. -/
theorem units?_add {u w : UnpackedFloat} (hu : InRange u) (hw : InRange w) {i j : Int}
    (hi : (ofUnpacked u).units? = some i) (hj : (ofUnpacked w).units? = some j)
    (h : ¬(i = beyond ∧ j = -beyond)) (h' : ¬(i = -beyond ∧ j = beyond)) :
    (ofUnpacked (Float.Model.pack (UnpackedFloat.add Format.binary64 u w)).unpack).units? =
      some (sum i j) := by
  have infinite (s : Sign) : (ofUnpacked (Float.Model.pack (.infinity s)).unpack).units? =
      some (signed (isNegative s) beyond) := by
    rw [unpack_pack (by intro s m e pos h; cases h)]
    rfl
  have zero (s : Sign) : (ofUnpacked (Float.Model.pack (.zero s)).unpack).units? = some 0 := by
    rw [unpack_pack (by intro s m e pos h; cases h)]
    cases s <;> simp [ofUnpacked, units?, isNegative]
  cases u with
  | notANumber => cases hi
  | infinity s =>
    have same := Option.some.inj hi
    have stays : sum i j = signed (isNegative s) beyond := by
      rw [← same]
      refine sum_infinite_left fun opposite => ?_
      cases s <;> simp only [isNegative, signed_true, signed_false] at same opposite <;> omega
    cases w with
    | notANumber => cases hj
    | infinity t =>
      have same' := Option.some.inj hj
      have agree : s = t := by
        cases s <;> cases t <;> simp only [isNegative, signed_true, signed_false] at same same' <;>
          first | rfl | omega
      subst agree
      rw [stays, ← infinite s]
      cases s <;> rfl
    | zero t => rw [stays, ← infinite s]; rfl
    | finite t n f pos => rw [stays, ← infinite s]; rfl
  | zero s =>
    have fu := units?_inside hu hi rfl
    cases w with
    | notANumber => cases hj
    | infinity t =>
      have same := Option.some.inj hj
      rw [sum_comm, ← same, sum_infinite_left, ← infinite t]
      · rfl
      · cases t <;> simp only [isNegative, signed_true, signed_false] <;> omega
    | zero t =>
      have nothing : i = 0 ∧ j = 0 := by
        cases hi; cases hj
        cases s <;> cases t <;> simp [isNegative]
      rw [sum_of_inside fu (units?_inside hw hj rfl), nothing.1, nothing.2]
      have total : roundedInt (0 + 0) = 0 := by simp [roundedInt, rounded_zero]
      rw [total]
      cases s <;> cases t <;> exact zero _
    | finite t n f pos =>
      have nothing : i = 0 := by
        cases hi
        cases s <;> simp [isNegative]
      rw [sum_of_inside fu (units?_inside hw hj rfl), nothing, Int.zero_add,
        roundedInt_of_inRange hw hj rfl, ← hj]
      exact congrArg (fun u => (ofUnpacked u).units?) (unpack_pack hw)
  | finite s m e pos =>
    have fu := units?_inside hu hi rfl
    cases w with
    | notANumber => cases hj
    | infinity t =>
      have same := Option.some.inj hj
      rw [sum_comm, ← same, sum_infinite_left, ← infinite t]
      · rfl
      · cases t <;> simp only [isNegative, signed_true, signed_false] <;> omega
    | zero t =>
      have nothing : j = 0 := by
        cases hj
        cases t <;> simp [isNegative]
      rw [sum_of_inside fu (units?_inside hw hj rfl), nothing, Int.add_zero,
        roundedInt_of_inRange hu hi rfl, ← hi]
      exact congrArg (fun u => (ofUnpacked u).units?) (unpack_pack hu)
    | finite t n f pos' =>
      have leastE := (hu _ _ _ _ rfl).1.least
      have leastF := (hw _ _ _ _ rfl).1.least
      rw [sum_of_inside fu (units?_inside hw hj rfl), ← Option.some.inj hi, ← Option.some.inj hj,
        ← apply_decreaseExponent s m (f := min e f) (by omega) (by omega),
        ← apply_decreaseExponent t n (f := min e f) (by omega) (by omega), ← Int.add_mul]
      exact units?_normalize _ (by omega)

/-! ## Truncation -/

theorem scaled_bounds {m : Nat} {e : Int} (least : -1074 ≤ e) {width : Nat} (h : m < 2 ^ width) :
    let last := max (e + width - 53) (-1074)
    let scaled := if e ≤ last then m / 2 ^ (last - e).toNat else m * 2 ^ (e - last).toNat
    scaled < 2 ^ 53 ∧ scaled * 2 ^ (last + 1074).toNat ≤ m * 2 ^ (e + 1074).toNat := by
  intro last scaled
  have floor : -1074 ≤ last := le_max_right _ _
  have room : e + width - 53 ≤ last := le_max_left _ _
  show (if e ≤ last then m / 2 ^ (last - e).toNat else m * 2 ^ (e - last).toNat) < 2 ^ 53 ∧
    (if e ≤ last then m / 2 ^ (last - e).toNat else m * 2 ^ (e - last).toNat) *
      2 ^ (last + 1074).toNat ≤ m * 2 ^ (e + 1074).toNat
  clear_value last
  split
  · next up =>
    have split : (last + 1074).toNat = (last - e).toNat + (e + 1074).toNat := by omega
    constructor
    · refine Nat.div_lt_of_lt_mul (Nat.lt_of_lt_of_le h ?_)
      rw [← Nat.pow_add]
      exact Nat.pow_le_pow_right (by decide) (by omega)
    · rw [split, Nat.pow_add, ← Nat.mul_assoc]
      exact Nat.mul_le_mul_right _ (Nat.div_mul_le_self _ _)
  · next down =>
    have split : (e + 1074).toNat = (e - last).toNat + (last + 1074).toNat := by omega
    constructor
    · calc m * 2 ^ (e - last).toNat < 2 ^ width * 2 ^ (e - last).toNat :=
            Nat.mul_lt_mul_of_pos_right h (Nat.two_pow_pos _)
        _ = 2 ^ (width + (e - last).toNat) := (Nat.pow_add ..).symm
        _ ≤ 2 ^ 53 := Nat.pow_le_pow_right (by decide) (by omega)
    · rw [split, Nat.pow_add, ← Nat.mul_assoc]

end Double

open Double

/-- A form that is too long for a double is cut toward zero. -/
theorem standing?_pack (negative : Bool) {m : Nat} {e : Int} (least : -1074 ≤ e)
    (small : m * 2 ^ (e + 1074).toNat < beyond) :
    ∃ k ≤ m * 2 ^ (e + 1074).toNat, standing? (pack negative m e) = some (signed negative k) := by
  obtain ⟨width, wide, bound⟩ : ∃ width : Nat,
      (if m = 0 then (0 : Int) else m.log2 + 1) = width ∧ m < 2 ^ width := by
    rcases Nat.eq_zero_or_pos m with rfl | pos
    · exact ⟨0, rfl, by decide⟩
    · exact ⟨m.log2 + 1, by rw [if_neg (by omega)]; rfl, Nat.lt_log2_self⟩
  obtain ⟨narrow, below⟩ := scaled_bounds least bound
  have floor : -1074 ≤ max (e + width - 53) (-1074) := le_max_right _ _
  simp only [pack, wide, Nat.pow_eq]
  generalize (if e ≤ max (e + (width : Int) - 53) (-1074) then
    m / 2 ^ (max (e + (width : Int) - 53) (-1074) - e).toNat
    else m * 2 ^ (e - max (e + (width : Int) - 53) (-1074)).toNat) = scaled at *
  generalize max (e + (width : Int) - 53) (-1074) = last at *
  have sign : (if negative = true then 2 ^ 63 else 0) = signBit negative := rfl
  rw [sign]
  have signed_le : signBit negative ≤ 2 ^ 63 := by cases negative <;> decide
  split
  · next subnormal =>
    refine ⟨scaled, Nat.le_trans (Nat.le_mul_of_pos_right _ (Nat.two_pow_pos _)) below, ?_⟩
    have fields := ofBits_fields negative (e := 0) (f := scaled) (by decide) subnormal
    rw [Nat.zero_mul, Nat.add_zero, if_pos rfl] at fields
    rw [standing?_ofBits (by omega), fields, units?]
    simp
  · next normal =>
    have inside : last ≤ 971 := by
      have : 2 ^ (52 + (last + 1074).toNat) < 2 ^ widest := by
        refine Nat.lt_of_le_of_lt ?_ (Nat.lt_of_le_of_lt below small)
        rw [Nat.pow_add]
        exact Nat.mul_le_mul_right _ (by omega)
      have := (Nat.pow_lt_pow_iff_right (by decide)).1 this
      unfold widest at this
      omega
    refine ⟨scaled * 2 ^ (last + 1074).toNat, below, ?_⟩
    have fields := ofBits_fields negative (e := (last + 1075).toNat) (f := scaled - 2 ^ 52)
      (by omega) (by omega)
    rw [Nat.add_assoc, if_neg (by omega)] at fields
    rw [standing?_ofBits (by omega), fields, units?]
    have mantissa : scaled - 2 ^ 52 + 2 ^ 52 = scaled := by omega
    have exponent : ((last + 1075).toNat : Int) - 1075 + 1074 = last + 1074 := by omega
    rw [mantissa, exponent]

/-! ## Arithmetic -/

theorem sub_eq_add (x y : Float) : x - y = x + -y := by
  have parts (u w : UnpackedFloat) :
      UnpackedFloat.sub Format.binary64 u w = UnpackedFloat.add Format.binary64 u w.neg := by
    rcases u with s | _ | s | ⟨s, m, e, pos⟩ <;> rcases w with t | _ | t | ⟨t, n, f, pos'⟩ <;>
      try rfl
    have negated (k : Int) : -t.apply k = (-t).apply k := by
      cases t
      · exact Int.neg_neg k
      · rfl
    simp only [UnpackedFloat.sub, UnpackedFloat.add, UnpackedFloat.neg, Int.sub_eq_add_neg, negated]
  show Float.ofModel (.pack (UnpackedFloat.sub _ _ _)) = .ofModel (.pack (UnpackedFloat.add _ _ _))
  rw [parts, unpack_neg]

theorem standing?_add {x y : Float} {i j : Int} (hi : standing? x = some i)
    (hj : standing? y = some j) (h : ¬(i = beyond ∧ j = -beyond))
    (h' : ¬(i = -beyond ∧ j = beyond)) : standing? (x + y) = some (sum i j) := by
  rw [standing?_eq] at hi hj
  exact (standing?_ofModel_pack _).trans (units?_add (inRange x) (inRange y) hi hj h h')

/-- Sums grow with their parts, where those at one end are finite. -/
theorem add_monotone {x y x' y' : Float} (hx : x ≤ x') (hy : y ≤ y')
    (finite : (x.isFinite = true ∧ y.isFinite = true) ∨ (x'.isFinite = true ∧ y'.isFinite = true)) :
    x + y ≤ x' + y' := by
  obtain ⟨i, i', hi, hi', le⟩ := le_iff.1 hx
  obtain ⟨j, j', hj, hj', le'⟩ := le_iff.1 hy
  have := standing?_within hi
  have := standing?_within hj
  have := standing?_within hi'
  have := standing?_within hj'
  have inside : (-(beyond : Int) < i ∧ -(beyond : Int) < j) ∨ (i' < beyond ∧ j' < beyond) := by
    refine finite.imp (fun ⟨fx, fy⟩ => ?_) (fun ⟨fx, fy⟩ => ?_)
    · obtain ⟨_, found, above, -⟩ := isFinite_iff.1 fx
      obtain ⟨_, found', above', -⟩ := isFinite_iff.1 fy
      rw [hi] at found
      rw [hj] at found'
      cases found
      cases found'
      exact ⟨above, above'⟩
    · obtain ⟨_, found, -, below⟩ := isFinite_iff.1 fx
      obtain ⟨_, found', -, below'⟩ := isFinite_iff.1 fy
      rw [hi'] at found
      rw [hj'] at found'
      cases found
      cases found'
      exact ⟨below, below'⟩
  refine le_iff.2 ⟨_, _, standing?_add hi hj (by omega) (by omega),
    standing?_add hi' hj' (by omega) (by omega), sum_mono le le' ?_ ?_ ?_ ?_⟩ <;> omega

theorem sub_monotone {x y x' y' : Float} (hx : x ≤ x') (hy : y' ≤ y)
    (finite : (x.isFinite = true ∧ y.isFinite = true) ∨ (x'.isFinite = true ∧ y'.isFinite = true)) :
    x - y ≤ x' - y' := by
  rw [sub_eq_add, sub_eq_add]
  refine add_monotone hx (neg_antitone hy) (finite.imp (And.imp_right ?_) (And.imp_right ?_)) <;>
    exact fun h => by rwa [isFinite_neg]

theorem exists_finite {x : Float} {i : Int} (hi : standing? x = some i) (fx : x.isFinite = true) :
    ∃ negative m e, ofFloat x = .finite negative m e ∧ -1074 ≤ e ∧
      i = signed negative (m * 2 ^ (e + 1074).toNat) := by
  obtain ⟨_, found, above, below⟩ := isFinite_iff.1 fx
  cases hi.symm.trans found
  rw [standing?] at found
  cases view : ofFloat x with
  | notANumber => rw [view] at found; cases found
  | infinite negative =>
    rw [view] at found
    cases found
    cases negative <;> simp only [signed_true, signed_false] at above below <;> omega
  | finite negative m e =>
    rw [view] at found
    exact ⟨negative, m, e, rfl, (shaped_of_ofBits view).1.least, (Option.some.inj found).symm⟩

/-- A remainder is closer to zero than the divisor, and not on the other side of zero than the
dividend. -/
theorem standing?_remainder {x y : Float} {i j : Int} (hi : standing? x = some i)
    (hj : standing? y = some j) (fx : x.isFinite = true) (fy : y.isFinite = true) (some_ : j ≠ 0) :
    ∃ k, standing? (remainder x y) = some k ∧ k.natAbs < j.natAbs ∧ (0 ≤ i → 0 ≤ k) ∧
      (i ≤ 0 → k ≤ 0) := by
  obtain ⟨negative, m, q, hx, leastQ, place⟩ := exists_finite hi fx
  obtain ⟨negative', n, r, hy, leastR, place'⟩ := exists_finite hj fy
  have size : j.natAbs = n * 2 ^ (r + 1074).toNat := by
    rw [place']
    cases negative' <;> simp [Int.natAbs_mul, Int.natAbs_pow]
  have pos : 0 < n := Nat.pos_of_ne_zero (by rintro rfl; omega)
  have divisor : n * 2 ^ (r - min q r).toNat * 2 ^ (min q r + 1074).toNat = j.natAbs := by
    rw [size, Nat.mul_assoc, ← Nat.pow_add]
    congr 2
    omega
  generalize left : m * 2 ^ (q - min q r).toNat % (n * 2 ^ (r - min q r).toNat) = rest
  have below : rest * 2 ^ (min q r + 1074).toNat < j.natAbs := by
    rw [← divisor, ← left]
    exact Nat.mul_lt_mul_of_pos_right (Nat.mod_lt _ (Nat.mul_pos pos (Nat.two_pow_pos _)))
      (Nat.two_pow_pos _)
  have inside := standing?_within hj
  obtain ⟨k, bound, stands⟩ :=
    standing?_pack negative (m := rest) (e := min q r) (by omega) (by omega)
  have computed : remainder x y = pack negative rest (min q r) := by
    rw [remainder, hx, hy, Double.remainder, if_neg (Nat.ne_of_gt pos), ← left]
    rfl
  refine ⟨_, computed ▸ stands, ?_⟩
  have nothing : i = 0 → k = 0 := by
    rintro rfl
    have zero : m * 2 ^ (q + 1074).toNat = 0 := by
      cases negative <;> simp only [signed_true, signed_false] at place <;> omega
    have zero : m = 0 := (Nat.mul_eq_zero.1 zero).resolve_right (Nat.ne_of_gt (Nat.two_pow_pos _))
    rw [zero, Nat.zero_mul, Nat.zero_mod] at left
    rw [← left, Nat.zero_mul] at bound
    omega
  cases negative <;> simp only [signed_true, signed_false] at place ⊢ <;> omega

/-! ## Results that are numbers -/

theorem isSome_standing?_pack {u : UnpackedFloat} (h : u ≠ .notANumber) :
    (standing? (.ofModel (.pack u))).isSome = true := by
  rw [standing?_ofModel_pack]
  show (ofUnpacked (UnpackedFloat.unpack Format.binary64
    (UnpackedFloat.pack Format.binary64 u))).units?.isSome = true
  rw [ofUnpacked_unpack]
  cases u with
  | notANumber => exact absurd rfl h
  | infinity s => cases s <;> decide
  | zero s => cases s <;> decide
  | finite s m e pos =>
    have infinite : (ofBits (UnpackedFloat.packedInfinity Format.binary64 s).toNat).units?.isSome =
        true := by cases s <;> decide
    have finite (e : BitVec 11) (m : BitVec 52) (small : e.toNat < 2047) :
        (ofBits (UnpackedFloat.packComponents Format.binary64 s e m).toNat).units?.isSome =
          true := by
      rw [toNat_packComponents, ofBits_fields _ small m.isLt]
      split <;> rfl
    rw [UnpackedFloat.pack]
    split
    · exact infinite
    · next inside =>
      have inside : (e + Format.binary64.exponentBias + 52).toNat + 1 < 2048 :=
        Nat.lt_of_not_le inside
      split
      · refine finite _ _ ?_
        rw [BitVec.toNat_ofNat]
        exact Nat.lt_of_le_of_lt (Nat.mod_le _ _) (Nat.lt_of_succ_lt_succ inside)
      · exact finite _ _ (by decide)

theorem roundWithAccuracy_ne_notANumber (s : Sign) (m : Nat) (e : Int) (a : Accuracy) :
    UnpackedFloat.roundWithAccuracy Format.binary64 s m e a ≠ .notANumber := by
  unfold UnpackedFloat.roundWithAccuracy
  dsimp only
  split <;> simp

theorem isSome_standing?_add {x y : Float} (fx : x.isFinite = true) (fy : y.isFinite = true) :
    (standing? (x + y)).isSome = true := by
  obtain ⟨i, hi, above, below⟩ := isFinite_iff.1 fx
  obtain ⟨j, hj, above', below'⟩ := isFinite_iff.1 fy
  rw [standing?_add hi hj (by omega) (by omega)]
  rfl

theorem isSome_standing?_mul {x y : Float} (fx : x.isFinite = true) (fy : y.isFinite = true) :
    (standing? (x * y)).isSome = true := by
  replace fx : x.toModel.unpack.isFinite = true := fx
  replace fy : y.toModel.unpack.isFinite = true := fy
  refine isSome_standing?_pack (u := UnpackedFloat.mul _ x.toModel.unpack y.toModel.unpack) ?_
  generalize x.toModel.unpack = u, y.toModel.unpack = w at *
  cases u <;> cases fx <;> cases w <;> cases fy <;>
    simp [UnpackedFloat.mul, roundWithAccuracy_ne_notANumber]

theorem isSome_standing?_div {x y : Float} (fx : x.isFinite = true) (fy : y.isFinite = true)
    (divides : ¬(y == 0.0) = true) : (standing? (x / y)).isSome = true := by
  have some_ : standing? y ≠ some 0 := fun zero => divides (beq_iff.2 ⟨0, zero, by decide⟩)
  rw [standing?_eq] at some_
  replace fx : x.toModel.unpack.isFinite = true := fx
  replace fy : y.toModel.unpack.isFinite = true := fy
  refine isSome_standing?_pack (u := UnpackedFloat.div _ x.toModel.unpack y.toModel.unpack) ?_
  generalize x.toModel.unpack = u, y.toModel.unpack = w at *
  cases w with
  | notANumber => cases fy
  | infinity t => cases fy
  | zero t => cases t <;> simp [ofUnpacked, units?, isNegative] at some_
  | finite t n f pos =>
    cases u <;> cases fx <;> simp [UnpackedFloat.div, roundWithAccuracy_ne_notANumber]

end PathTyping.Decimal
