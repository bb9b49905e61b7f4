/-!
# Ranges of code points

A property of characters is given by a list of closed ranges in ascending order.

1. `inRanges_of_mem`: a number between the ends of a listed range is found.
-/

namespace PathTyping.Text

/-- Looks a number up in ascending ranges. -/
def inRanges : List (Nat × Nat) → Nat → Bool
  | [], _ => false
  | (low, high) :: rest, n => low ≤ n && (n ≤ high || inRanges rest n)

/-- Each range ends before the next one starts. -/
def Ascending : List (Nat × Nat) → Bool
  | [] => true
  | [(low, high)] => low ≤ high
  | (low, high) :: (low', high') :: rest =>
    low ≤ high && high < low' && Ascending ((low', high') :: rest)

theorem head_le_of_ascending {low high : Nat} {rest : List (Nat × Nat)}
    (h : Ascending ((low, high) :: rest) = true) : ∀ r ∈ rest, low ≤ r.1 := by
  induction rest generalizing low high with
  | nil => simp
  | cons r rest ih =>
    obtain ⟨low', high'⟩ := r
    simp only [Ascending, Bool.and_eq_true, decide_eq_true_eq] at h
    intro s hs
    rcases List.mem_cons.1 hs with rfl | hs
    · exact Nat.le_of_lt (Nat.lt_of_le_of_lt h.1.1 h.1.2)
    · exact Nat.le_trans (Nat.le_of_lt (Nat.lt_of_le_of_lt h.1.1 h.1.2)) (ih h.2 s hs)

theorem ascending_tail {r : Nat × Nat} {rest : List (Nat × Nat)}
    (h : Ascending (r :: rest) = true) : Ascending rest = true := by
  cases rest with
  | nil => rfl
  | cons s rest => simp only [Ascending, Bool.and_eq_true] at h; exact h.2

theorem inRanges_of_mem {ranges : List (Nat × Nat)} (h : Ascending ranges = true) {n : Nat}
    {r : Nat × Nat} (hr : r ∈ ranges) (low : r.1 ≤ n) (high : n ≤ r.2) :
    inRanges ranges n = true := by
  induction ranges with
  | nil => simp at hr
  | cons s rest ih =>
    rcases List.mem_cons.1 hr with rfl | hr
    · simp [inRanges, low, high]
    · have first := Nat.le_trans (head_le_of_ascending h r hr) low
      simp [inRanges, first, ih (ascending_tail h) hr]

end PathTyping.Text
