/-
# The penalty of a limit

A limit is a penalty with three pieces: a falling one below the lower end, a rising one above the
upper end, zero between. The ends are moved inwards by the threshold, and the lower one is looked
at first. As long as they stay in order the penalty is continuous and each of its slopes supports
it from below. Once the bands overlap there is no zero piece: past the middle of the limit the
penalty is still on the falling piece, with the rising one already above it, and jumps to that one
at the lower end (`Bounds.Jumps`). This is the only way for either property to fail.

Key definitions: `Bounds.penalty`, `Bounds.penaltySlope`, `Bounds.Jumps`.
Key theorems: `Bounds.pieces`, `Bounds.supports_iff`, `Bounds.penalty_supported`.
-/
import Kinodynamics.Proofs.Reals
import Kinodynamics.Factor

namespace Kinodynamics
namespace Bounds

/-- The lower end, moved inwards. -/
noncomputable def low (l : Bounds ℝ) : ℝ := l.lower + l.threshold

/-- The upper end, moved inwards. -/
noncomputable def high (l : Bounds ℝ) : ℝ := l.upper - l.threshold

/-- The residual of the limit. -/
noncomputable def penalty (l : Bounds ℝ) (x : ℝ) : ℝ := Factor.limitResidual l.low l.high x

/-- The slope that goes with the residual. -/
noncomputable def penaltySlope (l : Bounds ℝ) (x : ℝ) : ℝ := Factor.limitSlope l.low l.high x

/-- Between the numbers the penalty goes from the falling piece, where it is below the rising
one, to the rising piece. -/
def Jumps (l : Bounds ℝ) (x y : ℝ) : Prop := l.low - x < x - l.high ∧ x < l.low ∧ l.low ≤ y

variable {l : Bounds ℝ} {x y : ℝ}

/-- The falling, the rising and the zero piece. -/
theorem pieces (l : Bounds ℝ) (x : ℝ) :
    (x < l.low ∧ l.penalty x = l.low - x ∧ l.penaltySlope x = -1) ∨
    ((l.low ≤ x ∧ l.high < x) ∧ l.penalty x = x - l.high ∧ l.penaltySlope x = 1) ∨
    ((l.low ≤ x ∧ x ≤ l.high) ∧ l.penalty x = 0 ∧ l.penaltySlope x = 0) := by
  unfold penalty penaltySlope Factor.limitResidual Factor.limitSlope
  split_ifs with hlow hhigh
  · exact .inl ⟨hlow, rfl, rfl⟩
  · exact .inr (.inl ⟨⟨not_lt.mp hlow, hhigh⟩, rfl, rfl⟩)
  · exact .inr (.inr ⟨⟨not_lt.mp hlow, not_lt.mp hhigh⟩, rfl, rfl⟩)

theorem abs_penaltySlope_le (l : Bounds ℝ) (x : ℝ) : |l.penaltySlope x| ≤ 1 := by
  obtain ⟨-, -, hslope⟩ | ⟨-, -, hslope⟩ | ⟨-, -, hslope⟩ := l.pieces x <;> rw [hslope] <;> norm_num

/-- **The slope at one number supports the penalty at the other** unless the penalty jumps down on
the way there. -/
theorem supports_iff :
    l.penalty x + l.penaltySlope x * (y - x) ≤ l.penalty y ↔ ¬l.Jumps y x := by
  -- from one piece to another the slope only asks for too much on the way down a jump
  obtain ⟨hx, hpx, hsx⟩ | ⟨hx, hpx, hsx⟩ | ⟨hx, hpx, hsx⟩ := l.pieces x <;>
    obtain ⟨hy, hpy, hsy⟩ | ⟨hy, hpy, hsy⟩ | ⟨hy, hpy, hsy⟩ := l.pieces y <;>
    rw [hpx, hsx, hpy] <;>
    refine ⟨fun hle ⟨hbelow, hfalling, hrising⟩ => by linarith, fun hstay => ?_⟩ <;>
    by_contra hlt <;>
    exact hstay ⟨by linarith, by linarith, by linarith⟩

/-- A jump is longer than the way. -/
theorem lt_abs_of_jumps (h : l.Jumps x y) : |x - y| < |l.penalty x - l.penalty y| := by
  obtain ⟨hbelow, hfalling, hrising⟩ := h
  have hx : l.penalty x = l.low - x := if_pos hfalling
  have hy : l.penalty y = y - l.high :=
    (if_neg (not_lt.mpr hrising)).trans (if_pos (by linarith))
  calc |x - y| = y - x := by rw [abs_sub_comm, abs_of_pos (by linarith)]
    _ < l.penalty y - l.penalty x := by linarith
    _ ≤ |l.penalty x - l.penalty y| := by rw [abs_sub_comm]; exact le_abs_self _

/-- Where a slope supports the penalty, the penalty falls at most as fast as one. -/
theorem sub_le_of_supports (h : l.penalty x + l.penaltySlope x * (y - x) ≤ l.penalty y) :
    l.penalty x - l.penalty y ≤ |x - y| :=
  calc l.penalty x - l.penalty y ≤ l.penaltySlope x * (x - y) := by linarith
    _ ≤ |l.penaltySlope x| * |x - y| := abs_mul (l.penaltySlope x) _ ▸ le_abs_self _
    _ ≤ |x - y| := mul_le_of_le_one_left (abs_nonneg _) (l.abs_penaltySlope_le x)

theorem abs_penalty_sub_le_iff : |l.penalty x - l.penalty y| ≤ |x - y| ↔ ¬l.Jumps x y ∧ ¬l.Jumps y x := by
  constructor
  · refine fun hle => ⟨fun h => (lt_abs_of_jumps h).not_ge hle, fun h => ?_⟩
    rw [abs_sub_comm, abs_sub_comm x] at hle
    exact (lt_abs_of_jumps h).not_ge hle
  · rintro ⟨hxy, hyx⟩
    refine abs_sub_le_iff.mpr ⟨sub_le_of_supports (supports_iff.mpr hyx), ?_⟩
    rw [abs_sub_comm]
    exact sub_le_of_supports (supports_iff.mpr hxy)

/-- There is a jump exactly if the moved ends are out of order. -/
theorem forall_not_jumps_iff : (∀ x y, ¬l.Jumps x y) ↔ l.low ≤ l.high := by
  constructor
  · intro h
    by_contra hoverlap
    -- a quarter of the overlap before the lower end
    exact h (l.low - (l.low - l.high) / 4) l.low ⟨by linarith, by linarith, le_rfl⟩
  · rintro hle x y ⟨hbelow, hfalling, -⟩
    linarith

/-- **The penalty of a limit and its slope.** The factor of a limit answers with them. The penalty
changes at most by the distance of two numbers unless it jumps between them, the slope at one
supports it at the other unless it jumps down on the way, and neither ever fails exactly if the
ends that the threshold has moved are in order. -/
theorem penalty_supported (l : Bounds ℝ) :
    (∀ x, (Factor.ofLimit l).linearize? [[x]] =
      some ⟨[l.penalty x], Dense.ofFn 1 1 fun _ _ => l.penaltySlope x⟩) ∧
    (∀ x y, (|l.penalty x - l.penalty y| ≤ |x - y| ↔ ¬l.Jumps x y ∧ ¬l.Jumps y x) ∧
      (l.penalty x + l.penaltySlope x * (y - x) ≤ l.penalty y ↔ ¬l.Jumps y x)) ∧
    ((∀ x y, |l.penalty x - l.penalty y| ≤ |x - y| ∧
      l.penalty x + l.penaltySlope x * (y - x) ≤ l.penalty y) ↔ l.low ≤ l.high) := by
  refine ⟨fun x => rfl, fun x y => ⟨abs_penalty_sub_le_iff, supports_iff⟩, ?_⟩
  rw [← forall_not_jumps_iff]
  constructor
  · exact fun h x y => (abs_penalty_sub_le_iff.mp (h x y).1).1
  · exact fun h x y => ⟨abs_penalty_sub_le_iff.mpr ⟨h x y, h y x⟩, supports_iff.mpr (h y x)⟩

/-- Bounds in order, each with a band as wide as the interval. -/
noncomputable def overlapping : Bounds ℝ := ⟨0, 1, 1⟩

/-- **Bands that overlap.** On the way from three quarters to one the penalty goes from one quarter
to one, and the slope at one does not support it at three quarters. -/
theorem penalty_overlapping :
    overlapping.isValid = true ∧ 0 ≤ overlapping.threshold ∧
    (overlapping.penalty (3 / 4) = 1 / 4 ∧ overlapping.penalty 1 = 1 ∧ overlapping.penaltySlope 1 = 1) ∧
    ¬|overlapping.penalty (3 / 4) - overlapping.penalty 1| ≤ |3 / 4 - 1| ∧
    ¬overlapping.penalty 1 + overlapping.penaltySlope 1 * (3 / 4 - 1) ≤ overlapping.penalty (3 / 4) := by
  have hjumps : overlapping.Jumps (3 / 4) 1 := by norm_num [Jumps, low, high, overlapping]
  refine ⟨by norm_num [isValid, overlapping], by norm_num [overlapping], ⟨?_, ?_, ?_⟩,
    not_le.mpr (lt_abs_of_jumps hjumps), fun hle => supports_iff.mp hle hjumps⟩
  · norm_num [penalty, Factor.limitResidual, low, overlapping]
  · norm_num [penalty, Factor.limitResidual, low, high, overlapping]
  · norm_num [penaltySlope, Factor.limitSlope, low, high, overlapping]

/-- The limits that a joint has by default leave room between their bands. -/
theorem low_le_high_of_standard {l : Bounds ℝ}
    (hl : l ∈ (JointSettings.standard : JointSettings ℝ).limits) : l.low ≤ l.high := by
  have hpi : (3 : ℝ) < Scalar.pi := Real.pi_gt_three
  simp only [JointSettings.limits, JointSettings.standard, symmetric, List.mem_cons, List.not_mem_nil,
    or_false] at hl
  obtain rfl | rfl | rfl | rfl := hl
  · norm_num [low, high]
    linarith
  all_goals norm_num [low, high]

end Bounds
end Kinodynamics
