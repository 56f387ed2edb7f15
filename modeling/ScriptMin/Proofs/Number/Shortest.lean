import Mathlib.Algebra.Order.Field.Basic
import Mathlib.Data.Rat.Cast.Order
import Mathlib.Tactic.NormNum
import Mathlib.Tactic.Ring
import ScriptMin.Number.Shortest

/-!
Shortest decimals read back. The search for a shortest decimal never fails, what it finds lies
in the interval of the number, and every value in that interval is rounded to the number.
-/

namespace ScriptMin

def Decimal.value (d : Decimal) : ℚ := d.digits * 10 ^ d.exponent

namespace Number

variable {v w : Number} {i : Interval} {tie : Tie} {exponent : Int} {d : Decimal}

/-! ### Points of an interval -/

def quartersPerOne : ℚ := 4 * unitsPerOne

/-- A value lies in an interval. -/
@[mk_iff]
structure Interval.Has (i : Interval) (x : ℚ) : Prop where
  low : i.low ≤ quartersPerOne * x
  high : quartersPerOne * x ≤ i.high
  inside : i.closed = false → (i.low : ℚ) ≠ quartersPerOne * x ∧ quartersPerOne * x ≠ i.high

theorem scale_pos (exponent : Int) : 0 < (gridStep exponent).2 := Nat.pow_pos (by decide)

theorem unitsPerOne_eq : ∃ places ≤ 1074, unitsPerOne = 2 ^ places := by
  unfold unitsPerOne
  generalize 1074 = places
  exact ⟨places, Nat.le_refl places, rfl⟩

theorem unitsPerOne_pos : 0 < unitsPerOne := by
  obtain ⟨places, -, hunits⟩ := unitsPerOne_eq
  rw [hunits]
  exact Nat.two_pow_pos places

theorem step_pos (exponent : Int) : 0 < (gridStep exponent).1 :=
  Nat.mul_pos (Nat.mul_pos (by decide) unitsPerOne_pos) (Nat.pow_pos (by decide))

/-- The step of a grid is a power of ten. -/
theorem step_eq_mul_scale (exponent : Int) :
    ((gridStep exponent).1 : ℚ) = quartersPerOne * 10 ^ exponent * (gridStep exponent).2 := by
  have hpow : (10 : ℚ) ^ exponent.toNat = 10 ^ exponent * 10 ^ (-exponent).toNat := by
    rw [← zpow_natCast, ← zpow_natCast, ← zpow_add₀ (by norm_num)]
    congr 1
    omega
  rw [gridStep, quartersPerOne]
  simp only [Nat.pow_eq, Nat.cast_mul, Nat.cast_pow, Nat.cast_ofNat]
  rw [hpow]
  ring

/-- A point of a grid in quarters of the least positive number. -/
theorem point_eq (count : Nat) (exponent : Int) : ((count * (gridStep exponent).1 : Nat) : ℚ) =
    quartersPerOne * (count * 10 ^ exponent) * (gridStep exponent).2 := by
  rw [Nat.cast_mul, step_eq_mul_scale]
  ring

theorem le_point_iff {bound count : Nat} :
    (bound : ℚ) ≤ quartersPerOne * (count * 10 ^ exponent) ↔
      bound * (gridStep exponent).2 ≤ count * (gridStep exponent).1 := by
  have hscale : (0 : ℚ) < (gridStep exponent).2 := by exact_mod_cast scale_pos exponent
  rw [← Nat.cast_le (α := ℚ), point_eq, Nat.cast_mul, mul_le_mul_iff_left₀ hscale]

theorem point_le_iff {bound count : Nat} :
    quartersPerOne * (count * 10 ^ exponent) ≤ (bound : ℚ) ↔
      count * (gridStep exponent).1 ≤ bound * (gridStep exponent).2 := by
  have hscale : (0 : ℚ) < (gridStep exponent).2 := by exact_mod_cast scale_pos exponent
  rw [← Nat.cast_le (α := ℚ), point_eq, Nat.cast_mul, mul_le_mul_iff_left₀ hscale]

/-- A point of a grid in an interval, compared with the ends in whole numbers. -/
theorem has_point_iff {count : Nat} : i.Has (count * 10 ^ exponent) ↔
    i.low * (gridStep exponent).2 ≤ count * (gridStep exponent).1 ∧
      count * (gridStep exponent).1 ≤ i.high * (gridStep exponent).2 ∧
      (i.closed = false → i.low * (gridStep exponent).2 ≠ count * (gridStep exponent).1 ∧
        count * (gridStep exponent).1 ≠ i.high * (gridStep exponent).2) := by
  have hlow : (i.low : ℚ) = quartersPerOne * (count * 10 ^ exponent) ↔
      i.low * (gridStep exponent).2 = count * (gridStep exponent).1 := by
    rw [le_antisymm_iff, le_antisymm_iff, le_point_iff, point_le_iff]
  have hhigh : quartersPerOne * (count * 10 ^ exponent) = (i.high : ℚ) ↔
      count * (gridStep exponent).1 = i.high * (gridStep exponent).2 := by
    rw [le_antisymm_iff, le_antisymm_iff, le_point_iff, point_le_iff]
  rw [Interval.has_iff, le_point_iff, point_le_iff, Ne, Ne, hlow, hhigh]

theorem has_of_contains {count : Nat}
    (h : i.contains (gridStep exponent).1 (gridStep exponent).2 count) :
    i.Has (count * 10 ^ exponent) := by
  rw [has_point_iff]
  rw [Interval.contains] at h
  split at h
  case isTrue hclosed =>
      obtain ⟨hlow, hhigh⟩ := of_decide_eq_true h
      exact ⟨hlow, hhigh, fun hopen => absurd hclosed (Bool.eq_false_iff.mp hopen)⟩
  case isFalse =>
      obtain ⟨hlow, hhigh⟩ := of_decide_eq_true h
      exact ⟨hlow.le, hhigh.le, fun _ => ⟨hlow.ne, hhigh.ne⟩⟩

/-! ### Searching -/

/-- What is picked is a point of the grid that lies in the interval. -/
theorem contains_of_pick (h : i.pick tie exponent = some d) : d.exponent = exponent ∧
    i.contains (gridStep exponent).1 (gridStep exponent).2 d.digits := by
  unfold Interval.pick at h
  generalize gridStep exponent = grid at h ⊢
  obtain ⟨step, scale⟩ := grid
  dsimp only at h ⊢
  split at h
  case h_1 hlower hupper =>
      cases h
      refine ⟨rfl, ?_⟩
      dsimp only
      split
      · exact (Bool.and_eq_true_iff.mp hlower).1
      · exact hupper
  case h_2 hlower hupper =>
      cases h
      exact ⟨rfl, (Bool.and_eq_true_iff.mp hlower).1⟩
  case h_3 hlower hupper =>
      cases h
      exact ⟨rfl, hupper⟩
  case h_4 => cases h

theorem has_of_pick (h : i.pick tie exponent = some d) : i.Has d.value := by
  obtain ⟨hexponent, hcontains⟩ := contains_of_pick h
  rw [Decimal.value, hexponent]
  exact has_of_contains hcontains

theorem has_of_searchGrids {fuel : Nat} (h : searchGrids i tie exponent fuel = some d) :
    i.Has d.value := by
  induction fuel generalizing exponent with
  | zero => cases h
  | succ fuel ih =>
      rw [searchGrids, Option.orElse_eq_orElse, Option.orElse_eq_or, Option.or_eq_some_iff] at h
      rcases h with h | ⟨-, h⟩
      · exact has_of_pick h
      · exact ih h

/-- A grid that is fine enough has a point in the interval: the next one above the number. -/
theorem exists_pick (hlow : i.low ≤ i.middle)
    (hfine : i.middle * (gridStep exponent).2 + (gridStep exponent).1 <
      i.high * (gridStep exponent).2) : ∃ d, i.pick tie exponent = some d := by
  have hstep := step_pos exponent
  unfold Interval.pick
  generalize gridStep exponent = grid at hstep hfine ⊢
  obtain ⟨step, scale⟩ := grid
  dsimp only at hstep hfine ⊢
  have hupper : i.contains step scale (i.middle * scale / step + 1) := by
    have hdiv := Nat.div_add_mod (i.middle * scale) step
    have hmod := Nat.mod_lt (i.middle * scale) hstep
    have hscaled := Nat.mul_le_mul_right scale hlow
    have hpoint : (i.middle * scale / step + 1) * step =
        step * (i.middle * scale / step) + step := by ring
    rw [Interval.contains, hpoint]
    split
    · exact decide_eq_true ⟨by omega, by omega⟩
    · exact decide_eq_true ⟨by omega, by omega⟩
  rw [hupper]
  cases i.contains step scale (i.middle * scale / step) && i.middle * scale / step != 0 with
  | true => exact ⟨_, rfl⟩
  | false => exact ⟨_, rfl⟩

/-- The search succeeds if it gets to a grid with a point in the interval. -/
theorem exists_searchGrids {turns fuel : Nat} (hturns : turns < fuel)
    (h : ∃ d, i.pick tie (exponent - turns) = some d) :
    ∃ d, searchGrids i tie exponent fuel = some d := by
  induction turns generalizing exponent fuel with
  | zero =>
      obtain ⟨fuel, rfl⟩ := Nat.exists_eq_add_one.mpr hturns
      obtain ⟨d, hd⟩ := h
      rw [Nat.cast_zero, sub_zero] at hd
      rw [searchGrids, hd]
      exact ⟨d, rfl⟩
  | succ turns ih =>
      obtain ⟨fuel, rfl⟩ := Nat.exists_eq_add_one.mpr (Nat.zero_lt_of_lt hturns)
      rw [searchGrids]
      cases i.pick tie exponent with
      | some d => exact ⟨d, rfl⟩
      | none =>
          have hnext : ∃ d, i.pick tie (exponent - 1 - turns) = some d := by
            rwa [Nat.cast_succ, sub_add_eq_sub_sub_swap] at h
          exact ih (by omega) hnext

/-! ### The last grid -/

/-- Exponent of the last grid that is searched for a number with so many binary digits. -/
def lastGrid (log : Nat) : Int := ((log : Int) - 1073) * 30103 / 100000 + 2 - 21

/-- The last grid is finer than half the distance of the numbers of a magnitude. -/
theorem lastGrid_fine : (List.range 2098).all (fun log =>
    Nat.blt (gridStep (lastGrid log)).1 (2 * Nat.pow 2 (log - 52) * (gridStep (lastGrid log)).2)) := by
  decide +kernel

def place (v : Number) : Nat := v.exponent.val - 1

theorem lastPlace_eq (v : Number) : v.lastPlace = 2 ^ v.place := rfl

theorem significand_lt (v : Number) : v.significand < 2 * stepCount := by
  have hfraction := v.fraction.isLt
  rw [significand]
  split
  · omega
  · omega

theorem significand_pos (h : v.isZero = false) : 0 < v.significand := by
  rw [significand]
  split
  case isTrue hexponent =>
      rw [isZero, hexponent] at h
      simpa [Nat.pos_iff_ne_zero] using h
  case isFalse => omega

theorem interval_low (v : Number) : v.interval.low ≤ v.interval.middle := Nat.sub_le _ _

theorem interval_high (v : Number) :
    v.interval.high = v.interval.middle + 2 * 2 ^ v.place := rfl

theorem place_lt (hfinite : v.isFinite) : v.place < 2046 := by
  rw [isFinite, decide_eq_true_eq] at hfinite
  rw [place]
  omega

theorem units_ne_zero (hzero : v.isZero = false) : v.units ≠ 0 :=
  Nat.mul_ne_zero (significand_pos hzero).ne' (Nat.two_pow_pos v.place).ne'

theorem log2_units_lt (hzero : v.isZero = false) : v.units.log2 < 53 + v.place := by
  rw [Nat.log2_lt (units_ne_zero hzero), Nat.pow_add, units, lastPlace_eq]
  exact Nat.mul_lt_mul_of_pos_right v.significand_lt (Nat.two_pow_pos v.place)

/-- The search for the shortest decimal of a number succeeds. -/
theorem exists_search (hfinite : v.isFinite) (hzero : v.isZero = false) (tie : Tie) :
    ∃ d, searchGrids v.interval tie v.exponentBound 22 = some d := by
  have hplace := place_lt hfinite
  have hlog := log2_units_lt hzero
  have hle : 2 ^ (v.units.log2 - 52) ≤ 2 ^ v.place := Nat.pow_le_pow_right (by decide) (by omega)
  have hgrid := List.all_eq_true.mp lastGrid_fine v.units.log2 (List.mem_range.mpr (by omega))
  have hstep : (gridStep (lastGrid v.units.log2)).1 <
      2 * 2 ^ v.place * (gridStep (lastGrid v.units.log2)).2 :=
    (Nat.le_of_ble_eq_true hgrid).trans
      (Nat.mul_le_mul_right _ (Nat.mul_le_mul_left 2 hle))
  have hbound : v.exponentBound - (21 : Nat) = lastGrid v.units.log2 := rfl
  have hpick : ∃ d, v.interval.pick tie (v.exponentBound - (21 : Nat)) = some d := by
    rw [hbound]
    refine exists_pick v.interval_low ?_
    rw [v.interval_high, Nat.add_mul]
    exact Nat.add_lt_add_left hstep _
  exact exists_searchGrids (by decide) hpick

/-- The shortest decimal of a number rounds to it. -/
theorem has_shortest (hfinite : v.isFinite) (hzero : v.isZero = false) (tie : Tie) :
    v.interval.Has (v.shortest tie).value := by
  obtain ⟨d, hd⟩ := exists_search hfinite hzero tie
  rw [shortest, hd]
  exact has_of_searchGrids hd

/-! ### Rounding -/

/-- Whether a number is the first one of a magnitude, so that the one before it is nearer. -/
def IsFirst (v : Number) : Prop := v.fraction.val = 0 ∧ 1 < v.exponent.val

instance : Decidable v.IsFirst := inferInstanceAs (Decidable (_ ∧ _))

theorem interval_low_eq (v : Number) : v.interval.low =
    4 * (v.significand * 2 ^ v.place) - if v.IsFirst then 2 ^ v.place else 2 * 2 ^ v.place := rfl

theorem interval_high_eq (v : Number) :
    v.interval.high = 4 * (v.significand * 2 ^ v.place) + 2 * 2 ^ v.place := rfl

theorem interval_closed (v : Number) : v.interval.closed = decide (v.significand % 2 = 0) := rfl

theorem significand_of_isFirst (h : v.IsFirst) : v.significand = stepCount ∧ 0 < v.place := by
  obtain ⟨hfraction, hexponent⟩ := h
  rw [significand, if_neg (by omega), hfraction, place]
  omega

theorem lt_significand (h : ¬ v.IsFirst) (hplace : 0 < v.place) : stepCount < v.significand := by
  rw [IsFirst] at h
  rw [place] at hplace
  rw [significand, if_neg (by omega)]
  omega

theorem ofCode_fields (negative : Bool) (exponent : Fin 2048) (fraction : Fin stepCount)
    (h : exponent.val < 2047) :
    ofCode negative (exponent.val * stepCount + fraction.val) = ⟨negative, exponent, fraction⟩ := by
  have hfraction := fraction.isLt
  have hcode : exponent.val * stepCount + fraction.val ≤ 2047 * stepCount := by
    simp only [stepCount] at hfraction ⊢
    omega
  rw [ofCode, Nat.min_eq_left hcode, mk.injEq]
  refine ⟨rfl, Fin.ext ?_, Fin.ext ?_⟩
  · change (exponent.val * stepCount + fraction.val) / stepCount % 2048 = exponent.val
    simp only [stepCount] at hfraction ⊢
    omega
  · change (exponent.val * stepCount + fraction.val) % stepCount = fraction.val
    rw [Nat.mul_comm, Nat.mul_add_mod, Nat.mod_eq_of_lt hfraction]

/-- The significand of a number, above that of smaller magnitudes, is its code. -/
theorem ofCode_significand (h : v.isFinite) :
    ofCode v.negative (v.place * stepCount + v.significand) = v := by
  have hcode : v.place * stepCount + v.significand =
      v.exponent.val * stepCount + v.fraction.val := by
    rw [place, significand]
    split
    case isTrue hzero => rw [hzero, Nat.zero_sub]
    case isFalse hpos =>
      obtain ⟨k, hk⟩ := Nat.exists_eq_succ_of_ne_zero hpos
      rw [hk, Nat.succ_sub_one, Nat.succ_mul, Nat.add_assoc]
  rw [isFinite, decide_eq_true_eq] at h
  rw [hcode, ofCode_fields v.negative v.exponent v.fraction h]

theorem unit_le (n : Nat) : 4 * n ≤ stepCount * n := Nat.mul_le_mul_right n (by decide)

/-- A quotient is rounded to the integer that it is nearer to than one half, or as near as one
half if the integer is even. -/
theorem roundQuotient_eq {num den s : Nat} (hden : 0 < den)
    (hlow : 2 * (s * den) ≤ 2 * num + den) (hhigh : 2 * num ≤ 2 * (s * den) + den)
    (heven : s % 2 ≠ 0 → 2 * (s * den) ≠ 2 * num + den ∧ 2 * num ≠ 2 * (s * den) + den) :
    roundQuotient num den = s := by
  have hdiv := Nat.div_add_mod' num den
  have hmod := Nat.mod_lt num hden
  rw [roundQuotient]
  generalize num / den = q at *
  generalize num % den = r at *
  -- The quotient is rounded from the integer itself or from the one before it.
  have hle : s ≤ q + 1 := by
    by_contra hlt
    have := Nat.mul_le_mul_right den (Nat.succ_le_of_lt (Nat.not_le.mp hlt))
    rw [Nat.succ_mul, Nat.succ_mul] at this
    omega
  have hge : q ≤ s := by
    by_contra hlt
    have := Nat.mul_le_mul_right den (Nat.succ_le_of_lt (Nat.not_le.mp hlt))
    rw [Nat.succ_mul] at this
    omega
  rcases Nat.eq_or_lt_of_le hge with rfl | hlt
  · rw [if_neg (by omega)]
  · obtain rfl : s = q + 1 := by omega
    rw [Nat.succ_mul q den] at hlow hhigh heven
    rw [if_pos (by omega)]

theorem log2_eq {q k : Nat} (hlow : 2 ^ k ≤ q) (hhigh : q < 2 ^ (k + 1)) : q.log2 = k :=
  (Nat.log2_eq_iff (Nat.ne_zero_of_lt (Nat.lt_of_lt_of_le (Nat.two_pow_pos k) hlow))).mpr
    ⟨hlow, hhigh⟩

/-- A quotient that has as many binary digits as a number and is rounded to its significand is
rounded to the number. -/
theorem ofUnits_eq_ofCode {negative : Bool} {num den place s : Nat} (hden : 0 < den)
    (hlow : 0 < place → stepCount * (den * 2 ^ place) ≤ num)
    (hhigh : num < 2 * (stepCount * (den * 2 ^ place)))
    (hround : roundQuotient num (den * 2 ^ place) = s) :
    ofUnits negative num den = ofCode negative (place * stepCount + s) := by
  have hbelow : num / den < 2 ^ (53 + place) := by
    rw [Nat.div_lt_iff_lt_mul hden, Nat.pow_add, Nat.mul_right_comm, Nat.mul_assoc]
    rwa [← Nat.mul_assoc 2] at hhigh
  have hshift : (num / den).log2 - 52 = place := by
    rcases Nat.eq_zero_or_pos place with rfl | hpos
    · rcases Nat.eq_zero_or_pos (num / den) with hzero | hne
      · rw [hzero]
        rfl
      · have : (num / den).log2 < 53 := (Nat.log2_lt hne.ne').mpr hbelow
        omega
    · have habove : 2 ^ (52 + place) ≤ num / den := by
        rw [Nat.le_div_iff_mul_le hden, Nat.pow_add, Nat.mul_right_comm, Nat.mul_assoc]
        exact hlow hpos
      rw [log2_eq habove (by rwa [Nat.add_right_comm]), Nat.add_sub_cancel_left]
  rw [ofUnits, hshift]
  exact congrArg (fun rounded => ofCode negative (place * stepCount + rounded)) hround

/-- A quotient in the interval of a number is rounded to it. -/
theorem ofUnits_eq {num den : Nat} (hfinite : v.isFinite) (hden : 0 < den)
    (hlow : v.interval.low * den ≤ 4 * num) (hhigh : 4 * num ≤ v.interval.high * den)
    (hinside : v.interval.closed = false →
      v.interval.low * den ≠ 4 * num ∧ 4 * num ≠ v.interval.high * den) :
    ofUnits v.negative num den = v := by
  have hsignificand := v.significand_lt
  have hunit : 0 < den * 2 ^ v.place := Nat.mul_pos hden (Nat.two_pow_pos v.place)
  have hmiddle : 4 * (v.significand * 2 ^ v.place) * den =
      4 * (v.significand * (den * 2 ^ v.place)) := by ring
  have hstep : 2 * 2 ^ v.place * den = 2 * (den * 2 ^ v.place) := by ring
  rw [interval_high_eq, Nat.add_mul, hmiddle, hstep] at hhigh hinside
  rw [interval_low_eq, Nat.sub_mul, hmiddle] at hlow hinside
  conv_rhs => rw [← ofCode_significand hfinite]
  by_cases hfirst : v.IsFirst
  · obtain ⟨hleast, hplace⟩ := significand_of_isFirst hfirst
    rw [if_pos hfirst, hleast, Nat.mul_comm _ den] at hlow
    rw [hleast] at hhigh ⊢
    rcases Nat.lt_or_ge num (stepCount * (den * 2 ^ v.place)) with hbelow | habove
    · -- Below the number a quotient has one binary digit less and is rounded up.
      obtain ⟨k, hk⟩ := Nat.exists_eq_add_one.mpr hplace
      have hhalf : den * 2 ^ v.place = 2 * (den * 2 ^ k) := by
        rw [hk, Nat.pow_succ]
        ring
      have hcode : v.place * stepCount + stepCount = k * stepCount + 2 * stepCount := by
        rw [hk]
        ring
      have hsmall := unit_le (den * 2 ^ k)
      rw [hhalf, Nat.mul_left_comm stepCount] at hlow hbelow
      rw [hcode]
      refine ofUnits_eq_ofCode hden ?_ hbelow (roundQuotient_eq (by omega) ?_ ?_ ?_)
      · omega
      · rw [Nat.mul_assoc]
        omega
      · rw [Nat.mul_assoc]
        omega
      · intro hodd
        exact absurd (Nat.mul_mod_right 2 stepCount) hodd
    · have hsmall := unit_le (den * 2 ^ v.place)
      refine ofUnits_eq_ofCode hden (fun _ => habove) (by omega)
        (roundQuotient_eq hunit (by omega) (by omega) ?_)
      intro hodd
      exact absurd rfl hodd
  · rw [if_neg hfirst, hstep] at hlow hinside
    refine ofUnits_eq_ofCode hden ?_ ?_ (roundQuotient_eq hunit (by omega) (by omega) ?_)
    · intro hplace
      have := Nat.mul_le_mul_right (den * 2 ^ v.place) (lt_significand hfirst hplace)
      rw [Nat.succ_mul] at this
      omega
    · have := Nat.mul_le_mul_right (den * 2 ^ v.place) hsignificand
      rw [Nat.succ_mul, Nat.mul_assoc] at this
      omega
    · intro hodd
      have := hinside (v.interval_closed.trans (decide_eq_false hodd))
      omega

/-! ### Reading back -/

theorem low_pos (h : v.isZero = false) : 0 < v.interval.low := by
  have hunits : 2 ^ v.place ≤ v.significand * 2 ^ v.place :=
    Nat.le_mul_of_pos_left _ (significand_pos h)
  have hplace := Nat.two_pow_pos v.place
  rw [interval_low_eq]
  split
  · omega
  · omega

/-- The greatest finite number lies below a power of ten. -/
theorem greatest_lt : ∃ m n, 2045 ≤ m ∧ n ≤ 311 ∧
    4 * (2 * stepCount * Nat.pow 2 m) + 2 * Nat.pow 2 m < 4 * unitsPerOne * Nat.pow 10 n :=
  ⟨2045, 311, by decide, by decide, by decide +kernel⟩

theorem high_le {n : Nat} (h : v.place ≤ n) :
    v.interval.high ≤ 4 * (2 * stepCount * Nat.pow 2 n) + 2 * Nat.pow 2 n := by
  have hpow : 2 ^ v.place ≤ Nat.pow 2 n := Nat.pow_le_pow_right (by decide) h
  exact Nat.add_le_add (Nat.mul_le_mul_left 4 (Nat.mul_le_mul v.significand_lt.le hpow))
    (Nat.mul_le_mul_left 2 hpow)

/-- A decimal that rounds to a number is not too great. -/
theorem exponent_lt_of_has {m n : Nat} (hplace : v.place ≤ m)
    (hlimit : 4 * (2 * stepCount * Nat.pow 2 m) + 2 * Nat.pow 2 m < 4 * unitsPerOne * Nat.pow 10 n)
    (hd : d.digits ≠ 0) (h : v.interval.Has d.value) : d.exponent < n := by
  by_contra hgreat
  have hscale : (gridStep d.exponent).2 = 1 := by
    rw [gridStep, Int.toNat_of_nonpos (by omega : -d.exponent ≤ 0)]
  have hhigh := (has_point_iff.mp h).2.1
  rw [hscale, Nat.mul_one] at hhigh
  have hle : 4 * unitsPerOne * Nat.pow 10 n ≤ v.interval.high := calc
    4 * unitsPerOne * Nat.pow 10 n ≤ (gridStep d.exponent).1 :=
        Nat.mul_le_mul_left _ (Nat.pow_le_pow_right (by decide) (by omega))
    _ ≤ d.digits * (gridStep d.exponent).1 := Nat.le_mul_of_pos_left _ (Nat.pos_of_ne_zero hd)
    _ ≤ v.interval.high := hhigh
  exact absurd (hle.trans (high_le hplace)) (Nat.not_le.mpr hlimit)

/-- A decimal that rounds to a number other than zero is not too small. -/
theorem le_exponent_of_has (hzero : v.isZero = false) (h : v.interval.Has d.value) :
    -1100 ≤ d.exponent + d.digits.log2 := by
  by_contra hsmall
  obtain ⟨places, hplaces, hunits⟩ := unitsPerOne_eq
  have hlow := (has_point_iff.mp h).1
  have hstep : (gridStep d.exponent).1 = 2 ^ (2 + places) := by
    rw [gridStep, Int.toNat_of_nonpos (by omega : d.exponent ≤ 0), Nat.pow_add, hunits]
    exact Nat.mul_one _
  have hdigits : d.digits < 2 ^ (d.digits.log2 + 1) := Nat.lt_log2_self
  have hlt : 2 ^ (-d.exponent).toNat < 2 ^ (d.digits.log2 + 1 + (2 + places)) := calc
    2 ^ (-d.exponent).toNat ≤ (gridStep d.exponent).2 := Nat.pow_le_pow_left (by decide) _
    _ ≤ v.interval.low * (gridStep d.exponent).2 := Nat.le_mul_of_pos_left _ (low_pos hzero)
    _ ≤ d.digits * (gridStep d.exponent).1 := hlow
    _ < 2 ^ (d.digits.log2 + 1 + (2 + places)) := by
      rw [hstep, Nat.pow_add _ _ (2 + places)]
      exact Nat.mul_lt_mul_of_pos_right hdigits (Nat.two_pow_pos _)
  have := (Nat.pow_lt_pow_iff_right (by decide)).mp hlt
  omega

/-- A decimal that rounds to a number is read as the number. -/
theorem ofDecimal_eq_of_has (hfinite : v.isFinite) (hzero : v.isZero = false)
    (hsign : v.negative = false) (h : v.interval.Has d.value) :
    ofDecimal d.digits d.exponent = v := by
  have hnum : 4 * (d.digits * Nat.pow 10 d.exponent.toNat * unitsPerOne) =
      d.digits * (gridStep d.exponent).1 := by
    rw [gridStep]
    ring
  obtain ⟨hlow, hhigh, hinside⟩ := has_point_iff.mp h
  have hdigits : d.digits ≠ 0 := by
    intro hnone
    rw [hnone, Nat.zero_mul, Nat.le_zero] at hlow
    exact absurd hlow (Nat.mul_pos (low_pos hzero) (scale_pos d.exponent)).ne'
  have hplace : v.place ≤ 2045 := by
    rw [isFinite, decide_eq_true_eq] at hfinite
    rw [place]
    omega
  obtain ⟨m, n, hm, hn, hlimit⟩ := greatest_lt
  have hsmall := exponent_lt_of_has (hplace.trans hm) hlimit hdigits h
  have hgreat := le_exponent_of_has hzero h
  rw [← hnum] at hlow hhigh hinside
  rw [ofDecimal, if_neg hdigits, if_neg (by omega), if_neg (by omega), ← hsign]
  exact ofUnits_eq hfinite (scale_pos d.exponent) hlow hhigh hinside

/-- Every decimal with the value of the shortest one is read as the number. -/
theorem ofDecimal_eq_of_shortest {digits : Nat} (hfinite : v.isFinite) (hzero : v.isZero = false)
    (hsign : v.negative = false)
    (h : (digits * 10 ^ exponent : ℚ) = (v.shortest tie).value) : ofDecimal digits exponent = v := by
  have hshortest := has_shortest hfinite hzero tie
  rw [← h] at hshortest
  exact ofDecimal_eq_of_has (d := ⟨digits, exponent⟩) hfinite hzero hsign hshortest

end Number

end ScriptMin
