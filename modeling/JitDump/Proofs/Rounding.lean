import Mathlib.Algebra.Order.Field.Power
import Mathlib.Algebra.Order.Field.Rat
import Mathlib.Tactic.FieldSimp
import Mathlib.Tactic.Linarith
import Mathlib.Tactic.Positivity
import Mathlib.Tactic.Ring
import JitDump.Decimal.Shortest

/-!
# The shortest decimal lies in its interval

A binary number admits the reals that round to it.  On a grid of powers of ten
the least and the greatest point that it admits are computed in whole numbers;
the finest grid has such a point, grids are made coarser only as long as one
stays, and the neighbour of the number that is chosen is one.  Nor is there an
admitted point on a coarser grid than the one that is chosen, so no admitted
decimal has fewer digits.
-/

namespace JitDump

/-- The number that a decimal stands for. -/
def Decimal.value (x : Decimal) : ℚ := x.digits * 10 ^ x.exponent

namespace Binary

/-- The number that it stands for. -/
def value (x : Binary) : ℚ := x.m * 2 ^ x.q

/-- The lower end of the interval in quarters of a unit. -/
def lowerQuarters (x : Binary) : ℕ := 4 * x.m - if x.closeBelow then 1 else 2

/-- The upper end of the interval in quarters of a unit. -/
def upperQuarters (x : Binary) : ℕ := 4 * x.m + 2

def lower (x : Binary) : ℚ := x.lowerQuarters * 2 ^ (x.q - 2)

def upper (x : Binary) : ℚ := x.upperQuarters * 2 ^ (x.q - 2)

/-- The reals that round to a binary number: a tie goes to the even one. -/
def Admits (x : Binary) (r : ℚ) : Prop :=
  if x.m % 2 = 0 then x.lower ≤ r ∧ r ≤ x.upper else x.lower < r ∧ r < x.upper

variable {x : Binary} {q k : ℤ} {a b n p d lo hi unit t : ℕ} {r : ℚ}

theorem value_eq (x : Binary) : x.value = (4 * x.m : ℕ) * 2 ^ (x.q - 2) := by
  rw [value, zpow_sub₀ (by norm_num)]
  push_cast
  ring

theorem lower_lt_value (hm : 0 < x.m) : x.lower < x.value := by
  have hlt : x.lowerQuarters < 4 * x.m := by
    rw [lowerQuarters]
    split <;> omega
  rw [lower, value_eq]
  exact mul_lt_mul_of_pos_right (by exact_mod_cast hlt) (by positivity)

theorem value_lt_upper (x : Binary) : x.value < x.upper := by
  have hlt : 4 * x.m < x.upperQuarters := by
    rw [upperQuarters]
    omega
  rw [upper, value_eq]
  exact mul_lt_mul_of_pos_right (by exact_mod_cast hlt) (by positivity)

theorem Admits.lower_le (h : x.Admits r) : x.lower ≤ r := by
  rw [Admits] at h
  split at h
  · exact h.1
  · exact h.1.le

theorem Admits.le_upper (h : x.Admits r) : r ≤ x.upper := by
  rw [Admits] at h
  split at h
  · exact h.2
  · exact h.2.le

/-- What lies between two reals that round to a number rounds to it. -/
theorem Admits.between {r' r'' : ℚ} (h : x.Admits r) (h' : x.Admits r') (hl : r ≤ r'')
    (hu : r'' ≤ r') : x.Admits r'' := by
  rw [Admits] at h h' ⊢
  split_ifs at h h' ⊢
  · exact ⟨h.1.trans hl, hu.trans h'.2⟩
  · exact ⟨h.1.trans_le hl, hu.trans_lt h'.2⟩

theorem lower_pos (hm : 0 < x.m) : 0 < x.lower := by
  have hquarters : 0 < x.lowerQuarters := by
    rw [lowerQuarters]
    split <;> omega
  rw [lower]
  exact mul_pos (by exact_mod_cast hquarters) (by positivity)

/-! ## Points of a grid -/

theorem pow_toNat {b : ℚ} (hb : b ≠ 0) (a : ℤ) : b ^ a.toNat = b ^ a * b ^ (-a).toNat := by
  rw [← zpow_natCast, ← zpow_natCast, ← zpow_add₀ hb]
  congr 1
  omega

theorem quarterDen_pos (q k : ℤ) : 0 < quarterDen q k :=
  Nat.mul_pos (Nat.pow_pos (by decide)) (Nat.pow_pos (by decide))

theorem quarterNum_pos (q k : ℤ) : 0 < quarterNum q k :=
  Nat.mul_pos (Nat.pow_pos (by decide)) (Nat.pow_pos (by decide))

/-- What turns a rational into a whole number when quarters of a unit meet points of a grid. -/
def scale (q k : ℤ) : ℚ := quarterDen q k / 10 ^ k

theorem scale_pos (q k : ℤ) : 0 < scale q k := by
  have hd : (0 : ℚ) < quarterDen q k := by exact_mod_cast quarterDen_pos q k
  rw [scale]
  positivity

theorem points_eq (q k : ℤ) (p : ℕ) :
    ((p * quarterDen q k : ℕ) : ℚ) = p * 10 ^ k * scale q k := by
  rw [scale, mul_assoc, mul_div_cancel₀ _ (by positivity), Nat.cast_mul]

theorem quarters_eq (q k : ℤ) (n : ℕ) :
    ((n * quarterNum q k : ℕ) : ℚ) = n * 2 ^ (q - 2) * scale q k := by
  have h2 := pow_toNat (b := 2) (by norm_num) (q - 2)
  have h10 := pow_toNat (b := 10) (by norm_num) k
  have hneg : -(q - 2) = 2 - q := by ring
  rw [hneg] at h2
  have hnum : (quarterNum q k : ℚ) = 2 ^ (q - 2).toNat * 10 ^ (-k).toNat := by
    simp [quarterNum]
  have hden : (quarterDen q k : ℚ) = 2 ^ (2 - q).toNat * 10 ^ k.toNat := by
    simp [quarterDen]
  rw [Nat.cast_mul, scale, hnum, hden, h2, h10]
  field_simp

/-- Quarters of a unit against points of a grid, in whole numbers and in rationals. -/
theorem quarters_le_iff :
    n * quarterNum q k ≤ p * quarterDen q k ↔ (n : ℚ) * 2 ^ (q - 2) ≤ p * 10 ^ k := by
  rw [← Nat.cast_le (α := ℚ), quarters_eq, points_eq, mul_le_mul_iff_of_pos_right (scale_pos q k)]

theorem le_quarters_iff :
    p * quarterDen q k ≤ n * quarterNum q k ↔ (p : ℚ) * 10 ^ k ≤ n * 2 ^ (q - 2) := by
  rw [← Nat.cast_le (α := ℚ), quarters_eq, points_eq, mul_le_mul_iff_of_pos_right (scale_pos q k)]

theorem quarters_lt_iff :
    n * quarterNum q k < p * quarterDen q k ↔ (n : ℚ) * 2 ^ (q - 2) < p * 10 ^ k := by
  rw [← Nat.not_le, le_quarters_iff, not_le]

theorem lt_quarters_iff :
    p * quarterDen q k < n * quarterNum q k ↔ (p : ℚ) * 10 ^ k < n * 2 ^ (q - 2) := by
  rw [← Nat.not_le, quarters_le_iff, not_le]

theorem ceilDiv_le_iff (hd : 0 < d) : ceilDiv n d ≤ p ↔ n ≤ p * d := by
  rw [ceilDiv, ← Nat.lt_succ_iff, Nat.div_lt_iff_lt_mul hd, Nat.succ_mul]
  omega

theorem lt_ceilDiv_iff (hd : 0 < d) : p < ceilDiv n d ↔ p * d < n := by
  rw [← Nat.not_le, ceilDiv_le_iff hd, Nat.not_le]

theorem leastPoint_le_iff : x.leastPoint k ≤ p ↔
    if x.m % 2 = 0 then x.lower ≤ p * 10 ^ k else x.lower < p * 10 ^ k := by
  have hd := quarterDen_pos x.q k
  rw [lower, lowerQuarters, leastPoint]
  split
  · rw [← quarters_le_iff, ceilDiv_le_iff hd]
  · rw [← quarters_lt_iff, Nat.succ_le_iff, Nat.div_lt_iff_lt_mul hd]

theorem le_greatestPoint_iff : p ≤ x.greatestPoint k ↔
    if x.m % 2 = 0 then (p : ℚ) * 10 ^ k ≤ x.upper else (p : ℚ) * 10 ^ k < x.upper := by
  have hd := quarterDen_pos x.q k
  rw [upper, upperQuarters, greatestPoint]
  split
  · rw [← le_quarters_iff, Nat.le_div_iff_mul_le hd]
  · have hceil : 0 < ceilDiv ((4 * x.m + 2) * quarterNum x.q k) (quarterDen x.q k) := by
      rw [lt_ceilDiv_iff hd, Nat.zero_mul]
      exact Nat.mul_pos (by omega) (quarterNum_pos x.q k)
    rw [← lt_quarters_iff, Nat.le_sub_one_iff_lt hceil, lt_ceilDiv_iff hd]

/-- The points of a grid that a number admits. -/
theorem admits_point_iff :
    x.Admits (p * 10 ^ k) ↔ x.leastPoint k ≤ p ∧ p ≤ x.greatestPoint k := by
  rw [leastPoint_le_iff, le_greatestPoint_iff, Admits]
  split <;> rfl

theorem leastPoint_le (h : x.lower < p * 10 ^ k) : x.leastPoint k ≤ p := by
  rw [leastPoint_le_iff]
  split
  · exact h.le
  · exact h

theorem le_greatestPoint (h : (p : ℚ) * 10 ^ k < x.upper) : p ≤ x.greatestPoint k := by
  rw [le_greatestPoint_iff]
  split
  · exact h.le
  · exact h

/-! ## The finest grid -/

theorem ten_pow_le_two_pow (h : 196 * a ≤ 59 * b) : 10 ^ a ≤ 2 ^ b := by
  rw [← Nat.pow_le_pow_iff_left (n := 59) (by decide), ← Nat.pow_mul', ← Nat.pow_mul']
  calc 10 ^ (59 * a) = (10 ^ 59) ^ a := Nat.pow_mul _ _ _
    _ ≤ (2 ^ 196) ^ a := Nat.pow_le_pow_left (by decide) a
    _ = 2 ^ (196 * a) := (Nat.pow_mul _ _ _).symm
    _ ≤ 2 ^ (59 * b) := Nat.pow_le_pow_right (by decide) h

theorem two_pow_le_ten_pow (h : 28 * a ≤ 93 * b) : 2 ^ a ≤ 10 ^ b := by
  rw [← Nat.pow_le_pow_iff_left (n := 28) (by decide), ← Nat.pow_mul', ← Nat.pow_mul']
  calc 2 ^ (28 * a) ≤ 2 ^ (93 * b) := Nat.pow_le_pow_right (by decide) h
    _ = (2 ^ 93) ^ b := Nat.pow_mul _ _ _
    _ ≤ (10 ^ 28) ^ b := Nat.pow_le_pow_left (by decide) b
    _ = 10 ^ (28 * b) := (Nat.pow_mul _ _ _).symm

/-- The points of the finest grid are no further apart than a quarter of a unit. -/
theorem quarterDen_le_quarterNum (hl : -1074 ≤ q) (hu : q ≤ 971) :
    quarterDen q (finestGrid q) ≤ quarterNum q (finestGrid q) := by
  have hgrid : finestGrid q = q * 30103 / 100000 - 1 := by
    rw [finestGrid, Int.fdiv_eq_ediv_of_nonneg _ (by decide)]
  rw [quarterDen, quarterNum]
  rcases le_or_gt 0 (finestGrid q) with hk | hk
  · have h2 : (2 - q).toNat = 0 := by omega
    have h10 : (-finestGrid q).toNat = 0 := by omega
    rw [h2, h10]
    simpa using ten_pow_le_two_pow (a := (finestGrid q).toNat) (b := (q - 2).toNat) (by omega)
  · have h10 : (finestGrid q).toNat = 0 := by omega
    have hle : 2 ^ (2 - q).toNat ≤ 10 ^ (-finestGrid q).toNat := two_pow_le_ten_pow (by omega)
    rw [h10]
    calc 2 ^ (2 - q).toNat * 10 ^ 0 = 1 * 2 ^ (2 - q).toNat := by ring
      _ ≤ 2 ^ (q - 2).toNat * 10 ^ (-finestGrid q).toNat :=
        Nat.mul_le_mul (Nat.pow_pos (by decide)) hle

/-- A number admits a point of the finest grid, the next below it. -/
theorem exists_finest (hm : 0 < x.m) (hl : -1074 ≤ x.q) (hu : x.q ≤ 971) :
    x.leastPoint (finestGrid x.q) ≤ x.greatestPoint (finestGrid x.q) := by
  have hd := quarterDen_pos x.q (finestGrid x.q)
  have hunit := quarterDen_le_quarterNum hl hu
  generalize hk : finestGrid x.q = k at hd hunit
  generalize hp : 4 * x.m * quarterNum x.q k / quarterDen x.q k = p
  have hle : p * quarterDen x.q k ≤ 4 * x.m * quarterNum x.q k := by
    rw [← hp]
    exact Nat.div_mul_le_self _ _
  have hlt : x.lowerQuarters * quarterNum x.q k < p * quarterDen x.q k := by
    have hnext : 4 * x.m * quarterNum x.q k < (p + 1) * quarterDen x.q k := by
      rw [← hp]
      exact Nat.lt_mul_of_div_lt (Nat.lt_succ_self _) hd
    have hquarters : (x.lowerQuarters + 1) * quarterNum x.q k ≤ 4 * x.m * quarterNum x.q k := by
      refine Nat.mul_le_mul_right _ ?_
      rw [lowerQuarters]
      split <;> omega
    rw [Nat.add_mul, Nat.one_mul] at hnext hquarters
    omega
  refine le_trans (leastPoint_le (p := p) (quarters_lt_iff.1 hlt)) (le_greatestPoint ?_)
  exact lt_of_le_of_lt ((le_quarters_iff.1 hle).trans_eq x.value_eq.symm) x.value_lt_upper

/-! ## Coarser grids -/

/-- Grids are made coarser only as long as one of their points stays. -/
theorem exists_coarse {lo hi : ℕ} (h : lo ≤ hi) :
    ∃ t, lo ≤ t * 10 ^ coarsenings lo hi ∧ t * 10 ^ coarsenings lo hi ≤ hi := by
  induction lo, hi using coarsenings.induct with
  | case1 lo hi hc ih =>
    obtain ⟨t, hl, hu⟩ := ih hc.2
    rw [coarsenings, dif_pos hc]
    simp only [Nat.pow_succ, ← Nat.mul_assoc]
    exact ⟨t, (ceilDiv_le_iff (by decide)).1 hl, (Nat.le_div_iff_mul_le (by decide)).1 hu⟩
  | case2 lo hi hc =>
    rw [coarsenings, dif_neg hc]
    exact ⟨lo, by omega, by omega⟩

/-- The neighbour of `n / d` between `lo` and `hi` that is chosen on a grid. -/
def neighbour (lo hi unit n d : ℕ) : ℕ :=
  let below := n / d / unit
  let middle := (2 * below + 1) * unit * d
  if below * unit < lo then below + 1
  else if hi < (below + 1) * unit then below
  else if 2 * n < middle then below
  else if middle < 2 * n then below + 1
  else below + below % 2

/-- Of the neighbours one lies between the ends as soon as any point of the grid does. -/
theorem neighbour_mem (hd : 0 < d) (hunit : 0 < unit) (hlow : ∀ p, n < p * d → lo ≤ p)
    (hhigh : ∀ p, p * d ≤ n → p ≤ hi) (hlo : lo ≤ t * unit) (hhi : t * unit ≤ hi) :
    lo ≤ neighbour lo hi unit n d * unit ∧ neighbour lo hi unit n d * unit ≤ hi := by
  rw [neighbour]
  generalize hb : n / d / unit = below
  have hbelow : below * unit ≤ hi := by
    refine hhigh _ ?_
    rw [← Nat.le_div_iff_mul_le hd, ← Nat.le_div_iff_mul_le hunit, hb]
  have habove : lo ≤ (below + 1) * unit := by
    refine hlow _ ?_
    rw [← Nat.div_lt_iff_lt_mul hd, ← Nat.div_lt_iff_lt_mul hunit, hb]
    exact Nat.lt_succ_self _
  split_ifs with h₁ h₂ h₃ h₄
  · have hlt : below < t := Nat.lt_of_mul_lt_mul_right (h₁.trans_le hlo)
    exact ⟨habove, (Nat.mul_le_mul_right _ hlt).trans hhi⟩
  · exact ⟨Nat.not_lt.1 h₁, hbelow⟩
  · exact ⟨Nat.not_lt.1 h₁, hbelow⟩
  · exact ⟨habove, Nat.not_lt.1 h₂⟩
  · rcases Nat.mod_two_eq_zero_or_one below with hmod | hmod <;> rw [hmod]
    · exact ⟨Nat.not_lt.1 h₁, hbelow⟩
    · exact ⟨habove, Nat.not_lt.1 h₂⟩

/-- How often the finest grid is made coarser for a number. -/
def coarsening (x : Binary) : ℕ :=
  coarsenings (x.leastPoint (finestGrid x.q)) (x.greatestPoint (finestGrid x.q))

theorem shortest_exponent (x : Binary) : x.shortest.exponent = finestGrid x.q + x.coarsening := rfl

/-- The points of a coarser grid are points of the finest. -/
theorem coarse_eq (x : Binary) (t i : ℕ) :
    (t * 10 ^ (finestGrid x.q + i) : ℚ) = (t * 10 ^ i : ℕ) * 10 ^ finestGrid x.q := by
  rw [zpow_add₀ (by norm_num), zpow_natCast]
  push_cast
  ring

/-- The shortest decimal of a double's magnitude rounds to it. -/
theorem shortest_admits (hm : 0 < x.m) (hl : -1074 ≤ x.q) (hu : x.q ≤ 971) :
    x.Admits x.shortest.value := by
  let k := finestGrid x.q
  obtain ⟨t, hlo, hhi⟩ := exists_coarse (exists_finest hm hl hu)
  have hmem := neighbour_mem (quarterDen_pos x.q k) (Nat.pow_pos (by decide : 0 < 10))
    (fun p hp ↦ leastPoint_le ((lower_lt_value hm).trans
      (x.value_eq.trans_lt (quarters_lt_iff.1 hp))))
    (fun p hp ↦ le_greatestPoint
      (((le_quarters_iff.1 hp).trans_eq x.value_eq.symm).trans_lt x.value_lt_upper))
    hlo hhi
  have hdigits : x.shortest.digits = neighbour (x.leastPoint k) (x.greatestPoint k)
    (10 ^ x.coarsening) (4 * x.m * quarterNum x.q k) (quarterDen x.q k) := rfl
  rw [Decimal.value, shortest_exponent, coarse_eq, hdigits]
  exact admits_point_iff.2 hmem

/-! ## No shorter decimal -/

/-- Grids are made coarser as long as one of their points stays. -/
theorem coarsest (hlo : 0 < lo) (h : lo ≤ t * 10 ^ (coarsenings lo hi + 1))
    (h' : t * 10 ^ (coarsenings lo hi + 1) ≤ hi) : False := by
  induction lo, hi using coarsenings.induct with
  | case1 lo hi hc ih =>
    rw [coarsenings, dif_pos hc, Nat.pow_succ, ← Nat.mul_assoc] at h h'
    refine ih ((lt_ceilDiv_iff (by decide)).2 (by rwa [Nat.zero_mul])) ?_ ?_
    · exact (ceilDiv_le_iff (by decide)).2 h
    · exact (Nat.le_div_iff_mul_le (by decide)).2 h'
  | case2 lo hi hc =>
    rw [coarsenings, dif_neg hc, Nat.zero_add, Nat.pow_one] at h h'
    refine hc ⟨hlo.trans_le (h.trans h'), ?_⟩
    exact ((ceilDiv_le_iff (by decide)).2 h).trans ((Nat.le_div_iff_mul_le (by decide)).2 h')

/-- No point of a coarser grid than that of the shortest decimal rounds to the number. -/
theorem not_admits_coarser (hm : 0 < x.m) (t : ℕ) :
    ¬ x.Admits (t * 10 ^ (x.shortest.exponent + 1)) := by
  intro h
  have hexponent : x.shortest.exponent + 1 = finestGrid x.q + (x.coarsening + 1 : ℕ) := by
    rw [shortest_exponent]
    omega
  rw [hexponent, coarse_eq, admits_point_iff] at h
  refine coarsest ?_ h.1 h.2
  -- zero is no point that the number admits
  by_contra hzero
  have hle := leastPoint_le_iff.1 (Nat.le_of_not_lt hzero)
  have hpos := lower_pos hm
  rw [Nat.cast_zero, zero_mul] at hle
  split at hle
  · exact absurd hle (not_le.2 hpos)
  · exact absurd hle (not_lt.2 hpos.le)

/-- A decimal that rounds to the number stands on no coarser grid than the shortest. -/
theorem exponent_le_shortest (hm : 0 < x.m) {y : Decimal} (h : x.Admits y.value) :
    y.exponent ≤ x.shortest.exponent := by
  by_contra hcoarse
  obtain ⟨i, hi⟩ : ∃ i : ℕ, y.exponent = x.shortest.exponent + 1 + i :=
    ⟨(y.exponent - x.shortest.exponent - 1).toNat, by omega⟩
  refine not_admits_coarser hm (y.digits * 10 ^ i) ?_
  rw [Decimal.value, hi, zpow_add₀ (by norm_num), zpow_natCast] at h
  push_cast
  rwa [mul_assoc, mul_comm (10 ^ i : ℚ)]

/-- No power of ten on the grid of the shortest decimal rounds to the number, but for the first. -/
theorem not_admits_pow (hm : 0 < x.m) (l : ℕ) :
    ¬ x.Admits ((10 ^ (l + 1) : ℕ) * 10 ^ x.shortest.exponent) := by
  have hgrid : ((10 ^ (l + 1) : ℕ) * 10 ^ x.shortest.exponent : ℚ) =
      (10 ^ l : ℕ) * 10 ^ (x.shortest.exponent + 1) := by
    rw [zpow_add_one₀ (by norm_num)]
    push_cast
    ring
  rw [hgrid]
  exact not_admits_coarser hm (10 ^ l)

/-- A decimal that rounds to the magnitude of a double has as many digits as the shortest. -/
theorem shortest_digits_lt (hm : 0 < x.m) (hl : -1074 ≤ x.q) (hu : x.q ≤ 971) {y : Decimal}
    {l : ℕ} (h : x.Admits y.value) (hy : y.digits < 10 ^ l) : x.shortest.digits < 10 ^ l := by
  by_contra hlong
  rw [Nat.not_lt] at hlong
  -- otherwise a power of ten would lie between the two decimals
  have hlow : y.value ≤ (10 ^ l : ℕ) * 10 ^ x.shortest.exponent := by
    rw [Decimal.value]
    have hle : (y.digits : ℚ) ≤ (10 ^ l : ℕ) := by exact_mod_cast hy.le
    exact mul_le_mul hle (zpow_le_zpow_right₀ (by norm_num) (exponent_le_shortest hm h))
      (by positivity) (by positivity)
  have hhigh : ((10 ^ l : ℕ) * 10 ^ x.shortest.exponent : ℚ) ≤ x.shortest.value := by
    rw [Decimal.value]
    have hle : ((10 ^ l : ℕ) : ℚ) ≤ x.shortest.digits := by exact_mod_cast hlong
    exact mul_le_mul_of_nonneg_right hle (by positivity)
  have hpow := h.between (shortest_admits hm hl hu) hlow hhigh
  cases l with
  | zero =>
    have hzero : y.value = 0 := by
      rw [Decimal.value, Nat.lt_one_iff.1 hy]
      simp
    exact absurd (h.lower_le.trans_eq hzero) (not_le.2 (lower_pos hm))
  | succ l => exact not_admits_pow hm l hpow

end Binary

end JitDump
