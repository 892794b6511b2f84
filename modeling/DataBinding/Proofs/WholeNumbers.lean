import DataBinding.Proofs.Decimals

/-! Whole numbers. A number without a fraction is the nearest one to its whole part, and whole
numbers of at most 53 bits are not rounded. The shortest decimal of such a number is the number
itself, so it is written as a key by its digits. -/
namespace DataBinding

section Ranks

variable {k m rank s : Nat}

/-- One is a power of two in units. -/
theorem oneUnits_eq : ∃ t, t = 1074 ∧ oneUnits = 2 ^ t := by
  obtain ⟨t, bits, is⟩ : ∃ t, t = 1074 ∧ oneUnits = 1 <<< t := ⟨1074, rfl, rfl⟩
  exact ⟨t, bits, is.trans (Nat.one_shiftLeft t)⟩

theorem oneUnits_pos : 0 < oneUnits := by
  obtain ⟨t, -, is⟩ := oneUnits_eq
  rw [is]
  exact Nat.two_pow_pos t

/-- The units of a rank above the first block: 53 bits and their spacing. -/
theorem rankUnits_block (lower : blockRanks ≤ m) (upper : m < 2 * blockRanks) :
    rankUnits ((s + 1) * blockRanks + (m - blockRanks)) = m * 2 ^ s := by
  have inside : m - blockRanks < blockRanks := by omega
  have above : ¬ (s + 1) * blockRanks + (m - blockRanks) < blockRanks := by
    rw [Nat.add_mul]
    omega
  have block : ((s + 1) * blockRanks + (m - blockRanks)) / blockRanks = s + 1 := by
    rw [Nat.mul_comm, Nat.mul_add_div (by decide), Nat.div_eq_of_lt inside, Nat.add_zero]
  have rest : ((s + 1) * blockRanks + (m - blockRanks)) % blockRanks = m - blockRanks := by
    rw [Nat.mul_comm, Nat.mul_add_mod, Nat.mod_eq_of_lt inside]
  rw [rankUnits, if_neg above, block, rest, Nat.shiftLeft_eq, Nat.add_sub_cancel' lower,
    Nat.add_sub_cancel]

/-- A whole number of at most 53 bits has a rank. -/
theorem exists_rankUnits (small : k < 2 ^ 53) :
    ∃ rank < 1076 * blockRanks, rankUnits rank = k * oneUnits := by
  by_cases zero : k = 0
  · exact ⟨0, by decide, by simp [rankUnits, zero, blockRanks]⟩
  have bits : k.log2 < 53 := (Nat.log2_lt zero).mpr small
  have lower : 2 ^ k.log2 ≤ k := Nat.log2_self_le zero
  have upper : k < 2 ^ (k.log2 + 1) := Nat.lt_log2_self
  generalize k.log2 = t at bits lower upper
  have split : t + (52 - t) = 52 := by omega
  have least : blockRanks ≤ k * 2 ^ (52 - t) := by
    calc blockRanks = 2 ^ t * 2 ^ (52 - t) := by rw [← Nat.pow_add, split]; rfl
      _ ≤ k * 2 ^ (52 - t) := Nat.mul_le_mul_right _ lower
  have most : k * 2 ^ (52 - t) < 2 * blockRanks := by
    calc k * 2 ^ (52 - t) < 2 ^ (t + 1) * 2 ^ (52 - t) :=
          Nat.mul_lt_mul_of_pos_right upper (Nat.two_pow_pos _)
      _ = 2 * blockRanks := by
          rw [← Nat.pow_add, show t + 1 + (52 - t) = 53 by omega]; rfl
  refine ⟨(1022 + t + 1) * blockRanks + (k * 2 ^ (52 - t) - blockRanks), ?_, ?_⟩
  · have : (1022 + t + 1) * blockRanks ≤ 1075 * blockRanks := Nat.mul_le_mul_right _ (by omega)
    omega
  · obtain ⟨u, bits, is⟩ := oneUnits_eq
    rw [rankUnits_block least most, Nat.mul_assoc, ← Nat.pow_add, is,
      show 52 - t + (1022 + t) = u by omega]

/-- Whole numbers of at most 53 bits are not rounded. -/
theorem rankUnits_nearestRank (small : k < 2 ^ 53) :
    rankUnits (nearestRank (k * oneUnits) 1) = k * oneUnits := by
  obtain ⟨rank, -, units⟩ := exists_rankUnits small
  rw [← units, nearestRank_units]

theorem nearestRank_lt (small : k < 2 ^ 53) : nearestRank (k * oneUnits) 1 < 1076 * blockRanks := by
  obtain ⟨rank, below, units⟩ := exists_rankUnits small
  rw [← units, nearestRank_units]
  exact below

/-- No whole number of more bits is rounded to one of at most 53. -/
theorem le_nearestRank (large : 2 ^ 53 ≤ k) : 1076 * blockRanks ≤ nearestRank (k * oneUnits) 1 := by
  obtain ⟨t, t_eq, is⟩ := oneUnits_eq
  have product : 2 ^ (53 + t) ≤ k * oneUnits := by
    rw [is, Nat.pow_add]
    exact Nat.mul_le_mul_right _ large
  generalize k * oneUnits = num at product
  have positive : num ≠ 0 := Nat.ne_of_gt (Nat.lt_of_lt_of_le (Nat.two_pow_pos _) product)
  have bits : 53 + t ≤ num.log2 := (Nat.le_log2 positive).mpr product
  have significand : blockRanks ≤ num / 2 ^ (num.log2 - 52) := by
    rw [Nat.le_div_iff_mul_le (Nat.two_pow_pos _)]
    calc blockRanks * 2 ^ (num.log2 - 52) = 2 ^ (52 + (num.log2 - 52)) := by rw [Nat.pow_add]; rfl
      _ ≤ num := by
          rw [show 52 + (num.log2 - 52) = num.log2 by omega]
          exact Nat.log2_self_le positive
  have blocks : 1075 * blockRanks ≤ (num.log2 - 52) * blockRanks :=
    Nat.mul_le_mul_right _ (by omega)
  simp only [nearestRank, Nat.div_one, Nat.shiftLeft_eq, Nat.one_mul]
  split <;> omega

end Ranks

namespace Number

variable {n : Number} {k : Nat} {negative : Bool} {rank : Fin (infinityRank + 1)}

theorem ofRank_of_le {rank : Nat} (finite : rank ≤ infinityRank) :
    ofRank negative rank = .ranked negative ⟨rank, Nat.lt_succ_of_le finite⟩ := by
  simp only [ofRank, Nat.min_eq_left finite]

theorem isIntegral_ranked : (ranked negative rank).isIntegral = true ↔
    rank.val < infinityRank ∧ rankUnits rank.val % oneUnits = 0 := by
  rw [isIntegral, Bool.and_eq_true, beq_iff_eq, isFinite, units, decide_eq_true_eq]
  exact and_congr_right fun finite => by rw [if_pos finite]

/-- A number without a fraction has as many units as its whole part. -/
theorem rankUnits_of_integral (integral : (ranked negative rank).isIntegral = true) :
    rankUnits rank.val = (ranked negative rank).wholePart * oneUnits := by
  obtain ⟨finite, whole⟩ := isIntegral_ranked.mp integral
  rw [wholePart, units, if_pos finite, Nat.div_mul_cancel (Nat.dvd_of_mod_eq_zero whole)]

/-- A number without a fraction is the nearest one to its whole part. -/
theorem ofRatio_wholePart (integral : (ranked negative rank).isIntegral = true) (sign : Bool) :
    ofRatio sign (ranked negative rank).wholePart 1 = .ranked sign rank := by
  rw [ofRatio, ofUnits, ← rankUnits_of_integral integral, nearestRank_units,
    ofRank_of_le (Nat.le_of_lt_succ rank.isLt)]

theorem wholePart_eq_zero_iff (integral : (ranked negative rank).isIntegral = true) :
    (ranked negative rank).wholePart = 0 ↔ rank.val = 0 := by
  have units := rankUnits_of_integral integral
  constructor
  · intro zero
    rw [zero, Nat.zero_mul] at units
    rw [← nearestRank_units rank.val, units]
    rfl
  · intro zero
    have none : rankUnits rank.val = 0 := by rw [zero]; rfl
    rw [none] at units
    exact (Nat.mul_eq_zero.mp units.symm).resolve_right (Nat.ne_of_gt oneUnits_pos)

/-- Whole numbers below 2^53 are read exactly. -/
theorem wholePart_ofNat (small : k < 2 ^ 53) : (ofNat k).wholePart = k := by
  have below : nearestRank (k * oneUnits) 1 < infinityRank :=
    Nat.lt_trans (nearestRank_lt small) (by decide)
  rw [ofNat, ofRatio, ofUnits, ofRank_of_le (Nat.le_of_lt below), wholePart, units,
    if_pos below, rankUnits_nearestRank small, Nat.mul_div_cancel _ oneUnits_pos]

theorem ofDecimal_zero (k : Nat) : ofDecimal false k 0 = ofNat k := by
  rw [ofDecimal_eq, decimalRank, Int.toNat_zero, Int.neg_zero, Int.toNat_zero, Nat.pow_zero,
    Nat.mul_one]
  rfl

end Number

namespace Decimal

variable {tie : Tie} {rank k num den : Nat} {e : Int} {d : Decimal}

/-- Trimming takes zeros from the coefficient and counts them in the exponent. -/
theorem trim_scale (d : Decimal) :
    ∃ j : Nat, d.trim.exponent = d.exponent + j ∧ d.coefficient = d.trim.coefficient * 10 ^ j := by
  induction d using trim.induct with
  | case1 d more ih =>
    obtain ⟨j, exponent, coefficient⟩ := ih
    simp only at exponent coefficient
    rw [trim, if_pos more]
    refine ⟨j + 1, by rw [exponent]; push_cast; ring, ?_⟩
    calc d.coefficient = d.coefficient / 10 * 10 := by omega
      _ = _ := by rw [Nat.pow_succ, ← Nat.mul_assoc, ← coefficient]
  | case2 d done => exact ⟨0, by simp [trim, done], by simp [trim, done]⟩

theorem onGrid?_exponent (found : onGrid? tie rank num den e = some d) : d.exponent = e := by
  have either (takeAbove : Bool) (above below : Nat) :
      (if takeAbove then (⟨above, e⟩ : Decimal) else ⟨below, e⟩).exponent = e := by
    cases takeAbove <;> rfl
  simp only [onGrid?] at found
  split at found
  · obtain rfl := Option.some.inj found
    exact either _ _ _
  · obtain rfl := Option.some.inj found
    rfl
  · obtain rfl := Option.some.inj found
    rfl
  · cases found

theorem leadingExponent_whole (positive : 0 < k) (one : 0 < den) :
    leadingExponent (k * den) den = ((Nat.toDigits 10 k).length : Int) - 1 := by
  rw [leadingExponent, if_pos (Nat.le_mul_of_pos_left _ positive), Nat.mul_div_cancel _ one]

/-- On the grid of whole numbers a whole number is its own neighbour. -/
theorem onGrid?_whole (one : 0 < den) (reads : readsBack rank ⟨k, 0⟩ = true) :
    onGrid? tie rank (k * den) den 0 = some ⟨k, 0⟩ := by
  have unit : den * Nat.pow 10 (0 : Int).toNat = den := by
    rw [Int.toNat_zero, Nat.pow_eq, Nat.pow_zero, Nat.mul_one]
  have apart : (0 == den) = false := beq_eq_false_iff_ne.mpr (Nat.ne_of_lt one)
  simp only [onGrid?, Int.lt_irrefl, if_false, unit, Nat.mul_div_cancel _ one,
    Nat.mul_mod_left, reads]
  cases readsBack rank ⟨k + 1, 0⟩ <;> simp [apart]

theorem readsBack_whole (units : rankUnits rank = k * oneUnits) :
    readsBack rank ⟨k, 0⟩ = true := by
  rw [readsBack_iff, number, Number.ofDecimal_zero, Number.ofNat, Number.ofRatio,
    Number.ofUnits, ← units, nearestRank_units]

/-- A whole decimal that reads as a whole number below 2^53 denotes that number. -/
theorem whole_of_readsBack (small : k < 2 ^ 53) (units : rankUnits rank = k * oneUnits)
    (whole : 0 ≤ d.exponent) (reads : readsBack rank d = true) :
    d.coefficient * 10 ^ d.exponent.toNat = k := by
  have below : rank < 1076 * blockRanks := by
    have known := nearestRank_lt small
    rwa [← units, nearestRank_units] at known
  have finite : rank < infinityRank := Nat.lt_trans below (by decide)
  have noFraction : (-d.exponent).toNat = 0 := by omega
  rw [readsBack_iff, number, Number.ofDecimal_eq, decimalRank, noFraction, Nat.pow_zero] at reads
  generalize d.coefficient * 10 ^ d.exponent.toNat = m at reads
  have same : nearestRank (m * oneUnits) 1 = rank := by
    simp only [Number.ofRank, Number.ranked.injEq, Fin.mk.injEq, true_and] at reads
    omega
  have few : m < 2 ^ 53 := by
    by_contra large
    have beyond := le_nearestRank (Nat.le_of_not_lt large)
    omega
  have product : m * oneUnits = k * oneUnits := by
    rw [← rankUnits_nearestRank few, same, units]
  exact Nat.eq_of_mul_eq_mul_right oneUnits_pos product

/-- The shortest decimal of a whole number below 2^53 is exact and has no fraction. -/
theorem shortest_whole (tie : Tie) (positive : 0 < k) (small : k < 2 ^ 53)
    (units : rankUnits rank = k * oneUnits) :
    0 ≤ (shortest tie rank).exponent ∧
      (shortest tie rank).coefficient * 10 ^ (shortest tie rank).exponent.toNat = k := by
  have short : (Nat.toDigits 10 k).length ≤ 16 :=
    (Nat.length_toDigits_le_iff (by decide) (by decide)).mpr (Nat.lt_trans small (by decide))
  have some : 0 < (Nat.toDigits 10 k).length := List.length_pos_iff.mpr Nat.toDigits_ne_nil
  generalize digits : (Nat.toDigits 10 k).length = length at short some
  have leading : leadingExponent (rankUnits rank) oneUnits = (length : Int) - 1 := by
    rw [units, leadingExponent_whole positive oneUnits_pos, digits]
  -- The grids up to the one of whole numbers are tried before those of fractions.
  have split : (List.range 17).map (fun places : Nat => ((length : Int) - 1) - places) =
      (List.range length).map (fun places : Nat => ((length : Int) - 1) - places) ++
        (List.range (17 - length)).map (fun places : Nat => -1 - (places : Int)) := by
    rw [show 17 = length + (17 - length) by omega, List.range_add, List.map_append, List.map_map,
      Nat.add_sub_cancel_left]
    congr 1
    refine List.map_congr_left fun places _ => ?_
    simp only [Function.comp]
    omega
  have last : (0 : Int) ∈ (List.range length).map (fun places : Nat => ((length : Int) - 1) - places) :=
    List.mem_map.mpr ⟨length - 1, List.mem_range.mpr (by omega), by omega⟩
  have found : ∃ d, ((List.range length).map fun places : Nat => ((length : Int) - 1) - places).findSome?
      (onGrid? tie rank (rankUnits rank) oneUnits) = Option.some d := by
    rw [← Option.isSome_iff_exists, List.findSome?_isSome_iff]
    refine ⟨0, last, ?_⟩
    rw [units, onGrid?_whole oneUnits_pos (readsBack_whole units)]
    rfl
  obtain ⟨d, first⟩ := found
  obtain ⟨e, mem, onGrid⟩ := List.exists_of_findSome?_eq_some first
  have whole : 0 ≤ d.exponent := by
    obtain ⟨places, inside, rfl⟩ := List.mem_map.mp mem
    rw [onGrid?_exponent onGrid]
    have := List.mem_range.mp inside
    omega
  have exact := whole_of_readsBack small units whole (onGrid?_readsBack onGrid)
  obtain ⟨j, exponent, coefficient⟩ := trim_scale d
  have is : shortest tie rank = d.trim := by
    simp only [shortest, leading, split, List.findSome?_append, first, Option.some_or,
      Option.getD_some]
  rw [is]
  refine ⟨by omega, ?_⟩
  rw [← exact, exponent, coefficient, Nat.mul_assoc, ← Nat.pow_add]
  congr 2
  omega

end Decimal

theorem toDigits_mul_pow {c : Nat} (positive : 0 < c) (j : Nat) :
    Nat.toDigits 10 (c * 10 ^ j) = Nat.toDigits 10 c ++ List.replicate j '0' := by
  induction j with
  | zero => simp
  | succ j ih =>
    have more : 0 < c * 10 ^ j := Nat.mul_pos positive (Nat.pow_pos (by decide))
    have last := Nat.toDigits_append_toDigits (b := 10) (d := 0) (by decide) more (by decide)
    rw [Nat.pow_succ, ← Nat.mul_assoc, Nat.mul_comm _ 10, List.replicate_succ', ← List.append_assoc,
      ← ih, ← Nat.add_zero (10 * _), ← last]
    rfl

namespace Layout

variable {rank k : Nat}

/-- A decimal without a fraction is written in positional form as the number it denotes. -/
theorem positional_exact {d : Decimal} (positive : 0 < d.coefficient) (whole : 0 ≤ d.exponent) :
    keyLayout.positional d.digits d.leading =
      Nat.toDigits 10 (d.coefficient * 10 ^ d.exponent.toNat) := by
  have some := List.length_pos_iff.mpr d.digits_some
  have high : ¬ d.leading < 0 := by
    rw [Decimal.leading]
    omega
  have places : d.leading.toNat + 1 = d.digits.length + d.exponent.toNat := by
    rw [Decimal.leading]
    omega
  have short : d.digits.length ≤ d.digits.length + d.exponent.toNat := Nat.le_add_right _ _
  rw [toDigits_mul_pow positive, positional, if_neg high]
  simp only [places, List.take_of_length_le short, List.drop_eq_nil_of_le short,
    Nat.add_sub_cancel_left]
  exact List.append_nil _

/-- A whole number below 2^53 is written as its digits. -/
theorem magnitude_whole (positive : 0 < k) (small : k < 2 ^ 53)
    (units : rankUnits rank = k * oneUnits) : keyLayout.magnitude rank = Nat.toDigits 10 k := by
  obtain ⟨whole, exact⟩ := Decimal.shortest_whole .up positive small units
  generalize short : Decimal.shortest .up rank = d at whole exact
  have some : 0 < d.coefficient := by
    rcases Nat.eq_zero_or_pos d.coefficient with zero | some
    · rw [zero, Nat.zero_mul] at exact
      omega
    · exact some
  have few : (Nat.toDigits 10 k).length ≤ 16 :=
    (Nat.length_toDigits_le_iff (by decide) (by decide)).mpr (Nat.lt_trans small (by decide))
  have length : (Nat.toDigits 10 k).length = d.digits.length + d.exponent.toNat := by
    rw [← exact, toDigits_mul_pow some, List.length_append, List.length_replicate]
    rfl
  have inside : keyLayout.lowest ≤ d.leading ∧ d.leading < keyLayout.limit := by
    rw [Decimal.leading]
    simp only [keyLayout]
    omega
  rw [magnitude, show keyLayout.tie = .up from rfl, short]
  simp only [inside, decide_true, Bool.and_self, if_true]
  rw [positional_exact some whole, exact]

end Layout

end DataBinding
