import DataBinding.Proofs.Numerals
import DataBinding.Number.Layout
import Mathlib.Tactic.Ring

/-! Decimals that read back. The rank nearest to a quotient depends on the quotient alone, so
a decimal may be shifted along its exponent, and cutting off exponents out of range changes
no result. The digits of a finite magnitude read back as it, and each layout of these digits
as a key is a numeral for the same decimal. -/
namespace DataBinding

section Rounding

variable {num den num' den' c k rank : Nat} {e : Int} {negative : Bool}

theorem nearestRank_scale (num den : Nat) (some : 0 < k) :
    nearestRank (k * num) (k * den) = nearestRank num den := by
  have quotient : k * num / (k * den) = num / den := Nat.mul_div_mul_left num den some
  have unit (s : Nat) : (k * den) <<< s = k * den <<< s := by
    rw [Nat.shiftLeft_eq, Nat.shiftLeft_eq, Nat.mul_assoc]
  have twice (a : Nat) : 2 * (k * a) = k * (2 * a) := Nat.mul_left_comm 2 k a
  have more (a b : Nat) : (k * a > k * b) = (a > b) :=
    propext (Nat.mul_lt_mul_left some)
  have same (a b : Nat) : (k * a == k * b) = (a == b) :=
    Bool.eq_iff_iff.mpr (by simp [Nat.mul_right_inj (Nat.ne_of_gt some)])
  simp only [nearestRank, quotient, unit, Nat.mul_div_mul_left _ _ some, Nat.mul_mod_mul_left,
    twice, more, same]

/-- Equal quotients have equal ranks. -/
theorem nearestRank_congr (positive : 0 < den) (positive' : 0 < den')
    (same : num * den' = num' * den) : nearestRank num den = nearestRank num' den' := by
  calc nearestRank num den = nearestRank (den' * num) (den' * den) :=
        (nearestRank_scale num den positive').symm
    _ = nearestRank (den * num') (den * den') := by
        rw [Nat.mul_comm den' num, same, Nat.mul_comm num' den, Nat.mul_comm den' den]
    _ = nearestRank num' den' := nearestRank_scale num' den' positive

/-- A whole number of units that has a rank is not rounded. -/
theorem nearestRank_units (rank : Nat) : nearestRank (rankUnits rank) 1 = rank := by
  by_cases small : rank < blockRanks
  · have bits : Nat.log2 rank - 52 = 0 := by
      by_cases zero : rank = 0
      · simp [zero]
      · have := (Nat.log2_lt (k := 52) zero).mpr small
        omega
    simp [nearestRank, rankUnits, small, bits, Nat.mod_one]
  · have block : 0 < rank / blockRanks := Nat.div_pos (Nat.le_of_not_lt small) (by decide)
    have inside : rank % blockRanks < blockRanks := Nat.mod_lt _ (by decide)
    have parts := Nat.div_add_mod rank blockRanks
    generalize hs : rank / blockRanks - 1 = s at *
    generalize hm : blockRanks + rank % blockRanks = m at *
    have units : rankUnits rank = m * 2 ^ s := by
      rw [rankUnits, if_neg small, hs, hm, Nat.shiftLeft_eq]
    have size : Nat.log2 (m * 2 ^ s) = 52 + s := by
      have positive : 0 < 2 ^ s := Nat.two_pow_pos s
      have lower : 2 ^ 52 ≤ m := by rw [← hm]; exact Nat.le_add_right _ _
      have upper : m < 2 ^ 53 := by simp only [blockRanks] at *; omega
      refine (Nat.log2_eq_iff ?_).mpr ⟨?_, ?_⟩
      · exact Nat.ne_of_gt (Nat.mul_pos (by omega) positive)
      · rw [Nat.pow_add]
        exact Nat.mul_le_mul_right _ lower
      · rw [show 52 + s + 1 = 53 + s by omega, Nat.pow_add]
        exact Nat.mul_lt_mul_of_pos_right upper positive
    have shift : 52 + s - 52 = s := by omega
    simp only [nearestRank, units, Nat.div_one, size, shift, Nat.shiftLeft_eq, Nat.one_mul,
      Nat.mul_div_left m (Nat.two_pow_pos s), Nat.mul_mod_left]
    have positive : 2 ^ s ≠ 0 := Nat.ne_of_gt (Nat.two_pow_pos s)
    have whole : s * blockRanks + m = rank := by
      have count : rank / blockRanks = s + 1 := by omega
      rw [count, Nat.mul_add] at parts
      rw [Nat.mul_comm]
      omega
    simpa [positive.symm] using whole

theorem nearestRank_small (small : 2 * num < den) : nearestRank num den = 0 := by
  have zero : num / den = 0 := Nat.div_eq_of_lt (by omega)
  have rest : num % den = num := Nat.mod_eq_of_lt (by omega)
  have down : ¬ 2 * num > den := by omega
  simp [nearestRank, zero, rest, down]

theorem nearestRank_large (large : 2 ^ k ≤ num) (beyond : 2099 ≤ k) :
    infinityRank ≤ nearestRank num 1 := by
  have positive : num ≠ 0 := Nat.ne_of_gt (Nat.lt_of_lt_of_le (Nat.two_pow_pos k) large)
  have bits : k ≤ Nat.log2 (num / 1) := by
    rw [Nat.div_one]
    exact (Nat.le_log2 positive).mpr large
  have blocks : infinityRank ≤ (Nat.log2 (num / 1) - 52) * blockRanks := by
    simp only [infinityRank, blockRanks]
    omega
  exact Nat.le_trans blocks (Nat.le_add_right _ _)

/-- The rank nearest to `c * 10^e`, infinity and beyond included. -/
def decimalRank (c : Nat) (e : Int) : Nat :=
  nearestRank (c * 10 ^ e.toNat * oneUnits) (10 ^ (-e).toNat)

theorem eight_pow_le (k : Nat) : 2 ^ (3 * k) ≤ 10 ^ k := by
  rw [Nat.pow_mul]
  exact Nat.pow_le_pow_left (by decide) k

theorem decimalRank_zero (e : Int) : decimalRank 0 e = 0 := by
  refine nearestRank_small ?_
  rw [Nat.zero_mul, Nat.zero_mul]
  exact Nat.pow_pos (by decide)

theorem decimalRank_large (some : c ≠ 0) (large : 400 < e) : infinityRank ≤ decimalRank c e := by
  have noFraction : (-e).toNat = 0 := by omega
  have high : 2 ^ (3 * e.toNat) ≤ c * 10 ^ e.toNat :=
    Nat.le_trans (eight_pow_le e.toNat) (Nat.le_mul_of_pos_left _ (Nat.pos_of_ne_zero some))
  have product : 2 ^ (3 * e.toNat + 1074) ≤ c * 10 ^ e.toNat * oneUnits := by
    rw [Nat.pow_add, oneUnits, Nat.one_shiftLeft]
    exact Nat.mul_le_mul_right _ high
  rw [decimalRank, noFraction]
  exact nearestRank_large product (by omega)

theorem twice_lt_pow (c k : Nat) : 2 * (c * 2 ^ k) < 2 ^ (Nat.log2 c + 1 + k + 1) := by
  have bound : c * 2 ^ k < 2 ^ (Nat.log2 c + 1) * 2 ^ k :=
    Nat.mul_lt_mul_of_pos_right Nat.lt_log2_self (Nat.two_pow_pos _)
  rw [← Nat.pow_add] at bound
  rw [Nat.pow_succ']
  exact Nat.mul_lt_mul_of_pos_left bound (by decide)

theorem decimalRank_small (small : e < -400 - (Nat.log2 c : Int)) : decimalRank c e = 0 := by
  obtain ⟨k, is⟩ : ∃ k, (-e).toNat = 401 + (Nat.log2 c + k) :=
    ⟨(-e).toNat - 401 - Nat.log2 c, by omega⟩
  have whole : e.toNat = 0 := by omega
  refine nearestRank_small ?_
  rw [whole, is, oneUnits, Nat.one_shiftLeft, Nat.pow_zero, Nat.mul_one]
  calc 2 * (c * 2 ^ 1074) < 2 ^ (Nat.log2 c + 1 + 1074 + 1) := twice_lt_pow c 1074
    _ ≤ 2 ^ (3 * (401 + (Nat.log2 c + k))) := Nat.pow_le_pow_right (by decide) (by omega)
    _ ≤ 10 ^ (401 + (Nat.log2 c + k)) := eight_pow_le _

theorem decimalRank_shift (c k : Nat) (e : Int) :
    decimalRank (c * 10 ^ k) e = decimalRank c (e + k) := by
  refine nearestRank_congr (Nat.pow_pos (by decide)) (Nat.pow_pos (by decide)) ?_
  have places : k + e.toNat + (-(e + k)).toNat = (e + k).toNat + (-e).toNat := by omega
  calc c * 10 ^ k * 10 ^ e.toNat * oneUnits * 10 ^ (-(e + k)).toNat
      = c * 10 ^ (k + e.toNat + (-(e + k)).toNat) * oneUnits := by
        rw [Nat.pow_add, Nat.pow_add]; ring
    _ = c * 10 ^ (e + k).toNat * oneUnits * 10 ^ (-e).toNat := by
        rw [places, Nat.pow_add]; ring

namespace Number

theorem ofRank_large (large : infinityRank ≤ rank) : ofRank negative rank = infinite negative := by
  simp [ofRank, infinite, Nat.min_eq_right large, Fin.last]

/-- The shortcuts for exponents out of range change nothing. -/
theorem ofDecimal_eq (negative : Bool) (c : Nat) (e : Int) :
    ofDecimal negative c e = ofRank negative (decimalRank c e) := by
  have zero : ofRank negative 0 = Number.zero negative := rfl
  unfold ofDecimal
  split
  · rename_i none
    rw [none, decimalRank_zero, zero]
  rename_i some
  split
  · rename_i large
    exact (ofRank_large (decimalRank_large some large)).symm
  split
  · rename_i small
    rw [decimalRank_small small, zero]
  split
  · rename_i whole
    have noFraction : (-e).toNat = 0 := by omega
    simp [ofRatio, ofUnits, decimalRank, noFraction]
  · rename_i notWhole
    have whole : e.toNat = 0 := by omega
    simp [ofRatio, ofUnits, decimalRank, whole]

theorem ofDecimal_shift (negative : Bool) (c k : Nat) (e : Int) :
    ofDecimal negative (c * 10 ^ k) e = ofDecimal negative c (e + k) := by
  rw [ofDecimal_eq, ofDecimal_eq, decimalRank_shift]

theorem ofDecimal_ranked (negative : Bool) (c : Nat) (e : Int) :
    ∃ rank, ofDecimal negative c e = .ranked negative rank := by
  rw [ofDecimal_eq]
  exact ⟨_, rfl⟩

end Number

namespace Decimal

/-- The number that a decimal reads as. -/
def number (d : Decimal) : Number := .ofDecimal false d.coefficient d.exponent

theorem readsBack_iff {d : Decimal} : readsBack rank d ↔ d.number = .ofRank false rank := by
  simp [readsBack, number]

theorem number_trim (d : Decimal) : d.trim.number = d.number := by
  induction d using trim.induct with
  | case1 d more ih =>
    rw [trim, if_pos more, ih]
    have parts : d.coefficient / 10 * 10 ^ 1 = d.coefficient := by omega
    have shifted := Number.ofDecimal_shift false (d.coefficient / 10) 1 d.exponent
    rw [parts] at shifted
    exact shifted.symm
  | case2 d done => rw [trim, if_neg done]

theorem number_exact (rank : Nat) : (exact rank).number = .ofRank false rank := by
  obtain ⟨k, units, is⟩ : ∃ k : Nat, oneUnits = 1 <<< k ∧
      exact rank = ⟨rankUnits rank * Nat.pow 5 k, -k⟩ := ⟨1074, rfl, rfl⟩
  have power : 10 ^ k = Nat.pow 5 k * 2 ^ k := Nat.mul_pow 5 2 k
  have whole : (-(k : Int)).toNat = 0 := by omega
  have places : (-(-(k : Int))).toNat = k := by omega
  have same : decimalRank (exact rank).coefficient (exact rank).exponent = rank := by
    rw [is, decimalRank, units, whole, places]
    refine Eq.trans ?_ (nearestRank_units rank)
    refine nearestRank_congr (Nat.pow_pos (by decide)) Nat.one_pos ?_
    rw [power, Nat.one_shiftLeft, Nat.pow_zero, Nat.mul_one, Nat.mul_one, Nat.mul_assoc]
  rw [number, Number.ofDecimal_eq, same]

theorem onGrid?_readsBack {tie : Tie} {e : Int} {d : Decimal}
    (found : onGrid? tie rank num den e = some d) : readsBack rank d := by
  have either (takeAbove : Bool) {above below : Decimal} (up : readsBack rank above)
      (down : readsBack rank below) : readsBack rank (if takeAbove then above else below) := by
    cases takeAbove <;> assumption
  simp only [onGrid?] at found
  split at found
  · obtain rfl := Option.some.inj found
    exact either _ ‹_› ‹_›
  · obtain rfl := Option.some.inj found
    assumption
  · obtain rfl := Option.some.inj found
    assumption
  · simp at found

/-- The shortest decimal of a magnitude reads as that magnitude. -/
theorem number_shortest (tie : Tie) (rank : Nat) :
    (shortest tie rank).number = .ofRank false rank := by
  rw [shortest, number_trim]
  generalize (List.range 17).map _ = grids
  cases found : grids.findSome? (onGrid? tie rank (rankUnits rank) oneUnits) with
  | none => exact number_exact rank
  | some d =>
    obtain ⟨e, -, onGrid⟩ := List.exists_of_findSome?_eq_some found
    exact readsBack_iff.mp (onGrid?_readsBack onGrid)

theorem digits_all (d : Decimal) : ∀ c ∈ d.digits, c.isDigit := fun _ member =>
  Nat.isDigit_of_mem_toDigits (by decide) (by decide) member

theorem digits_some (d : Decimal) : d.digits ≠ [] := Nat.toDigits_ne_nil

theorem ofDigitChars_digits (d : Decimal) : Nat.ofDigitChars 10 d.digits 0 = d.coefficient :=
  Nat.ofDigitChars_ten_toDigits

end Decimal
end Rounding

namespace Layout

variable {digits : List Char} {leading : Int}

/-- The digits, the first of which has the exponent `leading`, are written as `text`. -/
def Writes (digits : List Char) (leading : Int) (text : List Char) : Prop :=
  ∃ n : Numeral, n.WellFormed ∧ n.chars = text ∧ n.number false =
    .ofDecimal false (Nat.ofDigitChars 10 digits 0) (leading - (digits.length - 1 : Nat))

theorem positional_below (all : ∀ c ∈ digits, c.isDigit) (some : digits ≠ []) (low : leading < 0) :
    Writes digits leading (keyLayout.positional digits leading) := by
  generalize zeros : List.replicate (-leading - 1).toNat '0' = leads
  have digital : ∀ c ∈ leads ++ digits, c.isDigit := by
    intro c member
    rcases List.mem_append.mp member with zero | digit
    · rw [← zeros] at zero
      rw [List.eq_of_mem_replicate zero]
      decide
    · exact all c digit
  have value : Nat.ofDigitChars 10 (['0'] ++ (leads ++ digits)) 0 = Nat.ofDigitChars 10 digits 0 := by
    rw [← zeros, Nat.ofDigitChars_append, Nat.ofDigitChars_append, Nat.ofDigitChars_replicate_zero]
    rfl
  have places : (0 : Int) - (leads ++ digits).length = leading - (digits.length - 1 : Nat) := by
    have := List.length_pos_iff.mpr some
    rw [← zeros, List.length_append, List.length_replicate]
    omega
  refine ⟨⟨['0'], leads ++ digits, none⟩, ⟨by simp, digital, .inl (by simp), by simp⟩, ?_, ?_⟩
  · rw [positional, if_pos low, zeros]
    simp [Numeral.chars, some]
  · rw [Numeral.number, value, Numeral.exponentValue, places]

theorem positional_whole (all : ∀ c ∈ digits, c.isDigit) (some : digits ≠ []) (high : 0 ≤ leading)
    (short : digits.length ≤ leading.toNat + 1) :
    Writes digits leading (keyLayout.positional digits leading) := by
  have notLow : ¬ leading < 0 := by omega
  generalize fill : leading.toNat + 1 - digits.length = zeros
  have digital : ∀ c ∈ digits ++ List.replicate zeros '0', c.isDigit := by
    intro c member
    rcases List.mem_append.mp member with digit | zero
    · exact all c digit
    · rw [List.eq_of_mem_replicate zero]
      decide
  have value : Nat.ofDigitChars 10 (digits ++ List.replicate zeros '0' ++ []) 0
      = Nat.ofDigitChars 10 digits 0 * 10 ^ zeros := by
    rw [List.append_nil, Nat.ofDigitChars_append, Nat.ofDigitChars_replicate_zero, Nat.mul_comm]
  have places : (0 : Int) - ([] : List Char).length + zeros
      = leading - (digits.length - 1 : Nat) := by
    have := List.length_pos_iff.mpr some
    rw [← fill, List.length_nil]
    omega
  refine ⟨⟨digits ++ List.replicate zeros '0', [], none⟩,
    ⟨digital, by simp, .inl (by simp [some]), by simp⟩, ?_, ?_⟩
  · simp [Numeral.chars, positional, notLow, List.take_of_length_le short,
      List.drop_eq_nil_of_le short, fill, keyLayout]
  · rw [Numeral.number, value, Number.ofDecimal_shift, Numeral.exponentValue, places]

theorem positional_split (all : ∀ c ∈ digits, c.isDigit) (high : 0 ≤ leading)
    (long : leading.toNat + 1 < digits.length) :
    Writes digits leading (keyLayout.positional digits leading) := by
  have notLow : ¬ leading < 0 := by omega
  have noFill : leading.toNat + 1 - digits.length = 0 := by omega
  have more : digits.drop (leading.toNat + 1) ≠ [] := by
    simpa [List.drop_eq_nil_iff] using long
  have places : (0 : Int) - (digits.drop (leading.toNat + 1)).length
      = leading - (digits.length - 1 : Nat) := by
    rw [List.length_drop]
    omega
  refine ⟨⟨digits.take (leading.toNat + 1), digits.drop (leading.toNat + 1), none⟩,
    ⟨fun c member => all c (List.mem_of_mem_take member),
      fun c member => all c (List.mem_of_mem_drop member), .inr more, by simp⟩, ?_, ?_⟩
  · obtain ⟨c, fraction, is⟩ := List.exists_cons_of_ne_nil more
    simp [Numeral.chars, positional, notLow, noFill, is]
  · rw [Numeral.number, List.take_append_drop, Numeral.exponentValue, places]

theorem scientific_writes (all : ∀ c ∈ digits, c.isDigit) (some : digits ≠ []) :
    Writes digits leading (keyLayout.scientific digits leading) := by
  obtain ⟨d, rest, rfl⟩ := List.exists_cons_of_ne_nil some
  have power : Token.Digits (Nat.toDigits 10 leading.natAbs) :=
    ⟨Nat.toDigits_ne_nil, fun _ => Nat.isDigit_of_mem_toDigits (by decide) (by decide)⟩
  have written (sign : List Char) (signed : Numeral.IsSign sign) :
      (⟨[d], rest, Option.some (sign, Nat.toDigits 10 leading.natAbs)⟩ : Numeral).WellFormed := by
    refine ⟨by simpa using all d, fun c member => all c (by simp [member]), .inl (by simp), ?_⟩
    rintro _ _ ⟨⟩
    exact ⟨signed, power⟩
  by_cases low : leading < 0
  · have exponent : (⟨[d], rest, Option.some (['-'], Nat.toDigits 10 leading.natAbs)⟩ :
        Numeral).exponentValue = leading := by
      change -((Nat.ofDigitChars 10 (Nat.toDigits 10 leading.natAbs) 0 : Nat) : Int) = leading
      rw [Nat.ofDigitChars_ten_toDigits]
      omega
    refine ⟨_, written ['-'] (.inr (.inr rfl)), ?_, ?_⟩
    · cases rest <;> simp [Numeral.chars, scientific, low]
    · rw [Numeral.number, exponent]
      rfl
  · have exponent : (⟨[d], rest, Option.some (['+'], Nat.toDigits 10 leading.natAbs)⟩ :
        Numeral).exponentValue = leading := by
      change ((Nat.ofDigitChars 10 (Nat.toDigits 10 leading.natAbs) 0 : Nat) : Int) = leading
      rw [Nat.ofDigitChars_ten_toDigits]
      omega
    refine ⟨_, written ['+'] (.inr (.inl rfl)), ?_, ?_⟩
    · cases rest <;> simp [Numeral.chars, scientific, low, keyLayout]
    · rw [Numeral.number, exponent]
      rfl

theorem magnitude_writes (rank : Nat) : ∃ n : Numeral, n.WellFormed ∧
    n.chars = keyLayout.magnitude rank ∧ n.number false = .ofRank false rank := by
  generalize short : Decimal.shortest .up rank = d
  have all := d.digits_all
  have some := d.digits_some
  have writes : Writes d.digits d.leading (keyLayout.magnitude rank) := by
    rw [magnitude, show keyLayout.tie = .up from rfl, short]
    split
    · rcases Int.lt_or_le d.leading 0 with low | high
      · exact positional_below all some low
      · rcases Nat.lt_or_ge (d.leading.toNat + 1) d.digits.length with long | short
        · exact positional_split all high long
        · exact positional_whole all some high short
    · exact scientific_writes all some
  obtain ⟨n, formed, text, value⟩ := writes
  refine ⟨n, formed, text, ?_⟩
  have exponent : d.leading - (d.digits.length - 1 : Nat) = d.exponent := by
    rw [Decimal.leading]
    omega
  rw [value, exponent, d.ofDigitChars_digits]
  exact short ▸ Decimal.number_shortest .up rank

/-- A finite number that is not negative is written as a numeral that reads as it. -/
theorem chars_writes {rank : Fin (infinityRank + 1)} (finite : rank.val < infinityRank) :
    ∃ n : Numeral, n.WellFormed ∧ n.chars = keyLayout.chars (.ranked false rank) ∧
      n.number false = .ranked false rank := by
  have notInfinite : rank.val ≠ infinityRank := Nat.ne_of_lt finite
  by_cases zero : rank.val = 0
  · have value : (Number.ranked false rank) = .zero false := congrArg _ (Fin.ext zero)
    refine ⟨⟨['0'], [], none⟩, ⟨List.all_eq_true.mp rfl, by simp, .inl (by simp), by simp⟩, ?_, ?_⟩
    · simp only [chars, zero, ↓reduceIte]
      rfl
    · rw [value]
      rfl
  · obtain ⟨n, formed, text, value⟩ := magnitude_writes rank.val
    refine ⟨n, formed, ?_, ?_⟩
    · simpa [chars, notInfinite, zero] using text
    · rw [value, Number.ofRank]
      simp [Nat.min_eq_left (Nat.le_of_lt finite)]

/-- Such a number is read back from its text. -/
theorem chars_readsBack {rank : Fin (infinityRank + 1)} (finite : rank.val < infinityRank) :
    Number.ofDecimalText? (keyLayout.chars (.ranked false rank)) = some (.ranked false rank) := by
  obtain ⟨n, formed, text, value⟩ := chars_writes finite
  rw [← text, Number.ofDecimalText?, Numeral.ofChars?_chars formed, ← value]
  rfl

end Layout
end DataBinding
