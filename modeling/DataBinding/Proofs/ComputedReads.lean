import DataBinding.Proofs.WholeNumbers
import DataBinding.Value.Read

/-! Reads through computed keys. An array takes a whole number as an index at once, and every
other key by the name that it stands for; both give the same element. The name of a number below
2^53 is its digits, and the name of a larger one is the digits of no smaller one. -/
namespace DataBinding

variable {k i : Nat} {key : String}

theorem arrayIndex?_eq_some_iff :
    arrayIndex? key = some i ↔ i < indexLimit ∧ key.toList = Nat.toDigits 10 i := by
  simp only [arrayIndex?, Option.ite_none_right_eq_some, Option.some.injEq]
  constructor
  · rintro ⟨⟨fits, digits⟩, rfl⟩
    exact ⟨fits, digits.symm⟩
  · rintro ⟨fits, digits⟩
    rw [digits, Nat.ofDigitChars_ten_toDigits]
    exact ⟨⟨fits, rfl⟩, rfl⟩

namespace Number

variable {negative : Bool} {rank : Fin (infinityRank + 1)}

/-- The digits of a whole number read as it. -/
theorem ofDecimalText?_toDigits (k : Nat) : ofDecimalText? (Nat.toDigits 10 k) = some (ofNat k) := by
  have formed : (⟨Nat.toDigits 10 k, [], none⟩ : Numeral).WellFormed :=
    ⟨fun _ => Nat.isDigit_of_mem_toDigits (by decide) (by decide), by simp,
      .inl Nat.toDigits_ne_nil, by simp⟩
  have text : (⟨Nat.toDigits 10 k, [], none⟩ : Numeral).chars = Nat.toDigits 10 k := by
    simp [Numeral.chars]
  rw [← ofDecimal_zero]
  calc ofDecimalText? (Nat.toDigits 10 k)
      = ofDecimalText? (⟨Nat.toDigits 10 k, [], none⟩ : Numeral).chars := by rw [text]
    _ = some (.ofDecimal false k 0) := by
      rw [ofDecimalText?, Numeral.ofChars?_chars formed]
      simp [Numeral.number, Numeral.exponentValue]

/-- A whole number that is not below zero; both zeros are. -/
def IsIndex (n : Number) : Prop := n.isIntegral = true ∧ (n.isNegative = false ∨ n.isZero = true)

/-- The sign of zero is not written in a key. -/
theorem IsIndex.chars_eq (index : (ranked negative rank).IsIndex) :
    keyLayout.chars (.ranked negative rank) = keyLayout.chars (.ranked false rank) := by
  rcases index.2 with positive | zero
  · rw [show negative = false from positive]
  · have none : rank.val = 0 := beq_iff_eq.mp zero
    have finite : ¬ 0 = infinityRank := by decide
    simp only [Layout.chars, none, if_neg finite, if_true]
    cases negative <;> rfl

/-- The name of such a number reads as it, its sign apart. -/
theorem IsIndex.readsBack (index : (ranked negative rank).IsIndex) :
    ofDecimalText? (ranked negative rank).key.toList = some (.ranked false rank) := by
  rw [key, String.toList_ofList, index.chars_eq]
  exact Layout.chars_readsBack (isIntegral_ranked.mp index.1).1

theorem IsIndex.key_ne_length (index : (ranked negative rank).IsIndex) :
    (ranked negative rank).key ≠ "length" := by
  intro same
  have reads := index.readsBack
  rw [same] at reads
  cases reads

/-- The name of a whole number below 2^53 is its digits. -/
theorem IsIndex.key_toList (index : (ranked negative rank).IsIndex)
    (small : (ranked negative rank).wholePart < 2 ^ 53) :
    (ranked negative rank).key.toList = Nat.toDigits 10 (ranked negative rank).wholePart := by
  have units := rankUnits_of_integral index.1
  have finite := (isIntegral_ranked.mp index.1).1
  have zero_iff := wholePart_eq_zero_iff index.1
  rw [key, String.toList_ofList, index.chars_eq]
  generalize (ranked negative rank).wholePart = k at small units zero_iff
  rw [Layout.chars, if_neg (Nat.ne_of_lt finite)]
  by_cases zero : rank.val = 0
  · rw [if_pos zero, zero_iff.mpr zero]
    rfl
  · rw [if_neg zero, if_neg Bool.false_ne_true]
    exact Layout.magnitude_whole (Nat.pos_of_ne_zero fun none => zero (zero_iff.mp none)) small units

/-- A name that is an index below 2^53 is the name of no other number. -/
theorem IsIndex.wholePart_eq (index : (ranked negative rank).IsIndex)
    (digits : (ranked negative rank).key.toList = Nat.toDigits 10 i) (small : i < 2 ^ 53) :
    (ranked negative rank).wholePart = i := by
  have reads := index.readsBack
  rw [digits, ofDecimalText?_toDigits, Option.some.injEq] at reads
  calc (ranked negative rank).wholePart = (ranked false rank).wholePart := rfl
    _ = i := by rw [← reads, wholePart_ofNat small]

end Number

namespace Heap

variable {heap : Heap} {h : Handle} {items : List Value} {n : Number}

/-- The element under the name of a whole number is the element at its index. -/
theorem item_of_key (short : items.length < 2 ^ 53) (index : n.IsIndex) :
    ((arrayIndex? n.key).bind fun i => items[i]?) = items[n.toIndex]? := by
  cases n with
  | nan => cases index.1
  | ranked negative rank =>
    rw [Number.toIndex]
    by_cases small : (Number.ranked negative rank).wholePart < 2 ^ 53
    · have name := arrayIndex?_eq_some_iff.mpr
        ⟨Nat.lt_trans small (by decide), index.key_toList small⟩
      have fits : (Number.ranked negative rank).wholePart ≤ indexLimit - 1 :=
        Nat.le_trans (Nat.le_of_lt small) (by decide)
      rw [name, Option.bind_some, Nat.min_eq_left fits]
    · -- Neither the number nor its name reaches into the array.
      have beyond : items.length ≤ min (Number.ranked negative rank).wholePart (indexLimit - 1) := by
        rw [Nat.le_min]
        exact ⟨by omega, Nat.le_trans (Nat.le_of_lt short) (by decide)⟩
      rw [List.getElem?_eq_none beyond, Option.bind_eq_none_iff]
      intro i name
      have digits := (arrayIndex?_eq_some_iff.mp name).2
      refine List.getElem?_eq_none (Nat.le_trans (Nat.le_of_lt short) (Nat.le_of_not_lt ?_))
      intro few
      exact small (index.wholePart_eq digits few ▸ few)

theorem member_key (cell : heap.cell h = .array items) (short : items.length < 2 ^ 53)
    (index : n.IsIndex) :
    heap.member (.container h) n.key = (items[n.toIndex]?).getD .undefined := by
  have name : n.key ≠ "length" := by
    cases n with
    | nan => cases index.1
    | ranked negative rank => exact index.key_ne_length
  simp only [member, cell, if_neg name, item_of_key short index]

/-- An array reads a number as the name that the number stands for, whatever number it is. A read
through the number and one through its name as a string are therefore the same. -/
theorem memberAt_number (cell : heap.cell h = .array items) (short : items.length < 2 ^ 53)
    (n : Number) :
    ∃ name, (Value.number n).key? = some name ∧
      heap.memberAt (.container h) (.number n) = heap.member (.container h) name ∧
      heap.memberAt (.container h) (.number n) = heap.memberAt (.container h) (.string name) := by
  have byName : heap.memberAt (.container h) (.number n) = heap.member (.container h) n.key := by
    simp only [memberAt, cell]
    split
    · rename_i fast
      have index : n.IsIndex := by
        simpa only [Number.IsIndex, Bool.and_eq_true, Bool.or_eq_true, Bool.not_eq_true'] using fast
      rw [member_key cell short index]
    · rfl
  exact ⟨n.key, rfl, byName, byName⟩

/-- The element at minus zero is the one named `0`, the first. -/
theorem memberAt_number_minusZero :
    let heap : Heap := ⟨#[.array [.bool true, .null]]⟩
    heap.cell ⟨0⟩ = .array [.bool true, .null] ∧ [Value.bool true, .null].length < 2 ^ 53 ∧
      (Value.number (.zero true)).key? = some "0" ∧
      heap.memberAt (.container ⟨0⟩) (.number (.zero true)) = .bool true ∧
      heap.memberAt (.container ⟨0⟩) (.string "0") = .bool true := by
  intro heap
  have cell : heap.cell ⟨0⟩ = .array [.bool true, .null] := rfl
  obtain ⟨name, key, -, byString⟩ := memberAt_number cell (by decide) (.zero true)
  have zero : (Value.number (.zero true)).key? = some "0" := rfl
  obtain rfl := Option.some.inj (zero.symm.trans key)
  have first : heap.memberAt (.container ⟨0⟩) (.number (.zero true)) = .bool true := rfl
  exact ⟨cell, by decide, zero, first, byString ▸ first⟩

end Heap
end DataBinding
