import DataBinding.Token.Lexeme
import DataBinding.Token.Scan

/-! The number scanner against the number grammar. A numeral is what a number is made of;
the scanner finds the one numeral that the rest of the text does not continue, and that is
the longest number at the front of the text. -/
namespace DataBinding

theorem Except.bind_eq_ok {ε α β : Type} {action : Except ε α} {next : α → Except ε β}
    {b : β} : (action >>= next) = .ok b ↔ ∃ a, action = .ok a ∧ next a = .ok b := by
  cases action <;> simp [bind, Except.bind]

section Runs

variable {α : Type} {p : α → Bool} {body rest body' rest' : List α}

theorem List.takeWhile_exact (inside : ∀ c ∈ body, p c) (stop : rest.head?.any p = false) :
    (body ++ rest).takeWhile p = body := by
  rw [List.takeWhile_append_of_pos inside]
  cases rest with
  | nil => simp
  | cons c rest => simp_all

theorem List.dropWhile_exact (inside : ∀ c ∈ body, p c) (stop : rest.head?.any p = false) :
    (body ++ rest).dropWhile p = rest := by
  rw [List.dropWhile_append_of_pos inside]
  cases rest with
  | nil => rfl
  | cons c rest => simp_all

theorem List.dropWhile_stops (p : α → Bool) (cs : List α) :
    (cs.dropWhile p).head?.any p = false := by
  have first := List.head?_dropWhile_not p cs
  cases h : (cs.dropWhile p).head? <;> simp_all

/-- A run that is followed by nothing of its kind contains every other run at its place. -/
theorem List.run_longest (stop : rest.head?.any p = false) (inside : ∀ c ∈ body', p c)
    (same : body' ++ rest' = body ++ rest) :
    ∃ more, body = body' ++ more ∧ rest' = more ++ rest := by
  rcases List.append_eq_append_iff.mp same with ⟨more, rfl, rfl⟩ | ⟨more, rfl, rfl⟩
  · exact ⟨more, rfl, rfl⟩
  · cases more with
    | nil => exact ⟨[], by simp, rfl⟩
    | cons c more =>
      have member := inside c (by simp)
      simp [member] at stop

end Runs

namespace Numeral
open Token

def IsSign (sign : List Char) : Prop := sign = [] ∨ sign = ['+'] ∨ sign = ['-']

/-- The digits are digits, and there are some where a number needs them. -/
structure WellFormed (n : Numeral) : Prop where
  whole : ∀ c ∈ n.whole, c.isDigit
  fraction : ∀ c ∈ n.fraction, c.isDigit
  nonempty : n.whole ≠ [] ∨ n.fraction ≠ []
  exponent : ∀ sign digits, n.exponent = some (sign, digits) →
    IsSign sign ∧ Digits digits

/-- The fraction with its point, if there is one. -/
def point (n : Numeral) : List Char := if n.fraction.isEmpty then [] else '.' :: n.fraction

/-- The exponent with its mark, if there is one. -/
def power (mark : Char) (n : Numeral) : List Char :=
  match n.exponent with
  | none => []
  | some (sign, digits) => mark :: (sign ++ digits)

/-- The text of the numeral, with one or the other mark. -/
def written (mark : Char) (n : Numeral) : List Char := n.whole ++ n.point ++ n.power mark

theorem written_chars (n : Numeral) : n.written 'e' = n.chars := rfl

/-- No number that starts with the numeral goes on into `rest`, nor is one attempted. -/
structure Stops (n : Numeral) (rest : List Char) : Prop where
  digit : rest.head?.any Char.isDigit = false
  mark : n.exponent = none → rest.head?.any isExponentMark = false
  point : n.exponent = none → n.fraction = [] → ∀ tail, rest = '.' :: tail →
    startsWithDigit tail = false

variable {n m : Numeral} {mark mark' : Char} {cs rest rest' : List Char} {index : Nat}

theorem mark_not_digit (isMark : isExponentMark mark) : mark.isDigit = false ∧ mark ≠ '.' := by
  simp only [isExponentMark, Bool.or_eq_true, beq_iff_eq] at isMark
  rcases isMark with rfl | rfl <;> decide

theorem power_stops (isMark : isExponentMark mark) (stops : n.Stops rest) :
    (n.power mark ++ rest).head?.any Char.isDigit = false := by
  unfold power
  split
  · simpa using stops.digit
  · simp [(mark_not_digit isMark).1]

theorem point_stops (isMark : isExponentMark mark) (stops : n.Stops rest) :
    (n.point ++ (n.power mark ++ rest)).head?.any Char.isDigit = false := by
  unfold point
  split
  · simpa using power_stops isMark stops
  · rfl

theorem mantissa_iff : Mantissa cs ↔ ∃ whole fraction,
    (∀ c ∈ whole, c.isDigit) ∧ (∀ c ∈ fraction, c.isDigit) ∧ (whole ≠ [] ∨ fraction ≠ []) ∧
      cs = whole ++ (⟨whole, fraction, none⟩ : Numeral).point := by
  constructor
  · rintro (⟨some, all⟩ | ⟨⟨some, all⟩, some', all'⟩ | ⟨some, all⟩)
    · exact ⟨_, [], all, by simp, .inl some, by simp [point]⟩
    · exact ⟨_, _, all, all', .inl some, by simp [point, some']⟩
    · exact ⟨[], _, by simp, all, .inr some, by simp [point, some]⟩
  · rintro ⟨whole, fraction, all, all', some, rfl⟩
    by_cases noFraction : fraction = []
    · subst noFraction
      have digits : Digits whole := ⟨by simpa using some, all⟩
      simpa [point] using Mantissa.whole digits
    · have digits : Digits fraction := ⟨noFraction, all'⟩
      by_cases noWhole : whole = []
      · subst noWhole
        simpa [point, noFraction] using Mantissa.fraction digits
      · simpa [point, noFraction] using Mantissa.both ⟨noWhole, all⟩ digits

theorem exponent_iff {es : List Char} : Exponent es ↔ ∃ mark sign digits,
    isExponentMark mark ∧ IsSign sign ∧ Digits digits ∧
      es = mark :: (sign ++ digits) := by
  constructor
  · rintro (⟨isMark, digits⟩ | ⟨isMark, sign, digits⟩)
    · exact ⟨_, [], _, isMark, .inl rfl, digits, rfl⟩
    · exact ⟨_, [_], _, isMark, by simpa [IsSign] using sign, digits, rfl⟩
  · rintro ⟨mark, sign, digits, isMark, sign | sign | sign, all, rfl⟩ <;> subst sign
    · exact .plain isMark all
    · exact .signed isMark (.inl rfl) all
    · exact .signed isMark (.inr rfl) all

/-- The numbers of the grammar are the texts of numerals. -/
theorem isNumber_iff : IsNumber cs ↔
    ∃ n mark, WellFormed n ∧ isExponentMark mark ∧ cs = n.written mark := by
  constructor
  · rintro (mantissa | ⟨mantissa, exponent⟩)
    · obtain ⟨whole, fraction, all, all', some, rfl⟩ := mantissa_iff.mp mantissa
      exact ⟨⟨whole, fraction, none⟩, 'e', ⟨all, all', some, by simp⟩, rfl, by simp [written, power]⟩
    · obtain ⟨whole, fraction, all, all', some, rfl⟩ := mantissa_iff.mp mantissa
      obtain ⟨mark, sign, digits, isMark, signed, digital, rfl⟩ := exponent_iff.mp exponent
      refine ⟨⟨whole, fraction, Option.some (sign, digits)⟩, mark, ⟨all, all', some, ?_⟩, isMark, rfl⟩
      rintro _ _ ⟨⟩
      exact ⟨signed, digital⟩
  · rintro ⟨⟨whole, fraction, exponent⟩, mark, formed, isMark, rfl⟩
    have mantissa := mantissa_iff.mpr ⟨whole, fraction, formed.whole, formed.fraction,
      formed.nonempty, rfl⟩
    cases exponent with
    | none => simpa [written, power] using IsNumber.mantissa mantissa
    | some parts =>
      obtain ⟨signed, digital⟩ := formed.exponent _ _ rfl
      exact .exponent mantissa (exponent_iff.mpr ⟨mark, _, _, isMark, signed, digital, rfl⟩)

theorem digits_start {digits : List Char} (digital : Digits digits) (rest : List Char) :
    startsWithDigit (digits ++ rest) := by
  obtain ⟨nonempty, all⟩ := digital
  cases digits with
  | nil => exact absurd rfl nonempty
  | cons c digits => simpa [startsWithDigit] using all c (by simp)

theorem startsWithDigit_iff :
    startsWithDigit cs ↔ Digits (cs.takeWhile Char.isDigit) := by
  constructor
  · intro starts
    refine ⟨?_, List.all_eq_true.mp List.all_takeWhile⟩
    cases cs with
    | nil => simp [startsWithDigit] at starts
    | cons c cs => simp_all [startsWithDigit]
  · intro digital
    have starts := digits_start digital (cs.dropWhile Char.isDigit)
    rwa [List.takeWhile_append_dropWhile] at starts

theorem fraction_point (formed : n.WellFormed) (isMark : isExponentMark mark)
    (stops : n.Stops rest) :
    Token.fraction (n.point ++ (n.power mark ++ rest)) = (n.fraction, n.power mark ++ rest) := by
  by_cases empty : n.fraction = []
  · have noPoint : ∀ tail, n.power mark ++ rest = '.' :: tail → startsWithDigit tail = false := by
      intro tail same
      cases power : n.exponent with
      | none => exact stops.point power empty tail (by simpa [Numeral.power, power] using same)
      | some parts =>
        simp only [Numeral.power, power, List.cons_append, List.cons.injEq] at same
        exact absurd same.1 (mark_not_digit isMark).2
    simp only [point, empty, List.isEmpty_nil, ↓reduceIte, List.nil_append]
    unfold Token.fraction
    split
    · rename_i tail same
      simp [noPoint tail same, same]
    · rfl
  · have starts := digits_start ⟨empty, formed.fraction⟩ (n.power mark ++ rest)
    have stop := power_stops isMark stops
    simp [point, empty, Token.fraction, starts, List.takeWhile_exact formed.fraction stop,
      List.dropWhile_exact formed.fraction stop]

theorem exponent_power (formed : n.WellFormed) (isMark : isExponentMark mark)
    (stops : n.Stops rest) : Token.exponent index (n.power mark ++ rest) = .ok n.exponent := by
  have same : mark = 'e' ∨ mark = 'E' := by simpa [isExponentMark] using isMark
  cases power : n.exponent with
  | none =>
    have noMark := stops.mark power
    cases rest with
    | nil => simp [Numeral.power, power, Token.exponent]
    | cons c rest => simp_all [Numeral.power, Token.exponent, isExponentMark]
  | some parts =>
    obtain ⟨sign, digits⟩ := parts
    obtain ⟨signed, digital⟩ := formed.exponent sign digits power
    have starts := digits_start digital rest
    have whole := List.takeWhile_exact digital.2 stops.digit
    simp only [Numeral.power, power, List.cons_append, List.append_assoc]
    rcases signed with rfl | rfl | rfl
    · cases digits with
      | nil => exact absurd rfl digital.1
      | cons c digits =>
        have digit : c.isDigit := by simpa [startsWithDigit] using starts
        have unsigned : ¬ (c = '+' ∨ c = '-') := by rintro (rfl | rfl) <;> simp at digit
        simpa [Token.exponent, same, unsigned, digit] using whole
    · simp [Token.exponent, same, starts, whole]
    · simp [Token.exponent, same, starts, whole]

/-- The scanner reads every numeral that the rest does not continue. -/
theorem numeral_written (index : Nat) (formed : n.WellFormed) (isMark : isExponentMark mark)
    (stops : n.Stops rest) : numeral index (n.written mark ++ rest) = .ok n := by
  have stop := point_stops isMark stops
  simp only [written, List.append_assoc, numeral, List.takeWhile_exact formed.whole stop,
    List.dropWhile_exact formed.whole stop, fraction_point formed isMark stops,
    exponent_power formed isMark stops]
  rfl

theorem fraction_read (read : Token.fraction cs = (n.fraction, rest))
    (stop : cs.head?.any Char.isDigit = false) :
    cs = n.point ++ rest ∧ (∀ c ∈ n.fraction, c.isDigit) ∧ rest.head?.any Char.isDigit = false ∧
      (n.fraction = [] → ∀ tail, rest = '.' :: tail → startsWithDigit tail = false) := by
  unfold Token.fraction at read
  split at read
  · rename_i tail
    by_cases starts : startsWithDigit tail
    · obtain ⟨nonempty, all⟩ := startsWithDigit_iff.mp starts
      simp only [starts, ↓reduceIte, Prod.mk.injEq] at read
      rw [point, ← read.1, ← read.2]
      refine ⟨by simp [nonempty], all, List.dropWhile_stops _ _, ?_⟩
      intro none
      exact absurd none nonempty
    · simp only [starts, Bool.false_eq_true, ↓reduceIte, Prod.mk.injEq] at read
      rw [point, ← read.1, ← read.2]
      refine ⟨rfl, by simp, stop, ?_⟩
      rintro - _ ⟨⟩
      simpa using starts
  · rename_i noPoint
    rw [point, ← (Prod.mk.inj read).1, ← (Prod.mk.inj read).2]
    exact ⟨rfl, by simp, stop, fun _ tail same => absurd same (noPoint tail)⟩

theorem exponent_attempted {parts : Option (List Char × List Char)}
    (isMark : isExponentMark mark) (read : Token.exponent index (mark :: cs) = .ok parts) :
    ∃ sign tail, cs = sign ++ tail ∧ IsSign sign ∧ startsWithDigit tail ∧
      parts = some (sign, tail.takeWhile Char.isDigit) := by
  have same : mark = 'e' ∨ mark = 'E' := by simpa [isExponentMark] using isMark
  cases cs with
  | nil => simp [Token.exponent, same] at read
  | cons c cs =>
    by_cases signed : c = '+' ∨ c = '-'
    · by_cases starts : startsWithDigit cs
      · simp only [Token.exponent, same, signed, starts, ↓reduceIte, Except.ok.injEq] at read
        exact ⟨[c], cs, rfl, by simpa [IsSign] using signed, starts, read.symm⟩
      · simp [Token.exponent, same, signed, starts] at read
    · by_cases digit : c.isDigit
      · simp only [Token.exponent, same, signed, digit, ↓reduceIte, Except.ok.injEq] at read
        exact ⟨[], c :: cs, rfl, .inl rfl, by simpa [startsWithDigit] using digit, read.symm⟩
      · simp [Token.exponent, same, signed, digit] at read

theorem exponent_read (read : Token.exponent index cs = .ok n.exponent)
    (stop : cs.head?.any Char.isDigit = false) :
    ∃ mark rest, isExponentMark mark ∧ cs = n.power mark ++ rest ∧
      (∀ sign digits, n.exponent = some (sign, digits) → IsSign sign ∧ Digits digits) ∧
      rest.head?.any Char.isDigit = false ∧
      (n.exponent = none → rest = cs ∧ rest.head?.any isExponentMark = false) := by
  by_cases marked : cs.head?.any isExponentMark
  · obtain ⟨mark, cs, rfl⟩ := List.exists_cons_of_ne_nil (by rintro rfl; simp at marked : cs ≠ [])
    obtain ⟨sign, tail, rfl, signed, starts, is⟩ := exponent_attempted (by simpa using marked) read
    refine ⟨mark, tail.dropWhile Char.isDigit, by simpa using marked, by simp [power, is], ?_,
      List.dropWhile_stops _ _, by simp [is]⟩
    rw [is]
    rintro _ _ ⟨⟩
    exact ⟨signed, startsWithDigit_iff.mp starts⟩
  · have is : n.exponent = none := by
      cases cs with
      | nil => simpa [Token.exponent] using read.symm
      | cons c cs =>
        have other : ¬ (c = 'e' ∨ c = 'E') := by simpa [isExponentMark] using marked
        simpa [Token.exponent, other] using read.symm
    exact ⟨'e', cs, rfl, by simp [power, is], by simp [is], stop,
      fun _ => ⟨rfl, by simpa using marked⟩⟩

theorem numeral_parts (read : numeral index cs = .ok n) :
    n.whole = cs.takeWhile Char.isDigit ∧
      n.fraction = (Token.fraction (cs.dropWhile Char.isDigit)).1 ∧
      ∃ place, Token.exponent place (Token.fraction (cs.dropWhile Char.isDigit)).2
        = .ok n.exponent := by
  unfold numeral at read
  generalize Token.fraction (cs.dropWhile Char.isDigit) = parted at read
  obtain ⟨parts, readParts, made⟩ := Except.bind_eq_ok.mp read
  obtain rfl := Except.ok.inj made
  exact ⟨rfl, rfl, _, readParts⟩

/-- What the scanner reads, where a number starts, is a numeral that the rest does not
continue. -/
theorem numeral_read
    (starts : startsWithDigit cs ∨ ∃ tail, cs = '.' :: tail ∧ startsWithDigit tail)
    (read : numeral index cs = .ok n) :
    ∃ mark rest, cs = n.written mark ++ rest ∧ n.WellFormed ∧ isExponentMark mark ∧
      n.Stops rest := by
  obtain ⟨whole, fraction, place, exponent⟩ := numeral_parts read
  obtain ⟨after, digits, stop, noPoint⟩ :=
    fraction_read (Prod.ext fraction.symm rfl) (List.dropWhile_stops Char.isDigit cs)
  obtain ⟨mark, rest, isMark, after', parts, stop', noMark⟩ := exponent_read exponent stop
  have nonempty : n.whole ≠ [] ∨ n.fraction ≠ [] := by
    rcases starts with starts | ⟨tail, rfl, starts⟩
    · exact .inl (whole ▸ (startsWithDigit_iff.mp starts).1)
    · refine .inr fun none => ?_
      have same : '.' :: tail = n.point ++ _ := after
      have stays := noPoint none tail (by simpa [point, none] using same.symm)
      simp [starts] at stays
  refine ⟨mark, rest, ?_, ⟨?_, digits, nonempty, parts⟩, isMark,
    ⟨stop', fun none => (noMark none).2, ?_⟩⟩
  · rw [written, List.append_assoc, List.append_assoc, ← after', ← after, whole,
      List.takeWhile_append_dropWhile]
  · rw [whole]
    exact List.all_eq_true.mp List.all_takeWhile
  · intro none empty
    rw [(noMark none).1]
    exact noPoint empty

theorem splitSign_append {sign : List Char} (signed : IsSign sign) (starts : startsWithDigit cs) :
    splitSign (sign ++ cs) = (sign, cs) := by
  rcases signed with rfl | rfl | rfl
  · rw [List.nil_append]
    unfold splitSign
    split
    · simp [startsWithDigit] at starts
    · simp [startsWithDigit] at starts
    · rfl
  · rfl
  · rfl

/-- The part after a place where both numerals have come is longest in the one that stops. -/
theorem power_longest (formed : n.WellFormed) (stops : n.Stops rest) (formed' : m.WellFormed)
    (isMark' : isExponentMark mark')
    (same : m.power mark' ++ rest' = n.power mark ++ rest) :
    (m.power mark').length ≤ (n.power mark).length := by
  cases is' : m.exponent with
  | none => simp [power, is']
  | some parts' =>
    cases is : n.exponent with
    | none =>
      have noMark := stops.mark is
      simp only [power, is, is', List.nil_append, List.cons_append] at same
      simp [← same, isMark'] at noMark
    | some parts =>
      obtain ⟨signed, digital⟩ := formed.exponent _ _ is
      obtain ⟨signed', digital'⟩ := formed'.exponent _ _ is'
      simp only [power, is, is', List.cons_append, List.append_assoc, List.cons.injEq] at same
      have split := splitSign_append signed (digits_start digital rest)
      rw [← same.2, splitSign_append signed' (digits_start digital' rest')] at split
      obtain ⟨sign, digits⟩ := Prod.mk.inj split
      obtain ⟨more, longer, -⟩ := List.run_longest stops.digit digital'.2 digits
      simp [power, is, is', sign, longer]

theorem power_of_digit (isMark : isExponentMark mark)
    (digit : (n.power mark ++ rest).head?.any Char.isDigit) : n.power mark = [] := by
  unfold power at *
  split at *
  · rfl
  · simp [(mark_not_digit isMark).1] at digit

theorem point_of_digit (digit : (n.point ++ rest).head?.any Char.isDigit) : n.point = [] := by
  by_cases empty : n.fraction = []
  · simp [point, empty]
  · simp [point, empty] at digit

theorem point_longest (formed : n.WellFormed) (isMark : isExponentMark mark)
    (stops : n.Stops rest) (formed' : m.WellFormed) (isMark' : isExponentMark mark')
    (same : m.point ++ (m.power mark' ++ rest') = n.point ++ (n.power mark ++ rest)) :
    (m.point ++ m.power mark').length ≤ (n.point ++ n.power mark).length := by
  by_cases empty' : m.fraction = []
  · by_cases empty : n.fraction = []
    · have same : m.power mark' ++ rest' = n.power mark ++ rest := by
        simpa [point, empty, empty'] using same
      simpa [point, empty, empty'] using power_longest formed stops formed' isMark' same
    · have noPower : m.power mark' = [] := by
        cases is : m.exponent with
        | none => simp [power, is]
        | some parts =>
          simp only [point, empty', power, is, List.isEmpty_nil, ↓reduceIte] at same
          simp_all [mark_not_digit isMark']
      simp [point, empty', noPower]
  · by_cases empty : n.fraction = []
    · -- The one that stops has no fraction where the other one has.
      have starts := digits_start ⟨empty', formed'.fraction⟩ (m.power mark' ++ rest')
      cases is : n.exponent with
      | none =>
        have after : '.' :: (m.fraction ++ (m.power mark' ++ rest')) = rest := by
          simpa [point, power, is, empty, empty'] using same
        simp [stops.point is empty _ after.symm] at starts
      | some parts =>
        simp only [point, power, is, empty, List.isEmpty_nil, ↓reduceIte, List.nil_append] at same
        simp_all [(mark_not_digit isMark).2.symm]
    · have same : m.fraction ++ (m.power mark' ++ rest') =
          n.fraction ++ (n.power mark ++ rest) := by
        simpa [point, empty, empty'] using same
      obtain ⟨more, longer, after⟩ :=
        List.run_longest (power_stops isMark stops) formed'.fraction same
      cases more with
      | nil =>
        have shorter := power_longest formed stops formed' isMark' after
        simpa [point, empty, empty', longer] using shorter
      | cons c more =>
        have digit : c.isDigit := formed.fraction c (by simp [longer])
        have noPower : m.power mark' = [] := power_of_digit isMark' (by rw [after]; simpa using digit)
        simp [point, empty', longer, noPower]

/-- A numeral that the rest does not continue is the longest one at its place. -/
theorem written_longest (formed : n.WellFormed) (isMark : isExponentMark mark)
    (stops : n.Stops rest) (formed' : m.WellFormed) (isMark' : isExponentMark mark')
    (same : m.written mark' ++ rest' = n.written mark ++ rest) :
    (m.written mark').length ≤ (n.written mark).length := by
  simp only [written, List.append_assoc] at same ⊢
  obtain ⟨more, longer, after⟩ :=
    List.run_longest (point_stops isMark stops) formed'.whole same
  cases more with
  | nil =>
    have shorter := point_longest formed isMark stops formed' isMark' after
    simpa [longer] using shorter
  | cons c more =>
    have digit : c.isDigit := formed.whole c (by simp [longer])
    have noPoint : m.point = [] := point_of_digit (by rw [after]; simpa using digit)
    rw [noPoint, List.nil_append] at after
    have noPower : m.power mark' = [] := power_of_digit isMark' (by rw [after]; simpa using digit)
    simp [longer, noPoint, noPower]

/-- Digits can go on: with one more there is a longer number. -/
theorem extend {d : Char} (mark : Char) (formed : n.WellFormed) (digit : d.isDigit) :
    ∃ m : Numeral, m.WellFormed ∧ m.written mark = n.written mark ++ [d] := by
  have more {ds : List Char} (all : ∀ c ∈ ds, c.isDigit) : ∀ c ∈ ds ++ [d], c.isDigit := by
    simpa [or_imp, forall_and, digit] using all
  obtain ⟨whole, fraction, exponent⟩ := n
  cases exponent with
  | some parts =>
    obtain ⟨sign, digits⟩ := parts
    obtain ⟨signed, -, all⟩ := formed.exponent _ _ rfl
    refine ⟨⟨whole, fraction, some (sign, digits ++ [d])⟩,
      ⟨formed.whole, formed.fraction, formed.nonempty, ?_⟩, by simp [written, point, power]⟩
    rintro _ _ ⟨⟩
    exact ⟨signed, by simp, more all⟩
  | none =>
    by_cases empty : fraction = []
    · exact ⟨⟨whole ++ [d], [], none⟩, ⟨more formed.whole, by simp, by simp, by simp⟩,
        by simp [written, point, power, empty]⟩
    · exact ⟨⟨whole, fraction ++ [d], none⟩,
        ⟨formed.whole, more formed.fraction, by simp, by simp⟩,
        by simp [written, point, power, empty]⟩

/-- A numeral that is longest at its place, and after which no exponent is attempted, is one
that the rest does not continue. -/
theorem stops_of_longest (formed : n.WellFormed) (isMark : isExponentMark mark)
    (longest : ∀ cs, IsNumber cs → cs <+: n.written mark ++ rest →
      cs.length ≤ (n.written mark).length)
    (noMark : n.exponent = none → rest.head?.any isExponentMark = false) : n.Stops rest := by
  have not_longer (m : Numeral) (more : List Char) (some : more ≠ []) (formed : m.WellFormed)
      (is : m.written mark = n.written mark ++ more) : ¬ more <+: rest := by
    rintro ⟨tail, rfl⟩
    have bound := longest (m.written mark) (isNumber_iff.mpr ⟨m, mark, formed, isMark, rfl⟩)
      ⟨tail, by simp [is]⟩
    have : 0 < more.length := List.length_pos_iff.mpr some
    simp only [is, List.length_append] at bound
    omega
  refine ⟨?_, noMark, ?_⟩
  · cases rest with
    | nil => rfl
    | cons d rest =>
      refine Bool.eq_false_iff.mpr fun digit => ?_
      obtain ⟨m, formed', is⟩ := extend mark formed (by simpa using digit)
      exact not_longer m [d] (by simp) formed' is (by simp)
  · rintro none empty tail rfl
    cases tail with
    | nil => rfl
    | cons d tail =>
      refine Bool.eq_false_iff.mpr fun digit => ?_
      refine not_longer ⟨n.whole, [d], Option.none⟩ ['.', d] (by simp)
        ⟨formed.whole, by simpa [startsWithDigit] using digit, by simp, by simp⟩ ?_ (by simp)
      simp [written, point, power, none, empty]

theorem longest_of_stops (formed : n.WellFormed) (isMark : isExponentMark mark)
    (stops : n.Stops rest) (number : IsNumber cs) (start : cs <+: n.written mark ++ rest) :
    cs.length ≤ (n.written mark).length := by
  obtain ⟨m, mark', formed', isMark', rfl⟩ := isNumber_iff.mp number
  obtain ⟨rest', same⟩ := start
  exact written_longest formed isMark stops formed' isMark' same

theorem stops_nil (n : Numeral) : n.Stops [] := ⟨rfl, fun _ => rfl, by simp⟩

theorem splitPoint_point (formed : n.WellFormed) :
    splitPoint (n.point ++ n.power 'e') = (n.fraction, n.power 'e') := by
  have isMark : isExponentMark 'e' := rfl
  have stop : (n.power 'e').head?.any Char.isDigit = false := by
    simpa using power_stops isMark (stops_nil n)
  by_cases empty : n.fraction = []
  · cases is : n.exponent <;> simp [point, power, empty, is, splitPoint]
  · simp [point, empty, splitPoint, List.takeWhile_exact formed.fraction stop,
      List.dropWhile_exact formed.fraction stop]

theorem exponentOf?_power (formed : n.WellFormed) : exponentOf? (n.power 'e') = some n.exponent := by
  cases is : n.exponent with
  | none => simp [power, is, exponentOf?]
  | some parts =>
    obtain ⟨sign, digits⟩ := parts
    obtain ⟨signed, digital⟩ := formed.exponent _ _ is
    have starts : startsWithDigit digits := by simpa using digits_start digital []
    simpa [power, is, exponentOf?, splitSign_append signed starts, digital.1] using digital.2

/-- The text of a numeral reads as that numeral. -/
theorem ofChars?_chars (formed : n.WellFormed) : ofChars? n.chars = some n := by
  have text : n.chars = n.whole ++ (n.point ++ n.power 'e') := by
    simp [← written_chars, written]
  have isMark : isExponentMark 'e' := rfl
  have stop : (n.point ++ n.power 'e').head?.any Char.isDigit = false := by
    simpa using point_stops isMark (stops_nil n)
  have nonempty : ¬ (n.whole.isEmpty && n.fraction.isEmpty) := by
    rcases formed.nonempty with some | some <;> simp [some]
  simp [ofChars?, text, List.takeWhile_exact formed.whole stop,
    List.dropWhile_exact formed.whole stop, splitPoint_point formed, nonempty,
    exponentOf?_power formed]

theorem toLower_digit {c : Char} (digit : c.isDigit) : c.toLower = c := by
  simp only [Char.isDigit, Bool.and_eq_true, decide_eq_true_eq] at digit
  have small : ¬ (c.val ≥ 'A'.val ∧ c.val ≤ 'Z'.val) := by
    rintro ⟨large, -⟩
    exact absurd (UInt32.le_trans large digit.2) (by decide)
  exact dif_neg small

theorem map_toLower_digits {digits : List Char} (all : ∀ c ∈ digits, c.isDigit) :
    digits.map Char.toLower = digits := by
  calc digits.map Char.toLower = digits.map id :=
        List.map_congr_left fun c member => toLower_digit (all c member)
    _ = digits := List.map_id digits

/-- The two ways to write a numeral are one in small letters. -/
theorem toLower_written (formed : n.WellFormed) (isMark : isExponentMark mark) :
    (n.written mark).map Char.toLower = n.chars := by
  have lower : mark.toLower = 'e' := by
    simp only [isExponentMark, Bool.or_eq_true, beq_iff_eq] at isMark
    rcases isMark with rfl | rfl <;> rfl
  have point : n.point.map Char.toLower = n.point := by
    unfold Numeral.point
    split
    · rfl
    · simp [map_toLower_digits formed.fraction]
  have power : (n.power mark).map Char.toLower = n.power 'e' := by
    cases is : n.exponent with
    | none => simp [Numeral.power, is]
    | some parts =>
      obtain ⟨signed, digital⟩ := formed.exponent _ _ is
      have sign : parts.1.map Char.toLower = parts.1 := by
        rcases signed with sign | sign | sign <;> rw [sign] <;> rfl
      simp [Numeral.power, is, lower, sign, map_toLower_digits digital.2]
  simp [← written_chars, written, map_toLower_digits formed.whole, point, power]

theorem ofDecimalText?_written (formed : n.WellFormed) (isMark : isExponentMark mark) :
    Number.ofDecimalText? ((n.written mark).map Char.toLower) = some (n.number false) := by
  simp [Number.ofDecimalText?, toLower_written formed isMark, ofChars?_chars formed]

/-- Every number of the grammar reads as a number. -/
theorem ofDecimalText?_isNumber (number : IsNumber cs) :
    ∃ value, Number.ofDecimalText? (cs.map Char.toLower) = some value := by
  obtain ⟨n, mark, formed, isMark, rfl⟩ := isNumber_iff.mp number
  exact ⟨_, ofDecimalText?_written formed isMark⟩

end Numeral
end DataBinding
