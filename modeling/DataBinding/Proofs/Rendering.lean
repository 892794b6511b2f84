import DataBinding.Proofs.Decimals
import DataBinding.Proofs.Lexing
import DataBinding.Program.Text

/-! The atoms of rendered text against the scanner: a literal is one string token, a bare key
one name, and a number that is neither negative nor infinite one number. The units of a character
are escaped one by one, and the scanner puts the two halves of a pair together. -/
namespace DataBinding

namespace Text
open Token

theorem hexDigit_digitChar {x : Nat} (digit : x < 16) : HexDigit (Nat.digitChar x) x := by
  have each : ∀ x < 16, HexDigit (Nat.digitChar x) x := by decide
  exact each x digit

/-- The last digit of a padded number. -/
theorem hex_last {width n : Nat} (some : 0 < width) :
    hex (width + 1) n = hex width (n / 16) ++ [Nat.digitChar (n % 16)] := by
  by_cases one : n < 16
  · obtain ⟨w, rfl⟩ : ∃ w, width = w + 1 := ⟨width - 1, by omega⟩
    have zero : n / 16 = 0 := Nat.div_eq_of_lt one
    simp [hex, Nat.toDigits_of_lt_base one, zero, Nat.mod_eq_of_lt one, List.replicate_succ']
  · simp [hex, Nat.toDigits_of_base_le (by decide) (Nat.le_of_not_lt one)]

/-- Four digits write a unit. -/
theorem hexUnit_hex {u : Nat} (small : u < 0x10000) : HexUnit (hex 4 u) u := by
  have first : u / 16 / 16 / 16 < 16 := by omega
  have digits : hex 4 u = [Nat.digitChar (u / 16 / 16 / 16), Nat.digitChar (u / 16 / 16 % 16),
      Nat.digitChar (u / 16 % 16), Nat.digitChar (u % 16)] := by
    rw [hex_last (by decide), hex_last (by decide), hex_last (by decide)]
    simp [hex, Nat.toDigits_of_lt_base first]
  have unit := HexUnit.digits (hexDigit_digitChar first)
    (hexDigit_digitChar (Nat.mod_lt (u / 16 / 16) (by decide)))
    (hexDigit_digitChar (Nat.mod_lt (u / 16) (by decide)))
    (hexDigit_digitChar (Nat.mod_lt u (by decide)))
  have value : 4096 * (u / 16 / 16 / 16) + 256 * (u / 16 / 16 % 16) + 16 * (u / 16 % 16) + u % 16
      = u := by omega
  rwa [value, ← digits] at unit

theorem units16_cases (c : Char) : (∃ u, units16 c = [u] ∧ u < 0x10000) ∨
    ∃ high low, units16 c = [high, low] ∧ high < 0x10000 ∧ low < 0x10000 := by
  have range := toNat_cases c
  by_cases small : c.toNat < 0x10000
  · exact .inl ⟨c.toNat, units16_single_iff.mpr ⟨rfl, small⟩, small⟩
  · have pair := units16_pair_iff.mpr ⟨Nat.le_of_not_lt small, rfl, rfl⟩
    exact .inr ⟨_, _, pair, by omega, by omega⟩

/-- An escaped character is an escape of that character. -/
theorem literalChar_escape {c : Char} (notPlain : isPlain c = false) :
    ∃ escape, literalChar c = '\\' :: 'u' :: escape ∧ UnicodeEscape c escape := by
  rcases units16_cases c with ⟨u, units, small⟩ | ⟨high, low, units, small, small'⟩
  · exact ⟨hex 4 u, by simp [literalChar, notPlain, units], .unit (hexUnit_hex small) units⟩
  · exact ⟨hex 4 high ++ '\\' :: 'u' :: hex 4 low, by simp [literalChar, notPlain, units],
      .pair (hexUnit_hex small) (hexUnit_hex small') units⟩

theorem isPlain_class {c : Char} (plain : isPlain c) : c ≠ '\x27' ∧ c ≠ '\\' := by
  constructor
  · rintro rfl
    simp [isPlain] at plain
  · rintro rfl
    simp [isPlain] at plain

/-- What stands between the quotes of a literal is read as the text of the literal. -/
theorem literal_body (text : List Char) : StringBody '\x27' (text.flatMap literalChar) text := by
  induction text with
  | nil => exact .done
  | cons c text ih =>
    rw [List.flatMap_cons]
    by_cases plain : isPlain c
    · obtain ⟨notQuote, notMark⟩ := isPlain_class plain
      simpa [literalChar, plain] using StringBody.plain notQuote notMark ih
    · obtain ⟨escape, written, isEscape⟩ := literalChar_escape (Bool.eq_false_iff.mpr plain)
      rw [written]
      exact .unicode isEscape ih

theorem literal_lexeme (text : List Char) :
    Lexeme (literal text) ⟨String.ofList (literal text), some (.string (String.ofList text)), false⟩ :=
  .string (isQuote_iff.mp rfl) (literal_body text)

theorem literal_longest (text rest : List Char) : Longest (literal text) rest :=
  string_longest rfl (literal_body text)

/-- Literals are told apart by what comes first, and so is what follows them. -/
theorem literal_append_inj {text text' rest rest' : List Char}
    (same : literal text ++ rest = literal text' ++ rest') : text = text' ∧ rest = rest' := by
  simp only [literal, List.cons_append, List.append_assoc, List.nil_append, List.cons.injEq,
    true_and] at same
  have isQuote : '\x27' ≠ '\\' := by decide
  have read := stringTail_written 0 0 isQuote (literal_body text) rest
  rw [same, stringTail_written 0 0 isQuote (literal_body text') rest'] at read
  obtain ⟨sameText, -⟩ := Prod.mk.inj (Except.ok.inj read)
  subst sameText
  exact ⟨rfl, by simpa using same⟩

end Text

namespace Token
open Numeral

variable {c : Char} {cs rest : List Char} {tokens : List Token}

/-- Nothing follows, or punctuation other than a point, which ends every token before it. -/
def Delimited (rest : List Char) : Prop := ∀ c ∈ rest.head?, isPunctuation c ∧ c ≠ '.'

theorem delimited_nil : Delimited [] := by simp [Delimited]

theorem delimited_cons (punctuation : isPunctuation c) (notPoint : c ≠ '.') :
    Delimited (c :: rest) := by
  intro d first
  obtain rfl : c = d := by simpa using first
  exact ⟨punctuation, notPoint⟩

/-- No character of a kind that punctuation other than a point is not comes next. -/
theorem Delimited.stops (delimited : Delimited rest) {p : Char → Bool}
    (other : ∀ c, isPunctuation c → c ≠ '.' → p c = false) : rest.head?.any p = false := by
  cases rest with
  | nil => rfl
  | cons c rest =>
    obtain ⟨punctuation, notPoint⟩ := delimited c rfl
    exact other c punctuation notPoint

theorem Delimited.name_stops (delimited : Delimited rest) : rest.head?.any isNamePart = false := by
  refine delimited.stops fun c punctuation _ => ?_
  obtain ⟨notDigit, -, notName⟩ := punctuation_class punctuation
  simp [isNamePart, notName, notDigit]

theorem Delimited.number_stops (delimited : Delimited rest) (n : Numeral) : n.Stops rest := by
  refine ⟨?_, fun _ => ?_, fun _ _ tail is => ?_⟩
  · exact delimited.stops fun c punctuation _ => (punctuation_class punctuation).1
  · refine delimited.stops fun c punctuation _ => Bool.eq_false_iff.mpr fun mark => ?_
    simp only [isExponentMark, Bool.or_eq_true, beq_iff_eq] at mark
    rcases mark with rfl | rfl <;> simp [isPunctuation] at punctuation
  · rw [is] at delimited
    exact absurd rfl (delimited '.' rfl).2

theorem numberStarts_false (notDigit : c.isDigit = false) (notPoint : c ≠ '.') :
    ¬ numberStarts c cs := by
  simp [numberStarts, notDigit, notPoint]

theorem Lexes.mark (after : Lexes rest tokens) (punctuation : isPunctuation c)
    (notPoint : c ≠ '.') : Lexes (c :: rest) (Token.punctuation c :: tokens) := by
  have noNumber (cs : List Char) : ¬ numberStarts c cs :=
    numberStarts_false (punctuation_class punctuation).1 notPoint
  have longest : Longest [c] rest := punctuation_longest punctuation (noNumber rest)
  exact .lexeme (.punctuation (isPunctuation_iff.mp punctuation)) longest
    (not_dangling_of_start (noNumber _)) after

theorem Lexes.literal (after : Lexes rest tokens) (text : List Char) :
    Lexes (Text.literal text ++ rest)
      (⟨String.ofList (Text.literal text), some (.string (String.ofList text)), false⟩ :: tokens) :=
  .lexeme (Text.literal_lexeme text) (Text.literal_longest text rest)
    (not_dangling_of_start (numberStarts_false rfl (by decide))) after

theorem Lexes.name (after : Lexes rest tokens) (delimited : Delimited rest) (start : isNameStart c)
    (all : ∀ d ∈ cs, isNamePart d) :
    Lexes (c :: cs ++ rest) (⟨String.ofList (c :: cs), none, true⟩ :: tokens) := by
  have noNumber : ¬ numberStarts c (cs ++ rest) := fun starts => by
    simp [(numberStarts_class starts).2] at start
  have lexeme := Lexeme.name (isNameStart_iff.mp start) fun d mem => isNamePart_iff.mp (all d mem)
  exact .lexeme lexeme (name_longest start delimited.name_stops)
    (not_dangling_of_start noNumber) after

theorem Lexes.number (after : Lexes rest tokens) (delimited : Delimited rest) {n : Numeral}
    (formed : n.WellFormed) : Lexes (n.chars ++ rest)
      (⟨String.ofList n.chars, some (.number (n.number false)), false⟩ :: tokens) := by
  have isMark : isExponentMark 'e' := rfl
  have stops := delimited.number_stops n
  have reads := ofDecimalText?_written formed isMark
  have lexeme := Lexeme.number (isNumber_iff.mpr ⟨n, 'e', formed, isMark, rfl⟩) reads
  rw [toLower_written formed isMark, written_chars] at lexeme
  exact .lexeme lexeme (number_longest formed isMark stops) (not_dangling_number isMark stops) after

/-- A plain name starts as a name does and goes on so. -/
theorem isPlainName_iff : isPlainName cs ↔
    ∃ c tail, cs = c :: tail ∧ isNameStart c ∧ ∀ d ∈ tail, isNamePart d := by
  have part (d : Char) : (d.isAlphanum || d == '_' || d == '$') = isNamePart d := by
    simp only [isNamePart, isNameStart, Char.isAlphanum]
    cases d.isAlpha <;> cases d.isDigit <;> simp
  cases cs with
  | nil => simp [isPlainName]
  | cons c tail => simp [isPlainName, isNameStart, part]

end Token
end DataBinding
