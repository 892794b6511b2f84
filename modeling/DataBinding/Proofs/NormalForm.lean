import DataBinding.Program.Accessor
import DataBinding.Proofs.Rendering

/-! The texts of tokens as a normal form. The text of a token is a lexeme of that token, and a
blank ends every lexeme where it ended before: no number, name or point goes on over a blank, and
a string goes on to its own closing quote. So the joined texts are scanned to the same tokens. -/
namespace DataBinding

namespace Token
open Numeral

variable {c : Char} {cs rest : List Char} {token : Token} {tokens : List Token}

/-- The texts of the tokens with single blanks between them. -/
def joined (tokens : List Token) : String := String.intercalate " " (tokens.map text)

/-- A text written again from its tokens. -/
def normalized (text : String) : Except LexError String := (scan text).map joined

/-- The text of the token is a lexeme of it. -/
def Spelled (token : Token) : Prop := Lexeme token.text.toList token

/-- Nothing follows, or a blank. -/
def Parted (rest : List Char) : Prop := ∀ c ∈ rest.head?, isBlank c

theorem parted_nil : Parted [] := by simp [Parted]

theorem parted_blank : Parted (' ' :: rest) := by simp [Parted, isBlank]

/-- No character of a kind that blanks are not comes next. -/
theorem Parted.stops (parted : Parted rest) {p : Char → Bool}
    (other : ∀ c, isBlank c → p c = false) : rest.head?.any p = false := by
  cases rest with
  | nil => rfl
  | cons c rest => exact other c (parted c rfl)

theorem blank_not_point (blank : isBlank c) : c ≠ '.' := by
  rintro rfl
  exact absurd (blank_class blank).2.2.1 (by decide)

theorem blank_not_mark (blank : isBlank c) : isExponentMark c = false := by
  refine Bool.eq_false_iff.mpr fun mark => ?_
  have notName := (blank_class blank).2.2.2
  simp only [isExponentMark, Bool.or_eq_true, beq_iff_eq] at mark
  rcases mark with rfl | rfl <;> exact absurd notName (by decide)

theorem Parted.name_stops (parted : Parted rest) : rest.head?.any isNamePart = false := by
  refine parted.stops fun c blank => ?_
  obtain ⟨notDigit, -, -, notName⟩ := blank_class blank
  simp [isNamePart, notName, notDigit]

theorem Parted.number_stops (parted : Parted rest) (n : Numeral) : n.Stops rest := by
  refine ⟨?_, fun _ => ?_, fun _ _ tail is => ?_⟩
  · exact parted.stops fun c blank => (blank_class blank).1
  · exact parted.stops fun c blank => blank_not_mark blank
  · rw [is] at parted
    exact absurd rfl (blank_not_point (parted '.' rfl))

theorem Parted.not_numberStarts (parted : Parted rest) (punctuation : isPunctuation c) :
    ¬ numberStarts c rest := by
  have notDigit : startsWithDigit rest = false :=
    parted.stops fun c blank => (blank_class blank).1
  simp [numberStarts, (punctuation_class punctuation).1, notDigit]

/-- A lexeme ends before a blank. -/
theorem Lexeme.parted (lexeme : Lexeme cs token) (parted : Parted rest) :
    Longest cs rest ∧ ¬ DanglingMark cs rest := by
  cases lexeme with
  | number number =>
    obtain ⟨n, mark, formed, isMark, rfl⟩ := isNumber_iff.mp number
    have stops := parted.number_stops n
    exact ⟨number_longest formed isMark stops, not_dangling_number isMark stops⟩
  | @string quote written read quotes body =>
    have isQuote := isQuote_iff.mpr quotes
    obtain ⟨notDigit, notPoint, -⟩ := quote_class isQuote
    have noNumber (rest : List Char) : ¬ numberStarts quote rest :=
      numberStarts_false notDigit notPoint
    exact ⟨string_longest isQuote body, not_dangling_of_start (noNumber _)⟩
  | punctuation punctuation =>
    have punctuation := isPunctuation_iff.mpr punctuation
    have noNumber := parted.not_numberStarts punctuation
    exact ⟨punctuation_longest punctuation noNumber, not_dangling_of_start noNumber⟩
  | @name c cs name all =>
    have name := isNameStart_iff.mpr name
    have noNumber (rest : List Char) : ¬ numberStarts c rest := fun starts => by
      simp [(numberStarts_class starts).2] at name
    exact ⟨name_longest name parted.name_stops, not_dangling_of_start (noNumber _)⟩

/-- The text of a token is a lexeme of the same token. The text of a number has a small mark,
which makes no other number of it. -/
theorem Lexeme.spelled (lexeme : Lexeme cs token) : Spelled token := by
  unfold Spelled
  cases lexeme with
  | number number reads =>
    obtain ⟨n, mark, formed, isMark, rfl⟩ := isNumber_iff.mp number
    have small : isExponentMark 'e' := rfl
    have again := toLower_written formed small
    rw [toLower_written formed isMark] at reads ⊢
    rw [written_chars] at again
    have number' : IsNumber n.chars := isNumber_iff.mpr ⟨n, 'e', formed, small, rfl⟩
    have lexeme := Lexeme.number number' (by rw [again]; exact reads)
    rw [again] at lexeme
    rwa [String.toList_ofList]
  | string quote body =>
    rw [String.toList_ofList]
    exact .string quote body
  | punctuation punctuation =>
    rw [String.toList_singleton]
    exact .punctuation punctuation
  | name name all =>
    rw [String.toList_ofList]
    exact .name name all

theorem Lexes.spelled (lexes : Lexes cs tokens) : ∀ token ∈ tokens, Spelled token := by
  induction lexes with
  | done => simp
  | blank _ _ ih => exact ih
  | lexeme lexeme _ _ _ ih =>
    intro token member
    rcases List.mem_cons.mp member with rfl | member
    · exact lexeme.spelled
    · exact ih token member

theorem joined_cons_cons (token next : Token) (tokens : List Token) :
    (joined (token :: next :: tokens)).toList =
      token.text.toList ++ ' ' :: (joined (next :: tokens)).toList := by
  simp [joined, String.toList_intercalate]

/-- Any spelled tokens are the tokens of a text. -/
theorem lexes_joined (spelled : ∀ token ∈ tokens, Spelled token) :
    Lexes (joined tokens).toList tokens := by
  induction tokens with
  | nil => exact .done
  | cons token tokens ih =>
    have lexeme : Lexeme token.text.toList token := spelled token List.mem_cons_self
    have later := ih fun token member => spelled token (List.mem_cons_of_mem _ member)
    cases tokens with
    | nil =>
      obtain ⟨longest, notDangling⟩ := lexeme.parted parted_nil
      have whole := Lexes.lexeme lexeme longest notDangling .done
      simpa [joined] using whole
    | cons next tokens =>
      rw [joined_cons_cons]
      obtain ⟨longest, notDangling⟩ := lexeme.parted parted_blank
      exact .lexeme lexeme longest notDangling (.blank (isBlank_iff.mp rfl) later)

theorem spelled_of_scan {text : String} (scanned : scan text = .ok tokens) :
    ∀ token ∈ tokens, Spelled token :=
  (scan_eq_ok_iff.mp scanned).spelled

theorem scan_joined (spelled : ∀ token ∈ tokens, Spelled token) :
    scan (joined tokens) = .ok tokens :=
  scan_eq_ok_iff.mpr (lexes_joined spelled)

/-- Scanned tokens are told by their texts. -/
theorem scan_texts_inj {text text' : String} {tokens' : List Token}
    (scanned : scan text = .ok tokens) (scanned' : scan text' = .ok tokens')
    (same : tokens'.map Token.text = tokens.map Token.text) : tokens' = tokens := by
  have joinedSame : joined tokens' = joined tokens := by rw [joined, joined, same]
  have read := scan_joined (spelled_of_scan scanned')
  rw [joinedSame, scan_joined (spelled_of_scan scanned)] at read
  exact (Except.ok.inj read).symm

end Token

namespace Accessor
open Token

/-- What a text compiles to is decided by its tokens. -/
theorem ofText_of_scan {text text' : String} (same : scan text' = scan text) :
    (ofText text').map program = (ofText text).map program := by
  simp only [ofText, Expression.ofText, same, bind, Except.bind]
  split <;> rfl

end Accessor

namespace Token

/-- Token texts are a normal form. Joined by single blanks, the texts of the tokens of any text
are scanned to the same tokens, with their values and kinds; so writing a text again from its
tokens changes nothing the second time, and two texts with the same token texts have the same
program or the same fault. -/
theorem texts_normal_form {text : String} {tokens : List Token}
    (scanned : scan text = .ok tokens) :
    scan (joined tokens) = .ok tokens ∧
      normalized text = .ok (joined tokens) ∧ normalized (joined tokens) = .ok (joined tokens) ∧
      ∀ text' tokens', scan text' = .ok tokens' →
        tokens'.map Token.text = tokens.map Token.text →
          tokens' = tokens ∧
            (Accessor.ofText text').map Accessor.program =
              (Accessor.ofText text).map Accessor.program := by
  have again := scan_joined (spelled_of_scan scanned)
  refine ⟨again, by rw [normalized, scanned]; rfl, by rw [normalized, again]; rfl, ?_⟩
  intro text' tokens' scanned' sameTexts
  have same := scan_texts_inj scanned scanned' sameTexts
  refine ⟨same, Accessor.ofText_of_scan ?_⟩
  rw [scanned', scanned, same]

/-- Two numbers that touch, a string with a blank and an escaped quote, and a name at a point. -/
def touching : List Token :=
  [ofNumeral ⟨['1'], ['5'], none⟩, ofNumeral ⟨[], ['5'], some ([], ['2'])⟩,
    ofString "'a \\'b'".toList "a 'b".toList, punctuation '.', ofName ['e', '5']]

theorem scan_touching : scan "1.5.5E2'a \\'b'.e5" = .ok touching := by
  simp [touching, scan, scanFrom, isBlank, first, numberStarts, startsWithDigit, isQuote,
    isPunctuation, isNameStart, isNamePart, stringTail, Token.punctuation, ofName, ofString,
    unescape, numeral, fraction, exponent, ofNumeral, Numeral.chars, ← String.length_toList, bind,
    Except.bind, pure, Except.pure]

theorem joined_touching : joined touching = "1.5 .5e2 'a \\'b' . e5" := by decide

theorem texts_normal_form_touching :
    scan "1.5.5E2'a \\'b'.e5" = .ok touching ∧ scan "1.5 .5e2 'a \\'b' . e5" = .ok touching ∧
      normalized "1.5.5E2'a \\'b'.e5" = .ok "1.5 .5e2 'a \\'b' . e5" ∧
      normalized "1.5 .5e2 'a \\'b' . e5" = .ok "1.5 .5e2 'a \\'b' . e5" ∧
      (Accessor.ofText "1.5 .5e2 'a \\'b' . e5").map Accessor.program =
        (Accessor.ofText "1.5.5E2'a \\'b'.e5").map Accessor.program := by
  obtain ⟨again, normal, idempotent, alike⟩ := texts_normal_form scan_touching
  rw [joined_touching] at again normal idempotent
  exact ⟨scan_touching, again, normal, idempotent, (alike _ _ again rfl).2⟩

end Token
end DataBinding
