import DataBinding.Proofs.StringLiterals

/-! The scanner against the lexical grammar: it takes the longest lexeme wherever one
starts, and a text is scanned exactly when it is made of blanks and longest lexemes. -/
namespace DataBinding.Token
open Numeral

variable {c mark : Char} {cs rest : List Char} {n : Numeral} {index : Nat}
variable {token : Token} {tokens : List Token}

section Characters

/-! The scanner's tests of characters are the classes of the grammar. -/

theorem isQuote_iff : isQuote c ↔ Quote c := by
  simp [isQuote, Quote]

theorem isPunctuation_iff : isPunctuation c ↔ Punctuation c := by
  simp [isPunctuation, Punctuation]

theorem isBlank_iff : isBlank c ↔ Blank c := by
  have tab : c.toNat = 0x0B ↔ c = '\x0b' := Char.toNat_inj (d := '\x0b')
  have space : c.toNat = 0xA0 ↔ c = '\u00a0' := Char.toNat_inj (d := '\u00a0')
  simp [isBlank, Blank, tab, space, or_assoc]

theorem isNameStart_iff : isNameStart c ↔ NameStart c := by
  simp [isNameStart, NameStart, or_assoc]

theorem isNamePart_iff : isNamePart c ↔ NamePart c := by
  simp [isNamePart, NamePart, isNameStart_iff]

theorem quote_class (quote : isQuote c) :
    c.isDigit = false ∧ c ≠ '.' ∧ c ≠ '\\' ∧ isPunctuation c = false ∧ isNameStart c = false := by
  simp only [isQuote, Bool.or_eq_true, beq_iff_eq] at quote
  rcases quote with rfl | rfl <;> decide

theorem punctuation_class (punctuation : isPunctuation c) :
    c.isDigit = false ∧ isQuote c = false ∧ isNameStart c = false := by
  simp only [isPunctuation, List.contains_eq_mem, List.mem_cons, List.not_mem_nil, or_false,
    decide_eq_true_eq] at punctuation
  rcases punctuation with rfl | rfl | rfl | rfl | rfl | rfl | rfl <;> decide

theorem blank_class (blank : isBlank c) :
    c.isDigit = false ∧ isQuote c = false ∧ isPunctuation c = false ∧ isNameStart c = false := by
  simp only [isBlank_iff, Blank, List.mem_cons, List.not_mem_nil, or_false] at blank
  rcases blank with rfl | rfl | rfl | rfl | rfl | rfl <;> decide

theorem letter_code (letter : c.isAlpha) : 65 ≤ c.val.toNat := by
  have either : c.isUpper ∨ c.isLower := (Bool.or_eq_true _ _).mp letter
  rcases either with upper | lower
  · exact UInt32.le_iff_toNat_le.mp (of_decide_eq_true upper).1
  · have above := UInt32.le_iff_toNat_le.mp (of_decide_eq_true ((Bool.and_eq_true _ _).mp lower).1)
    exact Nat.le_trans (by decide) above

theorem digit_not_name (digit : c.isDigit) : isNameStart c = false := by
  have code : c.val.toNat ≤ 57 :=
    UInt32.le_iff_toNat_le.mp (of_decide_eq_true ((Bool.and_eq_true _ _).mp digit).2)
  refine Bool.eq_false_iff.mpr fun name => ?_
  simp only [isNameStart, Bool.or_eq_true, beq_iff_eq] at name
  rcases name with (letter | rfl) | rfl
  · have above := letter_code letter
    omega
  · simp at digit
  · simp at digit

end Characters

theorem isNumber_start (number : IsNumber cs) (rest : List Char) :
    ∃ c tail, cs = c :: tail ∧ numberStarts c (tail ++ rest) := by
  obtain ⟨n, mark, formed, -, rfl⟩ := isNumber_iff.mp number
  cases whole : n.whole with
  | cons c tail =>
    have digit : c.isDigit := formed.whole c (by simp [whole])
    exact ⟨c, tail ++ n.point ++ n.power mark, by simp [written, whole],
      by simp [numberStarts, digit]⟩
  | nil =>
    have some : n.fraction ≠ [] := by simpa [whole] using formed.nonempty
    refine ⟨'.', n.fraction ++ n.power mark, by simp [written, whole, point, some], ?_⟩
    rw [List.append_assoc]
    simpa [numberStarts] using digits_start ⟨some, formed.fraction⟩ (n.power mark ++ rest)

theorem isNumber_lexeme (number : IsNumber cs) : ∃ token, Lexeme cs token := by
  obtain ⟨value, reads⟩ := ofDecimalText?_isNumber number
  exact ⟨_, .number number reads⟩

theorem numberStarts_class (starts : numberStarts c rest) :
    isQuote c = false ∧ isNameStart c = false := by
  simp only [numberStarts, Bool.or_eq_true, Bool.and_eq_true, beq_iff_eq] at starts
  rcases starts with digit | ⟨rfl, -⟩
  · refine ⟨Bool.eq_false_iff.mpr fun quote => ?_, digit_not_name digit⟩
    simp [(quote_class quote).1] at digit
  · decide

/-- The kinds of lexemes that can be longer than one character, by the character that they
start with. -/
theorem Lexeme.start_class (lexeme : Lexeme cs token) (start : cs <+: c :: rest)
    (long : 1 < cs.length) :
    (IsNumber cs ∧ numberStarts c rest) ∨
      (isQuote c ∧ ∃ written read, StringBody c written read ∧ cs = c :: (written ++ [c])) ∨
      (isNameStart c ∧ ∃ tail, cs = c :: tail ∧ ∀ d ∈ tail, isNamePart d) := by
  cases lexeme with
  | number number =>
    obtain ⟨tail, same⟩ := start
    obtain ⟨d, tail', rfl, starts⟩ := isNumber_start number tail
    obtain ⟨rfl, rfl⟩ := List.cons.inj same
    exact .inl ⟨number, starts⟩
  | string quote body =>
    obtain ⟨rfl, -⟩ := List.cons_prefix_cons.mp start
    exact .inr (.inl ⟨isQuote_iff.mpr quote, _, _, body, rfl⟩)
  | punctuation => simp at long
  | name name all =>
    obtain ⟨rfl, -⟩ := List.cons_prefix_cons.mp start
    exact .inr (.inr ⟨isNameStart_iff.mpr name, _, rfl, fun d mem => isNamePart_iff.mpr (all d mem)⟩)

theorem number_longest (formed : n.WellFormed) (isMark : isExponentMark mark)
    (stops : n.Stops rest) : Longest (n.written mark) rest := by
  intro candidate token lexeme start
  have number : IsNumber (n.written mark) := isNumber_iff.mpr ⟨n, mark, formed, isMark, rfl⟩
  obtain ⟨c, tail, is, starts⟩ := isNumber_start number rest
  obtain ⟨notQuote, notName⟩ := numberStarts_class starts
  refine Nat.le_of_not_lt fun longer => ?_
  have start' := start
  rw [is, List.cons_append] at start'
  rcases lexeme.start_class start' (by simp [is] at longer; omega) with
    ⟨number, -⟩ | ⟨quote, -⟩ | ⟨name, -⟩
  · exact Nat.not_lt.mpr (longest_of_stops formed isMark stops number start) longer
  · simp [notQuote] at quote
  · simp [notName] at name

theorem string_longest {quote : Char} {written read : List Char} (isQuote : isQuote quote)
    (body : StringBody quote written read) : Longest (quote :: (written ++ [quote])) rest := by
  intro candidate token lexeme start
  obtain ⟨-, -, notMark, -, notName⟩ := quote_class isQuote
  refine Nat.le_of_not_lt fun longer => ?_
  rcases lexeme.start_class start (by simp at longer; omega) with
    ⟨-, starts⟩ | ⟨-, written', read', body', rfl⟩ | ⟨name, -⟩
  · simp [(numberStarts_class starts).1] at isQuote
  · rw [List.cons_append, List.cons_prefix_cons] at start
    obtain ⟨-, tail, same⟩ := start
    simp only [List.append_assoc, List.singleton_append] at same
    -- Both bodies are what the scanner reads from here.
    have reads := stringTail_written 0 0 notMark body' tail
    rw [same, stringTail_written 0 0 notMark body rest] at reads
    have sizes := (Prod.mk.inj (Except.ok.inj reads)).2
    simp only [List.length_cons, List.length_append] at longer
    omega
  · simp [notName] at name

theorem punctuation_longest (punctuation : isPunctuation c) (noNumber : ¬ numberStarts c rest) :
    Longest [c] rest := by
  intro candidate token lexeme start
  obtain ⟨-, notQuote, notName⟩ := punctuation_class punctuation
  refine Nat.le_of_not_lt fun longer => ?_
  rcases lexeme.start_class start longer with ⟨-, starts⟩ | ⟨quote, -⟩ | ⟨name, -⟩
  · exact noNumber starts
  · simp [notQuote] at quote
  · simp [notName] at name

theorem name_longest (name : isNameStart c) (stop : rest.head?.any isNamePart = false) :
    Longest (c :: cs) rest := by
  intro candidate token lexeme start
  refine Nat.le_of_not_lt fun longer => ?_
  rcases lexeme.start_class start (by simp at longer; omega) with
    ⟨-, starts⟩ | ⟨quote, -⟩ | ⟨-, tail, rfl, all⟩
  · simp [(numberStarts_class starts).2] at name
  · simp [(quote_class quote).2.2.2.2] at name
  · obtain ⟨-, tail', same⟩ := List.cons_prefix_cons.mp start
    obtain ⟨more, rfl, -⟩ := List.run_longest stop all same
    simp only [List.length_cons, List.length_append] at longer
    omega

/-- After a longest number nothing continues it. -/
theorem number_stops (formed : n.WellFormed) (isMark : isExponentMark mark)
    (longest : Longest (n.written mark) rest)
    (notDangling : ¬ DanglingMark (n.written mark) rest) : n.Stops rest := by
  refine stops_of_longest formed isMark ?_ ?_
  · intro cs number start
    obtain ⟨token, lexeme⟩ := isNumber_lexeme number
    exact longest cs token lexeme start
  · intro none
    refine Bool.eq_false_iff.mpr fun marked => notDangling ⟨?_, marked⟩
    have mantissa := mantissa_iff.mpr ⟨n.whole, n.fraction, formed.whole, formed.fraction,
      formed.nonempty, rfl⟩
    simpa [written, power, none, point] using mantissa

/-- Where punctuation is longest no number starts, so a point has no digit after it. -/
theorem punctuation_stops (punctuation : isPunctuation c) (longest : Longest [c] rest) :
    ¬ numberStarts c rest := by
  intro starts
  simp only [numberStarts, (punctuation_class punctuation).1, Bool.false_or, Bool.and_eq_true,
    beq_iff_eq] at starts
  obtain ⟨rfl, digit⟩ := starts
  cases rest with
  | nil => simp [startsWithDigit] at digit
  | cons d rest =>
    have digits : Digits [d] := ⟨by simp, by simpa [startsWithDigit] using digit⟩
    obtain ⟨token, lexeme⟩ := isNumber_lexeme (.mantissa (.fraction digits))
    have bound := longest _ token lexeme ⟨rest, rfl⟩
    simp at bound

theorem name_stops (name : isNameStart c) (all : ∀ d ∈ cs, isNamePart d)
    (longest : Longest (c :: cs) rest) : rest.head?.any isNamePart = false := by
  cases rest with
  | nil => rfl
  | cons d rest =>
    refine Bool.eq_false_iff.mpr fun part => ?_
    have parts : ∀ e ∈ cs ++ [d], isNamePart e := by
      simpa [or_imp, forall_and] using ⟨all, by simpa using part⟩
    have longer := Lexeme.name (isNameStart_iff.mp name) fun e mem => isNamePart_iff.mp (parts e mem)
    have bound := longest _ _ longer ⟨rest, by simp⟩
    simp only [List.length_cons, List.length_append, List.length_nil] at bound
    omega

theorem mantissa_chars (mantissa : Mantissa cs) : ∀ c ∈ cs, c.isDigit ∨ c = '.' := by
  intro c member
  cases mantissa with
  | whole digits => exact .inl (digits.2 c member)
  | both digits digits' =>
    rcases List.mem_append.mp member with member | member
    · exact .inl (digits.2 c member)
    · rcases List.mem_cons.mp member with rfl | member
      · exact .inr rfl
      · exact .inl (digits'.2 c member)
  | fraction digits =>
    rcases List.mem_cons.mp member with rfl | member
    · exact .inr rfl
    · exact .inl (digits.2 c member)

theorem not_dangling_number (isMark : isExponentMark mark)
    (stops : n.Stops rest) : ¬ DanglingMark (n.written mark) rest := by
  rintro ⟨mantissa, marked⟩
  cases is : n.exponent with
  | none => simp [stops.mark is] at marked
  | some parts =>
    rcases mantissa_chars mantissa mark (by simp [written, power, is]) with digit | same
    · simp [(mark_not_digit isMark).1] at digit
    · exact (mark_not_digit isMark).2 same

theorem not_dangling_of_start (noNumber : ¬ numberStarts c (cs ++ rest)) :
    ¬ DanglingMark (c :: cs) rest := by
  rintro ⟨mantissa, -⟩
  obtain ⟨d, tail, same, starts⟩ := isNumber_start (.mantissa mantissa) rest
  obtain ⟨rfl, rfl⟩ := List.cons.inj same
  exact noNumber starts

/-- The token that the scanner makes of a numeral has the value that its text reads as. -/
theorem ofNumeral_eq (formed : n.WellFormed) (isMark : isExponentMark mark) {value : Number}
    (reads : Number.ofDecimalText? ((n.written mark).map Char.toLower) = some value) :
    ofNumeral n =
      ⟨String.ofList ((n.written mark).map Char.toLower), some (.number value), false⟩ := by
  rw [toLower_written formed isMark] at reads ⊢
  simp [ofNumeral, reads]

/-- What the scanner takes is the longest lexeme, and no number before a mark. -/
theorem first_read (read : first index c rest = .ok token) :
    ∃ cs tail, c :: rest = cs ++ tail ∧ Lexeme cs token ∧ Longest cs tail ∧
      ¬ DanglingMark cs tail := by
  unfold first at read
  by_cases number : numberStarts c rest
  · rw [if_pos number] at read
    obtain ⟨n, readNumeral, made⟩ := Except.bind_eq_ok.mp read
    obtain rfl := Except.ok.inj made
    have starts : startsWithDigit (c :: rest) ∨
        ∃ tail, c :: rest = '.' :: tail ∧ startsWithDigit tail := by
      simp only [numberStarts, Bool.or_eq_true, Bool.and_eq_true, beq_iff_eq] at number
      rcases number with digit | ⟨rfl, after⟩
      · exact .inl digit
      · exact .inr ⟨rest, rfl, after⟩
    obtain ⟨mark, tail, same, formed, isMark, stops⟩ := numeral_read starts readNumeral
    have isNumber : IsNumber (n.written mark) := isNumber_iff.mpr ⟨n, mark, formed, isMark, rfl⟩
    have reads := ofDecimalText?_written formed isMark
    rw [ofNumeral_eq formed isMark reads]
    exact ⟨n.written mark, tail, same, .number isNumber reads, number_longest formed isMark stops,
      not_dangling_number isMark stops⟩
  rw [if_neg number] at read
  split at read
  · rename_i quote
    obtain ⟨⟨value, size⟩, readTail, made⟩ := Except.bind_eq_ok.mp read
    obtain rfl := Except.ok.inj made
    obtain ⟨written, tail, rfl, body, rfl⟩ := stringTail_read (quote_class quote).2.2.1 readTail
    have text : (written ++ c :: tail).take (written.length + 1) = written ++ [c] := by
      rw [List.append_cons, List.take_left' (by simp)]
    refine ⟨c :: (written ++ [c]), tail, by simp, ?_, string_longest quote body,
      not_dangling_of_start (by simpa using number)⟩
    simpa [ofString, text] using Lexeme.string (isQuote_iff.mp quote) body
  split at read
  · rename_i punctuation
    obtain rfl := Except.ok.inj read
    exact ⟨[c], rest, rfl, .punctuation (isPunctuation_iff.mp punctuation), punctuation_longest punctuation number,
      not_dangling_of_start (by simpa using number)⟩
  split at read
  · rename_i name
    obtain rfl := Except.ok.inj read
    exact ⟨c :: rest.takeWhile isNamePart, rest.dropWhile isNamePart, by simp,
      .name (isNameStart_iff.mp name) fun d mem =>
        isNamePart_iff.mp (List.all_eq_true.mp List.all_takeWhile d mem),
      name_longest name (List.dropWhile_stops _ _),
      not_dangling_of_start (by simpa using number)⟩
  · simp at read

/-- The scanner takes every longest lexeme that is no number before a mark. -/
theorem first_lexeme (index : Nat) (lexeme : Lexeme cs token) (longest : Longest cs rest)
    (notDangling : ¬ DanglingMark cs rest) :
    ∃ c tail, cs = c :: tail ∧ first index c (tail ++ rest) = .ok token := by
  cases lexeme with
  | number number reads =>
    obtain ⟨c, tail, same, starts⟩ := isNumber_start number rest
    obtain ⟨n, mark, formed, isMark, rfl⟩ := isNumber_iff.mp number
    have stops := number_stops formed isMark longest notDangling
    have read := numeral_written index formed isMark stops
    rw [same, List.cons_append] at read
    refine ⟨c, tail, same, ?_⟩
    rw [first, if_pos starts, read, ← ofNumeral_eq formed isMark reads]
    rfl
  | @string quote written value quotes body =>
    have quotes : isQuote quote := isQuote_iff.mpr quotes
    obtain ⟨notDigit, notPoint, notMark, -⟩ := quote_class quotes
    have noNumber : ¬ numberStarts quote (written ++ [quote] ++ rest) := by
      simp [numberStarts, notDigit, notPoint]
    have text : (written ++ [quote] ++ rest).take (written.length + 1) = written ++ [quote] :=
      List.take_left' (by simp)
    have read := stringTail_written index (index + 1) notMark body rest
    rw [List.append_cons] at read
    refine ⟨quote, written ++ [quote], rfl, ?_⟩
    rw [first, if_neg noNumber, if_pos quotes, read]
    simp only [bind, Except.bind, pure, Except.pure, text]
    rfl
  | @punctuation c punctuation =>
    have punctuation := isPunctuation_iff.mpr punctuation
    obtain ⟨-, notQuote, -⟩ := punctuation_class punctuation
    have noNumber := punctuation_stops punctuation longest
    refine ⟨c, [], rfl, ?_⟩
    rw [List.nil_append, first, if_neg noNumber, if_neg (by simp [notQuote]), if_pos punctuation]
    rfl
  | @name c cs name all =>
    have name := isNameStart_iff.mpr name
    have all (d : Char) (mem : d ∈ cs) : isNamePart d := isNamePart_iff.mpr (all d mem)
    have noNumber : ¬ numberStarts c (cs ++ rest) := fun starts => by
      simp [(numberStarts_class starts).2] at name
    have notQuote : ¬ isQuote c := fun quote => by
      simp [(quote_class quote).2.2.2.2] at name
    have notPunctuation : ¬ isPunctuation c := fun punctuation => by
      simp [(punctuation_class punctuation).2.2] at name
    refine ⟨c, cs, rfl, ?_⟩
    rw [first, if_neg noNumber, if_neg notQuote, if_neg notPunctuation, if_pos name,
      List.takeWhile_exact all (name_stops name all longest)]
    rfl

theorem lexeme_length (lexeme : Lexeme cs token) : token.text.length = cs.length := by
  cases lexeme <;> simp <;> omega

theorem lexeme_cons (lexeme : Lexeme cs token) : ∃ c tail, cs = c :: tail := by
  cases lexeme with
  | number number =>
    obtain ⟨c, tail, same, -⟩ := isNumber_start number []
    exact ⟨c, tail, same⟩
  | string | punctuation | name => exact ⟨_, _, rfl⟩

/-- The scanner goes on right after the lexeme. -/
theorem drop_lexeme (lexeme : Lexeme (c :: cs) token) :
    (cs ++ rest).drop (token.text.length - 1) = rest := by
  rw [lexeme_length lexeme]
  exact List.drop_left

theorem lexeme_not_blank (lexeme : Lexeme (c :: cs) token) : isBlank c = false := by
  refine Bool.eq_false_iff.mpr fun blank => ?_
  obtain ⟨notDigit, notQuote, notPunctuation, notName⟩ := blank_class blank
  have isPoint : isPunctuation '.' := rfl
  cases lexeme with
  | number number =>
    obtain ⟨d, tail, same, starts⟩ := isNumber_start number []
    obtain ⟨rfl, rfl⟩ := List.cons.inj same
    simp only [numberStarts, notDigit, Bool.false_or, Bool.and_eq_true, beq_iff_eq] at starts
    simp [starts.1, isPoint] at notPunctuation
  | string quote => simp [isQuote_iff.mpr quote] at notQuote
  | punctuation punctuation => simp [isPunctuation_iff.mpr punctuation] at notPunctuation
  | name name => simp [isNameStart_iff.mpr name] at notName

theorem scanFrom_read (read : scanFrom index cs = .ok tokens) : Lexes cs tokens := by
  induction index, cs using scanFrom.induct generalizing tokens with
  | case1 index =>
    rw [scanFrom] at read
    obtain rfl := Except.ok.inj read
    exact .done
  | case2 index c rest blank ih =>
    rw [scanFrom, if_pos blank] at read
    exact .blank (isBlank_iff.mp blank) (ih read)
  | case3 index c rest notBlank ih =>
    rw [scanFrom, if_neg notBlank] at read
    obtain ⟨token, readFirst, read⟩ := Except.bind_eq_ok.mp read
    obtain ⟨tokens, readRest, made⟩ := Except.bind_eq_ok.mp read
    obtain rfl := Except.ok.inj made
    obtain ⟨cs, tail, same, lexeme, longest, notDangling⟩ := first_read readFirst
    obtain ⟨d, cs, rfl⟩ := lexeme_cons lexeme
    rw [List.cons_append, List.cons.injEq] at same
    obtain ⟨rfl, rfl⟩ := same
    have after := ih token readRest
    rw [drop_lexeme lexeme] at after
    exact .lexeme lexeme longest notDangling after

theorem scanFrom_lexes (lexes : Lexes cs tokens) (index : Nat) :
    scanFrom index cs = .ok tokens := by
  induction lexes generalizing index with
  | done => rw [scanFrom]
  | blank blank _ ih => rw [scanFrom, if_pos (isBlank_iff.mpr blank), ih]
  | @lexeme cs rest token tokens lexeme longest notDangling _ ih =>
    obtain ⟨c, cs, rfl, readFirst⟩ := first_lexeme index lexeme longest notDangling
    have notBlank : ¬ isBlank c := by simp [lexeme_not_blank lexeme]
    rw [List.cons_append, scanFrom, if_neg notBlank, readFirst]
    simp only [bind, Except.bind, drop_lexeme lexeme, ih]
    rfl

theorem scan_eq_ok_iff {text : String} : scan text = .ok tokens ↔ Lexes text.toList tokens :=
  ⟨scanFrom_read, fun lexes => scanFrom_lexes lexes 0⟩

/-- The scanner accepts exactly the texts made of blanks and longest lexemes in which no
number without an exponent stands right before an exponent mark, and returns the tokens of
these lexemes. The text of every number reads as a number. -/
theorem scan_lexical_grammar :
    (∀ text tokens, scan text = .ok tokens ↔ Lexes text.toList tokens) ∧
      ∀ cs, IsNumber cs → ∃ n, Number.ofDecimalText? (cs.map Char.toLower) = some n :=
  ⟨fun _ _ => scan_eq_ok_iff, fun _ number => ofDecimalText?_isNumber number⟩

/-- Tokens of every kind: a name, punctuation, a string with escapes of every form, and a number
whose exponent is written with a large mark. -/
def mixed : List Token :=
  [⟨"a_1", none, true⟩, ⟨":", none, false⟩, ⟨"[", none, false⟩,
    ⟨"\"\\n\\q\\ud83d\\uDE00\"", some (.string "\nq😀"), false⟩, ⟨",", none, false⟩,
    ⟨".5e+3", some (.number (.ofNat 500)), false⟩, ⟨"]", none, false⟩]

theorem scan_mixed : scan "a_1: [\"\\n\\q\\ud83d\\uDE00\", .5E+3]" = .ok mixed := by
  have value : Number.ofDecimal false 5 2 = .ofNat 500 := by decide +kernel
  rw [mixed, ← value]
  simp [scan, scanFrom, isBlank, first, numberStarts, startsWithDigit, isQuote, isPunctuation,
    isNameStart, isNamePart, stringTail, Text.escaped?, Text.unit?, Text.hexDigit?, unescape,
    Token.punctuation, ofName, ofString, numeral, fraction, exponent, ofNumeral, Numeral.chars,
    ← String.length_toList, bind, Except.bind, pure, Except.pure]
  rfl

theorem scan_lexical_grammar_mixed :
    Lexes "a_1: [\"\\n\\q\\ud83d\\uDE00\", .5E+3]".toList mixed ∧
      ∀ tokens, ¬ Lexes "1e".toList tokens := by
  have refused : scan "1e" = .error (.invalidExponent 1) := by
    simp [scan, scanFrom, isBlank, first, numberStarts, startsWithDigit, numeral, fraction, exponent,
      Numeral.chars, bind, Except.bind]
  constructor
  · exact (scan_lexical_grammar.1 _ _).mp scan_mixed
  · intro tokens lexes
    have scanned := (scan_lexical_grammar.1 "1e" tokens).mpr lexes
    rw [refused] at scanned
    cases scanned

end DataBinding.Token
