import DataBinding.Expression.Reading
import DataBinding.Proofs.Lexing
import DataBinding.Proofs.Unambiguity

/-! The reader against the grammar. Each state of the reader stands for what may follow in
a derivation that has come as far; a step of the reader takes the first token off what may
follow, so a whole run accepts what the grammar derives. -/
namespace DataBinding

namespace Token
open Grammar

/-- What the texts of scanned tokens tell: only punctuation has the text of punctuation, and
only names have the text of a keyword. -/
structure Scanned (token : Token) : Prop where
  kind : (∃ c, isPunctuation c ∧ token = punctuation c) ∨ (∃ text, token = name text) ∨
    ∃ text value, token = constant text value
  punctuation : ∀ c, isPunctuation c → token.text = String.singleton c → token = punctuation c
  keyword : ∀ keyword : Keyword, token.text = keyword.text → token = name keyword.text

variable {cs : List Char} {token : Token} {tokens : List Token}

theorem keyword_start (keyword : Keyword) :
    ∃ c tail, keyword.text = String.ofList (c :: tail) ∧ isNameStart c := by
  cases keyword
  · exact ⟨'n', ['u', 'l', 'l'], rfl, rfl⟩
  · exact ⟨'t', ['r', 'u', 'e'], rfl, rfl⟩
  · exact ⟨'f', ['a', 'l', 's', 'e'], rfl, rfl⟩
  · exact ⟨'t', ['h', 'i', 's'], rfl, rfl⟩
  · exact ⟨'$', ['l', 'o', 'c', 'a', 'l', 's'], rfl, rfl⟩

theorem scanned_punctuation {c : Char} (isPunctuation : isPunctuation c) :
    Scanned (punctuation c) := by
  refine ⟨.inl ⟨c, isPunctuation, rfl⟩, ?_, ?_⟩
  · intro d _ text
    simpa [Token.punctuation, ← String.toList_inj] using text
  · intro keyword text
    obtain ⟨d, tail, is, name⟩ := keyword_start keyword
    rw [is] at text
    have same : c = d ∧ [] = tail := by simpa [Token.punctuation, ← String.toList_inj] using text
    simp [← same.1, (punctuation_class isPunctuation).2.2] at name

/-- A token whose text starts like no keyword, and is none of punctuation. -/
theorem scanned_constant {c : Char} {tail : List Char} {value : Constant}
    (notName : isNameStart c = false) (long : isPunctuation c = false ∨ tail ≠ []) :
    Scanned (constant (String.ofList (c :: tail)) value) := by
  refine ⟨.inr (.inr ⟨_, _, rfl⟩), ?_, ?_⟩
  · intro d isPunctuation text
    have same : c = d ∧ tail = [] := by simpa [constant, ← String.toList_inj] using text
    rcases long with other | long
    · simp [same.1, isPunctuation] at other
    · exact absurd same.2 long
  · intro keyword text
    obtain ⟨d, tail', is, name⟩ := keyword_start keyword
    have same : c = d ∧ tail = tail' := by
      simpa [constant, is, ← String.toList_inj] using text
    simp [← same.1, notName] at name

theorem Lexeme.scanned (lexeme : Lexeme cs token) : Scanned token := by
  cases lexeme with
  | number number reads =>
    obtain ⟨c, tail, rfl, starts⟩ := isNumber_start number []
    have notName := (numberStarts_class starts).2
    rw [List.append_nil] at starts
    simp only [numberStarts, Bool.or_eq_true, Bool.and_eq_true, beq_iff_eq] at starts
    rcases starts with digit | ⟨rfl, after⟩
    · have notPunctuation : isPunctuation c = false := Bool.eq_false_iff.mpr fun punctuation => by
        simp [(punctuation_class punctuation).1] at digit
      rw [List.map_cons, Numeral.toLower_digit digit]
      exact scanned_constant notName (.inl notPunctuation)
    · refine scanned_constant notName (.inr ?_)
      rintro none
      obtain rfl := List.map_eq_nil_iff.mp none
      simp [startsWithDigit] at after
  | @string quote written read quotes body =>
    obtain ⟨-, -, -, -, notName⟩ := quote_class (isQuote_iff.mpr quotes)
    exact scanned_constant notName (.inr (by simp))
  | punctuation punctuation => exact scanned_punctuation (isPunctuation_iff.mpr punctuation)
  | @name c cs name all =>
    have isName := isNameStart_iff.mpr name
    refine ⟨.inr (.inl ⟨_, rfl⟩), ?_, ?_⟩
    · intro d isPunctuation text
      have same : c = d ∧ cs = [] := by simpa [← String.toList_inj] using text
      simp [(punctuation_class (same.1 ▸ isPunctuation)).2.2] at isName
    · intro keyword text
      exact congrArg Grammar.name text

theorem Lexes.scanned (lexes : Lexes cs tokens) : ∀ token ∈ tokens, Scanned token := by
  induction lexes with
  | done => simp
  | blank _ _ ih => exact ih
  | lexeme lexeme _ _ _ ih =>
    intro token member
    rcases List.mem_cons.mp member with rfl | member
    · exact lexeme.scanned
    · exact ih token member

/-- To compare the text of a scanned token with punctuation is to compare the token. -/
theorem Scanned.text_iff (scanned : Scanned token) (c : Char) (isPunctuation : isPunctuation c) :
    token.text = String.singleton c ↔ token = Token.punctuation c :=
  ⟨scanned.punctuation c isPunctuation, fun same => by simp [same, Token.punctuation]⟩

theorem Scanned.texts (scanned : Scanned token) :
    (token.text = "[" ↔ token = Token.punctuation '[') ∧
      (token.text = "]" ↔ token = Token.punctuation ']') ∧
      (token.text = "\x7b" ↔ token = Token.punctuation '\x7b') ∧
      (token.text = "\x7d" ↔ token = Token.punctuation '\x7d') ∧
      (token.text = ":" ↔ token = Token.punctuation ':') ∧
      (token.text = "," ↔ token = Token.punctuation ',') ∧
      (token.text = "." ↔ token = Token.punctuation '.') :=
  ⟨scanned.text_iff '[' rfl, scanned.text_iff ']' rfl, scanned.text_iff '\x7b' rfl,
    scanned.text_iff '\x7d' rfl, scanned.text_iff ':' rfl, scanned.text_iff ',' rfl,
    scanned.text_iff '.' rfl⟩

end Token

namespace Grammar

/-- The reader takes a constant for the key that the grammar gives it. -/
theorem Key.property_constant (text : String) (value : Constant) :
    (Key.constant text value).property = value.key := by
  cases value <;> rfl

theorem Head.tree_constant (text : String) (value : Constant) :
    (Head.constant text value).tree = .literal value.literal := by
  cases value <;> rfl

theorem keyword?_text (keyword : Keyword) :
    Expression.keyword? keyword.text = some keyword.tree := by
  cases keyword <;> rfl

theorem keyword?_eq_some {text : String} {tree : Expression}
    (is : Expression.keyword? text = some tree) :
    ∃ keyword : Keyword, text = keyword.text ∧ tree = keyword.tree := by
  unfold Expression.keyword? at is
  split at is
  · exact ⟨.null, ‹_›, (Option.some.inj is).symm⟩
  split at is
  · exact ⟨.true, ‹_›, (Option.some.inj is).symm⟩
  split at is
  · exact ⟨.false, ‹_›, (Option.some.inj is).symm⟩
  split at is
  · exact ⟨.this, ‹_›, (Option.some.inj is).symm⟩
  split at is
  · exact ⟨.locals, ‹_›, (Option.some.inj is).symm⟩
  · simp at is

theorem keyword?_eq_none_iff {text : String} :
    Expression.keyword? text = none ↔ ∀ keyword : Keyword, keyword.text ≠ text := by
  constructor
  · rintro none keyword rfl
    simp [keyword?_text] at none
  · intro plain
    cases is : Expression.keyword? text with
    | none => rfl
    | some tree =>
      obtain ⟨keyword, rfl, -⟩ := keyword?_eq_some is
      exact absurd rfl (plain keyword)

end Grammar

namespace Expression.Reader
open Grammar Token

/-- The suffixes of an expression, then what closes the brackets around it. -/
def Continues (closes : Expression → List Token → Prop) (read : Expression)
    (tokens : List Token) : Prop :=
  ∃ (suffixes : Suffixes) (rest : List Token),
    tokens = suffixes.tokens ++ rest ∧ closes (suffixes.onto read) rest

/-- The tokens close the brackets that are open, the innermost one after `read`, and end a
program. -/
def Closes (program : Expression) : List Frame → Expression → List Token → Prop
  | [], read, tokens => tokens = [] ∧ .program read = program
  | .array items :: stack, read, tokens =>
    ∃ (more : MoreElements) (rest : List Token), tokens = more.tokens ++ punctuation ']' :: rest ∧
      Continues (Closes program stack) (.array (items.reverse ++ read :: more.trees)) rest
  | .object entries key :: stack, read, tokens =>
    ∃ (more : MoreEntries) (rest : List Token),
      tokens = more.tokens ++ punctuation '\x7d' :: rest ∧
      Continues (Closes program stack)
        (.object (entries.reverse ++ (key, read) :: more.trees)) rest
  | .property holder :: stack, read, tokens =>
    ∃ rest : List Token, tokens = punctuation ']' :: rest ∧
      Continues (Closes program stack) (.member holder read true) rest

/-- The tokens go on from the state to the end of a program. -/
def Accepts (program : Expression) (state : State) (tokens : List Token) : Prop :=
  match state.mode with
  | .start =>
    (∃ (d : Primary) (rest : List Token), tokens = d.tokens ++ rest ∧
      Closes program state.stack d.tree rest) ∨
    ∃ (items : List Expression) (stack : List Frame) (rest : List Token),
      state.stack = .array items :: stack ∧ tokens = punctuation ']' :: rest ∧
      Continues (Closes program stack) (.array items.reverse) rest
  | .key entries =>
    ∃ (more : Entries) (rest : List Token), tokens = more.tokens ++ punctuation '\x7d' :: rest ∧
      Continues (Closes program state.stack) (.object (entries.reverse ++ more.trees)) rest
  | .colon entries key =>
    ∃ (value : Primary) (rest : List Token),
      tokens = punctuation ':' :: (value.tokens ++ rest) ∧
      Closes program (.object entries key :: state.stack) value.tree rest
  | .name holder =>
    ∃ (text : String) (rest : List Token), tokens = name text :: rest ∧
      Continues (Closes program state.stack) (.member holder (.identifier text) false) rest
  | .after read => Continues (Closes program state.stack) read tokens

variable {program read : Expression} {stack : List Frame} {state : State} {token : Token}
variable {tokens : List Token}

/-- A state that takes the token and accepts what follows it. -/
def Takes (program : Expression) (next : Except ParseError State) (tokens : List Token) : Prop :=
  ∃ state, next = .ok state ∧ Accepts program state tokens

@[simp] theorem takes_ok : Takes program (.ok state) tokens ↔ Accepts program state tokens := by
  simp [Takes]

@[simp] theorem not_takes_error {fault : ParseError} : ¬ Takes program (.error fault) tokens := by
  simp [Takes]

theorem closes_array_iff {items : List Expression} (scanned : Scanned token) :
    Closes program (.array items :: stack) read (token :: tokens) ↔
      Takes program (endStep read (.array items :: stack) token) tokens := by
  simp only [endStep, scanned.texts]
  constructor
  · rintro ⟨more, rest, same, continues⟩
    cases more with
    | done =>
      obtain ⟨rfl, rfl⟩ := List.cons.inj same
      simpa [Accepts, MoreElements.trees] using continues
    | comma =>
      obtain ⟨rfl, rfl⟩ := List.cons.inj same
      simp only [↓reduceIte, takes_ok]
      exact .inr ⟨read :: items, stack, rest, rfl, rfl,
        by simpa [MoreElements.trees] using continues⟩
    | more next more =>
      obtain ⟨rfl, rfl⟩ := List.cons.inj same
      simp only [↓reduceIte, takes_ok]
      exact .inl ⟨next, more.tokens ++ punctuation ']' :: rest, by simp,
        more, rest, rfl, by simpa [MoreElements.trees] using continues⟩
  · intro takes
    split at takes
    · rename_i comma
      subst comma
      rcases takes_ok.mp takes with ⟨next, rest, rfl, more, rest, rfl, continues⟩ |
        ⟨_, _, rest, ⟨⟩, rfl, continues⟩
      · exact ⟨.more next more, rest, by simp [MoreElements.tokens],
          by simpa [MoreElements.trees] using continues⟩
      · exact ⟨.comma, rest, rfl, by simpa [MoreElements.trees] using continues⟩
    · split at takes
      · rename_i close
        subst close
        have continues := takes_ok.mp takes
        exact ⟨.done, tokens, rfl, by simpa [Accepts, MoreElements.trees] using continues⟩
      · exact absurd takes not_takes_error

theorem closes_object_iff {entries : List (String × Expression)} {key : String}
    (scanned : Scanned token) :
    Closes program (.object entries key :: stack) read (token :: tokens) ↔
      Takes program (endStep read (.object entries key :: stack) token) tokens := by
  simp only [endStep, scanned.texts]
  constructor
  · rintro ⟨more, rest, same, continues⟩
    cases more with
    | done =>
      obtain ⟨rfl, rfl⟩ := List.cons.inj same
      simpa [Accepts, MoreEntries.trees] using continues
    | comma =>
      obtain ⟨rfl, rfl⟩ := List.cons.inj same
      simp only [↓reduceIte, takes_ok]
      exact ⟨.none, rest, rfl,
        by simpa [MoreEntries.trees, Entries.trees] using continues⟩
    | more key' value more =>
      obtain ⟨rfl, rfl⟩ := List.cons.inj same
      simp only [↓reduceIte, takes_ok]
      exact ⟨.some key' value more, rest, rfl,
        by simpa [MoreEntries.trees, Entries.trees] using continues⟩
  · intro takes
    split at takes
    · rename_i comma
      subst comma
      obtain ⟨more, rest, rfl, continues⟩ := takes_ok.mp takes
      cases more with
      | none =>
        exact ⟨.comma, rest, rfl, by simpa [MoreEntries.trees, Entries.trees] using continues⟩
      | some key' value more =>
        exact ⟨.more key' value more, rest, rfl,
          by simpa [MoreEntries.trees, Entries.trees] using continues⟩
    · split at takes
      · rename_i close
        subst close
        have continues := takes_ok.mp takes
        exact ⟨.done, tokens, rfl, by simpa [Accepts, MoreEntries.trees] using continues⟩
      · exact absurd takes not_takes_error

theorem closes_property_iff {holder : Expression} (scanned : Scanned token) :
    Closes program (.property holder :: stack) read (token :: tokens) ↔
      Takes program (endStep read (.property holder :: stack) token) tokens := by
  simp only [endStep, scanned.texts, Closes, List.cons.injEq]
  constructor
  · rintro ⟨rest, ⟨rfl, rfl⟩, continues⟩
    simpa [Accepts] using continues
  · intro takes
    split at takes
    · rename_i close
      exact ⟨tokens, ⟨close, rfl⟩, takes_ok.mp takes⟩
    · exact absurd takes not_takes_error

theorem closes_iff (scanned : Scanned token) :
    Closes program stack read (token :: tokens) ↔
      Takes program (endStep read stack token) tokens := by
  rcases stack with _ | ⟨items | ⟨entries, key⟩ | holder, stack⟩
  · simp [Closes, endStep]
  · exact closes_array_iff scanned
  · exact closes_object_iff scanned
  · exact closes_property_iff scanned

/-- No bracket ends with what starts a suffix. -/
theorem not_takes_suffix (suffix : token = punctuation '.' ∨ token = punctuation '[') :
    ¬ Takes program (endStep read stack token) tokens := by
  rcases suffix with rfl | rfl <;>
    rcases stack with _ | ⟨_ | _ | _, stack⟩ <;> simp [endStep, punctuation]

theorem accepts_after_iff (scanned : Scanned token) :
    Accepts program ⟨.after read, stack⟩ (token :: tokens) ↔
      Takes program (step ⟨.after read, stack⟩ token) tokens := by
  simp only [step, scanned.texts]
  constructor
  · rintro ⟨suffixes, rest, same, closes⟩
    cases suffixes with
    | done =>
      obtain rfl : token :: tokens = rest := same
      have takes := (closes_iff scanned).mp closes
      have notDot : token ≠ punctuation '.' := fun dot => not_takes_suffix (.inl dot) takes
      have notBracket : token ≠ punctuation '[' := fun bracket =>
        not_takes_suffix (.inr bracket) takes
      simpa [notDot, notBracket, Suffixes.onto] using takes
    | name text suffixes =>
      obtain ⟨rfl, rfl⟩ := List.cons.inj same
      simp only [↓reduceIte, takes_ok]
      exact ⟨text, suffixes.tokens ++ rest, rfl, suffixes, rest, rfl, closes⟩
    | index property suffixes =>
      obtain ⟨rfl, rfl⟩ := List.cons.inj same
      simp only [punctuation_inj, Char.reduceEq, ↓reduceIte, takes_ok]
      exact .inl ⟨property, punctuation ']' :: (suffixes.tokens ++ rest), by simp,
        suffixes.tokens ++ rest, rfl, suffixes, rest, rfl, closes⟩
  · intro takes
    split at takes
    · rename_i dot
      subst dot
      obtain ⟨text, rest, rfl, suffixes, rest, rfl, closes⟩ := takes_ok.mp takes
      exact ⟨.name text suffixes, rest, rfl, closes⟩
    · split at takes
      · rename_i bracket
        subst bracket
        rcases takes_ok.mp takes with ⟨property, rest, rfl, rest, rfl, suffixes, rest, rfl, closes⟩ |
          ⟨_, _, _, ⟨⟩, _⟩
        exact ⟨.index property suffixes, rest, by simp [Suffixes.tokens], closes⟩
      · exact ⟨.done, token :: tokens, rfl, (closes_iff scanned).mpr takes⟩

theorem accepts_name_iff {holder : Expression} (scanned : Scanned token) :
    Accepts program ⟨.name holder, stack⟩ (token :: tokens) ↔
      Takes program (step ⟨.name holder, stack⟩ token) tokens := by
  simp only [step]
  constructor
  · rintro ⟨text, rest, same, continues⟩
    obtain ⟨rfl, rfl⟩ := List.cons.inj same
    exact takes_ok.mpr continues
  · intro takes
    split at takes
    · rename_i isName
      rcases scanned.kind with ⟨c, -, rfl⟩ | ⟨text, rfl⟩ | ⟨text, value, rfl⟩
      · simp [punctuation] at isName
      · exact ⟨text, tokens, rfl, takes_ok.mp takes⟩
      · simp [constant] at isName
    · exact absurd takes not_takes_error

theorem accepts_colon_iff {entries : List (String × Expression)} {key : String}
    (scanned : Scanned token) :
    Accepts program ⟨.colon entries key, stack⟩ (token :: tokens) ↔
      Takes program (step ⟨.colon entries key, stack⟩ token) tokens := by
  simp only [step, scanned.texts]
  constructor
  · rintro ⟨value, rest, same, closes⟩
    obtain ⟨rfl, rfl⟩ := List.cons.inj same
    simp only [↓reduceIte, takes_ok]
    exact .inl ⟨value, rest, rfl, closes⟩
  · intro takes
    split at takes
    · rename_i colon
      subst colon
      rcases takes_ok.mp takes with ⟨value, rest, rfl, closes⟩ | ⟨_, _, _, ⟨⟩, _⟩
      exact ⟨value, rest, rfl, closes⟩
    · exact absurd takes not_takes_error

theorem accepts_key_iff {entries : List (String × Expression)} (scanned : Scanned token) :
    Accepts program ⟨.key entries, stack⟩ (token :: tokens) ↔
      Takes program (step ⟨.key entries, stack⟩ token) tokens := by
  simp only [step, scanned.texts]
  constructor
  · rintro ⟨more, rest, same, continues⟩
    cases more with
    | none =>
      obtain ⟨rfl, rfl⟩ := List.cons.inj same
      simpa [Accepts, Entries.trees] using continues
    | some key value more =>
      obtain ⟨rfl, rfl⟩ := List.cons.inj same
      have colon : Accepts program ⟨.colon entries key.property, stack⟩
          (punctuation ':' :: (value.tokens ++ more.tokens) ++ punctuation '\x7d' :: rest) :=
        ⟨value, more.tokens ++ punctuation '\x7d' :: rest, by simp, more, rest, rfl, continues⟩
      simp only [key_token_ne_punctuation, ↓reduceIte]
      cases key with
      | name text => simpa [Key.token, Key.property] using colon
      | constant text value => simpa [Key.token, Key.property_constant] using colon
  · intro takes
    split at takes
    · rename_i close
      subst close
      exact ⟨.none, tokens, rfl, by simpa [Accepts, Entries.trees] using takes_ok.mp takes⟩
    · have entry (key : Key) (is : token = key.token)
          (accepts : Accepts program ⟨.colon entries key.property, stack⟩ tokens) :
          Accepts program ⟨.key entries, stack⟩ (token :: tokens) := by
        obtain ⟨value, rest, rfl, more, rest, rfl, continues⟩ := accepts
        exact ⟨.some key value more, rest, by simp [Entries.tokens, is], continues⟩
      rcases scanned.kind with ⟨c, -, rfl⟩ | ⟨text, rfl⟩ | ⟨text, value, rfl⟩
      · exact absurd takes not_takes_error
      · exact entry (.name text) rfl (takes_ok.mp takes)
      · refine entry (.constant text value) rfl ?_
        rw [Key.property_constant]
        exact takes_ok.mp takes

/-- The reader starts on every derivation. -/
theorem takes_start (scanned : Scanned token) {d : Primary} {rest : List Token}
    (same : token :: tokens = d.tokens ++ rest) (closes : Closes program stack d.tree rest) :
    Takes program (startStep stack token) tokens := by
  simp only [startStep, scanned.texts]
  obtain ⟨head, suffixes⟩ := d
  simp only [Primary.tokens, List.append_assoc] at same
  cases head with
  | array elements =>
    obtain ⟨rfl, rfl⟩ := List.cons.inj same
    simp only [↓reduceIte, takes_ok]
    cases elements with
    | none =>
      exact .inr ⟨[], stack, suffixes.tokens ++ rest, rfl, rfl, suffixes, rest, rfl, closes⟩
    | some first more =>
      exact .inl ⟨first, more.tokens ++ punctuation ']' :: (suffixes.tokens ++ rest),
        by simp [Elements.tokens], more, suffixes.tokens ++ rest, rfl, suffixes, rest, rfl, closes⟩
  | object entries =>
    obtain ⟨rfl, rfl⟩ := List.cons.inj same
    simp only [punctuation_inj, Char.reduceEq, ↓reduceIte, takes_ok]
    exact ⟨entries, suffixes.tokens ++ rest, by simp, suffixes, rest, rfl, closes⟩
  | keyword keyword =>
    obtain ⟨rfl, rfl⟩ := List.cons.inj same
    simp only [name_ne_punctuation, ↓reduceIte, name_text, keyword?_text, takes_ok]
    exact ⟨suffixes, rest, rfl, closes⟩
  | identifier identifier =>
    obtain ⟨rfl, rfl⟩ := List.cons.inj same
    have plain := keyword?_eq_none_iff.mpr identifier.plain
    simp only [name_ne_punctuation, ↓reduceIte, name_text, plain, name_identifier, takes_ok]
    exact ⟨suffixes, rest, rfl, closes⟩
  | constant text value =>
    obtain ⟨rfl, rfl⟩ := List.cons.inj same
    have plain : keyword? text = none := by
      refine keyword?_eq_none_iff.mpr fun keyword is => ?_
      exact constant_ne_name (scanned.keyword keyword is.symm)
    simp only [constant_ne_punctuation, ↓reduceIte, constant_text, plain, constant_identifier,
      Bool.false_eq_true, constant_value, takes_ok]
    rw [Primary.tree, Head.tree_constant] at closes
    exact ⟨suffixes, rest, rfl, closes⟩

/-- What the reader starts on is a derivation. -/
theorem start_of_takes (scanned : Scanned token)
    (takes : Takes program (startStep stack token) tokens) :
    ∃ (d : Primary) (rest : List Token), token :: tokens = d.tokens ++ rest ∧
      Closes program stack d.tree rest := by
  simp only [startStep, scanned.texts] at takes
  split at takes
  · rename_i bracket
    subst bracket
    rcases takes_ok.mp takes with
      ⟨first, rest, rfl, more, rest, rfl, suffixes, rest, rfl, closes⟩ |
      ⟨_, _, rest, ⟨⟩, rfl, suffixes, rest, rfl, closes⟩
    · exact ⟨.mk (.array (.some first more)) suffixes, rest,
        by simp [Primary.tokens, Head.tokens, Elements.tokens], closes⟩
    · exact ⟨.mk (.array .none) suffixes, rest,
        by simp [Primary.tokens, Head.tokens, Elements.tokens], closes⟩
  split at takes
  · rename_i brace
    subst brace
    obtain ⟨entries, rest, rfl, suffixes, rest, rfl, closes⟩ := takes_ok.mp takes
    exact ⟨.mk (.object entries) suffixes, rest, by simp [Primary.tokens, Head.tokens], closes⟩
  split at takes
  · rename_i tree isKeyword
    obtain ⟨keyword, text, rfl⟩ := keyword?_eq_some isKeyword
    obtain ⟨suffixes, rest, rfl, closes⟩ := takes_ok.mp takes
    rw [scanned.keyword keyword text]
    exact ⟨.mk (.keyword keyword) suffixes, rest, rfl, closes⟩
  · rename_i isPlain
    rcases scanned.kind with ⟨c, -, rfl⟩ | ⟨text, rfl⟩ | ⟨text, value, rfl⟩
    · exact absurd takes not_takes_error
    · obtain ⟨suffixes, rest, rfl, closes⟩ := takes_ok.mp takes
      exact ⟨.mk (.identifier ⟨text, keyword?_eq_none_iff.mp isPlain⟩) suffixes, rest, rfl, closes⟩
    · obtain ⟨suffixes, rest, rfl, closes⟩ := takes_ok.mp takes
      rw [← Head.tree_constant text] at closes
      exact ⟨.mk (.constant text value) suffixes, rest, rfl, closes⟩

theorem accepts_start_iff (scanned : Scanned token) :
    Accepts program ⟨.start, stack⟩ (token :: tokens) ↔
      Takes program (step ⟨.start, stack⟩ token) tokens := by
  have noEnd (notEnd : ¬ ∃ items stack', stack = .array items :: stack' ∧ token = punctuation ']') :
      Accepts program ⟨.start, stack⟩ (token :: tokens) ↔
        Takes program (startStep stack token) tokens := by
    refine (or_iff_left ?_).trans
      ⟨fun ⟨_, _, same, closes⟩ => takes_start scanned same closes, start_of_takes scanned⟩
    rintro ⟨items, stack', rest, is, same, -⟩
    exact notEnd ⟨items, stack', is, (List.cons.inj same).1⟩
  rcases stack with _ | ⟨items | _ | _, stack⟩
  · exact noEnd (by simp)
  · simp only [step, scanned.texts]
    split
    · rename_i close
      subst close
      rw [takes_ok]
      constructor
      · rintro (⟨d, rest, same, -⟩ | ⟨_, _, rest, ⟨⟩, same, continues⟩)
        · exact absurd same.symm (d.start rest tokens)
        · obtain ⟨-, rfl⟩ := List.cons.inj same
          exact continues
      · exact fun continues => .inr ⟨items, stack, tokens, rfl, rfl, continues⟩
    · rename_i notClose
      exact noEnd (by simp [notClose])
  · exact noEnd (by simp)
  · exact noEnd (by simp)

/-- One step: a state accepts what it takes a token of. -/
theorem accepts_iff (scanned : Scanned token) :
    Accepts program state (token :: tokens) ↔ Takes program (step state token) tokens := by
  obtain ⟨mode, stack⟩ := state
  cases mode with
  | start => exact accepts_start_iff scanned
  | key => exact accepts_key_iff scanned
  | colon => exact accepts_colon_iff scanned
  | name => exact accepts_name_iff scanned
  | after => exact accepts_after_iff scanned

theorem closes_nil_iff : Closes program stack read [] ↔ stack = [] ∧ .program read = program := by
  rcases stack with _ | ⟨_ | _ | _, stack⟩ <;> simp [Closes]

theorem continues_nil_iff {closes : Expression → List Token → Prop} :
    Continues closes read [] ↔ closes read [] := by
  constructor
  · rintro ⟨suffixes, rest, same, closes⟩
    cases suffixes with
    | done =>
      obtain rfl : [] = rest := same
      exact closes
    | name | index => simp [Suffixes.tokens] at same
  · exact fun closes => ⟨.done, [], rfl, closes⟩

/-- At the end of the tokens: only an expression outside all brackets is a program. -/
theorem accepts_nil_iff : Accepts program state [] ↔ finish state = .ok program := by
  obtain ⟨mode, stack⟩ := state
  cases mode with
  | start =>
    have nonempty (d : Primary) : d.tokens ≠ [] := by
      obtain ⟨head, suffixes⟩ := d
      cases head <;> simp [Primary.tokens, Head.tokens]
    simp [Accepts, finish, nonempty]
  | key => simp [Accepts, finish]
  | colon => simp [Accepts, finish]
  | name => simp [Accepts, finish]
  | after read =>
    simp only [Accepts, continues_nil_iff, closes_nil_iff]
    rcases stack with _ | ⟨_ | _ | _, stack⟩ <;> simp [finish]

/-- A whole run: the reader gets from the state to the end of the program. -/
theorem accepts_run_iff (scanned : ∀ token ∈ tokens, Scanned token) :
    Accepts program state tokens ↔ (tokens.foldlM step state >>= finish) = .ok program := by
  induction tokens generalizing state with
  | nil => exact accepts_nil_iff
  | cons token tokens ih =>
    rw [accepts_iff (scanned token (by simp)), List.foldlM_cons]
    have later : ∀ token ∈ tokens, Scanned token := fun t member => scanned t (by simp [member])
    cases next : step state token with
    | error fault => simp [bind, Except.bind]
    | ok state' => rw [takes_ok, ih later]; rfl

end Expression.Reader

namespace Expression
open Grammar Token

theorem accepts_initial_iff {tokens : List Token} {program : Expression} :
    Reader.Accepts program Reader.initial tokens ↔ Derives tokens program := by
  constructor
  · rintro (⟨d, rest, rfl, rfl, rfl⟩ | ⟨_, _, _, ⟨⟩, _⟩)
    exact ⟨d, by simp, rfl⟩
  · rintro ⟨d, rfl, rfl⟩
    exact .inl ⟨d, [], by simp, rfl, rfl⟩

theorem ofTokens_eq_ok_iff {tokens : List Token} (scanned : ∀ token ∈ tokens, token.Scanned)
    {program : Expression} : ofTokens tokens = .ok program ↔ Derives tokens program :=
  (Reader.accepts_run_iff scanned).symm.trans accepts_initial_iff

/-- The reader accepts exactly the grammar. For the tokens of any text, the programs that it
returns are the trees of their derivations; there is one derivation at most, and where there
is none the reader returns an error. -/
theorem ofTokens_grammar {text : String} {tokens : List Token}
    (scanned : Token.scan text = .ok tokens) :
    (∀ program, ofTokens tokens = .ok program ↔ Derives tokens program) ∧
      (∀ d d' : Primary, d.tokens = tokens → d'.tokens = tokens → d = d') ∧
      ((∀ d : Primary, d.tokens ≠ tokens) → ∃ fault, ofTokens tokens = .error fault) := by
  have apart := (Token.scan_eq_ok_iff.mp scanned).scanned
  refine ⟨fun program => ofTokens_eq_ok_iff apart, ?_, ?_⟩
  · intro d d' is is'
    have nothing : NoSuffix [] := by simp [NoSuffix]
    exact (d.unique d' [] [] nothing nothing (by rw [is, is'])).1
  · intro none
    cases result : ofTokens tokens with
    | error fault => exact ⟨fault, rfl⟩
    | ok program =>
      obtain ⟨d, is, -⟩ := (ofTokens_eq_ok_iff apart).mp result
      exact absurd is (none d)

/-- The derivation of an object with a name, a number and a string as keys. Its first entry takes a
string and a keyword as properties and then a keyword after a dot. -/
def keyedEntries : Primary :=
  .mk (.object (.some (.name "this")
    (.mk (.identifier ⟨"a", by rintro ⟨⟩ <;> decide⟩)
      (.index (.mk (.constant "'k'" (.string "k")) .done)
        (.index (.mk (.keyword .true) .done) (.name "null" .done))))
    (.more (.constant "1.50" (.number (.ofDecimal false 150 (-2))))
      (.mk (.constant "2" (.number (.ofDecimal false 2 0))) .done)
      (.more (.constant "'x y'" (.string "x y")) (.mk (.array .none) .done) .comma)))) .done

theorem scan_keyedEntries :
    Token.scan "\x7bthis: a['k'][true].null, 1.50: 2, 'x y': [],\x7d" = .ok keyedEntries.tokens := by
  simp [scan, scanFrom, isBlank, first, numberStarts, startsWithDigit, isQuote, isPunctuation,
    isNameStart, isNamePart, stringTail, Token.punctuation, ofName, ofString, numeral, fraction,
    exponent, ofNumeral, Numeral.chars, ← String.length_toList, bind, Except.bind, pure, Except.pure]
  rfl

theorem ofTokens_grammar_keyedEntries :
    Token.scan "\x7bthis: a['k'][true].null, 1.50: 2, 'x y': [],\x7d" = .ok keyedEntries.tokens ∧
      ofTokens keyedEntries.tokens = .ok (.program (.object [
        ("this", .member (.member (.member (.identifier "a") (.literal (.string "k")) true)
          (.literal (.bool true)) true) (.identifier "null") false),
        ("1.5", .literal (.number (.ofDecimal false 2 0))), ("x y", .array [])])) := by
  have key : (Number.ofDecimal false 150 (-2)).key = "1.5" := by decide +kernel
  refine ⟨scan_keyedEntries, ((ofTokens_grammar scan_keyedEntries).1 _).mpr ⟨keyedEntries, rfl, ?_⟩⟩
  rw [← key]
  rfl

end Expression
end DataBinding
