import DataBinding.Expression.Grammar

/-! The grammar of expressions is unambiguous: tokens have one derivation at most. What a
phrase derives also tells where it ends, if nothing that follows could be a part of it. -/
namespace DataBinding

namespace Token

@[simp] theorem punctuation_inj {c d : Char} : punctuation c = punctuation d ↔ c = d := by
  refine ⟨fun same => ?_, congrArg punctuation⟩
  have text := congrArg (fun token => token.text.toList) same
  simpa [punctuation] using text

end Token

namespace Grammar
open Token (punctuation)

variable {c : Char} {text text' : String} {value value' : Constant}

@[simp] theorem name_text : (name text).text = text := rfl

@[simp] theorem name_identifier : (name text).identifier = true := rfl

@[simp] theorem constant_text : (constant text value).text = text := rfl

@[simp] theorem constant_value : (constant text value).value = some value := rfl

@[simp] theorem constant_identifier : (constant text value).identifier = false := rfl

@[simp] theorem name_inj : name text = name text' ↔ text = text' := by simp [name]

@[simp] theorem constant_inj :
    constant text value = constant text' value' ↔ text = text' ∧ value = value' := by
  simp [constant]

@[simp] theorem punctuation_ne_name : punctuation c ≠ name text := by simp [punctuation, name]

@[simp] theorem name_ne_punctuation : name text ≠ punctuation c := by simp [punctuation, name]

@[simp] theorem punctuation_ne_constant : punctuation c ≠ constant text value := by
  simp [punctuation, constant]

@[simp] theorem constant_ne_punctuation : constant text value ≠ punctuation c := by
  simp [punctuation, constant]

@[simp] theorem name_ne_constant : name text ≠ constant text' value := by simp [name, constant]

@[simp] theorem constant_ne_name : constant text value ≠ name text' := by simp [name, constant]

@[simp] theorem keyword_text_inj {keyword keyword' : Keyword} :
    keyword.text = keyword'.text ↔ keyword = keyword' := by
  cases keyword <;> cases keyword' <;> simp [Keyword.text]

@[simp] theorem key_token_inj {key key' : Key} : key.token = key'.token ↔ key = key' := by
  cases key <;> cases key' <;> simp [Key.token]

@[simp] theorem key_token_ne_punctuation {key : Key} : key.token ≠ punctuation c := by
  cases key <;> simp [Key.token]

@[simp] theorem punctuation_ne_key_token {key : Key} : punctuation c ≠ key.token :=
  key_token_ne_punctuation.symm

/-- No suffix starts here. -/
def NoSuffix (tokens : List Token) : Prop :=
  ∀ token ∈ tokens.head?, token ≠ punctuation '.' ∧ token ≠ punctuation '['

theorem Primary.start (d : Primary) (rest tail : List Token) :
    d.tokens ++ rest ≠ punctuation ']' :: tail := by
  obtain ⟨head, suffixes⟩ := d
  cases head <;> simp [Primary.tokens, Head.tokens]

theorem MoreElements.noSuffix (more : MoreElements) (rest : List Token) :
    NoSuffix (more.tokens ++ punctuation ']' :: rest) := by
  cases more <;> simp [MoreElements.tokens, NoSuffix]

theorem MoreEntries.noSuffix (more : MoreEntries) (rest : List Token) :
    NoSuffix (more.tokens ++ punctuation '\x7d' :: rest) := by
  cases more <;> simp [MoreEntries.tokens, NoSuffix]

mutual

theorem Primary.unique : ∀ (d d' : Primary) (rest rest' : List Token),
    NoSuffix rest → NoSuffix rest' → d.tokens ++ rest = d'.tokens ++ rest' →
    d = d' ∧ rest = rest'
  | .mk head suffixes, .mk head' suffixes', rest, rest', stop, stop', same => by
    simp only [Primary.tokens, List.append_assoc] at same
    obtain ⟨rfl, after⟩ := Head.unique head head' _ _ same
    obtain ⟨rfl, rfl⟩ := Suffixes.unique suffixes suffixes' rest rest' stop stop' after
    exact ⟨rfl, rfl⟩

theorem Head.unique : ∀ (head head' : Head) (rest rest' : List Token),
    head.tokens ++ rest = head'.tokens ++ rest' → head = head' ∧ rest = rest'
  | .array elements, head', rest, rest', same => by
    cases head' with
    | array elements' =>
      simp only [Head.tokens, List.cons_append, List.cons.injEq, true_and, List.append_assoc,
        List.nil_append] at same
      obtain ⟨rfl, rfl⟩ := Elements.unique elements elements' rest rest' same
      exact ⟨rfl, rfl⟩
    | object | keyword | identifier | constant => simp [Head.tokens] at same
  | .object entries, head', rest, rest', same => by
    cases head' with
    | object entries' =>
      simp only [Head.tokens, List.cons_append, List.cons.injEq, true_and, List.append_assoc,
        List.nil_append] at same
      obtain ⟨rfl, rfl⟩ := Entries.unique entries entries' rest rest' same
      exact ⟨rfl, rfl⟩
    | array | keyword | identifier | constant => simp [Head.tokens] at same
  | .keyword keyword, head', rest, rest', same => by
    cases head' with
    | keyword keyword' => simpa [Head.tokens] using same
    | identifier identifier =>
      simp only [Head.tokens, List.cons_append, List.cons.injEq, name_inj] at same
      exact absurd same.1 (identifier.plain keyword)
    | array | object | constant => simp [Head.tokens] at same
  | .identifier identifier, head', rest, rest', same => by
    cases head' with
    | identifier identifier' =>
      obtain ⟨text, plain⟩ := identifier
      obtain ⟨text', plain'⟩ := identifier'
      simpa [Head.tokens] using same
    | keyword keyword =>
      simp only [Head.tokens, List.cons_append, List.cons.injEq, name_inj] at same
      exact absurd same.1.symm (identifier.plain keyword)
    | array | object | constant => simp [Head.tokens] at same
  | .constant text value, head', rest, rest', same => by
    cases head' with
    | constant => simpa [Head.tokens] using same
    | array | object | keyword | identifier => simp [Head.tokens] at same

theorem Suffixes.unique : ∀ (suffixes suffixes' : Suffixes) (rest rest' : List Token),
    NoSuffix rest → NoSuffix rest' → suffixes.tokens ++ rest = suffixes'.tokens ++ rest' →
    suffixes = suffixes' ∧ rest = rest'
  | .done, suffixes', rest, rest', stop, stop', same => by
    cases suffixes' with
    | done => exact ⟨rfl, same⟩
    | name | index =>
      simp only [Suffixes.tokens, List.nil_append, List.cons_append] at same
      simp [NoSuffix, same] at stop
  | .name text more, suffixes', rest, rest', stop, stop', same => by
    cases suffixes' with
    | done =>
      simp only [Suffixes.tokens, List.nil_append, List.cons_append] at same
      simp [NoSuffix, ← same] at stop'
    | name text' more' =>
      simp only [Suffixes.tokens, List.cons_append, List.cons.injEq, true_and, name_inj] at same
      obtain ⟨rfl, same⟩ := same
      obtain ⟨rfl, rfl⟩ := Suffixes.unique more more' rest rest' stop stop' same
      exact ⟨rfl, rfl⟩
    | index => simp [Suffixes.tokens] at same
  | .index property more, suffixes', rest, rest', stop, stop', same => by
    cases suffixes' with
    | done =>
      simp only [Suffixes.tokens, List.nil_append, List.cons_append] at same
      simp [NoSuffix, ← same] at stop'
    | name => simp [Suffixes.tokens] at same
    | index property' more' =>
      simp only [Suffixes.tokens, List.cons_append, List.cons.injEq, true_and,
        List.append_assoc] at same
      have close (tail) : NoSuffix (punctuation ']' :: tail) := by simp [NoSuffix]
      obtain ⟨rfl, after⟩ := Primary.unique property property' _ _ (close _) (close _) same
      obtain ⟨rfl, rfl⟩ :=
        Suffixes.unique more more' rest rest' stop stop' (List.cons.inj after).2
      exact ⟨rfl, rfl⟩

theorem Elements.unique : ∀ (elements elements' : Elements) (rest rest' : List Token),
    elements.tokens ++ punctuation ']' :: rest = elements'.tokens ++ punctuation ']' :: rest' →
    elements = elements' ∧ rest = rest'
  | .none, elements', rest, rest', same => by
    cases elements' with
    | none => simpa [Elements.tokens] using same
    | some first more =>
      simp only [Elements.tokens, List.nil_append, List.append_assoc] at same
      exact absurd same.symm (first.start _ _)
  | .some first more, elements', rest, rest', same => by
    cases elements' with
    | none =>
      simp only [Elements.tokens, List.nil_append, List.append_assoc] at same
      exact absurd same (first.start _ _)
    | some first' more' =>
      simp only [Elements.tokens, List.append_assoc] at same
      obtain ⟨rfl, after⟩ := Primary.unique first first' _ _ (more.noSuffix rest)
        (more'.noSuffix rest') same
      obtain ⟨rfl, rfl⟩ := MoreElements.unique more more' rest rest' after
      exact ⟨rfl, rfl⟩

theorem MoreElements.unique : ∀ (more more' : MoreElements) (rest rest' : List Token),
    more.tokens ++ punctuation ']' :: rest = more'.tokens ++ punctuation ']' :: rest' →
    more = more' ∧ rest = rest'
  | .done, more', rest, rest', same => by
    cases more' with
    | done => simpa [MoreElements.tokens] using same
    | comma | more => simp [MoreElements.tokens] at same
  | .comma, more', rest, rest', same => by
    cases more' with
    | done => simp [MoreElements.tokens] at same
    | comma => simpa [MoreElements.tokens] using same
    | more next more' =>
      simp only [MoreElements.tokens, List.cons_append, List.cons.injEq, true_and,
        List.nil_append, List.append_assoc] at same
      exact absurd same.symm (next.start _ _)
  | .more next more, more', rest, rest', same => by
    cases more' with
    | done => simp [MoreElements.tokens] at same
    | comma =>
      simp only [MoreElements.tokens, List.cons_append, List.cons.injEq, true_and,
        List.nil_append, List.append_assoc] at same
      exact absurd same (next.start _ _)
    | more next' more' =>
      simp only [MoreElements.tokens, List.cons_append, List.cons.injEq, true_and,
        List.append_assoc] at same
      obtain ⟨rfl, after⟩ := Primary.unique next next' _ _ (more.noSuffix rest)
        (more'.noSuffix rest') same
      obtain ⟨rfl, rfl⟩ := MoreElements.unique more more' rest rest' after
      exact ⟨rfl, rfl⟩

theorem Entries.unique : ∀ (entries entries' : Entries) (rest rest' : List Token),
    entries.tokens ++ punctuation '\x7d' :: rest = entries'.tokens ++ punctuation '\x7d' :: rest' →
    entries = entries' ∧ rest = rest'
  | .none, entries', rest, rest', same => by
    cases entries' with
    | none => simpa [Entries.tokens] using same
    | some => simp [Entries.tokens] at same
  | .some key value more, entries', rest, rest', same => by
    cases entries' with
    | none => simp [Entries.tokens] at same
    | some key' value' more' =>
      simp only [Entries.tokens, List.cons_append, List.cons.injEq, key_token_inj, true_and,
        List.append_assoc] at same
      obtain ⟨rfl, same⟩ := same
      obtain ⟨rfl, after⟩ := Primary.unique value value' _ _ (more.noSuffix rest)
        (more'.noSuffix rest') same
      obtain ⟨rfl, rfl⟩ := MoreEntries.unique more more' rest rest' after
      exact ⟨rfl, rfl⟩

theorem MoreEntries.unique : ∀ (more more' : MoreEntries) (rest rest' : List Token),
    more.tokens ++ punctuation '\x7d' :: rest = more'.tokens ++ punctuation '\x7d' :: rest' →
    more = more' ∧ rest = rest'
  | .done, more', rest, rest', same => by
    cases more' with
    | done => simpa [MoreEntries.tokens] using same
    | comma | more => simp [MoreEntries.tokens] at same
  | .comma, more', rest, rest', same => by
    cases more' with
    | comma => simpa [MoreEntries.tokens] using same
    | done | more => simp [MoreEntries.tokens] at same
  | .more key value more, more', rest, rest', same => by
    cases more' with
    | done | comma => simp [MoreEntries.tokens] at same
    | more key' value' more' =>
      simp only [MoreEntries.tokens, List.cons_append, List.cons.injEq, key_token_inj, true_and,
        List.append_assoc] at same
      obtain ⟨rfl, same⟩ := same
      obtain ⟨rfl, after⟩ := Primary.unique value value' _ _ (more.noSuffix rest)
        (more'.noSuffix rest') same
      obtain ⟨rfl, rfl⟩ := MoreEntries.unique more more' rest rest' after
      exact ⟨rfl, rfl⟩

end

end Grammar
end DataBinding
