import DataBinding.Proofs.Rendering

/-! Rendered programs can be told apart. A part of a rendering is a word, a quoted text or a
bracketed list, and its first character says which; a word goes on up to the first character
that is in no word. So equal texts have equal parts from left to right, and what follows a part
is equal too. This needs numbers that are not negative and member names of name characters:
the program of a text has no others. -/
namespace DataBinding
open Token

/-- A number that is read from a text has no sign. -/
def Literal.Decodable : Literal → Prop
  | .number n => ∃ rank, n = .ranked false rank
  | _ => True

inductive Operand.Decodable : Operand → Prop
  | literal {value} : value.Decodable → Decodable (.literal value)
  | temp {id} : Decodable (.temp id)
  | context : Decodable .context
  | locals : Decodable .locals
  | array {elements} : (∀ element ∈ elements, Decodable element) → Decodable (.array elements)
  | object {entries} : (∀ entry ∈ entries, Decodable entry.2) → Decodable (.object entries)

def Test.Decodable : Test → Prop
  | .truthy operand => operand.Decodable
  | _ => True

/-- A name of characters that a name token can have. -/
def NameLike (name : String) : Prop := ∀ c ∈ name.toList, isNamePart c

def Read.Decodable : Read → Prop
  | .member object name => object.Decodable ∧ NameLike name
  | .computed object key => object.Decodable ∧ key.Decodable

structure Statement.Decodable (statement : Statement) : Prop where
  test : statement.test.Decodable
  read : statement.read.Decodable

structure Program.Decodable (program : Program) : Prop where
  body : ∀ statement ∈ program.body, statement.Decodable
  result : program.result.Decodable

namespace Decoding

variable {cs rest rest' : List Char}

section Words

/-- The characters of names and numbers. -/
def isWordChar (c : Char) : Bool := isNamePart c || c == '.' || c == '+' || c == '-'

/-- No word goes on into `rest`. -/
def Stops (rest : List Char) : Prop := rest.head?.any isWordChar = false

theorem word_unique {word word' : List Char} (inside : ∀ c ∈ word, isWordChar c)
    (inside' : ∀ c ∈ word', isWordChar c) (stops : Stops rest) (stops' : Stops rest')
    (same : word ++ rest = word' ++ rest') : word = word' ∧ rest = rest' := by
  have first : word = word' := by
    rw [← List.takeWhile_exact inside stops, same, List.takeWhile_exact inside' stops']
  subst first
  exact ⟨rfl, List.append_cancel_left same⟩

theorem digit_word {c : Char} (digit : c.isDigit) : isWordChar c := by
  simp [isWordChar, isNamePart, digit]

/-- A numeral is one word. -/
theorem numeral_word {n : Numeral} (formed : n.WellFormed) : ∀ c ∈ n.chars, isWordChar c := by
  have digits {ds : List Char} (all : ∀ c ∈ ds, c.isDigit) : ∀ c ∈ ds, isWordChar c :=
    fun c member => digit_word (all c member)
  have point : ∀ c ∈ n.point, isWordChar c := by
    unfold Numeral.point
    split
    · simp
    · exact List.forall_mem_cons.mpr ⟨rfl, digits formed.fraction⟩
  have power : ∀ c ∈ n.power 'e', isWordChar c := by
    cases is : n.exponent with
    | none => simp [Numeral.power, is]
    | some parts =>
      obtain ⟨signed, digital⟩ := formed.exponent _ _ is
      have sign : ∀ c ∈ parts.1, isWordChar c := by
        rcases signed with sign | sign | sign <;> rw [sign] <;> exact List.all_eq_true.mp rfl
      simp only [Numeral.power, is]
      exact List.forall_mem_cons.mpr ⟨rfl, List.forall_mem_append.mpr ⟨sign, digits digital.2⟩⟩
  rw [← Numeral.written_chars, Numeral.written]
  exact List.forall_mem_append.mpr
    ⟨List.forall_mem_append.mpr ⟨digits formed.whole, point⟩, power⟩

/-- A text that reads as a number starts with a digit or a point. -/
theorem ofDecimalText?_start {n : Number} (reads : Number.ofDecimalText? cs = some n) :
    ∃ c tail, cs = c :: tail ∧ (c.isDigit ∨ c = '.') := by
  cases cs with
  | nil => simp [Number.ofDecimalText?, Numeral.ofChars?, Numeral.splitPoint] at reads
  | cons c tail =>
    refine ⟨c, tail, rfl, Classical.not_not.mp fun other => ?_⟩
    have notDigit : c.isDigit = false := by simpa using fun digit => other (.inl digit)
    have notPoint : Numeral.splitPoint (c :: tail) = ([], c :: tail) := by
      unfold Numeral.splitPoint
      split
      · rename_i same
        exact absurd (.inr (List.cons.inj same).1) other
      · rfl
    simp [Number.ofDecimalText?, Numeral.ofChars?, notDigit, notPoint] at reads

/-- The words that are neither numbers nor temporaries. -/
def fixedWords : List (List Char × Operand) :=
  [("s".toList, .context), ("l".toList, .locals), ("null".toList, .literal .null),
    ("true".toList, .literal (.bool true)), ("false".toList, .literal (.bool false)),
    ("Infinity".toList, .literal (.number (.infinite false)))]

/-- The operand that a word stands for. -/
def readWord (cs : List Char) : Option Operand :=
  if cs.head? = some 'v' then some (.temp (Nat.ofDigitChars 10 cs.tail 0))
  else (fixedWords.lookup cs).or ((Number.ofDecimalText? cs).map fun n => .literal (.number n))

theorem readWord_number {n : Number} (reads : Number.ofDecimalText? cs = some n) :
    readWord cs = some (.literal (.number n)) := by
  obtain ⟨c, tail, is, start⟩ := ofDecimalText?_start reads
  have noTemp : cs.head? ≠ some 'v' := by
    rw [is]
    rintro ⟨⟩
    simp at start
  have notFixed : fixedWords.lookup cs = none := by
    refine List.lookup_eq_none_iff.mpr fun entry member => ?_
    have letter : ∀ entry ∈ fixedWords, ∀ d ∈ entry.1.head?, d.isDigit = false ∧ d ≠ '.' := by
      simp [fixedWords]
    refine bne_iff_ne.mpr fun same => ?_
    obtain ⟨notDigit, notPoint⟩ := letter entry member c (by simp [← same, is])
    simp [notDigit, notPoint] at start
  rw [readWord, if_neg noTemp, notFixed, reads]
  rfl

/-- The quote or bracket that the text of an operand starts with, unless it is a word. -/
def mark : Operand → Option Char
  | .literal (.string _) => some '\x27'
  | .array _ => some '['
  | .object _ => some '\x7b'
  | _ => none

theorem word_chars {operand : Operand} (decodable : operand.Decodable)
    (word : mark operand = none) :
    (∀ c ∈ operand.chars, isWordChar c) ∧ readWord operand.chars = some operand := by
  cases decodable with
  | @literal value decodable =>
    cases value with
    | null => exact ⟨List.all_eq_true.mp rfl, rfl⟩
    | bool b => cases b <;> exact ⟨List.all_eq_true.mp rfl, rfl⟩
    | number n =>
      obtain ⟨rank, rfl⟩ := decodable
      by_cases finite : rank.val < infinityRank
      · obtain ⟨n, formed, text, value⟩ := Layout.chars_writes finite
        refine ⟨?_, readWord_number (Layout.chars_readsBack finite)⟩
        change ∀ c ∈ keyLayout.chars (.ranked false rank), isWordChar c
        rw [← text]
        exact numeral_word formed
      · have infinite : rank = Fin.last infinityRank := by
          apply Fin.ext
          have := rank.isLt
          simp only [Fin.val_last]
          omega
        subst infinite
        exact ⟨List.all_eq_true.mp rfl, rfl⟩
    | string s => simp [mark] at word
  | @temp id =>
    refine ⟨List.forall_mem_cons.mpr ⟨rfl, fun c member => digit_word ?_⟩, ?_⟩
    · exact Nat.isDigit_of_mem_toDigits (by decide) (by decide) member
    · exact congrArg (fun id => some (Operand.temp id)) Nat.ofDigitChars_ten_toDigits
  | context => exact ⟨List.all_eq_true.mp rfl, rfl⟩
  | locals => exact ⟨List.all_eq_true.mp rfl, rfl⟩
  | array | object => simp [mark] at word

/-- A character that a rendered operand can start with. -/
def isStart (c : Char) : Bool := isWordChar c || c == '\x27' || c == '[' || c == '\x7b'

theorem mark_chars {operand : Operand} {c : Char} (marked : mark operand = some c) :
    (∃ tail, operand.chars = c :: tail) ∧ isWordChar c = false ∧ isStart c := by
  unfold mark at marked
  split at marked
  all_goals simp only [Option.some.injEq, reduceCtorEq] at marked
  all_goals
    subst marked
    exact ⟨⟨_, rfl⟩, rfl, rfl⟩

theorem chars_start {operand : Operand} (decodable : operand.Decodable) :
    ∃ c tail, operand.chars = c :: tail ∧ isStart c ∧
      (mark operand = none → isWordChar c) := by
  cases marked : mark operand with
  | some c =>
    obtain ⟨⟨tail, is⟩, -, start⟩ := mark_chars marked
    exact ⟨c, tail, is, start, by simp⟩
  | none =>
    obtain ⟨inside, reads⟩ := word_chars decodable marked
    cases is : operand.chars with
    | nil =>
      have none : readWord [] = none := rfl
      simp [is, none] at reads
    | cons c tail =>
      have word : isWordChar c := inside c (by simp [is])
      exact ⟨c, tail, rfl, by simp [isStart, word], fun _ => word⟩

/-- The first character tells what kind of operand is rendered. -/
theorem mark_unique {a b : Operand} (decodable : a.Decodable) (decodable' : b.Decodable)
    (same : a.chars ++ rest = b.chars ++ rest') : mark a = mark b := by
  obtain ⟨c, tail, is, -, word⟩ := chars_start decodable
  obtain ⟨c', tail', is', -, word'⟩ := chars_start decodable'
  rw [is, is'] at same
  obtain ⟨rfl, -⟩ := List.cons.inj same
  have first {operand : Operand} {d : Char} {tail : List Char} (marked : mark operand = some d)
      (is : operand.chars = c :: tail) : d = c := by
    obtain ⟨⟨tail, is'⟩, -⟩ := mark_chars marked
    rw [is] at is'
    exact (List.cons.inj is').1.symm
  cases marked : mark a with
  | none =>
    cases marked' : mark b with
    | none => rfl
    | some d' =>
      obtain rfl := first marked' is'
      simp [(mark_chars marked').2.1] at word
      exact absurd marked word
  | some d =>
    obtain rfl := first marked is
    cases marked' : mark b with
    | none =>
      have isWord := word' marked'
      simp [(mark_chars marked).2.1] at isWord
    | some d' => rw [first marked' is']

end Words

section Operands

/-- The operand is determined by its text, and where the text ends too. -/
def Unique (a : Operand) : Prop :=
  ∀ (b : Operand) (rest rest' : List Char), b.Decodable → Stops rest → Stops rest' →
    a.chars ++ rest = b.chars ++ rest' → a = b ∧ rest = rest'

theorem unique_word {a : Operand} (decodable : a.Decodable) (word : mark a = none) : Unique a := by
  intro b rest rest' decodable' stops stops' same
  have word' : mark b = none := (mark_unique decodable decodable' same).symm.trans word
  obtain ⟨inside, reads⟩ := word_chars decodable word
  obtain ⟨inside', reads'⟩ := word_chars decodable' word'
  obtain ⟨text, after⟩ := word_unique inside inside' stops stops' same
  rw [text, reads'] at reads
  exact ⟨(Option.some.inj reads).symm, after⟩

theorem unique_string (s : String) : Unique (.literal (.string s)) := by
  intro b rest rest' decodable' _ _ same
  have decodable : (Operand.literal (.string s)).Decodable := by
    constructor
    trivial
  have marked := mark_unique decodable decodable' same
  unfold mark at marked
  split at marked
  case h_1 same' =>
    cases same'
    split at marked
    · rename_i s'
      obtain ⟨text, after⟩ := Text.literal_append_inj same
      exact ⟨by rw [String.toList_inj.mp text], after⟩
    all_goals simp at marked
  all_goals simp_all

/-- Rendered items with commas between them. -/
def separated {α : Type} (render : α → List Char) (items : List α) : List Char :=
  List.intercalate [','] (items.map render)

/-- After an item of a list comes a comma and the rest of the list, or what closes it. -/
theorem separated_cons {α : Type} (render : α → List Char) (item : α) (items : List α)
    (close : Char) (rest : List Char) :
    ∃ c tail, separated render (item :: items) ++ close :: rest = render item ++ c :: tail ∧
      (items = [] ∧ c = close ∧ tail = rest ∨
        items ≠ [] ∧ c = ',' ∧ tail = separated render items ++ close :: rest) := by
  cases items with
  | nil => exact ⟨close, rest, by simp [separated], .inl ⟨rfl, rfl, rfl⟩⟩
  | cons next items =>
    exact ⟨',', _, by simp [separated, List.intercalate_cons_cons], .inr ⟨by simp, rfl, rfl⟩⟩

theorem separated_unique {α : Type} {render : α → List Char} {close : Char}
    (notComma : close ≠ ',') {items items' : List α}
    (start : ∀ a, a ∈ items ∨ a ∈ items' → ∃ c tail, render a = c :: tail ∧ c ≠ close)
    (unique : ∀ a ∈ items, ∀ b ∈ items', ∀ c c' tail tail', c = ',' ∨ c = close →
      c' = ',' ∨ c' = close → render a ++ c :: tail = render b ++ c' :: tail' →
        a = b ∧ c = c' ∧ tail = tail')
    (same : separated render items ++ close :: rest = separated render items' ++ close :: rest') :
    items = items' ∧ rest = rest' := by
  have notClosed {a : α} {others : List α} {rest tail : List Char}
      (first : ∃ c tail, render a = c :: tail ∧ c ≠ close) :
      close :: tail ≠ separated render (a :: others) ++ close :: rest := by
    obtain ⟨c, tail', is, other⟩ := first
    obtain ⟨_, _, split, -⟩ := separated_cons render a others close rest
    rw [split, is]
    intro same
    exact other (List.cons.inj same).1.symm
  induction items generalizing items' with
  | nil =>
    cases items' with
    | nil => exact ⟨rfl, (List.cons.inj same).2⟩
    | cons b others' => exact absurd same (notClosed (start b (by simp)))
  | cons a others ih =>
    cases items' with
    | nil => exact absurd same.symm (notClosed (start a (by simp)))
    | cons b others' =>
      obtain ⟨c, tail, split, after⟩ := separated_cons render a others close rest
      obtain ⟨c', tail', split', after'⟩ := separated_cons render b others' close rest'
      have ends : c = ',' ∨ c = close := after.elim (fun h => .inr h.2.1) fun h => .inl h.2.1
      have ends' : c' = ',' ∨ c' = close := after'.elim (fun h => .inr h.2.1) fun h => .inl h.2.1
      rw [split, split'] at same
      obtain ⟨rfl, rfl, rfl⟩ := unique a (by simp) b (by simp) c c' tail tail' ends ends' same
      rcases after with ⟨rfl, rfl, rfl⟩ | ⟨-, rfl, rfl⟩
      · rcases after' with ⟨rfl, -, rfl⟩ | ⟨-, comma, -⟩
        · exact ⟨rfl, rfl⟩
        · exact absurd comma notComma
      · rcases after' with ⟨-, comma, -⟩ | ⟨-, -, same⟩
        · exact absurd comma.symm notComma
        · obtain ⟨rfl, rfl⟩ := ih
            (fun a member => start a (member.imp (List.mem_cons_of_mem _) (List.mem_cons_of_mem _)))
            (fun a member b member' => unique a (by simp [member]) b (by simp [member'])) same
          exact ⟨rfl, rfl⟩

theorem elementsChars_eq (elements : List Operand) :
    Operand.elementsChars elements = separated Operand.chars elements := by
  induction elements with
  | nil => rfl
  | cons element others ih =>
    cases others with
    | nil => simp [Operand.elementsChars, separated]
    | cons => simp [Operand.elementsChars, ih, separated, List.intercalate_cons_cons]

/-- An entry of an object, with its key. -/
def entryChars (entry : String × Operand) : List Char :=
  keyChars entry.1 ++ ':' :: entry.2.chars

theorem entriesChars_eq (entries : List (String × Operand)) :
    Operand.entriesChars entries = separated entryChars entries := by
  induction entries with
  | nil => rfl
  | cons entry others ih =>
    obtain ⟨key, value⟩ := entry
    cases others with
    | nil => simp [Operand.entriesChars, separated, entryChars]
    | cons => simp [Operand.entriesChars, ih, separated, entryChars, List.intercalate_cons_cons]

/-- Operands in a list that a character of no word closes. -/
theorem operands_unique {close : Char} (stop : isWordChar close = false)
    (noStart : isStart close = false) (notComma : close ≠ ',') {elements elements' : List Operand}
    (decodable : ∀ e ∈ elements, e.Decodable) (unique : ∀ e ∈ elements, Unique e)
    (decodable' : ∀ e ∈ elements', e.Decodable)
    (same : separated Operand.chars elements ++ close :: rest
      = separated Operand.chars elements' ++ close :: rest') :
    elements = elements' ∧ rest = rest' := by
  have stops {c : Char} (ends : c = ',' ∨ c = close) (tail : List Char) : Stops (c :: tail) := by
    rcases ends with rfl | rfl
    · rfl
    · simp [Stops, stop]
  refine separated_unique notComma ?_ ?_ same
  · intro e member
    obtain ⟨c, tail, is, start, -⟩ := chars_start (member.elim (decodable e) (decodable' e))
    refine ⟨c, tail, is, ?_⟩
    rintro rfl
    simp [noStart] at start
  · intro a member b member' c c' tail tail' ends ends' same
    obtain ⟨rfl, after⟩ :=
      unique a member b _ _ (decodable' b member') (stops ends tail) (stops ends' tail') same
    exact ⟨rfl, List.cons.inj after⟩

theorem unique_array {elements : List Operand} (decodable : ∀ e ∈ elements, e.Decodable)
    (unique : ∀ e ∈ elements, Unique e) : Unique (.array elements) := by
  intro b rest rest' decodable' _ _ same
  have marked := mark_unique (.array decodable) decodable' same
  cases decodable' with
  | array decodable' =>
    simp only [Operand.chars, elementsChars_eq, List.cons_append, List.append_assoc,
      List.nil_append, List.cons.injEq, true_and] at same
    obtain ⟨rfl, rfl⟩ :=
      operands_unique rfl rfl (by decide) decodable unique decodable' same
    exact ⟨rfl, rfl⟩
  | @literal value => cases value <;> simp [mark] at marked
  | temp | context | locals | object => simp [mark] at marked

theorem names_unique {name name' : List Char} (all : ∀ c ∈ name, isNamePart c)
    (all' : ∀ c ∈ name', isNamePart c) {close : Char} (stop : isNamePart close = false)
    (same : name ++ close :: rest = name' ++ close :: rest') : name = name' ∧ rest = rest' := by
  have first : name = name' := by
    have before : (name ++ close :: rest).takeWhile isNamePart = name :=
      List.takeWhile_exact all (by simpa using stop)
    rw [← before, same, List.takeWhile_exact all' (by simpa using stop)]
  subst first
  exact ⟨rfl, (List.cons.inj (List.append_cancel_left same)).2⟩

/-- A key is a plain name or a literal. -/
theorem keyChars_cases (key : String) :
    (∃ c tail, keyChars key = key.toList ∧ key.toList = c :: tail ∧ isNameStart c ∧
      ∀ d ∈ key.toList, isNamePart d) ∨ keyChars key = Text.literal key.toList := by
  by_cases plain : isPlainName key.toList
  · obtain ⟨c, tail, is, start, all⟩ := isPlainName_iff.mp plain
    refine .inl ⟨c, tail, by rw [keyChars, if_pos plain], is, start, ?_⟩
    rw [is]
    exact List.forall_mem_cons.mpr ⟨by simp [isNamePart, start], all⟩
  · exact .inr (by rw [keyChars, if_neg plain])

theorem keyChars_start (key : String) : ∃ c tail, keyChars key = c :: tail ∧ c ≠ '\x7d' := by
  rcases keyChars_cases key with ⟨c, tail, bare, is, start, -⟩ | quoted
  · refine ⟨c, tail, bare.trans is, ?_⟩
    rintro rfl
    simp [isNameStart] at start
  · exact ⟨'\x27', _, quoted, by decide⟩

theorem key_unique {key key' : String}
    (same : keyChars key ++ ':' :: rest = keyChars key' ++ ':' :: rest') :
    key = key' ∧ rest = rest' := by
  have apart {name text rest rest' tail : List Char} {c : Char} (is : name = c :: tail)
      (start : isNameStart c) : name ++ rest ≠ Text.literal text ++ rest' := by
    rw [is]
    intro same
    obtain ⟨rfl, -⟩ := List.cons.inj same
    simp [isNameStart] at start
  rcases keyChars_cases key with ⟨c, tail, bare, is, start, all⟩ | quoted
  · rcases keyChars_cases key' with ⟨c', tail', bare', is', start', all'⟩ | quoted'
    · rw [bare, bare'] at same
      obtain ⟨text, after⟩ := names_unique all all' rfl same
      exact ⟨String.toList_inj.mp text, after⟩
    · rw [bare, quoted'] at same
      exact absurd same (apart is start)
  · rcases keyChars_cases key' with ⟨c', tail', bare', is', start', all'⟩ | quoted'
    · rw [quoted, bare'] at same
      exact absurd same.symm (apart is' start')
    · rw [quoted, quoted'] at same
      obtain ⟨text, after⟩ := Text.literal_append_inj same
      exact ⟨String.toList_inj.mp text, (List.cons.inj after).2⟩

theorem unique_object {entries : List (String × Operand)}
    (decodable : ∀ e ∈ entries, e.2.Decodable) (unique : ∀ e ∈ entries, Unique e.2) :
    Unique (.object entries) := by
  intro b rest rest' decodable' _ _ same
  have marked := mark_unique (.object decodable) decodable' same
  cases decodable' with
  | @object entries' decodable' =>
    simp only [Operand.chars, entriesChars_eq, List.cons_append, List.append_assoc,
      List.nil_append, List.cons.injEq, true_and] at same
    have stops {c : Char} (ends : c = ',' ∨ c = '\x7d') (tail : List Char) : Stops (c :: tail) := by
      rcases ends with rfl | rfl <;> rfl
    have each : ∀ e ∈ entries, ∀ e' ∈ entries', ∀ c c' tail tail', c = ',' ∨ c = '\x7d' →
        c' = ',' ∨ c' = '\x7d' → entryChars e ++ c :: tail = entryChars e' ++ c' :: tail' →
          e = e' ∧ c = c' ∧ tail = tail' := by
      rintro ⟨key, value⟩ member ⟨key', value'⟩ member' c c' tail tail' ends ends' same
      simp only [entryChars, List.append_assoc, List.cons_append] at same
      obtain ⟨keys, after⟩ := key_unique same
      obtain ⟨values, after⟩ := unique _ member value' _ _ (decodable' _ member')
        (stops ends tail) (stops ends' tail') after
      exact ⟨Prod.ext keys values, List.cons.inj after⟩
    have first (e : String × Operand) : ∃ c tail, entryChars e = c :: tail ∧ c ≠ '\x7d' := by
      obtain ⟨c, tail, is, other⟩ := keyChars_start e.1
      exact ⟨c, _, by rw [entryChars, is, List.cons_append], other⟩
    obtain ⟨rfl, rfl⟩ := separated_unique (by decide) (fun e _ => first e) each same
    exact ⟨rfl, rfl⟩
  | @literal value => cases value <;> simp [mark] at marked
  | temp | context | locals | array => simp [mark] at marked

theorem operand_unique {a : Operand} (decodable : a.Decodable) : Unique a := by
  induction decodable with
  | @literal value decodable =>
    cases value with
    | string s => exact unique_string s
    | null | bool | number => exact unique_word (.literal decodable) rfl
  | temp => exact unique_word .temp rfl
  | context => exact unique_word .context rfl
  | locals => exact unique_word .locals rfl
  | array decodable ih => exact unique_array decodable ih
  | object decodable ih => exact unique_object decodable ih

end Operands

section Programs

theorem operand_close {a b : Operand} {c c' : Char} (decodable : a.Decodable)
    (decodable' : b.Decodable) (stop : isWordChar c = false) (stop' : isWordChar c' = false)
    (same : a.chars ++ c :: rest = b.chars ++ c' :: rest') : a = b ∧ c = c' ∧ rest = rest' := by
  obtain ⟨operands, after⟩ := operand_unique decodable b _ _ decodable'
    (by simpa [Stops] using stop) (by simpa [Stops] using stop') same
  exact ⟨operands, (List.cons.inj after).1, (List.cons.inj after).2⟩

/-- The locals are tested for a name only where an operand would have ended. -/
theorem locals_not_operand {a : Operand} (decodable : a.Decodable) {tail : List Char} :
    'l' :: '&' :: tail ≠ a.chars ++ ')' :: rest := by
  intro same
  obtain ⟨-, differs, -⟩ := operand_close .locals decodable (c := '&') rfl rfl same
  simp at differs

theorem not_operand {a : Operand} (decodable : a.Decodable) {tail : List Char} :
    '!' :: tail ≠ a.chars ++ rest := by
  intro same
  obtain ⟨c, tail, is, start, -⟩ := chars_start decodable
  rw [is] at same
  obtain ⟨rfl, -⟩ := List.cons.inj same
  simp [isStart, isWordChar, isNamePart, isNameStart] at start

/-- The text of a test, with its first characters apart. -/
theorem test_chars (test : Test) : test.chars = match test with
    | .localsHave name =>
      'l' :: '&' :: ("&(".toList ++ (Text.literal name.toList ++ " in l)".toList))
    | .contextInstead name =>
      '!' :: ("(l&&(".toList ++ (Text.literal name.toList ++ " in l))&&s".toList))
    | .truthy operand => operand.chars := by
  cases test with
  | localsHave name => exact List.append_assoc ..
  | contextInstead name => exact List.append_assoc ..
  | truthy operand => rfl

theorem test_unique {test test' : Test} (decodable : test.Decodable)
    (decodable' : test'.Decodable)
    (same : test.chars ++ ')' :: rest = test'.chars ++ ')' :: rest') :
    test = test' ∧ rest = rest' := by
  rw [test_chars test, test_chars test'] at same
  cases test with
  | localsHave name =>
    cases test' with
    | localsHave name' =>
      simp only [List.cons_append, List.append_assoc, List.cons.injEq, true_and,
        List.append_cancel_left_eq] at same
      obtain ⟨text, after⟩ := Text.literal_append_inj same
      exact ⟨by rw [String.toList_inj.mp text], by simpa using after⟩
    | contextInstead name' => simp at same
    | truthy a => exact absurd same (locals_not_operand decodable')
  | contextInstead name =>
    cases test' with
    | localsHave name' => simp at same
    | contextInstead name' =>
      simp only [List.cons_append, List.append_assoc, List.cons.injEq, true_and,
        List.append_cancel_left_eq] at same
      obtain ⟨text, after⟩ := Text.literal_append_inj same
      exact ⟨by rw [String.toList_inj.mp text], by simpa using after⟩
    | truthy a => exact absurd same (not_operand decodable')
  | truthy a =>
    cases test' with
    | localsHave name' => exact absurd same.symm (locals_not_operand decodable)
    | contextInstead name' => exact absurd same.symm (not_operand decodable)
    | truthy b =>
      obtain ⟨rfl, -, after⟩ := operand_close decodable decodable' rfl rfl same
      exact ⟨rfl, after⟩

theorem read_unique {read read' : Read} (decodable : read.Decodable)
    (decodable' : read'.Decodable)
    (same : read.chars ++ ';' :: rest = read'.chars ++ ';' :: rest') :
    read = read' ∧ rest = rest' := by
  cases read with
  | member object name =>
    cases read' with
    | member object' name' =>
      simp only [Read.chars, List.cons_append, List.append_assoc, List.cons.injEq, true_and]
        at same
      obtain ⟨rfl, -, same⟩ := operand_close decodable.1 decodable'.1 rfl rfl same
      obtain ⟨text, after⟩ := names_unique decodable.2 decodable'.2 rfl (List.cons.inj same).2
      exact ⟨by rw [String.toList_inj.mp text], after⟩
    | computed object' key' =>
      simp only [Read.chars, List.cons_append, List.append_assoc, List.cons.injEq, true_and]
        at same
      obtain ⟨-, -, same⟩ := operand_close decodable.1 decodable'.1 rfl rfl same
      simp at same
  | computed object key =>
    cases read' with
    | member object' name' =>
      simp only [Read.chars, List.cons_append, List.append_assoc, List.cons.injEq, true_and]
        at same
      obtain ⟨-, -, same⟩ := operand_close decodable.1 decodable'.1 rfl rfl same
      simp at same
    | computed object' key' =>
      simp only [Read.chars, List.cons_append, List.append_assoc, List.nil_append,
        List.cons.injEq, true_and] at same
      obtain ⟨rfl, -, same⟩ := operand_close decodable.1 decodable'.1 rfl rfl same
      obtain ⟨rfl, -, same⟩ :=
        operand_close decodable.2 decodable'.2 rfl rfl (List.cons.inj same).2
      exact ⟨rfl, (List.cons.inj same).2⟩

/-- The text of a statement, with what ends each part apart. -/
theorem statement_chars (statement : Statement) : statement.chars =
    "if(".toList ++ statement.test.chars ++ [')', '\x7b'] ++ tempChars statement.target ++
      '=' :: (statement.read.chars ++ [';', '\x7d']) := rfl

theorem statement_unique {statement statement' : Statement} (decodable : statement.Decodable)
    (decodable' : statement'.Decodable)
    (same : statement.chars ++ rest = statement'.chars ++ rest') :
    statement = statement' ∧ rest = rest' := by
  obtain ⟨test, target, read⟩ := statement
  obtain ⟨test', target', read'⟩ := statement'
  simp only [statement_chars, List.append_assoc, List.append_cancel_left_eq, List.cons_append,
    List.nil_append] at same
  obtain ⟨tests, after⟩ := test_unique decodable.test decodable'.test same
  obtain ⟨temps, -, after⟩ := operand_close (a := .temp target) (b := .temp target') .temp .temp
    rfl rfl (List.cons.inj after).2
  obtain ⟨reads, after⟩ := read_unique decodable.read decodable'.read after
  have same : Statement.mk test target read = ⟨test', target', read'⟩ :=
    (Statement.mk.injEq ..).mpr ⟨tests, Operand.temp.inj temps, reads⟩
  exact ⟨same, (List.cons.inj after).2⟩

theorem body_unique {body body' : List Statement} (decodable : ∀ s ∈ body, s.Decodable)
    (decodable' : ∀ s ∈ body', s.Decodable)
    (same : body.flatMap Statement.chars ++ 'r' :: rest
      = body'.flatMap Statement.chars ++ 'r' :: rest') :
    body = body' ∧ rest = rest' := by
  have start (s : Statement) : ∃ tail, s.chars = 'i' :: tail := ⟨_, rfl⟩
  induction body generalizing body' with
  | nil =>
    cases body' with
    | nil => exact ⟨rfl, (List.cons.inj same).2⟩
    | cons s' others' =>
      obtain ⟨tail, is⟩ := start s'
      simp [is] at same
  | cons s others ih =>
    cases body' with
    | nil =>
      obtain ⟨tail, is⟩ := start s
      simp [is] at same
    | cons s' others' =>
      simp only [List.flatMap_cons, List.append_assoc] at same
      obtain ⟨first, after⟩ :=
        statement_unique (decodable s (by simp)) (decodable' s' (by simp)) same
      obtain ⟨others, rest⟩ := ih (fun s member => decodable s (by simp [member]))
        (fun s member => decodable' s (by simp [member])) after
      exact ⟨by rw [first, others], rest⟩

theorem vars_unique {vars vars' : List Nat} {c c' : Char} (other : c ≠ 'v') (other' : c' ≠ 'v')
    (same : Program.varsChars vars ++ c :: rest = Program.varsChars vars' ++ c' :: rest') :
    vars = vars' ∧ c :: rest = c' :: rest' := by
  have lead : "var ".toList = ['v', 'a', 'r', ' '] := rfl
  have temps (ids : List Nat) : List.intercalate [','] (ids.map tempChars)
      = separated Operand.chars (ids.map .temp) := by
    rw [separated, List.map_map]
    rfl
  have all (ids : List Nat) : ∀ e ∈ ids.map Operand.temp, e.Decodable ∧ Unique e := by
    intro e member
    obtain ⟨id, -, rfl⟩ := List.mem_map.mp member
    exact ⟨.temp, unique_word .temp rfl⟩
  cases vars with
  | nil =>
    cases vars' with
    | nil => exact ⟨rfl, same⟩
    | cons =>
      simp only [Program.varsChars, lead, List.nil_append, List.cons_append] at same
      exact absurd (List.cons.inj same).1 other
  | cons id ids =>
    cases vars' with
    | nil =>
      simp only [Program.varsChars, lead, List.nil_append, List.cons_append] at same
      exact absurd (List.cons.inj same).1.symm other'
    | cons id' ids' =>
      simp only [Program.varsChars, temps, List.append_assoc, List.append_cancel_left_eq,
        List.cons_append, List.nil_append] at same
      obtain ⟨same, after⟩ := operands_unique rfl rfl (by decide)
        (fun e member => (all _ e member).1) (fun e member => (all _ e member).2)
        (fun e member => (all _ e member).1) same
      exact ⟨(List.map_inj_right fun _ _ => Operand.temp.inj).mp same, after⟩

/-- What follows the declarations starts with a statement or with the result. -/
theorem after_vars (program : Program) : ∃ c tail, c ≠ 'v' ∧
    program.body.flatMap Statement.chars ++
      ("return ".toList ++ (program.result.chars ++ [';'])) = c :: tail := by
  cases program.body with
  | nil => exact ⟨'r', _, by decide, rfl⟩
  | cons => exact ⟨'i', _, by decide, rfl⟩

end Programs
end Decoding

/-- Programs with equal texts are equal. -/
theorem Program.chars_unique {program program' : Program} (decodable : program.Decodable)
    (decodable' : program'.Decodable) (same : program.chars = program'.chars) :
    program = program' := by
  obtain ⟨c, tail, other, is⟩ := Decoding.after_vars program
  obtain ⟨c', tail', other', is'⟩ := Decoding.after_vars program'
  have lead : "return ".toList = 'r' :: "eturn ".toList := rfl
  simp only [chars, List.append_assoc, is, is'] at same
  obtain ⟨vars, after⟩ := Decoding.vars_unique other other' same
  rw [← is, ← is', lead] at after
  obtain ⟨body, after⟩ := Decoding.body_unique decodable.body decodable'.body after
  obtain ⟨result, -, -⟩ := Decoding.operand_close decodable.result decodable'.result rfl rfl
    (List.append_cancel_left after)
  obtain ⟨vars, body, result⟩ := program
  exact (Program.mk.injEq ..).mpr ⟨vars, body, result⟩

end DataBinding
