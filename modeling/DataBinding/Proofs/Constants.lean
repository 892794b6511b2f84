import DataBinding.Proofs.Parsing
import DataBinding.Proofs.Rendering
import DataBinding.Program.Accessor

/-! Constants: a rendered literal, array or object of literals compiles to the program that
returns it. Each part of the rendering is the text of a derivation, whatever follows it, and
the tree of that derivation generates the part. -/
namespace DataBinding

/-- A number has a text to be read from if it is finite and its sign, that of zero included,
is not set; every other literal has one. -/
def Literal.Printable : Literal → Prop
  | .number n => n.isFinite ∧ ¬ n.isNegative
  | _ => True

/-- Literals, and arrays and objects of constants. -/
inductive Operand.IsConstant : Operand → Prop
  | literal {value} : value.Printable → IsConstant (.literal value)
  | array {elements} : (∀ element ∈ elements, IsConstant element) → IsConstant (.array elements)
  | object {entries} : (∀ entry ∈ entries, IsConstant entry.2) → IsConstant (.object entries)

namespace Rendering
open Token Grammar

variable {cs rest : List Char} {tokens more : List Token} {next : Nat}

/-- The text is made of these tokens wherever it is delimited. -/
def Written (cs : List Char) (tokens : List Token) : Prop :=
  ∀ rest more, Delimited rest → Lexes rest more → Lexes (cs ++ rest) (tokens ++ more)

theorem Written.nil : Written [] [] := fun _ _ _ after => after

theorem Written.before {c : Char} (written : Written cs tokens) (punctuation : isPunctuation c)
    (notPoint : c ≠ '.') (delimited : Delimited rest) (after : Lexes rest more) :
    Lexes (c :: (cs ++ rest)) (Token.punctuation c :: (tokens ++ more)) :=
  (written rest more delimited after).mark punctuation notPoint

/-- A text between two brackets. -/
theorem Written.enclosed {left right : Char} (written : Written cs tokens)
    (isLeft : isPunctuation left ∧ left ≠ '.') (isRight : isPunctuation right ∧ right ≠ '.') :
    Written (left :: (cs ++ [right]))
      (punctuation left :: (tokens ++ [punctuation right])) := by
  intro rest more _ after
  have closed := after.mark isRight.1 isRight.2
  have whole := written.before isLeft.1 isLeft.2 (delimited_cons isRight.1 isRight.2) closed
  simpa using whole

/-- Two texts with a mark between them. -/
theorem Written.joined {c : Char} {cs' : List Char} {tokens' : List Token}
    (written : Written cs tokens) (written' : Written cs' tokens') (punctuation : isPunctuation c)
    (notPoint : c ≠ '.') :
    Written (cs ++ c :: cs') (tokens ++ Token.punctuation c :: tokens') := by
  intro rest more delimited after
  have right := written'.before punctuation notPoint delimited after
  simpa using written _ _ (delimited_cons punctuation notPoint) right

theorem written_literal (text : String) : Written (Text.literal text.toList)
    [constant (String.ofList (Text.literal text.toList)) (.string text)] := by
  intro rest more _ after
  simpa [constant] using after.literal text.toList

theorem written_name (name : String) (plain : isPlainName name.toList) :
    Written name.toList [Grammar.name name] := by
  obtain ⟨c, tail, is, start, all⟩ := isPlainName_iff.mp plain
  have text : String.ofList (c :: tail) = name := by rw [← is, String.ofList_toList]
  intro rest more delimited after
  have whole := after.name delimited start all
  rwa [text, ← is] at whole

theorem written_number {rank : Fin (infinityRank + 1)} (finite : rank.val < infinityRank) :
    Written (keyLayout.chars (.ranked false rank))
      [constant (String.ofList (keyLayout.chars (.ranked false rank)))
        (.number (.ranked false rank))] := by
  obtain ⟨n, formed, text, value⟩ := Layout.chars_writes finite
  intro rest more delimited after
  have whole := after.number delimited formed
  rwa [text, value] at whole

/-- A rendered literal is a head by itself. -/
theorem literal_head {value : Literal} (printable : value.Printable) :
    ∃ head : Head, Written value.chars head.tokens ∧ head.tree = .literal value := by
  cases value with
  | null => exact ⟨.keyword .null, written_name "null" rfl, rfl⟩
  | bool b =>
    cases b
    · exact ⟨.keyword .false, written_name "false" rfl, rfl⟩
    · exact ⟨.keyword .true, written_name "true" rfl, rfl⟩
  | number n =>
    obtain ⟨finite, positive⟩ := printable
    cases n with
    | nan => simp [Number.isFinite] at finite
    | ranked negative rank =>
      obtain rfl : negative = false := by simpa [Number.isNegative] using positive
      have inside : rank.val < infinityRank := by simpa [Number.isFinite] using finite
      exact ⟨.constant _ (.number (.ranked false rank)), written_number inside, rfl⟩
  | string s => exact ⟨.constant _ (.string s), written_literal s, rfl⟩

/-- A rendered key is one key for the same property, bare or quoted. -/
theorem keyChars_key (key : String) : ∃ k : Key, k.property = key ∧ Written (keyChars key) [k.token] := by
  by_cases plain : isPlainName key.toList
  · refine ⟨.name key, rfl, ?_⟩
    simpa [keyChars, plain, Key.token] using written_name _ plain
  · refine ⟨.constant (String.ofList (Text.literal key.toList)) (.string key), rfl, ?_⟩
    simpa [keyChars, plain, Key.token] using written_literal key

/-- The operand is rendered as the text of a primary that generates it alone. -/
def Readable (operand : Operand) : Prop :=
  ∃ d : Primary, Written operand.chars d.tokens ∧
    ∀ next, d.tree.generateFrom next = ⟨operand, [], [], next⟩

/-- What is rendered after an element: a comma and the other elements, if there are any. -/
theorem moreElements (elements : List Operand) (readable : ∀ e ∈ elements, Readable e)
    {first : List Char} {tokens : List Token} (written : Written first tokens) :
    ∃ m : MoreElements, (∀ next, Expression.generateElements next m.trees = ⟨elements, [], [], next⟩) ∧
      Written (match elements with
        | [] => first
        | _ => first ++ ',' :: Operand.elementsChars elements) (tokens ++ m.tokens) := by
  induction elements generalizing first tokens with
  | nil => exact ⟨.done, fun next => rfl, by simpa [MoreElements.tokens] using written⟩
  | cons e others ih =>
    obtain ⟨d, writtenFirst, generates⟩ := readable e (by simp)
    obtain ⟨m, generatesMore, writtenMore⟩ :=
      ih (fun e' member => readable e' (by simp [member])) writtenFirst
    refine ⟨.more d m, fun next => ?_, ?_⟩
    · simp [MoreElements.trees, Expression.generateElements, generates, generatesMore]
    · have joined := written.joined writtenMore (c := ',') rfl (by decide)
      cases others <;> simpa [Operand.elementsChars, MoreElements.tokens] using joined

theorem readable_array {elements : List Operand} (readable : ∀ e ∈ elements, Readable e) :
    Readable (.array elements) := by
  have brackets {d : Elements} (written : Written (Operand.elementsChars elements) d.tokens)
      (generates : ∀ next, Expression.generateElements next d.trees = ⟨elements, [], [], next⟩) :
      Readable (.array elements) := by
    refine ⟨.mk (.array d) .done, ?_, fun next => ?_⟩
    · simpa [Operand.chars, Primary.tokens, Head.tokens, Suffixes.tokens] using
        written.enclosed ⟨rfl, by decide⟩ ⟨rfl, by decide⟩
    · simp [Primary.tree, Head.tree, Suffixes.onto, Expression.generateFrom, generates]
  cases elements with
  | nil => exact brackets (d := .none) Written.nil fun next => rfl
  | cons e others =>
    obtain ⟨d, written, generates⟩ := readable e (by simp)
    obtain ⟨m, generatesMore, writtenMore⟩ :=
      moreElements others (fun e' member => readable e' (by simp [member])) written
    refine brackets (d := .some d m) ?_ fun next => ?_
    · cases others <;> simpa [Operand.elementsChars, Elements.tokens] using writtenMore
    · simp [Elements.trees, Expression.generateElements, generates, generatesMore]

/-- An entry of an object, up to what follows its value. -/
theorem written_entry {key : String} {k : Key} (writtenKey : Written (keyChars key) [k.token])
    {tokens : List Token} (written : Written cs tokens) :
    Written (keyChars key ++ ':' :: cs) (k.token :: Token.punctuation ':' :: tokens) := by
  simpa using writtenKey.joined written (c := ':') rfl (by decide)

theorem moreEntries (entries : List (String × Operand)) (readable : ∀ e ∈ entries, Readable e.2)
    {first : List Char} {tokens : List Token} (written : Written first tokens) :
    ∃ m : MoreEntries, (∀ next, Expression.generateProperties next m.trees = ⟨entries, [], [], next⟩) ∧
      Written (match entries with
        | [] => first
        | _ => first ++ ',' :: Operand.entriesChars entries) (tokens ++ m.tokens) := by
  induction entries generalizing first tokens with
  | nil => exact ⟨.done, fun next => rfl, by simpa [MoreEntries.tokens] using written⟩
  | cons entry others ih =>
    obtain ⟨key, value⟩ := entry
    obtain ⟨d, writtenValue, generates⟩ := readable _ List.mem_cons_self
    obtain ⟨k, property, writtenKey⟩ := keyChars_key key
    obtain ⟨m, generatesMore, writtenMore⟩ :=
      ih (fun e member => readable e (by simp [member])) (written_entry writtenKey writtenValue)
    refine ⟨.more k d m, fun next => ?_, ?_⟩
    · simp [MoreEntries.trees, Expression.generateProperties, generates, generatesMore, property]
    · have joined := written.joined writtenMore (c := ',') rfl (by decide)
      cases others <;> simpa [Operand.entriesChars, MoreEntries.tokens] using joined

theorem readable_object {entries : List (String × Operand)}
    (readable : ∀ e ∈ entries, Readable e.2) : Readable (.object entries) := by
  have brackets {d : Entries} (written : Written (Operand.entriesChars entries) d.tokens)
      (generates : ∀ next, Expression.generateProperties next d.trees = ⟨entries, [], [], next⟩) :
      Readable (.object entries) := by
    refine ⟨.mk (.object d) .done, ?_, fun next => ?_⟩
    · simpa [Operand.chars, Primary.tokens, Head.tokens, Suffixes.tokens] using
        written.enclosed ⟨rfl, by decide⟩ ⟨rfl, by decide⟩
    · simp [Primary.tree, Head.tree, Suffixes.onto, Expression.generateFrom, generates]
  cases entries with
  | nil => exact brackets (d := .none) Written.nil fun next => rfl
  | cons entry others =>
    obtain ⟨key, value⟩ := entry
    obtain ⟨d, writtenValue, generates⟩ := readable _ List.mem_cons_self
    obtain ⟨k, property, writtenKey⟩ := keyChars_key key
    obtain ⟨m, generatesMore, writtenMore⟩ := moreEntries others
      (fun e member => readable e (by simp [member])) (written_entry writtenKey writtenValue)
    refine brackets (d := .some k d m) ?_ fun next => ?_
    · cases others <;> simpa [Operand.entriesChars, Entries.tokens] using writtenMore
    · simp [Entries.trees, Expression.generateProperties, generates, generatesMore, property]

theorem readable_constant {operand : Operand} (constant : operand.IsConstant) :
    Readable operand := by
  induction constant with
  | literal printable =>
    obtain ⟨head, written, tree⟩ := literal_head printable
    refine ⟨.mk head .done, ?_, fun next => ?_⟩
    · simpa [Operand.chars, Primary.tokens, Suffixes.tokens] using written
    · simp [Primary.tree, Suffixes.onto, tree, Expression.generateFrom]
  | array _ ih => exact readable_array ih
  | object _ ih => exact readable_object ih

theorem Written.scan {tokens : List Token} (written : Written cs tokens) :
    Token.scan (String.ofList cs) = .ok tokens := by
  have whole := written [] [] delimited_nil .done
  simp only [List.append_nil] at whole
  exact scan_eq_ok_iff.mpr (by rwa [String.toList_ofList])

end Rendering

/-- A text compiles to the program of the derivation of its tokens. -/
theorem Accessor.ofText_derived {text : String} {d : Grammar.Primary}
    (scanned : Token.scan text = .ok d.tokens) :
    ofText text = .ok ⟨some text, .ofExpression (.program d.tree)⟩ := by
  have parsed : Expression.ofTokens d.tokens = .ok (.program d.tree) :=
    (Expression.ofTokens_eq_ok_iff (Token.scan_eq_ok_iff.mp scanned).scanned).mpr ⟨d, rfl, rfl⟩
  have read : Expression.ofText text = .ok (.program d.tree) := by
    rw [Expression.ofText, scanned]
    simp only [parsed]
    rfl
  rw [ofText, read]
  rfl

/-- A rendered constant compiles to the program with no temporaries and no statements that
returns it. A rendered string is one token with that string for its value, and a bare key one
name. -/
theorem Accessor.ofText_rendered :
    (∀ operand : Operand, operand.IsConstant →
      ofText (String.ofList operand.chars)
        = .ok ⟨some (String.ofList operand.chars), ⟨[], [], operand⟩⟩) ∧
      (∀ s : String, Token.scan (String.ofList (Text.literal s.toList))
        = .ok [⟨String.ofList (Text.literal s.toList), some (.string s), false⟩]) ∧
      ∀ key : String, isPlainName key.toList → String.ofList (keyChars key) = key ∧
        Token.scan key = .ok [⟨key, none, true⟩] := by
  refine ⟨fun operand constant => ?_, fun s => (Rendering.written_literal s).scan, ?_⟩
  · obtain ⟨d, written, generates⟩ := Rendering.readable_constant constant
    rw [ofText_derived written.scan]
    simp [Program.ofExpression, Expression.generateFrom, generates]
  · intro key plain
    have scanned := (Rendering.written_name _ plain).scan
    rw [String.ofList_toList] at scanned
    exact ⟨by simp [keyChars, plain], scanned⟩

/-- An object with an empty key twice and a keyword for a key, over 10^21, a string with a quote
and a character of two units, and an empty array. -/
def nestedConstant : Operand :=
  .object [("", .literal .null),
    ("true", .array [.literal (.number (.ranked false ⟨0x444b1ae4d6e2ef50, by decide⟩)),
      .literal (.string "it's 😀"), .array []]),
    ("", .literal (.bool true))]

theorem nestedConstant_isConstant : nestedConstant.IsConstant := by
  refine .object fun entry member => ?_
  simp only [List.mem_cons, List.not_mem_nil, or_false] at member
  rcases member with rfl | rfl | rfl
  · exact .literal trivial
  · refine .array fun element member => ?_
    simp only [List.mem_cons, List.not_mem_nil, or_false] at member
    rcases member with rfl | rfl | rfl
    · exact .literal ⟨by decide, by decide⟩
    · exact .literal trivial
    · exact .array fun _ none => by simp at none
  · exact .literal trivial

theorem Accessor.ofText_rendered_nested :
    nestedConstant.IsConstant ∧
      ofText (String.ofList nestedConstant.chars)
        = .ok ⟨some (String.ofList nestedConstant.chars), ⟨[], [], nestedConstant⟩⟩ ∧
      isPlainName "true".toList ∧ Token.scan "true" = .ok [⟨"true", none, true⟩] :=
  ⟨nestedConstant_isConstant, Accessor.ofText_rendered.1 _ nestedConstant_isConstant, rfl,
    (Accessor.ofText_rendered.2.2 "true" rfl).2⟩

end DataBinding
