import DataBinding.Proofs.Constants
import DataBinding.Proofs.Decoding

/-! Rendering is injective on compiled texts. What the scanner makes of any text, whatever is
quoted in it, are names of name characters and numbers without a sign; derivations and the
generator hand these on, so the programs of two texts can be decoded. -/
namespace DataBinding
open Token

/-- The literals and names of an expression are such as a text can have. -/
inductive Expression.Decodable : Expression → Prop
  | program {body} : Decodable body → Decodable (.program body)
  | literal {value} : value.Decodable → Decodable (.literal value)
  | array {elements} : (∀ e ∈ elements, Decodable e) → Decodable (.array elements)
  | object {properties} : (∀ e ∈ properties, Decodable e.2) → Decodable (.object properties)
  | identifier {name} : NameLike name → Decodable (.identifier name)
  | this : Decodable .this
  | locals : Decodable .locals
  | member {holder property computed} : Decodable holder → Decodable property →
      Decodable (.member holder property computed)

namespace Token

/-- A name has name characters, and a number has no sign. -/
structure Decodable (token : Token) : Prop where
  name : token.identifier → NameLike token.text
  number : ∀ n, token.value = some (.number n) → ∃ rank, n = .ranked false rank

theorem Lexeme.decodable {cs : List Char} {token : Token} (lexeme : Lexeme cs token) :
    token.Decodable := by
  cases lexeme with
  | number number reads =>
    refine ⟨by simp, ?_⟩
    rintro n ⟨⟩
    obtain ⟨numeral, mark, formed, isMark, rfl⟩ := Numeral.isNumber_iff.mp number
    rw [Numeral.ofDecimalText?_written formed isMark] at reads
    obtain ⟨rank, is⟩ := Number.ofDecimal_ranked false
      (Nat.ofDigitChars 10 (numeral.whole ++ numeral.fraction) 0)
      (numeral.exponentValue - numeral.fraction.length)
    exact ⟨rank, (Option.some.inj reads).symm.trans is⟩
  | string => exact ⟨by simp, by simp⟩
  | punctuation => exact ⟨by simp, by simp⟩
  | name start all =>
    refine ⟨fun _ => ?_, by simp⟩
    rw [NameLike, String.toList_ofList]
    exact List.forall_mem_cons.mpr
      ⟨isNamePart_iff.mpr (.inl start), fun d mem => isNamePart_iff.mpr (all d mem)⟩

theorem Lexes.decodable {cs : List Char} {tokens : List Token} (lexes : Lexes cs tokens) :
    ∀ token ∈ tokens, token.Decodable := by
  induction lexes with
  | done => simp
  | blank _ _ ih => exact ih
  | lexeme lexeme _ _ _ ih => exact List.forall_mem_cons.mpr ⟨lexeme.decodable, ih⟩

end Token

namespace Grammar

/-- All tokens of a phrase are such as the scanner makes. -/
def AllDecodable (tokens : List Token) : Prop := ∀ token ∈ tokens, token.Decodable

theorem allDecodable_cons {token : Token} {tokens : List Token} :
    AllDecodable (token :: tokens) ↔ token.Decodable ∧ AllDecodable tokens :=
  List.forall_mem_cons

theorem allDecodable_append {tokens tokens' : List Token} :
    AllDecodable (tokens ++ tokens') ↔ AllDecodable tokens ∧ AllDecodable tokens' :=
  List.forall_mem_append

theorem name_decodable {text : String} (decodable : (name text).Decodable) : NameLike text :=
  decodable.name rfl

theorem constant_decodable {text : String} {value : Constant}
    (decodable : (constant text value).Decodable) : value.literal.Decodable := by
  cases value with
  | number n => exact decodable.number n rfl
  | string => trivial

mutual

theorem Primary.decodable : ∀ d : Primary, AllDecodable d.tokens → d.tree.Decodable
  | .mk head suffixes, all => by
    obtain ⟨first, others⟩ := allDecodable_append.mp all
    exact Suffixes.decodable suffixes others (Head.decodable head first)

theorem Head.decodable : ∀ head : Head, AllDecodable head.tokens → head.tree.Decodable
  | .array elements, all => by
    obtain ⟨inside, -⟩ := allDecodable_append.mp (allDecodable_cons.mp all).2
    exact .array (Elements.decodable elements inside)
  | .object entries, all => by
    obtain ⟨inside, -⟩ := allDecodable_append.mp (allDecodable_cons.mp all).2
    exact .object (Entries.decodable entries inside)
  | .keyword keyword, _ => by
    cases keyword with
    | null | true | false => exact .literal trivial
    | this => exact .this
    | locals => exact .locals
  | .identifier identifier, all => .identifier (name_decodable (all _ List.mem_cons_self))
  | .constant text value, all => by
    rw [Head.tree_constant]
    exact .literal (constant_decodable (all _ List.mem_cons_self))

theorem Suffixes.decodable : ∀ suffixes : Suffixes, AllDecodable suffixes.tokens →
    ∀ {holder : Expression}, holder.Decodable → (suffixes.onto holder).Decodable
  | .done, _, _, holder => holder
  | .name text rest, all, _, holder => by
    obtain ⟨-, all⟩ := allDecodable_cons.mp all
    obtain ⟨name, others⟩ := allDecodable_cons.mp all
    exact Suffixes.decodable rest others (.member holder (.identifier (name_decodable name)))
  | .index property rest, all, _, holder => by
    obtain ⟨inside, others⟩ := allDecodable_append.mp (allDecodable_cons.mp all).2
    exact Suffixes.decodable rest (allDecodable_cons.mp others).2
      (.member holder (Primary.decodable property inside))

theorem Elements.decodable : ∀ elements : Elements, AllDecodable elements.tokens →
    ∀ e ∈ elements.trees, e.Decodable
  | .none, _ => by simp [Elements.trees]
  | .some first rest, all => by
    obtain ⟨inFirst, inRest⟩ := allDecodable_append.mp all
    exact List.forall_mem_cons.mpr
      ⟨Primary.decodable first inFirst, MoreElements.decodable rest inRest⟩

theorem MoreElements.decodable : ∀ more : MoreElements, AllDecodable more.tokens →
    ∀ e ∈ more.trees, e.Decodable
  | .done, _ => by simp [MoreElements.trees]
  | .comma, _ => by simp [MoreElements.trees]
  | .more next rest, all => by
    obtain ⟨inNext, inRest⟩ := allDecodable_append.mp (allDecodable_cons.mp all).2
    exact List.forall_mem_cons.mpr
      ⟨Primary.decodable next inNext, MoreElements.decodable rest inRest⟩

theorem Entries.decodable : ∀ entries : Entries, AllDecodable entries.tokens →
    ∀ e ∈ entries.trees, e.2.Decodable
  | .none, _ => by simp [Entries.trees]
  | .some key value rest, all => by
    obtain ⟨inValue, inRest⟩ := allDecodable_append.mp
      (allDecodable_cons.mp (allDecodable_cons.mp all).2).2
    exact List.forall_mem_cons.mpr
      ⟨Primary.decodable value inValue, MoreEntries.decodable rest inRest⟩

theorem MoreEntries.decodable : ∀ more : MoreEntries, AllDecodable more.tokens →
    ∀ e ∈ more.trees, e.2.Decodable
  | .done, _ => by simp [MoreEntries.trees]
  | .comma, _ => by simp [MoreEntries.trees]
  | .more key value rest, all => by
    obtain ⟨-, all⟩ := allDecodable_cons.mp (allDecodable_cons.mp all).2
    obtain ⟨inValue, inRest⟩ := allDecodable_append.mp (allDecodable_cons.mp all).2
    exact List.forall_mem_cons.mpr
      ⟨Primary.decodable value inValue, MoreEntries.decodable rest inRest⟩

end

end Grammar

namespace Expression

/-- What is generated for a part of an expression can be decoded. -/
def Generates {α : Type} (decodable : α → Prop) (generated : Generated α) : Prop :=
  decodable generated.operand ∧ ∀ statement ∈ generated.body, statement.Decodable

theorem generates_elements {elements : List Expression}
    (each : ∀ e ∈ elements, ∀ next, Generates Operand.Decodable (e.generateFrom next)) (next : Nat) :
    Generates (∀ operand ∈ ·, operand.Decodable) (generateElements next elements) := by
  induction elements generalizing next with
  | nil => exact ⟨by simp [generateElements], by simp [generateElements]⟩
  | cons e others ih =>
    obtain ⟨operand, body⟩ := each e (by simp) next
    obtain ⟨operands, bodies⟩ :=
      ih (fun e member => each e (by simp [member])) (e.generateFrom next).next
    exact ⟨List.forall_mem_cons.mpr ⟨operand, operands⟩, List.forall_mem_append.mpr ⟨body, bodies⟩⟩

theorem generates_properties {properties : List (String × Expression)}
    (each : ∀ e ∈ properties, ∀ next, Generates Operand.Decodable (e.2.generateFrom next))
    (next : Nat) :
    Generates (∀ entry ∈ ·, entry.2.Decodable) (generateProperties next properties) := by
  induction properties generalizing next with
  | nil => exact ⟨by simp [generateProperties], by simp [generateProperties]⟩
  | cons e others ih =>
    obtain ⟨key, value⟩ := e
    obtain ⟨operand, body⟩ := each _ List.mem_cons_self next
    obtain ⟨operands, bodies⟩ :=
      ih (fun e member => each e (by simp [member])) (value.generateFrom next).next
    exact ⟨List.forall_mem_cons.mpr ⟨operand, operands⟩, List.forall_mem_append.mpr ⟨body, bodies⟩⟩

theorem lookupStatements_decodable {name : String} (nameLike : NameLike name) (id : Nat) :
    ∀ statement ∈ lookupStatements id name, statement.Decodable := by
  intro statement member
  simp only [lookupStatements, List.mem_cons, List.not_mem_nil, or_false] at member
  rcases member with rfl | rfl
  · exact ⟨trivial, .locals, nameLike⟩
  · exact ⟨trivial, .context, nameLike⟩

/-- A property with a fixed name is an identifier. -/
theorem fixedName_decodable {property : Expression} {computed : Bool} {name : String}
    (decodable : property.Decodable) (fixed : fixedName? property computed = some name) :
    NameLike name := by
  unfold fixedName? at fixed
  split at fixed
  · obtain rfl := Option.some.inj fixed
    cases decodable
    assumption
  · simp at fixed

theorem generateFrom_decodable {e : Expression} (decodable : e.Decodable) (next : Nat) :
    Generates Operand.Decodable (e.generateFrom next) := by
  induction decodable generalizing next with
  | program _ ih =>
    rw [generateFrom]
    exact ih next
  | literal value => exact ⟨.literal value, by simp [generateFrom]⟩
  | array _ ih =>
    obtain ⟨operands, bodies⟩ := generates_elements ih next
    simp only [generateFrom]
    exact ⟨.array operands, bodies⟩
  | object _ ih =>
    obtain ⟨operands, bodies⟩ := generates_properties ih next
    simp only [generateFrom]
    exact ⟨.object operands, bodies⟩
  | identifier nameLike => exact ⟨.temp, lookupStatements_decodable nameLike next⟩
  | this => exact ⟨.context, by simp [generateFrom]⟩
  | locals => exact ⟨.locals, by simp [generateFrom]⟩
  | @member holder property computed _ inProperty left right =>
    obtain ⟨operand, body⟩ := left next
    obtain ⟨key, bodies⟩ := right ((holder.generateFrom next).next + 1)
    rw [generateFrom]
    cases fixed : fixedName? property computed with
    | some name =>
      have nameLike := fixedName_decodable inProperty fixed
      exact ⟨.temp, List.forall_mem_append.mpr ⟨body, List.forall_mem_singleton.mpr
        ⟨operand, operand, nameLike⟩⟩⟩
    | none =>
      exact ⟨.temp, List.forall_mem_append.mpr ⟨List.forall_mem_append.mpr ⟨body, bodies⟩,
        List.forall_mem_singleton.mpr ⟨operand, operand, key⟩⟩⟩

theorem ofText_decodable {text : String} {e : Expression} (read : ofText text = .ok e) :
    e.Decodable := by
  unfold ofText at read
  cases scanned : Token.scan text with
  | error fault => simp [scanned] at read
  | ok tokens =>
    have lexes := Token.scan_eq_ok_iff.mp scanned
    have parsed : ofTokens tokens = .ok e := by
      rw [scanned] at read
      cases result : ofTokens tokens with
      | error fault => simp [result, Except.mapError] at read
      | ok program => simpa [result, Except.mapError] using read
    obtain ⟨d, rfl, rfl⟩ := (ofTokens_eq_ok_iff lexes.scanned).mp parsed
    exact .program (Grammar.Primary.decodable d lexes.decodable)

end Expression

theorem Accessor.ofText_decodable {text : String} {accessor : Accessor}
    (compiled : ofText text = .ok accessor) : accessor.program.Decodable := by
  obtain ⟨e, read, made⟩ := Except.bind_eq_ok.mp compiled
  obtain rfl := Except.ok.inj made
  obtain ⟨result, body⟩ :=
    Expression.generateFrom_decodable (Expression.ofText_decodable read) 0
  exact ⟨body, result⟩

/-- Two texts whose programs are rendered alike have the same program, so what they compile to
agrees on all arguments, in its results and in what it does to the heap. -/
theorem Accessor.program_text_injective {text text' : String} {accessor accessor' : Accessor}
    (compiled : ofText text = .ok accessor) (compiled' : ofText text' = .ok accessor')
    (same : accessor.program.text = accessor'.program.text) :
    accessor.program = accessor'.program ∧
      ∀ arguments heap, accessor.run arguments heap = accessor'.run arguments heap := by
  have programs : accessor.program = accessor'.program :=
    Program.chars_unique (ofText_decodable compiled) (ofText_decodable compiled')
      (String.ofList_injective same)
  exact ⟨programs, fun arguments heap => by rw [run, run, programs]⟩

theorem holder_plain (keyword : Grammar.Keyword) : keyword.text ≠ "a" := by
  cases keyword <;> decide

/-- A member whose key is between two quotes of the given kind. -/
def quotedMember (quote : Char) : Grammar.Primary :=
  .mk (.identifier ⟨"a", holder_plain⟩)
    (.index (.mk (.constant (String.ofList [quote, 'k', quote]) (.string "k")) .done) .done)

theorem scan_quotedMember {quote : Char} (isQuote : quote = '\x27' ∨ quote = '\x22') :
    Token.scan (String.ofList ['a', '[', quote, 'k', quote, ']'])
      = .ok (quotedMember quote).tokens := by
  rcases isQuote with rfl | rfl
  all_goals
    simp [scan, scanFrom, isBlank, first, numberStarts, startsWithDigit, isQuote, isPunctuation,
      isNameStart, isNamePart, stringTail, Token.punctuation, ofName, ofString,
      ← String.length_toList, bind, Except.bind, pure, Except.pure]
    rfl

theorem Accessor.program_text_injective_quotes :
    let single := Program.ofExpression (.program (quotedMember '\x27').tree)
    let double := Program.ofExpression (.program (quotedMember '\x22').tree)
    ofText "a['k']" = .ok ⟨some "a['k']", single⟩ ∧
      ofText "a[\"k\"]" = .ok ⟨some "a[\"k\"]", double⟩ ∧ single = double := by
  have compiled : ofText "a['k']" = .ok ⟨some "a['k']", _⟩ :=
    ofText_derived (scan_quotedMember (.inl rfl))
  have compiled' : ofText "a[\"k\"]" = .ok ⟨some "a[\"k\"]", _⟩ :=
    ofText_derived (scan_quotedMember (.inr rfl))
  exact ⟨compiled, compiled', (Accessor.program_text_injective compiled compiled' rfl).1⟩

end DataBinding
