import DataBinding.Proofs.NormalForm
import DataBinding.Proofs.Parsing

/-! What a parse error tells. Every state of the reader can be completed to a program, through a
phrase of the kind that the state would report as missing; and a token that a state refuses is
refused by the grammar. So the reader stops at the first token that no program goes on with. -/
namespace DataBinding

namespace Grammar
open Token (punctuation)

def IsProgram (tokens : List Token) : Prop := ∃ program, Derives tokens program

/-- Some text that is a program starts with the tokens. -/
def Viable (tokens : List Token) : Prop :=
  ∃ text rest, Token.scan text = .ok (tokens ++ rest) ∧ IsProgram (tokens ++ rest)

theorem Viable.fewer {tokens more : List Token} (viable : Viable (tokens ++ more)) :
    Viable tokens := by
  obtain ⟨text, rest, scanned, isProgram⟩ := viable
  rw [List.append_assoc] at scanned isProgram
  exact ⟨text, more ++ rest, scanned, isProgram⟩

/-- What is wanted can come right after the tokens. -/
def Fits (tokens : List Token) : Wanted → Prop
  | .expression => ∃ d : Primary, Viable (tokens ++ d.tokens)
  | .propertyKey => ∃ key : Key, Viable (tokens ++ [key.token])
  | .identifier => ∃ text, Viable (tokens ++ [name text])
  | .colon => Viable (tokens ++ [punctuation ':'])
  | .closingBracket => Viable (tokens ++ [punctuation ']'])
  | .closingBrace => Viable (tokens ++ [punctuation '\x7d'])
  | .endOfInput => IsProgram tokens

/-- The fault is at the first token that no program goes on with, or at the end of tokens that
only longer programs start with, and tells what can stand there. -/
inductive Earliest : List Token → ParseError → Prop
  | expected {before token after wanted} : Viable before →
      (∀ rest, ¬ IsProgram (before ++ token :: rest)) → Fits before wanted →
      Earliest (before ++ token :: after) (.expected wanted token.text)
  | unexpectedEnd {tokens wanted} : Viable tokens → ¬ IsProgram tokens → Fits tokens wanted →
      Earliest tokens (.unexpectedEnd wanted)

end Grammar

namespace Expression.Reader
open Grammar Token

variable {program read : Expression} {stack : List Frame} {state state' : State} {token : Token}
variable {tokens before rest : List Token} {fault : ParseError}

/-- What the state would report as missing. -/
def State.wanted (state : State) : Wanted :=
  match state.mode, state.stack with
  | .start, _ => .expression
  | .key _, _ => .propertyKey
  | .colon .., _ => .colon
  | .name _, _ => .identifier
  | .after _, [] => .endOfInput
  | .after _, .array _ :: _ => .closingBracket
  | .after _, .object .. :: _ => .closingBrace
  | .after _, .property _ :: _ => .closingBracket

theorem startStep_error (failed : startStep stack token = .error fault) :
    fault = .expected .expression token.text := by
  unfold startStep at failed
  split at failed
  · cases failed
  split at failed
  · cases failed
  split at failed
  · cases failed
  split at failed
  · cases failed
  split at failed
  · cases failed
  · exact (Except.error.inj failed).symm

theorem endStep_error (failed : endStep read stack token = .error fault) :
    fault = .expected (State.wanted ⟨.after read, stack⟩) token.text := by
  rcases stack with _ | ⟨items | ⟨entries, key⟩ | holder, stack⟩
  · exact (Except.error.inj failed).symm
  · simp only [endStep] at failed
    split at failed
    · cases failed
    split at failed
    · cases failed
    · exact (Except.error.inj failed).symm
  · simp only [endStep] at failed
    split at failed
    · cases failed
    split at failed
    · cases failed
    · exact (Except.error.inj failed).symm
  · simp only [endStep] at failed
    split at failed
    · cases failed
    · exact (Except.error.inj failed).symm

theorem step_error (failed : step state token = .error fault) :
    fault = .expected state.wanted token.text := by
  obtain ⟨mode, stack⟩ := state
  cases mode with
  | start =>
    simp only [step] at failed
    split at failed
    · split at failed
      · cases failed
      · exact startStep_error failed
    · exact startStep_error failed
  | key entries =>
    simp only [step] at failed
    split at failed
    · cases failed
    split at failed
    · cases failed
    split at failed
    · cases failed
    · exact (Except.error.inj failed).symm
  | colon entries key =>
    simp only [step] at failed
    split at failed
    · cases failed
    · exact (Except.error.inj failed).symm
  | name holder =>
    simp only [step] at failed
    split at failed
    · cases failed
    · exact (Except.error.inj failed).symm
  | after read =>
    simp only [step] at failed
    split at failed
    · cases failed
    split at failed
    · cases failed
    · exact endStep_error failed

theorem finish_error (failed : finish state = .error fault) :
    fault = .unexpectedEnd state.wanted := by
  obtain ⟨mode, stack⟩ := state
  cases mode with
  | start | key | colon | name => exact (Except.error.inj failed).symm
  | after read =>
    rcases stack with _ | ⟨items | ⟨entries, key⟩ | holder, stack⟩
    · cases failed
    all_goals exact (Except.error.inj failed).symm

/-- A run takes the tokens one by one: what the state accepts after them is what the state that
is reached accepts. -/
theorem accepts_append_iff (scanned : ∀ token ∈ before, Scanned token) :
    Accepts program state (before ++ rest) ↔ Takes program (before.foldlM step state) rest := by
  induction before generalizing state with
  | nil => exact takes_ok.symm
  | cons token before ih =>
    have later : ∀ token ∈ before, Scanned token := fun t member => scanned t (by simp [member])
    rw [List.cons_append, accepts_iff (scanned token (by simp)), List.foldlM_cons]
    cases next : step state token with
    | error fault => exact iff_of_false not_takes_error not_takes_error
    | ok state' => rw [takes_ok, ih later]; rfl

/-- A run that fails has come to a token that is refused. -/
theorem foldlM_error (failed : tokens.foldlM step state = .error fault) :
    ∃ before token after state', tokens = before ++ token :: after ∧
      before.foldlM step state = .ok state' ∧ step state' token = .error fault := by
  induction tokens generalizing state with
  | nil => cases failed
  | cons token tokens ih =>
    rw [List.foldlM_cons] at failed
    cases next : step state token with
    | error fault' =>
      rw [next] at failed
      obtain rfl := Except.error.inj failed
      exact ⟨[], token, tokens, state, rfl, rfl, next⟩
    | ok state' =>
      rw [next] at failed
      obtain ⟨before, token', after, reached, rfl, run, refused⟩ := ih failed
      refine ⟨token :: before, token', after, reached, rfl, ?_, refused⟩
      rw [List.foldlM_cons, next]
      exact run

section Completion

def closer : Frame → Token
  | .array _ => punctuation ']'
  | .object .. => punctuation '\x7d'
  | .property _ => punctuation ']'

/-- The brackets around an expression can be closed right after it. -/
theorem closes_closers (stack : List Frame) (read : Expression) :
    ∃ program, Closes program stack read (stack.map closer) := by
  induction stack generalizing read with
  | nil => exact ⟨.program read, rfl, rfl⟩
  | cons frame stack ih =>
    cases frame with
    | array items =>
      obtain ⟨program, closes⟩ := ih (.array (items.reverse ++ [read]))
      exact ⟨program, .done, stack.map closer, rfl, .done, stack.map closer, rfl, closes⟩
    | object entries key =>
      obtain ⟨program, closes⟩ := ih (.object (entries.reverse ++ [(key, read)]))
      exact ⟨program, .done, stack.map closer, rfl, .done, stack.map closer, rfl, closes⟩
    | property holder =>
      obtain ⟨program, closes⟩ := ih (.member holder read true)
      exact ⟨program, stack.map closer, rfl, .done, stack.map closer, rfl, closes⟩

theorem continues_closers (stack : List Frame) (read : Expression) :
    ∃ program, Continues (Closes program stack) read (stack.map closer) := by
  obtain ⟨program, closes⟩ := closes_closers stack read
  exact ⟨program, .done, stack.map closer, rfl, closes⟩

/-- A shortest phrase of the kind that is wanted. -/
def phrase : Wanted → List Token
  | .expression => [name Keyword.this.text]
  | .propertyKey => [name Keyword.this.text]
  | .identifier => [name Keyword.this.text]
  | .colon => [punctuation ':']
  | .closingBracket => [punctuation ']']
  | .closingBrace => [punctuation '\x7d']
  | .endOfInput => []

/-- What completes a program after the phrase that the state wants. -/
def State.ending (state : State) : List Token :=
  match state.mode with
  | .start => state.stack.map closer
  | .key _ =>
    punctuation ':' :: name Keyword.this.text :: punctuation '\x7d' :: state.stack.map closer
  | .colon .. => name Keyword.this.text :: punctuation '\x7d' :: state.stack.map closer
  | .name _ => state.stack.map closer
  | .after _ => state.stack.tail.map closer

/-- Every state accepts what it would report as missing, and an ending after it. -/
theorem accepts_wanted (state : State) :
    ∃ program, Accepts program state (phrase state.wanted ++ state.ending) := by
  obtain ⟨mode, stack⟩ := state
  cases mode with
  | start =>
    obtain ⟨program, closes⟩ := closes_closers stack .this
    exact ⟨program, .inl ⟨.mk (.keyword .this) .done, stack.map closer, rfl, closes⟩⟩
  | key entries =>
    obtain ⟨program, continues⟩ := continues_closers stack
      (.object (entries.reverse ++ [(Keyword.this.text, .this)]))
    exact ⟨program, .some (.name Keyword.this.text) (.mk (.keyword .this) .done) .done,
      stack.map closer, rfl, continues⟩
  | colon entries key =>
    obtain ⟨program, closes⟩ := closes_closers (.object entries key :: stack) .this
    exact ⟨program, .mk (.keyword .this) .done, _, rfl, closes⟩
  | name holder =>
    obtain ⟨program, continues⟩ := continues_closers stack
      (.member holder (.identifier Keyword.this.text) false)
    exact ⟨program, Keyword.this.text, stack.map closer, rfl, continues⟩
  | after read =>
    obtain ⟨program, continues⟩ := continues_closers stack read
    refine ⟨program, ?_⟩
    rcases stack with _ | ⟨items | ⟨entries, key⟩ | holder, stack⟩ <;> exact continues

theorem spelled_punctuation {c : Char} (isPunctuation : isPunctuation c) :
    Spelled (punctuation c) := by
  have lexeme := Lexeme.punctuation (isPunctuation_iff.mp isPunctuation)
  rwa [← String.toList_singleton] at lexeme

theorem spelled_this : Spelled (name Keyword.this.text) := by
  have start : isNameStart 't' := by decide
  have parts : ∀ d ∈ ['h', 'i', 's'], isNamePart d := List.all_eq_true.1 rfl
  exact Lexeme.name (isNameStart_iff.mp start) fun d mem => isNamePart_iff.mp (parts d mem)

theorem spelled_closer (frame : Frame) : Spelled (closer frame) := by
  cases frame <;> exact spelled_punctuation rfl

theorem spelled_phrase (wanted : Wanted) : ∀ token ∈ phrase wanted, Spelled token := by
  cases wanted <;> simp [phrase, spelled_this, spelled_punctuation, isPunctuation]

theorem State.spelled_ending (state : State) : ∀ token ∈ state.ending, Spelled token := by
  have closers (stack : List Frame) : ∀ token ∈ stack.map closer, Spelled token := by
    simp only [List.mem_map]
    rintro _ ⟨frame, -, rfl⟩
    exact spelled_closer frame
  have colon : Spelled (punctuation ':') := spelled_punctuation rfl
  have brace : Spelled (punctuation '\x7d') := spelled_punctuation rfl
  obtain ⟨mode, stack⟩ := state
  cases mode with
  | start => exact closers stack
  | key => simpa [ending, colon, brace, spelled_this] using closers stack
  | colon => simpa [ending, brace, spelled_this] using closers stack
  | name => exact closers stack
  | after => exact closers stack.tail

end Completion

/-- Tokens that the reader takes can be completed, through what the state reached wants. -/
theorem run_completes (spelled : ∀ token ∈ before, Spelled token)
    (run : before.foldlM step initial = .ok state) :
    IsProgram (before ++ (phrase state.wanted ++ state.ending)) ∧
      ∀ token ∈ before ++ (phrase state.wanted ++ state.ending), Spelled token := by
  have scanned : ∀ token ∈ before, Scanned token := fun token member =>
    (spelled token member).scanned
  constructor
  · obtain ⟨program, accepts⟩ := accepts_wanted state
    have whole := (accepts_append_iff scanned).mpr (run ▸ takes_ok.mpr accepts)
    exact ⟨program, accepts_initial_iff.mp whole⟩
  · simp only [List.mem_append]
    rintro token (member | member | member)
    · exact spelled token member
    · exact spelled_phrase _ token member
    · exact state.spelled_ending token member

theorem run_viable (spelled : ∀ token ∈ before, Spelled token)
    (run : before.foldlM step initial = .ok state) : Viable (before ++ phrase state.wanted) := by
  obtain ⟨isProgram, all⟩ := run_completes spelled run
  rw [← List.append_assoc] at isProgram all
  exact ⟨joined _, state.ending, scan_joined all, isProgram⟩

theorem ending_of_endOfInput (wanted : state.wanted = .endOfInput) : state.ending = [] := by
  obtain ⟨mode, stack⟩ := state
  cases mode with
  | after read =>
    rcases stack with _ | ⟨_ | _ | _, stack⟩
    · rfl
    all_goals cases wanted
  | start | key | colon | name => cases wanted

theorem run_fits (spelled : ∀ token ∈ before, Spelled token)
    (run : before.foldlM step initial = .ok state) : Fits before state.wanted := by
  have viable := run_viable spelled run
  have completed := (run_completes spelled run).1
  cases wanted : state.wanted <;> rw [wanted] at viable completed
  case expression => exact ⟨.mk (.keyword .this) .done, viable⟩
  case propertyKey => exact ⟨.name Keyword.this.text, viable⟩
  case identifier => exact ⟨Keyword.this.text, viable⟩
  case colon | closingBracket | closingBrace => exact viable
  case endOfInput =>
    simpa [Fits, phrase, ending_of_endOfInput wanted] using completed

end Expression.Reader

namespace Expression
open Grammar Token Reader

/-- A parse error is as early as it can be and names what can stand there. Where the tokens of a
text are refused at a token, those before it begin some program and with it they begin none; where
they are refused at the end, they begin a program and are none. An expression, a key, a name or
the delimiter that is named can come next and be completed, and where the end is named, the
tokens before are a program. -/
theorem ofTokens_earliest {text : String} {tokens : List Token} {fault : ParseError}
    (scanned : Token.scan text = .ok tokens) (failed : ofTokens tokens = .error fault) :
    Earliest tokens fault := by
  have spelled := spelled_of_scan scanned
  have apart (tokens : List Token) (spelled : ∀ token ∈ tokens, Spelled token) :
      ∀ token ∈ tokens, Scanned token := fun token member => (spelled token member).scanned
  cases run : tokens.foldlM step initial with
  | error fault' =>
    obtain rfl : fault' = fault := by
      rw [ofTokens, run] at failed
      exact Except.error.inj failed
    obtain ⟨before, token, after, state, rfl, runBefore, refused⟩ := foldlM_error run
    have spelledBefore : ∀ token ∈ before, Spelled token := fun token member =>
      spelled token (by simp [member])
    rw [step_error refused]
    refine .expected (run_viable spelledBefore runBefore).fewer ?_ (run_fits spelledBefore runBefore)
    rintro rest ⟨program, derives⟩
    have accepts := accepts_initial_iff.mpr derives
    rw [accepts_append_iff (apart before spelledBefore), runBefore, takes_ok,
      accepts_iff (spelled token (by simp)).scanned, refused] at accepts
    exact not_takes_error accepts
  | ok state =>
    have atEnd : finish state = .error fault := by
      rw [ofTokens, run] at failed
      exact failed
    rw [finish_error atEnd]
    refine .unexpectedEnd (run_viable spelled run).fewer ?_ (run_fits spelled run)
    rintro ⟨program, derives⟩
    have read := (ofTokens_eq_ok_iff (apart tokens spelled)).mpr derives
    rw [failed] at read
    cases read

theorem scan_listOpen : Token.scan "\x7ba: [b, \x7d" = .ok
    [punctuation '\x7b', ofName ['a'], punctuation ':', punctuation '[', ofName ['b'],
      punctuation ',', punctuation '\x7d'] := by
  simp [scan, scanFrom, isBlank, first, numberStarts, startsWithDigit, isQuote, isPunctuation,
    isNameStart, isNamePart, Token.punctuation, ofName, ← String.length_toList, bind, Except.bind,
    pure, Except.pure]

/-- An array in an object, with the brace of the object where an element or the end of the array
should be. -/
theorem ofTokens_earliest_listOpen :
    ∃ tokens, Token.scan "\x7ba: [b, \x7d" = .ok tokens ∧
      ofTokens tokens = .error (.expected .expression "\x7d") ∧
      Earliest tokens (.expected .expression "\x7d") :=
  ⟨_, scan_listOpen, rfl, ofTokens_earliest scan_listOpen rfl⟩

end Expression
end DataBinding
