import DataBinding.Proofs.Numerals

/-! The string scanner against the string grammar: it reads a body up to its closing quote
exactly when the body is one, and returns what the body stands for. -/
namespace DataBinding

namespace Text

variable {c : Char} {u high low : Nat}

theorem units16_single_iff : units16 c = [u] ↔ c.toNat = u ∧ u < 0x10000 := by
  simp only [units16]
  split <;> simp <;> omega

theorem units16_pair_iff : units16 c = [high, low] ↔
    0x10000 ≤ c.toNat ∧ high = 0xD800 + (c.toNat - 0x10000) / 0x400 ∧
      low = 0xDC00 + (c.toNat - 0x10000) % 0x400 := by
  simp only [units16]
  split <;> simp <;> omega

theorem toNat_ofNat {n : Nat} (valid : n < 0xD800 ∨ 0xE000 ≤ n ∧ n < 0x110000) :
    (Char.ofNat n).toNat = n := by
  have isValid : n.isValidChar := by
    unfold Nat.isValidChar
    omega
  rw [Char.ofNat, dif_pos isValid]
  rfl

theorem toNat_cases (c : Char) : c.toNat < 0xD800 ∨ 0xE000 ≤ c.toNat ∧ c.toNat < 0x110000 := by
  have valid : c.toNat.isValidChar := c.valid
  unfold Nat.isValidChar at valid
  omega

end Text

namespace Token
open Text

variable {c quote : Char} {u used start index size : Nat}
variable {cs hex rest written read value : List Char}

theorem HexDigit.lt {digit : Nat} (isDigit : HexDigit c digit) : digit < 16 := by
  rcases isDigit with lower | upper
  · exact (List.getElem?_eq_some_iff.1 lower).1
  · exact (List.getElem?_eq_some_iff.1 upper).1

/-- A digit is read by its distance from the first of its range. -/
theorem hexDigit?_eq_some {digit : Nat} (read : hexDigit? c = some digit) :
    digit < 10 ∧ c = Char.ofNat (48 + digit) ∨ 10 ≤ digit ∧ digit < 16 ∧
      (c = Char.ofNat (87 + digit) ∨ c = Char.ofNat (55 + digit)) := by
  have ofCode {base : Nat} (above : base ≤ c.toNat) (is : c.toNat - base = digit) :
      c = Char.ofNat (base + digit) := by
    rw [← is, Nat.add_sub_cancel' above, Char.ofNat_toNat]
  have codes : '0'.toNat = 48 ∧ '9'.toNat = 57 ∧ 'a'.toNat = 97 ∧ 'f'.toNat = 102 ∧
      'A'.toNat = 65 ∧ 'F'.toNat = 70 := by decide
  unfold hexDigit? at read
  split at read
  · rename_i range
    have low : '0'.toNat ≤ c.toNat := range.1
    have high : c.toNat ≤ '9'.toNat := range.2
    have is := Option.some.inj read
    exact .inl ⟨by omega, ofCode (by omega) is⟩
  split at read
  · rename_i range
    have low : 'a'.toNat ≤ c.toNat := range.1
    have high : c.toNat ≤ 'f'.toNat := range.2
    have is := Option.some.inj read
    exact .inr ⟨by omega, by omega, .inl (ofCode (by omega) is)⟩
  split at read
  · rename_i range
    have low : 'A'.toNat ≤ c.toNat := range.1
    have high : c.toNat ≤ 'F'.toNat := range.2
    have is := Option.some.inj read
    exact .inr ⟨by omega, by omega, .inr (ofCode (by omega) is)⟩
  · cases read

theorem hexDigit?_iff {digit : Nat} : hexDigit? c = some digit ↔ HexDigit c digit := by
  constructor
  · intro read
    have decimal : ∀ digit < 10, HexDigit (Char.ofNat (48 + digit)) digit := by decide
    have letter : ∀ digit < 16, 10 ≤ digit →
        HexDigit (Char.ofNat (87 + digit)) digit ∧ HexDigit (Char.ofNat (55 + digit)) digit := by
      decide
    rcases hexDigit?_eq_some read with ⟨small, rfl⟩ | ⟨large, small, rfl | rfl⟩
    · exact decimal digit small
    · exact (letter digit small large).1
    · exact (letter digit small large).2
  · intro isDigit
    have lower : ∀ digit < 16,
        ("0123456789abcdef".toList[digit]?).bind hexDigit? = some digit := by decide
    have upper : ∀ digit < 16,
        ("0123456789ABCDEF".toList[digit]?).bind hexDigit? = some digit := by decide
    have inside := isDigit.lt
    rcases isDigit with is | is
    · have read := lower digit inside
      rwa [is] at read
    · have read := upper digit inside
      rwa [is] at read

theorem HexUnit.lt (unit : HexUnit hex u) : u < 0x10000 := by
  obtain ⟨a, b, c, d⟩ := unit
  have := a.lt
  have := b.lt
  have := c.lt
  have := d.lt
  omega

theorem HexUnit.length (unit : HexUnit hex u) : hex.length = 4 := by
  cases unit
  rfl

theorem unit?_hex (unit : HexUnit hex u) (rest : List Char) : unit? (hex ++ rest) = some u := by
  obtain ⟨a, b, c, d⟩ := unit
  simp only [unit?, List.cons_append, hexDigit?_iff.2 a, hexDigit?_iff.2 b, hexDigit?_iff.2 c,
    hexDigit?_iff.2 d, Option.bind_eq_bind, Option.bind_some, Option.some.injEq]
  omega

theorem unit?_read (read : unit? cs = some u) : ∃ hex rest, cs = hex ++ rest ∧ HexUnit hex u := by
  unfold unit? at read
  split at read
  · rename_i a b c d rest
    simp only [Option.bind_eq_bind, Option.bind_eq_some_iff, Option.some.injEq,
      hexDigit?_iff] at read
    obtain ⟨x, first, y, second, z, third, w, fourth, value⟩ := read
    refine ⟨[a, b, c, d], rest, rfl, ?_⟩
    have unit := HexUnit.digits first second third fourth
    rwa [show 4096 * x + 256 * y + 16 * z + w = u by omega] at unit
  · simp at read

theorem escaped?_written {written : List Char} (escape : UnicodeEscape c written)
    (rest : List Char) : escaped? (written ++ rest) = some (c, written.length) := by
  cases escape with
  | @unit _ u unit is =>
    obtain ⟨code, small⟩ := units16_single_iff.mp is
    have valid := toNat_cases c
    have plain : u < 0xD800 ∨ 0xE000 ≤ u := by omega
    have same : Char.ofNat u = c := by rw [← code, Char.ofNat_toNat]
    simp only [escaped?, unit?_hex unit rest, plain, ↓reduceIte, same, unit.length]
  | @pair hex hex' high low unit unit' is =>
    obtain ⟨large, highIs, lowIs⟩ := units16_pair_iff.mp is
    have valid := toNat_cases c
    have notPlain : ¬ (high < 0xD800 ∨ 0xE000 ≤ high) := by omega
    have isHigh : ¬ 0xDC00 ≤ high := by omega
    have isLow : 0xDC00 ≤ low ∧ low < 0xE000 := by omega
    have code : 0x10000 + (high - 0xD800) * 0x400 + (low - 0xDC00) = c.toNat := by omega
    have read : unit? (hex ++ ('\\' :: 'u' :: (hex' ++ rest))) = some high := unit?_hex unit _
    have after : (hex ++ ('\\' :: 'u' :: (hex' ++ rest))).drop 4 = '\\' :: 'u' :: (hex' ++ rest) :=
      List.drop_left' unit.length
    simp only [escaped?, List.append_assoc, List.cons_append, read, after, notPlain, isHigh,
      ↓reduceIte, unit?_hex unit' rest, isLow, and_self, code, Char.ofNat_toNat]
    simp [unit.length, unit'.length]

theorem escaped?_read (read : escaped? cs = some (c, used)) :
    ∃ written rest, cs = written ++ rest ∧ UnicodeEscape c written ∧ used = written.length := by
  unfold escaped? at read
  split at read
  · simp at read
  rename_i high first
  obtain ⟨hex, rest, rfl, unit⟩ := unit?_read first
  have bound := unit.lt
  have after : (hex ++ rest).drop 4 = rest := List.drop_left' unit.length
  by_cases plain : high < 0xD800 ∨ 0xE000 ≤ high
  · simp only [plain, ↓reduceIte, Option.some.injEq, Prod.mk.injEq] at read
    obtain ⟨rfl, rfl⟩ := read
    have code := toNat_ofNat (n := high) (by omega)
    exact ⟨hex, rest, rfl, .unit unit (units16_single_iff.mpr ⟨code, bound⟩), unit.length.symm⟩
  · by_cases isLow : 0xDC00 ≤ high
    · simp [plain, isLow] at read
    · simp only [plain, isLow, ↓reduceIte, after] at read
      split at read
      · rename_i tail
        split at read
        · simp at read
        rename_i low second
        obtain ⟨hex', rest', rfl, unit'⟩ := unit?_read second
        split at read
        · rename_i range
          simp only [Option.some.injEq, Prod.mk.injEq] at read
          obtain ⟨rfl, rfl⟩ := read
          have code := toNat_ofNat (n := 0x10000 + (high - 0xD800) * 0x400 + (low - 0xDC00))
            (by omega)
          refine ⟨hex ++ '\\' :: 'u' :: hex', rest', by simp, .pair unit unit' ?_,
            by simp [unit.length, unit'.length]⟩
          exact units16_pair_iff.mpr ⟨by omega, by omega, by omega⟩
        · simp at read
      · simp at read

/-- The table of the scanner holds the escapes of the grammar. -/
theorem escape_iff {d : Char} : Escape c d ↔ c ≠ 'u' ∧ unescape c = d := by
  constructor
  · intro escape
    cases escape with
    | itself other =>
      simp only [List.mem_cons, List.not_mem_nil, or_false, not_or] at other
      obtain ⟨n, f, r, t, v, u⟩ := other
      exact ⟨u, by simp [unescape]⟩
    | _ => decide
  · rintro ⟨notUnicode, rfl⟩
    unfold unescape
    split
    · exact .newline
    · exact .formFeed
    · exact .carriageReturn
    · exact .tab
    · exact .verticalTab
    · refine .itself ?_
      simp only [List.mem_cons, List.not_mem_nil, or_false, not_or]
      exact ⟨‹_›, ‹_›, ‹_›, ‹_›, ‹_›, notUnicode⟩

theorem stringTail_close (rest : List Char) :
    stringTail quote start index (quote :: rest) = .ok ([], 1) := by
  rw [stringTail.eq_def]
  simp

theorem stringTail_plain (notQuote : c ≠ quote) (notMark : c ≠ '\\') :
    stringTail quote start index (c :: rest) = .ok (value, size) ↔
      ∃ value' size', stringTail quote start (index + 1) rest = .ok (value', size') ∧
        c :: value' = value ∧ size' + 1 = size := by
  rw [stringTail.eq_def]
  simp [notQuote, notMark, Except.bind_eq_ok, pure, Except.pure]

theorem stringTail_escaped (isQuote : quote ≠ '\\') (other : c ≠ 'u') :
    stringTail quote start index ('\\' :: c :: rest) = .ok (value, size) ↔
      ∃ value' size', stringTail quote start (index + 2) rest = .ok (value', size') ∧
        unescape c :: value' = value ∧ size' + 2 = size := by
  rw [stringTail.eq_def]
  simp [isQuote.symm, Except.bind_eq_ok, pure, Except.pure]

theorem stringTail_unicode (isQuote : quote ≠ '\\') (escape : escaped? cs = some (c, used)) :
    stringTail quote start index ('\\' :: 'u' :: cs) = .ok (value, size) ↔
      ∃ value' size', stringTail quote start (index + 2 + used) (cs.drop used)
          = .ok (value', size') ∧
        c :: value' = value ∧ size' + 2 + used = size := by
  rw [stringTail.eq_def]
  simp [isQuote.symm, escape, Except.bind_eq_ok, pure, Except.pure]

theorem stringTail_written (start index : Nat) (isQuote : quote ≠ '\\')
    (body : StringBody quote written value) (rest : List Char) :
    stringTail quote start index (written ++ quote :: rest) = .ok (value, written.length + 1) := by
  induction body generalizing index with
  | done => exact stringTail_close rest
  | plain notQuote notMark body ih =>
    exact (stringTail_plain notQuote notMark).mpr ⟨_, _, ih _, rfl, rfl⟩
  | escaped escape body ih =>
    obtain ⟨other, rfl⟩ := escape_iff.1 escape
    exact (stringTail_escaped isQuote other).mpr ⟨_, _, ih _, rfl, rfl⟩
  | @unicode c escape written read isEscape body ih =>
    have read' := escaped?_written isEscape (written ++ quote :: rest)
    simp only [List.cons_append, List.append_assoc]
    refine (stringTail_unicode isQuote read').mpr ⟨read, written.length + 1, ?_, rfl, ?_⟩
    · rw [List.drop_left]
      exact ih _
    · simp only [List.length_cons, List.length_append]
      omega

theorem stringTail_read (isQuote : quote ≠ '\\')
    (read : stringTail quote start index cs = .ok (value, size)) :
    ∃ written rest, cs = written ++ quote :: rest ∧ StringBody quote written value ∧
      size = written.length + 1 := by
  induction index, cs using stringTail.induct quote generalizing value size with
  | case1 index => simp [stringTail] at read
  | case2 index rest =>
    rw [stringTail_close] at read
    obtain ⟨rfl, rfl⟩ := Prod.mk.inj (Except.ok.inj read)
    exact ⟨[], rest, rfl, .done, rfl⟩
  | case3 index notQuote => simp [stringTail.eq_def, notQuote] at read
  | case4 index rest none notQuote => simp [stringTail.eq_def, notQuote, none] at read
  | case5 index rest c used escape notQuote ih =>
    obtain ⟨value, size, after, rfl, rfl⟩ := (stringTail_unicode isQuote escape).mp read
    obtain ⟨escaped, tail, rfl, isEscape, rfl⟩ := escaped?_read escape
    obtain ⟨written, rest, same, body, rfl⟩ := ih after
    rw [List.drop_left] at same
    refine ⟨'\\' :: 'u' :: (escaped ++ written), rest, by simp [same], .unicode isEscape body, ?_⟩
    simp only [List.length_cons, List.length_append]
    omega
  | case6 index c rest other notQuote ih =>
    obtain ⟨value, size, after, rfl, rfl⟩ := (stringTail_escaped isQuote other).mp read
    obtain ⟨written, rest, rfl, body, rfl⟩ := ih after
    exact ⟨'\\' :: c :: written, rest, rfl, .escaped (escape_iff.2 ⟨other, rfl⟩) body, rfl⟩
  | case7 index c rest notQuote notMark ih =>
    obtain ⟨value, size, after, rfl, rfl⟩ := (stringTail_plain notQuote notMark).mp read
    obtain ⟨written, rest, rfl, body, rfl⟩ := ih after
    exact ⟨c :: written, rest, rfl, .plain notQuote notMark body, rfl⟩

end Token
end DataBinding
