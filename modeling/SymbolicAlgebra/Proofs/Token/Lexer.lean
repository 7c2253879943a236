import SymbolicAlgebra.Proofs.Decimal.Numeral
import SymbolicAlgebra.Scalar.Number
import SymbolicAlgebra.Expr.Basic
import SymbolicAlgebra.Token.Stream

/-!
# Spelling tokens

A mark or the name of a function is a token whatever follows it. A letter and a numeral are tokens
where what follows cannot be taken for a part of them. Blanks make no tokens.
-/

namespace SymbolicAlgebra.Token

/-- The tokens of the characters from a byte offset on, without those of blanks. -/
def lex (offset : Nat) (cs : List Char) : List Token :=
  (scanFrom offset cs).filter fun t => !t.isWhitespace

/-- What comes first cannot be taken for a part of the token before it. -/
def Breaks (cs : List Char) : Prop := ∀ c ∈ cs.head?, c.isAlphanum = false ∧ c ≠ '.'

/-- The end of a source breaks a token. -/
theorem breaks_nil : Breaks [] := by simp [Breaks]

/-- The marks of the grammar. -/
def marks : List Char := ['+', '-', '*', '/', '^', '(', ')', '_']

/-- A mark breaks a token, and so does a blank. -/
theorem breaks_of_mem {c : Char} (h : c ∈ ' ' :: marks) (cs : List Char) : Breaks (c :: cs) := by
  have hall : (' ' :: marks).all (fun c => !c.isAlphanum && c ≠ '.') = true := by decide
  simpa [Breaks] using List.all_eq_true.mp hall c h

/-- What is taken for one token is followed by the tokens of what comes after it. -/
theorem lex_munch {c : Char} {word cs : List Char} {kind : Kind}
    (h : munch c (word ++ cs) = (kind, word.length)) (hkind : kind ≠ .whitespace) (offset : Nat) :
    ∃ span offset', lex offset (c :: word ++ cs) =
      ⟨kind, String.ofList (c :: word), span⟩ :: lex offset' cs := by
  refine ⟨⟨offset, offset + Text.byteLength (c :: word)⟩, offset + Text.byteLength (c :: word), ?_⟩
  rw [lex, List.cons_append, scanFrom, h]
  simp only [List.take_left, List.drop_left]
  exact List.filter_cons_of_pos (by simpa [isWhitespace] using hkind)

/-- A mark is a token. -/
theorem lex_mark {c : Char} (h : c ∈ marks) (cs : List Char) (offset : Nat) :
    ∃ lexeme span offset', lex offset (c :: cs) = ⟨markKind c, lexeme, span⟩ :: lex offset' cs := by
  have hall : marks.all (fun c => !isSpace c && !c.isDigit && !c.isAlpha &&
      markKind c ≠ .whitespace) = true := by decide
  have hmark := List.all_eq_true.mp hall c h
  simp only [Bool.and_eq_true, Bool.not_eq_true', decide_eq_true_eq] at hmark
  obtain ⟨⟨⟨hspace, hdigit⟩, halpha⟩, hkind⟩ := hmark
  have hmunch : munch c ([] ++ cs) = (markKind c, ([] : List Char).length) := by
    simp [munch, hspace, hdigit, halpha]
  obtain ⟨span, offset', hlex⟩ := lex_munch hmunch hkind offset
  exact ⟨_, span, offset', hlex⟩

/-- A blank makes no token. -/
theorem lex_space (cs : List Char) (offset : Nat) :
    lex offset (' ' :: cs) = lex (offset + 1) cs := by
  have hmunch {c : Char} (hc : isSpace c = true) (cs : List Char) :
      munch c cs = (.whitespace, (cs.takeWhile isSpace).length) := if_pos hc
  have hblank : ' '.utf8Size = 1 := rfl
  rw [lex, scanFrom, hmunch rfl]
  simp only
  rw [List.filter_cons_of_neg (by simp [isWhitespace])]
  cases cs with
  | nil => simp [scanFrom, lex]
  | cons c cs =>
    cases hc : isSpace c with
    | false =>
      rw [List.takeWhile_cons, hc]
      rfl
    | true =>
      rw [lex, scanFrom, hmunch hc, List.takeWhile_cons, hc]
      simp only
      rw [List.filter_cons_of_neg (by simp [isWhitespace])]
      simp [Text.byteLength, Nat.add_assoc, hblank]

/-- Letters and digits are no blanks, and letters are no digits. -/
theorem class_of_isAlpha {c : Char} (h : c.isAlpha = true) :
    isSpace c = false ∧ c.isDigit = false := by
  have hletter : (65 ≤ c.toNat ∧ c.toNat ≤ 90) ∨ 97 ≤ c.toNat ∧ c.toNat ≤ 122 := by
    simpa [Char.isAlpha, Char.isUpper, Char.isLower, UInt32.le_iff_toNat_le] using h
  constructor
  · rw [Bool.eq_false_iff]
    intro hspace
    simp only [isSpace, Bool.or_eq_true, decide_eq_true_eq] at hspace
    obtain ((rfl | rfl) | rfl) | rfl := hspace <;> simp at hletter
  · simp only [Char.isDigit, Bool.and_eq_false_iff, decide_eq_false_iff_not, ge_iff_le,
      UInt32.le_iff_toNat_le]
    change ¬ 48 ≤ c.toNat ∨ ¬ c.toNat ≤ 57
    omega

/-- A letter other than the name of a constant is a variable. -/
theorem lex_letter {c : Char} (halpha : c.isAlpha = true) (he : c ≠ 'e') {cs : List Char}
    (h : Breaks cs) (offset : Nat) :
    ∃ span offset', lex offset (c :: cs) =
      ⟨.var, String.ofList [c], span⟩ :: lex offset' cs := by
  obtain ⟨hspace, hdigit⟩ := class_of_isAlpha halpha
  have hword : wordKind c cs = (.var, 0) := by
    have hbreak {d : Char} {rest : List Char} (hcs : cs = d :: rest) : d.isAlphanum = false :=
      (h d (by simp [hcs])).1
    unfold wordKind
    split
    · cases hbreak rfl
    · cases hbreak rfl
    · cases hbreak rfl
    · cases hbreak rfl
    · cases hbreak rfl
    · exact (he rfl).elim
    · rfl
  have hmunch : munch c ([] ++ cs) = (.var, ([] : List Char).length) := by
    simp [munch, hspace, hdigit, halpha, hword]
  exact lex_munch hmunch (by decide) offset

/-- The digits at the start of a text end where a digit does not follow. -/
theorem takeWhile_isDigit {ds cs : List Char} (hds : ∀ c ∈ ds, c.isDigit = true)
    (hcs : ∀ c ∈ cs.head?, c.isDigit = false) : (ds ++ cs).takeWhile Char.isDigit = ds := by
  rw [List.takeWhile_append_of_pos hds]
  cases cs with
  | nil => simp
  | cons c cs => simp [hcs c (by simp)]

/-- A numeral is a token. -/
theorem lex_numeral {word cs : List Char} (hword : IsNumeral word) (h : Breaks cs) (offset : Nat) :
    ∃ span offset', lex offset (word ++ cs) =
      ⟨.number, String.ofList word, span⟩ :: lex offset' cs := by
  obtain ⟨whole, rest, rfl, hsome, hwhole, hrest⟩ := hword
  obtain ⟨d, ds, rfl⟩ := List.exists_cons_of_ne_nil hsome
  rw [List.forall_mem_cons] at hwhole
  have hbreak : ∀ c ∈ cs.head?, c.isDigit = false := fun c hc => by
    have := (h c hc).1
    rw [Char.isAlphanum, Bool.or_eq_false_iff] at this
    exact this.2
  have htail : numeralTail (ds ++ rest ++ cs) = (ds ++ rest).length := by
    obtain rfl | ⟨places, rfl, hplaces, hdigits⟩ := hrest
    · rw [List.append_nil, numeralTail, takeWhile_isDigit hwhole.2 hbreak, List.drop_left]
      split
      · exact ((h '.' (by simp)).2 rfl).elim
      · rfl
    · obtain ⟨p, ps, rfl⟩ := List.exists_cons_of_ne_nil hplaces
      rw [List.forall_mem_cons] at hdigits
      rw [List.append_assoc, numeralTail, takeWhile_isDigit hwhole.2 (by simp), List.drop_left]
      simp only [List.cons_append, hdigits.1, if_true, takeWhile_isDigit hdigits.2 hbreak,
        List.length_append, List.length_cons]
      omega
  have hspace : isSpace d = false := by
    rw [Bool.eq_false_iff]
    intro hspace
    simp only [isSpace, Bool.or_eq_true, decide_eq_true_eq] at hspace
    obtain ((rfl | rfl) | rfl) | rfl := hspace <;> simp at hwhole
  have hmunch : munch d (ds ++ rest ++ cs) = (.number, (ds ++ rest).length) := by
    simp only [munch, hspace, hwhole.1, htail, Bool.false_eq_true, if_false, if_true]
  exact lex_munch hmunch (by decide) offset

/-- The name of a constant is a token. -/
theorem lex_constant (c : Constant) (cs : List Char) (offset : Nat) :
    ∃ span offset', lex offset (c.name.toList ++ cs) =
      ⟨.const, c.name, span⟩ :: lex offset' cs := by
  cases c with
  | e =>
    have hmunch : munch 'e' ([] ++ cs) = (.const, ([] : List Char).length) := rfl
    exact lex_munch hmunch (by decide) offset
  | pi =>
    have hmunch : munch 'p' (['i'] ++ cs) = (.const, ['i'].length) := rfl
    exact lex_munch hmunch (by decide) offset

/-- The kind of token that is the name of a function. -/
def trigKind : Trig → Kind
  | .sin => .sin
  | .cos => .cos
  | .tan => .tan

/-- The name of a function is a token. -/
theorem lex_trig (f : Trig) (cs : List Char) (offset : Nat) :
    ∃ span offset', lex offset (f.name.toList ++ cs) =
      ⟨trigKind f, f.name, span⟩ :: lex offset' cs := by
  cases f with
  | sin =>
    have hmunch : munch 's' (['i', 'n'] ++ cs) = (.sin, ['i', 'n'].length) := rfl
    exact lex_munch hmunch (by decide) offset
  | cos =>
    have hmunch : munch 'c' (['o', 's'] ++ cs) = (.cos, ['o', 's'].length) := rfl
    exact lex_munch hmunch (by decide) offset
  | tan =>
    have hmunch : munch 't' (['a', 'n'] ++ cs) = (.tan, ['a', 'n'].length) := rfl
    exact lex_munch hmunch (by decide) offset

/-- The name of the logarithm is a token. -/
theorem lex_log (cs : List Char) (offset : Nat) :
    ∃ span offset', lex offset ("log".toList ++ cs) =
      ⟨.log, "log", span⟩ :: lex offset' cs := by
  have hmunch : munch 'l' (['o', 'g'] ++ cs) = (.log, ['o', 'g'].length) := rfl
  exact lex_munch hmunch (by decide) offset

end SymbolicAlgebra.Token
