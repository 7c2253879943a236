import SymbolicAlgebra.Proofs.Token.Lexer

/-!
# The longest tokens

Every kind of token has a pattern, and a text that several kinds match belongs to the one of the highest
priority. At most one token is the longest match at a place, so the tokens of a source are determined by
the patterns alone. No pattern that a text of more than one character matches mixes blanks with other
characters. Hence a token that is not made of blanks is also read where the end of the source or a blank
follows it, and tokens can be set apart without being read differently.
-/

namespace SymbolicAlgebra.Token

/-- The texts of the kinds of tokens that are always written alike. -/
def Kind.texts : Kind → List (List Char)
  | .plus => [['+']]
  | .minus => [['-']]
  | .times => [['*']]
  | .divide => [['/']]
  | .caret => [['^']]
  | .leftParen => [['(']]
  | .rightParen => [[')']]
  | .underscore => [['_']]
  | .sin => [['s', 'i', 'n']]
  | .cos => [['c', 'o', 's']]
  | .tan => [['t', 'a', 'n']]
  | .log => [['l', 'o', 'g']]
  | .const => [['e'], ['p', 'i']]
  | .whitespace | .var | .number | .symbol => []

/-- The pattern of a kind of token: spaces, tabs and ends of lines, one letter, a numeral, or any
character that does not end a line. All other kinds have fixed texts. -/
def Kind.Matches (kind : Kind) (word : List Char) : Prop :=
  match kind with
  | .whitespace => word ≠ [] ∧ ∀ c ∈ word, c ∈ [' ', '\t', '\n', '\r']
  | .var => ∃ c, word = [c] ∧ c.isAlpha = true
  | .number => IsNumeral word
  | .symbol => ∃ c, word = [c] ∧ c ≠ '\n'
  | kind => word ∈ kind.texts

/-- Of the kinds that match a text the one of the highest priority takes it. -/
def Kind.priority : Kind → Nat
  | .symbol => 0
  | .const => 3
  | _ => 2

/-- The word is what a kind of token takes from the start of the word and the rest: no kind matches more
of it, and those that match as much have a lower priority. -/
structure LongestMatch (kind : Kind) (word rest : List Char) : Prop where
  found : kind.Matches word
  longest {other : Kind} {longer back : List Char} :
    other.Matches longer → word ++ rest = longer ++ back → longer.length ≤ word.length
  preferred {other : Kind} : other.Matches word → other ≠ kind → other.priority < kind.priority

/-- Fixed texts have characters and no blanks among them. -/
theorem Kind.solid_of_mem_texts {kind : Kind} {word : List Char} (h : word ∈ kind.texts) :
    word ≠ [] ∧ ∀ c ∈ word, isSpace c = false := by
  have hall : ∀ w ∈ kind.texts, w ≠ [] ∧ ∀ c ∈ w, isSpace c = false := by
    cases kind <;> simp [texts, isSpace]
  exact hall word h

/-- Every match has a character. -/
theorem Kind.Matches.ne_nil {kind : Kind} {word : List Char} (h : kind.Matches word) : word ≠ [] := by
  cases kind with
  | whitespace => exact h.1
  | var =>
    obtain ⟨c, rfl, -⟩ := h
    exact List.cons_ne_nil _ _
  | symbol =>
    obtain ⟨c, rfl, -⟩ := h
    exact List.cons_ne_nil _ _
  | number =>
    obtain ⟨whole, rest, rfl, hsome, -, -⟩ := h
    exact List.append_ne_nil_of_left_ne_nil hsome rest
  | _ => exact (Kind.solid_of_mem_texts h).1

/-- At most one token is the longest match at a place. -/
theorem LongestMatch.unique {kind kind' : Kind} {word word' rest rest' : List Char}
    (h : LongestMatch kind word rest) (h' : LongestMatch kind' word' rest')
    (htext : word ++ rest = word' ++ rest') : kind = kind' ∧ word = word' ∧ rest = rest' := by
  have hlength : word.length = word'.length :=
    Nat.le_antisymm (h'.longest h.found htext.symm) (h.longest h'.found htext)
  obtain ⟨rfl, rfl⟩ := List.append_inj htext hlength
  refine ⟨by_contra fun hne => ?_, rfl, rfl⟩
  have hlower := h.preferred h'.found (Ne.symm hne)
  have hhigher := h'.preferred h.found hne
  omega

/-- The blanks are the spaces, the tabs and the ends of lines. -/
theorem isSpace_iff {c : Char} : isSpace c = true ↔ c ∈ [' ', '\t', '\n', '\r'] := by
  simp [isSpace, or_assoc]

/-- Digits are no blanks and no letters. -/
theorem class_of_isDigit {c : Char} (h : c.isDigit = true) :
    isSpace c = false ∧ c.isAlpha = false := by
  refine ⟨Bool.eq_false_iff.mpr fun hspace => ?_, Bool.eq_false_iff.mpr fun halpha => ?_⟩
  · have hblanks : [' ', '\t', '\n', '\r'].all (!·.isDigit) = true := by decide
    have hother := List.all_eq_true.mp hblanks c (isSpace_iff.mp hspace)
    rw [h] at hother
    cases hother
  · rw [(class_of_isAlpha halpha).2] at h
    cases h

/-- What matches a kind of token is made of blanks alone or has none. -/
theorem Kind.Matches.uniform {kind : Kind} {word : List Char} (h : kind.Matches word) :
    (∀ c ∈ word, isSpace c = true) ∨ ∀ c ∈ word, isSpace c = false := by
  cases kind with
  | whitespace => exact .inl fun c hc => isSpace_iff.mpr (h.2 c hc)
  | var =>
    obtain ⟨c, rfl, halpha⟩ := h
    exact .inr (List.forall_mem_singleton.mpr (class_of_isAlpha halpha).1)
  | symbol =>
    obtain ⟨c, rfl, -⟩ := h
    simp only [List.forall_mem_singleton]
    cases isSpace c <;> simp
  | number =>
    obtain ⟨whole, rest, rfl, -, hwhole, hrest⟩ := h
    refine .inr (List.forall_mem_append.mpr ⟨fun c hc => (class_of_isDigit (hwhole c hc)).1, ?_⟩)
    obtain rfl | ⟨places, rfl, -, hplaces⟩ := hrest
    · exact List.forall_mem_nil _
    · exact List.forall_mem_cons.mpr ⟨rfl, fun c hc => (class_of_isDigit (hplaces c hc)).1⟩
  | _ => exact .inr (Kind.solid_of_mem_texts h).2

/-- Blanks match their own kind, and one of them is a character like any other. -/
theorem Kind.Matches.of_isSpace {kind : Kind} {word : List Char} (h : kind.Matches word)
    (hspace : ∀ c ∈ word, isSpace c = true) : kind = .whitespace ∨ kind = .symbol := by
  cases kind with
  | whitespace => exact .inl rfl
  | symbol => exact .inr rfl
  | var =>
    obtain ⟨c, rfl, halpha⟩ := h
    rw [List.forall_mem_singleton, (class_of_isAlpha halpha).1] at hspace
    cases hspace
  | number =>
    obtain ⟨whole, rest, rfl, hsome, hwhole, -⟩ := h
    obtain ⟨d, ds, rfl⟩ := List.exists_cons_of_ne_nil hsome
    have hdigit := (class_of_isDigit (hwhole d (by simp))).1
    rw [hspace d (by simp)] at hdigit
    cases hdigit
  | _ =>
    obtain ⟨hsome, hsolid⟩ := Kind.solid_of_mem_texts h
    obtain ⟨c, hc⟩ := List.exists_mem_of_ne_nil word hsome
    have hblank := hspace c hc
    rw [hsolid c hc] at hblank
    cases hblank

/-- No match goes on where blanks begin or end. -/
theorem Kind.Matches.length_le_of_boundary {kind : Kind} {word rest longer back : List Char}
    (h : kind.Matches longer) (htext : word ++ rest = longer ++ back)
    {a : Char} (ha : a ∈ word) (hboundary : ∀ c ∈ rest.head?, isSpace c ≠ isSpace a) :
    longer.length ≤ word.length := by
  obtain ⟨more, hlonger, hrest⟩ | ⟨less, hword, -⟩ := List.append_eq_append_iff.mp htext
  · cases more with
    | nil => simp [hlonger]
    | cons c more =>
      have hdiffer := hboundary c (by simp [hrest])
      have hsame : isSpace c = isSpace a := by
        obtain hall | hall := h.uniform <;>
          rw [hall c (by simp [hlonger]), hall a (by simp [hlonger, ha])]
      exact (hdiffer hsame).elim
  · simp [hword]

/-- A run of blanks that no blank follows is a token. -/
theorem longestMatch_blanks {gap rest : List Char} (hsome : gap ≠ [])
    (hgap : ∀ c ∈ gap, isSpace c = true) (hrest : ∀ c ∈ rest.head?, isSpace c = false) :
    LongestMatch .whitespace gap rest where
  found := ⟨hsome, fun c hc => isSpace_iff.mp (hgap c hc)⟩
  longest hother htext := by
    obtain ⟨a, ha⟩ := List.exists_mem_of_ne_nil gap hsome
    refine hother.length_le_of_boundary htext ha fun c hc => ?_
    rw [hrest c hc, hgap a ha]
    exact Bool.noConfusion
  preferred hother hne := by
    obtain rfl := (hother.of_isSpace hgap).resolve_left hne
    decide

/-- A token of another kind has no blanks. -/
theorem LongestMatch.isSpace_eq_false {kind : Kind} {word rest : List Char}
    (h : LongestMatch kind word rest) (hkind : kind ≠ .whitespace) :
    ∀ c ∈ word, isSpace c = false := by
  refine h.found.uniform.resolve_left fun hall => ?_
  have hblank : Kind.whitespace.Matches word :=
    ⟨h.found.ne_nil, fun c hc => isSpace_iff.mp (hall c hc)⟩
  obtain rfl := (h.found.of_isSpace hall).resolve_left hkind
  exact absurd (h.preferred hblank (by decide)) (by decide)

/-- What follows a token that is not made of blanks can be replaced by nothing or by blanks. -/
theorem LongestMatch.before_blank {kind : Kind} {word rest rest' : List Char}
    (h : LongestMatch kind word rest) (hkind : kind ≠ .whitespace)
    (hrest : ∀ c ∈ rest'.head?, isSpace c = true) : LongestMatch kind word rest' where
  found := h.found
  longest hother htext := by
    obtain ⟨a, ha⟩ := List.exists_mem_of_ne_nil word h.found.ne_nil
    refine hother.length_le_of_boundary htext ha fun c hc => ?_
    rw [hrest c hc, h.isSpace_eq_false hkind a ha]
    exact Bool.noConfusion
  preferred := h.preferred

/-- A fixed text is a word that the scanner knows, or a single mark. -/
theorem Kind.of_mem_texts {kind : Kind} {c : Char} {cs : List Char} (h : c :: cs ∈ kind.texts) :
    (c.isAlpha = true ∧ ∀ back, wordKind c (cs ++ back) = (kind, cs.length)) ∨
      (c.isAlpha = false ∧ c.isDigit = false ∧ cs = [] ∧ kind = markKind c) := by
  cases kind <;>
    simp only [texts, List.mem_cons, List.cons.injEq, List.not_mem_nil, or_false] at h
  case const =>
    obtain ⟨rfl, rfl⟩ | ⟨rfl, rfl⟩ := h <;> exact .inl ⟨rfl, fun _ => rfl⟩
  all_goals
    obtain ⟨rfl, rfl⟩ := h
    first
      | exact .inl ⟨rfl, fun _ => rfl⟩
      | exact .inr ⟨rfl, rfl, rfl, rfl⟩

/-- A match that begins with a digit is a numeral, or the digit as a character like any other. -/
theorem Kind.Matches.of_isDigit {kind : Kind} {c : Char} {cs : List Char}
    (h : kind.Matches (c :: cs)) (hc : c.isDigit = true) :
    kind = .number ∨ kind = .symbol ∧ cs = [] := by
  obtain ⟨hspace, halpha⟩ := class_of_isDigit hc
  cases kind with
  | number => exact .inl rfl
  | symbol =>
    obtain ⟨d, hword, -⟩ := h
    exact .inr ⟨rfl, (List.cons.inj hword).2⟩
  | whitespace =>
    rw [isSpace_iff.mpr (h.2 c List.mem_cons_self)] at hspace
    cases hspace
  | var =>
    obtain ⟨d, hword, hletter⟩ := h
    rw [← (List.cons.inj hword).1, halpha] at hletter
    cases hletter
  | _ =>
    obtain ⟨hletter, -⟩ | ⟨-, hdigit, -⟩ := Kind.of_mem_texts h
    · rw [halpha] at hletter
      cases hletter
    · rw [hc] at hdigit
      cases hdigit

/-- A match that begins with a letter is a word that the scanner knows, or the letter alone. -/
theorem Kind.Matches.of_isAlpha {kind : Kind} {c : Char} {cs : List Char}
    (h : kind.Matches (c :: cs)) (hc : c.isAlpha = true) :
    (cs = [] ∧ (kind = .var ∨ kind = .symbol)) ∨
      ∀ back, wordKind c (cs ++ back) = (kind, cs.length) := by
  obtain ⟨hspace, hdigit⟩ := class_of_isAlpha hc
  cases kind with
  | var =>
    obtain ⟨d, hword, -⟩ := h
    exact .inl ⟨(List.cons.inj hword).2, .inl rfl⟩
  | symbol =>
    obtain ⟨d, hword, -⟩ := h
    exact .inl ⟨(List.cons.inj hword).2, .inr rfl⟩
  | whitespace =>
    rw [isSpace_iff.mpr (h.2 c List.mem_cons_self)] at hspace
    cases hspace
  | number =>
    obtain ⟨whole, rest, hword, hsome, hwhole, -⟩ := h
    obtain ⟨d, ds, rfl⟩ := List.exists_cons_of_ne_nil hsome
    rw [(List.cons.inj hword).1, hwhole d List.mem_cons_self] at hdigit
    cases hdigit
  | _ =>
    obtain ⟨-, hword⟩ | ⟨hother, -⟩ := Kind.of_mem_texts h
    · exact .inr hword
    · rw [hc] at hother
      cases hother

/-- A match that begins with none of these is the character alone. -/
theorem Kind.Matches.of_mark {kind : Kind} {c : Char} {cs : List Char} (h : kind.Matches (c :: cs))
    (hspace : isSpace c = false) (hdigit : c.isDigit = false) (halpha : c.isAlpha = false) :
    cs = [] ∧ (kind = .symbol ∨ kind = markKind c) := by
  cases kind with
  | symbol =>
    obtain ⟨d, hword, -⟩ := h
    exact ⟨(List.cons.inj hword).2, .inl rfl⟩
  | whitespace =>
    rw [isSpace_iff.mpr (h.2 c List.mem_cons_self)] at hspace
    cases hspace
  | var =>
    obtain ⟨d, hword, hletter⟩ := h
    rw [← (List.cons.inj hword).1, halpha] at hletter
    cases hletter
  | number =>
    obtain ⟨whole, rest, hword, hsome, hwhole, -⟩ := h
    obtain ⟨d, ds, rfl⟩ := List.exists_cons_of_ne_nil hsome
    rw [(List.cons.inj hword).1, hwhole d List.mem_cons_self] at hdigit
    cases hdigit
  | _ =>
    obtain ⟨hletter, -⟩ | ⟨-, -, hsingle, hmark⟩ := Kind.of_mem_texts h
    · rw [halpha] at hletter
      cases hletter
    · exact ⟨hsingle, .inr hmark⟩

/-- The digits at the start of a text belong to the numeral there. -/
theorem length_takeWhile_le_numeralTail (cs : List Char) :
    (cs.takeWhile Char.isDigit).length ≤ numeralTail cs := by
  rw [numeralTail]
  split
  · split <;> omega
  · exact Nat.le_refl _

/-- What a numeral takes is one. -/
theorem isNumeral_numeralTail {c : Char} (hc : c.isDigit = true) (cs : List Char) :
    IsNumeral (c :: cs.take (numeralTail cs)) := by
  have hwhole : ∀ d ∈ c :: cs.takeWhile Char.isDigit, d.isDigit = true :=
    List.forall_mem_cons.mpr ⟨hc, fun d hd => List.mem_takeWhile_imp hd⟩
  have hplain : IsNumeral (c :: cs.take (cs.takeWhile Char.isDigit).length) := by
    rw [← List.prefix_iff_eq_take.mp (List.takeWhile_prefix _)]
    exact ⟨_, [], (List.append_nil _).symm, List.cons_ne_nil _ _, hwhole, .inl rfl⟩
  rw [numeralTail]
  split
  · rename_i d rest hdrop
    split
    · rename_i hd
      refine ⟨c :: cs.takeWhile Char.isDigit, '.' :: d :: rest.takeWhile Char.isDigit, ?_,
        List.cons_ne_nil _ _, hwhole, .inr ⟨_, rfl, List.cons_ne_nil _ _,
        List.forall_mem_cons.mpr ⟨hd, fun x hx => List.mem_takeWhile_imp hx⟩⟩⟩
      have hcs : cs = cs.takeWhile Char.isDigit ++ '.' :: d :: rest := by
        conv_lhs => rw [← List.take_append_drop (cs.takeWhile Char.isDigit).length cs, hdrop,
          ← List.prefix_iff_eq_take.mp (List.takeWhile_prefix _)]
      have hplaces : rest.take (rest.takeWhile Char.isDigit).length = rest.takeWhile Char.isDigit :=
        (List.prefix_iff_eq_take.mp (List.takeWhile_prefix _)).symm
      generalize cs.takeWhile Char.isDigit = ds at hcs ⊢
      rw [hcs, Nat.add_assoc, List.take_length_add_append, Nat.add_comm 2, List.take_succ_cons,
        List.take_succ_cons, hplaces, List.cons_append]
    · exact hplain
  · exact hplain

/-- No numeral takes more. -/
theorem length_le_numeralTail {c : Char} {ds : List Char} (h : IsNumeral (c :: ds)) (cs : List Char) :
    ds.length ≤ numeralTail (ds ++ cs) := by
  obtain ⟨whole, rest, hword, hsome, hwhole, hrest⟩ := h
  obtain ⟨d, whole, rfl⟩ := List.exists_cons_of_ne_nil hsome
  rw [List.cons_append] at hword
  obtain ⟨rfl, rfl⟩ := List.cons.inj hword
  rw [List.forall_mem_cons] at hwhole
  obtain rfl | ⟨places, rfl, hplaces, hdigits⟩ := hrest
  · refine Nat.le_trans ?_ (length_takeWhile_le_numeralTail _)
    rw [List.append_nil, List.takeWhile_append_of_pos hwhole.2, List.length_append]
    exact Nat.le_add_right _ _
  · obtain ⟨p, ps, rfl⟩ := List.exists_cons_of_ne_nil hplaces
    rw [List.forall_mem_cons] at hdigits
    rw [List.append_assoc, numeralTail, takeWhile_isDigit hwhole.2 (by simp), List.drop_left]
    simp only [List.cons_append, hdigits.1, if_true, List.takeWhile_append_of_pos hdigits.2,
      List.length_append, List.length_cons]
    omega

/-- What is taken from a text is the longest match if no match that begins there goes further and the
kind is preferred. -/
theorem longestMatch_take {kind : Kind} {c : Char} {cs : List Char} {n : Nat}
    (found : kind.Matches (c :: cs.take n))
    (longest : ∀ {other : Kind} {l back}, other.Matches (c :: l) → cs = l ++ back → l.length ≤ n)
    (preferred : ∀ {other : Kind}, other.Matches (c :: cs.take n) → other ≠ kind →
      other.priority < kind.priority) : LongestMatch kind (c :: cs.take n) (cs.drop n) where
  found := found
  longest {other longer back} hother htext := by
    obtain ⟨d, l, rfl⟩ := List.exists_cons_of_ne_nil hother.ne_nil
    rw [List.cons_append, List.cons_append, List.take_append_drop] at htext
    obtain ⟨rfl, rfl⟩ := List.cons.inj htext
    have hle := longest hother rfl
    rw [List.length_cons, List.length_cons, List.length_take, List.length_append]
    omega
  preferred := preferred

/-- The blanks at a place are a token. -/
theorem longestMatch_spaces {c : Char} (hc : isSpace c = true) (cs : List Char) :
    LongestMatch .whitespace (c :: cs.take (cs.takeWhile isSpace).length)
      (cs.drop (cs.takeWhile isSpace).length) := by
  have hblanks : ∀ d ∈ c :: cs.take (cs.takeWhile isSpace).length, isSpace d = true := by
    rw [← List.prefix_iff_eq_take.mp (List.takeWhile_prefix _)]
    exact List.forall_mem_cons.mpr ⟨hc, fun d hd => List.mem_takeWhile_imp hd⟩
  refine longestMatch_take ⟨List.cons_ne_nil _ _, fun d hd => isSpace_iff.mp (hblanks d hd)⟩
    (fun {other l back} hother hcs => ?_) fun {other} hother hne => ?_
  · have hall := hother.uniform.resolve_right fun hsolid => by
      rw [hsolid c List.mem_cons_self] at hc
      cases hc
    rw [hcs, List.takeWhile_append_of_pos (List.forall_mem_cons.mp hall).2, List.length_append]
    exact Nat.le_add_right _ _
  · obtain rfl := (hother.of_isSpace hblanks).resolve_left hne
    decide

/-- The numeral at a place is a token. -/
theorem longestMatch_numeral {c : Char} (hc : c.isDigit = true) (cs : List Char) :
    LongestMatch .number (c :: cs.take (numeralTail cs)) (cs.drop (numeralTail cs)) := by
  refine longestMatch_take (isNumeral_numeralTail hc cs) (fun {other l back} hother hcs => ?_)
    fun {other} hother hne => ?_
  · obtain rfl | ⟨-, rfl⟩ := hother.of_isDigit hc
    · rw [hcs]
      exact length_le_numeralTail hother back
    · exact Nat.zero_le _
  · obtain ⟨rfl, -⟩ := (hother.of_isDigit hc).resolve_left hne
    decide

/-- The letter or the name at a place is a token. -/
theorem longestMatch_word {c : Char} (hc : c.isAlpha = true) (cs : List Char) :
    LongestMatch (wordKind c cs).1 (c :: cs.take (wordKind c cs).2) (cs.drop (wordKind c cs).2) := by
  refine longestMatch_take ?_ (fun {other l back} hother hcs => ?_) fun {other} hother hne => ?_
  · unfold wordKind
    split
    all_goals simp [Kind.Matches, Kind.texts, hc]
  · obtain ⟨rfl, -⟩ | hword := hother.of_isAlpha hc
    · exact Nat.zero_le _
    · rw [hcs, hword]
  · obtain ⟨hsingle, hkind⟩ | hword := hother.of_isAlpha hc
    · -- a name of several letters does not match the letter, and that of one letter is preferred
      unfold wordKind at hsingle hne ⊢
      split at hsingle
      all_goals obtain rfl | rfl := hkind
      all_goals simp [Kind.priority] at hsingle hne ⊢
    · have hsame := hword (cs.drop (wordKind c cs).2)
      rw [List.take_append_drop] at hsame
      exact (hne (congrArg Prod.fst hsame).symm).elim

/-- Any other character is a token. -/
theorem longestMatch_mark {c : Char} (hspace : isSpace c = false) (hdigit : c.isDigit = false)
    (halpha : c.isAlpha = false) (cs : List Char) :
    LongestMatch (markKind c) (c :: cs.take 0) (cs.drop 0) := by
  refine longestMatch_take ?_ (fun {other l back} hother _ => ?_) fun {other} hother hne => ?_
  · unfold markKind
    split
    all_goals simp only [Kind.Matches, Kind.texts, List.take_zero, List.mem_singleton]
    refine ⟨c, rfl, ?_⟩
    rintro rfl
    cases hspace
  · rw [(hother.of_mark hspace hdigit halpha).1]
    exact Nat.zero_le _
  · obtain rfl := (hother.of_mark hspace hdigit halpha).2.resolve_right hne
    unfold markKind at hne ⊢
    split at hne
    all_goals first | exact (hne rfl).elim | decide

/-- What the scanner takes is the longest match. -/
theorem longestMatch_munch (c : Char) (cs : List Char) :
    LongestMatch (munch c cs).1 (c :: cs.take (munch c cs).2) (cs.drop (munch c cs).2) := by
  rw [munch]
  split
  · exact longestMatch_spaces ‹_› cs
  · split
    · exact longestMatch_numeral ‹_› cs
    · split
      · exact longestMatch_word ‹_› cs
      · rename_i hspace hdigit halpha
        exact longestMatch_mark (Bool.eq_false_iff.mpr hspace) (Bool.eq_false_iff.mpr hdigit)
          (Bool.eq_false_iff.mpr halpha) cs

/-- The longest match at a place is the next token. -/
theorem LongestMatch.scanFrom_eq {kind : Kind} {word rest : List Char} (h : LongestMatch kind word rest)
    (offset : Nat) :
    scanFrom offset (word ++ rest) =
      ⟨kind, String.ofList word, ⟨offset, offset + Text.byteLength word⟩⟩ ::
        scanFrom (offset + Text.byteLength word) rest := by
  obtain ⟨c, cs, rfl⟩ := List.exists_cons_of_ne_nil h.found.ne_nil
  have htext : c :: cs ++ rest =
      c :: (cs ++ rest).take (munch c (cs ++ rest)).2 ++ (cs ++ rest).drop (munch c (cs ++ rest)).2 := by
    rw [List.cons_append, List.cons_append, List.take_append_drop]
  obtain ⟨hkind, hword, hrest⟩ := h.unique (longestMatch_munch c (cs ++ rest)) htext
  rw [List.cons_append, scanFrom]
  simp only [← hkind, ← hword, ← hrest]

/-- The text that tokens in a row are read from. -/
def text (tokens : List Token) : List Char := tokens.flatMap (·.lexeme.toList)

/-- The text of a token comes before that of the later ones. -/
theorem text_cons (t : Token) (tokens : List Token) : text (t :: tokens) = t.lexeme.toList ++ text tokens :=
  List.flatMap_cons

/-- The text that tokens were read from is theirs. -/
theorem text_scanFrom (offset : Nat) (cs : List Char) : text (scanFrom offset cs) = cs :=
  flatMap_lexeme_scanFrom offset cs

/-- Every token spans its text behind that of the tokens before it, and is the longest match there. -/
theorem of_scanFrom_eq_append {offset : Nat} {cs : List Char} (before : List Token) {after : List Token}
    {token : Token} (h : scanFrom offset cs = before ++ token :: after) :
    token.span = ⟨offset + Text.byteLength (text before),
        offset + Text.byteLength (text before) + Text.byteLength token.lexeme.toList⟩ ∧
      LongestMatch token.kind token.lexeme.toList (text after) := by
  fun_induction scanFrom offset cs generalizing before with
  | case1 => cases before <;> cases h
  | case2 offset c cs found lexeme stop ih =>
    cases before with
    | nil =>
      obtain ⟨rfl, rfl⟩ := List.cons.inj h
      rw [text_scanFrom]
      simp only [String.toList_ofList]
      exact ⟨rfl, longestMatch_munch c cs⟩
    | cons first before =>
      obtain ⟨rfl, hrest⟩ := List.cons.inj h
      obtain ⟨hspan, hmatch⟩ := ih before hrest
      refine ⟨?_, hmatch⟩
      rw [hspan, text_cons, Text.byteLength_append, String.toList_ofList, ← Nat.add_assoc]

/-- Every token of a source is the longest match of its kind at some place. -/
theorem longestMatch_of_mem_scan {source : String} {token : Token} (h : token ∈ scan source) :
    ∃ rest, LongestMatch token.kind token.lexeme.toList rest := by
  obtain ⟨before, after, hsplit⟩ := List.append_of_mem h
  exact ⟨_, (of_scanFrom_eq_append before hsplit).2⟩

/-- The texts of tokens in a row, with blanks between any two of them. -/
inductive Spaced : List Token → List Char → Prop
  | nil : Spaced [] []
  | last (token : Token) : Spaced [token] token.lexeme.toList
  | cons {token next : Token} {tokens : List Token} {gap cs : List Char} : gap ≠ [] →
      (∀ c ∈ gap, c ∈ [' ', '\t', '\n', '\r']) → Spaced (next :: tokens) cs →
      Spaced (token :: next :: tokens) (token.lexeme.toList ++ (gap ++ cs))

/-- The text begins with the first token. -/
theorem Spaced.exists_eq_append {token : Token} {tokens : List Token} {cs : List Char}
    (h : Spaced (token :: tokens) cs) : ∃ rest, cs = token.lexeme.toList ++ rest := by
  cases h with
  | last => exact ⟨[], (List.append_nil _).symm⟩
  | cons hsome hgap hnext => exact ⟨_, rfl⟩

/-- A token without what is lost when the tokens are set apart. -/
def content (t : Token) : Kind × String := (t.kind, t.lexeme)

/-- Tokens that are set apart by blanks are read as they were. -/
theorem Spaced.lex_eq {tokens : List Token} {cs : List Char} (h : Spaced tokens cs)
    (hsolid : ∀ t ∈ tokens, t.kind ≠ .whitespace)
    (hmatch : ∀ t ∈ tokens, ∃ rest, LongestMatch t.kind t.lexeme.toList rest) (offset : Nat) :
    (lex offset cs).map content = tokens.map content := by
  have hkeep {token : Token} {rest : List Char} (hkind : token.kind ≠ .whitespace)
      (hword : LongestMatch token.kind token.lexeme.toList rest) (offset : Nat) :
      (lex offset (token.lexeme.toList ++ rest)).map content = content token ::
        (lex (offset + Text.byteLength token.lexeme.toList) rest).map content := by
    rw [lex, hword.scanFrom_eq, List.filter_cons_of_pos (by simpa [isWhitespace] using hkind),
      List.map_cons, String.ofList_toList]
    rfl
  induction h generalizing offset with
  | nil => simp [lex, scanFrom]
  | last token =>
    rw [List.forall_mem_singleton] at hsolid hmatch
    obtain ⟨rest, hword⟩ := hmatch
    have hnothing : ∀ c ∈ ([] : List Char).head?, isSpace c = true := by simp
    have hend := hkeep hsolid (hword.before_blank hsolid hnothing) offset
    rw [List.append_nil] at hend
    rw [hend]
    simp [lex, scanFrom]
  | @cons token next tokens gap cs hsome hgap hnext ih =>
    rw [List.forall_mem_cons] at hsolid hmatch
    obtain ⟨rest, hword⟩ := hmatch.1
    have hblanks : ∀ c ∈ gap, isSpace c = true := fun c hc => isSpace_iff.mpr (hgap c hc)
    -- the first character behind the gap is that of the next token
    have hfront : ∀ c ∈ cs.head?, isSpace c = false := by
      obtain ⟨rest', hlater⟩ := (List.forall_mem_cons.mp hmatch.2).1
      obtain ⟨back, rfl⟩ := hnext.exists_eq_append
      intro c hc
      rw [List.head?_append_of_ne_nil _ hlater.found.ne_nil] at hc
      exact hlater.isSpace_eq_false (List.forall_mem_cons.mp hsolid.2).1 c (List.mem_of_mem_head? hc)
    have hgapped : ∀ c ∈ (gap ++ cs).head?, isSpace c = true := by
      intro c hc
      rw [List.head?_append_of_ne_nil _ hsome] at hc
      exact hblanks c (List.mem_of_mem_head? hc)
    rw [hkeep hsolid.1 (hword.before_blank hsolid.1 hgapped), lex,
      (longestMatch_blanks hsome hblanks hfront).scanFrom_eq,
      List.filter_cons_of_neg (by simp [isWhitespace])]
    exact congrArg _ (ih hsolid.2 hmatch.2 _)

/-- The bytes of the characters of a string are those of the string. -/
theorem byteLength_toList (s : String) : Text.byteLength s.toList = s.utf8ByteSize := by
  have hchars (cs : List Char) : Text.byteLength cs = (String.ofList cs).utf8ByteSize := by
    induction cs with
    | nil => rfl
    | cons c cs ih =>
      rw [Text.byteLength, ih, ← List.singleton_append, String.ofList_append,
        String.utf8ByteSize_append, ← String.singleton_eq_ofList, String.utf8ByteSize_singleton]
  rw [hchars, String.ofList_toList]

/-- Every source is cut into its longest tokens from left to right. Nothing of it is lost; each token has
a text, spans the bytes of its text behind those of the tokens before it, and is the longest match of
the kinds of tokens at its place. Setting the tokens apart by blanks, whatever stood between them
before, does not change how they are read. -/
theorem scan_longest_tokens (source : String) :
    text (scan source) = source.toList ∧
    (∀ before token after, scan source = before ++ token :: after →
      source.toList = text before ++ token.lexeme.toList ++ text after ∧ token.lexeme ≠ "" ∧
      token.span.start = Text.byteLength (text before) ∧
      token.span.stop = token.span.start + token.lexeme.utf8ByteSize ∧
      source.utf8ByteSize = token.span.stop + Text.byteLength (text after) ∧
      LongestMatch token.kind token.lexeme.toList (text after)) ∧
    ∀ joined : String, Spaced ((scan source).filter (!·.isWhitespace)) joined.toList →
      ((scan joined).filter (!·.isWhitespace)).map content =
        ((scan source).filter (!·.isWhitespace)).map content := by
  have htext : text (scan source) = source.toList := text_scanFrom 0 source.toList
  refine ⟨htext, fun before token after hsplit => ?_, fun joined hjoined => ?_⟩
  · obtain ⟨hspan, hmatch⟩ := of_scanFrom_eq_append before hsplit
    have hparts : source.toList = text before ++ token.lexeme.toList ++ text after := by
      rw [← htext, hsplit, List.append_assoc, ← text_cons]
      exact List.flatMap_append
    refine ⟨hparts, fun hempty => hmatch.found.ne_nil (by rw [hempty]; rfl), ?_, ?_, ?_, hmatch⟩
    · rw [hspan, Nat.zero_add]
    · rw [hspan, byteLength_toList]
    · rw [hspan, ← byteLength_toList source, hparts, Text.byteLength_append, Text.byteLength_append,
        Nat.zero_add]
  · exact hjoined.lex_eq
      (fun t ht => by simpa [isWhitespace] using List.of_mem_filter ht)
      (fun t ht => longestMatch_of_mem_scan (List.mem_of_mem_filter ht)) 0

/-- A function, a numeral and a point that is no part of it are read alike with blanks between them. -/
theorem scan_longest_tokens_numeral :
    ((scan "sin 2.5\t.").filter (!·.isWhitespace)).map content =
      ((scan "sin2.5.").filter (!·.isWhitespace)).map content := by
  have hscan : (scan "sin2.5.").filter (!·.isWhitespace) =
      [⟨.sin, "sin", ⟨0, 3⟩⟩, ⟨.number, "2.5", ⟨3, 6⟩⟩, ⟨.symbol, ".", ⟨6, 7⟩⟩] := by decide +kernel
  refine (scan_longest_tokens "sin2.5.").2.2 "sin 2.5\t." ?_
  rw [hscan]
  have hnumeral : Spaced [⟨.number, "2.5", ⟨3, 6⟩⟩, ⟨.symbol, ".", ⟨6, 7⟩⟩]
      ("2.5".toList ++ (['\t'] ++ ".".toList)) := .cons (by simp) (by simp) (.last _)
  exact .cons (List.cons_ne_nil ' ' []) (by simp) hnumeral

/-! ### Where tokens stand -/

/-- No token is empty, and each ends before the later ones start. -/
structure InOrder (tokens : List Token) : Prop where
  apart : tokens.Pairwise fun s t => s.span.stop ≤ t.span.start
  filled : ∀ t ∈ tokens, t.span.start < t.span.stop

/-- Some of the tokens in order are in order. -/
theorem InOrder.sublist {some all : List Token} (h : InOrder all) (hsub : some.Sublist all) :
    InOrder some :=
  ⟨h.apart.sublist hsub, fun t ht => h.filled t (hsub.subset ht)⟩

/-- The first of tokens in order starts before the last of them ends. -/
theorem InOrder.start_lt_stop {tokens : List Token} (h : InOrder tokens) {first last : Token}
    (hfirst : first ∈ tokens.head?) (hlast : last ∈ tokens.getLast?) :
    first.span.start < last.span.stop := by
  have hfilled := h.filled first (List.mem_of_mem_head? hfirst)
  obtain ⟨rest, rfl⟩ := List.head?_eq_some_iff.mp hfirst
  obtain rfl | hmem := List.mem_cons.mp (List.mem_of_mem_getLast? hlast)
  · exact hfilled
  · have hapart := (List.pairwise_cons.mp h.apart).1 last hmem
    have := h.filled last (List.mem_cons_of_mem _ hmem)
    omega

/-- The tokens that are read from an offset on are in order, and none starts before the offset. -/
theorem inOrder_scanFrom (offset : Nat) (cs : List Char) :
    InOrder (scanFrom offset cs) ∧ ∀ t ∈ scanFrom offset cs, offset ≤ t.span.start := by
  fun_induction scanFrom offset cs with
  | case1 => exact ⟨⟨.nil, by simp⟩, by simp⟩
  | case2 offset c cs found lexeme stop ih =>
    obtain ⟨⟨hapart, hfilled⟩, hlater⟩ := ih
    have hstop : offset < stop := by
      have := c.utf8Size_pos
      simp only [stop, lexeme, Text.byteLength]
      omega
    refine ⟨⟨List.pairwise_cons.mpr ⟨fun t ht => hlater t ht, hapart⟩, ?_⟩, ?_⟩
    · rw [List.forall_mem_cons]
      exact ⟨hstop, hfilled⟩
    · rw [List.forall_mem_cons]
      exact ⟨Nat.le_refl offset, fun t ht => hstop.le.trans (hlater t ht)⟩

/-- The tokens of a source that are no blanks are in order. -/
theorem inOrder_scan (source : String) :
    InOrder ((scan source).filter fun t => !t.isWhitespace) :=
  (inOrder_scanFrom 0 source.toList).1.sublist List.filter_sublist

end SymbolicAlgebra.Token
