import Mathlib.Data.List.TakeWhile
import Mathlib.Tactic.MkIffOfInductiveProp
import SymbolicAlgebra.Text.Blank

/-!
# Words and lines

A text that is put together of words and of the blanks between them is taken apart into these words, and
one that is put together of lines is taken apart into these lines. Blanks around words are dropped, and
nothing else.
-/

namespace SymbolicAlgebra.Text

/-- Blanks that do not end a line. -/
def Gap (cs : List Char) : Prop := ∀ c ∈ cs, isBlank c = true ∧ c ≠ '\n'

/-- Some characters none of which is blank. -/
@[mk_iff]
structure Word (cs : List Char) : Prop where
  nonempty : cs ≠ []
  solid : ∀ c ∈ cs, isBlank c = false

/-- Words with blanks between them, all in one line. -/
inductive Spaced : List (List Char) → List Char → Prop
  | last {word : List Char} : Spaced [word] word
  | cons {word gap cs : List Char} {words : List (List Char)} : gap ≠ [] → Gap gap → Spaced words cs →
    Spaced (word :: words) (word ++ gap ++ cs)

/-- What ends a line, before what follows: a line feed, or nothing at the end of the text. -/
inductive LineEnd : List Char → List Char → Prop
  | feed {rest : List Char} : LineEnd ['\n'] rest
  | finish : LineEnd [] []

/-- There are no characters in a gap of no length. -/
theorem gap_nil : Gap [] := fun _ h => by cases h

/-- No line ends in a gap. -/
theorem Gap.no_feed {gap : List Char} (h : Gap gap) : '\n' ∉ gap := fun hmem => (h _ hmem).2 rfl

/-- No line ends in a word. -/
theorem Word.no_feed {word : List Char} (h : Word word) : '\n' ∉ word :=
  fun hmem => absurd (h.solid _ hmem) (by decide)

/-- A gap with what ends the line after it consists of blanks. -/
theorem LineEnd.blank {gap stop rest : List Char} (h : LineEnd stop rest) (hgap : Gap gap) :
    ∀ c ∈ gap ++ stop, isBlank c = true := by
  rw [List.forall_mem_append]
  refine ⟨fun c hc => (hgap c hc).1, ?_⟩
  cases h with
  | feed => exact List.forall_mem_singleton.mpr (by decide)
  | finish => exact List.forall_mem_nil _

section Words

variable {word gap rest : List Char}

/-- Letters are added to the word that they follow. -/
theorem wordsAfter_append (h : ∀ c ∈ word, isBlank c = false) (before rest : List Char) :
    wordsAfter before (word ++ rest) = wordsAfter (word.reverse ++ before) rest := by
  induction word generalizing before with
  | nil => rfl
  | cons c word ih =>
    rw [List.forall_mem_cons] at h
    rw [List.cons_append, wordsAfter, h.1, if_neg Bool.false_ne_true, ih h.2, List.reverse_cons,
      List.append_assoc]
    rfl

/-- Blanks where no word has begun are passed over. -/
theorem words_gap (h : ∀ c ∈ gap, isBlank c = true) : words (gap ++ rest) = words rest := by
  induction gap with
  | nil => rfl
  | cons c gap ih =>
    rw [List.forall_mem_cons] at h
    rw [words, List.cons_append, wordsAfter, if_pos h.1]
    exact ih h.2

/-- A word with blanks behind it is the first word. -/
theorem words_word (hword : Word word) (hne : gap ≠ []) (hgap : ∀ c ∈ gap, isBlank c = true) :
    words (word ++ gap ++ rest) = word :: words rest := by
  have hbegun : word.reverse.isEmpty = false := by
    rw [List.isEmpty_reverse, List.isEmpty_eq_false_iff]
    exact hword.nonempty
  cases gap with
  | nil => exact (hne rfl).elim
  | cons c gap =>
    rw [List.forall_mem_cons] at hgap
    rw [words, List.append_assoc, wordsAfter_append hword.solid, List.append_nil, List.cons_append,
      wordsAfter, if_pos hgap.1, hbegun, if_neg Bool.false_ne_true, List.reverse_reverse]
    exact congrArg (word :: ·) (words_gap hgap.2)

variable {ws : List (List Char)} {cs : List Char}

/-- Words that are set apart by blanks are found again. -/
theorem Spaced.words_eq (h : Spaced ws cs) (hwords : ∀ word ∈ ws, Word word) : words cs = ws := by
  induction h with
  | @last word =>
    have hword := hwords word List.mem_cons_self
    have hbegun : word.reverse.isEmpty = false := by
      rw [List.isEmpty_reverse, List.isEmpty_eq_false_iff]
      exact hword.nonempty
    have hall := wordsAfter_append hword.solid [] []
    rw [List.append_nil, List.append_nil] at hall
    rw [words, hall, wordsAfter, hbegun, if_neg Bool.false_ne_true, List.reverse_reverse]
  | cons hne hgap _ ih =>
    rw [List.forall_mem_cons] at hwords
    rw [words_word hwords.1 hne fun c hc => (hgap c hc).1, ih hwords.2]

/-- A spaced text begins with its first word. -/
theorem Spaced.exists_first (h : Spaced (word :: ws) cs) : ∃ rest, cs = word ++ rest := by
  cases h with
  | last => exact ⟨[], (List.append_nil _).symm⟩
  | cons => exact ⟨_, List.append_assoc ..⟩

/-- A spaced text begins with a letter. -/
theorem Spaced.exists_head (h : Spaced ws cs) (hwords : ∀ word ∈ ws, Word word) :
    ∃ c rest, cs = c :: rest ∧ isBlank c = false := by
  obtain ⟨word, words, rfl⟩ : ∃ word words, ws = word :: words := by
    cases h with
    | last => exact ⟨_, _, rfl⟩
    | cons => exact ⟨_, _, rfl⟩
  obtain ⟨rest, rfl⟩ := h.exists_first
  have hword := hwords word List.mem_cons_self
  obtain ⟨c, letters, rfl⟩ := List.exists_cons_of_ne_nil hword.nonempty
  exact ⟨c, letters ++ rest, rfl, hword.solid c List.mem_cons_self⟩

/-- A spaced text ends with a letter. -/
theorem Spaced.exists_last (h : Spaced ws cs) (hwords : ∀ word ∈ ws, Word word) :
    ∃ front c, cs = front ++ [c] ∧ isBlank c = false := by
  induction h with
  | @last word =>
    have hword := hwords word List.mem_cons_self
    obtain ⟨front, c, rfl⟩ := (List.eq_nil_or_concat word).resolve_left hword.nonempty
    exact ⟨front, c, List.concat_eq_append, hword.solid c (by simp)⟩
  | cons _ _ _ ih =>
    obtain ⟨front, c, rfl, hc⟩ := ih fun word hword => hwords word (List.mem_cons_of_mem _ hword)
    exact ⟨_, c, (List.append_assoc ..).symm, hc⟩

/-- A spaced text is all in one line. -/
theorem Spaced.no_feed (h : Spaced ws cs) (hwords : ∀ word ∈ ws, Word word) : '\n' ∉ cs := by
  induction h with
  | last => exact (hwords _ List.mem_cons_self).no_feed
  | cons _ hgap _ ih =>
    rw [List.forall_mem_cons] at hwords
    simp only [List.mem_append, not_or]
    exact ⟨⟨hwords.1.no_feed, hgap.no_feed⟩, ih hwords.2⟩

end Words

section Trim

variable {before after cs : List Char}

/-- Blanks in front are dropped up to the first character that is none. -/
theorem trimStart_append (hbefore : ∀ c ∈ before, isBlank c = true) {c : Char} (hc : isBlank c = false)
    (cs : List Char) : trimStart (before ++ c :: cs) = c :: cs := by
  rw [trimStart, List.dropWhile_append_of_pos hbefore, List.dropWhile_cons_of_neg]
  rw [hc]
  exact Bool.false_ne_true

/-- Blanks behind are dropped back to the last character that is none. -/
theorem trimEnd_append (hafter : ∀ c ∈ after, isBlank c = true) {c : Char} (hc : isBlank c = false)
    (cs : List Char) : trimEnd (cs ++ [c] ++ after) = cs ++ [c] := by
  have hreversed : ∀ c ∈ after.reverse, isBlank c = true := fun c h => hafter c (List.mem_reverse.mp h)
  have hdropped := trimStart_append hreversed hc cs.reverse
  rw [trimStart] at hdropped
  rw [trimEnd, List.reverse_append, List.reverse_append, List.reverse_singleton, List.singleton_append,
    hdropped, List.reverse_cons, List.reverse_reverse]

/-- Nothing is left of blanks. -/
theorem trim_blank (h : ∀ c ∈ cs, isBlank c = true) : trim cs = [] := by
  have hnone : trimStart cs = [] := List.dropWhile_eq_nil_iff.mpr h
  rw [trim, hnone]
  rfl

/-- A trimmed text begins with its first character that is not blank. -/
theorem head?_trim (hbefore : ∀ c ∈ before, isBlank c = true) {c : Char} (hc : isBlank c = false)
    (cs : List Char) : ∃ rest, trim (before ++ c :: cs) = c :: rest := by
  rw [trim, trimStart_append hbefore hc, trimEnd, List.reverse_cons]
  have hkept : ∃ kept, (cs.reverse ++ [c]).dropWhile isBlank = kept ++ [c] := by
    by_cases hall : ∀ x ∈ cs.reverse, isBlank x = true
    · refine ⟨[], ?_⟩
      rw [List.dropWhile_append_of_pos hall, List.dropWhile_cons_of_neg (by simp [hc])]
      rfl
    · refine ⟨cs.reverse.dropWhile isBlank, ?_⟩
      rw [List.dropWhile_append, if_neg]
      rw [List.isEmpty_iff, List.dropWhile_eq_nil_iff]
      exact hall
  obtain ⟨kept, hkept⟩ := hkept
  exact ⟨kept.reverse, by rw [hkept, List.reverse_append]; rfl⟩

variable {ws : List (List Char)}

/-- A line of spaced words is trimmed to these, and what precedes them is what is dropped first. -/
theorem Spaced.trim_eq (h : Spaced ws cs) (hwords : ∀ word ∈ ws, Word word)
    (hbefore : ∀ c ∈ before, isBlank c = true) (hafter : ∀ c ∈ after, isBlank c = true) :
    trimStart (before ++ cs ++ after) = cs ++ after ∧ trim (before ++ cs ++ after) = cs := by
  have hstart : trimStart (before ++ cs ++ after) = cs ++ after := by
    obtain ⟨c, rest, rfl, hc⟩ := h.exists_head hwords
    rw [List.append_assoc, List.cons_append]
    exact trimStart_append hbefore hc _
  obtain ⟨front, c, rfl, hc⟩ := h.exists_last hwords
  refine ⟨hstart, ?_⟩
  rw [trim, hstart]
  exact trimEnd_append hafter hc front

end Trim

/-- What holds no cut is in front of the first piece. -/
theorem pieces_append {β : Type} {cut : β → Bool} {front rest piece : List β} {more : List (List β)}
    (hfront : ∀ b ∈ front, cut b = false) (h : pieces cut rest = piece :: more) :
    pieces cut (front ++ rest) = (front ++ piece) :: more := by
  induction front with
  | nil => exact h
  | cons b front ih =>
    rw [List.forall_mem_cons] at hfront
    rw [List.cons_append, pieces, hfront.1, if_neg Bool.false_ne_true, ih hfront.2]
    rfl

/-- The first line of a text with what ends it, and the lines after it. -/
theorem linesWithEnds_append {line stop rest : List Char} (hline : '\n' ∉ line)
    (hne : line ++ stop ≠ []) (h : LineEnd stop rest) :
    linesWithEnds (line ++ stop ++ rest) = (line ++ stop) :: linesWithEnds rest := by
  induction line with
  | nil =>
    cases h with
    | feed => rw [List.nil_append, List.singleton_append, linesWithEnds, if_pos rfl]
    | finish => exact (hne rfl).elim
  | cons c line ih =>
    simp only [List.mem_cons, not_or] at hline
    rw [List.cons_append, List.cons_append, linesWithEnds, if_neg (Ne.symm hline.1)]
    by_cases hmore : line ++ stop = []
    · obtain ⟨rfl, rfl⟩ := List.append_eq_nil_iff.mp hmore
      cases h
      rfl
    · rw [ih hline.2 hmore]

end SymbolicAlgebra.Text
