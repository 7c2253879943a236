import SymbolicAlgebra.Grammar.Reader
import SymbolicAlgebra.Proofs.Grammar.Rules
import SymbolicAlgebra.Proofs.Text.Words

/-!
# Layouts of a grammar

The rules of a grammar may be laid out in many ways: with any blanks between the words, a new line before
any of the bars, indentation, blank lines and comments. The reader keeps one rule open from line to line,
to which lines that start with a bar are added. Whatever the layout, the rules are read as they were
written, and each of them knows from which byte to which it stands in the text.
-/

namespace SymbolicAlgebra

/-- A rule before it is read: the word that it defines and the words of its alternatives. -/
structure Draft where
  lhs : String
  first : List String
  others : List (List String)

namespace Draft

/-- All the alternatives, of which there is at least one. -/
def alternatives (d : Draft) : List (List String) := d.first :: d.others

/-- The rule that is drafted, where it stands in the span. -/
def rule (d : Draft) (span : Text.Span) : Rule :=
  ⟨d.lhs, d.alternatives.map (·.map Symbol.classify), span⟩

/-- A draft consists of words that are not taken for an arrow, a bar or the start of a comment. -/
@[mk_iff]
structure Valid (d : Draft) : Prop where
  lhs_word : Text.Word d.lhs.toList
  lhs_ne_arrow : d.lhs ≠ "->"
  lhs_head : ∀ c ∈ d.lhs.toList.head?, c ≠ '#' ∧ c ≠ '|'
  alternative_ne_nil : ∀ alternative ∈ d.alternatives, alternative ≠ []
  word : ∀ alternative ∈ d.alternatives, ∀ word ∈ alternative, Text.Word word.toList ∧ word ≠ "|"

/-- Valid drafts of different nonterminals, among these all that are used. -/
@[mk_iff]
structure Consistent (drafts : List Draft) : Prop where
  valid : ∀ d ∈ drafts, d.Valid
  nodup : (drafts.map lhs).Nodup
  defined : ∀ d ∈ drafts, ∀ alternative ∈ d.alternatives, ∀ word ∈ alternative,
    (Symbol.classify word).isNonterminal = true → word ∈ drafts.map lhs

end Draft

namespace Grammar

open Text

/-- Alternatives as they follow other ones: each with a bar in front. -/
def bars (alternatives : List (List String)) : List String := alternatives.flatMap ("|" :: ·)

/-- The bar in front of an alternative is followed by its words. -/
theorem bars_cons (alternative : List String) (others : List (List String)) :
    bars (alternative :: others) = "|" :: (alternative ++ bars others) := rfl

/-- Some alternatives follow others. -/
theorem bars_append (here rest : List (List String)) : bars (here ++ rest) = bars here ++ bars rest :=
  List.flatMap_append

/-- A line, without what ends it, that the reader leaves out: one of blanks, or a comment. -/
inductive Remark : List Char → Prop
  | blank {gap : List Char} : Gap gap → Remark gap
  | comment {gap text : List Char} : Gap gap → '\n' ∉ text → Remark (gap ++ '#' :: text)

/-- Lines that are all left out. -/
inductive Remarks : List Char → Prop
  | nil : Remarks []
  | line {line rest : List Char} : Remark line → Remarks rest → Remarks (line ++ ['\n'] ++ rest)

/-- What stands between two lines that are not left out: the end of one line, remarks, and the blanks that
the other is indented by. -/
inductive Break : List Char → Prop
  | intro {trailing between indent : List Char} : Gap trailing → Remarks between → Gap indent →
    Break (trailing ++ ['\n'] ++ between ++ indent)

/-- What may follow the last line that is not left out. -/
inductive Ending : List Char → Prop
  | line {trailing : List Char} : Gap trailing → Ending trailing
  | lines {trailing between last : List Char} : Gap trailing → Remarks between → Remark last →
    Ending (trailing ++ ['\n'] ++ between ++ last)

/-- Lines that each add some alternatives to a rule. -/
inductive Continued : List (List String) → List Char → Prop
  | nil : Continued [] []
  | line {here rest : List (List String)} {br line more : List Char} : here ≠ [] → Break br →
    Spaced ((bars here).map String.toList) line → Continued rest more →
    Continued (here ++ rest) (br ++ line ++ more)

/-- A rule as it is written: a line with an arrow, and lines that go on with the rule. -/
inductive Written (d : Draft) : List Char → Prop
  | intro {here rest : List (List String)} {line more : List Char} : d.others = here ++ rest →
    Spaced ((d.lhs :: "->" :: d.first ++ bars here).map String.toList) line → Continued rest more →
    Written d (line ++ more)

/-- Some drafts, one or more, as they are written one after the other from a byte offset on, and the rules
that they stand for. -/
inductive Layout : Nat → List Draft → List Char → List Rule → Prop
  | last {offset : Nat} {d : Draft} {body ending : List Char} : Written d body → Ending ending →
    Layout offset [d] (body ++ ending) [d.rule ⟨offset, offset + byteLength body⟩]
  | next {offset : Nat} {d : Draft} {drafts : List Draft} {body br text : List Char} {rules : List Rule} :
    Written d body → Break br → Layout (offset + byteLength (body ++ br)) drafts text rules →
    Layout offset (d :: drafts) (body ++ br ++ text)
      (d.rule ⟨offset, offset + byteLength body⟩ :: rules)

/-- Reads the rest of a text from the start of a line on. -/
def readText (offset : Nat) (pending : Option OpenRule) (cs : List Char) : Except Failure (List Rule) :=
  readLines offset pending (linesWithEnds cs)

section Lines

variable {offset : Nat} {pending : Option OpenRule} {line stop rest : List Char}

/-- A remark is all in one line. -/
theorem Remark.no_feed (h : Remark line) : '\n' ∉ line := by
  cases h with
  | blank hgap => exact hgap.no_feed
  | comment hgap htext =>
    simp only [List.mem_append, List.mem_cons, not_or]
    exact ⟨hgap.no_feed, by decide, htext⟩

/-- Of a remark nothing is left, or what begins with the sign for comments. -/
theorem Remark.trim_eq (h : Remark line) (hstop : LineEnd stop rest) :
    trim (line ++ stop) = [] ∨ ∃ shown, trim (line ++ stop) = '#' :: shown := by
  cases h with
  | blank hgap => exact .inl (trim_blank (hstop.blank hgap))
  | @comment gap text hgap _ =>
    rw [List.append_assoc, List.cons_append]
    exact .inr (head?_trim (fun c hc => (hgap c hc).1) (by decide) (text ++ stop))

/-- A line that is a remark is left out. -/
theorem Remark.readText_eq (h : Remark line) (hstop : LineEnd stop rest) :
    readText offset pending (line ++ stop ++ rest) =
      readText (offset + byteLength (line ++ stop)) pending rest := by
  -- at the end of the text a line of no characters is not a line to the reader
  by_cases hne : line ++ stop = []
  · obtain ⟨rfl, rfl⟩ := List.append_eq_nil_iff.mp hne
    rfl
  · rw [readText, linesWithEnds_append h.no_feed hne hstop, readLines.eq_def]
    obtain htrim | ⟨shown, htrim⟩ := h.trim_eq hstop
    · simp only [htrim]
      rfl
    · simp only [htrim]
      rfl

/-- A remark at the end of the text is left out. -/
theorem Remark.readText_last (h : Remark line) :
    readText offset pending line = .ok (pending.map OpenRule.close).toList := by
  have hread : readText offset pending (line ++ [] ++ []) = _ := h.readText_eq .finish
  rwa [List.append_nil, List.append_nil] at hread

/-- Remarks are left out. -/
theorem Remarks.readText_eq {between : List Char} (h : Remarks between) :
    readText offset pending (between ++ rest) = readText (offset + byteLength between) pending rest := by
  induction h generalizing offset with
  | nil => rfl
  | line hline _ ih =>
    rw [List.append_assoc, hline.readText_eq .feed, ih, Nat.add_assoc, ← byteLength_append]

variable {indent core trailing : List Char} {words : List String}

/-- The words of a line are those that it is written with. -/
theorem lineWords_eq (hcore : Spaced (words.map String.toList) core)
    (hwords : ∀ word ∈ words, Word word.toList) : lineWords core = words := by
  rw [lineWords, hcore.words_eq (List.forall_mem_map.mpr hwords), List.map_map]
  exact List.map_id'' (fun _ => String.ofList_toList) words

/-- What the reader takes for a line of words, for the words in it, and for the place where they begin. -/
theorem linesWithEnds_words (hindent : Gap indent) (hcore : Spaced (words.map String.toList) core)
    (hwords : ∀ word ∈ words, Word word.toList) (htrailing : Gap trailing) (hstop : LineEnd stop rest) :
    linesWithEnds (indent ++ core ++ trailing ++ stop ++ rest) =
        (indent ++ core ++ trailing ++ stop) :: linesWithEnds rest ∧
      trim (indent ++ core ++ trailing ++ stop) = core ∧
      byteLength (indent ++ core ++ trailing ++ stop) -
        byteLength (trimStart (indent ++ core ++ trailing ++ stop)) = byteLength indent := by
  have hsolid : ∀ word ∈ words.map String.toList, Word word := List.forall_mem_map.mpr hwords
  have hfeed : '\n' ∉ indent ++ core ++ trailing := by
    simp only [List.mem_append, not_or]
    exact ⟨⟨hindent.no_feed, hcore.no_feed hsolid⟩, htrailing.no_feed⟩
  have hne : indent ++ core ++ trailing ++ stop ≠ [] := by
    obtain ⟨c, more, rfl, -⟩ := hcore.exists_head hsolid
    simp
  obtain ⟨hstart, htrim⟩ := hcore.trim_eq hsolid (fun c hc => (hindent c hc).1) (hstop.blank htrailing)
  rw [← List.append_assoc] at hstart htrim
  refine ⟨linesWithEnds_append hfeed hne hstop, htrim, ?_⟩
  simp only [hstart, byteLength_append]
  omega

/-- A line of a word, an arrow and other words defines the word. -/
theorem readDefinition_eq {lhs : String} {span : Text.Span} (h : lineWords line = lhs :: "->" :: words)
    (hlhs : lhs ≠ "->") : readDefinition span line = .ok ⟨lhs, words, span⟩ := by
  rw [readDefinition, h]
  split
  · rename_i heq
    cases heq
  · rename_i heq
    cases heq
    exact (hlhs rfl).elim
  · rename_i heq
    cases heq
    rfl
  · rename_i hno
    exact (hno _ _ rfl).elim

/-- A line with a bar in front is added to the open rule. -/
theorem readText_bar {r : OpenRule} (hindent : Gap indent)
    (hcore : Spaced (("|" :: words).map String.toList) core)
    (hwords : ∀ word ∈ "|" :: words, Word word.toList) (htrailing : Gap trailing)
    (hstop : LineEnd stop rest) :
    readText offset (some r) (indent ++ core ++ trailing ++ stop ++ rest) =
      readText (offset + byteLength (indent ++ core ++ trailing ++ stop))
        (some ⟨r.lhs, r.words ++ "|" :: words, ⟨r.span.start, offset + byteLength (indent ++ core)⟩⟩)
        rest := by
  obtain ⟨hlines, htrim, hstart⟩ := linesWithEnds_words hindent hcore hwords htrailing hstop
  have hlineWords := lineWords_eq hcore hwords
  obtain ⟨more, rfl⟩ : ∃ more, core = '|' :: more := hcore.exists_first
  rw [readText, hlines, readLines.eq_def]
  simp only [htrim, hstart, hlineWords]
  rw [Nat.add_assoc, ← byteLength_append]
  rfl

/-- A text leaves a rule open that extends to its end: whatever the rest of its last line, and whatever
follows that, the rule that was open before is closed and this one may be continued. -/
def Leaves (offset : Nat) (pending : Option OpenRule) (front : List Char) (start : Nat) (lhs : String)
    (words : List String) : Prop :=
  ∀ trailing stop rest, Gap trailing → LineEnd stop rest →
    readText offset pending (front ++ trailing ++ stop ++ rest) =
      ((pending.map OpenRule.close).toList ++ ·) <$>
        readText (offset + byteLength (front ++ trailing ++ stop))
          (some ⟨lhs, words, ⟨start, offset + byteLength front⟩⟩) rest

section Leaves

variable {front more : List Char} {start : Nat} {lhs : String} {others : List (List String)}

/-- A line with an arrow opens a rule. -/
theorem leaves_definition (hindent : Gap indent)
    (hcore : Spaced ((lhs :: "->" :: words).map String.toList) core)
    (hwords : ∀ word ∈ lhs :: "->" :: words, Word word.toList) (hlhs : lhs ≠ "->")
    (hhead : ∀ c ∈ lhs.toList.head?, c ≠ '#' ∧ c ≠ '|') :
    Leaves offset pending (indent ++ core) (offset + byteLength indent) lhs words := by
  intro trailing stop rest htrailing hstop
  obtain ⟨hlines, htrim, hstart⟩ := linesWithEnds_words hindent hcore hwords htrailing hstop
  have hlineWords := lineWords_eq hcore hwords
  obtain ⟨c, more, rfl, hne⟩ : ∃ c more, core = c :: more ∧ c ≠ '#' ∧ c ≠ '|' := by
    obtain ⟨more, rfl⟩ := hcore.exists_first
    obtain ⟨c, letters, hletters⟩ := List.exists_cons_of_ne_nil (hwords lhs List.mem_cons_self).nonempty
    exact ⟨c, letters ++ more, by rw [hletters, List.cons_append], hhead c (by rw [hletters]; rfl)⟩
  rw [readText, hlines, readLines.eq_def]
  simp only [htrim, hstart]
  split
  · rename_i heq
    cases heq
  · rename_i heq
    cases heq
    exact (hne.1 rfl).elim
  · rename_i heq
    cases heq
    exact (hne.2 rfl).elim
  · rw [readDefinition_eq hlineWords hlhs, Nat.add_assoc, ← byteLength_append]
    rfl

/-- What is left open at the end of a line stays open through the remarks below that line. -/
theorem Leaves.readText_eq {between : List Char} (h : Leaves offset pending front start lhs words)
    (htrailing : Gap trailing) (hbetween : Remarks between) (rest : List Char) :
    readText offset pending (front ++ (trailing ++ ['\n'] ++ between ++ rest)) =
      ((pending.map OpenRule.close).toList ++ ·) <$>
        readText (offset + byteLength (front ++ (trailing ++ ['\n'] ++ between)))
          (some ⟨lhs, words, ⟨start, offset + byteLength front⟩⟩) rest := by
  have hread := h trailing ['\n'] (between ++ rest) htrailing .feed
  rw [hbetween.readText_eq] at hread
  simpa only [List.append_assoc, byteLength_append, Nat.add_assoc] using hread

/-- A rule that is left open takes the alternatives of a line that goes on with it. -/
theorem Leaves.extended {br : List Char} (h : Leaves offset pending front start lhs words)
    (hne : others ≠ []) (hbreak : Break br) (hcore : Spaced ((bars others).map String.toList) core)
    (hwords : ∀ word ∈ bars others, Word word.toList) :
    Leaves offset pending (front ++ (br ++ core)) start lhs (words ++ bars others) := by
  intro trailing stop rest htrailing hstop
  obtain @⟨ending, between, indent, hending, hbetween, hindent⟩ := hbreak
  obtain ⟨alternative, others, rfl⟩ := List.exists_cons_of_ne_nil hne
  rw [bars_cons] at hcore hwords ⊢
  have hread := h.readText_eq hending hbetween (indent ++ core ++ trailing ++ stop ++ rest)
  rw [readText_bar hindent hcore hwords htrailing hstop] at hread
  simpa only [List.append_assoc, byteLength_append, Nat.add_assoc] using hread

/-- A rule that is left open takes the alternatives of all lines that go on with it. -/
theorem Leaves.continued (h : Leaves offset pending front start lhs words) (hmore : Continued others more)
    (hwords : ∀ word ∈ bars others, Word word.toList) :
    Leaves offset pending (front ++ more) start lhs (words ++ bars others) := by
  induction hmore generalizing front words with
  | nil => rwa [List.append_nil, bars, List.flatMap_nil, List.append_nil]
  | @line here rest br line more hne hbreak hcore _ ih =>
    rw [bars_append, List.forall_mem_append] at hwords
    have hline := ih (h.extended hne hbreak hcore hwords.1) hwords.2
    rwa [bars_append, ← List.append_assoc front, ← List.append_assoc words]

/-- What follows the last rule is left out, and the rule is closed. -/
theorem Leaves.ending {cs : List Char} (h : Leaves offset pending front start lhs words)
    (hending : Ending cs) :
    readText offset pending (front ++ cs) = .ok ((pending.map OpenRule.close).toList ++
      [OpenRule.close ⟨lhs, words, ⟨start, offset + byteLength front⟩⟩]) := by
  cases hending with
  | line htrailing =>
    have hread := h _ [] [] htrailing .finish
    rwa [List.append_nil, List.append_nil] at hread
  | lines htrailing hbetween hlast =>
    rw [h.readText_eq htrailing hbetween, hlast.readText_last]
    rfl

end Leaves

end Lines

section Rules

variable {offset : Nat} {pending : Option OpenRule} {indent text body : List Char} {d : Draft}
  {drafts : List Draft} {rules : List Rule}

/-- Alternatives are found again between the bars. -/
theorem pieces_bars {first : List String} {others : List (List String)}
    (h : ∀ alternative ∈ first :: others, ∀ word ∈ alternative, (word == "|") = false) :
    pieces (· == "|") (first ++ bars others) = first :: others := by
  induction others generalizing first with
  | nil =>
    rw [bars, List.flatMap_nil, pieces_append (h first List.mem_cons_self) rfl, List.append_nil]
  | cons alternative others ih =>
    rw [List.forall_mem_cons] at h
    have hbars : pieces (· == "|") (bars (alternative :: others)) = [] :: alternative :: others := by
      rw [bars_cons, pieces, if_pos (beq_self_eq_true _), ih h.2]
    rw [pieces_append h.1 hbars, List.append_nil]

/-- A bar is a word. -/
theorem word_bar : Word "|".toList :=
  have h : Word ['|'] := ⟨List.cons_ne_nil _ _, List.forall_mem_singleton.mpr (by decide)⟩
  h

/-- An arrow is a word. -/
theorem word_arrow : Word "->".toList :=
  have h : Word ['-', '>'] := ⟨List.cons_ne_nil _ _,
    List.forall_mem_cons.mpr ⟨by decide, List.forall_mem_singleton.mpr (by decide)⟩⟩
  h

/-- A bar in front of words keeps them words. -/
theorem word_bars {others : List (List String)}
    (h : ∀ alternative ∈ others, ∀ word ∈ alternative, Word word.toList) :
    ∀ word ∈ bars others, Word word.toList := by
  intro word hword
  obtain ⟨alternative, halternative, hword⟩ := List.mem_flatMap.mp hword
  obtain rfl | hword := List.mem_cons.mp hword
  · exact word_bar
  · exact h alternative halternative word hword

/-- A rule that was left open with the words of a draft is closed as it was drafted. -/
theorem close_draft (h : d.Valid) (span : Text.Span) :
    OpenRule.close ⟨d.lhs, d.first ++ bars d.others, span⟩ = d.rule span := by
  have hwords : ∀ alternative ∈ d.first :: d.others, ∀ word ∈ alternative, (word == "|") = false :=
    fun alternative ha word hword => beq_eq_false_iff_ne.mpr (h.word alternative ha word hword).2
  rw [OpenRule.close, pieces_bars hwords]
  rfl

/-- A rule that is written down is left open as it was drafted. -/
theorem Written.leaves (h : Written d body) (hvalid : d.Valid) (hindent : Gap indent) :
    Leaves offset pending (indent ++ body) (offset + byteLength indent) d.lhs
      (d.first ++ bars d.others) := by
  obtain @⟨here, rest, line, more, hothers, hline, hmore⟩ := h
  have hwords : ∀ word ∈ bars here ++ bars rest, Word word.toList := by
    rw [← bars_append, ← hothers]
    exact word_bars fun alternative ha word hword =>
      (hvalid.word alternative (List.mem_cons_of_mem _ ha) word hword).1
  rw [List.forall_mem_append] at hwords
  have hfirst : ∀ word ∈ d.lhs :: "->" :: d.first ++ bars here, Word word.toList := by
    simp only [List.cons_append, List.forall_mem_cons, List.forall_mem_append]
    exact ⟨hvalid.lhs_word, word_arrow,
      fun word hword => (hvalid.word d.first List.mem_cons_self word hword).1, hwords.1⟩
  have hopen : Leaves offset pending (indent ++ line) (offset + byteLength indent) d.lhs
      (d.first ++ bars here) :=
    leaves_definition hindent hline hfirst hvalid.lhs_ne_arrow hvalid.lhs_head
  rw [hothers, bars_append, ← List.append_assoc, ← List.append_assoc]
  exact hopen.continued hmore hwords.2

/-- Rules that are written down are read as they were drafted. -/
theorem Layout.readText_eq {start : Nat} (h : Layout start drafts text rules)
    (hvalid : ∀ d ∈ drafts, d.Valid) (hindent : Gap indent) (hstart : start = offset + byteLength indent) :
    readText offset pending (indent ++ text) = .ok ((pending.map OpenRule.close).toList ++ rules) := by
  -- a rule is closed only where the next one begins, so the induction is over whatever rule is still open
  induction h generalizing offset pending indent with
  | @last start d body ending hwritten hending =>
    have hvalid := List.forall_mem_singleton.mp hvalid
    have hleft : Leaves offset pending (indent ++ body) _ _ _ := hwritten.leaves hvalid hindent
    have hread := hleft.ending hending
    rwa [close_draft hvalid, byteLength_append, ← Nat.add_assoc, ← hstart, List.append_assoc] at hread
  | @next start d drafts body br text rules hwritten hbreak _ ih =>
    rw [List.forall_mem_cons] at hvalid
    obtain @⟨trailing, between, below, htrailing, hbetween, hbelow⟩ := hbreak
    have hleft : Leaves offset pending (indent ++ body) _ _ _ := hwritten.leaves hvalid.1 hindent
    have hread := hleft.readText_eq htrailing hbetween (below ++ text)
    rw [ih hvalid.2 hbelow (by simp only [hstart, byteLength_append]; omega)] at hread
    rw [Option.map_some, close_draft hvalid.1, byteLength_append, ← Nat.add_assoc, ← hstart] at hread
    simp only [List.append_assoc] at hread ⊢
    exact hread

/-- The rules define what the drafts define, in order. -/
theorem Layout.names_eq {start : Nat} (h : Layout start drafts text rules) :
    rules.map Rule.lhs = drafts.map Draft.lhs := by
  induction h with
  | last => rfl
  | next _ _ _ ih => exact congrArg (_ :: ·) ih

/-- Every rule is one that was drafted. -/
theorem Layout.exists_draft {start : Nat} (h : Layout start drafts text rules) :
    ∀ rule ∈ rules, ∃ d ∈ drafts, ∃ span, rule = d.rule span := by
  induction h with
  | last => exact List.forall_mem_singleton.mpr ⟨_, List.mem_singleton_self _, _, rfl⟩
  | next _ _ _ ih =>
    refine List.forall_mem_cons.mpr ⟨⟨_, List.mem_cons_self, _, rfl⟩, fun rule hrule => ?_⟩
    obtain ⟨d, hd, hrule⟩ := ih rule hrule
    exact ⟨d, List.mem_cons_of_mem _ hd, hrule⟩

/-- A nonterminal is named by the word that stands for it. -/
theorem eq_of_classify {word name : String} (h : Symbol.classify word = .nonterminal name) :
    name = word ∧ (Symbol.classify word).isNonterminal = true := by
  refine ⟨?_, by rw [h]; rfl⟩
  unfold Symbol.classify at h
  split at h
  · cases h
  · cases h
  · split at h
    · cases h
    · exact (Symbol.nonterminal.inj h).symm
  · exact (Symbol.nonterminal.inj h).symm

/-- Consistent drafts make up a grammar. -/
theorem Layout.exists_grammar {start : Nat} (h : Layout start drafts text rules)
    (hdrafts : Draft.Consistent drafts) : ∃ g, ofRules? rules = .ok g ∧ g.rules = rules := by
  have hne : rules ≠ [] := by
    rintro rfl
    cases h
  refine ofRules?_eq_ok hne (fault?_eq_none (h.names_eq ▸ hdrafts.nodup) ?_ ?_)
  · intro rule hrule alternative halternative
    obtain ⟨d, hd, _, rfl⟩ := h.exists_draft rule hrule
    obtain ⟨words, hwords, rfl⟩ := List.mem_map.mp halternative
    exact List.map_eq_nil_iff.not.mpr ((hdrafts.valid d hd).alternative_ne_nil words hwords)
  · intro rule hrule alternative halternative name hname
    obtain ⟨d, hd, _, rfl⟩ := h.exists_draft rule hrule
    obtain ⟨words, hwords, rfl⟩ := List.mem_map.mp halternative
    obtain ⟨word, hword, hclass⟩ := List.mem_map.mp hname
    obtain ⟨rfl, hnonterminal⟩ := eq_of_classify hclass
    rw [h.names_eq]
    exact hdrafts.defined d hd words hwords _ hword hnonterminal

/-- A grammar is read as it was written, whatever the layout: its rules are those of the drafts, each with
the span of its text, and the first of them defines the start symbol. -/
theorem read_written {lead : List Char} (hlead : Remarks lead) (hindent : Gap indent)
    (hlayout : Layout (byteLength (lead ++ indent)) drafts text rules)
    (hdrafts : Draft.Consistent drafts) :
    ∃ g, read (String.ofList (lead ++ indent ++ text)) = .ok g ∧ g.rules = rules ∧
      some g.start = drafts.head?.map Draft.lhs := by
  have hread : readText 0 none (lead ++ (indent ++ text)) = .ok rules := by
    rw [hlead.readText_eq, Nat.zero_add]
    exact hlayout.readText_eq hdrafts.valid hindent (byteLength_append ..)
  obtain ⟨g, hg, hrules⟩ := hlayout.exists_grammar hdrafts
  refine ⟨g, ?_, hrules, ?_⟩
  · rw [readText, ← List.append_assoc] at hread
    rw [read, String.toList_ofList, hread]
    exact hg
  · have hstart : some g.start = (g.rules.map Rule.lhs).head? := rfl
    rw [hstart, hrules, hlayout.names_eq, List.head?_map]

end Rules

/-- Some spaces are a gap. -/
theorem gap_replicate (n : Nat) : Gap (List.replicate n ' ') := by
  intro c hc
  rw [List.eq_of_mem_replicate hc]
  decide

/-- A word is set apart from others by spaces. -/
theorem spaced_replicate {first : List Char} {others : List (List Char)} {cs : List Char} (n : Nat)
    (h : Spaced others cs) : Spaced (first :: others) (first ++ List.replicate (n + 1) ' ' ++ cs) :=
  .cons (List.cons_ne_nil _ _) (gap_replicate (n + 1)) h

/-- Two rules below a comment are read. They are indented, and the second goes on below another comment. -/
theorem read_written_sums :
    ∃ g, read ("# sums of variables\n  sum  -> VAR tail\n  tail -> PLUS VAR tail\n" ++
        "     # or nothing\n       | @\n") = .ok g ∧
      g.rules = [⟨"sum", [[.terminal "VAR", .nonterminal "tail"]], ⟨22, 38⟩⟩,
        ⟨"tail", [[.terminal "PLUS", .terminal "VAR", .nonterminal "tail"], [.epsilon]], ⟨41, 91⟩⟩] ∧
      some g.start = some "sum" := by
  have hsum : Written ⟨"sum", ["VAR", "tail"], []⟩ _ := .intro (rfl : _ = [] ++ [])
    (spaced_replicate 1 (spaced_replicate 0 (spaced_replicate 0 .last))) .nil
  have hcomment : Remarks (List.replicate 5 ' ' ++ '#' :: " or nothing".toList ++ ['\n'] ++ []) :=
    .line (.comment (gap_replicate 5) (by simp)) .nil
  have hbar : Spaced ((bars [["@"]]).map String.toList) _ := spaced_replicate 0 .last
  have htail : Written ⟨"tail", ["PLUS", "VAR", "tail"], [["@"]]⟩ _ := .intro (rfl : _ = [] ++ [["@"]])
    (spaced_replicate 0 (spaced_replicate 0 (spaced_replicate 0 (spaced_replicate 0 .last))))
    (.line (List.cons_ne_nil _ _) (.intro gap_nil hcomment (gap_replicate 7)) hbar .nil)
  have hlead : Remarks ([] ++ '#' :: " sums of variables".toList ++ ['\n'] ++ []) :=
    .line (.comment gap_nil (by simp)) .nil
  have hlayout (start : Nat) : Layout start _ _ _ := .next hsum (.intro gap_nil .nil (gap_replicate 2))
    (.last htail (.lines gap_nil .nil (.blank gap_nil)))
  have hdrafts : Draft.Consistent
      [⟨"sum", ["VAR", "tail"], []⟩, ⟨"tail", ["PLUS", "VAR", "tail"], [["@"]]⟩] := by
    simp [Draft.consistent_iff, Draft.valid_iff, Draft.alternatives, word_iff, isBlank, Symbol.classify,
      Symbol.isNonterminal]
  obtain ⟨g, hread, hrules, hstart⟩ := read_written hlead (gap_replicate 2) (hlayout _) hdrafts
  refine ⟨g, ?_, ?_, hstart⟩
  · rw [← hread]
    refine congrArg read ?_
    decide +kernel
  · rw [hrules]
    decide +kernel

end Grammar

end SymbolicAlgebra
