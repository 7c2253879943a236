import SymbolicAlgebra.Grammar.Reader
import SymbolicAlgebra.Grammar.Table
import SymbolicAlgebra.Proofs.Failure.Spans

/-!
# Where grammars are blamed

A failure to read a grammar, to check its rules or to build its table blames lines of its text without the
blanks around them, or rules, which run from such a line to another one further down. While the lines are read
the span of the rule that is still open ends before the lines that are left, so that every line that continues
it makes a longer span of it.
-/

namespace SymbolicAlgebra

open Text Failure

namespace Grammar

variable {text before : List Char}

/-- The span of a line without the blanks around it covers just that, between the ends of the line. -/
theorem selects_line {line after : List Char} (htext : text = before ++ (line ++ after)) {span : Span}
    (hstart : span.start = byteLength before + (byteLength line - byteLength (trimStart line)))
    (hstop : span.stop = span.start + byteLength (trim line)) :
    span.Selects text (trim line) ∧ byteLength before ≤ span.start ∧
      span.stop ≤ byteLength (before ++ line) := by
  obtain ⟨lead, trail, hline, hlead⟩ := exists_trim line
  rw [hlead] at hstart
  have hlength : byteLength line = byteLength lead + byteLength (trim line) + byteLength trail := by
    conv_lhs => rw [hline]
    rw [byteLength_append, byteLength_append]
  refine ⟨⟨before ++ lead, trail ++ after, ?_, ?_⟩, by omega, ?_⟩
  · rw [htext]
    conv_lhs => rw [hline]
    simp only [List.append_assoc]
  · rw [byteLength_append, ← hstart, ← hstop]
  · rw [byteLength_append]
    omega

/-- A definition is read at the span that is given to it, and that span is blamed if it is none. -/
theorem settles_readDefinition {span : Span} (hspan : span.Within text) (line : List Char) :
    Settles (readDefinition span line) (fun r => r.span = span) (Within · text) := by
  rw [readDefinition]
  split
  · exact within_located hspan _
  · exact within_located hspan _
  · rfl
  · exact within_located hspan _

/-- The rule that is left open has the span that it was given. -/
theorem within_close {pending : Option OpenRule} (h : ∀ r ∈ pending, r.span.Within text) :
    ∀ rule ∈ (pending.map OpenRule.close).toList, rule.span.Within text := by
  intro rule hrule
  obtain ⟨r, hr, rfl⟩ := Option.map_eq_some_iff.mp (Option.mem_toList.mp hrule)
  exact h r hr

/-- The rules that are read from the lines of a text have spans in the text, and so do the failures. The
induction is on the lines; the open rule ends before those that are left. -/
theorem settles_readLines (before : List Char) {lines : List (List Char)} (pending : Option OpenRule)
    (htext : text = before ++ lines.flatten)
    (hpending : ∀ r ∈ pending, r.span.Within text ∧ r.span.stop ≤ byteLength before) :
    Settles (readLines (byteLength before) pending lines) (∀ rule ∈ ·, rule.span.Within text)
      (Within · text) := by
  induction lines generalizing before pending with
  | nil => exact within_close fun r hr => (hpending r hr).1
  | cons line lines ih =>
    have hnext : text = (before ++ line) ++ lines.flatten := by
      rw [htext, List.flatten_cons, List.append_assoc]
    let start := byteLength before + (byteLength line - byteLength (trimStart line))
    let span : Span := ⟨start, start + byteLength (trim line)⟩
    obtain ⟨hselects, hstart, hstop⟩ : span.Selects text (trim line) ∧ byteLength before ≤ span.start ∧
        span.stop ≤ byteLength (before ++ line) :=
      selects_line (by rw [htext, List.flatten_cons]) rfl rfl
    have hspan := hselects.within
    have hlater : ∀ r ∈ pending, r.span.Within text ∧ r.span.stop ≤ byteLength (before ++ line) :=
      fun r hr => ⟨(hpending r hr).1, (hpending r hr).2.trans (by rw [byteLength_append]; omega)⟩
    rw [readLines.eq_def]
    dsimp only
    split
    · exact byteLength_append before line ▸ ih _ _ hnext hlater
    · exact byteLength_append before line ▸ ih _ _ hnext hlater
    · split
      · exact within_located hspan _
      · rename_i r
        obtain ⟨hr, hbefore⟩ := hpending r rfl
        -- the open rule stops before this line, so the two ends of the longer span are in order
        have hopen : Span.Within ⟨r.span.start, span.stop⟩ text :=
          Span.within_of_isBoundary (by have := hr.ordered; have := hspan.ordered; dsimp only; omega)
            hr.start hspan.stop
        rw [← byteLength_append]
        refine ih _ _ hnext ?_
        rintro _ ⟨⟩
        exact ⟨hopen, hstop⟩
    · refine .bind (settles_readDefinition hspan _) fun r hr => ?_
      rw [← byteLength_append]
      refine .bind (ih _ _ hnext ?_) fun rules hrules => ?_
      · rintro _ ⟨⟩
        exact ⟨hr ▸ hspan, hr ▸ hstop⟩
      · exact List.forall_mem_append.mpr ⟨within_close fun r hr => (hpending r hr).1, hrules⟩

/-- The two rules of one name are among the rules. -/
theorem mem_of_duplicate? {earlier rules : List Rule} {previous rule : Rule}
    (h : Rule.duplicate? earlier rules = some (previous, rule)) :
    previous ∈ earlier ++ rules ∧ rule ∈ rules := by
  induction rules generalizing earlier with
  | nil => cases h
  | cons first rules ih =>
    rw [Rule.duplicate?] at h
    split at h
    · rename_i found hfound
      cases h
      exact ⟨List.mem_append_left _ (List.mem_of_find?_eq_some hfound), List.mem_cons_self⟩
    · obtain ⟨hprevious, hrule⟩ := ih h
      rw [List.append_assoc, List.singleton_append] at hprevious
      exact ⟨hprevious, List.mem_cons_of_mem _ hrule⟩

/-- What is wrong with rules is blamed on some of them. -/
theorem within_of_fault? {rules : List Rule} (hrules : ∀ rule ∈ rules, rule.span.Within text)
    {failure : Failure} (h : fault? rules = some failure) : failure.Within text := by
  rw [fault?] at h
  split at h
  · rename_i previous rule hduplicate
    cases h
    obtain ⟨hprevious, hrule⟩ := mem_of_duplicate? hduplicate
    exact List.forall_mem_cons.mpr
      ⟨hrules previous hprevious, List.forall_mem_singleton.mpr (hrules rule hrule)⟩
  · obtain ⟨rule, hrule, h⟩ := List.exists_of_findSome?_eq_some h
    obtain ⟨alternative, -, h⟩ := List.exists_of_findSome?_eq_some h
    rw [Rule.alternativeFault?] at h
    split at h
    · cases h
      exact within_located (hrules rule hrule) _
    · obtain ⟨symbol, -, h⟩ := List.exists_of_findSome?_eq_some h
      split at h
      · split at h
        · cases h
        · cases h
          exact within_located (hrules rule hrule) _
      · cases h

/-- Rules with spans in a text make up a grammar of such rules, or a failure that blames some of them. -/
theorem settles_ofRules? {rules : List Rule} (hrules : ∀ rule ∈ rules, rule.span.Within text) :
    Settles (ofRules? rules) (∀ rule ∈ ·.rules, rule.span.Within text) (Within · text) := by
  unfold ofRules?
  split
  · exact within_detached _ _
  · split
    · rename_i hfault
      exact within_of_fault? hrules hfault
    · exact hrules

/-- The rules of a grammar that is read from a text have spans in it, and so has a failure. -/
theorem settles_read (source : String) : Settles (read source)
    (∀ rule ∈ ·.rules, rule.span.Within source.toList) (Within · source.toList) := by
  have hlines : Settles (readLines 0 none (linesWithEnds source.toList))
      (∀ rule ∈ ·, rule.span.Within source.toList) (Within · source.toList) :=
    settles_readLines [] none (flatten_linesWithEnds source.toList).symm nofun
  exact hlines.bind fun rules hrules => settles_ofRules? hrules

end Grammar

namespace Table

variable {text : List Char} {rule : Rule}

/-- A conflict is blamed on the rule. -/
theorem settles_claim (hrule : rule.span.Within text) (index : Nat) (row : List (Symbol × Nat))
    (symbols : List Symbol) :
    Settles (claim rule index row symbols) (fun _ => True) (Within · text) := by
  induction symbols generalizing row with
  | nil => trivial
  | cons symbol symbols ih =>
    rw [claim]
    split
    · exact within_located hrule _
    · exact ih _

/-- A conflict in a row is blamed on its rule. -/
theorem settles_fillRow (hrule : rule.span.Within text) (index : Nat) (row : List (Symbol × Nat))
    (rest : List (List Symbol)) :
    Settles (fillRow rule index row rest) (fun _ => True) (Within · text) := by
  induction rest generalizing index row with
  | nil => trivial
  | cons symbols rest ih => exact (settles_claim hrule index row symbols).bind fun row _ => ih _ row

/-- A table cannot be built only for something that is blamed on a rule. -/
theorem settles_build {g : Grammar} (hrules : ∀ rule ∈ g.rules, rule.span.Within text)
    (names : List String) : Settles (build g names) (fun _ => True) (Within · text) := by
  have hrow (alternatives : Rule → List (List Symbol)) : ∀ rule ∈ g.rules,
      Settles (do
        let row ← fillRow rule 0 [] (alternatives rule)
        return (rule.lhs, row)) (fun _ => True) (Within · text) :=
    fun rule hrule => (settles_fillRow (hrules rule hrule) 0 [] _).bind fun row _ => trivial
  rw [build]
  split
  · rename_i failure hunknown
    obtain ⟨⟨rule, symbol⟩, hmem, h⟩ := List.exists_of_findSome?_eq_some hunknown
    obtain ⟨rule', hrule, hsymbol⟩ := List.mem_flatMap.mp hmem
    obtain ⟨_, -, heq⟩ := List.mem_map.mp hsymbol
    cases heq
    cases symbol with
    | terminal name =>
      dsimp only at h
      split at h
      · cases h
      · cases h
        exact within_located (hrules _ hrule) _
    | _ => cases h
  · exact (settles_mapM (hrow _)).bind fun rows _ => trivial

end Table

end SymbolicAlgebra
