import SymbolicAlgebra.Proofs.Expr.Located
import SymbolicAlgebra.Proofs.Grammar.Expression
import SymbolicAlgebra.Proofs.Grammar.Located
import SymbolicAlgebra.Proofs.ParseTree.Language
import SymbolicAlgebra.Scalar.Binary64
import SymbolicAlgebra.Session.Basic

/-!
# Where lines are blamed

A line is an expression with bindings behind a semicolon. Bindings that cannot be read are blamed at
their own place in the line, since each starts behind the comma after the one before it. The
expression is the front of the line, so what is blamed in it is in the line as well; and its end is
blamed at the semicolon, also if all of the line is parsed, since a semicolon is no token of an
expression.
-/

namespace SymbolicAlgebra

open Text Failure

namespace Text

variable {β : Type} {cut : β → Bool}

/-- Where there is no cut, all comes before it. -/
theorem takeWhile_of_splitFirst_none {bs : List β} (h : splitFirst cut bs = none) :
    bs.takeWhile (!cut ·) = bs := by
  induction bs with
  | nil => rfl
  | cons b bs ih =>
    rw [splitFirst] at h
    split at h
    · cases h
    · rename_i hb
      rw [List.takeWhile_cons_of_pos (by simpa using hb), ih (Option.map_eq_none_iff.mp h)]

/-- The first cut stands between what comes before it and what comes after it. -/
theorem eq_of_splitFirst {bs before after : List β} (h : splitFirst cut bs = some (before, after)) :
    ∃ b, cut b = true ∧ bs = before ++ b :: after ∧ bs.takeWhile (!cut ·) = before := by
  induction bs generalizing before with
  | nil => cases h
  | cons b bs ih =>
    rw [splitFirst] at h
    split at h
    · rename_i hb
      cases h
      exact ⟨b, hb, rfl, List.takeWhile_cons_of_neg (by simpa using hb)⟩
    · rename_i hb
      obtain ⟨⟨front, rest⟩, hsplit, heq⟩ := Option.map_eq_some_iff.mp h
      cases heq
      obtain ⟨c, hc, rfl, hfront⟩ := ih hsplit
      exact ⟨c, hc, rfl, by rw [List.takeWhile_cons_of_pos (by simpa using hb), hfront]⟩

/-- There is always a first piece. -/
theorem pieces_ne_nil (bs : List β) : pieces cut bs ≠ [] := by
  cases bs with
  | nil => exact List.cons_ne_nil _ _
  | cons b bs =>
    rw [pieces]
    split
    · exact List.cons_ne_nil _ _
    · split <;> exact List.cons_ne_nil _ _

/-- The first piece is all there is, or a cut stands between it and the others. -/
theorem eq_of_pieces {bs piece : List β} {rest : List (List β)}
    (h : pieces cut bs = piece :: rest) :
    (rest = [] ∧ bs = piece) ∨ ∃ b after, cut b = true ∧ bs = piece ++ b :: after ∧
      pieces cut after = rest := by
  induction bs generalizing piece with
  | nil =>
    cases h
    exact .inl ⟨rfl, rfl⟩
  | cons b bs ih =>
    rw [pieces] at h
    split at h
    · rename_i hb
      cases h
      exact .inr ⟨b, bs, hb, rfl, rfl⟩
    · cases hpieces : pieces cut bs with
      | nil => exact (pieces_ne_nil bs hpieces).elim
      | cons first others =>
        rw [hpieces] at h
        cases h
        obtain ⟨rfl, rfl⟩ | ⟨c, after, hc, rfl, hrest⟩ := ih hpieces
        · exact .inl ⟨rfl, rfl⟩
        · exact .inr ⟨c, after, hc, rfl, hrest⟩

end Text

namespace Token

/-- No semicolon is part of a word of the grammar of expressions. -/
theorem Kind.Matches.eq_symbol {kind : Kind} {word : List Char} (h : kind.Matches word)
    (hmem : ';' ∈ word) : kind = .symbol := by
  have htexts (kind : Kind) : ∀ word ∈ kind.texts, ';' ∉ word := by cases kind <;> decide
  cases kind with
  | symbol => rfl
  | whitespace => exact absurd (h.2 _ hmem) (by decide)
  | var =>
    obtain ⟨c, rfl, halpha⟩ := h
    rw [← List.mem_singleton.mp hmem] at halpha
    exact absurd halpha (by decide)
  | number =>
    have hdigits {cs : List Char} (hcs : ∀ c ∈ cs, c.isDigit = true) : ';' ∉ cs := fun hc =>
      absurd (hcs _ hc) (by decide)
    obtain ⟨whole, rest, rfl, -, hwhole, hrest⟩ := h
    obtain rfl | ⟨places, rfl, -, hplaces⟩ := hrest
    · simp [hdigits hwhole] at hmem
    · simp [hdigits hwhole, hdigits hplaces] at hmem
  | _ => exact absurd hmem (htexts _ word h)

/-- A source in which a semicolon stands has a token that no terminal of the grammar of expressions
stands for. -/
theorem exists_symbol {source : String} (h : ';' ∈ source.toList) :
    ∃ t ∈ (scan source).filter fun t => !t.isWhitespace, t.terminal = "SYMBOL" := by
  have htext : text (scan source) = source.toList := text_scanFrom 0 source.toList
  rw [← htext] at h
  obtain ⟨t, ht, hmem⟩ := List.mem_flatMap.mp h
  obtain ⟨_, hmatch⟩ := longestMatch_of_mem_scan ht
  have hkind := hmatch.found.eq_symbol hmem
  exact ⟨t, List.mem_filter.mpr ⟨ht, by simp [isWhitespace, hkind]⟩, by rw [terminal, hkind]; rfl⟩

end Token

/-- The part of a line in front of its first semicolon, or all of it. -/
def Session.expressionPart (line : List Char) : List Char := line.takeWhile (· != ';')

namespace Failure

/-- What the failure blames is in the line: an unexpected token and an invalid binding are blamed at
the text that the failure shows, and an unexpected end at the end of the expression. -/
def PointsInto (f : Failure) (line : List Char) : Prop :=
  f.Within line ∧
    match f.fault with
    | .unexpectedToken _ _ lexeme => ∃ s, f.spans = [s] ∧ s.Selects line lexeme.toList
    | .invalidBinding text => ∃ s, f.spans = [s] ∧ s.Selects line text.toList
    | .unexpectedEnd _ => f.spans = [.point (byteLength (Session.expressionPart line))]
    | _ => True

end Failure

namespace Session

variable {α : Type} [Scalar α] {line : List Char}

/-- Bindings between commas are read, or one of them is blamed where it stands in the line. The
induction is on the bindings; those that are left start behind the ones that were read. -/
theorem settles_readBindings {before cs : List Char} (hline : line = before ++ cs) (b : Bindings α)
    {texts : List (List Char)} (htexts : pieces (· == ',') cs = texts) :
    Settles (readBindings (byteLength before) b texts) (fun _ => True) (PointsInto · line) := by
  induction texts generalizing before cs b with
  | nil => trivial
  | cons text texts ih =>
    obtain ⟨after, hafter⟩ : ∃ after, line = before ++ text ++ after := by
      obtain ⟨-, rfl⟩ | ⟨c, after, -, rfl, -⟩ := eq_of_pieces htexts
      · exact ⟨[], by rw [hline, List.append_nil]⟩
      · exact ⟨c :: after, by rw [hline, List.append_assoc]⟩
    let span : Span := ⟨byteLength before, byteLength before + byteLength text⟩
    have hselects : span.Selects line text := ⟨before, after, hafter, rfl⟩
    have hinvalid : (located span (.invalidBinding (String.ofList text))).PointsInto line :=
      ⟨within_located hselects.within _, span, rfl, by rwa [String.toList_ofList]⟩
    rw [readBindings.eq_def]
    dsimp only
    split
    · exact hinvalid
    · split
      · exact hinvalid
      · split
        · exact hinvalid
        · obtain ⟨rfl, -⟩ | ⟨c, after, hc, rfl, hrest⟩ := eq_of_pieces htexts
          · trivial
          · obtain rfl : c = ',' := by simpa using hc
            have hnext :
                byteLength before + byteLength text + 1 = byteLength (before ++ text ++ [',']) := by
              rw [byteLength_append, byteLength_append]
              rfl
            rw [hnext]
            exact ih (by rw [hline]; simp) _ hrest

/-- A line is cut into its expression and its bindings, or one of them is blamed. -/
theorem settles_splitBindings (line : List Char) :
    Settles (splitBindings line : Except Failure (String × Option (Bindings α)))
      (fun found => found.1 = String.ofList (expressionPart line)) (PointsInto · line) := by
  rw [splitBindings]
  split
  · rename_i hnone
    exact congrArg String.ofList (takeWhile_of_splitFirst_none hnone).symm
  · rename_i source bindings hsome
    obtain ⟨c, hc, rfl, hsource⟩ := eq_of_splitFirst hsome
    obtain rfl : c = ';' := by simpa using hc
    have hstart : byteLength source + 1 = byteLength (source ++ [';']) := by
      rw [byteLength_append]
      rfl
    rw [hstart]
    refine (settles_readBindings (by simp) _ rfl).bind fun b _ => ?_
    exact congrArg String.ofList hsource.symm

/-- What is blamed in a source at the front of a line is in the line. A source without a semicolon,
as one whose tokens have all been taken, has to be the expression of the line. -/
theorem pointsInto_of_locates {source : String} {rest : List Char}
    (hline : line = source.toList ++ rest)
    (hpart : ';' ∉ source.toList → source.toList = expressionPart line) {f : Failure}
    (h : ParseTree.Locates (· ≠ "SYMBOL") source.utf8ByteSize
      ((Token.scan source).filter fun token => !token.isWhitespace) f) : f.PointsInto line := by
  have hselects {t : Token} (ht : t ∈ (Token.scan source).filter fun token => !token.isWhitespace) :
      t.span.Selects line t.lexeme.toList := by
    rw [hline]
    exact (Token.selects_of_mem_scan (List.mem_of_mem_filter ht)).append_right rest
  cases h with
  | @unexpectedToken t expected ht =>
    exact ⟨within_located (hselects ht).within _, t.span, rfl, hselects ht⟩
  | expectedEnd ht => exact ⟨within_located (hselects ht).within _, trivial⟩
  | unexpectedEnd expected hknown =>
    -- a semicolon would have been a token that no terminal takes, and the end not been reached
    have hnone : ';' ∉ source.toList := fun hmem => by
      obtain ⟨t, ht, hsymbol⟩ := Token.exists_symbol hmem
      exact hknown t ht hsymbol
    have hend : source.utf8ByteSize = byteLength (expressionPart line) := by
      rw [← hpart hnone, Token.byteLength_toList]
    refine ⟨within_located (Span.within_point ?_) _, by rw [hend]; rfl⟩
    rw [hline, ← Token.byteLength_toList]
    exact isBoundary_append _ _
  | workExhausted => exact ⟨within_detached _ _, trivial⟩

/-- The sources that are parsed for a line: the line itself and its expression. -/
theorem exists_rest {source : String}
    (hsource : source ∈ [String.ofList line, String.ofList (expressionPart line)]) :
    ∃ rest, line = source.toList ++ rest ∧
      (';' ∉ source.toList → source.toList = expressionPart line) := by
  obtain rfl | hsource := List.mem_cons.mp hsource
  · rw [String.toList_ofList]
    refine ⟨[], (List.append_nil line).symm, fun hnone => ?_⟩
    refine (List.takeWhile_eq_self_iff.mpr fun c hc => ?_).symm
    rw [bne_iff_ne]
    rintro rfl
    exact hnone hc
  · obtain rfl := List.mem_singleton.mp hsource
    rw [String.toList_ofList]
    exact ⟨line.dropWhile (· != ';'), List.takeWhile_append_dropWhile.symm, fun _ => rfl⟩

/-- The grammar of expressions has no terminal for what begins no other token. -/
theorem ne_symbol_of_lookup? {table : Table} (htable : Table.expression = .ok table) {name : String}
    {next : Symbol} {alternative : List Symbol} (h : table.lookup? name next = some alternative)
    {t : String} (ht : .terminal t ∈ alternative) : t ≠ "SYMBOL" := by
  obtain ⟨table', htable', hreads⟩ := Table.exists_expression
  obtain rfl := Except.ok.inj (htable'.symm.trans htable)
  obtain ⟨rule, hrule, -, halternative⟩ := (Table.built_of_expression htable).produces_of_lookup? h
  obtain ⟨choice, hchoice, heq⟩ := List.mem_map.mp (hreads.complete rule hrule _ halternative)
  have hnone : ∀ choice ∈ Table.expressionChoices, Symbol.terminal "SYMBOL" ∉ choice.2.2 := by
    decide
  rintro rfl
  exact hnone choice hchoice (congrArg Prod.snd heq ▸ ht)

/-- A source of a line is read as an expression, or something in the line is blamed. -/
theorem settles_read {table : Table} (htable : Table.expression = .ok table) {source : String}
    (hsource : source ∈ [String.ofList line, String.ofList (expressionPart line)]) :
    Settles (ParseTree.parse table source) (ParseTree.Inside source.toList) (PointsInto · line) ∧
      ∀ limits, Settles (Expr.read table limits source : Except Failure (Expr α)) (fun _ => True)
        (PointsInto · line) := by
  obtain ⟨rest, hline, hpart⟩ := exists_rest hsource
  have hparse : Settles (ParseTree.parse table source) (ParseTree.Inside source.toList)
      (PointsInto · line) :=
    (ParseTree.settles_parse (fun _ _ _ h _ => ne_symbol_of_lookup? htable h) source).imp
      (fun _ => id) fun _ => pointsInto_of_locates hline hpart
  refine ⟨hparse, fun limits => hparse.bind fun tree htree => ?_⟩
  refine (Expr.settles_ofTree limits htree).imp (fun _ => id) fun f hf => ⟨fun s hs => ?_, ?_⟩
  · rw [hline]
    exact (hf.within s hs).append_right rest
  · cases hf <;> trivial

/-- Failures point into their text. Whatever is blamed when a grammar is read or its table is built
is in the text of the grammar; whatever is blamed when a line is cut, parsed or read as an
expression is in the line. There an unexpected token and an invalid binding are blamed exactly where
their text stands, and an unexpected end at the end of the expression. -/
theorem failures_point_into_text {table : Table} (htable : Table.expression = .ok table) :
    (∀ (text : String) (f : Failure), Grammar.read text = .error f → f.Within text.toList) ∧
    (∀ (text : String) (g : Grammar) (names : List String) (f : Failure),
      Grammar.read text = .ok g → Table.build g names = .error f → f.Within text.toList) ∧
    ∀ line : List Char,
      (∀ f, (splitBindings line : Except Failure (String × Option (Bindings α))) = .error f →
        f.PointsInto line) ∧
      (∀ source, ∀ b : Option (Bindings α), splitBindings line = .ok (source, b) →
        source = String.ofList (expressionPart line)) ∧
      ∀ source ∈ [String.ofList line, String.ofList (expressionPart line)],
        (∀ f, ParseTree.parse table source = .error f → f.PointsInto line) ∧
        ∀ limits f, (Expr.read table limits source : Except Failure (Expr α)) = .error f →
          f.PointsInto line := by
  refine ⟨fun text f h => (Grammar.settles_read text).of_error h, fun text g names f hg h => ?_,
    fun line => ⟨fun f h => (settles_splitBindings line).of_error h, fun source b h => ?_,
      fun source hsource => ?_⟩⟩
  · exact (Table.settles_build ((Grammar.settles_read text).of_ok hg) names).of_error h
  · exact (settles_splitBindings line).of_ok h
  · obtain ⟨hparse, hread⟩ := settles_read (α := α) htable hsource
    exact ⟨fun f => hparse.of_error, fun limits f => (hread limits).of_error⟩

/-- Whether an operation fails with a failure that has a property can be decided by running it. -/
instance {β : Type} (x : Except Failure β) (p : Failure → Prop) [DecidablePred p] :
    Decidable (∃ f, x = .error f ∧ p f) :=
  match x with
  | .error f =>
    decidable_of_iff (p f) ⟨fun h => ⟨f, rfl, h⟩, fun ⟨_, h, hf⟩ => Except.error.inj h ▸ hf⟩
  | .ok _ => isFalse fun ⟨_, h, _⟩ => by cases h

/-- A letter of two bytes is blamed in an expression, the binding behind it by its place in the
line, and a line that starts with such a letter in a grammar. -/
theorem failures_point_into_text_line : ∃ table, Table.expression = .ok table ∧
    (∃ f, Grammar.read "é B" = .error f ∧ f.spans = [⟨0, 4⟩] ∧ f.Within "é B".toList) ∧
    (∃ f, (splitBindings "log(x)é;y".toList : Except Failure (String × Option (Bindings Float))) =
      .error f ∧
      f = .located ⟨9, 10⟩ (.invalidBinding "y") ∧ f.PointsInto "log(x)é;y".toList) ∧
    ∃ f, ParseTree.parse table "log(x)é" = .error f ∧ f.spans = [⟨6, 8⟩] ∧
      f.PointsInto "log(x)é;y".toList := by
  obtain ⟨table, htable, hreads⟩ := Table.exists_expression
  obtain ⟨hgrammar, -, hlines⟩ := failures_point_into_text (α := Float) htable
  obtain ⟨hsplit, -, hsources⟩ := hlines "log(x)é;y".toList
  have hread : ∃ f, Grammar.read "é B" = .error f ∧ f.spans = [⟨0, 4⟩] := by decide +kernel
  have hbinding : ∃ f,
      (splitBindings "log(x)é;y".toList : Except Failure (String × Option (Bindings Float))) =
      .error f ∧ f = .located ⟨9, 10⟩ (.invalidBinding "y") := by decide +kernel
  have hsource : "log(x)é" = String.ofList (expressionPart "log(x)é;y".toList) := by decide +kernel
  have hscan : ((Token.scan "log(x)é").filter fun t => !t.isWhitespace) =
      [⟨.log, "log", ⟨0, 3⟩⟩, ⟨.leftParen, "(", ⟨3, 4⟩⟩, ⟨.var, "x", ⟨4, 5⟩⟩,
        ⟨.rightParen, ")", ⟨5, 6⟩⟩, ⟨.symbol, "é", ⟨6, 8⟩⟩] := by decide +kernel
  have hparse : ParseTree.parse table "log(x)é" =
      .error (ParseTree.unexpectedToken table (.terminal "UNDERSCORE") ⟨.symbol, "é", ⟨6, 8⟩⟩) := by
    have hbuilt := Table.built_of_expression htable
    refine ParseTree.parse_eq_error_of_parseSymbol hbuilt nofun
      (?_ : ParseTree.parseSymbol _ _ 16 _ _ = _)
    -- the table is known by what it gives, and is not computed once more
    have hlookup := hreads.choices
    simp only [Table.expressionChoices, Table.Chooses, Table.operandKinds, List.forall_mem_cons,
      Token.Kind.name] at hlookup
    rw [hscan, hreads.start]
    simp [ParseTree.parseSymbol, ParseTree.parseAll, hlookup, Token.terminal, Token.Kind.name, bind,
      Except.bind, pure, Except.pure]
  obtain ⟨g, hg, hgspans⟩ := hread
  obtain ⟨b, hb, hinvalid⟩ := hbinding
  refine ⟨table, htable, ⟨g, hg, hgspans, hgrammar _ _ hg⟩, ⟨b, hb, hinvalid, hsplit b hb⟩, _,
    hparse, rfl, (hsources "log(x)é" ?_).1 _ hparse⟩
  exact List.mem_cons_of_mem _ (List.mem_singleton.mpr hsource)

end Session

end SymbolicAlgebra
