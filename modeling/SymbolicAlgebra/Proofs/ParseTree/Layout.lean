import SymbolicAlgebra.Proofs.ParseTree.Loop
import SymbolicAlgebra.Proofs.Token.Munch

/-!
# Parsing without places

Where the tokens of a source stand has no influence on how they are parsed. Two sources whose tokens have
the same kinds and texts are parsed into trees that differ in places only, or are refused for the same
reason, at tokens that come equally many tokens after the first or both at the end. Both parsers are
followed at once: before each symbol they have passed the same number of tokens.
-/

namespace SymbolicAlgebra

/-- Two computations that both answer, with related answers, or that both fail, with related failures. -/
inductive Agrees {β γ : Type} (blame : Failure → Failure → Prop) (r : β → γ → Prop) :
    Except Failure β → Except Failure γ → Prop
  | ok {b : β} {c : γ} : r b c → Agrees blame r (.ok b) (.ok c)
  | error {f f' : Failure} : blame f f' → Agrees blame r (.error f) (.error f')

namespace Agrees

variable {β γ β' γ' : Type} {blame blame' : Failure → Failure → Prop} {r : β → γ → Prop}
  {x : Except Failure β} {y : Except Failure γ}

/-- Computations in sequence agree if the first ones do and the second ones do after related answers. -/
theorem bind {s : β' → γ' → Prop} {f : β → Except Failure β'} {g : γ → Except Failure γ'}
    (h : Agrees blame r x y) (hfg : ∀ b c, r b c → Agrees blame s (f b) (g c)) :
    Agrees blame s (x >>= f) (y >>= g) := by
  cases h with
  | ok hr => exact hfg _ _ hr
  | error hblame => exact .error hblame

/-- What is related may be related in another way as well. -/
theorem imp {r' : β → γ → Prop} (h : Agrees blame r x y)
    (hblame : ∀ f f', x = .error f → blame f f' → blame' f f') (hr : ∀ b c, r b c → r' b c) :
    Agrees blame' r' x y := by
  cases h with
  | ok h => exact .ok (hr _ _ h)
  | error h => exact .error (hblame _ _ rfl h)

end Agrees

/-- A token without its place. -/
def Token.unplaced (t : Token) : Token := { t with span := .point 0 }

namespace ParseTree

mutual

/-- A tree without the places of its tokens and nodes. -/
def unplaced : ParseTree → ParseTree
  | leaf token => leaf token.unplaced
  | node name _ children => node name (.point 0) (unplacedList children)

/-- The trees of a list without the places of their tokens and nodes. -/
def unplacedList : List ParseTree → List ParseTree
  | [] => []
  | tree :: trees => unplaced tree :: unplacedList trees

end

/-- The trees of a list lose their places one by one. -/
theorem unplacedList_eq_map (trees : List ParseTree) : unplacedList trees = trees.map unplaced := by
  induction trees with
  | nil => rfl
  | cons tree trees ih => rw [unplacedList, ih, List.map_cons]

/-- Trees that differ in places only make up nodes that do. -/
theorem unplaced_ofChildren {children children' : List ParseTree}
    (h : children.map unplaced = children'.map unplaced) (name : String) (home home' : Nat) :
    (ofChildren name home children).unplaced = (ofChildren name home' children').unplaced := by
  rw [ofChildren, ofChildren, unplaced, unplaced, unplacedList_eq_map, unplacedList_eq_map, h]

/-- Failures for the same reason at corresponding places: at two tokens with the same number, or at the
ends of both sources. -/
inductive Corresponds (tokens tokens' : List Token) (sourceEnd sourceEnd' : Nat) :
    Failure → Failure → Prop
  | token {i : Nat} {t t' : Token} {fault : Fault} : tokens[i]? = some t → tokens'[i]? = some t' →
    Corresponds tokens tokens' sourceEnd sourceEnd' (.located t.span fault) (.located t'.span fault)
  | atEnd {fault : Fault} : Corresponds tokens tokens' sourceEnd sourceEnd'
    (.located (.point sourceEnd) fault) (.located (.point sourceEnd') fault)

/-- Failures of two parsers that have not met their bounds. -/
def Refuses (tokens tokens' : List Token) (sourceEnd sourceEnd' : Nat) (f f' : Failure) : Prop :=
  f ≠ .detached .workExhausted → Corresponds tokens tokens' sourceEnd sourceEnd' f f'

/-- What two parsers give that have passed the same number of tokens: trees that differ in places only,
and the same number of tokens passed. -/
structure Abreast (tokens tokens' : List Token) (p p' : Parsed) : Prop where
  trees : p.trees.map unplaced = p'.trees.map unplaced
  ended : p.ended = p'.ended
  rest : ∃ k, p.rest = tokens.drop k ∧ p'.rest = tokens'.drop k

variable {g : Grammar} {table : Table} {tokens tokens' : List Token} {sourceEnd sourceEnd' : Nat}
  {parse parse' : Symbol → List Token → Except Failure Parsed}

/-- Symbols in turn are parsed alike if single symbols are. -/
theorem parseAll_agrees
    (h : ∀ symbol k, Agrees (Refuses tokens tokens' sourceEnd sourceEnd') (Abreast tokens tokens')
      (parse symbol (tokens.drop k)) (parse' symbol (tokens'.drop k))) (symbols : List Symbol) (k : Nat) :
    Agrees (Refuses tokens tokens' sourceEnd sourceEnd') (Abreast tokens tokens')
      (parseAll parse symbols (tokens.drop k)) (parseAll parse' symbols (tokens'.drop k)) := by
  induction symbols generalizing k with
  | nil => exact .ok ⟨rfl, rfl, k, rfl, rfl⟩
  | cons symbol symbols ih =>
    rw [parseAll, parseAll]
    refine (h symbol k).bind fun here here' habreast => ?_
    obtain ⟨htrees, hended, j, hrest, hrest'⟩ := habreast
    rw [hended, hrest, hrest']
    cases hstop : here'.ended with
    | true => exact .ok ⟨htrees, hended, j, hrest, hrest'⟩
    | false =>
      refine (ih j).bind fun more more' hmore => .ok ⟨?_, hmore.ended, hmore.rest⟩
      rw [List.map_append, List.map_append, htrees, hmore.trees]

/-- What is left of both token lists after the same number of tokens: nothing, or tokens of the same kind
and text with what follows them. -/
inductive Upcoming (tokens tokens' : List Token) (k : Nat) : List Token → List Token → Prop
  | nil : Upcoming tokens tokens' k [] []
  | cons {token token' : Token} : token.kind = token'.kind → token.lexeme = token'.lexeme →
    tokens[k]? = some token → tokens'[k]? = some token' →
    Upcoming tokens tokens' k (token :: tokens.drop (k + 1)) (token' :: tokens'.drop (k + 1))

/-- Tokens of the same kinds and texts are left after the same number of tokens. -/
theorem upcoming_drop (h : tokens.map Token.content = tokens'.map Token.content) (k : Nat) :
    Upcoming tokens tokens' k (tokens.drop k) (tokens'.drop k) := by
  have hlength : tokens.length = tokens'.length := by simpa using congrArg List.length h
  by_cases hk : k < tokens.length
  · have hk' : k < tokens'.length := hlength ▸ hk
    have hcontent : some (tokens[k].content) = some (tokens'[k].content) := by
      rw [← Option.map_some, ← Option.map_some, ← List.getElem?_eq_getElem hk,
        ← List.getElem?_eq_getElem hk', ← List.getElem?_map, ← List.getElem?_map, h]
    obtain ⟨hkind, hlexeme⟩ := Prod.mk.inj (Option.some.inj hcontent)
    rw [List.drop_eq_getElem_cons hk, List.drop_eq_getElem_cons hk']
    exact .cons hkind hlexeme (List.getElem?_eq_getElem hk) (List.getElem?_eq_getElem hk')
  · have hk' : ¬ k < tokens'.length := hlength ▸ hk
    rw [List.drop_of_length_le (Nat.le_of_not_lt hk), List.drop_of_length_le (Nat.le_of_not_lt hk')]
    exact .nil

/-- A symbol is parsed alike at the ends of both sources. -/
theorem parseAtEnd_agrees (symbol : Symbol) {k : Nat} (hnil : [] = tokens.drop k)
    (hnil' : [] = tokens'.drop k) :
    Agrees (Refuses tokens tokens' sourceEnd sourceEnd') (Abreast tokens tokens')
      (parseAtEnd table sourceEnd symbol) (parseAtEnd table sourceEnd' symbol) := by
  have stays {trees trees' : List ParseTree} {ended : Bool}
      (h : trees.map unplaced = trees'.map unplaced) :
      Abreast tokens tokens' ⟨trees, [], ended⟩ ⟨trees', [], ended⟩ :=
    ⟨h, rfl, k, hnil, hnil'⟩
  cases symbol with
  | endMarker => exact .ok (stays rfl)
  | epsilon => exact .ok (stays rfl)
  | terminal name => exact .error fun _ => .atEnd
  | nonterminal name =>
    rw [parseAtEnd, parseAtEnd]
    split
    · refine .ok (stays ?_)
      rw [List.map_singleton, List.map_singleton, unplaced_ofChildren rfl name sourceEnd sourceEnd']
    · exact .error fun _ => .atEnd

/-- A symbol is parsed alike by two parsers that have passed the same number of tokens of the same kinds
and texts. -/
theorem parseSymbol_agrees (h : tokens.map Token.content = tokens'.map Token.content) (fuel : Nat)
    (symbol : Symbol) (k : Nat) :
    Agrees (Refuses tokens tokens' sourceEnd sourceEnd') (Abreast tokens tokens')
      (parseSymbol table sourceEnd fuel symbol (tokens.drop k))
      (parseSymbol table sourceEnd' fuel symbol (tokens'.drop k)) := by
  induction fuel generalizing symbol k with
  | zero =>
    rw [parseSymbol, parseSymbol]
    exact .error fun hne => (hne rfl).elim
  | succ fuel ih =>
    have hall (symbols : List Symbol) := parseAll_agrees ih symbols k
    have hnext := upcoming_drop h k
    generalize hrest : tokens.drop k = rest at hnext hall ⊢
    generalize hrest' : tokens'.drop k = rest' at hnext hall ⊢
    cases hnext with
    | nil =>
      rw [parseSymbol, parseSymbol]
      exact parseAtEnd_agrees symbol hrest.symm hrest'.symm
    | @cons token token' hkind hlexeme hhere hhere' =>
      have hterminal : token.terminal = token'.terminal := congrArg Token.Kind.name hkind
      have unexpected : Agrees (Refuses tokens tokens' sourceEnd sourceEnd') (Abreast tokens tokens')
          (.error (unexpectedToken table symbol token))
          (.error (unexpectedToken table symbol token')) := by
        rw [unexpectedToken, unexpectedToken, hterminal, hlexeme]
        exact .error fun _ => .token hhere hhere'
      cases symbol with
      | endMarker =>
        rw [parseSymbol, parseSymbol]
        exact .error fun _ => .token hhere hhere'
      | epsilon =>
        rw [parseSymbol, parseSymbol]
        exact .ok ⟨rfl, rfl, k, hrest.symm, hrest'.symm⟩
      | terminal name =>
        rw [parseSymbol, parseSymbol, hterminal]
        split
        · refine .ok ⟨?_, rfl, k + 1, rfl, rfl⟩
          rw [List.map_singleton, List.map_singleton, unplaced, unplaced, Token.unplaced,
            Token.unplaced, hkind, hlexeme]
        · exact unexpected
      | nonterminal name =>
        rw [parseSymbol, parseSymbol, hterminal]
        cases table.lookup? name (.terminal token'.terminal) with
        | none => exact unexpected
        | some alternative =>
          refine (hall alternative).bind fun below below' habreast => ?_
          refine .ok ⟨?_, habreast.ended, habreast.rest⟩
          rw [List.map_singleton, List.map_singleton, unplaced_ofChildren habreast.trees]

/-- Streams of tokens of the same kinds and texts are parsed alike. -/
theorem ofStream_agrees (h : Table.Built g table) (stream stream' : Token.Stream)
    (hsame : stream.rest.map Token.content = stream'.rest.map Token.content) :
    Agrees (Corresponds stream.rest stream'.rest stream.sourceEnd stream'.sourceEnd)
      (fun tree tree' => tree.unplaced = tree'.unplaced)
      (ofStream table stream) (ofStream table stream') := by
  suffices Agrees (Refuses stream.rest stream'.rest stream.sourceEnd stream'.sourceEnd)
      (fun tree tree' => tree.unplaced = tree'.unplaced)
      (ofStream table stream) (ofStream table stream') by
    refine this.imp (fun f f' hf hrefuses => hrefuses fun hexhausted => ?_) fun _ _ htree => htree
    exact ofStream_ne_exhausted h stream (hexhausted ▸ hf)
  have hlength : stream.rest.length = stream'.rest.length := by
    simpa using congrArg List.length hsame
  rw [ofStream, ofStream, depthBound, depthBound, hlength]
  refine (parseSymbol_agrees hsame _ _ 0).bind fun parsed parsed' habreast => ?_
  obtain ⟨trees, rest, ended⟩ := parsed
  obtain ⟨trees', rest', ended'⟩ := parsed'
  obtain ⟨htrees, -, k, rfl, rfl⟩ := habreast
  have hnext := upcoming_drop hsame k
  generalize stream.rest.drop k = rest at hnext ⊢
  generalize stream'.rest.drop k = rest' at hnext ⊢
  dsimp only at htrees ⊢
  cases hnext with
  | cons _ _ hhere hhere' => exact .error fun _ => .token hhere hhere'
  | nil =>
    cases trees with
    | nil =>
      obtain rfl := List.map_eq_nil_iff.mp htrees.symm
      exact .error fun _ => .atEnd
    | cons tree trees =>
      obtain ⟨tree', trees', rfl, htree, -⟩ := List.map_eq_cons_iff.mp htrees.symm
      exact .ok htree.symm

end ParseTree

end SymbolicAlgebra
