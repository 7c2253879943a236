import SymbolicAlgebra.Grammar.Lookahead
import SymbolicAlgebra.Proofs.Grammar.Rules
import SymbolicAlgebra.Proofs.Grammar.SymbolSet

/-!
# Fixed points of passes

A pass adds symbols to the sets of nonterminals, and what it adds is taken from the sets as the
additions before have left them. Every pass that changes something makes some set longer, and no set
gets longer than the alphabet with the empty string and the end of the input, so the bound on the
number of passes is never what stops them. And where a pass changes nothing none of its additions
does, since none takes back another: so the sets that passes settle at contain all that is added by
what they are themselves.
-/

namespace SymbolicAlgebra.Grammar

/-- The symbols that the sets of a grammar may contain. -/
def known (alphabet : List String) : List Symbol :=
  alphabet.map .terminal ++ [.epsilon, .endMarker]

/-- The set of a nonterminal. -/
def setOf (sets : Sets) (name : String) : List Symbol := (sets.lookup name).getD []

/-- One set of known symbols for each rule. -/
structure Fits (g : Grammar) (alphabet : List String) (sets : Sets) : Prop where
  names : sets.map Prod.fst = g.names
  sorted : ∀ entry ∈ sets, Symbol.Sorted entry.2
  known : ∀ entry ∈ sets, entry.2 ⊆ Grammar.known alphabet

/-- The number of symbols in all sets. -/
def population (sets : Sets) : Nat := (sets.map fun entry => entry.2.length).sum

variable {g : Grammar} {alphabet : List String}

/-- A set that fits is listed with its nonterminal. -/
theorem Fits.mem_iff {sets : Sets} (h : Fits g alphabet sets) {name : String}
    {set : List Symbol} : (name, set) ∈ sets ↔ sets.lookup name = some set :=
  ⟨lookup_of_mem (h.names ▸ nodup_names g), mem_of_lookup⟩

/-- Every nonterminal of the grammar has a set. -/
theorem Fits.lookup_eq {sets : Sets} (h : Fits g alphabet sets) {name : String}
    (hname : name ∈ g.names) : sets.lookup name = some (setOf sets name) := by
  rw [← h.names] at hname
  obtain ⟨⟨name, set⟩, hentry, rfl⟩ := List.mem_map.mp hname
  rw [setOf, h.mem_iff.mp hentry, Option.getD_some]

/-- Sets that fit are those of the nonterminals in the order of the rules. -/
theorem Fits.eq_map {sets : Sets} (h : Fits g alphabet sets) :
    sets = g.rules.map fun rule => (rule.lhs, setOf sets rule.lhs) := by
  calc
    sets = sets.map fun entry => (entry.1, setOf sets entry.1) := by
      symm
      refine (List.map_congr_left ?_).trans (List.map_id sets)
      rintro ⟨name, set⟩ hmem
      rw [setOf, h.mem_iff.mp hmem]
      rfl
    _ = (sets.map Prod.fst).map fun name => (name, setOf sets name) := by
      rw [List.map_map]
      rfl
    _ = g.rules.map fun rule => (rule.lhs, setOf sets rule.lhs) := by
      rw [h.names, Grammar.names, List.map_map]
      rfl

/-- The set of a nonterminal is in order. -/
theorem Fits.sorted_setOf {sets : Sets} (h : Fits g alphabet sets) (name : String) :
    Symbol.Sorted (setOf sets name) := by
  rw [setOf]
  cases hlookup : sets.lookup name with
  | none => exact List.Pairwise.nil
  | some set => exact h.sorted _ (h.mem_iff.mpr hlookup)

/-- The set of a nonterminal contains known symbols only. -/
theorem Fits.known_setOf {sets : Sets} (h : Fits g alphabet sets) (name : String) :
    setOf sets name ⊆ Grammar.known alphabet := by
  rw [setOf]
  cases hlookup : sets.lookup name with
  | none => exact List.nil_subset _
  | some set => exact h.known _ (h.mem_iff.mpr hlookup)

/-- Sets of known symbols, one for each rule, have only so many symbols. -/
theorem Fits.population_le {sets : Sets} (h : Fits g alphabet sets) :
    population sets ≤ g.rules.length * (alphabet.length + 2) := by
  have hlength : sets.length = g.rules.length := by
    rw [← List.length_map Prod.fst, h.names, Grammar.names, List.length_map]
  have hknown : (Grammar.known alphabet).length = alphabet.length + 2 := by
    simp [Grammar.known]
  have bounded := List.sum_le_card_nsmul (sets.map fun entry => entry.2.length)
    (alphabet.length + 2) (by
      intro n hn
      obtain ⟨entry, hentry, rfl⟩ := List.mem_map.mp hn
      exact hknown ▸ (h.sorted entry hentry).length_le (h.known entry hentry))
  rw [List.length_map, hlength, smul_eq_mul] at bounded
  exact bounded

/-- Only nonterminals of the grammar have symbols in their set. -/
theorem Fits.mem_names {sets : Sets} (h : Fits g alphabet sets) {s : Symbol} {name : String}
    (hs : s ∈ setOf sets name) : name ∈ g.names := by
  rw [setOf] at hs
  cases hlookup : sets.lookup name with
  | none => rw [hlookup] at hs; cases hs
  | some set =>
    rw [← h.names]
    exact List.mem_map.mpr ⟨_, mem_of_lookup hlookup, rfl⟩

/-- Sets that fit are the same where they have the same symbols. -/
theorem Fits.ext {sets sets' : Sets} (h : Fits g alphabet sets) (h' : Fits g alphabet sets')
    (hmem : ∀ name s, s ∈ setOf sets name ↔ s ∈ setOf sets' name) : sets = sets' := by
  rw [h.eq_map, h'.eq_map]
  exact List.map_congr_left fun rule _ => Prod.ext rfl <|
    (h.sorted_setOf rule.lhs).ext (h'.sorted_setOf rule.lhs) (hmem rule.lhs)

/-! ## Additions -/

/-- Symbols are in a set after an addition to it that are among those that are added, or were in it
before. -/
theorem mem_setOf_addTo {sets : Sets} (h : Fits g alphabet sets) {name other : String}
    {symbols : List Symbol} {s : Symbol} :
    s ∈ setOf (addTo name symbols sets) other ↔
      (other = name ∧ name ∈ g.names ∧ s ∈ symbols) ∨ s ∈ setOf sets other := by
  have hlookup (entries : Sets) :
      (addTo name symbols entries).lookup other = (entries.lookup other).map
        fun set => if other = name then Symbol.insertAll symbols set else set := by
    induction entries with
    | nil => rfl
    | cons entry entries ih =>
      rw [addTo, List.map_cons, List.lookup_cons, List.lookup_cons, ← addTo, ih]
      cases hother : other == entry.1 with
      | false => rfl
      | true =>
        obtain rfl := beq_iff_eq.mp hother
        rfl
  by_cases hname : other ∈ g.names
  · rw [setOf, hlookup, h.lookup_eq hname, Option.map_some, Option.getD_some]
    split
    · rename_i heq
      subst heq
      simp [Symbol.mem_insertAll, hname]
    · rename_i hne
      simp [hne]
  · have hempty : sets.lookup other = none := by
      rw [List.lookup_eq_none_iff]
      intro entry hentry
      have := List.mem_map_of_mem (f := Prod.fst) hentry
      rw [h.names] at this
      simpa using fun heq : other = entry.1 => hname (heq ▸ this)
    rw [setOf, setOf, hlookup, hempty]
    refine iff_of_false (List.not_mem_nil) ?_
    rintro (⟨rfl, hmem, -⟩ | hs)
    · exact hname hmem
    · cases hs

/-- Sets still fit when known symbols are added. -/
theorem Fits.addTo {sets : Sets} (h : Fits g alphabet sets) (name : String) {symbols : List Symbol}
    (hknown : symbols ⊆ Grammar.known alphabet) : Fits g alphabet (addTo name symbols sets) := by
  refine ⟨?_, ?_, ?_⟩
  · rw [← h.names, Grammar.addTo, List.map_map]
    rfl
  · intro entry hentry
    obtain ⟨⟨other, set⟩, hset, rfl⟩ := List.mem_map.mp hentry
    dsimp only
    split
    · exact (h.sorted _ hset).insertAll _
    · exact h.sorted _ hset
  · intro entry hentry s hs
    obtain ⟨⟨other, set⟩, hset, rfl⟩ := List.mem_map.mp hentry
    dsimp only at hs
    split at hs
    · exact (Symbol.mem_insertAll.mp hs).elim (fun hs => hknown hs) fun hs => h.known _ hset hs
    · exact h.known _ hset hs

/-- An addition changes nothing or makes some set longer. -/
theorem addTo_grows (name : String) (symbols : List Symbol) (sets : Sets) :
    addTo name symbols sets = sets ∨ population sets < population (addTo name symbols sets) := by
  induction sets with
  | nil => exact .inl rfl
  | cons entry sets ih =>
    have hentry : (if entry.1 = name then Symbol.insertAll symbols entry.2 else entry.2) = entry.2 ∨
        entry.2.length <
          (if entry.1 = name then Symbol.insertAll symbols entry.2 else entry.2).length := by
      split
      · exact Symbol.insertAll_grows symbols entry.2
      · exact .inl rfl
    simp only [population, addTo, List.map_cons, List.sum_cons, List.cons.injEq, Prod.ext_iff,
      true_and] at ih ⊢
    obtain same | longer := hentry
    · obtain ih | ih := ih
      · exact .inl ⟨same, ih⟩
      · right
        rw [same]
        omega
    · right
      obtain ih | ih := ih
      · rw [ih]
        omega
      · omega

/-! ## Passes -/

/-- What is added to the set of a nonterminal, by what the sets are. -/
structure Addition where
  name : String
  symbols : Sets → List Symbol

/-- Makes additions one after the other. -/
def pass (additions : List Addition) (sets : Sets) : Sets :=
  additions.foldl (fun sets addition => addTo addition.name (addition.symbols sets) sets) sets

/-- Only known symbols are added to sets that fit. -/
def Known (g : Grammar) (alphabet : List String) (additions : List Addition) : Prop :=
  ∀ addition ∈ additions, ∀ sets, Fits g alphabet sets → addition.symbols sets ⊆ known alphabet

/-- Sets still fit after a pass. -/
theorem Fits.pass {additions : List Addition} (hknown : Known g alphabet additions) {sets : Sets}
    (h : Fits g alphabet sets) : Fits g alphabet (pass additions sets) := by
  induction additions generalizing sets with
  | nil => exact h
  | cons addition additions ih =>
    rw [Known, List.forall_mem_cons] at hknown
    exact ih hknown.2 (h.addTo _ (hknown.1 sets h))

/-- A pass changes nothing or makes some set longer. -/
theorem pass_grows (additions : List Addition) (sets : Sets) :
    pass additions sets = sets ∨ population sets < population (pass additions sets) := by
  induction additions generalizing sets with
  | nil => exact .inl rfl
  | cons addition additions ih =>
    have hrest := ih (addTo addition.name (addition.symbols sets) sets)
    rw [pass, List.foldl_cons, ← pass]
    obtain same | longer := addTo_grows addition.name (addition.symbols sets) sets
    · rw [same] at hrest ⊢
      exact hrest
    · right
      obtain same' | longer' := hrest
      · rw [same']
        exact longer
      · omega

/-- A pass that changes nothing makes no addition. -/
theorem addTo_eq_of_pass_eq {additions : List Addition} {sets : Sets}
    (h : pass additions sets = sets) :
    ∀ addition ∈ additions, addTo addition.name (addition.symbols sets) sets = sets := by
  induction additions with
  | nil => simp
  | cons addition additions ih =>
    rw [pass, List.foldl_cons, ← pass] at h
    -- An addition that makes a set longer is not taken back by those after it
    have hfirst : addTo addition.name (addition.symbols sets) sets = sets := by
      refine (addTo_grows addition.name (addition.symbols sets) sets).resolve_right fun longer => ?_
      obtain same | longer' :=
        pass_grows additions (addTo addition.name (addition.symbols sets) sets)
      · rw [← same, h] at longer
        omega
      · rw [h] at longer'
        omega
    rw [List.forall_mem_cons]
    rw [hfirst] at h
    exact ⟨hfirst, ih h⟩

/-- Sets that a pass leaves as they are contain what it adds. -/
theorem symbols_subset {additions : List Addition} {sets : Sets} (hfits : Fits g alphabet sets)
    (h : pass additions sets = sets) {addition : Addition} (hmem : addition ∈ additions)
    (hname : addition.name ∈ g.names) : addition.symbols sets ⊆ setOf sets addition.name := by
  intro s hs
  rw [← addTo_eq_of_pass_eq h addition hmem, mem_setOf_addTo hfits]
  exact .inl ⟨rfl, hname, hs⟩

/-- What holds of all sets that fit and is kept by every addition is kept by a pass. -/
theorem pass_induction {p : Sets → Prop} {additions : List Addition}
    (hknown : Known g alphabet additions)
    (step : ∀ addition ∈ additions, ∀ sets, Fits g alphabet sets → p sets →
      p (addTo addition.name (addition.symbols sets) sets))
    {sets : Sets} (hfits : Fits g alphabet sets) (start : p sets) : p (pass additions sets) := by
  induction additions generalizing sets with
  | nil => exact start
  | cons addition additions ih =>
    rw [Known, List.forall_mem_cons] at hknown
    rw [List.forall_mem_cons] at step
    exact ih hknown.2 step.2 (hfits.addTo _ (hknown.1 sets hfits)) (step.1 sets hfits start)

/-! ## Where passes settle -/

/-- What holds at the start and is kept by every addition holds of what passes settle at. -/
theorem settle_induction {p : Sets → Prop} {additions : List Addition}
    (hknown : Known g alphabet additions)
    (step : ∀ addition ∈ additions, ∀ sets, Fits g alphabet sets → p sets →
      p (addTo addition.name (addition.symbols sets) sets))
    {fuel : Nat} {sets : Sets} (hfits : Fits g alphabet sets) (start : p sets) :
    p (settle (pass additions) fuel sets) := by
  induction fuel generalizing sets with
  | zero => exact start
  | succ fuel ih =>
    rw [settle]
    split
    · exact start
    · exact ih (hfits.pass hknown) (pass_induction hknown step hfits start)

/-- What passes settle at comes out of some number of passes, within the bound on it. -/
theorem exists_iterate_eq_settle (pass : Sets → Sets) (fuel : Nat) (sets : Sets) :
    ∃ count ≤ fuel, pass^[count] sets = settle pass fuel sets := by
  induction fuel generalizing sets with
  | zero => exact ⟨0, Nat.le_refl 0, rfl⟩
  | succ fuel ih =>
    rw [settle]
    split
    · exact ⟨0, Nat.zero_le _, rfl⟩
    · obtain ⟨count, hcount, hsettle⟩ := ih (pass sets)
      exact ⟨count + 1, Nat.succ_le_succ hcount, hsettle⟩

/-- Passes that only add known symbols settle before their number reaches its bound. -/
theorem settle_pass {additions : List Addition} (hknown : Known g alphabet additions) {sets : Sets}
    (start : Fits g alphabet sets) :
    Fits g alphabet (settle (pass additions) (g.passBound alphabet) sets) ∧
      pass additions (settle (pass additions) (g.passBound alphabet) sets) =
        settle (pass additions) (g.passBound alphabet) sets := by
  have settles (fuel : Nat) (sets : Sets) (h : Fits g alphabet sets)
      (hfuel : g.rules.length * (alphabet.length + 2) < population sets + fuel) :
      pass additions (settle (pass additions) fuel sets) = settle (pass additions) fuel sets := by
    induction fuel generalizing sets with
    | zero =>
      have := h.population_le
      omega
    | succ fuel ih =>
      rw [settle]
      split
      · assumption
      · rename_i hchanged
        have grows := (pass_grows additions sets).resolve_left hchanged
        exact ih _ (h.pass hknown) (by omega)
  have keeps : ∀ addition ∈ additions, ∀ sets, Fits g alphabet sets → Fits g alphabet sets →
      Fits g alphabet (addTo addition.name (addition.symbols sets) sets) :=
    fun addition hmem sets h _ => h.addTo _ (hknown addition hmem sets h)
  exact ⟨settle_induction hknown keeps start start, settles _ _ start (by rw [passBound]; omega)⟩

/-- In a list of sets by rules the set of a nonterminal is that of its rule. -/
theorem setOf_map (f : Rule → List Symbol) {rule : Rule} (hrule : rule ∈ g.rules) :
    setOf (g.rules.map fun rule => (rule.lhs, f rule)) rule.lhs = f rule := by
  have hnames : (g.rules.map fun rule => (rule.lhs, f rule)).map Prod.fst = g.names := by
    rw [List.map_map]
    rfl
  have hentry : (rule.lhs, f rule) ∈ g.rules.map fun rule => (rule.lhs, f rule) :=
    List.mem_map.mpr ⟨rule, hrule, rfl⟩
  rw [setOf, lookup_of_mem (hnames ▸ nodup_names g) hentry, Option.getD_some]

end SymbolicAlgebra.Grammar
