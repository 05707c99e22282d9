import Concord.Proofs.Pairing
import Concord.Proofs.Transparency

namespace Concord

namespace Grammar

/-- The names in the terms of the alternatives of a symbol. -/
def termNames (grammar : Grammar) (name : Text) : List Text :=
  match grammar.symbol? name with
  | some symbol => (symbol.patterns.flatMap Pattern.terms).filterMap Term.name
  | none => []

/-- A start symbol leads to itself, and to the names in the terms of what it leads to. -/
inductive Leads (grammar : Grammar) (start : Text) : Text → Prop where
  | start : Leads grammar start start
  | term {name next : Text} (h : Leads grammar start name) (hnext : next ∈ grammar.termNames name) :
      Leads grammar start next

def names (grammar : Grammar) : List Text :=
  grammar.symbols.toList.map Symbol.name

section lookup

variable {grammar : Grammar} {name : Text} {symbol : Nat}

theorem findIdx?_names (grammar : Grammar) (name : Text) :
    grammar.names.findIdx? (· = name) = grammar.indexOf? name := by
  obtain ⟨⟨symbols⟩, _⟩ := grammar
  rw [names, List.findIdx?_map, indexOf?, List.findIdx?_toArray]
  rfl

theorem indexOf?_eq_none_iff_names : grammar.indexOf? name = none ↔ name ∉ grammar.names := by
  rw [← findIdx?_names, List.findIdx?_eq_none_iff]
  simp only [decide_eq_false_iff_not]
  exact ⟨fun h hmem => h name hmem rfl, fun h x hx heq => h (heq ▸ hx)⟩

theorem symbol?_of_indexOf? (hs : grammar.indexOf? name = some symbol) :
    ∃ s, grammar.symbols[symbol]? = some s ∧ grammar.symbol? name = some s ∧ s.name = name := by
  obtain ⟨hlt, hname, hfirst⟩ := Array.findIdx?_eq_some_iff_getElem.mp hs
  refine ⟨grammar.symbols[symbol], Array.getElem?_eq_getElem hlt, ?_, of_decide_eq_true hname⟩
  rw [symbol?, Array.find?_eq_some_iff_getElem]
  exact ⟨hname, symbol, hlt, rfl, fun j hj => by simpa using hfirst j hj⟩

theorem symbol?_of_indexOf?_eq_none (hs : grammar.indexOf? name = none) :
    grammar.symbol? name = none := by
  rw [indexOf?, Array.findIdx?_eq_none_iff] at hs
  rw [symbol?, Array.find?_eq_none]
  intro s hmem
  simpa using hs s hmem

theorem nameOf_of_indexOf? (hs : grammar.indexOf? name = some symbol) :
    grammar.nameOf symbol = name := by
  obtain ⟨s, hget, -, hname⟩ := symbol?_of_indexOf? hs
  rw [nameOf, hget]
  exact hname

theorem rulesOf_of_indexOf? (hs : grammar.indexOf? name = some symbol) :
    grammar.rulesOf name = (grammar.alternatives symbol).map Pattern.raw := by
  obtain ⟨s, hget, hsymbol, -⟩ := symbol?_of_indexOf? hs
  rw [rulesOf, alternatives, hget, hsymbol]

theorem rulesOf_of_indexOf?_eq_none (hs : grammar.indexOf? name = none) :
    grammar.rulesOf name = [] := by
  rw [rulesOf, symbol?_of_indexOf?_eq_none hs]

theorem mem_termNames (hs : grammar.indexOf? name = some symbol) {pattern : Pattern}
    (hp : pattern ∈ grammar.alternatives symbol) {term : Term} (ht : .term term ∈ pattern.elements)
    {next : Text} (hnext : term.name = some next) : next ∈ grammar.termNames name := by
  obtain ⟨s, hget, hsymbol, -⟩ := symbol?_of_indexOf? hs
  rw [alternatives, hget] at hp
  rw [termNames, hsymbol]
  have hterm : term ∈ pattern.terms := List.mem_filterMap.mpr ⟨_, ht, rfl⟩
  exact List.mem_filterMap.mpr ⟨term, List.mem_flatMap.mpr ⟨pattern, hp, hterm⟩, hnext⟩

end lookup

end Grammar

/-- The patterns as they are read, before their terms are linked. -/
def Pattern.readAll (raws : List Text) : List Pattern :=
  raws.filterMap fun raw => (Pattern.read raw).toOption

theorem Pattern.readAll_map {patterns : List Pattern}
    (h : ∀ pattern ∈ patterns, Pattern.read pattern.raw = .ok pattern) :
    Pattern.readAll (patterns.map Pattern.raw) = patterns := by
  induction patterns with
  | nil => rfl
  | cons pattern patterns ih =>
    obtain ⟨hread, hrest⟩ := List.forall_mem_cons.mp h
    have hrest' := ih hrest
    rw [readAll] at hrest' ⊢
    rw [List.map_cons, List.filterMap_cons, hread]
    simpa [Except.toOption] using hrest'

theorem Pattern.raw_of_read {raw : Text} {pattern : Pattern}
    (h : Pattern.read raw = .ok pattern) : pattern.raw = raw := by
  obtain ⟨draft, -, hdraft⟩ := exists_ok_of_bind h
  cases hdraft
  rfl

theorem Rule.read_of_compile {rule : Rule} {pattern : Pattern}
    (h : rule.compile = .ok pattern) : Pattern.read pattern.raw = .ok pattern := by
  unfold Rule.compile at h
  split at h
  next hread =>
    cases h
    rw [Pattern.raw_of_read hread]
    exact hread
  next => cases h

namespace Grammar

section patterns

variable {rules : List (Text × Pattern)} {name : Text} {symbol : Nat}

theorem names_ofPatterns (rules : List (Text × Pattern)) :
    (ofPatterns rules).names = (rules.map Prod.fst).eraseDups := by
  simp [ofPatterns, names, Function.comp_def]

theorem alternatives_ofPatterns (hs : (ofPatterns rules).indexOf? name = some symbol) :
    (ofPatterns rules).alternatives symbol =
      ((rules.filter (·.1 = name)).map Prod.snd).map (Pattern.link (ofPatterns rules).names) := by
  obtain ⟨s, hget, -, hname⟩ := symbol?_of_indexOf? hs
  have hmem : s ∈ (ofPatterns rules).symbols.toList :=
    Array.mem_toList_iff.mpr (Array.mem_of_getElem? hget)
  simp only [ofPatterns, List.mem_map] at hmem
  obtain ⟨_, -, rfl⟩ := hmem
  cases hname
  rw [alternatives, hget, names_ofPatterns, List.map_map]
  rfl

theorem alternatives_ne_nil (hs : (ofPatterns rules).indexOf? name = some symbol) :
    (ofPatterns rules).alternatives symbol ≠ [] := by
  rw [alternatives_ofPatterns hs, List.map_map, ne_eq, List.map_eq_nil_iff]
  have hname : name ∈ (ofPatterns rules).names := by
    rw [← findIdx?_names] at hs
    obtain ⟨hlt, hfound, -⟩ := List.findIdx?_eq_some_iff_getElem.mp hs
    exact of_decide_eq_true hfound ▸ List.getElem_mem hlt
  rw [names_ofPatterns, List.mem_eraseDups] at hname
  obtain ⟨pair, hpair, hfst⟩ := List.mem_map.mp hname
  exact List.ne_nil_of_mem (List.mem_filter.mpr ⟨hpair, decide_eq_true hfst⟩)

end patterns

variable {rules : List Rule} {grammar : Grammar} {name : Text} {symbol : Nat}

theorem read_of_compileAll {patterns : List (Text × Pattern)}
    (h : rules.mapM (fun rule => return (rule.name, ← rule.compile)) = .ok patterns) :
    ∀ pair ∈ patterns, Pattern.read pair.2.raw = .ok pair.2 := by
  have heach := mapM_eq_ok.mp h
  clear h
  induction heach with
  | nil => simp
  | cons hpair _ ih =>
    obtain ⟨pattern, hcompile, hpair⟩ := exists_ok_of_bind hpair
    cases hpair
    exact List.forall_mem_cons.mpr ⟨Rule.read_of_compile hcompile, ih⟩

theorem read_of_ofRules (h : ofRules rules = .ok grammar) :
    ∃ patterns : List (Text × Pattern), grammar = ofPatterns patterns ∧
      ∀ pair ∈ patterns, Pattern.read pair.2.raw = .ok pair.2 := by
  obtain ⟨patterns, hpatterns, h⟩ := exists_ok_of_bind h
  cases h
  exact ⟨patterns, rfl, read_of_compileAll hpatterns⟩

/-- The alternatives of a symbol are determined by how they are written and by what its terms are
linked to. -/
theorem alternatives_eq (h : ofRules rules = .ok grammar)
    (hs : grammar.indexOf? name = some symbol) :
    grammar.alternatives symbol =
      (Pattern.readAll (grammar.rulesOf name)).map (Pattern.link grammar.names) := by
  have hrules := rulesOf_of_indexOf? hs
  obtain ⟨patterns, rfl, hread⟩ := read_of_ofRules h
  have halternatives := alternatives_ofPatterns hs
  rw [halternatives, List.map_map] at hrules
  rw [halternatives, hrules]
  have hread' : ∀ pattern ∈ (patterns.filter (·.1 = name)).map Prod.snd,
      Pattern.read pattern.raw = .ok pattern := by
    intro pattern hpattern
    obtain ⟨pair, hpair, rfl⟩ := List.mem_map.mp hpattern
    exact hread pair (List.mem_filter.mp hpair).1
  have hraws := Pattern.readAll_map hread'
  congr 1
  exact hraws.symm

theorem indexOf?_eq_none_iff (h : ofRules rules = .ok grammar) :
    grammar.indexOf? name = none ↔ grammar.rulesOf name = [] := by
  obtain ⟨patterns, rfl, -⟩ := read_of_ofRules h
  refine ⟨rulesOf_of_indexOf?_eq_none, fun hrules => ?_⟩
  cases hs : (ofPatterns patterns).indexOf? name with
  | none => rfl
  | some symbol =>
    rw [rulesOf_of_indexOf? hs, List.map_eq_nil_iff] at hrules
    exact absurd hrules (alternatives_ne_nil hs)

end Grammar

namespace Pairing

/-- Symbols of one name correspond if the start symbol leads to it; positions are the same. -/
def named (grammar grammar' : Grammar) (start : Text) : Pairing where
  symbols symbol symbol' := ∃ name, grammar.Leads start name ∧
    grammar.indexOf? name = some symbol ∧ grammar'.indexOf? name = some symbol'
  positions := Eq

theorem biUnique_named (grammar grammar' : Grammar) (start : Text) :
    Relator.BiUnique (named grammar grammar' start).symbols := by
  constructor
  · intro a b c ha hb
    obtain ⟨name, -, hs, hs'⟩ := ha
    obtain ⟨name₁, -, hs₁, hs₁'⟩ := hb
    have hname : name = name₁ :=
      (Grammar.nameOf_of_indexOf? hs').symm.trans (Grammar.nameOf_of_indexOf? hs₁')
    rw [hname] at hs
    exact Option.some.inj (hs.symm.trans hs₁)
  · intro a b c hb hc
    obtain ⟨name, -, hs, hs'⟩ := hb
    obtain ⟨name₁, -, hs₁, hs₁'⟩ := hc
    have hname : name = name₁ :=
      (Grammar.nameOf_of_indexOf? hs).symm.trans (Grammar.nameOf_of_indexOf? hs₁)
    rw [hname] at hs'
    exact Option.some.inj (hs'.symm.trans hs₁')

section grammars

variable {rules rules' : List Rule} {grammar grammar' : Grammar} {start name : Text}

theorem rel_indexOf?_of_iff (hrules : Grammar.ofRules rules = .ok grammar)
    (hrules' : Grammar.ofRules rules' = .ok grammar') (hleads : grammar.Leads start name)
    (hsame : grammar.rulesOf name = [] ↔ grammar'.rulesOf name = []) :
    Option.Rel (named grammar grammar' start).symbols (grammar.indexOf? name)
      (grammar'.indexOf? name) := by
  rw [← Grammar.indexOf?_eq_none_iff hrules, ← Grammar.indexOf?_eq_none_iff hrules'] at hsame
  cases hs : grammar.indexOf? name with
  | none =>
    rw [hsame.mp hs]
    exact .none
  | some symbol =>
    cases hs' : grammar'.indexOf? name with
    | none => cases hs.symm.trans (hsame.mpr hs')
    | some symbol' => exact .some ⟨name, hleads, hs, hs'⟩

theorem rel_indexOf? (hrules : Grammar.ofRules rules = .ok grammar)
    (hrules' : Grammar.ofRules rules' = .ok grammar')
    (hagree : ∀ name, grammar.Leads start name → grammar.rulesOf name = grammar'.rulesOf name)
    (hleads : grammar.Leads start name) :
    Option.Rel (named grammar grammar' start).symbols (grammar.indexOf? name)
      (grammar'.indexOf? name) :=
  rel_indexOf?_of_iff hrules hrules' hleads (by rw [hagree name hleads])

theorem elements_link (hrules : Grammar.ofRules rules = .ok grammar)
    (hrules' : Grammar.ofRules rules' = .ok grammar')
    (hsame : ∀ name, grammar.Leads start name →
      (grammar.rulesOf name = [] ↔ grammar'.rulesOf name = []))
    {element : Element}
    (hnext : ∀ term next, element = .term term → term.name = some next →
      grammar.Leads start next) :
    (named grammar grammar' start).Elements (element.link grammar.names)
      (element.link grammar'.names) := by
  cases element with
  | literal text => exact .literal text
  | term term =>
    refine .term ⟨rfl, ?_⟩
    rw [Term.link, Term.link]
    dsimp only
    cases hname : term.name with
    | none => exact .none
    | some next =>
      have hleads := hnext term next rfl hname
      rw [Option.bind_some, Option.bind_some, Grammar.findIdx?_names, Grammar.findIdx?_names]
      exact rel_indexOf?_of_iff hrules hrules' hleads (hsame next hleads)

/-- Where the names that the start symbol leads to are symbols of both grammars or of neither, a
pattern that is linked in one corresponds to the same pattern linked in the other. -/
theorem patterns_link (hrules : Grammar.ofRules rules = .ok grammar)
    (hrules' : Grammar.ofRules rules' = .ok grammar')
    (hsame : ∀ name, grammar.Leads start name →
      (grammar.rulesOf name = [] ↔ grammar'.rulesOf name = []))
    (hleads : grammar.Leads start name) {symbol : Nat}
    (hs : grammar.indexOf? name = some symbol) {pattern : Pattern}
    (hpattern : pattern ∈ Pattern.readAll (grammar.rulesOf name)) :
    (named grammar grammar' start).Patterns (pattern.link grammar.names)
      (pattern.link grammar'.names) := by
  refine ⟨rfl, rfl, ?_⟩
  rw [Pattern.link, Pattern.link, List.forall₂_map_left_iff, List.forall₂_map_right_iff,
    List.forall₂_same]
  intro element helement
  refine elements_link hrules hrules' hsame fun term next hterm hname => ?_
  have hlinked : pattern.link grammar.names ∈ grammar.alternatives symbol := by
    rw [Grammar.alternatives_eq hrules hs]
    exact List.mem_map_of_mem hpattern
  have hmem : .term (term.link grammar.names) ∈ (pattern.link grammar.names).elements :=
    List.mem_map.mpr ⟨element, helement, by rw [hterm, Element.link]⟩
  exact hleads.term (Grammar.mem_termNames hs hlinked hmem hname)

theorem alternatives_named (hrules : Grammar.ofRules rules = .ok grammar)
    (hrules' : Grammar.ofRules rules' = .ok grammar')
    (hagree : ∀ name, grammar.Leads start name → grammar.rulesOf name = grammar'.rulesOf name)
    {symbol symbol' : Nat} (hsymbol : (named grammar grammar' start).symbols symbol symbol') :
    List.Forall₂ (named grammar grammar' start).Patterns (grammar.alternatives symbol)
      (grammar'.alternatives symbol') := by
  obtain ⟨name, hleads, hs, hs'⟩ := hsymbol
  rw [Grammar.alternatives_eq hrules hs, Grammar.alternatives_eq hrules' hs', ← hagree name hleads,
    List.forall₂_map_left_iff, List.forall₂_map_right_iff, List.forall₂_same]
  exact fun pattern => patterns_link hrules hrules' (fun name h => by rw [hagree name h]) hleads hs

theorem nameOf_named {symbol symbol' : Nat}
    (hsymbol : (named grammar grammar' start).symbols symbol symbol') :
    grammar.nameOf symbol = grammar'.nameOf symbol' := by
  obtain ⟨name, -, hs, hs'⟩ := hsymbol
  rw [Grammar.nameOf_of_indexOf? hs, Grammar.nameOf_of_indexOf? hs']

theorem between_named (hrules : Grammar.ofRules rules = .ok grammar)
    (hrules' : Grammar.ofRules rules' = .ok grammar')
    (hagree : ∀ name, grammar.Leads start name → grammar.rulesOf name = grammar'.rulesOf name)
    (dictionary : Dictionary) (separator : Text) (cap : Option Nat) (sentence : Sentence) :
    (named grammar grammar' start).Between ⟨dictionary, grammar, separator, cap⟩
      ⟨dictionary, grammar', separator, cap⟩ sentence sentence where
  symbols := biUnique_named grammar grammar' start
  positions := biUnique_eq
  cap := rfl
  nameOf := fun _ _ => nameOf_named
  alternatives := fun _ _ => alternatives_named hrules hrules' hagree
  inRange := by
    intro key key' hkey
    obtain ⟨⟨name, -, hs, hs'⟩, hstart, -⟩ := hkey
    have hsize : key.symbol < grammar.size := (Array.findIdx?_eq_some_iff_getElem.mp hs).1
    have hsize' : key'.symbol < grammar'.size := (Array.findIdx?_eq_some_iff_getElem.mp hs').1
    rw [Key.InRange, Key.InRange, show key.start = key'.start from hstart]
    exact and_congr_left' (iff_of_true hsize hsize')
  endOf? := by
    intro pos pos' hpos text
    rw [show pos = pos' from hpos]
    cases sentence.endOf? pos' text with
    | none => exact .none
    | some stop => exact .some rfl
  leavesAt := by
    intro pos pos' hpos
    rw [show pos = pos' from hpos]
    exact List.forall₂_same.mpr fun _ _ => ⟨rfl, rfl, rfl⟩

end grammars

end Pairing

namespace Analysis

/-- Only the alternatives of the names that the start symbol leads to matter: if two grammars have
the same ones in the same order, analyses that have found nothing yet answer the same. -/
theorem parseGiven_eq_of_leads {rules rules' : List Rule} {grammar grammar' : Grammar}
    (hrules : Grammar.ofRules rules = .ok grammar)
    (hrules' : Grammar.ofRules rules' = .ok grammar') {start : Text}
    (hagree : ∀ name, grammar.Leads start name → grammar.rulesOf name = grammar'.rulesOf name)
    (dictionary : Dictionary) (separator : Text) (cap : Option Nat) (text : Text) (offset : Nat)
    (inherited : Features) :
    ((new ⟨dictionary, grammar, separator, cap⟩).reset text).seen
        (.parseGiven start offset inherited) =
      ((new ⟨dictionary, grammar', separator, cap⟩).reset text).seen
        (.parseGiven start offset inherited) := by
  have hbetween := Pairing.between_named hrules hrules' hagree dictionary separator cap
    (Sentence.ofText text)
  have hstart := Pairing.rel_indexOf? hrules hrules' hagree .start
  have hsame : ∀ p p', (Pairing.named grammar grammar' start).positions p p' → id p = id p' :=
    fun _ _ hpos => hpos
  have hoffset : (Pairing.named grammar grammar' start).positions offset offset := rfl
  obtain ⟨trees, trees', htrees, hseen, hseen'⟩ := hbetween.seen hsame hstart hoffset inherited
  rw [List.map_id'' Tree.move_id, List.map_id'' Tree.move_id] at htrees
  rw [← htrees] at hseen'
  exact hseen.trans hseen'.symm

end Analysis

/-- The symbols of the grammar that is crossed, in another order and with one more. -/
def Grammar.scattered : Grammar where
  symbols := #[
    ⟨['b'], [⟨['{', 'a', '}', '!'], none, [.term ⟨some ['a'], [], some 2⟩, .literal ['!']], 0⟩,
      ⟨['x'], none, [.literal ['x']], 0⟩]⟩,
    ⟨['c'], [⟨['{', 'b', '}'], none, [.term ⟨some ['b'], [], some 0⟩], 0⟩]⟩,
    ⟨['a'], [⟨['{', 'b', '}'], none, [.term ⟨some ['b'], [], some 0⟩], 0⟩]⟩]
  undefined := []

theorem Grammar.ofRules_scattered : Grammar.ofRules
    [⟨['b'], ['{', 'a', '}', '!']⟩, ⟨['c'], ['{', 'b', '}']⟩, ⟨['a'], ['{', 'b', '}']⟩,
      ⟨['b'], ['x']⟩] = .ok .scattered :=
  ok_of_toOption (by decide +kernel)

theorem Grammar.leads_crossed {name : Text} (h : Grammar.crossed.Leads ['a'] name) :
    name = ['a'] ∨ name = ['b'] := by
  induction h with
  | start => exact .inl rfl
  | term _ hnext ih =>
    rcases ih with rfl | rfl
    · exact .inr (List.mem_singleton.mp hnext)
    · exact .inl (List.mem_singleton.mp hnext)

theorem Analysis.parseGiven_eq_of_leads_crossed :
    ((new ⟨.empty, .crossed, [' '], none⟩).reset ['x', '!', '!']).seen
        (.parseGiven ['a'] 0 .empty) =
      ((new ⟨.empty, .scattered, [' '], none⟩).reset ['x', '!', '!']).seen
        (.parseGiven ['a'] 0 .empty) := by
  refine parseGiven_eq_of_leads Grammar.ofRules_crossed Grammar.ofRules_scattered ?_ _ _ _ _ _ _
  intro name hleads
  rcases Grammar.leads_crossed hleads with rfl | rfl
  · decide
  · decide

end Concord
