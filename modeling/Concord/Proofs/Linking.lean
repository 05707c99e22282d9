import Concord.Proofs.Compilation
import Concord.Proofs.Reachable

namespace Concord

section order

theorem inOrder_iff_not_lt {a b : Text} : inOrder a b = true ↔ ¬b < a := by
  rw [inOrder, Bool.not_eq_true', decide_eq_false_iff_not]

theorem inOrder_trans (a b c : Text) (hab : inOrder a b = true) (hbc : inOrder b c = true) :
    inOrder a c = true := by
  rw [inOrder_iff_not_lt] at *
  exact List.not_lt.mpr (List.le_trans (List.not_lt.mp hab) (List.not_lt.mp hbc))

theorem inOrder_total (a b : Text) : (inOrder a b || inOrder b a) = true := by
  rw [Bool.or_eq_true, inOrder_iff_not_lt, inOrder_iff_not_lt]
  exact (List.le_total a b).imp List.not_lt.mpr List.not_lt.mpr

theorem inOrder_antisymm {a b : Text} (hab : inOrder a b = true) (hba : inOrder b a = true) :
    a = b := by
  rw [inOrder_iff_not_lt] at *
  exact List.le_antisymm (List.not_lt.mp hab) (List.not_lt.mp hba)

end order

section unlinked

def Term.unlinked (term : Term) : Term :=
  { term with target := none }

def Element.unlinked : Element → Element
  | .literal text => .literal text
  | .term t => .term t.unlinked

/-- The pattern before its terms were linked. -/
def Pattern.unlinked (pattern : Pattern) : Pattern :=
  { pattern with elements := pattern.elements.map Element.unlinked }

theorem Element.unlinked_link (names : List Text) (element : Element) :
    (element.link names).unlinked = element.unlinked := by
  cases element with
  | literal text => rfl
  | term term => rfl

theorem Pattern.unlinked_link (names : List Text) (pattern : Pattern) :
    (pattern.link names).unlinked = pattern.unlinked := by
  have helements : Element.unlinked ∘ Element.link names = Element.unlinked :=
    funext (Element.unlinked_link names)
  rw [unlinked, link, List.map_map, helements, unlinked]

/-- Terms are not linked when a pattern is compiled. -/
theorem Pattern.unlinked_of_compile {raw : Text} {pattern : Pattern}
    (h : Pattern.compile raw = .ok pattern) : pattern.unlinked = pattern := by
  rw [Pattern.compile_eq_ok] at h
  obtain ⟨written, rfl⟩ := Pattern.exists_of_read h
  rw [Pattern.read_text, Except.ok.injEq] at h
  have hchunk : ∀ chunk, ∀ element ∈ chunkElements chunk, element.unlinked = element := by
    intro chunk element helement
    unfold chunkElements at helement
    split at helement
    · cases helement
    · cases List.mem_singleton.mp helement
      rfl
  have helements : ∀ element ∈ pattern.elements, element.unlinked = element := by
    intro element helement
    rw [← h] at helement
    rcases List.mem_append.mp helement with helement | helement
    · exact hchunk _ element helement
    · obtain ⟨⟨term, chunk⟩, -, helement⟩ := List.mem_flatMap.mp helement
      rcases List.mem_cons.mp helement with rfl | helement
      · rfl
      · exact hchunk chunk element helement
  rw [unlinked, List.map_congr_left helements, List.map_id']

theorem Pattern.terms_link (names : List Text) (pattern : Pattern) :
    (pattern.link names).terms = pattern.terms.map (Term.link names) := by
  rw [terms, terms, link, List.filterMap_map, List.map_filterMap]
  refine List.filterMap_congr fun element _ => ?_
  cases element with
  | literal text => rfl
  | term term => rfl

/-- A term is linked to the place of its name. -/
theorem Term.target_link {names : List Text} (hnodup : names.Nodup) (term : Term) (target : Nat) :
    (term.link names).target = some target ↔
      ∃ name, term.name = some name ∧ names[target]? = some name := by
  rw [link, Option.bind_eq_some_iff]
  refine exists_congr fun name => and_congr_right fun _ => ?_
  rw [List.findIdx?_eq_some_iff_getElem]
  constructor
  · rintro ⟨hlt, hname, -⟩
    rw [List.getElem?_eq_getElem hlt, of_decide_eq_true hname]
  · intro hget
    obtain ⟨hlt, hname⟩ := List.getElem?_eq_some_iff.mp hget
    refine ⟨hlt, decide_eq_true hname, fun earlier hearlier heq => ?_⟩
    have hsame : names[earlier] = names[target] := (of_decide_eq_true heq).trans hname.symm
    exact absurd ((hnodup.getElem_inj_iff).mp hsame) (Nat.ne_of_lt hearlier)

theorem Term.target_link_eq_none {names : List Text} {term : Term} :
    (term.link names).target = none ↔ ∀ name, term.name = some name → name ∉ names := by
  rw [link, Option.bind_eq_none_iff]
  refine forall_congr' fun name => imp_congr_right fun _ => ?_
  rw [List.findIdx?_eq_none_iff]
  constructor
  · intro hall hmem
    simpa using hall name hmem
  · rintro hnot other hother
    rw [decide_eq_false_iff_not]
    rintro rfl
    exact hnot hother

end unlinked

namespace Grammar

/-- The error of the first rule whose pattern does not compile, with the name of the rule. -/
def FirstFault (rules : List Rule) (error : Error) : Prop :=
  ∃ before rule after fault, rules = before ++ rule :: after ∧
    (∀ earlier ∈ before, ∃ pattern, Pattern.compile earlier.raw = .ok pattern) ∧
    Pattern.compile rule.raw = .error (.pattern none rule.raw fault) ∧
    error = .pattern (some rule.name) rule.raw fault

/-- The symbols of the grammar are the names of the rules, each with the patterns of its rules; each
term is linked to the symbol that bears its name, and the names that no symbol bears are told. -/
structure Links (grammar : Grammar) (rules : List Rule) : Prop where
  names_nodup : grammar.names.Nodup
  mem_names (name : Text) : name ∈ grammar.names ↔ ∃ rule ∈ rules, rule.name = name
  names_order : grammar.names.Pairwise fun a b =>
    (rules.map Rule.name).idxOf a < (rules.map Rule.name).idxOf b
  rulesOf_eq (name : Text) :
    grammar.rulesOf name = (rules.filter (·.name = name)).map Rule.raw
  compiled : ∀ symbol ∈ grammar.symbols, List.Forall₂
    (fun rule pattern => Pattern.compile rule.raw = .ok pattern.unlinked)
    (rules.filter (·.name = symbol.name)) symbol.patterns
  linked : ∀ symbol ∈ grammar.symbols, ∀ pattern ∈ symbol.patterns, ∀ term ∈ pattern.terms,
    (∀ target, term.target = some target ↔
      ∃ name, term.name = some name ∧ grammar.names[target]? = some name) ∧
    (term.target = none ↔ ∀ name, term.name = some name → ∀ rule ∈ rules, rule.name ≠ name)
  undefined_order : grammar.undefined.Pairwise fun a b => encodeUtf8 a < encodeUtf8 b
  mem_undefined (name : Text) : name ∈ grammar.undefined ↔
    (∃ symbol ∈ grammar.symbols, ∃ pattern ∈ symbol.patterns, ∃ term ∈ pattern.terms,
      term.name = some name) ∧ ∀ rule ∈ rules, rule.name ≠ name

section patterns

variable {rules : List (Text × Pattern)}

theorem mem_symbols_ofPatterns {symbol : Symbol} : symbol ∈ (ofPatterns rules).symbols ↔
    symbol.name ∈ (ofPatterns rules).names ∧
      symbol.patterns = ((rules.filter (·.1 = symbol.name)).map Prod.snd).map
        (Pattern.link (ofPatterns rules).names) := by
  rw [names_ofPatterns, ofPatterns]
  simp only [List.mem_toArray, List.mem_map, List.map_map]
  constructor
  · rintro ⟨name, hname, rfl⟩
    exact ⟨hname, rfl⟩
  · rintro ⟨hname, hpatterns⟩
    refine ⟨symbol.name, hname, ?_⟩
    obtain ⟨name, patterns⟩ := symbol
    rw [show patterns = _ from hpatterns]
    rfl

/-- The patterns of the symbols are the ones of the rules, linked. -/
theorem exists_symbol_iff {p : Pattern → Prop} :
    (∃ symbol ∈ (ofPatterns rules).symbols, ∃ pattern ∈ symbol.patterns, p pattern) ↔
      ∃ rule ∈ rules, p (rule.2.link (ofPatterns rules).names) := by
  constructor
  · rintro ⟨symbol, hsymbol, pattern, hpattern, hp⟩
    rw [(mem_symbols_ofPatterns.mp hsymbol).2, List.map_map] at hpattern
    obtain ⟨rule, hrule, rfl⟩ := List.mem_map.mp hpattern
    exact ⟨rule, (List.mem_filter.mp hrule).1, hp⟩
  · rintro ⟨rule, hrule, hp⟩
    let patterns := ((rules.filter (·.1 = rule.1)).map Prod.snd).map
      (Pattern.link (ofPatterns rules).names)
    have hname : rule.1 ∈ (ofPatterns rules).names := by
      rw [names_ofPatterns, List.mem_eraseDups]
      exact List.mem_map_of_mem hrule
    refine ⟨⟨rule.1, patterns⟩, mem_symbols_ofPatterns.mpr ⟨hname, rfl⟩, _, ?_, hp⟩
    have hown : rule ∈ rules.filter (·.1 = rule.1) :=
      List.mem_filter.mpr ⟨hrule, decide_eq_true rfl⟩
    exact List.mem_map_of_mem (List.mem_map_of_mem hown)

theorem rulesOf_ofPatterns (name : Text) :
    (ofPatterns rules).rulesOf name = (rules.filter (·.1 = name)).map (·.2.raw) := by
  cases hs : (ofPatterns rules).indexOf? name with
  | some symbol =>
    rw [rulesOf_of_indexOf? hs, alternatives_ofPatterns hs, List.map_map, List.map_map]
    rfl
  | none =>
    rw [rulesOf_of_indexOf?_eq_none hs]
    rw [← findIdx?_names, List.findIdx?_eq_none_iff] at hs
    have hnone : rules.filter (·.1 = name) = [] := by
      refine List.filter_eq_nil_iff.mpr fun rule hrule => ?_
      have hname : rule.1 ∈ (ofPatterns rules).names := by
        rw [names_ofPatterns, List.mem_eraseDups]
        exact List.mem_map_of_mem hrule
      rw [hs rule.1 hname]
      exact Bool.false_ne_true
    rw [hnone, List.map_nil]

theorem mem_undefined_ofPatterns {name : Text} : name ∈ (ofPatterns rules).undefined ↔
    (∃ rule ∈ rules, ∃ term ∈ rule.2.terms, term.name = some name) ∧
      name ∉ (ofPatterns rules).names := by
  rw [names_ofPatterns, ofPatterns]
  simp only [mem_dropRepeats, List.mem_mergeSort, List.mem_filter, List.mem_filterMap,
    List.mem_flatMap, decide_eq_true_eq]
  refine and_congr_left' ⟨?_, ?_⟩
  · rintro ⟨term, ⟨rule, hrule, hterm⟩, hname⟩
    exact ⟨rule, hrule, term, hterm, hname⟩
  · rintro ⟨rule, hrule, term, hterm, hname⟩
    exact ⟨term, ⟨rule, hrule, hterm⟩, hname⟩

theorem pairwise_undefined_ofPatterns :
    (ofPatterns rules).undefined.Pairwise fun a b => encodeUtf8 a < encodeUtf8 b := by
  have hsorted : (ofPatterns rules).undefined.Pairwise fun a b =>
      inOrder a b = true ∧ a ≠ b :=
    pairwise_dropRepeats (fun _ _ => inOrder_antisymm)
      (List.pairwise_mergeSort inOrder_trans inOrder_total _)
  refine hsorted.imp fun ⟨hle, hne⟩ => encodeUtf8_lt.mpr ?_
  have hnot := List.not_lt.mp (inOrder_iff_not_lt.mp hle)
  exact (List.le_iff_lt_or_eq.mp hnot).resolve_right hne

end patterns

end Grammar

theorem Rule.compile_eq_ok {rule : Rule} {pattern : Pattern} :
    rule.compile = .ok pattern ↔ Pattern.compile rule.raw = .ok pattern := by
  rw [Pattern.compile_eq_ok]
  unfold Rule.compile
  split
  next hread => rw [hread, Except.ok.injEq, Except.ok.injEq]
  next hread =>
    rw [hread]
    exact iff_of_false nofun nofun

/-- The fault of a pattern is told with the name of the rule. -/
theorem Rule.compile_eq_error {rule : Rule} {error : Error} :
    rule.compile = .error error ↔
      ∃ fault, Pattern.compile rule.raw = .error (.pattern none rule.raw fault) ∧
        error = .pattern (some rule.name) rule.raw fault := by
  rw [Rule.compile, Pattern.compile]
  cases Pattern.read rule.raw with
  | ok read => exact iff_of_false nofun (by simp)
  | error fault => simp [eq_comm]

section named

variable {rule : Rule}

theorem Rule.named_eq_ok {pair : Text × Pattern} :
    (do return (rule.name, ← rule.compile)) = Except.ok pair ↔
      rule.name = pair.1 ∧ Pattern.compile rule.raw = .ok pair.2 := by
  rw [← Rule.compile_eq_ok]
  cases rule.compile with
  | ok pattern =>
    constructor
    · rintro ⟨⟩
      exact ⟨rfl, rfl⟩
    · rintro ⟨hname, hpattern⟩
      cases hpattern
      rw [hname]
      rfl
  | error fault => exact iff_of_false nofun (by simp)

theorem Rule.named_eq_error {error : Error} :
    (do return (rule.name, ← rule.compile)) = Except.error (α := Text × Pattern) error ↔
      rule.compile = .error error := by
  cases rule.compile with
  | ok pattern => exact iff_of_false nofun nofun
  | error fault =>
    constructor
    · rintro ⟨⟩
      rfl
    · rintro ⟨⟩
      rfl

end named

namespace Grammar

section rules

variable {rules : List Rule} {grammar : Grammar}

/-- The first rule whose pattern does not compile is reported. -/
theorem ofRules_eq_error {error : Error} :
    ofRules rules = .error error ↔ FirstFault rules error := by
  have hall : ofRules rules = .error error ↔
      rules.mapM (fun rule => return (rule.name, ← rule.compile)) = .error error := by
    rw [ofRules]
    cases rules.mapM (fun rule => return (rule.name, ← rule.compile)) with
    | ok patterns => exact iff_of_false nofun nofun
    | error fault =>
      constructor
      · rintro ⟨⟩
        rfl
      · rintro ⟨⟩
        rfl
  rw [hall, mapM_eq_error]
  have hok : ∀ rule : Rule, (∃ pair : Text × Pattern,
      rule.name = pair.1 ∧ Pattern.compile rule.raw = .ok pair.2) ↔
      ∃ pattern, Pattern.compile rule.raw = .ok pattern := fun rule =>
    ⟨fun ⟨pair, _, hpair⟩ => ⟨pair.2, hpair⟩, fun ⟨pattern, h⟩ => ⟨(rule.name, pattern), rfl, h⟩⟩
  simp only [Rule.named_eq_ok, Rule.named_eq_error, Rule.compile_eq_error, hok, FirstFault,
    exists_and_left]

/-- The rules with their patterns, compiled. -/
theorem forall₂_of_ofRules (h : ofRules rules = .ok grammar) :
    ∃ patterns, grammar = ofPatterns patterns ∧ List.Forall₂ (fun rule pair =>
      rule.name = pair.1 ∧ Pattern.compile rule.raw = .ok pair.2) rules patterns := by
  obtain ⟨patterns, hpatterns, h⟩ := exists_ok_of_bind h
  cases h
  exact ⟨patterns, rfl, (mapM_eq_ok.mp hpatterns).imp fun _ _ => Rule.named_eq_ok.mp⟩

theorem links_of_ofRules (h : ofRules rules = .ok grammar) : grammar.Links rules := by
  obtain ⟨patterns, rfl, heach⟩ := forall₂_of_ofRules h
  have hnames : rules.map Rule.name = patterns.map Prod.fst :=
    map_eq_of_forall₂ heach fun _ _ _ hpair => hpair.1
  have hmem : ∀ name, name ∈ (ofPatterns patterns).names ↔ ∃ rule ∈ rules, rule.name = name := by
    intro name
    rw [names_ofPatterns, ← hnames, List.mem_eraseDups, List.mem_map]
  have hnot : ∀ name, name ∉ (ofPatterns patterns).names ↔
      ∀ rule ∈ rules, rule.name ≠ name := by
    intro name
    rw [hmem]
    exact not_exists.trans (forall_congr' fun rule => not_and)
  have hof : ∀ name, List.Forall₂ (fun (rule : Rule) (pair : Text × Pattern) =>
      rule.name = pair.1 ∧ Pattern.compile rule.raw = .ok pair.2)
      (rules.filter (·.name = name)) (patterns.filter (·.1 = name)) := fun name =>
    List.rel_filter (fun rule pair hpair => by simp [hpair.1]) heach
  have hnodup : (ofPatterns patterns).names.Nodup := by
    rw [names_ofPatterns]
    exact nodup_eraseDups _
  refine ⟨hnodup, hmem, ?_, fun name => ?_, fun symbol hsymbol => ?_,
    fun symbol hsymbol pattern hpattern term hterm => ?_, ?_, fun name => ?_⟩
  · rw [names_ofPatterns, ← hnames]
    exact pairwise_eraseDups (rules.map Rule.name)
  · rw [rulesOf_ofPatterns]
    refine (map_eq_of_forall₂ (hof name) fun rule _ pair hpair => ?_).symm
    exact (Pattern.raw_of_read (Pattern.compile_eq_ok.mp hpair.2)).symm
  · rw [(mem_symbols_ofPatterns.mp hsymbol).2, List.forall₂_map_right_iff,
      List.forall₂_map_right_iff]
    refine (hof symbol.name).imp fun rule pair hpair => ?_
    rw [Pattern.unlinked_link, Pattern.unlinked_of_compile hpair.2]
    exact hpair.2
  · rw [(mem_symbols_ofPatterns.mp hsymbol).2] at hpattern
    obtain ⟨compiled, -, rfl⟩ := List.mem_map.mp hpattern
    rw [Pattern.terms_link] at hterm
    obtain ⟨written, -, rfl⟩ := List.mem_map.mp hterm
    refine ⟨written.target_link hnodup, Term.target_link_eq_none.trans ?_⟩
    exact forall_congr' fun name => imp_congr_right fun _ => hnot name
  · exact pairwise_undefined_ofPatterns
  · rw [mem_undefined_ofPatterns, hnot, exists_symbol_iff]
    simp only [Pattern.terms_link, List.mem_map, exists_exists_and_eq_and]
    rfl

end rules

/-- Rules make a grammar if all their patterns compile, and else the first one that does not is
reported with its name. The grammar groups the patterns by name and links each term to the symbol
that bears its name. -/
theorem ofRules_links (rules : List Rule) :
    ((∃ error, ofRules rules = .error error) ↔
      ∃ rule ∈ rules, ∃ error, Pattern.compile rule.raw = .error error) ∧
    (∀ error, ofRules rules = .error error ↔ FirstFault rules error) ∧
    ∀ grammar, ofRules rules = .ok grammar → grammar.Links rules := by
  refine ⟨⟨?_, ?_⟩, fun error => ofRules_eq_error, fun grammar => links_of_ofRules⟩
  · rintro ⟨error, h⟩
    obtain ⟨before, rule, after, fault, rfl, -, hfault, -⟩ := ofRules_eq_error.mp h
    exact ⟨rule, List.mem_append_right before List.mem_cons_self, _, hfault⟩
  · rintro ⟨rule, hrule, error, herror⟩
    cases h : ofRules rules with
    | error error => exact ⟨error, rfl⟩
    | ok grammar =>
      obtain ⟨patterns, -, heach⟩ := forall₂_of_ofRules h
      have hcompiled : ∀ rule ∈ rules, ∃ pattern, Pattern.compile rule.raw = .ok pattern :=
        forall_of_forall₂ heach fun _ pair hpair => ⟨pair.2, hpair.2⟩
      obtain ⟨pattern, hpattern⟩ := hcompiled rule hrule
      cases hpattern.symm.trans herror

/-- A symbol is named before it is declared, its alternatives stand apart, and one name has no
rules. -/
theorem ofRules_links_scattered :
    let rules : List Rule := [⟨['b'], ['{', 'a', '}', '{', 'z', '}']⟩,
      ⟨['a'], ['x', '{', 'b', '}']⟩, ⟨['b'], ['y']⟩]
    ∃ grammar, ofRules rules = .ok grammar ∧ grammar.Links rules ∧
      grammar.names = [['b'], ['a']] ∧ grammar.undefined = [['z']] ∧
      ofRules (rules ++ [⟨['c'], ['}']⟩, ⟨['d'], ['{']⟩]) =
        .error (.pattern (some ['c']) ['}'] .unopened) := by
  intro rules
  have hok : ofRules rules = .ok ⟨#[
    ⟨['b'], [⟨['{', 'a', '}', '{', 'z', '}'], none,
      [.term ⟨some ['a'], [], some 1⟩, .term ⟨some ['z'], [], none⟩], 0⟩,
      ⟨['y'], none, [.literal ['y']], 0⟩]⟩,
    ⟨['a'], [⟨['x', '{', 'b', '}'], none, [.literal ['x'], .term ⟨some ['b'], [], some 0⟩], 0⟩]⟩],
    [['z']]⟩ := ok_of_toOption (by decide +kernel)
  obtain ⟨-, -, hlinks⟩ := ofRules_links rules
  obtain ⟨-, herror, -⟩ := ofRules_links (rules ++ [⟨['c'], ['}']⟩, ⟨['d'], ['{']⟩])
  refine ⟨_, hok, hlinks _ hok, rfl, rfl, (herror _).mpr ?_⟩
  have hcompiled : ∀ rule ∈ rules, (Pattern.compile rule.raw).toOption.isSome = true := by
    decide +kernel
  have hfault : Pattern.compile ['}'] = .error (.pattern none ['}'] .unopened) := by
    decide +kernel
  refine ⟨rules, ⟨['c'], ['}']⟩, [⟨['d'], ['{']⟩], .unopened, rfl, fun rule hrule => ?_, hfault,
    rfl⟩
  obtain ⟨pattern, hpattern⟩ := Option.isSome_iff_exists.mp (hcompiled rule hrule)
  exact ⟨pattern, ok_of_toOption hpattern⟩

end Grammar

end Concord
