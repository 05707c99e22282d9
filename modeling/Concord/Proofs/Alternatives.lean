import Concord.Proofs.Capped
import Concord.Proofs.Reachable

namespace Concord

namespace Pairing

section grammars

variable {rules rules' : List Rule} {grammar grammar' : Grammar} {C : Comparison}

theorem alternatives_below (hrules : Grammar.ofRules rules = .ok grammar)
    (hrules' : Grammar.ofRules rules' = .ok grammar')
    (hsame : ∀ name, grammar.rulesOf name = [] ↔ grammar'.rulesOf name = [])
    (hbelow : ∀ name, C.Below (grammar.rulesOf name) (grammar'.rulesOf name)) {start : Text}
    {symbol symbol' : Nat} (hsymbol : (named grammar grammar' start).symbols symbol symbol') :
    C.Rel (named grammar grammar' start).Patterns (grammar.alternatives symbol)
      (grammar'.alternatives symbol') := by
  obtain ⟨name, hleads, hs, hs'⟩ := hsymbol
  have hread : C.Below (Pattern.readAll (grammar.rulesOf name))
      (Pattern.readAll (grammar'.rulesOf name)) := Comparison.filterMap _ (hbelow name)
  rw [Grammar.alternatives_eq hrules hs, Grammar.alternatives_eq hrules' hs']
  exact Comparison.rel_map
    (fun pattern => patterns_link hrules hrules' (fun name _ => hsame name) hleads hs) hread

/-- Grammars are compared by the alternatives of their symbols, dictionaries by the words that they
offer in the sentence. -/
theorem compares_named (hrules : Grammar.ofRules rules = .ok grammar)
    (hrules' : Grammar.ofRules rules' = .ok grammar')
    (hsame : ∀ name, grammar.rulesOf name = [] ↔ grammar'.rulesOf name = [])
    (hbelow : ∀ name, C.Below (grammar.rulesOf name) (grammar'.rulesOf name))
    {dictionary dictionary' : Dictionary} {separator : Text} {sentence : Sentence}
    (hleaves : ∀ pos, C.Below
      (Parser.leavesAt ⟨dictionary, grammar, separator, none⟩ sentence pos)
      (Parser.leavesAt ⟨dictionary', grammar', separator, none⟩ sentence pos)) (start : Text) :
    (named grammar grammar' start).Compares C ⟨dictionary, grammar, separator, none⟩
      ⟨dictionary', grammar', separator, none⟩ sentence where
  positions := rfl
  nameOf := fun _ _ => nameOf_named
  alternatives := fun _ _ => alternatives_below hrules hrules' hsame hbelow
  leavesAt pos := Comparison.rel_of_below (fun _ => ⟨rfl, rfl, rfl⟩) (hleaves pos)
  limit := fun _ _ hds => hds

end grammars

end Pairing

/-- The grammar that is greedy with the alternatives of its symbols, and the symbols, the other way
around. -/
def Grammar.modest : Grammar where
  symbols := #[
    ⟨['b'], [⟨['x'], none, [.literal ['x']], 0⟩, ⟨['x', 'y'], none, [.literal ['x', 'y']], 0⟩]⟩,
    ⟨['a'], [⟨['{', 'b', '}'], none, [.term ⟨some ['b'], [], some 0⟩], 0⟩,
      ⟨['{', 'b', '}', 'y'], none, [.term ⟨some ['b'], [], some 0⟩, .literal ['y']], 0⟩]⟩]
  undefined := []

theorem Grammar.ofRules_greedy : Grammar.ofRules [⟨['a'], ['{', 'b', '}', 'y']⟩,
    ⟨['a'], ['{', 'b', '}']⟩, ⟨['b'], ['x', 'y']⟩, ⟨['b'], ['x']⟩] = .ok .greedy :=
  ok_of_toOption (by decide +kernel)

theorem Grammar.ofRules_modest : Grammar.ofRules [⟨['b'], ['x']⟩, ⟨['a'], ['{', 'b', '}']⟩,
    ⟨['b'], ['x', 'y']⟩, ⟨['a'], ['{', 'b', '}', 'y']⟩] = .ok .modest :=
  ok_of_toOption (by decide +kernel)

namespace Analysis

/-- The order of the alternatives of each symbol makes no difference but to the order of what is
found, if the search meets no left recursion. -/
theorem seen_perm {rules rules' : List Rule} {grammar grammar' : Grammar}
    (hrules : Grammar.ofRules rules = .ok grammar)
    (hrules' : Grammar.ofRules rules' = .ok grammar')
    (hperm : ∀ name, (grammar'.rulesOf name).Perm (grammar.rulesOf name)) (dictionary : Dictionary)
    (separator text : Text) {request : Request}
    (hg : request.Grounded ⟨dictionary, grammar, separator, none⟩ (.ofText text)) :
    let found := ((new ⟨dictionary, grammar, separator, none⟩).reset text).seen request
    let found' := ((new ⟨dictionary, grammar', separator, none⟩).reset text).seen request
    found'.1 = found.1 ∧ found'.2.Perm found.2 := by
  have hsame : ∀ name, grammar'.rulesOf name = [] ↔ grammar.rulesOf name = [] := fun name => by
    rw [← List.length_eq_zero_iff, ← List.length_eq_zero_iff, (hperm name).length_eq]
  have hstart := Pairing.rel_indexOf?_of_iff hrules' hrules .start (hsame request.start)
  have hcompares : (Pairing.named grammar' grammar request.start).Compares .perm
      ⟨dictionary, grammar', separator, none⟩ ⟨dictionary, grammar, separator, none⟩
      (.ofText text) :=
    Pairing.compares_named hrules' hrules hsame hperm (fun _ => List.Perm.refl _) request.start
  exact hcompares.seen hstart hg [] []

/-- What is found first with the alternatives in one order is found last in the other. -/
theorem seen_perm_greedy :
    let found := ((new ⟨.empty, .greedy, [' '], none⟩).reset ['x', 'y']).seen (.parse ['a'] 0)
    let found' := ((new ⟨.empty, .modest, [' '], none⟩).reset ['x', 'y']).seen (.parse ['a'] 0)
    let phrase (stop inner : Nat) : Tree :=
      .phrase ['a'] 0 stop .empty [.phrase ['b'] 0 inner .empty []]
    found.2 = [phrase 2 1, phrase 2 2, phrase 1 1] ∧
      found'.2 = [phrase 1 1, phrase 2 2, phrase 2 1] ∧ found'.2.Perm found.2 := by
  intro found found' phrase
  have hsentence : Sentence.ofText ['x', 'y'] = ⟨['x', 'y'], #['x', 'y'], #[0, 1, 2]⟩ := by
    decide +kernel
  have hs : Grammar.greedy.indexOf? ['a'] = some 0 := by decide +kernel
  have hs' : Grammar.modest.indexOf? ['a'] = some 1 := by decide +kernel
  let derivation (a b : Key) (stop inner : Nat) : Derivation :=
    .expansion ['a'] a stop .empty [.expansion ['b'] b inner .empty []]
  have hplain : Key.plain ⟨.empty, .greedy, [' '], none⟩ (.ofText ['x', 'y']) 2 ⟨0, 0, .empty⟩ =
      some ([(2, 1), (2, 2), (1, 1)].map fun (stop, inner) =>
        derivation ⟨0, 0, .empty⟩ ⟨1, 0, .empty⟩ stop inner) := by
    rw [hsentence]
    rfl
  have hplain' : Key.plain ⟨.empty, .modest, [' '], none⟩ (.ofText ['x', 'y']) 2 ⟨1, 0, .empty⟩ =
      some ([(1, 1), (2, 2), (2, 1)].map fun (stop, inner) =>
        derivation ⟨1, 0, .empty⟩ ⟨0, 0, .empty⟩ stop inner) := by
    rw [hsentence]
    rfl
  have hg : Request.Grounded ⟨.empty, .greedy, [' '], none⟩ (.ofText ['x', 'y'])
      (.parse ['a'] 0) := Request.grounded_of_plain hs hplain
  have hseen := seen_parse_plain _ [] hs (Nat.zero_le _) hplain
  have hseen' := seen_parse_plain _ [] hs' (Nat.zero_le _) hplain'
  refine ⟨?_, ?_, ?_⟩
  · exact (congrArg Prod.snd hseen).trans (by simp [derivation, phrase])
  · exact (congrArg Prod.snd hseen').trans (by simp [derivation, phrase])
  · refine (seen_perm Grammar.ofRules_greedy Grammar.ofRules_modest (fun name => ?_) .empty [' ']
      ['x', 'y'] hg).2
    by_cases hname : name ∈ Grammar.greedy.names
    · rcases hname with _ | ⟨_, _ | ⟨_, ⟨⟩⟩⟩
      · decide
      · decide
    · have hname' : name ∉ Grammar.modest.names :=
        fun h => hname ((by decide : Grammar.modest.names ⊆ Grammar.greedy.names) h)
      rw [Grammar.rulesOf_of_indexOf?_eq_none (Grammar.indexOf?_eq_none_iff_names.mpr hname),
        Grammar.rulesOf_of_indexOf?_eq_none (Grammar.indexOf?_eq_none_iff_names.mpr hname')]

end Analysis

end Concord
