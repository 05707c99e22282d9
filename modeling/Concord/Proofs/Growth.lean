import Concord.Proofs.Alternatives
import Concord.Proofs.Collected
import Concord.Proofs.Offered
import Mathlib.Data.List.Sort

namespace Concord

/-- The readings on the lines of a lexicon are among those on more lines, in the same order. -/
theorem lexiconReadings_sublist {lexicon lexicon' : Text}
    (hlines : ∀ line ∈ lines lexicon, line ∈ lines lexicon') :
    (lexiconReadings lexicon).Sublist (lexiconReadings lexicon') := by
  have hpairwise := pairwise_ne_lexiconReadings lexicon
  have hpairwise' := pairwise_ne_lexiconReadings lexicon'
  have hsubset : lexiconReadings lexicon ⊆ lexiconReadings lexicon' := by
    intro reading hreading
    obtain ⟨line, hline, hon⟩ := mem_lexiconReadings.mp hreading
    exact mem_lexiconReadings.mpr ⟨line, hlines line hline, hon⟩
  have hantisymm : Std.Antisymm fun a b : Reading => a.le b = true ∧ a ≠ b :=
    ⟨fun _ _ hab hba => Reading.le_antisymm hab.1 hba.1⟩
  exact List.sublist_of_subperm_of_pairwise
    (List.subperm_of_subset (hpairwise.imp And.right) hsubset) hpairwise hpairwise'

section words

variable {entries entries' : List Entry}

/-- The leaf of an entry does not depend on where its word stands in the text of the dictionary. -/
theorem map_leafAt_filter (p : Text → Bool) (pos : Nat) (entries : List Entry) :
    (entries.filter (p ·.word)).map (Entry.leafAt pos) =
      ((entries.map Entry.reading).filter (p ·.word)).map fun reading =>
        ⟨pos, pos + reading.word.length, reading.features⟩ := by
  rw [List.filter_map, List.map_map]
  rfl

theorem leafAt_sublist (h : (entries.map Entry.reading).Sublist (entries'.map Entry.reading))
    (p : Text → Bool) (pos : Nat) :
    ((entries.filter (p ·.word)).map (Entry.leafAt pos)).Sublist
      ((entries'.filter (p ·.word)).map (Entry.leafAt pos)) := by
  rw [map_leafAt_filter, map_leafAt_filter]
  exact (h.filter _).map _

/-- Of two dictionaries, the one with more readings offers more words at each position. -/
theorem Parser.leavesAt_sublist {dictionary dictionary' : Dictionary}
    (hascends : dictionary.Ascends) (hascends' : dictionary'.Ascends)
    (hreadings : (dictionary.toList.map Entry.reading).Sublist
      (dictionary'.toList.map Entry.reading)) (grammar grammar' : Grammar) (separator : Text)
    (sentence : Sentence) (pos : Nat) :
    (leavesAt ⟨dictionary, grammar, separator, none⟩ sentence pos).Sublist
      (leavesAt ⟨dictionary', grammar', separator, none⟩ sentence pos) := by
  rw [leavesAt_eq_map_offered hascends, leavesAt_eq_map_offered hascends']
  unfold offered
  dsimp only
  by_cases hword : sentence.wordAt pos = []
  · rw [if_pos hword, if_pos hword]
  rw [if_neg hword, if_neg hword, List.map_append, List.map_append]
  refine (leafAt_sublist hreadings (· = sentence.wordAt pos) pos).append ?_
  by_cases hsep : separator = []
  · rw [if_pos hsep, if_pos hsep]
  · rw [if_neg hsep, if_neg hsep]
    exact leafAt_sublist hreadings (fun word =>
      sentence.wordAt pos ++ separator <+: word ∧ sentence.Covers pos word) pos

end words

/-- A symbol that stands for any word. -/
def Grammar.wordy : Grammar where
  symbols := #[⟨['a'], [⟨['{', 'w', '}'], none, [.term ⟨some ['w'], [], none⟩], 0⟩]⟩]
  undefined := [['w']]

/-- A symbol that stands for any word and for the letter `x`. -/
def Grammar.wordier : Grammar where
  symbols := #[⟨['a'], [⟨['x'], none, [.literal ['x']], 0⟩,
    ⟨['{', 'w', '}'], none, [.term ⟨some ['w'], [], none⟩], 0⟩]⟩]
  undefined := [['w']]

theorem Grammar.ofRules_wordy : Grammar.ofRules [⟨['a'], ['{', 'w', '}']⟩] = .ok .wordy :=
  ok_of_toOption (by decide +kernel)

theorem Grammar.ofRules_wordier :
    Grammar.ofRules [⟨['a'], ['x']⟩, ⟨['a'], ['{', 'w', '}']⟩] = .ok .wordier :=
  ok_of_toOption (by decide +kernel)

/-- The derivation of the symbol that stands for any word. -/
def Leaf.wordy (start : Nat) (leaf : Leaf) : Derivation :=
  .expansion ['a'] ⟨0, start, .empty⟩ leaf.stop .empty [.word leaf]

section wordy

variable (dictionary : Dictionary) (separator : Text) {sentence : Sentence} {start : Nat}

/-- A symbol that stands for any word finds each word that is there. -/
theorem Key.plain_wordy (sentence : Sentence) (start : Nat) :
    Key.plain ⟨dictionary, .wordy, separator, none⟩ sentence 1 ⟨0, start, .empty⟩ =
      some ((Parser.leavesAt ⟨dictionary, .wordy, separator, none⟩ sentence start).map
        (Leaf.wordy start)) := by
  have hadmitted : (Grammar.wordy.alternatives 0).filter (·.admits .empty) =
      [⟨['{', 'w', '}'], none, [.term ⟨some ['w'], [], none⟩], 0⟩] := rfl
  simp only [plain, expandWith, hadmitted, tryEach, Strand.advanceAll, Strand.advanceEach,
    Strand.advance, Option.bind_some, Option.map_some, List.append_nil, List.filterMap_filterMap]
  rw [← List.filterMap_eq_map]
  rfl

/-- Where the letter `x` is, it is found before the words. -/
theorem Key.plain_wordier {stop : Nat} (hx : sentence.endOf? start ['x'] = some stop) :
    Key.plain ⟨dictionary, .wordier, separator, none⟩ sentence 1 ⟨0, start, .empty⟩ =
      some (.expansion ['a'] ⟨0, start, .empty⟩ stop .empty [] ::
        (Parser.leavesAt ⟨dictionary, .wordier, separator, none⟩ sentence start).map
          (Leaf.wordy start)) := by
  have hadmitted : (Grammar.wordier.alternatives 0).filter (·.admits .empty) =
      [⟨['x'], none, [.literal ['x']], 0⟩,
        ⟨['{', 'w', '}'], none, [.term ⟨some ['w'], [], none⟩], 0⟩] := rfl
  have hliteral : (Strand.start start ⟨['x'], none, [.literal ['x']], 0⟩).literal? sentence ['x'] =
      some { Strand.start start ⟨['x'], none, [.literal ['x']], 0⟩ with pos := stop } :=
    congrArg (Option.map _) hx
  simp only [plain, expandWith, hadmitted, tryEach, Strand.advanceAll, Strand.advanceEach,
    Strand.advance, hliteral, Option.bind_some, Option.map_some, List.append_nil,
    List.filterMap_filterMap]
  rw [← List.filterMap_eq_map]
  rfl

end wordy

namespace Analysis

/-- More knowledge never loses a parse: with more lines in the lexicon and more alternatives of the
same symbols, what was found before is found in the same order, among what is found besides. -/
theorem seen_sublist {lexicon lexicon' : Text} {dictionary dictionary' : Dictionary}
    (hbuilt : Dictionary.ofLexicon lexicon = .ok dictionary)
    (hbuilt' : Dictionary.ofLexicon lexicon' = .ok dictionary')
    (hlines : ∀ line ∈ lines lexicon, line ∈ lines lexicon')
    {rules rules' : List Rule} {grammar grammar' : Grammar}
    (hrules : Grammar.ofRules rules = .ok grammar)
    (hrules' : Grammar.ofRules rules' = .ok grammar')
    (hnames : ∀ name, name ∈ grammar.names ↔ name ∈ grammar'.names)
    (halternatives : ∀ name, (grammar.rulesOf name).Sublist (grammar'.rulesOf name))
    (separator text : Text) {request : Request}
    (hg : request.Grounded ⟨dictionary', grammar', separator, none⟩ (.ofText text)) :
    let found := ((new ⟨dictionary, grammar, separator, none⟩).reset text).seen request
    let found' := ((new ⟨dictionary', grammar', separator, none⟩).reset text).seen request
    found.1 = found'.1 ∧ found.2.Sublist found'.2 := by
  have hsame : ∀ name, grammar.rulesOf name = [] ↔ grammar'.rulesOf name = [] := fun name => by
    rw [← Grammar.indexOf?_eq_none_iff hrules, ← Grammar.indexOf?_eq_none_iff hrules',
      Grammar.indexOf?_eq_none_iff_names, Grammar.indexOf?_eq_none_iff_names, hnames]
  have hreadings := lexiconReadings_sublist hlines
  rw [← Dictionary.map_reading_of_ofLexicon hbuilt, ← Dictionary.map_reading_of_ofLexicon hbuilt']
    at hreadings
  have hleaves := Parser.leavesAt_sublist (Dictionary.ascends_of_ofLexicon hbuilt)
    (Dictionary.ascends_of_ofLexicon hbuilt') hreadings grammar grammar' separator (.ofText text)
  have hcompares := Pairing.compares_named (C := .sublist) hrules hrules' hsame halternatives
    hleaves request.start
  have hstart := Pairing.rel_indexOf?_of_iff hrules hrules' .start (hsame request.start)
  exact hcompares.seen hstart hg [] []

/-- With one more alternative and one more line there is a derivation more before what was found and
one more after it. -/
theorem seen_sublist_wordy :
    let noun : Features := { pos := some .noun }
    let verb : Features := { pos := some .verb }
    let dictionary : Dictionary := ⟨['x', '\x00'], #[⟨0, ['x'], noun⟩]⟩
    let dictionary' : Dictionary :=
      ⟨['x', '\x00', 'x', ' ', 'y', '\x00'], #[⟨0, ['x'], noun⟩, ⟨2, ['x', ' ', 'y'], verb⟩]⟩
    let parser : Parser := ⟨dictionary, .wordy, [' '], none⟩
    let parser' : Parser := ⟨dictionary', .wordier, [' '], none⟩
    let seen (parser : Parser) : Except Error Unit × List Tree :=
      ((new parser).reset ['x', ' ', 'y']).seen (.parse ['a'] 0)
    Dictionary.ofLexicon "x\tnoun".toList = .ok dictionary ∧
      Dictionary.ofLexicon "x\tnoun\nx y\tverb".toList = .ok dictionary' ∧
      (seen parser).2 = [.phrase ['a'] 0 1 .empty [.leaf ⟨0, 1, noun⟩]] ∧
      (seen parser').2 = [.phrase ['a'] 0 1 .empty [],
        .phrase ['a'] 0 1 .empty [.leaf ⟨0, 1, noun⟩],
        .phrase ['a'] 0 3 .empty [.leaf ⟨0, 3, verb⟩]] ∧
      (seen parser).2.Sublist (seen parser').2 := by
  intro noun verb dictionary dictionary' parser parser' seen
  have hbuilt : Dictionary.ofLexicon "x\tnoun".toList = .ok dictionary :=
    ok_of_toOption (by decide +kernel)
  have hlines : (lines (normalize "x\tnoun\nx y\tverb".toList)).filterMap Reading.ofLine? =
      [⟨['x'], noun⟩, ⟨['x', ' ', 'y'], verb⟩] := by decide +kernel
  have hbuilt' : Dictionary.ofLexicon "x\tnoun\nx y\tverb".toList = .ok dictionary' := by
    rw [Dictionary.ofLexicon, lexiconReadings, hlines, List.mergeSort_of_pairwise (by decide)]
    rfl
  have hsentence : Sentence.ofText ['x', ' ', 'y'] =
      ⟨['x', ' ', 'y'], #['x', ' ', 'y'], #[0, 1, 2, 3]⟩ := by decide +kernel
  have hx : (Sentence.ofText ['x', ' ', 'y']).endOf? 0 ['x'] = some 1 := by
    rw [hsentence]
    decide
  have hleaves : parser.leavesAt (.ofText ['x', ' ', 'y']) 0 = [⟨0, 1, noun⟩] := by
    decide +kernel
  have hleaves' : parser'.leavesAt (.ofText ['x', ' ', 'y']) 0 = [⟨0, 1, noun⟩, ⟨0, 3, verb⟩] := by
    decide +kernel
  have hplain := Key.plain_wordy dictionary [' '] (.ofText ['x', ' ', 'y']) 0
  have hplain' := Key.plain_wordier dictionary' [' '] hx
  rw [hleaves] at hplain
  rw [hleaves'] at hplain'
  have hs : parser.grammar.indexOf? ['a'] = some 0 := by decide +kernel
  have hs' : parser'.grammar.indexOf? ['a'] = some 0 := by decide +kernel
  have hg : Request.Grounded parser' (.ofText ['x', ' ', 'y']) (.parse ['a'] 0) :=
    Request.grounded_of_plain hs' hplain'
  have hseen := seen_parse_plain _ [] hs (Nat.zero_le _) hplain
  have hseen' := seen_parse_plain _ [] hs' (Nat.zero_le _) hplain'
  refine ⟨hbuilt, hbuilt', ?_, ?_, ?_⟩
  · exact (congrArg Prod.snd hseen).trans (by simp [Leaf.wordy])
  · exact (congrArg Prod.snd hseen').trans (by simp [Leaf.wordy])
  · refine (seen_sublist hbuilt hbuilt' (by decide +kernel) Grammar.ofRules_wordy
      Grammar.ofRules_wordier (fun _ => Iff.rfl) (fun name => ?_) [' '] ['x', ' ', 'y'] hg).2
    by_cases hname : name ∈ Grammar.wordy.names
    · rcases hname with _ | ⟨_, ⟨⟩⟩
      decide
    · rw [Grammar.rulesOf_of_indexOf?_eq_none (Grammar.indexOf?_eq_none_iff_names.mpr hname)]
      exact List.nil_sublist _

end Analysis

end Concord
