import Concord.Proofs.Folding
import Concord.Proofs.History
import Concord.Proofs.Matching
import Concord.Proofs.Scope

namespace Concord

/-- The attribute values that tags of a lexicon stand for. -/
def Features.ofLexiconTags (tags : Text) : Features :=
  .ofTags (fields (fun c => c = ',' || c = ' ') (normalize tags))

section lexicons

variable {lexicon : Text} {reading : Reading}

theorem Reading.ofLine?_normalize (line : Text) :
    Reading.ofLine? (normalize line) = some reading ↔ ∃ word tags,
      splitAtFirst '\t' line = some (word, tags) ∧ word ≠ [] ∧
        reading = ⟨normalize word, .ofLexiconTags tags⟩ := by
  rw [Reading.ofLine?, splitAtFirst_normalize (by decide)]
  cases splitAtFirst '\t' line with
  | none => simp
  | some pair =>
    obtain ⟨word, tags⟩ := pair
    cases word with
    | nil => simp [normalize]
    | cons c word =>
      have hne : (normalize (c :: word)).isEmpty = false := rfl
      simp [hne, Features.ofLexiconTags, eq_comm]

/-- The readings of a lexicon are the ones on its lines. -/
theorem mem_lexiconReadings : reading ∈ lexiconReadings lexicon ↔ ∃ line ∈ lines lexicon,
    ∃ word tags, splitAtFirst '\t' line = some (word, tags) ∧ word ≠ [] ∧
      reading = ⟨normalize word, .ofLexiconTags tags⟩ := by
  rw [lexiconReadings, mem_dropRepeats, List.mem_mergeSort, List.mem_filterMap, lines_normalize]
  simp only [List.mem_map, exists_exists_and_eq_and, Reading.ofLine?_normalize]

theorem exists_entry_iff {dictionary : Dictionary}
    (h : Dictionary.ofLexicon lexicon = .ok dictionary) {word : Text} {features : Features} :
    (∃ entry ∈ dictionary.toList, entry.word = word ∧ entry.features = features) ↔
      ⟨word, features⟩ ∈ lexiconReadings lexicon := by
  rw [← Dictionary.map_reading_of_ofLexicon h, List.mem_map]
  simp only [Entry.reading, Reading.mk.injEq]

end lexicons

namespace Sentence

variable {sentence : Sentence}

theorem wordLength_eq (sentence : Sentence) {count pos : Nat} (h : sentence.length ≤ pos + count) :
    sentence.wordLength count pos =
      ((sentence.chars.toList.drop pos).takeWhile isWordChar).length := by
  induction count generalizing pos with
  | zero =>
    rw [List.drop_eq_nil_of_le (by simpa [length] using h)]
    rfl
  | succ count ih =>
    rw [wordLength]
    split
    next c hc =>
      obtain ⟨hlt, rfl⟩ := Array.getElem?_eq_some_iff.mp hc
      rw [List.drop_eq_getElem_cons (by simpa using hlt), ih (by omega), List.takeWhile_cons,
        Array.getElem_toList]
      split <;> rfl
    next hnone =>
      rw [List.drop_eq_nil_of_le (by simpa using hnone)]
      rfl

theorem endOfWord_eq (sentence : Sentence) (pos : Nat) :
    sentence.endOfWord pos =
      pos + ((sentence.chars.toList.drop pos).takeWhile isWordChar).length := by
  rw [endOfWord, wordLength_eq _ (by omega)]

theorem slice_endOfWord (sentence : Sentence) (pos : Nat) :
    sentence.slice pos (sentence.endOfWord pos) =
      (sentence.chars.toList.drop pos).takeWhile isWordChar := by
  rw [endOfWord_eq, slice_eq]
  exact (List.prefix_iff_eq_take.mp (List.takeWhile_prefix _)).symm

/-- A sentence that begins with a word and consists of words and spaces. -/
structure WordsOnly (sentence : Sentence) : Prop where
  first : sentence.chars.toList.head?.any isWordChar = true
  each : ∀ c ∈ sentence.chars.toList, isWordChar c = true ∨ c = ' '

namespace WordsOnly

theorem takeWhile_ne_zero (h : sentence.WordsOnly) :
    (sentence.chars.toList.takeWhile isWordChar).length ≠ 0 := by
  obtain ⟨hfirst, -⟩ := h
  cases hchars : sentence.chars.toList with
  | nil =>
    rw [hchars] at hfirst
    cases hfirst
  | cons c rest =>
    rw [hchars, List.head?_cons, Option.any_some] at hfirst
    rw [List.takeWhile_cons_of_pos hfirst]
    exact Nat.succ_ne_zero _

/-- What follows the first word, if anything does, is a space. -/
theorem append_space_isPrefix (h : sentence.WordsOnly)
    (hmore : sentence.chars.toList.takeWhile isWordChar ≠ sentence.chars.toList) :
    sentence.chars.toList.takeWhile isWordChar ++ [' '] <+: sentence.chars.toList := by
  have hcut := List.takeWhile_append_dropWhile (p := isWordChar) (l := sentence.chars.toList)
  have hhead := List.head?_dropWhile_not isWordChar sentence.chars.toList
  cases hrest : sentence.chars.toList.dropWhile isWordChar with
  | nil =>
    rw [hrest, List.append_nil] at hcut
    exact absurd hcut hmore
  | cons c rest =>
    rw [hrest] at hcut hhead
    have hmem : c ∈ sentence.chars.toList := by
      rw [← hcut]
      simp
    have hspace : c = ' ' := by
      rcases h.each c hmem with hword | hspace
      · simp [hword] at hhead
      · exact hspace
    refine ⟨rest, ?_⟩
    rw [List.append_assoc, ← hspace]
    exact hcut

end WordsOnly

end Sentence

namespace Parser

variable {sentence : Sentence}

theorem phraseLeaf?_whole {entry : Entry} {features : Features} :
    phraseLeaf? sentence 0 entry = some ⟨0, sentence.length, features⟩ ↔
      entry.word = sentence.chars.toList ∧ entry.features = features := by
  have hend : sentence.chars[sentence.length]? = none :=
    Array.getElem?_eq_none (Nat.le_refl _)
  have hlength : sentence.chars.toList.length = sentence.length := rfl
  unfold phraseLeaf?
  constructor
  · intro h
    split at h
    next => cases h
    next stop hstop =>
      split at h
      next => cases h
      next =>
        simp only [Option.some.injEq, Leaf.mk.injEq, true_and] at h
        obtain ⟨rfl, hfeatures⟩ := h
        obtain ⟨hslice, hcount⟩ := Sentence.endOf?_eq_some.mp hstop
        rw [Sentence.slice_eq, List.drop_zero, List.take_of_length_le (by omega)] at hslice
        exact ⟨hslice.symm, hfeatures⟩
  · rintro ⟨hword, rfl⟩
    have hstands : sentence.endOf? 0 entry.word = some sentence.length := by
      rw [Sentence.endOf?_eq_some, Sentence.slice_eq, hword, List.drop_zero,
        List.take_of_length_le (Nat.le_refl _), hlength, Nat.zero_add]
      exact ⟨rfl, rfl⟩
    rw [hstands]
    dsimp only
    rw [hend]
    rfl

/-- The words that cover a sentence are the entries with its characters. -/
theorem mem_leavesAt_whole (parser : Parser) (features : Features)
    (hascends : parser.dictionary.Ascends) (hsep : parser.separator = [' '])
    (hwords : sentence.WordsOnly) :
    ⟨0, sentence.length, features⟩ ∈ parser.leavesAt sentence 0 ↔
      ∃ entry ∈ parser.dictionary.toList,
        entry.word = sentence.chars.toList ∧ entry.features = features := by
  have hslice := sentence.slice_endOfWord 0
  have hstop := sentence.endOfWord_eq 0
  have hlength : sentence.chars.toList.length = sentence.length := rfl
  rw [List.drop_zero] at hslice hstop
  rw [Nat.zero_add] at hstop
  have hprefix := List.takeWhile_prefix isWordChar (l := sentence.chars.toList)
  have hpos : sentence.endOfWord 0 ≠ 0 := by
    rw [hstop]
    exact hwords.takeWhile_ne_zero
  unfold leavesAt
  dsimp only
  rw [if_neg hpos, hslice, List.mem_append, List.mem_map, List.mem_filterMap,
    hascends.readings_eq, hascends.phrases_eq _ (by simp [hsep]), hsep]
  simp only [phraseLeaf?_whole, List.mem_filter, decide_eq_true_eq]
  constructor
  · rintro (⟨entry, ⟨hentry, hword⟩, hleaf⟩ | ⟨entry, ⟨hentry, -⟩, hwhole⟩)
    · simp only [Leaf.mk.injEq, true_and] at hleaf
      obtain ⟨hend, hfeatures⟩ := hleaf
      have hall := hprefix.eq_of_length (by omega)
      exact ⟨entry, hentry, hword.trans hall, hfeatures⟩
    · exact ⟨entry, hentry, hwhole⟩
  · rintro ⟨entry, hentry, hword, rfl⟩
    -- An entry of one word is among the readings, any other one among the phrases.
    by_cases hall : sentence.chars.toList.takeWhile isWordChar = sentence.chars.toList
    · rw [hall] at hstop ⊢
      exact .inl ⟨entry, ⟨hentry, hword⟩, by rw [hstop, hlength]⟩
    · refine .inr ⟨entry, ⟨hentry, ?_⟩, hword, rfl⟩
      rw [hword]
      exact hwords.append_space_isPrefix hall

end Parser

/-- Runs of word characters with white space between them. -/
structure WordRuns (word : Text) : Prop where
  first : word.head?.any isWordChar = true
  last : word.getLast?.any isWordChar = true
  each : (word.all fun c => isWordChar c || isBlank c) = true

theorem WordRuns.wordsOnly {word : Text} (h : WordRuns word) :
    (Sentence.ofText word).WordsOnly := by
  obtain ⟨hfirst, -, heach⟩ := h
  constructor
  · rw [toList_chars_ofText]
    cases word with
    | nil => cases hfirst
    | cons c rest =>
      rw [List.head?_cons, Option.any_some] at hfirst
      have hblank : isBlank c = false := by
        rw [← Bool.not_eq_true]
        intro hblank
        rw [not_isWordChar_of_isBlank hblank] at hfirst
        cases hfirst
      rw [foldLiteral_of_not_isBlank hblank, List.head?_cons, Option.any_some]
      exact isWordChar_lowerChar hfirst
  · rw [toList_chars_ofText]
    refine forall_mem_foldLiteral (.inr rfl) fun c hc hblank => ?_
    have hword := List.all_eq_true.mp heach c hc
    rw [hblank, Bool.or_false] at hword
    exact .inl (isWordChar_lowerChar hword)

namespace Analysis

theorem seen_parse_of_indexOf?_eq_none (parser : Parser) {start : Text}
    (hstart : parser.grammar.indexOf? start = none) (sentence : Sentence) :
    (ofSentence parser sentence).seen (.parse start 0) =
      (.ok (), parser.wordTrees sentence start 0 .empty) := by
  obtain ⟨t, -, -, hseen⟩ := (shows_ofSentence parser sentence).perform (.parse start 0)
  have htrees : Request.trees parser sentence t (.parse start 0) =
      parser.wordTrees sentence start 0 .empty := by
    simp only [Request.trees, Request.start, hstart]
    rfl
  have hall : (parser.wordTrees sentence start 0 .empty).filter
      (Request.keeps sentence (.parse start 0)) = parser.wordTrees sentence start 0 .empty :=
    List.filter_eq_self.mpr fun _ _ => rfl
  rw [hseen, Request.answer, htrees, hall]
  exact if_neg (Nat.not_lt_zero _)

theorem reset_new (parser : Parser) (text : Text) :
    (new parser).reset text = ofSentence parser (Sentence.ofText text) :=
  rfl

/-- A word is found in its own text with some features if the lexicon has it with them and with one
space for each run of white space. -/
theorem exists_tree_iff {lexicon : Text} {dictionary : Dictionary}
    (hbuilt : Dictionary.ofLexicon lexicon = .ok dictionary) {grammar : Grammar}
    {cap : Option Nat} {start : Text} (hstart : grammar.indexOf? start = none) {word : Text}
    (hwords : WordRuns word) (features : Features) :
    (∃ tree ∈ (((new ⟨dictionary, grammar, [' '], cap⟩).reset word).seen (.parse start 0)).2,
        tree.start = 0 ∧ tree.stop = (Sentence.ofText word).length ∧ tree.features = features) ↔
      ⟨foldLiteral word, features⟩ ∈ lexiconReadings lexicon := by
  have hseen := seen_parse_of_indexOf?_eq_none ⟨dictionary, grammar, [' '], cap⟩ hstart
    (Sentence.ofText word)
  have hascends := Dictionary.ascends_of_ofLexicon hbuilt
  have hleaf := Parser.mem_leavesAt_whole ⟨dictionary, grammar, [' '], cap⟩ features hascends rfl
    hwords.wordsOnly
  rw [toList_chars_ofText, exists_entry_iff hbuilt] at hleaf
  rw [← hleaf, reset_new, hseen]
  have hfits : ∀ leaf : Leaf, (Features.empty.toList.all fun feature =>
      leaf.features.get feature.kind = some feature) = true := fun _ => rfl
  simp only [Parser.wordTrees, List.mem_map, List.mem_filter, hfits, and_true]
  constructor
  · rintro ⟨_, ⟨leaf, hmem, rfl⟩, hfirst, hlast, hfeatures⟩
    simp only [Tree.start, Tree.stop, Tree.features] at hfirst hlast hfeatures
    have heq : leaf = ⟨0, (Sentence.ofText word).length, features⟩ := by
      rw [← hfirst, ← hlast, ← hfeatures]
    rwa [heq] at hmem
  · intro hmem
    exact ⟨_, ⟨_, hmem, rfl⟩, rfl, rfl, rfl⟩

/-- A word that consists of runs of word characters is found in its own text, with the features of
its line, exactly if some line with these features has the word with one space for each run of white
space. That line is its own if the word has single spaces only. -/
theorem parse_own_text {lexicon : Text} {dictionary : Dictionary}
    (hbuilt : Dictionary.ofLexicon lexicon = .ok dictionary) (grammar : Grammar)
    (cap : Option Nat) {start : Text} (hstart : grammar.indexOf? start = none)
    {line word tags : Text} (hline : line ∈ lines lexicon)
    (hsplit : splitAtFirst '\t' line = some (word, tags)) (hwords : WordRuns word) :
    let seen := ((new ⟨dictionary, grammar, [' '], cap⟩).reset word).seen (.parse start 0)
    let found := ∃ tree ∈ seen.2, tree.start = 0 ∧
      tree.stop = (Sentence.ofText word).length ∧ tree.features = .ofLexiconTags tags
    seen.1 = .ok () ∧
      (found ↔ ∃ line' ∈ lines lexicon, ∃ word' tags',
        splitAtFirst '\t' line' = some (word', tags') ∧ normalize word' = foldLiteral word ∧
          Features.ofLexiconTags tags' = .ofLexiconTags tags) ∧
      (SingleSpaced word → found) := by
  intro seen found
  have hne : word ≠ [] := by
    rintro rfl
    cases hwords.first
  have hfold : foldLiteral word ≠ [] := by
    intro hnil
    have hfirst := hwords.wordsOnly.first
    rw [toList_chars_ofText, hnil] at hfirst
    cases hfirst
  have hfound : found ↔ ⟨foldLiteral word, .ofLexiconTags tags⟩ ∈ lexiconReadings lexicon :=
    exists_tree_iff hbuilt hstart hwords _
  refine ⟨?_, ?_, fun hspaced => ?_⟩
  · have hseen := seen_parse_of_indexOf?_eq_none ⟨dictionary, grammar, [' '], cap⟩ hstart
      (Sentence.ofText word)
    exact congrArg Prod.fst hseen
  · rw [hfound, mem_lexiconReadings]
    constructor
    · rintro ⟨line', hline', word', tags', hsplit', -, hreading⟩
      rw [Reading.mk.injEq] at hreading
      exact ⟨line', hline', word', tags', hsplit', hreading.1.symm, hreading.2.symm⟩
    · rintro ⟨line', hline', word', tags', hsplit', hword', htags'⟩
      have hne' : word' ≠ [] := by
        rintro rfl
        exact hfold hword'.symm
      exact ⟨line', hline', word', tags', hsplit', hne', by rw [hword', htags']⟩
  · rw [hfound, mem_lexiconReadings]
    exact ⟨line, hline, word, tags, hsplit, hne, by rw [hspaced.foldLiteral_eq]⟩

theorem parse_own_text_space :
    let lexicon := "A b\tNOUN\n".toList
    let built : Dictionary := ⟨"a b\x00".toList, #[⟨0, "a b".toList, { pos := some .noun }⟩]⟩
    Dictionary.ofLexicon lexicon = .ok built ∧
      ∃ tree ∈ (((new ⟨built, .direct, [' '], none⟩).reset "A b".toList).seen
          (.parse ['w'] 0)).2,
        tree.start = 0 ∧ tree.stop = 3 ∧ tree.features = { pos := some .noun } := by
  intro lexicon built
  have hbuilt : Dictionary.ofLexicon lexicon = .ok built := by decide +kernel
  have hstart : Grammar.direct.indexOf? ['w'] = none := by decide +kernel
  have hline : "A b\tNOUN".toList ∈ lines lexicon := by decide +kernel
  have hsplit : splitAtFirst '\t' "A b\tNOUN".toList = some ("A b".toList, "NOUN".toList) := by
    decide +kernel
  have hwords : WordRuns "A b".toList :=
    ⟨by decide +kernel, by decide +kernel, by decide +kernel⟩
  have hlength : (Sentence.ofText "A b".toList).length = 3 := by decide +kernel
  have hfeatures : Features.ofLexiconTags "NOUN".toList = { pos := some .noun } := by
    decide +kernel
  have hspaced : SingleSpaced "A b".toList := ⟨by decide +kernel, by decide +kernel⟩
  obtain ⟨-, -, hfound⟩ := parse_own_text hbuilt .direct none hstart hline hsplit hwords
  rw [hlength, hfeatures] at hfound
  exact ⟨hbuilt, hfound hspaced⟩

/-- A word with two spaces in a row is not found. -/
theorem not_parse_own_text :
    ¬∀ (lexicon : Text) (dictionary : Dictionary), Dictionary.ofLexicon lexicon = .ok dictionary →
      ∀ (grammar : Grammar) (cap : Option Nat) (start : Text), grammar.indexOf? start = none →
        ∀ line ∈ lines lexicon, ∀ word tags, splitAtFirst '\t' line = some (word, tags) →
          WordRuns word →
            ∃ tree ∈ (((new ⟨dictionary, grammar, [' '], cap⟩).reset word).seen
                (.parse start 0)).2,
              tree.start = 0 ∧ tree.stop = (Sentence.ofText word).length ∧
                tree.features = .ofLexiconTags tags := by
  intro h
  have hbuilt : Dictionary.ofLexicon "a  b\tnoun\n".toList =
      .ok ⟨"a  b\x00".toList, #[⟨0, "a  b".toList, { pos := some .noun }⟩]⟩ := by
    decide +kernel
  have hstart : Grammar.direct.indexOf? ['w'] = none := by decide +kernel
  have hline : "a  b\tnoun".toList ∈ lines "a  b\tnoun\n".toList := by decide +kernel
  have hsplit : splitAtFirst '\t' "a  b\tnoun".toList = some ("a  b".toList, "noun".toList) := by
    decide +kernel
  have hwords : WordRuns "a  b".toList :=
    ⟨by decide +kernel, by decide +kernel, by decide +kernel⟩
  have hfound := h _ _ hbuilt .direct none _ hstart _ hline _ _ hsplit hwords
  rw [exists_tree_iff hbuilt hstart hwords] at hfound
  have hreadings : lexiconReadings "a  b\tnoun\n".toList =
      [⟨"a  b".toList, { pos := some .noun }⟩] := by decide +kernel
  rw [hreadings] at hfound
  revert hfound
  decide +kernel

end Analysis

end Concord
