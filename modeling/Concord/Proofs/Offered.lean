import Concord.Proofs.Lookup
import Concord.Proofs.OwnText

namespace Concord

namespace Sentence

/-- The word characters from a position on. -/
def wordAt (sentence : Sentence) (pos : Nat) : Text :=
  (sentence.chars.toList.drop pos).takeWhile isWordChar

/-- A text stands at a position, and what follows it is no word character. -/
structure Covers (sentence : Sentence) (pos : Nat) (text : Text) : Prop where
  stands : text <+: sentence.chars.toList.drop pos
  ends : sentence.chars[pos + text.length]?.any isWordChar = false

instance (sentence : Sentence) (pos : Nat) (text : Text) :
    Decidable (sentence.Covers pos text) :=
  decidable_of_iff (text <+: sentence.chars.toList.drop pos ∧
    sentence.chars[pos + text.length]?.any isWordChar = false)
    ⟨fun ⟨hs, he⟩ => ⟨hs, he⟩, fun ⟨hs, he⟩ => ⟨hs, he⟩⟩

end Sentence

/-- The leaf of an entry whose word begins at a position. -/
def Entry.leafAt (pos : Nat) (entry : Entry) : Leaf :=
  ⟨pos, pos + entry.word.length, entry.features⟩

namespace Parser

/-- The entries with the word that stands at a position, then those that begin with that word and
the separator and stand there as whole words. -/
def offered (parser : Parser) (sentence : Sentence) (pos : Nat) : List Entry :=
  let word := sentence.wordAt pos
  if word = [] then
    []
  else
    parser.dictionary.toList.filter (·.word = word) ++
      if parser.separator = [] then []
      else
        parser.dictionary.toList.filter fun entry =>
          word ++ parser.separator <+: entry.word ∧ sentence.Covers pos entry.word

variable {parser : Parser} {sentence : Sentence} {pos : Nat}

theorem phraseLeaf?_eq (sentence : Sentence) (pos : Nat) (entry : Entry) :
    phraseLeaf? sentence pos entry =
      if sentence.Covers pos entry.word then some (entry.leafAt pos) else none := by
  have hslice : sentence.slice pos (pos + entry.word.length) = entry.word ↔
      entry.word <+: sentence.chars.toList.drop pos := by
    rw [Sentence.slice_eq, List.prefix_iff_eq_take]
    exact eq_comm
  unfold phraseLeaf?
  split
  next hnone =>
    rw [if_neg]
    rintro ⟨hstands, -⟩
    rw [Sentence.endOf?_eq_some.mpr ⟨hslice.mpr hstands, rfl⟩] at hnone
    cases hnone
  next stop hstop =>
    obtain ⟨hstands, rfl⟩ := Sentence.endOf?_eq_some.mp hstop
    split
    next hword =>
      rw [if_neg]
      rintro ⟨-, hends⟩
      cases hword.symm.trans hends
    next hword => rw [if_pos ⟨hslice.mp hstands, by simpa using hword⟩, Entry.leafAt]

theorem filterMap_phraseLeaf? (sentence : Sentence) (pos : Nat) (entries : List Entry) :
    entries.filterMap (phraseLeaf? sentence pos) =
      (entries.filter (sentence.Covers pos ·.word)).map (Entry.leafAt pos) := by
  rw [← List.filterMap_eq_map, List.filterMap_filter]
  refine List.filterMap_congr fun entry _ => ?_
  rw [phraseLeaf?_eq]
  simp

/-- The words found at a position are the entries offered there. -/
theorem leavesAt_eq_map_offered (h : parser.dictionary.Ascends) (sentence : Sentence) (pos : Nat) :
    parser.leavesAt sentence pos = (parser.offered sentence pos).map (Entry.leafAt pos) := by
  have hstop : sentence.endOfWord pos = pos + (sentence.wordAt pos).length :=
    sentence.endOfWord_eq pos
  have hslice : sentence.slice pos (sentence.endOfWord pos) = sentence.wordAt pos :=
    sentence.slice_endOfWord pos
  unfold leavesAt offered
  dsimp only
  rw [hslice, h.readings_eq]
  by_cases hword : sentence.wordAt pos = []
  · rw [if_pos hword, if_pos (by rw [hstop, hword]; rfl), List.map_nil]
  have hpos : sentence.endOfWord pos ≠ pos := by
    have hlength := List.length_pos_of_ne_nil hword
    omega
  have hreadings : ∀ entry ∈ parser.dictionary.toList.filter (·.word = sentence.wordAt pos),
      (⟨pos, sentence.endOfWord pos, entry.features⟩ : Leaf) = entry.leafAt pos := by
    intro entry hentry
    have heq : entry.word = sentence.wordAt pos := by simpa using (List.mem_filter.mp hentry).2
    rw [Entry.leafAt, heq, hstop]
  rw [if_neg hword, if_neg hpos, List.map_append, List.map_congr_left hreadings]
  by_cases hsep : parser.separator = []
  · rw [if_pos hsep, Dictionary.phrases, if_pos (by rw [hsep]; rfl), List.filterMap_nil,
      List.map_nil]
  · rw [if_neg hsep, h.phrases_eq _ hsep, filterMap_phraseLeaf?, List.filter_filter]
    congr 3
    funext entry
    rw [Bool.and_comm, Bool.decide_and]

/-- No entry is offered twice. -/
theorem offered_perm (parser : Parser) (sentence : Sentence) (pos : Nat) :
    (parser.offered sentence pos).Perm (parser.dictionary.toList.filter fun entry =>
      sentence.wordAt pos ≠ [] ∧ (entry.word = sentence.wordAt pos ∨ parser.separator ≠ [] ∧
        sentence.wordAt pos ++ parser.separator <+: entry.word ∧
          sentence.Covers pos entry.word)) := by
  unfold offered
  dsimp only
  by_cases hword : sentence.wordAt pos = []
  · simp [hword]
  by_cases hsep : parser.separator = []
  · simp [hword, hsep]
  rw [if_neg hword, if_neg hsep]
  have hdisjoint : ∀ entry ∈ parser.dictionary.toList,
      decide (entry.word = sentence.wordAt pos) = true →
      decide (sentence.wordAt pos ++ parser.separator <+: entry.word ∧
        sentence.Covers pos entry.word) = false := by
    intro entry _ heq
    rw [decide_eq_false_iff_not, of_decide_eq_true heq]
    exact fun h => not_append_isPrefix hsep h.1
  simpa [hword, hsep] using filter_append_perm hdisjoint

end Parser

namespace Search

variable {parser : Parser} {sentence : Sentence} {search next : Search}

/-- The searches on a sentence since it was set: between requests, after any steps of expansions,
and after words were asked for at any positions. -/
inductive Since (parser : Parser) (sentence : Sentence) : Search → Prop where
  | requests (requests : List Request) : Since parser sentence
      ⟨((Analysis.ofSentence parser sentence).afterAll requests).memo,
        ((Analysis.ofSentence parser sentence).afterAll requests).words, []⟩
  | enter {search : Search} (h : Since parser sentence search) (key : Key) :
      Since parser sentence (search.enter parser.grammar key)
  | step {search next : Search} (h : Since parser sentence search)
      (hstep : search.step parser sentence = .running next) : Since parser sentence next
  | asked {search : Search} (h : Since parser sentence search) (pos : Nat) :
      Since parser sentence (search.leavesAt parser sentence pos).2

theorem faithful_leavesAt (h : Faithful parser sentence search.words) (pos : Nat) :
    Faithful parser sentence (search.leavesAt parser sentence pos).2.words := by
  obtain ⟨words, hwords, heq⟩ := search.leavesAt_eq h pos
  rw [heq]
  exact hwords

theorem faithful_matchTerm (h : Faithful parser sentence search.words) (top : Expansion)
    (rest : List Expansion) (branch : Branch) (pending : List Branch) (term : Term) :
    Faithful parser sentence
      (search.matchTerm parser sentence top rest branch pending term).words := by
  unfold matchTerm
  split
  next => exact faithful_leavesAt h branch.pos
  next =>
    dsimp only
    split
    · exact h
    · exact h
    · split <;> exact h

/-- A step remembers no words but those of the dictionary. -/
theorem faithful_step (h : Faithful parser sentence search.words)
    (hstep : search.step parser sentence = .running next) :
    Faithful parser sentence next.words := by
  unfold step at hstep
  split at hstep
  next => cases hstep
  next top rest _ =>
    split at hstep
    · unfold leave at hstep
      split at hstep
      · cases hstep
      · cases hstep
        exact h
    · cases hstep
      exact h
    · cases hstep
      exact h
    · cases hstep
      exact h
    · cases hstep
      exact faithful_matchTerm h _ _ _ _ _

theorem Since.faithful (h : search.Since parser sentence) :
    Faithful parser sentence search.words := by
  induction h with
  | requests requests =>
    obtain ⟨t, hshows, -⟩ :=
      (Analysis.shows_ofSentence parser sentence).afterAll .empty requests
    exact hshows.words
  | enter h key ih => exact ih
  | step h hstep ih => exact faithful_step ih hstep
  | asked h pos ih => exact faithful_leavesAt ih pos

/-- The words offered at a position are the entries with the word that stands there, in the order of
the dictionary, then those that begin with it and the separator and stand there as whole words; no
entry is offered twice, and it makes no difference what was searched before. -/
theorem leavesAt_offers
    (hdictionary : (∃ lexicon, Dictionary.ofLexicon lexicon = .ok parser.dictionary) ∨
      ∃ bytes, Dictionary.ofBytes bytes = .ok parser.dictionary)
    {text : Text} (hsince : search.Since parser (.ofText text)) (pos : Nat) :
    (search.leavesAt parser (.ofText text) pos).1 =
        (parser.offered (.ofText text) pos).map (Entry.leafAt pos) ∧
      (parser.offered (.ofText text) pos).Perm (parser.dictionary.toList.filter fun entry =>
        (Sentence.ofText text).wordAt pos ≠ [] ∧
          (entry.word = (Sentence.ofText text).wordAt pos ∨ parser.separator ≠ [] ∧
            (Sentence.ofText text).wordAt pos ++ parser.separator <+: entry.word ∧
              (Sentence.ofText text).Covers pos entry.word)) := by
  have hascends : parser.dictionary.Ascends := by
    rcases hdictionary with ⟨lexicon, h⟩ | ⟨bytes, h⟩
    · exact Dictionary.ascends_of_ofLexicon h
    · exact Dictionary.ascends_of_ofBytes h
  obtain ⟨words, -, heq⟩ := search.leavesAt_eq hsince.faithful pos
  rw [heq]
  exact ⟨parser.leavesAt_eq_map_offered hascends _ pos, parser.offered_perm _ pos⟩

/-- A phrase that only begins in the sentence is not offered, also when the words are asked for
again. -/
theorem leavesAt_offers_again :
    let lexicon := "po\tprep\npo s\tconj\npo sa\tadvb".toList
    let entries : List Entry :=
      [⟨0, "po".toList, { pos := some .prep }⟩, ⟨3, "po s".toList, { pos := some .conj }⟩,
        ⟨8, "po sa".toList, { pos := some .advb }⟩]
    let dictionary : Dictionary := ⟨"po\x00po s\x00po sa\x00".toList, entries.toArray⟩
    let parser : Parser := ⟨dictionary, .direct, [' '], none⟩
    let sentence := Sentence.ofText "Po  s?".toList
    let analysis := (Analysis.ofSentence parser sentence).afterAll [.parse ['w'] 0]
    let search : Search := ⟨analysis.memo, analysis.words, []⟩
    Dictionary.ofLexicon lexicon = .ok parser.dictionary ∧ search.Since parser sentence ∧
      (search.leavesAt parser sentence 0).1 =
        [⟨0, 2, { pos := some .prep }⟩, ⟨0, 4, { pos := some .conj }⟩] := by
  intro lexicon entries dictionary parser sentence analysis search
  have hlines : (lines (normalize lexicon)).filterMap Reading.ofLine? =
      entries.map Entry.reading := by decide +kernel
  have hreadings : lexiconReadings lexicon = entries.map Entry.reading := by
    rw [lexiconReadings, hlines, List.mergeSort_of_pairwise (by decide +kernel)]
    decide +kernel
  have hbuild : Dictionary.ofLexicon lexicon = .ok parser.dictionary := by
    rw [Dictionary.ofLexicon, hreadings]
    decide +kernel
  have hsince : search.Since parser sentence := .requests [.parse ['w'] 0]
  obtain ⟨hleaves, -⟩ := leavesAt_offers (.inl ⟨lexicon, hbuild⟩) hsince 0
  exact ⟨hbuild, hsince, hleaves.trans (by decide +kernel)⟩

end Search

end Concord
