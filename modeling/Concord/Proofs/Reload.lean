import Concord.Proofs.Lexicons
import Concord.Proofs.Stored
import Mathlib.Data.List.TakeWhile

namespace Concord

/-- A word up to its first NUL. -/
def cutWord (word : Text) : Text :=
  word.takeWhile (· ≠ '\x00')

theorem not_mem_cutWord (word : Text) : '\x00' ∉ cutWord word := fun h => by
  simpa using List.mem_takeWhile_imp h

theorem cutWord_eq_self {word : Text} : cutWord word = word ↔ '\x00' ∉ word := by
  constructor
  · intro h
    rw [← h]
    exact not_mem_cutWord word
  · intro h
    refine List.takeWhile_eq_self_iff.mpr fun c hc => ?_
    rw [decide_eq_true_eq]
    rintro rfl
    exact h hc

theorem cutWord_cons {c : Char} (h : c ≠ '\x00') (word : Text) :
    cutWord (c :: word) = c :: cutWord word :=
  List.takeWhile_cons_of_pos (decide_eq_true h)

/-- Words in order stay in order, since a NUL is less than any other character. -/
theorem cutWord_lt {a b : Text} (h : cutWord a < cutWord b) : a < b := by
  induction a generalizing b with
  | nil =>
    cases b with
    | nil => exact h
    | cons y b => exact List.nil_lt_cons y b
  | cons x a ih =>
    cases b with
    | nil => exact absurd h (List.not_lt_nil _)
    | cons y b =>
      have hy : y ≠ '\x00' := by
        rintro rfl
        exact absurd h (List.not_lt_nil _)
      rw [List.cons_lt_cons_iff]
      by_cases hx : x = '\x00'
      · subst hx
        exact .inl (Nat.pos_of_ne_zero fun hzero => hy (Char.toNat_inj.mp hzero))
      · rw [cutWord_cons hx, cutWord_cons hy, List.cons_lt_cons_iff] at h
        exact h.imp_right fun ⟨hxy, hab⟩ => ⟨hxy, ih hab⟩

/-- In the text, the cut word goes on to the next NUL. -/
theorem exists_cutWord_append (word after : Text) :
    ∃ rest, word ++ '\x00' :: after = cutWord word ++ '\x00' :: rest := by
  induction word with
  | nil => exact ⟨after, rfl⟩
  | cons c word ih =>
    by_cases hc : c = '\x00'
    · subst hc
      exact ⟨word ++ '\x00' :: after, rfl⟩
    · obtain ⟨rest, hrest⟩ := ih
      exact ⟨rest, by rw [cutWord_cons hc, List.cons_append, hrest, List.cons_append]⟩

def Entry.cut (entry : Entry) : Entry :=
  { entry with word := cutWord entry.word }

namespace Dictionary

def cut (dictionary : Dictionary) : Dictionary :=
  ⟨dictionary.text, (dictionary.toList.map Entry.cut).toArray⟩

@[simp] theorem text_cut (dictionary : Dictionary) : dictionary.cut.text = dictionary.text := rfl

@[simp] theorem toList_cut (dictionary : Dictionary) :
    dictionary.cut.toList = dictionary.toList.map Entry.cut := rfl

/-- Two dictionaries show the same. -/
structure Alike (d e : Dictionary) : Prop where
  readings : e.toList.map Entry.reading = d.toList.map Entry.reading
  size : e.size = d.size
  wordCount : e.wordCount = d.wordCount
  distinct : e.wordCount = (d.toList.map Entry.word).dedup.length
  lookup (word separator : Text) :
    (e.lookup word separator).map Entry.reading = (d.lookup word separator).map Entry.reading

variable {dictionary built : Dictionary} {lexicon : Text} {bytes : Bytes}

theorem toBytes_cut (dictionary : Dictionary) : dictionary.cut.toBytes = dictionary.toBytes := by
  have hsize : dictionary.cut.size = dictionary.size := by
    rw [size, cut, List.size_toArray, List.length_map]
    rfl
  have hrecords : dictionary.cut.toList.map Entry.record = dictionary.toList.map Entry.record := by
    rw [toList_cut, List.map_map]
    rfl
  have hpayload : dictionary.cut.payload = dictionary.payload := by
    rw [payload_eq, payload_eq, hrecords, text_cut]
  rw [toBytes, toBytes, header, header, hsize, hpayload, text_cut]

theorem cut_eq_self (h : ∀ entry ∈ dictionary.toList, '\x00' ∉ entry.word) :
    dictionary.cut = dictionary := by
  have hcut : ∀ entry ∈ dictionary.toList, entry.cut = id entry := by
    intro entry hentry
    rw [Entry.cut, cutWord_eq_self.mpr (h entry hentry), id]
  rw [cut, List.map_congr_left hcut, List.map_id]
  rfl

theorem stored_cut (h : ofLexicon lexicon = .ok built) : built.cut.Stored := by
  obtain ⟨htext, hentries, -⟩ := ofLexicon_eq_ok h
  refine ⟨?_, fun entry hmem => ?_, ?_⟩
  · rw [getLast?_encodeUtf8, encodeUtf8_eq_nil, text_cut, htext]
    exact wordsText_ends _
  · rw [toList_cut] at hmem
    obtain ⟨original, horiginal, rfl⟩ := List.mem_map.mp hmem
    obtain ⟨before, after, hwords, hoffset⟩ := mem_placeReadings (hentries ▸ horiginal)
    obtain ⟨rest, hrest⟩ := exists_cutWord_append original.word (wordsText after)
    refine ⟨wordsText before, rest, ?_, ?_, not_mem_cutWord _, wordsText_ends before⟩
    · rw [text_cut, htext, hwords, wordsText_append, List.append_assoc]
      refine congrArg (wordsText before ++ ·) (Eq.trans ?_ hrest)
      simp [wordsText]
    · rw [Nat.zero_add] at hoffset
      exact hoffset.symm
  · have hwords : (built.toList.map Entry.word).Pairwise fun a b => ¬b < a := by
      rw [map_word_of_ofLexicon h]
      exact List.pairwise_map.mpr (pairwise_lexiconReadings lexicon)
    rw [wordsAscend_iff, toList_cut]
    refine List.Pairwise.isChain (List.pairwise_map.mpr ?_)
    refine (List.pairwise_map.mp hwords).imp fun hab hcut => ?_
    exact hab (cutWord_lt (encodeUtf8_lt.mp hcut))

/-- The file of a dictionary that was built from a lexicon can be read. What is read shows the same
as what was built if and only if no word of the lexicon holds a NUL. -/
theorem reload_alike_iff (hbuild : ofLexicon lexicon = .ok built)
    (hwrite : built.toBytes = .ok bytes) :
    ∃ loaded, ofBytes bytes = .ok loaded ∧ (built.Alike loaded ↔
      ∀ reading ∈ lexiconReadings lexicon, '\x00' ∉ reading.word) := by
  have hread : ofBytes bytes = .ok built.cut :=
    (stored_cut hbuild).ofBytes (toBytes_cut built ▸ hwrite)
  have hreadings : built.toList.map Entry.reading = lexiconReadings lexicon := by
    rw [(ofLexicon_eq_ok hbuild).2.1, map_reading_placeReadings]
  refine ⟨built.cut, hread, fun halike reading hreading => ?_, fun hnul => ?_⟩
  · rw [← hreadings] at hreading
    have hsame := halike.readings
    rw [toList_cut, List.map_map] at hsame
    obtain ⟨entry, hentry, rfl⟩ := List.mem_map.mp hreading
    have hcut := List.map_inj_left.mp hsame entry hentry
    exact cutWord_eq_self.mp (congrArg Reading.word hcut)
  · have hwords : ∀ entry ∈ built.toList, '\x00' ∉ entry.word := fun entry hentry =>
      hnul entry.reading (hreadings ▸ List.mem_map_of_mem hentry)
    rw [cut_eq_self hwords]
    exact ⟨rfl, rfl, rfl, wordCount_of_ofLexicon hbuild hnul, fun _ _ => rfl⟩

theorem reload_alike_two :
    let lexicon := "a\tverb\nb\tnoun".toList
    let built : Dictionary := ⟨['a', '\x00', 'b', '\x00'],
      #[⟨0, ['a'], { pos := some .verb }⟩, ⟨2, ['b'], { pos := some .noun }⟩]⟩
    let bytes : Bytes := [0xC8, 0x90, 0x12, 0xFC, 4, 0, 0, 0, 16, 0, 0, 0, 0, 0, 0, 0,
      97, 0, 98, 0, 0, 0, 0, 0, 6, 0, 0, 0, 2, 0, 0, 0, 1, 0, 0, 0]
    ofLexicon lexicon = .ok built ∧ built.toBytes = .ok bytes ∧
      ∃ loaded, ofBytes bytes = .ok loaded ∧ built.Alike loaded := by
  intro lexicon built bytes
  have hlines : (lines (normalize lexicon)).filterMap Reading.ofLine? =
      [⟨['a'], { pos := some .verb }⟩, ⟨['b'], { pos := some .noun }⟩] := by decide +kernel
  have hreadings : lexiconReadings lexicon =
      [⟨['a'], { pos := some .verb }⟩, ⟨['b'], { pos := some .noun }⟩] := by
    rw [lexiconReadings, hlines, List.mergeSort_of_pairwise (by decide)]
    rfl
  have hbuild : ofLexicon lexicon = .ok built := by
    rw [ofLexicon, hreadings]
    rfl
  have hwrite : built.toBytes = .ok bytes := by decide +kernel
  have hnul : ∀ reading ∈ lexiconReadings lexicon, '\x00' ∉ reading.word := by
    rw [hreadings]
    decide
  obtain ⟨loaded, hread, halike⟩ := reload_alike_iff hbuild hwrite
  exact ⟨hbuild, hwrite, loaded, hread, halike.mpr hnul⟩

/-- The word of the lexicon is `a` NUL `b`, and the word that is read back is `a`. -/
theorem not_reload_alike : ¬∀ (lexicon : Text) (built : Dictionary) (bytes : Bytes),
    ofLexicon lexicon = .ok built → built.toBytes = .ok bytes →
      ∃ loaded, ofBytes bytes = .ok loaded ∧ built.Alike loaded := by
  intro h
  let built : Dictionary :=
    ⟨['a', '\x00', 'b', '\x00'], #[⟨0, ['a', '\x00', 'b'], { pos := some .noun }⟩]⟩
  have hbuild : ofLexicon "a\x00b\tnoun".toList = .ok built := by decide +kernel
  have hwrite : built.toBytes = .ok [0xC8, 0x90, 0x12, 0xFC, 4, 0, 0, 0, 8, 0, 0, 0, 0, 0, 0, 0,
      97, 0, 98, 0, 0, 0, 0, 0, 1, 0, 0, 0] := by decide +kernel
  have hread := (stored_cut hbuild).ofBytes (toBytes_cut built ▸ hwrite)
  obtain ⟨loaded, hloaded, halike⟩ := h _ _ _ hbuild hwrite
  cases hread.symm.trans hloaded
  exact absurd halike.readings (by decide)

end Dictionary

end Concord
