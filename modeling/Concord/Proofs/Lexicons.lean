import Concord.Proofs.Words
import Mathlib.Data.List.Dedup
import Mathlib.Data.List.Perm.Basic

namespace Concord

theorem isLE_compare_iff {f g : Features} : (f.compare g).isLE = true ↔
    f.codes.1 < g.codes.1 ∨ f.codes.1 = g.codes.1 ∧ (f.codes.2.1 < g.codes.2.1 ∨
      f.codes.2.1 = g.codes.2.1 ∧ f.codes.2.2 ≤ g.codes.2.2) := by
  rw [Features.compare, Ordering.isLE_then_iff_or, Ordering.isLE_then_iff_or, Nat.isLE_compare,
    Nat.compare_eq_lt, Nat.compare_eq_lt, Nat.compare_eq_eq, Nat.compare_eq_eq]

namespace Reading

theorem le_iff {a b : Reading} : a.le b = true ↔
    a.word < b.word ∨ a.word = b.word ∧ (a.features.compare b.features).isLE = true := by
  rw [le, Bool.or_eq_true, Bool.and_eq_true, decide_eq_true_eq, decide_eq_true_eq]

theorem le_trans (a b c : Reading) (hab : a.le b = true) (hbc : b.le c = true) :
    a.le c = true := by
  rw [le_iff] at *
  rcases hab with hab | ⟨hab, hfab⟩
  · rcases hbc with hbc | ⟨hbc, -⟩
    · exact .inl (List.lt_trans hab hbc)
    · exact .inl (hbc ▸ hab)
  · rcases hbc with hbc | ⟨hbc, hfbc⟩
    · exact .inl (hab ▸ hbc)
    · refine .inr ⟨hab.trans hbc, ?_⟩
      rw [isLE_compare_iff] at *
      omega

theorem le_total (a b : Reading) : (a.le b || b.le a) = true := by
  rw [Bool.or_eq_true, le_iff, le_iff]
  by_cases hab : a.word < b.word
  · exact .inl (.inl hab)
  · by_cases hba : b.word < a.word
    · exact .inr (.inl hba)
    · have heq : a.word = b.word := List.le_antisymm hba hab
      by_cases hf : (a.features.compare b.features).isLE = true
      · exact .inl (.inr ⟨heq, hf⟩)
      · refine .inr (.inr ⟨heq.symm, ?_⟩)
        rw [isLE_compare_iff] at *
        omega

theorem word_not_lt {a b : Reading} (h : a.le b = true) : ¬b.word < a.word := by
  rcases le_iff.mp h with hlt | ⟨heq, -⟩
  · exact List.lt_asymm hlt
  · exact heq ▸ List.lt_irrefl _

end Reading

section repeats

variable {α : Type _} [DecidableEq α]

theorem dropRepeats_sublist (xs : List α) : (dropRepeats xs).Sublist xs := by
  fun_induction dropRepeats xs with
  | case1 a rest ih => exact ih.cons _
  | case2 a b rest hab ih => exact ih.cons_cons _
  | case3 xs => exact .refl _

theorem dropRepeats_cons (a : α) (xs : List α) : ∃ rest, dropRepeats (a :: xs) = a :: rest := by
  induction xs with
  | nil => exact ⟨[], rfl⟩
  | cons b xs ih =>
    rw [dropRepeats]
    by_cases hab : a = b
    · rw [if_pos hab, ← hab]
      exact ih
    · rw [if_neg hab]
      exact ⟨_, rfl⟩

end repeats

/-- The words of a lexicon are in order. -/
theorem pairwise_lexiconReadings (lexicon : Text) :
    (lexiconReadings lexicon).Pairwise fun a b => ¬b.word < a.word := by
  have hsorted := List.pairwise_mergeSort Reading.le_trans Reading.le_total
    ((lines (normalize lexicon)).filterMap Reading.ofLine?)
  exact (hsorted.imp Reading.word_not_lt).sublist (dropRepeats_sublist _)

/-- What an entry says, without its offset. -/
def Entry.reading (entry : Entry) : Reading :=
  ⟨entry.word, entry.features⟩

theorem map_reading_placeReadings (offset : Nat) (readings : List Reading) :
    (placeReadings offset readings).map Entry.reading = readings := by
  fun_induction placeReadings offset readings with
  | case1 offset => rfl
  | case2 offset r => rfl
  | case3 offset r s rest next ih => rw [List.map_cons, ih]; rfl

/-- Each entry stands in the text of the words. -/
theorem mem_placeReadings {start : Nat} {readings : List Reading} {entry : Entry}
    (h : entry ∈ placeReadings start readings) :
    ∃ before after, dropRepeats (readings.map Reading.word) = before ++ entry.word :: after ∧
      entry.offset = start + utf8Length (wordsText before) := by
  fun_induction placeReadings start readings with
  | case1 => cases h
  | case2 start r =>
    rw [List.mem_singleton] at h
    subst h
    exact ⟨[], [], rfl, rfl⟩
  | case3 start r s rest next ih =>
    rcases List.mem_cons.mp h with rfl | h
    · obtain ⟨after, hafter⟩ := dropRepeats_cons r.word ((s :: rest).map Reading.word)
      exact ⟨[], after, hafter, rfl⟩
    · obtain ⟨before, after, hwords, hoffset⟩ := ih h
      rw [List.map_cons, List.map_cons, dropRepeats]
      by_cases hsame : s.word = r.word
      · have hnext : next = start := if_pos hsame
        rw [if_pos hsame.symm]
        exact ⟨before, after, hwords, hnext ▸ hoffset⟩
      · have hnext : next = start + utf8Length r.word + 1 := if_neg hsame
        rw [if_neg (Ne.symm hsame)]
        refine ⟨r.word :: before, after, congrArg (r.word :: ·) hwords, ?_⟩
        have hone : Char.utf8Size '\x00' = 1 := rfl
        rw [hoffset, hnext]
        simp only [wordsText, List.flatMap_cons, utf8Length_append, utf8Length]
        omega

theorem count_wordsText {words : List Text} (h : ∀ word ∈ words, '\x00' ∉ word) :
    (wordsText words).count '\x00' = words.length := by
  induction words with
  | nil => rfl
  | cons word words ih =>
    obtain ⟨hword, hwords⟩ := List.forall_mem_cons.mp h
    have hrest := ih hwords
    rw [wordsText] at *
    rw [List.flatMap_cons, List.count_append, List.count_append, List.count_eq_zero.mpr hword,
      hrest, List.length_cons]
    simp [Nat.add_comm]

namespace Dictionary

variable {lexicon : Text} {built : Dictionary}

theorem ofLexicon_eq_ok (h : ofLexicon lexicon = .ok built) :
    built.text = wordsText (dropRepeats ((lexiconReadings lexicon).map Reading.word)) ∧
      built.toList = placeReadings 0 (lexiconReadings lexicon) ∧
      ∀ entry ∈ built.toList, entry.fits = true := by
  rw [ofLexicon] at h
  split at h
  next hfits =>
    cases h
    exact ⟨rfl, rfl, List.all_eq_true.mp hfits⟩
  next => cases h

theorem map_reading_of_ofLexicon (h : ofLexicon lexicon = .ok built) :
    built.toList.map Entry.reading = lexiconReadings lexicon := by
  rw [(ofLexicon_eq_ok h).2.1, map_reading_placeReadings]

theorem map_word_of_ofLexicon (h : ofLexicon lexicon = .ok built) :
    built.toList.map Entry.word = (lexiconReadings lexicon).map Reading.word := by
  rw [← map_reading_of_ofLexicon h, List.map_map]
  rfl

/-- If no word holds a NUL, the text holds as many NULs as there are different words. -/
theorem wordCount_of_ofLexicon (h : ofLexicon lexicon = .ok built)
    (hnul : ∀ reading ∈ lexiconReadings lexicon, '\x00' ∉ reading.word) :
    built.wordCount = (built.toList.map Entry.word).dedup.length := by
  let words := (lexiconReadings lexicon).map Reading.word
  have hsorted : words.Pairwise fun a b => ¬b < a :=
    List.pairwise_map.mpr (pairwise_lexiconReadings lexicon)
  have hdistinct : (dropRepeats words).Nodup :=
    (pairwise_dropRepeats (fun _ _ hab hba => List.le_antisymm hab hba) hsorted).imp And.right
  have hperm : (dropRepeats words).Perm words.dedup := by
    refine (List.perm_ext_iff_of_nodup hdistinct (List.nodup_dedup _)).mpr fun word => ?_
    rw [mem_dropRepeats, List.mem_dedup]
  have hwords : ∀ word ∈ dropRepeats words, '\x00' ∉ word := fun word hword => by
    obtain ⟨reading, hreading, rfl⟩ := List.mem_map.mp (mem_dropRepeats.mp hword)
    exact hnul reading hreading
  rw [map_word_of_ofLexicon h, wordCount, (ofLexicon_eq_ok h).1, count_wordsText hwords,
    hperm.length_eq]

end Dictionary

end Concord
