import Concord.Proofs.OwnText
import Mathlib.Data.Prod.Lex

namespace Concord

theorem Features.codes_injective {f g : Features} (h : f.codes = g.codes) : f = g := by
  obtain ⟨pos, number, gramCase⟩ := f
  obtain ⟨pos', number', gramCase'⟩ := g
  obtain ⟨hpos, hrest⟩ := Prod.mk.inj h
  obtain ⟨hnumber, hcase⟩ := Prod.mk.inj hrest
  have hpos := congrArg (Tagset.ofCode? (α := PartOfSpeech)) hpos
  have hnumber := congrArg (Tagset.ofCode? (α := Number)) hnumber
  have hcase := congrArg (Tagset.ofCode? (α := Case)) hcase
  rw [ofCode?_codeOf, ofCode?_codeOf] at hpos hnumber hcase
  dsimp only at hpos hnumber hcase
  rw [hpos, hnumber, hcase]

namespace Reading

/-- The order of the bytes of words, and for one word the order of part of speech, number and case.
The code of an absent value is zero, the others are in the order of their set. -/
def Precedes (a b : Reading) : Prop :=
  Prod.Lex (· < ·) (Prod.Lex (· < ·) (Prod.Lex (· < ·) (· < ·)))
    (encodeUtf8 a.word, a.features.codes) (encodeUtf8 b.word, b.features.codes)

/-- A line has a tab with a word before it, and the tags after it stand for the features. -/
def OnLine (reading : Reading) (line : Text) : Prop :=
  ∃ word tags, splitAtFirst '\t' line = some (word, tags) ∧ word ≠ [] ∧
    reading = ⟨normalize word, .ofLexiconTags tags⟩

theorem le_antisymm {a b : Reading} (hab : a.le b = true) (hba : b.le a = true) : a = b := by
  have hword : a.word = b.word := List.le_antisymm (word_not_lt hab) (word_not_lt hba)
  have hfeatures : a.features = b.features := by
    rcases le_iff.mp hab with hlt | ⟨-, hab⟩
    · exact absurd (hword ▸ hlt) (List.lt_irrefl _)
    rcases le_iff.mp hba with hlt | ⟨-, hba⟩
    · exact absurd (hword ▸ hlt) (List.lt_irrefl _)
    rw [isLE_compare_iff] at hab hba
    refine Features.codes_injective (Prod.ext (by omega) (Prod.ext (by omega) (by omega)))
  cases a
  cases b
  cases hword
  cases hfeatures
  rfl

/-- The order in which readings are sorted, without equality, is that of bytes and codes. -/
theorem precedes_of_le {a b : Reading} (hle : a.le b = true) (hne : a ≠ b) : a.Precedes b := by
  rw [Precedes, Prod.lex_def, Prod.lex_def, Prod.lex_def, encodeUtf8_lt, encodeUtf8_inj]
  rcases le_iff.mp hle with hlt | ⟨hword, hfeatures⟩
  · exact .inl hlt
  · refine .inr ⟨hword, ?_⟩
    have hcodes : ¬(a.features.codes = b.features.codes) := by
      intro heq
      have hfeatures := Features.codes_injective heq
      cases a
      cases b
      cases hword
      cases hfeatures
      exact hne rfl
    rw [isLE_compare_iff] at hfeatures
    rw [Prod.ext_iff, Prod.ext_iff] at hcodes
    dsimp only
    omega

end Reading

section lexicons

variable {lexicon lexicon' : Text}

/-- No reading of a lexicon stands twice. -/
theorem pairwise_ne_lexiconReadings (lexicon : Text) :
    (lexiconReadings lexicon).Pairwise fun a b => a.le b = true ∧ a ≠ b :=
  pairwise_dropRepeats (fun _ _ => Reading.le_antisymm)
    (List.pairwise_mergeSort Reading.le_trans Reading.le_total _)

/-- Lexicons with the same readings on their lines have the same list of readings. -/
theorem lexiconReadings_congr
    (h : ∀ reading, reading ∈ lexiconReadings lexicon ↔ reading ∈ lexiconReadings lexicon') :
    lexiconReadings lexicon = lexiconReadings lexicon' := by
  have hpairwise := pairwise_ne_lexiconReadings lexicon
  have hpairwise' := pairwise_ne_lexiconReadings lexicon'
  have hperm : (lexiconReadings lexicon).Perm (lexiconReadings lexicon') :=
    (List.perm_ext_iff_of_nodup (hpairwise.imp And.right) (hpairwise'.imp And.right)).mpr h
  exact hperm.eq_of_pairwise (fun _ _ _ _ hab hba => Reading.le_antisymm hab.1 hba.1)
    hpairwise hpairwise'

/-- Lines with a line feed between each and the next. -/
def joinLines (texts : List Text) : Text :=
  ['\n'].intercalate texts

/-- The text is a line as it stands. -/
def Unbroken (text : Text) : Prop :=
  '\n' ∉ text ∧ '\r' ∉ text

instance (text : Text) : Decidable (Unbroken text) :=
  inferInstanceAs (Decidable (_ ∧ _))

theorem splitAll_joinLines {texts : List Text} (hne : texts ≠ [])
    (h : ∀ text ∈ texts, Unbroken text) : splitAll (· = '\n') (joinLines texts) = texts := by
  have hpiece : ∀ text : Text, Unbroken text → splitAll (· = '\n') text = [text] := by
    intro text htext
    refine splitAll_of_not_mem fun c hc => ?_
    rw [decide_eq_false_iff_not]
    rintro rfl
    exact htext.1 hc
  induction texts with
  | nil => exact absurd rfl hne
  | cons text texts ih =>
    obtain ⟨htext, htexts⟩ := List.forall_mem_cons.mp h
    cases texts with
    | nil => rw [joinLines, List.intercalate_singleton, hpiece text htext]
    | cons next texts =>
      have hrest := ih (List.cons_ne_nil _ _) htexts
      rw [joinLines, List.intercalate_cons_cons, List.append_assoc, List.singleton_append,
        splitAll_append_cons (by decide), hpiece text htext]
      rw [joinLines] at hrest
      rw [hrest]
      rfl

/-- The lines of joined lines are those, but for an empty one at the end. -/
theorem mem_lines_joinLines {texts : List Text} (h : ∀ text ∈ texts, Unbroken text) {line : Text}
    (hline : line ≠ []) : line ∈ lines (joinLines texts) ↔ line ∈ texts := by
  rcases List.eq_nil_or_concat texts with rfl | ⟨front, last, rfl⟩
  · simp [joinLines, lines, linesWith, splitAll]
  · rw [List.concat_eq_append] at h ⊢
    have hfront : front.map (dropFinal '\r') = front.map id := by
      refine List.map_congr_left fun text htext => ?_
      have hreturn : text.getLast? ≠ some '\r' := fun hlast =>
        (h text (List.mem_append_left _ htext)).2 (List.mem_of_getLast? hlast)
      rw [dropFinal, if_neg hreturn, id]
    rw [lines, linesWith, splitAll_joinLines (by simp) h]
    simp only [List.dropLast_concat, List.getLast?_concat, hfront, List.map_id, List.mem_append,
      Option.mem_toList, Option.filter_eq_some_iff, Option.some.injEq,
      List.mem_singleton]
    constructor
    · rintro (hfront | ⟨rfl, -⟩)
      · exact .inl hfront
      · exact .inr rfl
    · rintro (hfront | rfl)
      · exact .inl hfront
      · exact .inr ⟨rfl, by simpa using hline⟩

/-- The readings of joined lines depend on which lines there are, not on their order or number. -/
theorem lexiconReadings_joinLines {texts texts' : List Text}
    (h : ∀ text ∈ texts, Unbroken text) (h' : ∀ text ∈ texts', Unbroken text)
    (hsame : ∀ text, text ∈ texts ↔ text ∈ texts') :
    lexiconReadings (joinLines texts) = lexiconReadings (joinLines texts') := by
  refine lexiconReadings_congr fun reading => ?_
  rw [mem_lexiconReadings, mem_lexiconReadings]
  refine exists_congr fun line => and_congr_left fun ⟨word, tags, hsplit, _⟩ => ?_
  have hline : line ≠ [] := by
    rintro rfl
    cases hsplit
  rw [mem_lines_joinLines h hline, mem_lines_joinLines h' hline, hsame]

end lexicons

namespace Dictionary

/-- The dictionary holds the readings on the lines of a lexicon, each once and in order. The text
holds each word once, in order, and the readings of a word share the place where it stands. -/
structure Collects (dictionary : Dictionary) (lexicon : Text) : Prop where
  ascending : (dictionary.toList.map Entry.reading).Pairwise Reading.Precedes
  exact (reading : Reading) : reading ∈ dictionary.toList.map Entry.reading ↔
    ∃ line ∈ lines lexicon, reading.OnLine line
  words : ∃ words : List Text,
    words.Pairwise (encodeUtf8 · < encodeUtf8 ·) ∧
    (∀ word, word ∈ words ↔ ∃ entry ∈ dictionary.toList, entry.word = word) ∧
    dictionary.text = wordsText words ∧
    ∀ entry ∈ dictionary.toList, ∃ before after, words = before ++ entry.word :: after ∧
      entry.offset = utf8Length (wordsText before)
  shared : ∀ a ∈ dictionary.toList, ∀ b ∈ dictionary.toList,
    a.word = b.word → a.offset = b.offset

theorem collects_of_ofLexicon {lexicon : Text} {dictionary : Dictionary}
    (h : ofLexicon lexicon = .ok dictionary) : dictionary.Collects lexicon := by
  obtain ⟨htext, hentries, -⟩ := ofLexicon_eq_ok h
  have hreadings := map_reading_of_ofLexicon h
  let words := dropRepeats ((lexiconReadings lexicon).map Reading.word)
  have hsorted : ((lexiconReadings lexicon).map Reading.word).Pairwise fun a b => ¬b < a :=
    List.pairwise_map.mpr (pairwise_lexiconReadings lexicon)
  have hwords : words.Pairwise fun a b => ¬b < a ∧ a ≠ b :=
    pairwise_dropRepeats (fun _ _ hab hba => List.le_antisymm hab hba) hsorted
  have hnodup : words.Nodup := hwords.imp And.right
  have hplaced : ∀ entry ∈ dictionary.toList, ∃ before after,
      words = before ++ entry.word :: after ∧
        entry.offset = utf8Length (wordsText before) := fun entry hentry => by
    obtain ⟨before, after, hsplit, hoffset⟩ := mem_placeReadings (hentries ▸ hentry)
    exact ⟨before, after, hsplit, hoffset.trans (Nat.zero_add _)⟩
  refine ⟨?_, fun reading => ?_, ⟨words, ?_, fun word => ?_, htext, hplaced⟩, ?_⟩
  · rw [hreadings]
    exact (pairwise_ne_lexiconReadings lexicon).imp fun ⟨hle, hne⟩ =>
      Reading.precedes_of_le hle hne
  · rw [hreadings]
    exact mem_lexiconReadings
  · refine hwords.imp fun ⟨hle, hne⟩ => encodeUtf8_lt.mpr ?_
    exact (List.le_iff_lt_or_eq.mp (List.not_lt.mp hle)).resolve_right hne
  · rw [mem_dropRepeats, ← map_word_of_ofLexicon h, List.mem_map]
  · intro a ha b hb hword
    obtain ⟨before, after, hsplit, hoffset⟩ := hplaced a ha
    obtain ⟨before', after', hsplit', hoffset'⟩ := hplaced b hb
    rw [hword] at hsplit
    rw [hsplit] at hsplit' hnodup
    -- The word stands once, so that nothing else can come before it.
    have honce := (List.nodup_append.mp hnodup).2.2
    have hbefore : b.word ∉ before := fun hmem => honce _ hmem _ List.mem_cons_self rfl
    have hafter : b.word ∉ after :=
      (List.nodup_cons.mp (List.nodup_append.mp hnodup).2.1).1
    obtain ⟨heq, -, -⟩ := (List.append_cons_inj_of_notMem hbefore hafter).mp hsplit'
    rw [hoffset, hoffset', heq]

/-- The dictionary of a lexicon is the set of the readings on its lines: to put the lines in another
order or to repeat some of them leaves the dictionary and its file as they are. -/
theorem ofLexicon_collects :
    (∀ lexicon dictionary, ofLexicon lexicon = .ok dictionary → dictionary.Collects lexicon) ∧
    ∀ texts texts' : List Text, (∀ text ∈ texts, Unbroken text) →
      (∀ text, text ∈ texts ↔ text ∈ texts') →
      ofLexicon (joinLines texts) = ofLexicon (joinLines texts') ∧
        (ofLexicon (joinLines texts) >>= toBytes) =
          (ofLexicon (joinLines texts') >>= toBytes) := by
  refine ⟨fun _ _ => collects_of_ofLexicon, fun texts texts' h hsame => ?_⟩
  have hreadings := lexiconReadings_joinLines h (fun text htext => h text ((hsame text).mpr htext))
    hsame
  have hdictionary : ofLexicon (joinLines texts) = ofLexicon (joinLines texts') := by
    rw [ofLexicon, ofLexicon, hreadings]
  exact ⟨hdictionary, by rw [hdictionary]⟩

/-- Two of the lines say the same in another case, and a line stands between them whose word comes
first. -/
theorem ofLexicon_collects_unsorted :
    let texts := ["b\tNOUN".toList, "a\tverb".toList, "b\tnoun".toList]
    let texts' := ["a\tverb".toList, "b\tnoun".toList, "b\tNOUN".toList]
    let built : Dictionary := ⟨['a', '\x00', 'b', '\x00'],
      #[⟨0, ['a'], { pos := some .verb }⟩, ⟨2, ['b'], { pos := some .noun }⟩]⟩
    (∀ text ∈ texts, Unbroken text) ∧ (∀ text, text ∈ texts ↔ text ∈ texts') ∧
      ofLexicon (joinLines texts) = .ok built ∧ built.Collects (joinLines texts) := by
  intro texts texts' built
  have hunbroken : ∀ text ∈ texts, Unbroken text := by decide +kernel
  have hsame : ∀ text, text ∈ texts ↔ text ∈ texts' :=
    fun text => ⟨fun h => (by decide +kernel : texts ⊆ texts') h,
      fun h => (by decide +kernel : texts' ⊆ texts) h⟩
  have hlines : (lines (normalize (joinLines texts'))).filterMap Reading.ofLine? =
      [⟨['a'], { pos := some .verb }⟩, ⟨['b'], { pos := some .noun }⟩,
        ⟨['b'], { pos := some .noun }⟩] := by decide +kernel
  have hbuilt : ofLexicon (joinLines texts') = .ok built := by
    rw [ofLexicon, lexiconReadings, hlines, List.mergeSort_of_pairwise (by decide)]
    rfl
  obtain ⟨hcollects, hjoined⟩ := ofLexicon_collects
  have hok : ofLexicon (joinLines texts) = .ok built :=
    (hjoined texts texts' hunbroken hsame).1.trans hbuilt
  exact ⟨hunbroken, hsame, hok, hcollects _ _ hok⟩

end Dictionary

end Concord
