import Concord.Proofs.Lexicons
import Concord.Proofs.Stored

namespace Concord

section lists

variable {α : Type _} {p below : α → Bool} {xs : List α}

theorem filter_dropWhile (h : ∀ x ∈ xs, below x = true → p x = false) :
    (xs.dropWhile below).filter p = xs.filter p := by
  induction xs with
  | nil => rfl
  | cons x xs ih =>
    obtain ⟨hx, hxs⟩ := List.forall_mem_cons.mp h
    by_cases hb : below x = true
    · rw [List.dropWhile_cons_of_pos hb, ih hxs, List.filter_cons_of_neg (by simp [hx hb])]
    · rw [List.dropWhile_cons_of_neg hb]

theorem takeWhile_eq_filter (h : xs.Pairwise fun x y => p y = true → p x = true) :
    xs.takeWhile p = xs.filter p := by
  induction xs with
  | nil => rfl
  | cons x xs ih =>
    obtain ⟨hx, hxs⟩ := List.pairwise_cons.mp h
    by_cases hp : p x = true
    · rw [List.takeWhile_cons_of_pos hp, List.filter_cons_of_pos hp, ih hxs]
    · have hnone : xs.filter p = [] :=
        List.filter_eq_nil_iff.mpr fun y hy hpy => hp (hx y hy hpy)
      rw [List.takeWhile_cons_of_neg hp, List.filter_cons_of_neg hp, hnone]

/-- A stretch that begins where a downward closed property ends holds all that can be met. -/
theorem takeWhile_dropWhile_eq_filter
    (hbelow : xs.Pairwise fun x y => below y = true → below x = true)
    (hp : ∀ x ∈ xs, below x = true → p x = false)
    (hstretch : xs.Pairwise fun x y => below x = false → p y = true → p x = true) :
    (xs.dropWhile below).takeWhile p = xs.filter p := by
  rw [← filter_dropWhile hp]
  refine takeWhile_eq_filter ?_
  induction xs with
  | nil => exact .nil
  | cons x xs ih =>
    obtain ⟨hx, hxs⟩ := List.pairwise_cons.mp hbelow
    by_cases hb : below x = true
    · rw [List.dropWhile_cons_of_pos hb]
      exact ih hxs (List.forall_mem_cons.mp hp).2 (List.pairwise_cons.mp hstretch).2
    · rw [List.dropWhile_cons_of_neg hb]
      have hall : ∀ y ∈ x :: xs, below y = false :=
        List.forall_mem_cons.mpr ⟨by simpa using hb, fun y hy => by simpa using mt (hx y hy) hb⟩
      exact hstretch.imp_of_mem fun hy _ h => h (hall _ hy)

/-- Binary search splits a list by a property that ceases to hold once. -/
theorem splits_bisect (hbelow : xs.Pairwise fun x y => below y = true → below x = true)
    {start : Nat} (hs : start ≤ xs.length) :
    Splits (fun i => xs[i]?.any below) start xs.length
      (bisect (fun i => xs[i]?.any below) start xs.length) := by
  refine bisect_splits (fun i j hij hj hup => ?_) hs
  rcases Nat.eq_or_lt_of_le hij with rfl | hlt
  · exact hup
  · have hi := Nat.lt_trans hlt hj
    rw [List.getElem?_eq_getElem hj, Option.any_some] at hup
    rw [List.getElem?_eq_getElem hi, Option.any_some]
    exact List.pairwise_iff_getElem.mp hbelow i j hi hj hlt hup

/-- What splits a list by a property of its elements is where the property ceases to hold. -/
theorem drop_of_splits {start stop : Nat}
    (h : Splits (fun i => xs[i]?.any below) start xs.length stop) :
    xs.drop stop = (xs.drop start).dropWhile below := by
  obtain ⟨hstart, hstop, hbefore, hfrom⟩ := h
  have hcut : xs.drop start = (xs.drop start).take (stop - start) ++ xs.drop stop := by
    conv => lhs; rw [← List.take_append_drop (stop - start) (xs.drop start)]
    rw [List.drop_drop, Nat.add_sub_cancel' hstart]
  have hless : ∀ x ∈ (xs.drop start).take (stop - start), below x = true := by
    intro x hx
    obtain ⟨i, hi, rfl⟩ := List.mem_iff_getElem.mp hx
    rw [List.length_take, List.length_drop] at hi
    have hlt : start + i < xs.length := by omega
    simpa [hlt] using hbefore (start + i) (by omega) (by omega)
  rw [hcut, List.dropWhile_append_of_pos hless]
  by_cases hend : stop < xs.length
  · have hnot : below xs[stop] = false := by simpa [hend] using hfrom stop (Nat.le_refl _) hend
    rw [List.drop_eq_getElem_cons hend, List.dropWhile_cons_of_neg (by simp [hnot])]
  · rw [List.drop_eq_nil_of_le (Nat.not_lt.mp hend), List.dropWhile_nil]

theorem filter_append_perm {q : α → Bool} (h : ∀ x ∈ xs, p x = true → q x = false) :
    (xs.filter p ++ xs.filter q).Perm (xs.filter fun x => p x || q x) := by
  induction xs with
  | nil => exact .nil
  | cons x xs ih =>
    obtain ⟨hx, hxs⟩ := List.forall_mem_cons.mp h
    cases hp : p x with
    | true => simpa [hp, hx hp] using ih hxs
    | false =>
      cases hq : q x with
      | true => simpa [hp, hq] using List.perm_middle.trans ((ih hxs).cons x)
      | false => simpa [hp, hq] using ih hxs

end lists

section texts

variable {opening a b : Text}

theorem not_lt_of_isPrefix (h : opening <+: a) : ¬a < opening := by
  obtain ⟨rest, rfl⟩ := h
  induction opening with
  | nil => exact List.not_lt_nil _
  | cons c opening ih =>
    rw [List.cons_append, List.cons_lt_cons_iff]
    rintro (hlt | ⟨-, hlt⟩)
    · exact Char.lt_irrefl c hlt
    · exact ih hlt

/-- Nothing stands between a text and one that begins with it but what begins with it. -/
theorem isPrefix_of_between (hle : ¬a < opening) (hab : ¬b < a) (hb : opening <+: b) :
    opening <+: a := by
  obtain ⟨rest, rfl⟩ := hb
  induction opening generalizing a with
  | nil => exact List.nil_prefix
  | cons c opening ih =>
    cases a with
    | nil => exact absurd (List.nil_lt_cons c opening) hle
    | cons d a =>
      rw [List.cons_append] at hab
      rw [List.cons_lt_cons_iff] at hle hab
      have hcd : c = d := by
        refine Char.le_antisymm (Char.not_lt.mp fun hlt => hle (.inl hlt)) ?_
        exact Char.not_lt.mp fun hlt => hab (.inl hlt)
      subst hcd
      rw [List.prefix_cons_inj]
      exact ih (fun hlt => hle (.inr ⟨rfl, hlt⟩)) fun hlt => hab (.inr ⟨rfl, hlt⟩)

/-- A word does not begin with itself and a separator. -/
theorem not_append_isPrefix {word separator : Text} (hsep : separator ≠ []) :
    ¬word ++ separator <+: word := by
  intro h
  have hlength := h.length_le
  have hpos := List.length_pos_of_ne_nil hsep
  rw [List.length_append] at hlength
  omega

end texts

theorem takeEntries_eq (entries : Array Entry) (p : Entry → Bool) {count i : Nat}
    (h : entries.size ≤ i + count) :
    takeEntries entries p count i = (entries.toList.drop i).takeWhile p := by
  induction count generalizing i with
  | zero =>
    rw [List.drop_eq_nil_of_le (by simpa using h)]
    rfl
  | succ count ih =>
    rw [takeEntries]
    split
    next entry hentry =>
      obtain ⟨hi, rfl⟩ := Array.getElem?_eq_some_iff.mp hentry
      rw [List.drop_eq_getElem_cons (by simpa using hi), ih (by omega)]
      simp only [Array.getElem_toList, List.takeWhile_cons]
    next hnone =>
      rw [List.drop_eq_nil_of_le (by simpa using hnone)]
      rfl

namespace Dictionary

/-- The words are in order. -/
def Ascends (dictionary : Dictionary) : Prop :=
  dictionary.toList.Pairwise fun a b => ¬b.word < a.word

variable {dictionary : Dictionary}

theorem ascends_of_ofLexicon {lexicon : Text} (h : ofLexicon lexicon = .ok dictionary) :
    dictionary.Ascends := by
  have hwords : (dictionary.toList.map Entry.word).Pairwise fun a b => ¬b < a := by
    rw [map_word_of_ofLexicon h]
    exact List.pairwise_map.mpr (pairwise_lexiconReadings lexicon)
  exact List.pairwise_map.mp hwords

theorem ascends_of_ofBytes {bytes : Bytes} (h : ofBytes bytes = .ok dictionary) :
    dictionary.Ascends := by
  have hchain := wordsAscend_iff.mp (stored_of_ofBytes h).ascend
  let _ : Trans (fun a b : Entry => ¬b.word < a.word) (fun a b : Entry => ¬b.word < a.word)
      (fun a b : Entry => ¬b.word < a.word) :=
    ⟨fun hab hbc => List.not_lt.mpr (List.le_trans (List.not_lt.mp hab) (List.not_lt.mp hbc))⟩
  refine List.isChain_iff_pairwise.mp (hchain.imp fun a b hab hlt => ?_)
  exact hab (encodeUtf8_lt.mpr hlt)

theorem run_eq (dictionary : Dictionary) (p : Entry → Bool) (start : Nat) :
    dictionary.run p start = (dictionary.toList.drop start).takeWhile p :=
  takeEntries_eq _ _ (by rw [size]; omega)

theorem Ascends.below (h : dictionary.Ascends) (text : Text) :
    dictionary.toList.Pairwise fun a b =>
      decide (b.word < text) = true → decide (a.word < text) = true :=
  h.imp fun hab hb => by
    rw [decide_eq_true_eq] at *
    exact List.lt_of_le_of_lt (List.not_lt.mp hab) hb

theorem Ascends.splits_position (h : dictionary.Ascends) {start : Nat}
    (hs : start ≤ dictionary.size) (text : Text) :
    Splits (fun i => dictionary.toList[i]?.any (·.word < text)) start dictionary.toList.length
      (dictionary.position start text) := by
  have hget : (fun i : Nat => dictionary.toList[i]?.any fun e => e.word < text) =
      fun i => dictionary.entries[i]?.any fun e => e.word < text := by
    funext i
    rw [toList, Array.getElem?_toList]
  rw [position, ← hget]
  exact splits_bisect (h.below text) hs

/-- The search goes past the words that are less. -/
theorem Ascends.drop_position (h : dictionary.Ascends) {start : Nat} (hs : start ≤ dictionary.size)
    (text : Text) :
    dictionary.toList.drop (dictionary.position start text) =
      (dictionary.toList.drop start).dropWhile (·.word < text) :=
  drop_of_splits (h.splits_position hs text)

/-- The readings of a word are all entries with this word. -/
theorem Ascends.readings_eq (h : dictionary.Ascends) (word : Text) :
    dictionary.readings word = dictionary.toList.filter (·.word = word) := by
  rw [readings, run_eq, h.drop_position (Nat.zero_le _), List.drop_zero]
  refine takeWhile_dropWhile_eq_filter (h.below word) (fun e _ hlt => ?_) (h.imp ?_)
  · rw [decide_eq_true_eq] at hlt
    rw [decide_eq_false_iff_not]
    rintro rfl
    exact List.lt_irrefl _ hlt
  · intro a b hab hle hb
    rw [decide_eq_false_iff_not] at hle
    rw [decide_eq_true_eq] at *
    exact List.le_antisymm (hb ▸ List.not_lt.mp hab) (List.not_lt.mp hle)

/-- The search for phrases goes on after the readings of the word. -/
theorem Ascends.drop_readings (h : dictionary.Ascends) (word : Text) :
    dictionary.position 0 word + (dictionary.readings word).length ≤ dictionary.size ∧
      dictionary.toList.drop (dictionary.position 0 word + (dictionary.readings word).length) =
        (dictionary.toList.dropWhile (·.word < word)).dropWhile (·.word = word) := by
  obtain ⟨-, hle, -, -⟩ := h.splits_position (Nat.zero_le _) word
  have hdrop := h.drop_position (Nat.zero_le _) word
  rw [List.drop_zero] at hdrop
  have hcut := List.takeWhile_append_dropWhile (p := (·.word = word))
    (l := dictionary.toList.dropWhile (·.word < word))
  rw [readings, run_eq, ← List.drop_drop, hdrop]
  constructor
  · have hlength := congrArg List.length hcut
    rw [← hdrop, List.length_append, List.length_drop] at hlength
    rw [← hdrop]
    change _ ≤ dictionary.toList.length
    omega
  · conv => lhs; arg 2; rw [← hcut]
    rw [List.drop_left]

/-- The readings of the phrases are all entries that begin with the word and the separator. -/
theorem Ascends.phrases_eq (h : dictionary.Ascends) (word : Text) {separator : Text}
    (hsep : separator ≠ []) : dictionary.phrases word separator =
      dictionary.toList.filter (word ++ separator <+: ·.word) := by
  obtain ⟨hle, hrest⟩ := h.drop_readings word
  have hopening : (fun e : Entry => (word ++ separator).isPrefixOf e.word) =
      fun e => decide (word ++ separator <+: e.word) := by
    funext e
    rw [Bool.eq_iff_iff, List.isPrefixOf_iff_prefix, decide_eq_true_eq]
  have hless : ∀ e ∈ dictionary.toList, decide (e.word < word) = true →
      decide (word ++ separator <+: e.word) = false := by
    intro e _ hlt
    rw [decide_eq_false_iff_not]
    intro he
    exact not_lt_of_isPrefix ((List.prefix_append word separator).trans he) (of_decide_eq_true hlt)
  have hword : ∀ e ∈ dictionary.toList.dropWhile (·.word < word), decide (e.word = word) = true →
      decide (word ++ separator <+: e.word) = false := by
    intro e _ heq
    rw [decide_eq_false_iff_not, of_decide_eq_true heq]
    exact not_append_isPrefix hsep
  rw [phrases, if_neg (by simpa using hsep)]
  dsimp only
  rw [hopening, run_eq, h.drop_position hle, takeWhile_dropWhile_eq_filter, hrest,
    filter_dropWhile hword, filter_dropWhile hless]
  · exact (h.below _).sublist (List.drop_sublist _ _)
  · intro e _ hlt
    rw [decide_eq_false_iff_not]
    exact fun he => not_lt_of_isPrefix he (of_decide_eq_true hlt)
  · refine (h.sublist (List.drop_sublist _ _)).imp fun hab hle hb => ?_
    rw [decide_eq_true_eq] at *
    exact isPrefix_of_between (of_decide_eq_false hle) hab hb

/-- Looking up finds all readings of the word in the order of the dictionary, then all readings of
the phrases that begin with the word and the separator; no entry is found twice. -/
theorem lookup_eq_filter {dictionary : Dictionary}
    (h : (∃ lexicon, ofLexicon lexicon = .ok dictionary) ∨
      ∃ bytes, ofBytes bytes = .ok dictionary) (word separator : Text) :
    dictionary.lookup word [] = dictionary.toList.filter (·.word = word) ∧
      dictionary.lookup word separator = dictionary.toList.filter (·.word = word) ++
        (if separator = [] then [] else dictionary.toList.filter (word ++ separator <+: ·.word)) ∧
      (dictionary.lookup word separator).Perm (dictionary.toList.filter fun e =>
        e.word = word ∨ separator ≠ [] ∧ word ++ separator <+: e.word) := by
  have hascends : dictionary.Ascends := by
    rcases h with ⟨lexicon, h⟩ | ⟨bytes, h⟩
    · exact ascends_of_ofLexicon h
    · exact ascends_of_ofBytes h
  have hword : dictionary.lookup word [] = dictionary.toList.filter (·.word = word) := by
    rw [lookup, hascends.readings_eq, phrases, if_pos (by rfl), List.append_nil]
  by_cases hsep : separator = []
  · subst hsep
    simp [hword]
  · have hall : dictionary.lookup word separator = dictionary.toList.filter (·.word = word) ++
        dictionary.toList.filter (word ++ separator <+: ·.word) := by
      rw [lookup, hascends.readings_eq, hascends.phrases_eq word hsep]
    refine ⟨hword, by rw [hall, if_neg hsep], ?_⟩
    have hdisjoint : ∀ e ∈ dictionary.toList, decide (e.word = word) = true →
        decide (word ++ separator <+: e.word) = false := by
      intro e _ heq
      rw [decide_eq_false_iff_not, of_decide_eq_true heq]
      exact not_append_isPrefix hsep
    simpa [hall, hsep] using filter_append_perm hdisjoint

/-- What stands between the word and the phrase is left out. -/
theorem lookup_eq_filter_hyphen :
    let lexicon := "po\tprep\npo s\tconj\npo-m\tadvb\npod\tprep".toList
    let entries : List Entry :=
      [⟨0, "po".toList, { pos := some .prep }⟩, ⟨3, "po s".toList, { pos := some .conj }⟩,
        ⟨8, "po-m".toList, { pos := some .advb }⟩, ⟨13, "pod".toList, { pos := some .prep }⟩]
    let built : Dictionary := ⟨"po\x00po s\x00po-m\x00pod\x00".toList, entries.toArray⟩
    ofLexicon lexicon = .ok built ∧ built.lookup "po".toList "-".toList =
      [⟨0, "po".toList, { pos := some .prep }⟩, ⟨8, "po-m".toList, { pos := some .advb }⟩] := by
  intro lexicon entries built
  have hlines : (lines (normalize lexicon)).filterMap Reading.ofLine? =
      entries.map Entry.reading := by decide +kernel
  have hreadings : lexiconReadings lexicon = entries.map Entry.reading := by
    rw [lexiconReadings, hlines, List.mergeSort_of_pairwise (by decide +kernel)]
    decide +kernel
  have hbuild : ofLexicon lexicon = .ok built := by
    rw [ofLexicon, hreadings]
    decide +kernel
  obtain ⟨-, hfound, -⟩ := lookup_eq_filter (.inl ⟨lexicon, hbuild⟩) "po".toList "-".toList
  refine ⟨hbuild, hfound.trans ?_⟩
  decide +kernel

end Dictionary

end Concord
