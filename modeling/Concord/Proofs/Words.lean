import Concord.Dictionary.File
import Concord.Dictionary.Lexicon
import Concord.Proofs.Utf8
import Mathlib.Data.List.Basic

namespace Concord

section pieces

variable {α : Type _} {sep : α → Bool}

theorem splitAll_of_not_mem {xs : List α} (h : ∀ x ∈ xs, sep x = false) :
    splitAll sep xs = [xs] := by
  induction xs with
  | nil => rfl
  | cons x xs ih =>
    obtain ⟨hx, hxs⟩ := List.forall_mem_cons.mp h
    simp [splitAll, hx, ih hxs]

theorem splitAll_append_cons {a : α} (h : sep a = true) (xs ys : List α) :
    splitAll sep (xs ++ a :: ys) = splitAll sep xs ++ splitAll sep ys := by
  induction xs with
  | nil => simp [splitAll, h]
  | cons x xs ih =>
    simp only [List.cons_append, splitAll, ih]
    split
    · rfl
    · cases hs : splitAll sep xs with
      | nil => exact absurd hs (splitAll_ne_nil sep xs)
      | cons piece pieces => rfl

theorem not_mem_splitAll {a : α} (ha : sep a = true) {xs piece : List α}
    (h : piece ∈ splitAll sep xs) : a ∉ piece := by
  induction xs generalizing piece with
  | nil => simp_all [splitAll]
  | cons x xs ih =>
    unfold splitAll at h
    split at h
    next hx =>
      rcases List.mem_cons.mp h with rfl | h
      · simp
      · exact ih h
    next hx =>
      split at h
      next hs => exact absurd hs (splitAll_ne_nil sep xs)
      next first pieces hs =>
        rcases List.mem_cons.mp h with rfl | h
        · rw [List.mem_cons, not_or]
          refine ⟨?_, ih (by rw [hs]; simp)⟩
          rintro rfl
          exact hx ha
        · exact ih (by rw [hs]; exact List.mem_cons_of_mem _ h)

end pieces

theorem wordsText_append (a b : List Text) : wordsText (a ++ b) = wordsText a ++ wordsText b :=
  List.flatMap_append

theorem wordsText_splitAll (text : Text) :
    wordsText (splitAll (· = '\x00') text) = text ++ ['\x00'] := by
  induction text with
  | nil => rfl
  | cons c text ih =>
    unfold splitAll
    split
    next hc =>
      have hc : c = '\x00' := by simpa using hc
      subst hc
      rw [wordsText, List.flatMap_cons, ← wordsText, ih]
      rfl
    next hc =>
      split
      next hs => exact absurd hs (splitAll_ne_nil _ _)
      next piece pieces hs =>
        rw [hs] at ih
        rw [wordsText, List.flatMap_cons] at ih ⊢
        rw [List.append_assoc, List.singleton_append] at ih
        simp [ih]

/-- A word stands at a byte position of a text if nothing or a NUL comes before it and the next NUL
follows it. -/
def StandsAt (text : Text) (offset : Nat) (word : Text) : Prop :=
  ∃ before after, text = before ++ word ++ '\x00' :: after ∧ utf8Length before = offset ∧
    '\x00' ∉ word ∧ (before = [] ∨ before.getLast? = some '\x00')

theorem mem_placeWords {words : List Text} {start offset : Nat} {word : Text} :
    (offset, word) ∈ placeWords start words ↔
      ∃ before after, words = before ++ word :: after ∧
        offset = start + utf8Length (wordsText before) := by
  induction words generalizing start with
  | nil => simp [placeWords]
  | cons w words ih =>
    rw [placeWords, List.mem_cons, ih]
    have hone : Char.utf8Size '\x00' = 1 := rfl
    constructor
    · rintro (h | ⟨before, after, rfl, rfl⟩)
      · cases h
        exact ⟨[], words, rfl, rfl⟩
      · refine ⟨w :: before, after, rfl, ?_⟩
        simp only [wordsText, List.flatMap_cons, utf8Length_append, utf8Length]
        omega
    · rintro ⟨before, after, heq, rfl⟩
      cases before with
      | nil =>
        cases heq
        exact .inl rfl
      | cons w' before =>
        cases heq
        refine .inr ⟨before, after, rfl, ?_⟩
        simp only [wordsText, List.flatMap_cons, utf8Length_append, utf8Length]
        omega

theorem placeWords_lt {words : List Text} {start : Nat} :
    (placeWords start words).Pairwise fun a b => a.1 < b.1 := by
  induction words generalizing start with
  | nil => exact .nil
  | cons w words ih =>
    refine List.pairwise_cons.mpr ⟨fun b hb => ?_, ih⟩
    obtain ⟨_, _, _, hoff⟩ := mem_placeWords.mp hb
    dsimp only
    omega

theorem wordsText_ends (words : List Text) :
    wordsText words = [] ∨ (wordsText words).getLast? = some '\x00' := by
  rcases List.eq_nil_or_concat words with rfl | ⟨front, word, rfl⟩
  · exact .inl rfl
  · rw [List.concat_eq_append, wordsText_append]
    exact .inr (by simp [wordsText])

theorem mem_wordsOfText {text : Text} {offset : Nat} {word : Text} :
    (offset, word) ∈ wordsOfText text ↔ StandsAt text offset word := by
  have hnul : ∀ {xs : Text}, '\x00' ∉ xs → splitAll (· = '\x00') xs = [xs] := fun h =>
    splitAll_of_not_mem fun c hc => by
      rw [decide_eq_false_iff_not]
      rintro rfl
      exact h hc
  rw [wordsOfText, mem_placeWords]
  constructor
  · rintro ⟨before, after, hwords, rfl⟩
    have hmem : word ∈ splitAll (· = '\x00') text :=
      List.dropLast_subset _ (by rw [hwords]; simp)
    have hsplit := List.dropLast_append_getLast (splitAll_ne_nil (· = '\x00') text)
    have htext := wordsText_splitAll text
    rw [← hsplit, hwords, wordsText_append, wordsText_append] at htext
    refine ⟨wordsText before,
      wordsText after ++ (splitAll (· = '\x00') text).getLast (splitAll_ne_nil _ _), ?_, by omega,
      not_mem_splitAll (by simp) hmem, wordsText_ends before⟩
    rw [← List.append_left_inj ['\x00'], ← htext]
    simp [wordsText]
  · rintro ⟨before, after, rfl, hoff, hword, hbefore⟩
    rw [List.append_assoc]
    rcases hbefore with rfl | hbefore
    · refine ⟨[], (splitAll (· = '\x00') after).dropLast, ?_, by rw [← hoff]; rfl⟩
      rw [List.nil_append, splitAll_append_cons (by simp), hnul hword,
        List.dropLast_append_of_ne_nil (splitAll_ne_nil _ _)]
      rfl
    · obtain ⟨front, rfl⟩ := List.getLast?_eq_some_iff.mp hbefore
      refine ⟨splitAll (· = '\x00') front, (splitAll (· = '\x00') after).dropLast, ?_, ?_⟩
      · rw [List.append_assoc, List.singleton_append, splitAll_append_cons (by simp),
          splitAll_append_cons (by simp), hnul hword, List.singleton_append,
          List.dropLast_append_of_ne_nil (by simp),
          List.dropLast_cons_of_ne_nil (splitAll_ne_nil _ _)]
      · rw [wordsText_splitAll, hoff, Nat.zero_add]

theorem getElem?_wordsOfText {text : Text} {offset : Nat} {word : Text} :
    (Std.HashMap.ofList (wordsOfText text))[offset]? = some word ↔ StandsAt text offset word := by
  have hdistinct : (wordsOfText text).Pairwise fun a b => (a.1 == b.1) = false :=
    placeWords_lt.imp fun h => beq_false_of_ne (Nat.ne_of_lt h)
  rw [← mem_wordsOfText]
  have hof : ∀ {found : Text}, (offset, found) ∈ wordsOfText text →
      (Std.HashMap.ofList (wordsOfText text))[offset]? = some found := fun h =>
    Std.HashMap.getElem?_ofList_of_mem (beq_self_eq_true offset) hdistinct h
  refine ⟨fun h => ?_, hof⟩
  cases hc : ((wordsOfText text).map Prod.fst).contains offset with
  | false =>
    rw [Std.HashMap.getElem?_ofList_of_contains_eq_false hc] at h
    cases h
  | true =>
    obtain ⟨⟨_, found⟩, hmem, rfl⟩ := List.mem_map.mp (List.contains_iff_mem.mp hc)
    have heq : found = word := Option.some.inj ((hof hmem).symm.trans h)
    exact heq ▸ hmem

theorem StandsAt.unique {text : Text} {offset : Nat} {word word' : Text}
    (h : StandsAt text offset word) (h' : StandsAt text offset word') : word = word' :=
  Option.some.inj ((getElem?_wordsOfText.mpr h).symm.trans (getElem?_wordsOfText.mpr h'))

/-- The bytes of a word go on to the next zero. -/
theorem StandsAt.takeWhile_drop {text : Text} {offset : Nat} {word : Text}
    (h : StandsAt text offset word) :
    ((encodeUtf8 text).drop offset).takeWhile (· ≠ 0) = encodeUtf8 word := by
  obtain ⟨before, after, rfl, rfl, hword, -⟩ := h
  have hpos : ∀ byte ∈ encodeUtf8 word, decide (byte ≠ 0) = true := by
    intro byte hb
    rw [decide_eq_true_eq]
    rintro rfl
    exact zero_not_mem_encodeUtf8 hword hb
  have hnul : String.utf8EncodeChar '\x00' = [0] := rfl
  rw [encodeUtf8_append, encodeUtf8_append, encodeUtf8_cons, hnul, List.append_assoc,
    ← length_encodeUtf8, List.drop_left, List.takeWhile_append_of_pos hpos, List.singleton_append,
    List.takeWhile_cons_of_neg (by simp), List.append_nil]

/-- Whether a word begins at a position of the bytes of a text. -/
def BeginsWord (bytes : Bytes) (offset : Nat) : Prop :=
  offset < bytes.length ∧ (offset = 0 ∨ bytes[offset - 1]? = some 0)

theorem StandsAt.beginsWord {text : Text} {offset : Nat} {word : Text}
    (h : StandsAt text offset word) : BeginsWord (encodeUtf8 text) offset := by
  obtain ⟨before, after, rfl, rfl, -, hbefore⟩ := h
  have hnul : String.utf8EncodeChar '\x00' = [0] := rfl
  refine ⟨?_, ?_⟩
  · rw [length_encodeUtf8, utf8Length_append, utf8Length_append, utf8Length]
    have := Char.utf8Size_pos '\x00'
    omega
  · rcases hbefore with rfl | hbefore
    · exact .inl rfl
    · obtain ⟨front, rfl⟩ := List.getLast?_eq_some_iff.mp hbefore
      right
      have hlen : utf8Length (front ++ ['\x00']) - 1 = (encodeUtf8 front).length := by
        rw [utf8Length_append, length_encodeUtf8]
        rfl
      rw [hlen]
      simp [encodeUtf8_append, encodeUtf8_cons, hnul]

theorem getElem?_wordsOfText_eq_none {text : Text} {offset : Nat}
    (h : ¬BeginsWord (encodeUtf8 text) offset) :
    (Std.HashMap.ofList (wordsOfText text))[offset]? = none := by
  cases hw : (Std.HashMap.ofList (wordsOfText text))[offset]? with
  | none => rfl
  | some word => exact absurd (getElem?_wordsOfText.mp hw).beginsWord h

theorem getLast?_any_iff {text : Text} : text.getLast?.any (· ≠ '\x00') = true ↔
    ¬(encodeUtf8 text = [] ∨ (encodeUtf8 text).getLast? = some 0) := by
  rw [getLast?_encodeUtf8, encodeUtf8_eq_nil]
  cases hl : text.getLast? with
  | none => simp [List.getLast?_eq_none_iff.mp hl]
  | some c =>
    have hne : text ≠ [] := fun h => by simp [h] at hl
    simp [hne]

/-- In a text that ends with a NUL, a word stands wherever one begins. -/
theorem exists_standsAt {text : Text} {offset : Nat}
    (hnul : encodeUtf8 text = [] ∨ (encodeUtf8 text).getLast? = some 0)
    (h : BeginsWord (encodeUtf8 text) offset) : ∃ word, StandsAt text offset word := by
  have hsplit : ∃ before after, text = before ++ after ∧ utf8Length before = offset ∧
      (before = [] ∨ before.getLast? = some '\x00') := by
    rcases h.2 with rfl | hzero
    · exact ⟨[], text, rfl, rfl, .inl rfl⟩
    · by_cases h0 : offset = 0
      · exact ⟨[], text, rfl, h0 ▸ rfl, .inl rfl⟩
      · obtain ⟨before, after, heq, hlen⟩ := exists_eq_append_of_zero hzero
        refine ⟨before ++ ['\x00'], after, by rw [heq]; simp, ?_, .inr (by simp)⟩
        have hone : Char.utf8Size '\x00' = 1 := rfl
        rw [utf8Length_append, utf8Length, utf8Length]
        omega
  obtain ⟨before, after, rfl, rfl, hbefore⟩ := hsplit
  have hne : after ≠ [] := by
    rintro rfl
    have hlt := h.1
    rw [List.append_nil, length_encodeUtf8] at hlt
    exact Nat.lt_irrefl _ hlt
  have hmem : '\x00' ∈ after := by
    have hlast := hnul.resolve_left fun hnil =>
      hne (List.append_eq_nil_iff.mp (encodeUtf8_eq_nil.mp hnil)).2
    rw [getLast?_encodeUtf8, List.getLast?_append_of_ne_nil _ hne] at hlast
    exact List.mem_of_getLast? hlast
  obtain ⟨word, rest, rfl, hword⟩ := List.eq_append_cons_of_mem hmem
  exact ⟨word, before, rest, by simp, rfl, hword, hbefore⟩

end Concord
