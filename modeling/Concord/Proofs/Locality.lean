import Concord.Proofs.Matching
import Concord.Proofs.Pairing
import Concord.Proofs.Scope

namespace Concord

namespace Sentence

/-- Two sentences have the same characters from two positions on. -/
structure Agree (sentence sentence' : Sentence) (i j : Nat) : Prop where
  le : i ≤ sentence.length
  le' : j ≤ sentence'.length
  rest : sentence.chars.toList.drop i = sentence'.chars.toList.drop j

variable {sentence sentence' : Sentence} {i j : Nat}

namespace Agree

theorem getElem? (h : sentence.Agree sentence' i j) (n : Nat) :
    sentence.chars[i + n]? = sentence'.chars[j + n]? := by
  rw [← Array.getElem?_toList, ← Array.getElem?_toList, ← List.getElem?_drop, ← List.getElem?_drop,
    h.rest]

theorem length (h : sentence.Agree sentence' i j) :
    sentence.length - i = sentence'.length - j := by
  have hlength := congrArg List.length h.rest
  rw [List.length_drop, List.length_drop] at hlength
  exact hlength

theorem wordLength (h : sentence.Agree sentence' i j) (count n : Nat) :
    sentence.wordLength count (i + n) = sentence'.wordLength count (j + n) := by
  induction count generalizing n with
  | zero => rfl
  | succ count ih =>
    have hnext := ih (n + 1)
    rw [← Nat.add_assoc, ← Nat.add_assoc] at hnext
    rw [Sentence.wordLength, Sentence.wordLength, h.getElem?, hnext]

theorem endOfWord (h : sentence.Agree sentence' i j) (n : Nat) :
    ∃ m, sentence.endOfWord (i + n) = i + n + m ∧ sentence'.endOfWord (j + n) = j + n + m := by
  have hlength := h.length
  have hcount : sentence.length - (i + n) = sentence'.length - (j + n) := by omega
  refine ⟨sentence.wordLength (sentence.length - (i + n)) (i + n), rfl, ?_⟩
  rw [Sentence.endOfWord, h.wordLength, hcount]

theorem slice (h : sentence.Agree sentence' i j) (n m : Nat) :
    sentence.slice (i + n) (i + n + m) = sentence'.slice (j + n) (j + n + m) := by
  rw [slice_eq, slice_eq, ← List.drop_drop, ← List.drop_drop, h.rest]

end Agree

end Sentence

namespace Pairing

/-- Each symbol corresponds to itself, and the positions from `i` on to the ones from `j` on. -/
def shift (i j : Nat) : Pairing where
  symbols := Eq
  positions p p' := ∃ n, p = i + n ∧ p' = j + n

variable {P : Pairing} {sentence sentence' : Sentence} {i j : Nat}

theorem biUnique_shift (i j : Nat) : Relator.BiUnique (shift i j).positions := by
  constructor
  · rintro p p' q ⟨n, rfl, rfl⟩ ⟨m, rfl, hm⟩
    omega
  · rintro p p' q ⟨n, rfl, rfl⟩ ⟨m, hm, rfl⟩
    omega

theorem endOf?_shift (h : sentence.Agree sentence' i j) (n : Nat) (text : Text) :
    Option.Rel (shift i j).positions (sentence.endOf? (i + n) text)
      (sentence'.endOf? (j + n) text) := by
  have hslice := h.slice n text.length
  by_cases hstands : sentence.slice (i + n) (i + n + text.length) = text
  · rw [Sentence.endOf?_eq_some.mpr ⟨hstands, rfl⟩,
      Sentence.endOf?_eq_some.mpr ⟨hslice.symm.trans hstands, rfl⟩]
    exact .some ⟨n + text.length, Nat.add_assoc .., Nat.add_assoc ..⟩
  · have hnone : sentence.endOf? (i + n) text = none :=
      Option.eq_none_iff_forall_ne_some.mpr fun stop hstop =>
        hstands (Sentence.endOf?_eq_some.mp hstop).1
    have hnone' : sentence'.endOf? (j + n) text = none :=
      Option.eq_none_iff_forall_ne_some.mpr fun stop hstop =>
        hstands (hslice.trans (Sentence.endOf?_eq_some.mp hstop).1)
    rw [hnone, hnone']
    exact .none

theorem phraseLeaf?_shift (h : sentence.Agree sentence' i j) (n : Nat) (entry : Entry) :
    Option.Rel (shift i j).Leaves (Parser.phraseLeaf? sentence (i + n) entry)
      (Parser.phraseLeaf? sentence' (j + n) entry) := by
  have hend := endOf?_shift h n entry.word
  unfold Parser.phraseLeaf?
  generalize sentence.endOf? (i + n) entry.word = stop? at hend ⊢
  generalize sentence'.endOf? (j + n) entry.word = stop?' at hend ⊢
  cases hend with
  | none => exact .none
  | some hstop =>
    obtain ⟨m, rfl, rfl⟩ := hstop
    dsimp only
    rw [h.getElem?]
    split
    · exact .none
    · exact .some ⟨⟨n, rfl, rfl⟩, ⟨m, rfl, rfl⟩, rfl⟩

theorem leavesAt_shift (parser : Parser) (h : sentence.Agree sentence' i j) (n : Nat) :
    List.Forall₂ (shift i j).Leaves (parser.leavesAt sentence (i + n))
      (parser.leavesAt sentence' (j + n)) := by
  obtain ⟨m, hend, hend'⟩ := h.endOfWord n
  unfold Parser.leavesAt
  dsimp only
  rw [hend, hend', h.slice]
  by_cases hm : m = 0
  · rw [if_pos (by omega), if_pos (by omega)]
    exact .nil
  · rw [if_neg (by omega), if_neg (by omega)]
    have hstop : (shift i j).positions (i + n + m) (j + n + m) :=
      ⟨n + m, Nat.add_assoc .., Nat.add_assoc ..⟩
    have hreadings : List.Forall₂ (· = ·)
        (parser.dictionary.readings (sentence'.slice (j + n) (j + n + m))) _ :=
      List.forall₂_refl _
    have hphrases : List.Forall₂ (· = ·) (parser.dictionary.phrases
        (sentence'.slice (j + n) (j + n + m)) parser.separator) _ := List.forall₂_refl _
    refine List.rel_append (List.rel_map ?_ hreadings) (List.rel_filterMap ?_ hphrases)
    · rintro entry _ rfl
      exact ⟨⟨n, rfl, rfl⟩, hstop, rfl⟩
    · rintro entry _ rfl
      exact phraseLeaf?_shift h n entry

theorem forall₂_elements (h : ∀ symbol, P.symbols symbol symbol) (elements : List Element) :
    List.Forall₂ P.Elements elements elements := by
  refine List.forall₂_same.mpr fun element _ => ?_
  cases element with
  | literal text => exact .literal text
  | term term =>
    refine .term ⟨rfl, ?_⟩
    cases term.target with
    | none => exact .none
    | some symbol => exact .some (h symbol)

theorem between_shift (parser : Parser) (h : sentence.Agree sentence' i j) :
    (shift i j).Between parser parser sentence sentence' where
  symbols := biUnique_eq
  positions := biUnique_shift i j
  cap := rfl
  nameOf := by
    rintro symbol _ rfl
    rfl
  alternatives := by
    rintro symbol _ rfl
    exact List.forall₂_same.mpr fun pattern _ =>
      ⟨rfl, rfl, forall₂_elements (fun _ => rfl) pattern.elements⟩
  inRange := by
    rintro ⟨symbol, _, inherited⟩ ⟨_, _, _⟩ ⟨rfl, ⟨n, rfl, rfl⟩, rfl⟩
    have hlength := h.length
    have hle := h.le
    have hle' := h.le'
    dsimp only [Key.InRange] at *
    omega
  endOf? := by
    rintro _ _ ⟨n, rfl, rfl⟩ text
    exact endOf?_shift h n text
  leavesAt := by
    rintro _ _ ⟨n, rfl, rfl⟩
    exact leavesAt_shift parser h n

end Pairing

namespace Analysis

/-- What is found at a position of a text depends only on the normalized characters from there on:
where two texts have the same ones, analyses that have found nothing yet find the same trees in the
same order, at the same distance from the two positions. -/
theorem parseGiven_local (parser : Parser) {a b : Text} {i j : Nat}
    (hi : i ≤ (Sentence.ofText a).length) (hj : j ≤ (Sentence.ofText b).length)
    (hsame : (Sentence.ofText a).chars.toList.drop i = (Sentence.ofText b).chars.toList.drop j)
    (start : Text) (inherited : Features) :
    ∃ trees trees' : List Tree,
      ((new parser).reset a).seen (.parseGiven start i inherited) = (.ok (), trees) ∧
      ((new parser).reset b).seen (.parseGiven start j inherited) = (.ok (), trees') ∧
      trees.map (Tree.move (· + j)) = trees'.map (Tree.move (· + i)) := by
  have hbetween := Pairing.between_shift parser ⟨hi, hj, hsame⟩
  have hstart : Option.Rel (Pairing.shift i j).symbols (parser.grammar.indexOf? start)
      (parser.grammar.indexOf? start) := by
    cases parser.grammar.indexOf? start with
    | none => exact .none
    | some symbol => exact .some rfl
  have hmove : ∀ p p', (Pairing.shift i j).positions p p' → p + j = p' + i := by
    rintro _ _ ⟨n, rfl, rfl⟩
    omega
  have hpos : (Pairing.shift i j).positions i j := ⟨0, rfl, rfl⟩
  obtain ⟨trees, trees', htrees, hseen, hseen'⟩ := hbetween.seen hmove hstart hpos inherited
  rw [if_neg (Nat.not_lt.mpr hi)] at hseen
  rw [if_neg (Nat.not_lt.mpr hj)] at hseen'
  exact ⟨trees, trees', hseen, hseen', htrees⟩

theorem parseGiven_local_direct :
    ∃ trees trees' : List Tree,
      ((new ⟨.empty, .direct, [' '], none⟩).reset ['?', '\t', ' ', 'X', '!']).seen
        (.parseGiven ['a'] 2 .empty) = (.ok (), trees) ∧
      ((new ⟨.empty, .direct, [' '], none⟩).reset ['x', '!']).seen
        (.parseGiven ['a'] 0 .empty) = (.ok (), trees') ∧
      trees.map (Tree.move (· + 0)) = trees'.map (Tree.move (· + 2)) :=
  parseGiven_local _ (by decide +kernel) (by decide +kernel) (by decide +kernel) _ _

end Analysis

end Concord
