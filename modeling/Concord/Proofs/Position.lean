import Concord.Proofs.Soundness

namespace Concord

namespace Sentence

variable {sentence : Sentence}

theorem endOf?_le {pos stop : Nat} {text : Text} (h : sentence.endOf? pos text = some stop)
    (hpos : pos ≤ sentence.length) : stop ≤ sentence.length := by
  induction text generalizing pos with
  | nil =>
    cases h
    exact hpos
  | cons c text ih =>
    rw [endOf?] at h
    split at h
    next hc =>
      refine ih h ?_
      obtain ⟨hlt, -⟩ := Array.getElem?_eq_some_iff.mp hc
      exact hlt
    next => cases h

theorem wordLength_le (sentence : Sentence) (count pos : Nat) :
    sentence.wordLength count pos ≤ count := by
  induction count generalizing pos with
  | zero => exact Nat.le_refl _
  | succ count ih =>
    rw [wordLength]
    split
    next =>
      split
      next => exact Nat.succ_le_succ (ih _)
      next => exact Nat.zero_le _
    next => exact Nat.zero_le _

theorem endOfWord_le {pos : Nat} (hpos : pos ≤ sentence.length) :
    sentence.endOfWord pos ≤ sentence.length := by
  have hle := sentence.wordLength_le (sentence.length - pos) pos
  unfold endOfWord
  omega

end Sentence

theorem Parser.stop_le_of_mem_leavesAt {parser : Parser} {sentence : Sentence} {pos : Nat}
    {leaf : Leaf} (h : leaf ∈ parser.leavesAt sentence pos) (hpos : pos ≤ sentence.length) :
    leaf.stop ≤ sentence.length := by
  unfold leavesAt at h
  dsimp only at h
  split at h
  next => cases h
  next =>
    rcases List.mem_append.mp h with h | h
    · obtain ⟨entry, -, rfl⟩ := List.mem_map.mp h
      exact Sentence.endOfWord_le hpos
    · obtain ⟨entry, -, h⟩ := List.mem_filterMap.mp h
      unfold phraseLeaf? at h
      split at h
      next => cases h
      next stop hstop =>
        split at h
        next => cases h
        next =>
          cases h
          exact Sentence.endOf?_le hstop hpos

variable {parser : Parser} {sentence : Sentence} {relation : Key → Derivation → Prop}

def Ends (sentence : Sentence) (relation : Key → Derivation → Prop) (parts : List Derivation) :
    Prop :=
  ∀ callee part, part ∈ parts → relation callee part → callee.start ≤ sentence.length →
    part.stop ≤ sentence.length

theorem Strand.Passes.within {strand next : Strand} {element : Element}
    (h : strand.Passes parser sentence relation element next)
    (hpos : strand.pos ≤ sentence.length) (hparts : Ends sentence relation next.parts) :
    next.pos ≤ sentence.length ∧ strand.Passes parser sentence
      (fun callee part => relation callee part ∧ callee.start ≤ sentence.length) element next := by
  cases h with
  | literal h =>
    refine ⟨?_, .literal h⟩
    obtain ⟨stop, hstop, rfl⟩ := Option.map_eq_some_iff.mp h
    exact Sentence.endOf?_le hstop hpos
  | word ht hl h =>
    refine ⟨?_, .word ht hl h⟩
    obtain ⟨b, -, rfl⟩ := Option.map_eq_some_iff.mp h
    exact Parser.stop_le_of_mem_leavesAt hl hpos
  | phrase ht ha h =>
    refine ⟨?_, .phrase ht ⟨ha, hpos⟩ h⟩
    have hlast := hparts _ _ (by simp [parts_of_phrase? h]) ha hpos
    obtain ⟨b, -, rfl⟩ := Option.map_eq_some_iff.mp h
    exact hlast

theorem Strand.PassesAll.within {elements : List Element} {strand last : Strand}
    (h : PassesAll parser sentence relation elements strand last)
    (hpos : strand.pos ≤ sentence.length) (hparts : Ends sentence relation last.parts) :
    last.pos ≤ sentence.length ∧ PassesAll parser sentence
      (fun callee part => relation callee part ∧ callee.start ≤ sentence.length)
      elements strand last := by
  induction elements generalizing strand with
  | nil =>
    cases h
    exact ⟨hpos, rfl⟩
  | cons element elements ih =>
    obtain ⟨next, hnext, hlast⟩ := h
    have hsub := hlast.prefix_parts.subset
    obtain ⟨hle, hpasses⟩ := hnext.within hpos fun callee part hp => hparts callee part (hsub hp)
    obtain ⟨hlast', hall⟩ := ih hlast hle
    exact ⟨hlast', next, hpasses, hall⟩

/-- What is built in the sentence ends in it, and so do the parts. -/
theorem Key.Builds.within {key : Key} {d : Derivation}
    (h : key.Builds parser sentence relation d) (hpos : key.start ≤ sentence.length)
    (hparts : Ends sentence relation d.parts) :
    d.stop ≤ sentence.length ∧ key.Builds parser sentence
      (fun callee part => relation callee part ∧ callee.start ≤ sentence.length) d := by
  obtain ⟨pattern, hp, hadmits, strand, hpasses, hfinish⟩ := h
  obtain ⟨hdparts, -, hstop⟩ := Strand.finish?_eq_some hfinish
  obtain ⟨hle, hall⟩ := hpasses.within hpos (hdparts ▸ hparts)
  exact ⟨hstop ▸ hle, pattern, hp, hadmits, strand, hall, hfinish⟩

theorem Grammar.lt_size_of_mem {grammar : Grammar} {symbol : Nat} {pattern : Pattern}
    (h : pattern ∈ grammar.alternatives symbol) : symbol < grammar.size := by
  unfold alternatives at h
  split at h
  next s hs => exact (Array.getElem?_eq_some_iff.mp hs).1
  next => cases h

theorem Key.Builds.symbol_lt {key : Key} {d : Derivation}
    (h : key.Builds parser sentence relation d) : key.symbol < parser.grammar.size := by
  obtain ⟨pattern, hp, -⟩ := h
  exact Grammar.lt_size_of_mem hp

/-- The parts of what is built are words offered at some position, or they are answered to calls. -/
theorem Key.Builds.parts_offered {key : Key} {d : Derivation}
    (h : key.Builds parser sentence relation d) :
    ∀ part ∈ d.parts, (∃ leaf pos, part = .word leaf ∧ leaf ∈ parser.leavesAt sentence pos) ∨
      ∃ callee, relation callee part := by
  let Offered (part : Derivation) : Prop :=
    (∃ leaf pos, part = .word leaf ∧ leaf ∈ parser.leavesAt sentence pos) ∨
      ∃ callee, relation callee part
  have hpasses : ∀ elements (strand last : Strand),
      Strand.PassesAll parser sentence relation elements strand last →
      (∀ part ∈ strand.parts, Offered part) → ∀ part ∈ last.parts, Offered part := by
    intro elements
    induction elements with
    | nil =>
      rintro strand last rfl hparts
      exact hparts
    | cons element elements ih =>
      rintro strand last ⟨next, hnext, hlast⟩ hparts
      refine ih next last hlast fun part hpart => ?_
      cases hnext with
      | literal h => exact hparts part (Strand.parts_of_literal? h ▸ hpart)
      | word ht hl h =>
        rw [Strand.parts_of_word? h, List.mem_append, List.mem_singleton] at hpart
        exact hpart.elim (hparts part) fun heq => .inl ⟨_, _, heq, hl⟩
      | phrase ht ha h =>
        rw [Strand.parts_of_phrase? h, List.mem_append, List.mem_singleton] at hpart
        exact hpart.elim (hparts part) fun heq => .inr ⟨_, heq ▸ ha⟩
  obtain ⟨pattern, -, -, strand, hall, hfinish⟩ := h
  rw [(Strand.finish?_eq_some hfinish).1]
  exact hpasses _ _ _ hall (by simp [Strand.start])

theorem Key.Builds.parts {key : Key} {d : Derivation}
    (h : key.Builds parser sentence relation d) :
    ∀ part ∈ d.parts, (∃ leaf, part = .word leaf) ∨ ∃ callee, relation callee part :=
  fun part hpart => (h.parts_offered part hpart).imp_left fun ⟨leaf, _, heq, _⟩ => ⟨leaf, heq⟩

end Concord
