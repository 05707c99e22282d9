import Concord.Proofs.Matching
import Concord.Proofs.Pairing
import Concord.Proofs.Soundness

namespace Concord

theorem Sentence.le_of_endOf? {sentence : Sentence} {pos stop : Nat} {text : Text}
    (h : sentence.endOf? pos text = some stop) : pos ≤ stop := by
  obtain ⟨-, rfl⟩ := endOf?_eq_some.mp h
  exact Nat.le_add_right _ _

theorem Parser.le_stop_of_mem_leavesAt {parser : Parser} {sentence : Sentence} {pos : Nat}
    {leaf : Leaf} (h : leaf ∈ parser.leavesAt sentence pos) : pos ≤ leaf.stop := by
  unfold leavesAt at h
  dsimp only at h
  split at h
  next => cases h
  next =>
    rcases List.mem_append.mp h with h | h
    · obtain ⟨entry, -, rfl⟩ := List.mem_map.mp h
      exact Nat.le_add_right _ _
    · obtain ⟨entry, -, h⟩ := List.mem_filterMap.mp h
      unfold phraseLeaf? at h
      split at h
      next => cases h
      next stop hstop =>
        split at h
        next => cases h
        next =>
          cases h
          exact Sentence.le_of_endOf? hstop

namespace Tree

/-- No position in the tree is beyond `m`. -/
def Upto (m : Nat) : Tree → Prop
  | .leaf ⟨start, stop, _⟩ => start ≤ m ∧ stop ≤ m
  | .phrase _ start stop _ children => start ≤ m ∧ stop ≤ m ∧ ∀ child ∈ children, Upto m child

theorem Upto.mono {m m' : Nat} (hle : m ≤ m') : ∀ {tree : Tree}, tree.Upto m → tree.Upto m'
  | .leaf ⟨_, _, _⟩, h => by
    rw [Upto] at h ⊢
    omega
  | .phrase _ _ _ _ _, h => by
    rw [Upto] at h ⊢
    exact ⟨by omega, by omega, fun child hchild => (h.2.2 child hchild).mono hle⟩

end Tree

/-- The derivation ends where the key begins or after, and no position in it is beyond its end. -/
structure Extends (key : Key) (d : Derivation) : Prop where
  le : key.start ≤ d.stop
  upto : d.tree.Upto d.stop

variable {parser : Parser} {sentence : Sentence} {relation : Key → Derivation → Prop}

namespace Strand

variable {strand next last : Strand} {element : Element} {elements : List Element}

theorem Passes.pos_le (hrelation : ∀ callee part, relation callee part → callee.start ≤ part.stop)
    (h : strand.Passes parser sentence relation element next) : strand.pos ≤ next.pos := by
  cases h with
  | literal h =>
    obtain ⟨stop, hstop, rfl⟩ := Option.map_eq_some_iff.mp h
    exact Sentence.le_of_endOf? hstop
  | word ht hl h =>
    obtain ⟨b, -, rfl⟩ := Option.map_eq_some_iff.mp h
    exact Parser.le_stop_of_mem_leavesAt hl
  | phrase ht ha h =>
    obtain ⟨b, -, rfl⟩ := Option.map_eq_some_iff.mp h
    exact hrelation _ _ ha

theorem PassesAll.pos_le
    (hrelation : ∀ callee part, relation callee part → callee.start ≤ part.stop)
    (h : PassesAll parser sentence relation elements strand last) : strand.pos ≤ last.pos := by
  induction elements generalizing strand with
  | nil =>
    cases h
    exact Nat.le_refl _
  | cons element elements ih =>
    obtain ⟨next, hnext, hlast⟩ := h
    exact Nat.le_trans (hnext.pos_le hrelation) (ih hlast)

theorem Passes.upto (hrelation : ∀ callee part, relation callee part → Extends callee part)
    (h : strand.Passes parser sentence relation element next)
    (hparts : ∀ part ∈ strand.parts, part.tree.Upto strand.pos) :
    ∀ part ∈ next.parts, part.tree.Upto next.pos := by
  have hle := h.pos_le fun callee part hpart => (hrelation callee part hpart).le
  have hbefore : ∀ part ∈ strand.parts, part.tree.Upto next.pos :=
    fun part hpart => (hparts part hpart).mono hle
  cases h with
  | literal h => exact fun part hpart => hbefore part (parts_of_literal? h ▸ hpart)
  | @word term leaf _ ht hl h =>
    rw [parts_of_word? h]
    obtain ⟨b, -, rfl⟩ := Option.map_eq_some_iff.mp h
    refine List.forall_mem_append.mpr ⟨hbefore, List.forall_mem_singleton.mpr ?_⟩
    rw [Derivation.tree_word, Tree.Upto, Parser.start_of_mem_leavesAt hl]
    exact ⟨hle, Nat.le_refl _⟩
  | phrase ht ha h =>
    rw [parts_of_phrase? h]
    obtain ⟨b, -, rfl⟩ := Option.map_eq_some_iff.mp h
    exact List.forall_mem_append.mpr
      ⟨hbefore, List.forall_mem_singleton.mpr (hrelation _ _ ha).upto⟩

theorem PassesAll.upto (hrelation : ∀ callee part, relation callee part → Extends callee part)
    (h : PassesAll parser sentence relation elements strand last)
    (hparts : ∀ part ∈ strand.parts, part.tree.Upto strand.pos) :
    ∀ part ∈ last.parts, part.tree.Upto last.pos := by
  induction elements generalizing strand with
  | nil =>
    cases h
    exact hparts
  | cons element elements ih =>
    obtain ⟨next, hnext, hlast⟩ := h
    exact ih hlast (hnext.upto hrelation hparts)

end Strand

theorem inherited_extends (parser : Parser) (sentence : Sentence) :
    Inherited parser sentence [] Extends := by
  intro key d _ _ hbuilds
  obtain ⟨pattern, -, -, strand, hpasses, hfinish⟩ := hbuilds
  have hle : key.start ≤ strand.pos := hpasses.pos_le fun callee part h => h.2.le
  have hparts := hpasses.upto (fun callee part h => h.2) fun part hpart => by cases hpart
  obtain ⟨features, -, rfl⟩ := Option.map_eq_some_iff.mp hfinish
  refine ⟨hle, ?_⟩
  rw [Derivation.tree_expansion, Tree.Upto]
  refine ⟨hle, Nat.le_refl _, fun child hchild => ?_⟩
  obtain ⟨part, hpart, rfl⟩ := List.mem_map.mp hchild
  exact hparts part hpart

theorem Inherited.and {banned : List Key} {property property' : Key → Derivation → Prop}
    (h : Inherited parser sentence banned property)
    (h' : Inherited parser sentence banned property') :
    Inherited parser sentence banned fun key d => property key d ∧ property' key d :=
  fun key d hbanned hr hbuilds =>
    ⟨h key d hbanned hr (hbuilds.mono fun _ _ _ hpart => ⟨hpart.1, hpart.2.1⟩),
      h' key d hbanned hr (hbuilds.mono fun _ _ _ hpart => ⟨hpart.1, hpart.2.2⟩)⟩

/-- An expansion calls nothing that begins before it. -/
theorem Frame.Built.le_callee {f : Frame} (hf : f.Built parser sentence relation)
    (hrelation : ∀ callee part, relation callee part → callee.start ≤ part.stop) {callee : Key}
    (hc : f.callee? = some callee) : f.key.start ≤ callee.start := by
  obtain ⟨pattern, _, _, _, strand, _, _, ha, -, hp, -, rfl, -⟩ := callee?_eq_some hc
  obtain ⟨-, before, -, hpending, -⟩ := hf.current _ _ ha
  exact (hpending strand (hp ▸ List.mem_cons_self)).pos_le hrelation

namespace Tree

variable {r r' : Nat → Nat}

/-- Only the positions up to the end of a tree matter when it is moved. -/
theorem move_congr {m : Nat} (hr : ∀ p ≤ m, r p = r' p) :
    ∀ {tree : Tree}, tree.Upto m → tree.move r = tree.move r'
  | .leaf ⟨start, stop, features⟩, h => by
    rw [Upto] at h
    rw [move, move, hr start h.1, hr stop h.2]
  | .phrase name start stop features children, h => by
    rw [Upto] at h
    have hchildren : children.map (move r) = children.map (move r') :=
      List.map_congr_left fun child hchild => move_congr hr (h.2.2 child hchild)
    rw [move, move, hr start h.1, hr stop h.2.1, hchildren]

end Tree

end Concord
