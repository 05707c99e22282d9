import Concord.Proofs.Grounded
import Concord.Proofs.Pairing
import Mathlib.Data.List.Flatten

namespace Concord

/-- A way of comparing lists that appending lists and mapping elements to lists keep to. -/
structure Comparison where
  Below {α : Type} : List α → List α → Prop
  refl {α : Type} (xs : List α) : Below xs xs
  trans {α : Type} {xs ys zs : List α} : Below xs ys → Below ys zs → Below xs zs
  append {α : Type} {xs xs' ys ys' : List α} :
    Below xs xs' → Below ys ys' → Below (xs ++ ys) (xs' ++ ys')
  flatMap {α β : Type} {xs ys : List α} (f : α → List β) :
    Below xs ys → Below (xs.flatMap f) (ys.flatMap f)
  subset {α : Type} {xs ys : List α} : Below xs ys → xs ⊆ ys

namespace Comparison

def sublist : Comparison where
  Below := List.Sublist
  refl := .refl
  trans := .trans
  append := .append
  flatMap f h := h.flatMap f
  subset := List.Sublist.subset

def perm : Comparison where
  Below := List.Perm
  refl := .refl
  trans := .trans
  append := .append
  flatMap f h := h.flatMap_right f
  subset := List.Perm.subset

variable {C : Comparison} {α β γ δ : Type} {r : α → β → Prop} {q : γ → δ → Prop}

theorem map {xs ys : List α} (f : α → β) (h : C.Below xs ys) : C.Below (xs.map f) (ys.map f) := by
  rw [List.map_eq_flatMap, List.map_eq_flatMap]
  exact C.flatMap _ h

theorem filterMap {xs ys : List α} (f : α → Option β) (h : C.Below xs ys) :
    C.Below (xs.filterMap f) (ys.filterMap f) := by
  rw [List.filterMap_eq_flatMap_toList, List.filterMap_eq_flatMap_toList]
  exact C.flatMap _ h

theorem filter {xs ys : List α} (p : α → Bool) (h : C.Below xs ys) :
    C.Below (xs.filter p) (ys.filter p) := by
  rw [← List.filterMap_eq_filter]
  exact filterMap _ h

/-- One for one, the elements of a list are related to those of a list below the other one. -/
def Rel (C : Comparison) (r : α → β → Prop) (xs : List α) (ys : List β) : Prop :=
  ∃ zs, List.Forall₂ r xs zs ∧ C.Below zs ys

theorem rel_of_forall₂ {xs : List α} {ys : List β} (h : List.Forall₂ r xs ys) : C.Rel r xs ys :=
  ⟨ys, h, C.refl ys⟩

theorem Rel.below {xs : List α} {ys zs : List β} (h : C.Rel r xs ys) (hbelow : C.Below ys zs) :
    C.Rel r xs zs := by
  obtain ⟨middle, hrel, hmiddle⟩ := h
  exact ⟨middle, hrel, C.trans hmiddle hbelow⟩

theorem rel_map {f : γ → α} {g : γ → β} {xs ys : List γ} (hfg : ∀ x ∈ xs, r (f x) (g x))
    (h : C.Below xs ys) : C.Rel r (xs.map f) (ys.map g) := by
  refine ⟨xs.map g, ?_, map g h⟩
  rw [List.forall₂_map_left_iff, List.forall₂_map_right_iff, List.forall₂_same]
  exact hfg

theorem rel_of_below {r : α → α → Prop} (hr : ∀ x, r x x) {xs ys : List α} (h : C.Below xs ys) :
    C.Rel r xs ys :=
  ⟨xs, List.forall₂_same.mpr fun x _ => hr x, h⟩

theorem Rel.exists_of_mem {xs : List α} {ys : List β} (h : C.Rel r xs ys) {x : α} (hx : x ∈ xs) :
    ∃ y ∈ ys, r x y := by
  obtain ⟨zs, hrel, hbelow⟩ := h
  obtain ⟨i, hi, rfl⟩ := List.mem_iff_getElem.mp hx
  have hi' : i < zs.length := hrel.length_eq ▸ hi
  exact ⟨zs[i], C.subset hbelow (List.getElem_mem hi'), hrel.get hi hi'⟩

theorem Rel.append {xs xs' : List α} {ys ys' : List β} (h : C.Rel r xs ys)
    (h' : C.Rel r xs' ys') : C.Rel r (xs ++ xs') (ys ++ ys') := by
  obtain ⟨zs, hrel, hbelow⟩ := h
  obtain ⟨zs', hrel', hbelow'⟩ := h'
  exact ⟨zs ++ zs', List.rel_append hrel hrel', C.append hbelow hbelow'⟩

theorem Rel.flatMap {xs : List α} {ys : List β} {f : α → List γ} {g : β → List δ}
    (h : C.Rel r xs ys) (hfg : ∀ x y, y ∈ ys → r x y → C.Rel q (f x) (g y)) :
    C.Rel q (xs.flatMap f) (ys.flatMap g) := by
  obtain ⟨zs, hrel, hbelow⟩ := h
  have hsubset := C.subset hbelow
  refine Rel.below ?_ (C.flatMap g hbelow)
  -- The list between the two is taken apart; all its elements are in the second list.
  clear hbelow
  induction hrel with
  | nil => exact rel_of_forall₂ .nil
  | cons hxy _ ih =>
    obtain ⟨hy, hsubset⟩ := List.cons_subset.mp hsubset
    exact (hfg _ _ hy hxy).append (ih hsubset)

theorem Rel.filterMap {xs : List α} {ys : List β} {f : α → Option γ} {g : β → Option δ}
    (h : C.Rel r xs ys) (hfg : ∀ x y, r x y → Option.Rel q (f x) (g y)) :
    C.Rel q (xs.filterMap f) (ys.filterMap g) := by
  rw [List.filterMap_eq_flatMap_toList, List.filterMap_eq_flatMap_toList]
  exact h.flatMap fun x y _ hxy => rel_of_forall₂ (rel_toList (hfg x y hxy))

theorem Rel.filter {xs : List α} {ys : List β} {p : α → Bool} {p' : β → Bool} (h : C.Rel r xs ys)
    (hp : ∀ x y, r x y → p x = p' y) : C.Rel r (xs.filter p) (ys.filter p') := by
  have hguard : ∀ x y, r x y → Option.Rel r (Option.guard p x) (Option.guard p' y) := by
    intro x y hxy
    rw [Option.guard, Option.guard, hp x y hxy]
    cases p' y with
    | false => exact .none
    | true => exact .some hxy
  rw [← List.filterMap_eq_filter, ← List.filterMap_eq_filter]
  exact h.filterMap hguard

theorem Rel.map_below {xs : List α} {ys : List β} {f : α → γ} {g : β → γ} (h : C.Rel r xs ys)
    (hfg : ∀ x y, r x y → f x = g y) : C.Below (xs.map f) (ys.map g) := by
  obtain ⟨zs, hrel, hbelow⟩ := h
  rw [map_eq_of_forall₂ hrel fun x _ y hxy => hfg x y hxy]
  exact map g hbelow

/-- Where the second list is there, so is the first, and its elements are related to those of a list
below the second. -/
def Within (C : Comparison) (r : α → β → Prop) (x : Option (List α)) (y : Option (List β)) : Prop :=
  ∀ ys, y = some ys → ∃ xs, x = some xs ∧ C.Rel r xs ys

theorem within_some {xs : List α} {ys : List β} (h : C.Rel r xs ys) :
    C.Within r (some xs) (some ys) := by
  intro _ heq
  cases heq
  exact ⟨xs, rfl, h⟩

theorem Within.bind {x : Option (List α)} {y : Option (List β)} {f : List α → Option (List γ)}
    {g : List β → Option (List δ)} (h : C.Within r x y)
    (hfg : ∀ xs ys, C.Rel r xs ys → C.Within q (f xs) (g ys)) :
    C.Within q (x.bind f) (y.bind g) := by
  intro out hout
  obtain ⟨ys, rfl, hout⟩ := Option.bind_eq_some_iff.mp hout
  obtain ⟨xs, rfl, hrel⟩ := h ys rfl
  exact hfg xs ys hrel out hout

theorem Within.map {x : Option (List α)} {y : Option (List β)} {f : List α → List γ}
    {g : List β → List δ} (h : C.Within r x y)
    (hfg : ∀ xs ys, C.Rel r xs ys → C.Rel q (f xs) (g ys)) : C.Within q (x.map f) (y.map g) := by
  rw [Option.map_eq_bind, Option.map_eq_bind]
  exact h.bind fun xs ys hrel => within_some (hfg xs ys hrel)

theorem Rel.gather {f : α → Option (List γ)} {g : β → Option (List δ)} {xs : List α}
    {ys : List β} (h : C.Rel r xs ys) (hfg : ∀ x y, r x y → C.Within q (f x) (g y)) :
    C.Within q (gather f xs) (gather g ys) := by
  intro out hout
  -- All of the second list gives something, so all that is related to some of it does.
  obtain ⟨hall, rfl⟩ := gather_eq_some.mp hout
  refine ⟨_, gather_eq_some.mpr ⟨fun x hx => ?_, rfl⟩, h.flatMap fun x y hy hxy => ?_⟩
  · obtain ⟨y, hy, hxy⟩ := h.exists_of_mem hx
    obtain ⟨made, hmade⟩ := hall y hy
    obtain ⟨made', hmade', -⟩ := hfg x y hxy made hmade
    exact ⟨made', hmade'⟩
  · obtain ⟨made, hmade⟩ := hall y hy
    obtain ⟨made', hmade', hrel⟩ := hfg x y hxy made hmade
    rw [hmade, hmade', Option.getD_some, Option.getD_some]
    exact hrel

end Comparison

namespace Pairing

open Comparison

/-- What one side answers is below what the other side answers to a key that corresponds. -/
def Below (P : Pairing) (C : Comparison) (answers answers' : Answers) : Prop :=
  ∀ ⦃key key' : Key⦄, P.Keys key key' → C.Within P.Derivations (answers key) (answers' key')

/-- What a pairing must satisfy for a search to find what is below what another one finds in the
same sentence. -/
structure Compares (P : Pairing) (C : Comparison) (parser parser' : Parser) (sentence : Sentence) :
    Prop where
  positions : P.positions = (· = ·)
  nameOf : ∀ ⦃symbol symbol' : Nat⦄, P.symbols symbol symbol' →
    parser.grammar.nameOf symbol = parser'.grammar.nameOf symbol'
  alternatives : ∀ ⦃symbol symbol' : Nat⦄, P.symbols symbol symbol' →
    C.Rel P.Patterns (parser.grammar.alternatives symbol) (parser'.grammar.alternatives symbol')
  leavesAt (pos : Nat) :
    C.Rel P.Leaves (parser.leavesAt sentence pos) (parser'.leavesAt sentence pos)
  limit : ∀ ⦃ds ds' : List Derivation⦄, C.Rel P.Derivations ds ds' →
    C.Rel P.Derivations (parser.limit ds) (parser'.limit ds')

variable {P : Pairing} {C : Comparison} {parser parser' : Parser} {sentence : Sentence}
  {answers answers' : Answers}

theorem Compares.advance (h : P.Compares C parser parser' sentence)
    (ha : P.Below C answers answers') {strand strand' : Strand} (hs : P.Strands strand strand')
    {element element' : Element} (he : P.Elements element element') :
    C.Within P.Strands (strand.advance parser sentence answers element)
      (strand'.advance parser' sentence answers' element') := by
  have hpos : strand.pos = strand'.pos := by
    have hpositions := hs.pos
    rwa [h.positions] at hpositions
  cases he with
  | literal text =>
    have hends : Option.Rel P.positions (sentence.endOf? strand.pos text)
        (sentence.endOf? strand'.pos text) := by
      rw [h.positions, hpos]
      cases sentence.endOf? strand'.pos text with
      | none => exact .none
      | some stop => exact .some rfl
    exact within_some (rel_of_forall₂ (rel_toList (hs.literal? hends)))
  | @term term term' ht =>
    cases htarget : term.target with
    | none =>
      have htarget' := (rel_eq_none_iff ht.target).mp htarget
      simp only [Strand.advance, htarget, htarget', hpos]
      exact within_some ((h.leavesAt strand'.pos).filterMap fun _ _ hl => hs.word? ht hl)
    | some symbol =>
      obtain ⟨symbol', htarget', hsymbol⟩ := rel_of_eq_some ht.target htarget
      simp only [Strand.advance, htarget, htarget']
      exact (ha (hs.callee ht hsymbol)).map fun _ _ hds =>
        hds.filterMap fun _ _ hd => hs.phrase? ht hd

theorem Compares.advanceAll (h : P.Compares C parser parser' sentence)
    (ha : P.Below C answers answers') {elements elements' : List Element}
    (he : List.Forall₂ P.Elements elements elements') {strands strands' : List Strand}
    (hs : C.Rel P.Strands strands strands') :
    C.Within P.Strands (Strand.advanceAll parser sentence answers elements strands)
      (Strand.advanceAll parser' sentence answers' elements' strands') := by
  induction he generalizing strands strands' with
  | nil => exact within_some hs
  | cons helement _ ih =>
    rw [Strand.advanceAll, Strand.advanceAll, Strand.advanceEach_eq_gather,
      Strand.advanceEach_eq_gather]
    exact (hs.gather fun _ _ hstrand => h.advance ha hstrand helement).bind fun _ _ => ih

/-- What holds of the answers to the calls of an expansion holds of its own answer. -/
theorem Compares.expandWith (h : P.Compares C parser parser' sentence)
    (ha : P.Below C answers answers') :
    P.Below C (Key.expandWith parser sentence answers)
      (Key.expandWith parser' sentence answers') := by
  intro key key' hkey
  have hadmitted : C.Rel P.Patterns
      ((parser.grammar.alternatives key.symbol).filter (·.admits key.inherited))
      ((parser'.grammar.alternatives key'.symbol).filter (·.admits key'.inherited)) :=
    (h.alternatives hkey.symbol).filter fun pattern pattern' hpattern => by
      rw [hpattern.admits, hkey.inherited]
  rw [Key.expandWith, Key.expandWith, Key.tryEach_eq_gather, Key.tryEach_eq_gather]
  refine (hadmitted.gather fun pattern pattern' hpattern => ?_).map h.limit
  have hstart := rel_of_forall₂ (C := C) (.cons (Strands.start hkey.start hpattern) .nil)
  refine (h.advanceAll ha hpattern.elements hstart).map fun _ _ hstrands => ?_
  rw [h.nameOf hkey.symbol]
  exact hstrands.filterMap fun _ _ hstrand => hstrand.finish? hkey _

/-- If the second search answers a key, the first one answers the corresponding key, no deeper. -/
theorem Compares.plain (h : P.Compares C parser parser' sentence) (depth : Nat) :
    P.Below C (Key.plain parser sentence depth) (Key.plain parser' sentence depth) := by
  induction depth with
  | zero => exact fun _ _ _ _ hnone => by cases hnone
  | succ depth ih => exact h.expandWith ih

theorem Compares.tree_eq (h : P.Compares C parser parser' sentence) {d d' : Derivation}
    (hd : P.Derivations d d') : d.tree = d'.tree := by
  have hmoved : d.tree.move id = d'.tree.move id :=
    hd.move_eq fun p p' hp => by rwa [h.positions] at hp
  rwa [Tree.move_id, Tree.move_id] at hmoved

theorem Compares.leaf_eq (h : P.Compares C parser parser' sentence) {leaf leaf' : Leaf}
    (hl : P.Leaves leaf leaf') : leaf = leaf' := by
  have htree := h.tree_eq (.word hl)
  rw [Derivation.tree_word, Derivation.tree_word] at htree
  exact Tree.leaf.inj htree

theorem Compares.wordTrees (h : P.Compares C parser parser' sentence) (name : Text) (pos : Nat)
    (inherited : Features) :
    C.Below (parser.wordTrees sentence name pos inherited)
      (parser'.wordTrees sentence name pos inherited) := by
  refine ((h.leavesAt pos).filter fun leaf leaf' hl => ?_).map_below fun leaf leaf' hl => ?_
  · rw [h.leaf_eq hl]
  · rw [h.leaf_eq hl]

/-- Whatever was asked before, what the first search finds for a request is below what the second
one finds, if the second one meets no left recursion. -/
theorem Compares.seen (h : P.Compares C parser parser' sentence) {request : Request}
    (hstart : Option.Rel P.symbols (parser.grammar.indexOf? request.start)
      (parser'.grammar.indexOf? request.start)) (hg : request.Grounded parser' sentence)
    (requests requests' : List Request) :
    (((Analysis.ofSentence parser sentence).afterAll requests).seen request).1 =
        (((Analysis.ofSentence parser' sentence).afterAll requests').seen request).1 ∧
      C.Below (((Analysis.ofSentence parser sentence).afterAll requests).seen request).2
        (((Analysis.ofSentence parser' sentence).afterAll requests').seen request).2 := by
  by_cases hlt : sentence.length < request.offset sentence
  · rw [Analysis.seen_beyond parser requests request hlt,
      Analysis.seen_beyond parser' requests' request hlt]
    exact ⟨rfl, C.refl []⟩
  have ho := Nat.not_lt.mp hlt
  cases hs : parser.grammar.indexOf? request.start with
  | none =>
    have hs' := (rel_eq_none_iff hstart).mp hs
    rw [Analysis.seen_words parser requests request hs ho,
      Analysis.seen_words parser' requests' request hs' ho]
    exact ⟨rfl, Comparison.filter _ (h.wordTrees _ _ _)⟩
  | some symbol =>
    obtain ⟨symbol', hs', hsymbol⟩ := rel_of_eq_some hstart hs
    obtain ⟨depth, found', hfound'⟩ := hg symbol' hs' ho
    have hkey : P.Keys (request.key sentence symbol) (request.key sentence symbol') :=
      ⟨hsymbol, by rw [h.positions]; rfl, rfl⟩
    obtain ⟨found, hfound, hrel⟩ := h.plain depth hkey found' hfound'
    rw [Analysis.seen_plain parser requests request hs ho hfound,
      Analysis.seen_plain parser' requests' request hs' ho hfound']
    exact ⟨rfl, Comparison.filter _ (hrel.map_below fun d d' hd => h.tree_eq hd)⟩

end Pairing

end Concord
