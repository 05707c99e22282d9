import Concord.Proofs.Frame

namespace Concord

namespace Strand

/-- The strand comes through an element as another strand. -/
inductive Passes (parser : Parser) (sentence : Sentence) (answers : Key → Derivation → Prop)
    (strand : Strand) : Element → Strand → Prop where
  | literal {text : Text} {next : Strand} (h : strand.literal? sentence text = some next) :
      Passes parser sentence answers strand (.literal text) next
  | word {term : Term} {leaf : Leaf} {next : Strand} (ht : term.target = none)
      (hl : leaf ∈ parser.leavesAt sentence strand.pos) (h : strand.word? term leaf = some next) :
      Passes parser sentence answers strand (.term term) next
  | phrase {term : Term} {symbol : Nat} {part : Derivation} {next : Strand}
      (ht : term.target = some symbol) (ha : answers (strand.callee symbol term) part)
      (h : strand.phrase? term part = some next) :
      Passes parser sentence answers strand (.term term) next

/-- The strand comes through elements, one after the other. -/
def PassesAll (parser : Parser) (sentence : Sentence) (answers : Key → Derivation → Prop) :
    List Element → Strand → Strand → Prop
  | [], strand, last => last = strand
  | element :: elements, strand, last =>
    ∃ next, strand.Passes parser sentence answers element next ∧
      PassesAll parser sentence answers elements next last

end Strand

/-- A derivation of the key follows one of its alternatives, given what is answered to its calls. -/
def Key.Builds (parser : Parser) (sentence : Sentence) (answers : Key → Derivation → Prop)
    (key : Key) (d : Derivation) : Prop :=
  ∃ pattern ∈ parser.grammar.alternatives key.symbol,
    pattern.admits key.inherited = true ∧ ∃ strand,
      Strand.PassesAll parser sentence answers pattern.elements (.start key.start pattern) strand ∧
      strand.finish? (parser.grammar.nameOf key.symbol) key = some d

def Key.IsKeyOf (key : Key) (d : Derivation) : Prop :=
  d.key? = some key

def Answers.Has (answers : Answers) (key : Key) (d : Derivation) : Prop :=
  ∃ ds, answers key = some ds ∧ d ∈ ds

variable {parser : Parser} {sentence : Sentence}

namespace Strand

variable {relation relation' : Key → Derivation → Prop} {answers : Answers}

theorem Passes.prefix_parts {strand next : Strand} {element : Element}
    (h : strand.Passes parser sentence relation element next) :
    strand.parts <+: next.parts := by
  cases h with
  | literal h => exact (parts_of_literal? h).symm ▸ List.prefix_rfl
  | word ht hl h => exact ⟨_, (parts_of_word? h).symm⟩
  | phrase ht ha h => exact ⟨_, (parts_of_phrase? h).symm⟩

theorem PassesAll.prefix_parts {elements : List Element} {strand last : Strand}
    (h : PassesAll parser sentence relation elements strand last) :
    strand.parts <+: last.parts := by
  induction elements generalizing strand with
  | nil =>
    cases h
    exact List.prefix_rfl
  | cons element elements ih =>
    obtain ⟨next, hnext, hlast⟩ := h
    exact hnext.prefix_parts.trans (ih hlast)

theorem Passes.mono {strand next : Strand} {element : Element}
    (h : strand.Passes parser sentence relation element next)
    (himp : ∀ key d, d ∈ next.parts → relation key d → relation' key d) :
    strand.Passes parser sentence relation' element next := by
  cases h with
  | literal h => exact .literal h
  | word ht hl h => exact .word ht hl h
  | phrase ht ha h => exact .phrase ht (himp _ _ (by simp [parts_of_phrase? h]) ha) h

/-- Only what is answered with the parts of the last strand matters. -/
theorem PassesAll.mono {elements : List Element} {strand last : Strand}
    (h : PassesAll parser sentence relation elements strand last)
    (himp : ∀ key d, d ∈ last.parts → relation key d → relation' key d) :
    PassesAll parser sentence relation' elements strand last := by
  induction elements generalizing strand with
  | nil => exact h
  | cons element elements ih =>
    obtain ⟨next, hnext, hlast⟩ := h
    have hparts := hlast.prefix_parts.subset
    exact ⟨next, hnext.mono fun key d hd => himp key d (hparts hd), ih hlast⟩

theorem passesAll_append {elements elements' : List Element} {strand last : Strand} :
    PassesAll parser sentence relation (elements ++ elements') strand last ↔
      ∃ middle, PassesAll parser sentence relation elements strand middle ∧
        PassesAll parser sentence relation elements' middle last := by
  induction elements generalizing strand with
  | nil => simp [PassesAll]
  | cons element elements ih =>
    simp only [List.cons_append, PassesAll, ih]
    constructor
    · rintro ⟨next, hnext, middle, hm, hl⟩
      exact ⟨middle, ⟨next, hnext, hm⟩, hl⟩
    · rintro ⟨middle, ⟨next, hnext, hm⟩, hl⟩
      exact ⟨next, hnext, middle, hm, hl⟩

theorem PassesAll.snoc {elements : List Element} {element : Element} {strand middle last : Strand}
    (h : PassesAll parser sentence relation elements strand middle)
    (hl : middle.Passes parser sentence relation element last) :
    PassesAll parser sentence relation (elements ++ [element]) strand last :=
  passesAll_append.mpr ⟨middle, h, last, hl, rfl⟩

theorem mem_advance {strand : Strand} {element : Element} {next : List Strand}
    (h : strand.advance parser sentence answers element = some next) {s : Strand} :
    s ∈ next ↔ strand.Passes parser sentence answers.Has element s := by
  cases element with
  | literal text =>
    cases h
    rw [Option.mem_toList]
    exact ⟨.literal, fun hp => by cases hp with | literal h => exact h⟩
  | term term =>
    cases ht : term.target with
    | none =>
      simp only [advance, ht, Option.some.injEq] at h
      subst h
      rw [List.mem_filterMap]
      constructor
      · rintro ⟨leaf, hl, hs⟩
        exact .word ht hl hs
      · intro hp
        cases hp with
        | word _ hl hs => exact ⟨_, hl, hs⟩
        | phrase ht' => simp [ht] at ht'
    | some symbol =>
      simp only [advance, ht] at h
      obtain ⟨ds, hds, rfl⟩ := Option.map_eq_some_iff.mp h
      rw [List.mem_filterMap]
      constructor
      · rintro ⟨part, hp, hs⟩
        exact .phrase ht ⟨ds, hds, hp⟩ hs
      · intro hp
        cases hp with
        | word ht' => simp [ht] at ht'
        | phrase ht' ha hs =>
          rw [ht] at ht'
          cases ht'
          obtain ⟨ds', hds', hp⟩ := ha
          rw [hds] at hds'
          cases hds'
          exact ⟨_, hp, hs⟩

theorem mem_advanceEach {element : Element} {strands next : List Strand}
    (h : advanceEach parser sentence answers element strands = some next) {s : Strand} :
    s ∈ next ↔ ∃ strand ∈ strands, strand.Passes parser sentence answers.Has element s := by
  rw [advanceEach_eq_gather] at h
  exact mem_gather h fun strand _ made hmade s => mem_advance hmade

theorem mem_advanceAll {elements : List Element} {strands last : List Strand}
    (h : advanceAll parser sentence answers elements strands = some last) {s : Strand} :
    s ∈ last ↔ ∃ strand ∈ strands,
      PassesAll parser sentence answers.Has elements strand s := by
  induction elements generalizing strands with
  | nil =>
    cases h
    simp [PassesAll]
  | cons element elements ih =>
    obtain ⟨next, hnext, h⟩ := Option.bind_eq_some_iff.mp h
    rw [ih h]
    constructor
    · rintro ⟨middle, hm, hs⟩
      obtain ⟨strand, hstrand, hp⟩ := (mem_advanceEach hnext).mp hm
      exact ⟨strand, hstrand, middle, hp, hs⟩
    · rintro ⟨strand, hstrand, middle, hp, hs⟩
      exact ⟨middle, (mem_advanceEach hnext).mpr ⟨strand, hstrand, hp⟩, hs⟩

end Strand

namespace Key

variable {relation relation' : Key → Derivation → Prop} {answers : Answers}

theorem Builds.mono {key : Key} {d : Derivation} (h : key.Builds parser sentence relation d)
    (himp : ∀ callee part, part ∈ d.parts → relation callee part → relation' callee part) :
    key.Builds parser sentence relation' d := by
  obtain ⟨pattern, hp, hadmits, strand, hpasses, hfinish⟩ := h
  have hparts := (Strand.finish?_eq_some hfinish).1
  exact ⟨pattern, hp, hadmits, strand, hpasses.mono (hparts ▸ himp), hfinish⟩

theorem Builds.key?_eq {key : Key} {d : Derivation}
    (h : key.Builds parser sentence relation d) : d.key? = some key := by
  obtain ⟨pattern, hp, hadmits, strand, hpasses, hfinish⟩ := h
  exact (Strand.finish?_eq_some hfinish).2.1

theorem mem_tryEach {key : Key} {patterns : List Pattern} {ds : List Derivation}
    (h : key.tryEach parser sentence answers patterns = some ds) {d : Derivation} :
    d ∈ ds ↔ ∃ pattern ∈ patterns, ∃ strand,
      Strand.PassesAll parser sentence answers.Has pattern.elements (.start key.start pattern)
        strand ∧ strand.finish? (parser.grammar.nameOf key.symbol) key = some d := by
  rw [tryEach_eq_gather] at h
  rw [mem_gather h fun pattern _ made hmade d => ?_]
  obtain ⟨strands, hstrands, rfl⟩ := Option.map_eq_some_iff.mp hmade
  simp only [List.mem_filterMap, Strand.mem_advanceAll hstrands, List.mem_singleton,
    exists_eq_left]

/-- With a cap or without, the derivations of a key are among the ones that it builds. -/
theorem builds_of_mem_expandWith {key : Key} {ds : List Derivation}
    (h : key.expandWith parser sentence answers = some ds) {d : Derivation} (hd : d ∈ ds) :
    key.Builds parser sentence answers.Has d := by
  obtain ⟨all, hall, rfl⟩ := Option.map_eq_some_iff.mp h
  have hmem : d ∈ all := by
    unfold Parser.limit at hd
    split at hd
    · exact hd
    · exact List.mem_of_mem_take hd
  obtain ⟨pattern, hp, hstrand⟩ := (mem_tryEach hall).mp hmem
  obtain ⟨hmem, hadmits⟩ := List.mem_filter.mp hp
  exact ⟨pattern, hmem, hadmits, hstrand⟩

/-- Without a cap, the derivations of a key are the ones that it builds. -/
theorem mem_expandWith {key : Key} {ds : List Derivation} (hcap : parser.cap = none)
    (h : key.expandWith parser sentence answers = some ds) {d : Derivation} :
    d ∈ ds ↔ key.Builds parser sentence answers.Has d := by
  obtain ⟨all, hall, rfl⟩ := Option.map_eq_some_iff.mp h
  have hlimit : parser.limit all = all := by simp [Parser.limit, hcap]
  rw [hlimit, mem_tryEach hall]
  simp only [List.mem_filter, Builds, and_assoc]

end Key

namespace Strand

variable {relation : Key → Derivation → Prop}

/-- On its way through elements, the strand comes with some parts to one that a part stands for. -/
def ComesTo (parser : Parser) (sentence : Sentence) (relation : Key → Derivation → Prop)
    (elements : List Element) (strand : Strand) (before : List Derivation) (part : Derivation) :
    Prop :=
  ∃ front element back middle next, elements = front ++ element :: back ∧
    PassesAll parser sentence relation front strand middle ∧
    middle.parts = strand.parts ++ before ∧
    middle.Passes parser sentence relation element next ∧
    next.parts = strand.parts ++ before ++ [part]

/-- A strand that ends up with a part has come to a term that the part stands for. -/
theorem PassesAll.split {elements : List Element} {strand last : Strand}
    (h : PassesAll parser sentence relation elements strand last) {before later : List Derivation}
    {part : Derivation} (hparts : last.parts = strand.parts ++ before ++ part :: later) :
    strand.ComesTo parser sentence relation elements before part := by
  induction elements generalizing strand before with
  | nil =>
    cases h
    simp at hparts
  | cons element elements ih =>
    obtain ⟨next, hnext, hlast⟩ := h
    have hlonger : ∀ before', next.parts ++ before' = strand.parts ++ before →
        strand.ComesTo parser sentence relation (element :: elements) before part := by
      intro before' heq
      rw [← heq] at hparts
      obtain ⟨front, e, back, middle, n, rfl, hfront, hmiddle, hpass, hn⟩ := ih hlast hparts
      rw [heq] at hmiddle hn
      exact ⟨element :: front, e, back, middle, n, rfl, ⟨next, hnext, hfront⟩, hmiddle, hpass, hn⟩
    have hone : ∀ new, next.parts = strand.parts ++ [new] →
        strand.ComesTo parser sentence relation (element :: elements) before part := by
      intro new hnew
      cases before with
      | cons first before =>
        have hprefix := hlast.prefix_parts
        rw [hnew, hparts, List.append_assoc, List.prefix_append_right_inj, List.cons_append,
          List.cons_prefix_cons] at hprefix
        exact hlonger before (by rw [hnew, hprefix.1]; simp)
      | nil =>
        have hprefix := hlast.prefix_parts
        rw [hnew, hparts, List.append_assoc, List.prefix_append_right_inj, List.nil_append,
          List.cons_prefix_cons] at hprefix
        exact ⟨[], element, elements, strand, next, rfl, rfl, by simp, hnext,
          by rw [hnew, hprefix.1]; simp⟩
    cases hnext with
    | literal hl => exact hlonger before (by rw [parts_of_literal? hl])
    | word ht hl hw => exact hone _ (parts_of_word? hw)
    | phrase ht ha hp => exact hone _ (parts_of_phrase? hp)

end Strand

end Concord
