import Concord.Proofs.Passage
import Mathlib.Logic.Relation

namespace Concord

/-- On its way through elements, the strand comes to a term for which the callee is asked. -/
def Strand.Asks (parser : Parser) (sentence : Sentence) (relation : Key → Derivation → Prop) :
    Strand → List Element → Key → Prop
  | _, [], _ => False
  | strand, element :: elements, callee =>
    (∃ term symbol, element = .term term ∧ term.target = some symbol ∧
      strand.callee symbol term = callee) ∨
    ∃ next, strand.Passes parser sentence relation element next ∧
      Asks parser sentence relation next elements callee

namespace Key

/-- A strand of an alternative of the key comes to a term for which the callee is asked. -/
def Calls (parser : Parser) (sentence : Sentence) (relation : Key → Derivation → Prop)
    (key callee : Key) : Prop :=
  ∃ pattern ∈ parser.grammar.alternatives key.symbol, pattern.admits key.inherited = true ∧
    (Strand.start key.start pattern).Asks parser sentence relation pattern.elements callee

/-- The plain search finds the derivation, however deep it has to go. -/
def Finds (parser : Parser) (sentence : Sentence) (key : Key) (d : Derivation) : Prop :=
  ∃ depth, Answers.Has (plain parser sentence depth) key d

/-- The plain search for a key expands another one on its way, or it is this key. -/
def Visits (parser : Parser) (sentence : Sentence) : Key → Key → Prop :=
  Relation.ReflTransGen (Calls parser sentence (Finds parser sentence))

end Key

variable {parser : Parser} {sentence : Sentence} {answers answers' : Answers}

theorem Answers.Has.mem {key : Key} {d : Derivation} {found : List Derivation}
    (h : answers.Has key d) (hfound : answers key = some found) : d ∈ found := by
  obtain ⟨ds, hds, hd⟩ := h
  rw [hfound] at hds
  cases hds
  exact hd

namespace Strand

theorem Asks.mono {relation relation' : Key → Derivation → Prop} {elements : List Element}
    {strand : Strand} {callee : Key} (h : strand.Asks parser sentence relation elements callee)
    (himp : ∀ key d, relation key d → relation' key d) :
    strand.Asks parser sentence relation' elements callee := by
  induction elements generalizing strand with
  | nil => exact h
  | cons element elements ih =>
    refine h.imp_right ?_
    rintro ⟨next, hpass, hasks⟩
    exact ⟨next, hpass.mono fun key d _ => himp key d, ih hasks⟩

theorem asks_of_passesAll {relation : Key → Derivation → Prop} {front : List Element}
    {term : Term} {strand middle : Strand}
    (h : PassesAll parser sentence relation front strand middle) {symbol : Nat}
    (ht : term.target = some symbol) (back : List Element) :
    strand.Asks parser sentence relation (front ++ .term term :: back)
      (middle.callee symbol term) := by
  induction front generalizing strand with
  | nil =>
    cases h
    exact .inl ⟨term, symbol, rfl, ht, rfl⟩
  | cons element front ih =>
    obtain ⟨next, hnext, h⟩ := h
    exact .inr ⟨next, hnext, ih h⟩

theorem exists_advance {strand : Strand} {element : Element}
    (h : ∀ term symbol, element = .term term → term.target = some symbol →
      ∃ found, answers (strand.callee symbol term) = some found) :
    ∃ next, strand.advance parser sentence answers element = some next := by
  cases element with
  | literal text => exact ⟨_, rfl⟩
  | term term =>
    cases ht : term.target with
    | none => exact ⟨_, by simp only [advance, ht]; rfl⟩
    | some symbol =>
      obtain ⟨found, hfound⟩ := h term symbol rfl ht
      exact ⟨_, by simp only [advance, ht, hfound, Option.map_some]; rfl⟩

theorem exists_advanceAll {elements : List Element} {strands : List Strand}
    (h : ∀ strand ∈ strands, ∀ callee,
      strand.Asks parser sentence answers.Has elements callee →
        ∃ found, answers callee = some found) :
    ∃ last, advanceAll parser sentence answers elements strands = some last := by
  induction elements generalizing strands with
  | nil => exact ⟨strands, rfl⟩
  | cons element elements ih =>
    obtain ⟨next, hnext⟩ :
        ∃ next, advanceEach parser sentence answers element strands = some next := by
      rw [advanceEach_eq_gather]
      exact exists_gather fun strand hs => exists_advance fun term symbol he ht =>
        h strand hs _ (.inl ⟨term, symbol, he, ht, rfl⟩)
    rw [advanceAll, hnext, Option.bind_some]
    refine ih fun later hlater callee hasks => ?_
    obtain ⟨strand, hs, hpass⟩ := (mem_advanceEach hnext).mp hlater
    exact h strand hs callee (.inr ⟨later, hpass, hasks⟩)

/-- Where strands come through, all that they ask for is answered, also on the ways of a relation
that agrees with the answers. -/
theorem answered_of_asks {relation : Key → Derivation → Prop}
    (hagree : ∀ key found d, answers key = some found → relation key d → d ∈ found)
    {elements : List Element} {strands last : List Strand}
    (h : advanceAll parser sentence answers elements strands = some last) {strand : Strand}
    (hs : strand ∈ strands) {callee : Key}
    (hasks : strand.Asks parser sentence relation elements callee) :
    ∃ found, answers callee = some found := by
  induction elements generalizing strands strand with
  | nil => cases hasks
  | cons element elements ih =>
    obtain ⟨next, hnext, h⟩ := Option.bind_eq_some_iff.mp h
    have hfirst := hnext
    rw [advanceEach_eq_gather] at hfirst
    obtain ⟨made, hmade⟩ := (gather_eq_some.mp hfirst).1 strand hs
    have hanswer : ∀ term symbol, element = .term term → term.target = some symbol →
        ∃ found, answers (strand.callee symbol term) = some found := by
      rintro term symbol rfl ht
      simp only [advance, ht] at hmade
      obtain ⟨found, hfound, -⟩ := Option.map_eq_some_iff.mp hmade
      exact ⟨found, hfound⟩
    rcases hasks with ⟨term, symbol, he, ht, rfl⟩ | ⟨later, hpass, hasks⟩
    · exact hanswer term symbol he ht
    · refine ih h ((mem_advanceEach hnext).mpr ⟨strand, hs, ?_⟩) hasks
      cases hpass with
      | literal hl => exact .literal hl
      | word ht hl hw => exact .word ht hl hw
      | phrase ht ha hp =>
        obtain ⟨found, hfound⟩ := hanswer _ _ rfl ht
        exact .phrase ht ⟨found, hfound, hagree _ found _ hfound ha⟩ hp

theorem advance_of_calls {strand : Strand} {element : Element} {next : List Strand}
    (h : strand.advance parser sentence answers element = some next)
    (hcalls : ∀ term symbol, element = .term term → term.target = some symbol →
      ∀ found, answers (strand.callee symbol term) = some found →
        answers' (strand.callee symbol term) = some found) :
    strand.advance parser sentence answers' element = some next := by
  cases element with
  | literal text => exact h
  | term term =>
    cases ht : term.target with
    | none =>
      simp only [advance, ht] at h ⊢
      exact h
    | some symbol =>
      simp only [advance, ht] at h ⊢
      obtain ⟨found, hfound, rfl⟩ := Option.map_eq_some_iff.mp h
      rw [hcalls term symbol rfl ht found hfound, Option.map_some]

theorem advanceEach_of_calls {element : Element} {strands next : List Strand}
    (h : advanceEach parser sentence answers element strands = some next)
    (hcalls : ∀ strand ∈ strands, ∀ term symbol, element = .term term →
      term.target = some symbol → ∀ found, answers (strand.callee symbol term) = some found →
        answers' (strand.callee symbol term) = some found) :
    advanceEach parser sentence answers' element strands = some next := by
  rw [advanceEach_eq_gather] at h ⊢
  exact gather_mono h fun strand hs made hmade => advance_of_calls hmade (hcalls strand hs)

theorem advanceAll_of_calls {elements : List Element} {strands last : List Strand}
    (h : advanceAll parser sentence answers elements strands = some last)
    (hcalls : ∀ strand ∈ strands, ∀ callee,
      strand.Asks parser sentence answers.Has elements callee →
        ∀ found, answers callee = some found → answers' callee = some found) :
    advanceAll parser sentence answers' elements strands = some last := by
  induction elements generalizing strands with
  | nil => exact h
  | cons element elements ih =>
    obtain ⟨next, hnext, h⟩ := Option.bind_eq_some_iff.mp h
    have hfirst : advanceEach parser sentence answers' element strands = some next :=
      advanceEach_of_calls hnext fun strand hs term symbol he ht =>
        hcalls strand hs _ (.inl ⟨term, symbol, he, ht, rfl⟩)
    rw [advanceAll, hfirst, Option.bind_some]
    refine ih h fun later hlater callee hasks => ?_
    obtain ⟨strand, hs, hpass⟩ := (mem_advanceEach hnext).mp hlater
    exact hcalls strand hs callee (.inr ⟨later, hpass, hasks⟩)

end Strand

namespace Key

theorem Calls.mono {relation relation' : Key → Derivation → Prop} {key callee : Key}
    (h : key.Calls parser sentence relation callee)
    (himp : ∀ k d, relation k d → relation' k d) :
    key.Calls parser sentence relation' callee := by
  obtain ⟨pattern, hp, hadmits, hasks⟩ := h
  exact ⟨pattern, hp, hadmits, hasks.mono himp⟩

theorem tryEach_of_calls {key : Key} {patterns : List Pattern} {ds : List Derivation}
    (h : key.tryEach parser sentence answers patterns = some ds)
    (hcalls : ∀ pattern ∈ patterns, ∀ callee, (Strand.start key.start pattern).Asks
      parser sentence answers.Has pattern.elements callee → ∀ found, answers callee = some found →
        answers' callee = some found) :
    key.tryEach parser sentence answers' patterns = some ds := by
  rw [tryEach_eq_gather] at h ⊢
  refine gather_mono h fun pattern hp made hmade => ?_
  obtain ⟨strands, hstrands, rfl⟩ := Option.map_eq_some_iff.mp hmade
  rw [Strand.advanceAll_of_calls hstrands (List.forall_mem_singleton.mpr (hcalls pattern hp)),
    Option.map_some]

/-- Answers that keep what is answered to the calls of an expansion keep what it answers. -/
theorem expandWith_of_calls {key : Key} {ds : List Derivation}
    (h : key.expandWith parser sentence answers = some ds)
    (hcalls : ∀ callee, key.Calls parser sentence answers.Has callee →
      ∀ found, answers callee = some found → answers' callee = some found) :
    key.expandWith parser sentence answers' = some ds := by
  obtain ⟨all, hall, rfl⟩ := Option.map_eq_some_iff.mp h
  rw [expandWith, tryEach_of_calls hall fun pattern hp callee hasks => ?_, Option.map_some]
  obtain ⟨hmem, hadmits⟩ := List.mem_filter.mp hp
  exact hcalls callee ⟨pattern, hmem, hadmits, hasks⟩

/-- An expansion is answered if all its calls are. -/
theorem exists_expandWith {key : Key}
    (h : ∀ callee, key.Calls parser sentence answers.Has callee →
      ∃ found, answers callee = some found) :
    ∃ ds, key.expandWith parser sentence answers = some ds := by
  obtain ⟨ds, hds⟩ : ∃ ds, key.tryEach parser sentence answers
      ((parser.grammar.alternatives key.symbol).filter (·.admits key.inherited)) = some ds := by
    rw [tryEach_eq_gather]
    refine exists_gather fun pattern hp => ?_
    obtain ⟨hmem, hadmits⟩ := List.mem_filter.mp hp
    obtain ⟨strands, hstrands⟩ := Strand.exists_advanceAll (List.forall_mem_singleton.mpr
      fun callee hasks => h callee ⟨pattern, hmem, hadmits, hasks⟩)
    exact ⟨_, by rw [hstrands, Option.map_some]⟩
  exact ⟨_, by rw [expandWith, hds, Option.map_some]⟩

/-- All calls of an expansion that is answered are answered, also the calls on the ways of a
relation that agrees with the answers. -/
theorem answered_of_calls {relation : Key → Derivation → Prop}
    (hagree : ∀ key found d, answers key = some found → relation key d → d ∈ found) {key : Key}
    {ds : List Derivation} (h : key.expandWith parser sentence answers = some ds) {callee : Key}
    (hcall : key.Calls parser sentence relation callee) :
    ∃ found, answers callee = some found := by
  obtain ⟨pattern, hp, hadmits, hasks⟩ := hcall
  obtain ⟨all, hall, -⟩ := Option.map_eq_some_iff.mp h
  rw [tryEach_eq_gather] at hall
  obtain ⟨made, hmade⟩ :=
    (gather_eq_some.mp hall).1 pattern (List.mem_filter.mpr ⟨hp, hadmits⟩)
  obtain ⟨strands, hstrands, -⟩ := Option.map_eq_some_iff.mp hmade
  exact Strand.answered_of_asks hagree hstrands List.mem_cons_self hasks

end Key

end Concord
