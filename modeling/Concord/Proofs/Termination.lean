import Concord.Proofs.History

namespace Concord

namespace Search

variable {parser : Parser} {sentence : Sentence} {search last next : Search} {key : Key}

/-- The search after a number of steps, if it goes on for so long. -/
def after (parser : Parser) (sentence : Sentence) : Nat → Search → Option Search
  | 0, search => some search
  | n + 1, search =>
    match search.step parser sentence with
    | .running next => next.after parser sentence n
    | .finished _ _ => none

/-- A search that began with the expansion of a key: it goes on for some number of steps and no
further, and then the expansion of the key is alone, has no more alternatives, and gives its
results. Until then, no key is on the stack twice. -/
structure Ends (parser : Parser) (sentence : Sentence) (begun : Search) (key : Key)
    (trees : List Tree) : Prop where
  finished : ∃ count last root final,
    (∀ n, (begun.after parser sentence n).isSome = true ↔ n ≤ count) ∧
    begun.after parser sentence count = some last ∧
    last.stack = [root] ∧ root.key = key ∧ root.alternatives = [] ∧ root.results = trees ∧
    last.step parser sentence = .finished trees final
  nodup (n : Nat) (search : Search) : begun.after parser sentence n = some search →
    (search.stack.map Expansion.key).Nodup
  height (n : Nat) (search : Search) : begun.after parser sentence n = some search →
    search.stack.length ≤ parser.grammar.size * (sentence.length + 1) * 648

theorem after_succ_of_follows (h : Follows parser sentence next search) (n : Nat) :
    search.after parser sentence (n + 1) = next.after parser sentence n := by
  rw [after, h]

theorem after_add (n m : Nat) (search : Search) :
    search.after parser sentence (n + m) =
      (search.after parser sentence n).bind (after parser sentence m) := by
  induction n generalizing search with
  | zero => rw [Nat.zero_add, after, Option.bind_some]
  | succ n ih =>
    rw [Nat.succ_add, after, after]
    cases search.step parser sentence with
    | running next => exact ih next
    | finished trees final => rfl

open Relation in
theorem exists_after_of_follows (h : ReflTransGen (Follows parser sentence) last search) :
    ∃ count, search.after parser sentence count = some last := by
  induction h with
  | refl => exact ⟨0, rfl⟩
  | tail _ hstep ih =>
    obtain ⟨count, hcount⟩ := ih
    exact ⟨count + 1, (after_succ_of_follows hstep count).trans hcount⟩

/-- A search that has ended goes on for exactly as many steps as lead to its end. -/
theorem isSome_after_iff {count : Nat} {final : Search} {trees : List Tree}
    (hlast : search.after parser sentence count = some last)
    (hstep : last.step parser sentence = .finished trees final) (n : Nat) :
    (search.after parser sentence n).isSome = true ↔ n ≤ count := by
  constructor
  · intro hn
    rcases Nat.lt_or_ge count n with hlt | hle
    · obtain ⟨m, rfl⟩ := Nat.exists_eq_add_of_lt hlt
      rw [Nat.add_assoc, after_add, hlast, Option.bind_some, after, hstep] at hn
      exact absurd hn Bool.false_ne_true
    · exact hle
  · intro hle
    obtain ⟨m, rfl⟩ := Nat.exists_eq_add_of_le hle
    rw [after_add] at hlast
    obtain ⟨next, hnext, -⟩ := Option.bind_eq_some_iff.mp hlast
    rw [hnext, Option.isSome_some]

theorem after_succ_eq_some {n : Nat} : search.after parser sentence (n + 1) = some next ↔
    ∃ last, search.after parser sentence n = some last ∧
      last.step parser sentence = .running next := by
  rw [after_add, Option.bind_eq_some_iff]
  refine exists_congr fun last => and_congr_right fun _ => ?_
  rw [after]
  cases last.step parser sentence with
  | running next' => simp [after]
  | finished trees final => simp

/-- What each step keeps holds after any number of steps. -/
theorem after_preserves {P : Search → Prop}
    (hkeeps : ∀ last next, P last → last.step parser sentence = .running next → P next)
    (h : P search) {n : Nat} (hnext : search.after parser sentence n = some next) : P next := by
  induction n generalizing next with
  | zero =>
    cases hnext
    exact h
  | succ n ih =>
    obtain ⟨last, hlast, hstep⟩ := after_succ_eq_some.mp hnext
    exact hkeeps last next (ih hlast) hstep

theorem Valid.after (valid : search.Valid parser sentence) {n : Nat}
    (h : search.after parser sentence n = some next) : next.Valid parser sentence :=
  after_preserves (fun _ _ valid hstep => (valid.step hstep).1) valid h

theorem ends_of_shows {memo : Memo} {words : Array (Option (List Leaf))} {t : Table}
    (hrange : key.InRange parser sentence) (hnew : key ∉ memo) (hmemo : memo.Shows t [])
    (hwords : Faithful parser sentence words) :
    ((⟨memo, words, []⟩ : Search).enter parser.grammar key).Ends parser sentence key
      (treesOf parser sentence memo words key hrange hnew).1 := by
  have hvalid : ((⟨memo, words, []⟩ : Search).enter parser.grammar key).Valid parser sentence :=
    (valid_of_stack_nil rfl).enter hrange hnew (by simp)
  refine ⟨?_, fun n search hn => (hvalid.after hn).nodup, fun n search hn => ?_⟩
  · obtain ⟨t', f', last, hrun, hfollows, hstack, -, -, hstep⟩ :=
      exists_finished hrange hnew hmemo hwords
    obtain ⟨count, hcount⟩ := exists_after_of_follows hfollows
    rw [treesOf_of_finished hrange hnew hfollows hstep]
    exact ⟨count, last, f'.expansion, _, isSome_after_iff hcount hstep, hcount, hstack,
      hrun.key_call, hrun.alternatives_eq, rfl, hstep⟩
  · rw [← Key.length_every]
    exact (hvalid.after hn).length_stack_le

end Search

/-- Each of two symbols stands for the other, and the first also for nothing. -/
def Grammar.cyclic : Grammar where
  symbols := #[
    ⟨['a'], [⟨['{', 'b', '}'], none, [.term ⟨some ['b'], [], some 1⟩], 0⟩, ⟨[], none, [], 0⟩]⟩,
    ⟨['b'], [⟨['{', 'a', '}'], none, [.term ⟨some ['a'], [], some 0⟩], 0⟩]⟩]
  undefined := []

namespace Analysis

theorem treesOf_of_done {analysis : Analysis} {key : Key} {trees : List Tree}
    (h : analysis.memo[key]? = some (.done trees)) :
    analysis.treesOf key = (trees, analysis) := by
  obtain ⟨parser, sentence, memo, words, results⟩ := analysis
  rw [treesOf]
  split
  next found hdone =>
    cases h.symm.trans hdone
    rfl
  next depth hactive => cases h.symm.trans hactive
  next hnone => cases h.symm.trans hnone

section expansion

variable {parser : Parser} {sentence : Sentence} {memo : Memo}
variable {words : Array (Option (List Leaf))} {results : List Tree} {key : Key}

theorem treesOf_of_none (h : memo[key]? = none) (hrange : key.InRange parser sentence) :
    treesOf ⟨parser, sentence, memo, words, results⟩ key =
      let (trees, search) :=
        Search.treesOf parser sentence memo words key hrange (Search.not_mem_of_getElem? h)
      (trees, ⟨parser, sentence, search.memo, search.words, results⟩) := by
  rw [treesOf]
  split
  next found hdone => cases h.symm.trans hdone
  next depth hactive => cases h.symm.trans hactive
  next hnone => rw [dif_pos hrange]

theorem fst_treesOf_of_none (h : memo[key]? = none) (hrange : key.InRange parser sentence) :
    (treesOf ⟨parser, sentence, memo, words, results⟩ key).1 =
      (Search.treesOf parser sentence memo words key hrange (Search.not_mem_of_getElem? h)).1 := by
  rw [treesOf_of_none h hrange]

end expansion

/-- After any requests, the derivations of a key are there already, or the search for them ends. -/
theorem treesOf_ends (parser : Parser) (sentence : Sentence) (requests : List Request) {key : Key}
    (hrange : key.InRange parser sentence) :
    let analysis := (ofSentence parser sentence).afterAll requests
    (∃ trees, analysis.memo[key]? = some (.done trees) ∧
      analysis.treesOf key = (trees, analysis)) ∨
    (analysis.memo[key]? = none ∧
      ((⟨analysis.memo, analysis.words, []⟩ : Search).enter parser.grammar key).Ends
        parser sentence key (analysis.treesOf key).1) := by
  intro analysis
  obtain ⟨t, hshows, -⟩ := (shows_ofSentence parser sentence).afterAll .empty requests
  change analysis.Shows parser sentence t at hshows
  have hlookup := hshows.memo.lookup_done (List.not_mem_nil : key ∉ [])
  cases htab : t key with
  | some ds =>
    rw [htab] at hlookup
    exact .inl ⟨_, hlookup, treesOf_of_done hlookup⟩
  | none =>
    rw [htab] at hlookup
    refine .inr ⟨hlookup, ?_⟩
    clear_value analysis
    obtain ⟨_, _, memo, words, results⟩ := analysis
    obtain ⟨rfl, rfl, hmemo, hwords⟩ := hshows
    rw [fst_treesOf_of_none hlookup hrange]
    exact Search.ends_of_shows hrange (Search.not_mem_of_getElem? hlookup) hmemo hwords

theorem treesOf_ends_cyclic :
    let parser : Parser := ⟨.empty, .cyclic, [' '], none⟩
    let sentence : Sentence := .ofText ['x']
    let key : Key := ⟨0, 0, .empty⟩
    let analysis := (ofSentence parser sentence).afterAll [.parse ['b'] 0]
    key.InRange parser sentence ∧
    ((∃ trees, analysis.memo[key]? = some (.done trees) ∧
      analysis.treesOf key = (trees, analysis)) ∨
    (analysis.memo[key]? = none ∧
      ((⟨analysis.memo, analysis.words, []⟩ : Search).enter parser.grammar key).Ends
        parser sentence key (analysis.treesOf key).1)) := by
  intro parser sentence key analysis
  have hrange : key.InRange parser sentence := by decide
  exact ⟨hrange, treesOf_ends parser sentence [.parse ['b'] 0] hrange⟩

end Analysis

end Concord
