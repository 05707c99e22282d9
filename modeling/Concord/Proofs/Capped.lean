import Concord.Proofs.Comparison

namespace Concord

namespace Parser

theorem limit_withCap {n : Nat} (hn : 1 ≤ n) (parser : Parser) (ds : List Derivation) :
    (parser.withCap n).limit ds = ds.take n := by
  rw [withCap, if_neg (Nat.ne_of_gt hn), limit]

theorem limit_withCap_zero (parser : Parser) (ds : List Derivation) :
    (parser.withCap 0).limit ds = ds :=
  rfl

end Parser

section found

variable {parser : Parser} {sentence : Sentence} {t t' : Table}

theorem Frame.Runs.limit_table {f f' : Frame} (h : f.Runs parser sentence t t' f')
    (ht : ∀ key ds, t key = some ds → parser.limit ds = ds) :
    ∀ key ds, t' key = some ds → parser.limit ds = ds := by
  induction h with
  | done ha => exact ht
  | move m rest ih => exact ih ht
  | reply hc hr rest ih => exact ih ht
  | expand hc hnone hm hr call rest ihc ih =>
    refine ih fun key ds hk => ?_
    rcases settle_eq_some hk with hk | ⟨-, rfl, rfl⟩
    · exact ihc ht key ds hk
    · exact call.limit_results (by rw [results_start, Parser.limit_nil])

/-- No more is kept for a key than the cap allows. -/
theorem Table.Reached.limit (h : t.Reached parser sentence) :
    ∀ key ds, t key = some ds → parser.limit ds = ds := by
  induction h with
  | empty => exact fun _ _ hnone => by cases hnone
  | call h hc ih =>
    cases hc with
    | kept => exact ih
    | expand hnone hr run =>
      intro key ds hk
      rcases Frame.settle_eq_some hk with hk | ⟨-, rfl, rfl⟩
      · exact run.limit_table ih key ds hk
      · exact run.limit_results (by rw [Frame.results_start, Parser.limit_nil])

theorem Analysis.length_seen_le {n : Nat} (hn : 1 ≤ n) (parser : Parser) (sentence : Sentence)
    (requests : List Request) {request : Request} {symbol : Nat}
    (hs : parser.grammar.indexOf? request.start = some symbol) :
    (((ofSentence (parser.withCap n) sentence).afterAll requests).seen request).2.length ≤ n := by
  obtain ⟨t, ht, -, hseen⟩ := exists_answer (parser.withCap n) sentence requests request
  have hs' : (parser.withCap n).grammar.indexOf? request.start = some symbol := hs
  have hkept : ((t (request.key sentence symbol)).getD []).length ≤ n := by
    cases hds : t (request.key sentence symbol) with
    | none => exact Nat.zero_le n
    | some ds =>
      have hlimit := ht.limit _ ds hds
      rw [Parser.limit_withCap hn] at hlimit
      rw [Option.getD_some, ← hlimit]
      exact List.length_take_le n ds
  rw [hseen]
  unfold Request.answer
  dsimp only
  split
  · exact Nat.zero_le n
  · refine Nat.le_trans (List.length_filter_le _ _) ?_
    simp only [Request.trees, hs', List.length_map]
    exact hkept

end found

/-- Each symbol and each position corresponds to itself. -/
def Pairing.same : Pairing where
  symbols := (· = ·)
  positions := (· = ·)

namespace Pairing

theorem patterns_same (pattern : Pattern) : same.Patterns pattern pattern := by
  refine ⟨rfl, rfl, List.forall₂_same.mpr fun element _ => ?_⟩
  cases element with
  | literal text => exact .literal text
  | term term =>
    refine .term ⟨rfl, ?_⟩
    cases term.target with
    | none => exact .none
    | some symbol => exact .some rfl

/-- A capped search finds a sublist of what the search without a cap finds. -/
theorem compares_withCap {n : Nat} (hn : 1 ≤ n) (parser : Parser) (sentence : Sentence) :
    same.Compares .sublist (parser.withCap n) (parser.withCap 0) sentence where
  positions := rfl
  nameOf := by
    rintro symbol _ rfl
    rfl
  alternatives := by
    rintro symbol _ rfl
    exact Comparison.rel_of_below patterns_same (.refl _)
  leavesAt pos := Comparison.rel_of_below (fun _ => ⟨rfl, rfl, rfl⟩) (.refl _)
  limit := by
    rintro ds ds' ⟨between, hrel, hbelow⟩
    rw [Parser.limit_withCap hn, Parser.limit_withCap_zero]
    exact ⟨between.take n, List.forall₂_take n hrel, (List.take_sublist n between).trans hbelow⟩

end Pairing

section whole

variable {parser : Parser} {sentence : Sentence} {answers : Answers}

theorem Strand.advanceAll_withCap (n : Nat) (elements : List Element) (strands : List Strand) :
    advanceAll (parser.withCap n) sentence answers elements strands =
      advanceAll parser sentence answers elements strands := by
  have hadvance : ∀ (strand : Strand) element,
      strand.advance (parser.withCap n) sentence answers element =
        strand.advance parser sentence answers element := by
    intro strand element
    cases element <;> rfl
  induction elements generalizing strands with
  | nil => rfl
  | cons element elements ih =>
    simp only [advanceAll, advanceEach_eq_gather, hadvance]
    exact congrArg _ (funext ih)

theorem Key.tryEach_withCap (n : Nat) (key : Key) (patterns : List Pattern) :
    key.tryEach (parser.withCap n) sentence answers patterns =
      key.tryEach parser sentence answers patterns := by
  simp only [tryEach_eq_gather, Strand.advanceAll_withCap]
  rfl

theorem Key.expandWith_eq_withCap (n : Nat) (key : Key) :
    key.expandWith (parser.withCap n) sentence answers =
      (key.tryEach parser sentence answers ((parser.grammar.alternatives key.symbol).filter
        (·.admits key.inherited))).map (parser.withCap n).limit := by
  rw [expandWith, tryEach_withCap]
  rfl

theorem Key.expandWith_withCap {n : Nat} (hn : 1 ≤ n) {key : Key} {ds : List Derivation}
    (h : key.expandWith (parser.withCap 0) sentence answers = some ds) (hlength : ds.length ≤ n) :
    key.expandWith (parser.withCap n) sentence answers = some ds := by
  rw [expandWith_eq_withCap] at h ⊢
  obtain ⟨all, hall, rfl⟩ := Option.map_eq_some_iff.mp h
  rw [Parser.limit_withCap_zero] at hlength ⊢
  rw [hall, Option.map_some, Parser.limit_withCap hn, List.take_of_length_le hlength]

/-- No expansion of the search for a key finds more than so many derivations. -/
def Key.AtMost (n : Nat) (parser : Parser) (sentence : Sentence) (key : Key) : Prop :=
  ∀ visited, key.Visits parser sentence visited → ∀ depth ds,
    visited.plain parser sentence depth = some ds → ds.length ≤ n

theorem Key.plain_withCap {n : Nat} (hn : 1 ≤ n) {depth : Nat} {key : Key} {ds : List Derivation}
    (h : key.plain (parser.withCap 0) sentence depth = some ds)
    (hmost : key.AtMost n (parser.withCap 0) sentence) :
    key.plain (parser.withCap n) sentence depth = some ds := by
  induction depth generalizing key ds with
  | zero => cases h
  | succ depth ih =>
    refine expandWith_withCap hn ?_ (hmost key .refl (depth + 1) ds h)
    refine expandWith_of_calls h fun callee hcall found hfound => ih hfound ?_
    refine fun visited hvisits => hmost visited (hvisits.head ?_)
    exact hcall.mono fun _ _ hhas => ⟨depth, hhas⟩

end whole

/-- A symbol with another one that is first found as long as it can be. -/
def Grammar.greedy : Grammar where
  symbols := #[
    ⟨['a'], [⟨['{', 'b', '}', 'y'], none, [.term ⟨some ['b'], [], some 1⟩, .literal ['y']], 0⟩,
      ⟨['{', 'b', '}'], none, [.term ⟨some ['b'], [], some 1⟩], 0⟩]⟩,
    ⟨['b'], [⟨['x', 'y'], none, [.literal ['x', 'y']], 0⟩, ⟨['x'], none, [.literal ['x']], 0⟩]⟩]
  undefined := []

theorem Key.visits_greedy {visited : Key}
    (h : Key.Visits ((Parser.mk .empty .greedy [' '] none).withCap 0)
      ⟨['x', 'y'], #['x', 'y'], #[0, 1, 2]⟩ ⟨0, 0, .empty⟩ visited) :
    visited = ⟨0, 0, .empty⟩ ∨ visited = ⟨1, 0, .empty⟩ := by
  induction h with
  | refl => exact .inl rfl
  | tail _ hcall ih =>
    obtain ⟨pattern, hp, -, hasks⟩ := hcall
    rcases ih with rfl | rfl
    · -- In both alternatives of `a`, the one term is `b`, and it stands first.
      refine .inr ?_
      rcases hp with _ | ⟨_, _ | ⟨_, ⟨⟩⟩⟩
      · rcases hasks with ⟨_, _, ⟨⟩, ⟨⟩, rfl⟩ | ⟨_, _, ⟨_, _, ⟨⟩, -⟩ | ⟨_, _, ⟨⟩⟩⟩
        rfl
      · rcases hasks with ⟨_, _, ⟨⟩, ⟨⟩, rfl⟩ | ⟨_, _, ⟨⟩⟩
        rfl
    · rcases hp with _ | ⟨_, _ | ⟨_, ⟨⟩⟩⟩
      · rcases hasks with ⟨_, _, ⟨⟩, -⟩ | ⟨_, _, ⟨⟩⟩
      · rcases hasks with ⟨_, _, ⟨⟩, -⟩ | ⟨_, _, ⟨⟩⟩

theorem Key.atMost_greedy : Key.AtMost 3 ((Parser.mk .empty .greedy [' '] none).withCap 0)
    ⟨['x', 'y'], #['x', 'y'], #[0, 1, 2]⟩ ⟨0, 0, .empty⟩ := by
  intro visited hvisits depth ds hds
  rcases visits_greedy hvisits with rfl | rfl
  · rw [Key.plain_unique hds (show Key.plain _ _ 2 _ = _ from rfl)]
    decide
  · rw [Key.plain_unique hds (show Key.plain _ _ 1 _ = _ from rfl)]
    decide

namespace Analysis

/-- A cap only drops what is found: no more is found than it allows, and if the search without it
meets no left recursion, a sublist of what that search finds, which is all of it if none of its
expansions finds more. -/
theorem seen_withCap (parser : Parser) {n : Nat} (hn : 1 ≤ n) (sentence : Sentence)
    (requests requests' : List Request) {request : Request} {symbol : Nat}
    (hs : parser.grammar.indexOf? request.start = some symbol) :
    let capped := ((ofSentence (parser.withCap n) sentence).afterAll requests).seen request
    let all := ((ofSentence (parser.withCap 0) sentence).afterAll requests').seen request
    capped.2.length ≤ n ∧
      (request.Grounded (parser.withCap 0) sentence →
        capped.1 = all.1 ∧ capped.2.Sublist all.2 ∧
          ((request.key sentence symbol).AtMost n (parser.withCap 0) sentence →
            capped.2 = all.2)) := by
  have hstart : Option.Rel Pairing.same.symbols ((parser.withCap n).grammar.indexOf? request.start)
      ((parser.withCap 0).grammar.indexOf? request.start) := by
    rw [show (parser.withCap n).grammar.indexOf? request.start = some symbol from hs,
      show (parser.withCap 0).grammar.indexOf? request.start = some symbol from hs]
    exact .some rfl
  refine ⟨length_seen_le hn parser sentence requests hs, fun hg => ?_⟩
  obtain ⟨houtcome, hbelow⟩ :=
    (Pairing.compares_withCap hn parser sentence).seen hstart hg requests requests'
  refine ⟨houtcome, hbelow, fun hmost => ?_⟩
  by_cases hlt : sentence.length < request.offset sentence
  · rw [seen_beyond _ requests request hlt, seen_beyond _ requests' request hlt]
  · have ho := Nat.not_lt.mp hlt
    obtain ⟨depth, found, hfound⟩ := hg symbol hs ho
    rw [seen_plain (parser.withCap 0) requests' request hs ho hfound,
      seen_plain (parser.withCap n) requests request hs ho
        (Key.plain_withCap hn hfound hmost)]

/-- With a cap of one, `b` is only found as long as it can be, so that the first alternative of `a`
fails: what is left of the derivations is the second one. -/
theorem seen_withCap_greedy :
    let parser : Parser := ⟨.empty, .greedy, [' '], none⟩
    let sentence := Sentence.ofText ['x', 'y']
    let seen (cap : Nat) : Except Error Unit × List Tree :=
      ((ofSentence (parser.withCap cap) sentence).afterAll []).seen (.parse ['a'] 0)
    let phrase (stop inner : Nat) : Tree :=
      .phrase ['a'] 0 stop .empty [.phrase ['b'] 0 inner .empty []]
    (seen 0).2 = [phrase 2 1, phrase 2 2, phrase 1 1] ∧ (seen 3).2 = (seen 0).2 ∧
      (seen 1).2 = [phrase 2 2] ∧ (seen 1).2.length ≤ 1 ∧ (seen 1).2.Sublist (seen 0).2 := by
  intro parser sentence seen phrase
  have hs : parser.grammar.indexOf? (Request.start (.parse ['a'] 0)) = some 0 := by decide +kernel
  have hsentence : sentence = ⟨['x', 'y'], #['x', 'y'], #[0, 1, 2]⟩ := by decide +kernel
  let found (stop inner : Nat) : Derivation := .expansion ['a'] ⟨0, 0, .empty⟩ stop .empty
    [.expansion ['b'] ⟨1, 0, .empty⟩ inner .empty []]
  have hall : Key.plain (parser.withCap 0) sentence 2 ⟨0, 0, .empty⟩ =
      some [found 2 1, found 2 2, found 1 1] := by
    rw [hsentence]
    rfl
  have hone : Key.plain (parser.withCap 1) sentence 2 ⟨0, 0, .empty⟩ = some [found 2 2] := by
    rw [hsentence]
    rfl
  have hg : Request.Grounded (parser.withCap 0) sentence (.parse ['a'] 0) :=
    Request.grounded_of_plain hs hall
  have hmost : Key.AtMost 3 (parser.withCap 0) sentence ⟨0, 0, .empty⟩ :=
    hsentence ▸ Key.atMost_greedy
  obtain ⟨hlength, hbelow⟩ := seen_withCap parser (Nat.le_refl 1) sentence [] [] hs
  obtain ⟨-, hwhole⟩ := seen_withCap parser (show 1 ≤ 3 by decide) sentence [] [] hs
  have hseen := seen_parse_plain (parser.withCap 0) [] hs (Nat.zero_le sentence.length) hall
  have hcapped := seen_parse_plain (parser.withCap 1) [] hs (Nat.zero_le sentence.length) hone
  refine ⟨?_, (hwhole hg).2.2 hmost, ?_, hlength, (hbelow hg).2.1⟩
  · exact (congrArg Prod.snd hseen).trans (by simp [found, phrase])
  · exact (congrArg Prod.snd hcapped).trans (by simp [found, phrase])

end Analysis

end Concord
