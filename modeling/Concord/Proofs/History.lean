import Concord.Analysis
import Concord.Proofs.Stack

namespace Concord

/-- What may be asked of an analysis. -/
inductive Request where
  | parse (start : Text) (offset : Nat)
  | parseGiven (start : Text) (offset : Nat) (inherited : Features)
  | parseWhole (start : Text)

namespace Request

def start : Request → Text
  | parse start _ => start
  | parseGiven start _ _ => start
  | parseWhole start => start

def offset (sentence : Sentence) : Request → Nat
  | parse _ offset => offset
  | parseGiven _ offset _ => offset
  | parseWhole _ => sentence.afterSpace 0

def inherited : Request → Features
  | parseGiven _ _ inherited => inherited
  | _ => .empty

/-- Whether a derivation is among those asked for. -/
def keeps (sentence : Sentence) : Request → Tree → Bool
  | parseWhole _, tree => sentence.onlySpaceFrom tree.stop
  | _, _ => true

def key (sentence : Sentence) (request : Request) (symbol : Nat) : Key :=
  ⟨symbol, request.offset sentence, request.inherited⟩

end Request

namespace Analysis

def perform (analysis : Analysis) : Request → Except Error Unit × Analysis
  | .parse start offset => analysis.parse start offset
  | .parseGiven start offset inherited => analysis.parseGiven start offset inherited
  | .parseWhole start => analysis.parseWhole start

/-- The analysis after some requests. -/
def afterAll (analysis : Analysis) (requests : List Request) : Analysis :=
  requests.foldl (fun analysis request => (analysis.perform request).2) analysis

/-- What is seen of a request: its outcome, and the derivations that are there after it. -/
def seen (analysis : Analysis) (request : Request) : Except Error Unit × List Tree :=
  ((analysis.perform request).1, (analysis.perform request).2.results)

end Analysis

namespace Table

variable {parser : Parser} {sentence : Sentence}

/-- What a call for a key makes of a table. -/
inductive Calls (parser : Parser) (sentence : Sentence) (t : Table) (key : Key) : Table → Prop where
  | kept (h : t key = none → ¬key.InRange parser sentence) : Calls parser sentence t key t
  | expand {t' : Table} {f : Frame} (ht : t key = none) (hr : key.InRange parser sentence)
      (run : (Frame.start parser.grammar [] key).Runs parser sentence t t' f) :
      Calls parser sentence t key (t'.settle f)

/-- The tables that calls lead to. -/
inductive Reached (parser : Parser) (sentence : Sentence) : Table → Prop where
  | empty : Reached parser sentence fun _ => none
  | call {t t' : Table} {key : Key} (h : Reached parser sentence t)
      (hc : t.Calls parser sentence key t') : Reached parser sentence t'

theorem cut_eq_nil {t t' : Table} {f : Frame} {key : Key}
    (run : (Frame.start parser.grammar [] key).Runs parser sentence t t' f) : f.cut = [] := by
  have hout := run.cutOutside (.start _ _ _)
  rw [Frame.CutOutside, run.path_call] at hout
  exact List.eq_nil_of_subset_nil hout

theorem settle_self {t t' : Table} {f : Frame} {key : Key}
    (run : (Frame.start parser.grammar [] key).Runs parser sentence t t' f) :
    t'.settle f key = some f.results := by
  have hcut := cut_eq_nil run
  have hkey : f.key = key := run.key_call
  simp [settle, hcut, hkey]

theorem Calls.exists_run {t t' : Table} {key : Key} {ds : List Derivation}
    (h : t.Calls parser sentence key t') (ht : t key = none) (hr : key.InRange parser sentence)
    (hds : t' key = some ds) :
    ∃ t₁ f, (Frame.start parser.grammar [] key).Runs parser sentence t t₁ f ∧ f.results = ds := by
  cases h with
  | kept h => exact absurd hr (h ht)
  | @expand t₁ f _ _ run =>
    rw [settle_self run] at hds
    exact ⟨t₁, f, run, Option.some.inj hds⟩

theorem Calls.done {t t' : Table} {key : Key} (h : t.Calls parser sentence key t')
    (hr : key.InRange parser sentence) : ∃ ds, t' key = some ds := by
  cases h with
  | kept h => exact Option.ne_none_iff_exists'.mp fun hn => h hn hr
  | expand ht hr run => exact ⟨_, settle_self run⟩

theorem Calls.table_le {t t' : Table} {key callee : Key} {ds : List Derivation}
    (h : t.Calls parser sentence callee t') (hk : t key = some ds) : t' key = some ds := by
  cases h with
  | kept h => exact hk
  | @expand t' f ht hr run =>
    have hne : key ≠ f.key := by
      rw [run.key_eq, Frame.key_start]
      rintro rfl
      simp [hk] at ht
    simp [settle, hne, run.table_le hk]

end Table

/-- The dictionary words at a position that have all given attribute values, each as a phrase. -/
def Parser.wordTrees (parser : Parser) (sentence : Sentence) (name : Text) (pos : Nat)
    (inherited : Features) : List Tree :=
  let fits (leaf : Leaf) : Bool :=
    inherited.toList.all fun feature => leaf.features.get feature.kind = some feature
  ((parser.leavesAt sentence pos).filter fits).map fun leaf =>
    .phrase name leaf.start leaf.stop leaf.features [.leaf leaf]

def Request.trees (parser : Parser) (sentence : Sentence) (t : Table) (request : Request) :
    List Tree :=
  match parser.grammar.indexOf? request.start with
  | some symbol => ((t (request.key sentence symbol)).getD []).map Derivation.tree
  | none =>
    parser.wordTrees sentence request.start (request.offset sentence) request.inherited

/-- What a table answers to a request. -/
def Request.answer (parser : Parser) (sentence : Sentence) (t : Table) (request : Request) :
    Except Error Unit × List Tree :=
  let offset := request.offset sentence
  if sentence.length < offset then
    (.error (.offsetBeyondEnd offset sentence.length), [])
  else
    (.ok (), (request.trees parser sentence t).filter (request.keeps sentence))

/-- What a request makes of a table. -/
def Request.Makes (parser : Parser) (sentence : Sentence) (t : Table) (request : Request)
    (t' : Table) : Prop :=
  (t' = t ∧ ∀ symbol, parser.grammar.indexOf? request.start = some symbol →
    sentence.length < request.offset sentence) ∨
  ∃ symbol, parser.grammar.indexOf? request.start = some symbol ∧
    request.offset sentence ≤ sentence.length ∧
    t.Calls parser sentence (request.key sentence symbol) t'

theorem Table.Reached.makes {parser : Parser} {sentence : Sentence} {t t' : Table}
    {request : Request} (h : t.Reached parser sentence)
    (hmakes : request.Makes parser sentence t t') : t'.Reached parser sentence := by
  rcases hmakes with ⟨rfl, -⟩ | ⟨symbol, -, -, hcalls⟩
  · exact h
  · exact h.call hcalls

namespace Analysis

variable {parser : Parser} {sentence : Sentence} {analysis : Analysis} {t : Table}

/-- The analysis has found what is in a table. -/
structure Shows (analysis : Analysis) (parser : Parser) (sentence : Sentence) (t : Table) :
    Prop where
  parser_eq : analysis.parser = parser
  sentence_eq : analysis.sentence = sentence
  memo : analysis.memo.Shows t []
  words : Faithful parser sentence analysis.words

theorem shows_ofSentence (parser : Parser) (sentence : Sentence) :
    (ofSentence parser sentence).Shows parser sentence fun _ => none := by
  refine ⟨rfl, rfl, ⟨fun key => ?_, fun _ _ => rfl⟩, fun pos leaves hpos => ?_⟩
  · exact Std.HashMap.getElem?_empty
  · simp only [ofSentence, Array.getElem?_replicate] at hpos
    split at hpos <;> cases hpos

theorem Shows.treesOf (h : analysis.Shows parser sentence t) (key : Key) :
    ∃ t', t.Calls parser sentence key t' ∧ (analysis.treesOf key).2.Shows parser sentence t' ∧
      (analysis.treesOf key).1 = ((t' key).getD []).map Derivation.tree := by
  obtain ⟨_, _, memo, words, results⟩ := analysis
  obtain ⟨rfl, rfl, hmemo, hwords⟩ := h
  dsimp only at hmemo hwords
  have hlookup := hmemo.lookup_done (List.not_mem_nil : key ∉ [])
  simp only [Analysis.treesOf]
  split
  next trees hdone =>
    rw [hdone] at hlookup
    obtain ⟨ds, ht, hds⟩ := Option.map_eq_some_iff.mp hlookup.symm
    cases hds
    exact ⟨t, .kept (by simp [ht]), ⟨rfl, rfl, hmemo, hwords⟩, by simp [ht]⟩
  next depth hactive =>
    rw [hactive] at hlookup
    obtain ⟨ds, ht, hds⟩ := Option.map_eq_some_iff.mp hlookup.symm
    cases hds
  next hnone =>
    have ht : t key = none := by
      rw [hnone] at hlookup
      exact Option.map_eq_none_iff.mp hlookup.symm
    split
    next hrange =>
      obtain ⟨t', f, final, run, heq, hm, hw⟩ :=
        Search.treesOf_eq hrange (Search.not_mem_of_getElem? hnone) hmemo hwords
      refine ⟨t'.settle f, .expand ht hrange run, ?_, ?_⟩
      · rw [heq]
        exact ⟨rfl, rfl, hm, hw⟩
      · rw [heq, Table.settle_self run]
        rfl
    next hrange => exact ⟨t, .kept fun _ => hrange, ⟨rfl, rfl, hmemo, hwords⟩, by simp [ht]⟩

theorem Shows.wordTrees (h : analysis.Shows parser sentence t) (name : Text) (pos : Nat)
    (inherited : Features) :
    (analysis.wordTrees name pos inherited).2.Shows parser sentence t ∧
      (analysis.wordTrees name pos inherited).1 =
        parser.wordTrees sentence name pos inherited := by
  obtain ⟨_, _, memo, words, results⟩ := analysis
  obtain ⟨rfl, rfl, hmemo, hwords⟩ := h
  obtain ⟨words', hw', heq⟩ :=
    Search.leavesAt_eq ⟨memo, words, []⟩ hwords pos
  simp only [Analysis.wordTrees, heq, Parser.wordTrees, and_true]
  exact ⟨rfl, rfl, hmemo, hw'⟩

theorem Shows.results (h : analysis.Shows parser sentence t) (trees : List Tree) :
    Analysis.Shows { analysis with results := trees } parser sentence t :=
  ⟨h.parser_eq, h.sentence_eq, h.memo, h.words⟩

theorem Shows.parseGiven (h : analysis.Shows parser sentence t) (request : Request) :
    ∃ (t' : Table) (shown : Analysis), request.Makes parser sentence t t' ∧
      shown.Shows parser sentence t' ∧
      analysis.parseGiven request.start (request.offset sentence) request.inherited =
        if sentence.length < request.offset sentence then
          (.error (.offsetBeyondEnd (request.offset sentence) sentence.length),
            { shown with results := [] })
        else (.ok (), { shown with results := request.trees parser sentence t' }) := by
  obtain ⟨parser, sentence, memo, words, results⟩ := analysis
  have hclear := h.results []
  obtain ⟨rfl, rfl, -, -⟩ := h
  unfold Analysis.parseGiven
  dsimp only at hclear ⊢
  split
  next hlt => exact ⟨t, _, .inl ⟨rfl, fun _ _ => hlt⟩, hclear, rfl⟩
  next hle =>
    split
    next symbol hsymbol =>
      obtain ⟨t', hcalls, hshows, htrees⟩ := hclear.treesOf (request.key sentence symbol)
      have heq : request.trees parser sentence t' =
          ((t' (request.key sentence symbol)).getD []).map Derivation.tree := by
        simp only [Request.trees, hsymbol]
      refine ⟨t', _, .inr ⟨symbol, hsymbol, Nat.not_lt.mp hle, hcalls⟩, hshows, ?_⟩
      rw [heq, ← htrees]
      rfl
    next hsymbol =>
      obtain ⟨hshows, htrees⟩ := hclear.wordTrees request.start (request.offset sentence)
        request.inherited
      have heq : request.trees parser sentence t = parser.wordTrees sentence request.start
          (request.offset sentence) request.inherited := by
        simp only [Request.trees, hsymbol]
      refine ⟨t, _, .inl ⟨rfl, fun _ hs => ?_⟩, hshows, ?_⟩
      · rw [hs] at hsymbol
        cases hsymbol
      · rw [heq, ← htrees]

/-- A request is answered from the table that it leads to. -/
theorem Shows.perform (h : analysis.Shows parser sentence t) (request : Request) :
    ∃ t', request.Makes parser sentence t t' ∧
      (analysis.perform request).2.Shows parser sentence t' ∧
      analysis.seen request = request.answer parser sentence t' := by
  obtain ⟨t', shown, hmakes, hshows, heq⟩ := h.parseGiven request
  refine ⟨t', hmakes, ?_⟩
  have hgiven : analysis.perform request =
      analysis.parseGiven request.start (request.offset sentence) request.inherited →
      (∀ tree, request.keeps sentence tree = true) →
      (analysis.perform request).2.Shows parser sentence t' ∧
        analysis.seen request = request.answer parser sentence t' := by
    intro hperform hkeeps
    have hall : (request.trees parser sentence t').filter (request.keeps sentence) =
        request.trees parser sentence t' := List.filter_eq_self.mpr fun tree _ => hkeeps tree
    unfold seen Request.answer
    rw [hperform, heq, hall]
    dsimp only
    split
    · exact ⟨hshows.results _, rfl⟩
    · exact ⟨hshows.results _, rfl⟩
  cases request with
  | parse start offset => exact hgiven rfl fun _ => rfl
  | parseGiven start offset inherited => exact hgiven rfl fun _ => rfl
  | parseWhole start =>
    have hparse : analysis.parse start (analysis.sentence.afterSpace 0) =
        analysis.parseGiven start (sentence.afterSpace 0) .empty := by
      rw [h.sentence_eq]
      rfl
    unfold seen Request.answer
    simp only [Analysis.perform, Analysis.parseWhole, hparse]
    rw [show analysis.parseGiven start (sentence.afterSpace 0) .empty = _ from heq]
    by_cases hlt : sentence.length < Request.offset sentence (.parseWhole start)
    · rw [if_pos hlt, if_pos hlt]
      exact ⟨hshows.results _, rfl⟩
    · rw [if_neg hlt, if_neg hlt]
      refine ⟨hshows.results _, ?_⟩
      dsimp only
      rw [hshows.sentence_eq]
      rfl

theorem Shows.afterAll (h : analysis.Shows parser sentence t) (ht : t.Reached parser sentence)
    (requests : List Request) :
    ∃ t', (analysis.afterAll requests).Shows parser sentence t' ∧ t'.Reached parser sentence := by
  induction requests generalizing analysis t with
  | nil => exact ⟨t, h, ht⟩
  | cons request requests ih =>
    obtain ⟨t₁, hmakes, hshows, -⟩ := h.perform request
    exact ih hshows (ht.makes hmakes)

/-- What is seen of a request after others is what a table answers that calls lead to. -/
theorem seen_afterAll (parser : Parser) (sentence : Sentence) (requests : List Request)
    (request : Request) :
    ∃ t t', t.Reached parser sentence ∧ request.Makes parser sentence t t' ∧
      ((ofSentence parser sentence).afterAll requests).seen request =
        request.answer parser sentence t' := by
  obtain ⟨t, hshows, ht⟩ := (shows_ofSentence parser sentence).afterAll .empty requests
  obtain ⟨t', hmakes, -, hseen⟩ := hshows.perform request
  exact ⟨t, t', ht, hmakes, hseen⟩

/-- Requests are answered from a table that shows what there is for their key, if they have one. -/
theorem exists_answer (parser : Parser) (sentence : Sentence) (requests : List Request)
    (request : Request) :
    ∃ t, t.Reached parser sentence ∧
      (∀ symbol, parser.grammar.indexOf? request.start = some symbol →
        request.offset sentence ≤ sentence.length →
          ∃ ds, t (request.key sentence symbol) = some ds) ∧
      ((ofSentence parser sentence).afterAll requests).seen request =
        request.answer parser sentence t := by
  obtain ⟨t₀, t, ht₀, hmakes, hseen⟩ := seen_afterAll parser sentence requests request
  refine ⟨t, ht₀.makes hmakes, fun symbol hs ho => ?_, hseen⟩
  rcases hmakes with ⟨-, hlt⟩ | ⟨symbol', hs', -, hcalls⟩
  · exact absurd (hlt symbol hs) (Nat.not_lt.mpr ho)
  · rw [hs] at hs'
    cases hs'
    exact hcalls.done ⟨(Array.findIdx?_eq_some_iff_getElem.mp hs).1, ho⟩

theorem seen_beyond (parser : Parser) (requests : List Request) (request : Request)
    (hlt : sentence.length < request.offset sentence) :
    ((ofSentence parser sentence).afterAll requests).seen request =
      (.error (.offsetBeyondEnd (request.offset sentence) sentence.length), []) := by
  obtain ⟨t, -, -, hseen⟩ := exists_answer parser sentence requests request
  rw [hseen, Request.answer]
  exact if_pos hlt

/-- A start symbol at a position of the sentence is answered with what gets done for its key. -/
theorem Shows.seen (h : analysis.Shows parser sentence t) {start : Text} {symbol : Nat}
    (hs : parser.grammar.indexOf? start = some symbol) {offset : Nat}
    (ho : offset ≤ sentence.length) (inherited : Features) :
    ∃ (t' : Table) (ds : List Derivation),
      t.Calls parser sentence ⟨symbol, offset, inherited⟩ t' ∧
      t' ⟨symbol, offset, inherited⟩ = some ds ∧
      (analysis.perform (.parseGiven start offset inherited)).2.Shows parser sentence t' ∧
      analysis.seen (.parseGiven start offset inherited) = (.ok (), ds.map Derivation.tree) := by
  obtain ⟨t', hmakes, hshows, hseen⟩ := h.perform (.parseGiven start offset inherited)
  have hrange : Key.InRange parser sentence ⟨symbol, offset, inherited⟩ :=
    ⟨(Array.findIdx?_eq_some_iff_getElem.mp hs).1, ho⟩
  rcases hmakes with ⟨-, hlt⟩ | ⟨symbol', hs', -, hcalls⟩
  · exact absurd (hlt symbol hs) (Nat.not_lt.mpr ho)
  · have heq : symbol' = symbol := Option.some.inj (hs'.symm.trans hs)
    subst heq
    obtain ⟨ds, hds⟩ := hcalls.done hrange
    refine ⟨t', ds, hcalls, hds, hshows, ?_⟩
    have htrees : Request.trees parser sentence t' (.parseGiven start offset inherited) =
        ds.map Derivation.tree := by
      simp only [Request.trees, Request.start, hs]
      exact congrArg (fun ds : Option (List Derivation) => (ds.getD []).map Derivation.tree) hds
    rw [hseen, Request.answer, htrees]
    have hnot : ¬sentence.length < Request.offset sentence (.parseGiven start offset inherited) :=
      Nat.not_lt.mpr ho
    have hall : (ds.map Derivation.tree).filter
        (Request.keeps sentence (.parseGiven start offset inherited)) =
        ds.map Derivation.tree := List.filter_eq_self.mpr fun _ _ => rfl
    simp only [if_neg hnot, hall]

theorem seen_of_indexOf? (requests : List Request) {start : Text} {symbol : Nat}
    (hs : parser.grammar.indexOf? start = some symbol) {offset : Nat}
    (ho : offset ≤ sentence.length) (inherited : Features) :
    ∃ (t : Table) (ds : List Derivation), t.Reached parser sentence ∧
      t ⟨symbol, offset, inherited⟩ = some ds ∧
      ((ofSentence parser sentence).afterAll requests).seen (.parseGiven start offset inherited) =
        (.ok (), ds.map Derivation.tree) := by
  obtain ⟨t, hshows, ht⟩ := (shows_ofSentence parser sentence).afterAll .empty requests
  obtain ⟨t', ds, hcalls, hds, -, hseen⟩ := hshows.seen hs ho inherited
  exact ⟨t', ds, ht.call hcalls, hds, hseen⟩

theorem seen_of_lt (requests : List Request) (start : Text) {offset : Nat}
    (ho : sentence.length < offset) (inherited : Features) :
    ((ofSentence parser sentence).afterAll requests).seen (.parseGiven start offset inherited) =
      (.error (.offsetBeyondEnd offset sentence.length), []) :=
  seen_beyond parser requests (.parseGiven start offset inherited) ho

end Analysis

end Concord
