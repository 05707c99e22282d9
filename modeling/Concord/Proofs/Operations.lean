import Concord.Proofs.Bounds
import Concord.Proofs.Lifecycle
import Concord.Proofs.Stored

namespace Concord

/-- The word of an entry stands in the text of the dictionary, at the offset of the entry. -/
def Dictionary.Holds (dictionary : Dictionary) (entry : Entry) : Prop :=
  ∃ before after, dictionary.text = before ++ (entry.word ++ after) ∧
    utf8Length before = entry.offset

/-- The dictionary was built from a lexicon or read from a file. -/
def Dictionary.Made (dictionary : Dictionary) : Prop :=
  (∃ lexicon, ofLexicon lexicon = .ok dictionary) ∨ ∃ bytes, ofBytes bytes = .ok dictionary

/-- The grammar was linked from rules or read from a file. -/
def Grammar.Made (grammar : Grammar) : Prop :=
  (∃ rules, ofRules rules = .ok grammar) ∨ ∃ bytes, ofBytes bytes = .ok grammar

theorem Dictionary.Made.holds {dictionary : Dictionary} (h : dictionary.Made) {entry : Entry}
    (hentry : entry ∈ dictionary.toList) : dictionary.Holds entry := by
  rcases h with ⟨lexicon, hbuild⟩ | ⟨bytes, hread⟩
  · obtain ⟨htext, hentries, -⟩ := ofLexicon_eq_ok hbuild
    obtain ⟨before, after, hwords, hoffset⟩ := mem_placeReadings (hentries ▸ hentry)
    refine ⟨wordsText before, '\x00' :: wordsText after, ?_, by omega⟩
    rw [htext, hwords, wordsText_append]
    simp [wordsText]
  · obtain ⟨before, after, htext, hoffset, -⟩ := (stored_of_ofBytes hread).stands entry hentry
    exact ⟨before, '\x00' :: after, by rw [htext, List.append_assoc], hoffset⟩

theorem Grammar.Made.inBounds {grammar : Grammar} (h : grammar.Made) : grammar.InBounds :=
  h.elim (fun ⟨_, hrules⟩ => inBounds_of_ofRules hrules)
    fun ⟨_, hbytes⟩ => inBounds_of_ofBytes hbytes

namespace Analysis

/-- What may be done with an analysis. Its results may be looked at, which changes nothing. -/
inductive Operation where
  | reset (text : Text)
  | ask (request : Request)
  | inspect

def Operation.text? : Operation → Option Text
  | reset text => some text
  | _ => none

def follow (analysis : Analysis) : Operation → Analysis
  | .reset text => analysis.reset text
  | .ask request => (analysis.perform request).2
  | .inspect => analysis

def followAll (analysis : Analysis) (operations : List Operation) : Analysis :=
  operations.foldl follow analysis

/-- The text that was set last. -/
def textIn (operations : List Operation) : Text :=
  (operations.filterMap Operation.text?).getLast?.getD []

theorem textIn_snoc (operations : List Operation) (operation : Operation) :
    textIn (operations ++ [operation]) = operation.text?.getD (textIn operations) :=
  Session.getLast?_filterMap_snoc _ _ _ _

/-- The search that goes on from what is remembered, before it begins. -/
def idle (analysis : Analysis) : Search :=
  ⟨analysis.memo, analysis.words, []⟩

variable {parser : Parser} {sentence : Sentence} {analysis : Analysis}

/-- All is forgotten at a new text, so that only the requests since then matter. -/
theorem exists_afterAll (parser : Parser) (operations : List Operation) :
    ∃ requests, (new parser).followAll operations =
      (ofSentence parser (.ofText (textIn operations))).afterAll requests := by
  induction operations using List.reverseRecOn with
  | nil => exact ⟨[], rfl⟩
  | append_singleton operations operation ih =>
    obtain ⟨requests, heq⟩ := ih
    rw [followAll] at heq
    rw [followAll, List.foldl_append, heq, textIn_snoc]
    cases operation with
    | reset text =>
      obtain ⟨t, hshows, -⟩ := (shows_ofSentence parser (.ofText (textIn operations))).afterAll
        .empty requests
      refine ⟨[], ?_⟩
      change Analysis.reset _ text = ofSentence parser (.ofText text)
      rw [Analysis.reset, hshows.parser_eq]
    | ask request =>
      refine ⟨requests ++ [request], ?_⟩
      rw [afterAll, afterAll, List.foldl_append]
      rfl
    | inspect => exact ⟨requests, rfl⟩

/-- What an analysis remembers of a sentence is in range. -/
structure Bounded (analysis : Analysis) (parser : Parser) (sentence : Sentence) : Prop where
  parser_eq : analysis.parser = parser
  sentence_eq : analysis.sentence = sentence
  idle : analysis.idle.InBounds parser sentence

theorem bounded_ofSentence (parser : Parser) (sentence : Sentence) :
    (ofSentence parser sentence).Bounded parser sentence :=
  ⟨rfl, rfl, Search.inBounds_empty sentence⟩

theorem Bounded.results (h : analysis.Bounded parser sentence) (trees : List Tree) :
    Analysis.Bounded { analysis with results := trees } parser sentence :=
  ⟨h.parser_eq, h.sentence_eq, h.idle⟩

theorem Bounded.enter (h : analysis.Bounded parser sentence) {key : Key}
    (hkey : key.InRange parser sentence) :
    (analysis.idle.enter parser.grammar key).InBounds parser sentence :=
  h.idle.enter hkey fun _ he => by cases he

theorem Bounded.treesOf (h : analysis.Bounded parser sentence) (hgrammar : parser.grammar.InBounds)
    (key : Key) : (analysis.treesOf key).2.Bounded parser sentence := by
  have henter : key.InRange parser sentence →
      (analysis.idle.enter parser.grammar key).InBounds parser sentence := h.enter
  obtain ⟨_, _, memo, words, results⟩ := analysis
  obtain ⟨rfl, rfl, hidle⟩ := h
  simp only [Analysis.treesOf]
  split
  · exact ⟨rfl, rfl, hidle⟩
  · exact ⟨rfl, rfl, hidle⟩
  · split
    next hrange =>
      exact ⟨rfl, rfl, ((henter hrange).run hgrammar _).2.idle⟩
    next => exact ⟨rfl, rfl, hidle⟩

theorem Bounded.wordTrees (h : analysis.Bounded parser sentence) (name : Text) {pos : Nat}
    (hpos : pos ≤ sentence.length) (inherited : Features) :
    (analysis.wordTrees name pos inherited).2.Bounded parser sentence := by
  obtain ⟨_, _, memo, words, results⟩ := analysis
  obtain ⟨rfl, rfl, hidle⟩ := h
  exact ⟨rfl, rfl, (hidle.leavesAt hpos).2.idle⟩

theorem Bounded.parseGiven (h : analysis.Bounded parser sentence)
    (hgrammar : parser.grammar.InBounds) (start : Text) (offset : Nat) (inherited : Features) :
    (analysis.parseGiven start offset inherited).2.Bounded parser sentence := by
  have hclear := h.results []
  unfold Analysis.parseGiven
  dsimp only
  split
  next => exact hclear
  next hoffset =>
    rw [h.sentence_eq] at hoffset
    dsimp only
    split
    next symbol _ => exact (hclear.treesOf hgrammar _).results _
    next => exact (hclear.wordTrees start (Nat.not_lt.mp hoffset) inherited).results _

/-- A request keeps what is remembered in range. -/
theorem Bounded.perform (h : analysis.Bounded parser sentence) (hgrammar : parser.grammar.InBounds)
    (request : Request) : (analysis.perform request).2.Bounded parser sentence := by
  cases request with
  | parse start offset => exact h.parseGiven hgrammar start offset .empty
  | parseGiven start offset inherited => exact h.parseGiven hgrammar start offset inherited
  | parseWhole start =>
    have hparse := h.parseGiven hgrammar start (analysis.sentence.afterSpace 0) .empty
    simp only [Analysis.perform, Analysis.parseWhole, Analysis.parse]
    split
    · exact hparse
    · exact hparse.results _

theorem Bounded.afterAll (h : analysis.Bounded parser sentence)
    (hgrammar : parser.grammar.InBounds) (requests : List Request) :
    (analysis.afterAll requests).Bounded parser sentence := by
  induction requests generalizing analysis with
  | nil => exact h
  | cons request requests ih => exact ih (h.perform hgrammar request)

/-- A position beyond the end is refused, and only the results are forgotten. -/
theorem perform_of_lt {request : Request}
    (h : analysis.sentence.length < request.offset analysis.sentence) :
    analysis.perform request =
      (.error (.offsetBeyondEnd (request.offset analysis.sentence) analysis.sentence.length),
        { analysis with results := [] }) := by
  have hgiven : analysis.parseGiven request.start (request.offset analysis.sentence)
      request.inherited = (.error (.offsetBeyondEnd (request.offset analysis.sentence)
        analysis.sentence.length), { analysis with results := [] }) := if_pos h
  cases request with
  | parse start offset => exact hgiven
  | parseGiven start offset inherited => exact hgiven
  | parseWhole start =>
    have hparse : analysis.parse start (analysis.sentence.afterSpace 0) = _ := hgiven
    rw [perform, parseWhole, hparse]

/-- What holds of an analysis at any time: what it remembers is in range, and no expansion is left
to go on; no search that a request begins with uses an index that is out of range; a request is
refused if and only if its position is beyond the end, which changes nothing but the results; and
all that the results show are parts of the text. -/
structure InBounds (analysis : Analysis) : Prop where
  idle : analysis.idle.InBounds analysis.parser analysis.sentence
  ended (key : Key) (depth : Nat) : analysis.memo[key]? ≠ some (.active depth)
  searches (key : Key) (n : Nat) (search : Search) :
    key.InRange analysis.parser analysis.sentence → analysis.memo[key]? = none →
    (analysis.idle.enter analysis.parser.grammar key).after analysis.parser analysis.sentence n =
      some search →
    search.InBounds analysis.parser analysis.sentence ∧
      ∀ index bound, search.Uses analysis.parser analysis.sentence index bound → index < bound
  refused (request : Request) :
    analysis.sentence.length < request.offset analysis.sentence →
    analysis.perform request =
      (.error (.offsetBeyondEnd (request.offset analysis.sentence) analysis.sentence.length),
        { analysis with results := [] })
  answered (request : Request) :
    request.offset analysis.sentence ≤ analysis.sentence.length →
    (analysis.perform request).1 = .ok () ∧
      request.offset analysis.sentence < analysis.words.size ∧
      ∀ symbol, analysis.parser.grammar.indexOf? request.start = some symbol →
        (request.key analysis.sentence symbol).InRange analysis.parser analysis.sentence
  whole (start : Text) : (analysis.parseWhole start).1 = .ok ()
  surfaces : ∀ tree ∈ analysis.results, ∀ row ∈ tree.preorder 0,
    row.2.start ≤ row.2.stop ∧ row.2.stop < analysis.sentence.bytes.size ∧
      analysis.sentence.Shows analysis.sentence.raw row.2.start row.2.stop

theorem inBounds_afterAll (hgrammar : parser.grammar.InBounds) (text : Text)
    (requests : List Request) :
    ((ofSentence parser (.ofText text)).afterAll requests).InBounds := by
  obtain ⟨hparser, hsentence, hidle⟩ :=
    (bounded_ofSentence parser (.ofText text)).afterAll hgrammar requests
  obtain ⟨t, hshows, -⟩ :=
    (shows_ofSentence parser (.ofText text)).afterAll .empty requests
  have hresults := forward_results parser (.ofText text) requests
  generalize (ofSentence parser (.ofText text)).afterAll requests = analysis at *
  subst hparser
  have hanswered : ∀ request : Request,
      request.offset analysis.sentence ≤ analysis.sentence.length →
        (analysis.perform request).1 = .ok () := by
    intro request hle
    obtain ⟨t', -, -, hseen⟩ := hshows.perform request
    rw [hsentence] at hle
    rw [Request.answer, if_neg (Nat.not_lt.mpr hle)] at hseen
    exact congrArg Prod.fst hseen
  refine ⟨hsentence ▸ hidle, fun key depth hactive => ?_, fun key n search hkey _ hafter => ?_,
    fun request hlt => perform_of_lt hlt, fun request hle => ⟨hanswered request hle, ?_, ?_⟩,
    fun start => hanswered (.parseWhole start) ?_, fun tree htree row hrow => ?_⟩
  · rw [hshows.memo.lookup_done List.not_mem_nil] at hactive
    obtain ⟨ds, -, hds⟩ := Option.map_eq_some_iff.mp hactive
    cases hds
  · rw [hsentence] at hkey hafter ⊢
    have hin := (hidle.enter hkey fun _ he => by cases he).after hgrammar hafter
    exact ⟨hin, fun index bound => hin.uses hgrammar⟩
  · rw [show analysis.words.size = _ from hidle.size, ← hsentence]
    exact Nat.lt_succ_of_le hle
  · intro symbol hs
    exact ⟨(Array.findIdx?_eq_some_iff_getElem.mp hs).1, hle⟩
  · rw [hsentence]
    exact Sentence.afterSpace_le text
  · have hmirrors := Sentence.mirrors_ofText text
    obtain ⟨hforward, hupto⟩ := hresults tree htree
    obtain ⟨hle, hstop⟩ := hforward.of_mem_preorder tree hupto 0 row hrow
    rw [hsentence, hmirrors.size]
    exact ⟨hle, Nat.lt_succ_of_le hstop, hmirrors.shows _ _ hle hstop⟩

/-- Whatever is done with an analysis, it stays in bounds, and so are the words of the dictionary
that it looks up. -/
theorem inBounds_followAll (parser : Parser) (hdictionary : parser.dictionary.Made)
    (hgrammar : parser.grammar.Made) (operations : List Operation) :
    let analysis := (new parser).followAll operations
    (∀ entry ∈ parser.dictionary.toList, parser.dictionary.Holds entry) ∧
      analysis.parser = parser ∧ analysis.sentence = .ofText (textIn operations) ∧
      analysis.InBounds := by
  intro analysis
  obtain ⟨requests, heq⟩ := exists_afterAll parser operations
  obtain ⟨t, hshows, -⟩ := (shows_ofSentence parser (.ofText (textIn operations))).afterAll .empty
    requests
  rw [← heq] at hshows
  refine ⟨fun entry => hdictionary.holds, hshows.parser_eq, hshows.sentence_eq, ?_⟩
  change ((new parser).followAll operations).InBounds
  rw [heq]
  exact inBounds_afterAll hgrammar.inBounds _ requests

/-- After a second text, its end is the last position that is answered. -/
theorem inBounds_followAll_two :
    let entry : Entry := ⟨0, ['x'], { pos := some .noun }⟩
    let parser : Parser := ⟨⟨['x', '\x00'], #[entry]⟩, .direct, [' '], none⟩
    let analysis := (new parser).followAll [.reset ['y'], .ask (.parse ['a'] 0), .inspect,
      .reset ['x', '!'], .ask (.parseGiven ['x'] 0 { pos := some .noun })]
    parser.dictionary.Made ∧ parser.grammar.Made ∧ parser.dictionary.Holds entry ∧
      (analysis.perform (.parse ['a'] 2)).1 = .ok () ∧
      analysis.perform (.parse ['a'] 3) =
        (.error (.offsetBeyondEnd 3 2), { analysis with results := [] }) := by
  intro entry parser analysis
  have hdictionary : parser.dictionary.Made := .inr ⟨[0xC8, 0x90, 0x12, 0xFC, 2, 0, 0, 0,
    8, 0, 0, 0, 0, 0, 0, 0, 0x78, 0, 0, 0, 0, 0, 1, 0, 0, 0], ok_of_toOption (by decide +kernel)⟩
  have hgrammar : parser.grammar.Made := .inl ⟨_, Grammar.ofRules_direct⟩
  obtain ⟨hholds, -, hsentence, hin⟩ := inBounds_followAll parser hdictionary hgrammar
    [.reset ['y'], .ask (.parse ['a'] 0), .inspect, .reset ['x', '!'],
      .ask (.parseGiven ['x'] 0 { pos := some .noun })]
  have hlength : analysis.sentence.length = 2 := by
    rw [hsentence]
    decide +kernel
  have hanswered := hin.answered (.parse ['a'] 2) (Nat.le_of_eq hlength.symm)
  have hrefused := hin.refused (.parse ['a'] 3) (hlength.trans_lt (Nat.lt_succ_self 2))
  refine ⟨hdictionary, hgrammar, hholds entry (List.mem_singleton_self entry), hanswered.1, ?_⟩
  rw [← hlength]
  exact hrefused

end Analysis

end Concord
