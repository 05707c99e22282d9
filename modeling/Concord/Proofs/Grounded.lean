import Concord.Proofs.Acyclic
import Concord.Proofs.Plain
import Mathlib.Order.Filter.AtTopBot.Basic

namespace Concord

open Filter

section limits

variable {answersAt : Nat → Answers} {answers : Answers}

theorem eventually_gather {α β : Type} {f : Nat → α → Option (List β)} {g : α → Option (List β)}
    (h : ∀ x, ∀ᶠ depth in atTop, f depth x = g x) (xs : List α) :
    ∀ᶠ depth in atTop, gather (f depth) xs = gather g xs := by
  induction xs with
  | nil => exact .of_forall fun _ => rfl
  | cons x xs ih =>
    filter_upwards [h x, ih] with depth hx hxs
    rw [gather, gather, hx, hxs]

namespace Strand

theorem eventually_advance (parser : Parser) (sentence : Sentence)
    (h : ∀ key, ∀ᶠ depth in atTop, answersAt depth key = answers key) (element : Element)
    (strand : Strand) :
    ∀ᶠ depth in atTop, strand.advance parser sentence (answersAt depth) element =
      strand.advance parser sentence answers element := by
  cases element with
  | literal text => exact .of_forall fun _ => rfl
  | term term =>
    cases ht : term.target with
    | none => exact .of_forall fun _ => by simp only [advance, ht]
    | some symbol =>
      filter_upwards [h (strand.callee symbol term)] with depth hcallee
      simp only [advance, ht, hcallee]

theorem eventually_advanceAll (parser : Parser) (sentence : Sentence)
    (h : ∀ key, ∀ᶠ depth in atTop, answersAt depth key = answers key) (elements : List Element)
    (strands : List Strand) :
    ∀ᶠ depth in atTop, advanceAll parser sentence (answersAt depth) elements strands =
      advanceAll parser sentence answers elements strands := by
  induction elements generalizing strands with
  | nil => exact .of_forall fun _ => rfl
  | cons element elements ih =>
    have hfirst := eventually_gather (eventually_advance parser sentence h element) strands
    simp only [advanceAll, advanceEach_eq_gather]
    cases hnext : gather (·.advance parser sentence answers element) strands with
    | none =>
      filter_upwards [hfirst] with depth hdepth
      rw [hdepth, hnext]
      rfl
    | some next =>
      filter_upwards [hfirst, ih next] with depth hdepth hlast
      rw [hdepth, hnext, Option.bind_some, Option.bind_some, hlast]

end Strand

theorem Key.eventually_expandWith (parser : Parser) (sentence : Sentence)
    (h : ∀ key, ∀ᶠ depth in atTop, answersAt depth key = answers key) (key : Key) :
    ∀ᶠ depth in atTop, key.expandWith parser sentence (answersAt depth) =
      key.expandWith parser sentence answers := by
  simp only [expandWith, tryEach_eq_gather]
  have hpattern : ∀ pattern : Pattern, ∀ᶠ depth in atTop,
      (Strand.advanceAll parser sentence (answersAt depth) pattern.elements
        [.start key.start pattern]).map (·.filterMap
          (·.finish? (parser.grammar.nameOf key.symbol) key)) =
      (Strand.advanceAll parser sentence answers pattern.elements
        [.start key.start pattern]).map (·.filterMap
          (·.finish? (parser.grammar.nameOf key.symbol) key)) := by
    intro pattern
    filter_upwards [Strand.eventually_advanceAll parser sentence h pattern.elements
      [.start key.start pattern]] with depth hdepth
    rw [hdepth]
  filter_upwards [eventually_gather hpattern _] with depth hdepth
  rw [hdepth]

end limits

namespace Key

/-- The search for the key meets no left recursion: the plain search answers. -/
def Grounded (parser : Parser) (sentence : Sentence) (key : Key) : Prop :=
  ∃ depth ds, key.plain parser sentence depth = some ds

open Classical in
/-- What the plain search answers, however deep it has to go. -/
noncomputable def answer (parser : Parser) (sentence : Sentence) : Answers := fun key =>
  if h : key.Grounded parser sentence then key.plain parser sentence h.choose else none

variable {parser : Parser} {sentence : Sentence} {key callee : Key} {d : Derivation}

theorem eventually_plain (parser : Parser) (sentence : Sentence) (key : Key) : ∀ᶠ depth in atTop,
    key.plain parser sentence depth = key.answer parser sentence := by
  unfold answer
  by_cases h : key.Grounded parser sentence
  · rw [dif_pos h]
    obtain ⟨ds, hds⟩ := h.choose_spec
    filter_upwards [eventually_ge_atTop h.choose] with depth hle
    rw [hds, plain_mono hle key ds hds]
  · rw [dif_neg h]
    refine .of_forall fun depth => ?_
    cases hds : key.plain parser sentence depth with
    | none => rfl
    | some ds => exact absurd ⟨depth, ds, hds⟩ h

theorem answer_eq_some {ds : List Derivation} : key.answer parser sentence = some ds ↔
    ∃ depth, key.plain parser sentence depth = some ds := by
  constructor
  · intro h
    obtain ⟨depth, hdepth⟩ := (eventually_plain parser sentence key).exists
    exact ⟨depth, hdepth.trans h⟩
  · rintro ⟨depth, h⟩
    obtain ⟨later, hlater, hle⟩ :=
      ((eventually_plain parser sentence key).and (eventually_ge_atTop depth)).exists
    rw [← hlater]
    exact plain_mono hle key ds h

/-- What is answered without regard to depth is answered in terms of itself. -/
theorem answer_eq_expandWith (key : Key) : key.answer parser sentence =
    key.expandWith parser sentence (answer parser sentence) := by
  have hnext : ∀ᶠ depth in atTop,
      key.plain parser sentence (depth + 1) = key.answer parser sentence :=
    (tendsto_add_atTop_nat 1).eventually (eventually_plain parser sentence key)
  have hsame := eventually_expandWith parser sentence (eventually_plain parser sentence) key
  obtain ⟨depth, hanswer, hexpand⟩ := (hnext.and hsame).exists
  rw [← hanswer, ← hexpand, plain]

theorem grounded_iff_answer : key.Grounded parser sentence ↔
    ∃ ds, key.answer parser sentence = some ds := by
  simp only [answer_eq_some]
  exact exists_comm

theorem finds_iff : key.Finds parser sentence d ↔ (answer parser sentence).Has key d := by
  simp only [Finds, Answers.Has, answer_eq_some]
  constructor
  · rintro ⟨depth, ds, hds, hd⟩
    exact ⟨ds, ⟨depth, hds⟩, hd⟩
  · rintro ⟨ds, ⟨depth, hds⟩, hd⟩
    exact ⟨depth, ds, hds, hd⟩

/-- A call is answered less deep than the expansion that makes it. -/
theorem plain_of_calls {depth : Nat} {ds : List Derivation}
    (h : key.plain parser sentence (depth + 1) = some ds)
    (hcall : key.Calls parser sentence (Finds parser sentence) callee) :
    ∃ found, callee.plain parser sentence depth = some found := by
  refine answered_of_calls (fun k found d hfound hfinds => ?_) h hcall
  obtain ⟨depth', ds', hds', hd⟩ := hfinds
  rwa [plain_unique hfound hds']

theorem Grounded.calls (h : key.Grounded parser sentence)
    (hcall : key.Calls parser sentence (Finds parser sentence) callee) :
    callee.Grounded parser sentence := by
  obtain ⟨depth, ds, hds⟩ := h
  cases depth with
  | zero => cases hds
  | succ depth =>
    obtain ⟨found, hfound⟩ := plain_of_calls hds hcall
    exact ⟨depth, found, hfound⟩

theorem Grounded.visits (h : key.Grounded parser sentence) {visited : Key}
    (hvisits : key.Visits parser sentence visited) : visited.Grounded parser sentence := by
  induction hvisits with
  | refl => exact h
  | tail _ hcall ih => exact ih.calls hcall

/-- A key that leads back to itself is not answered at any depth. -/
theorem Grounded.not_transGen (h : key.Grounded parser sentence) :
    ¬Relation.TransGen (Calls parser sentence (Finds parser sentence)) key key := by
  intro hloop
  -- All keys along the loop, and so the key itself, are answered less deep than the key.
  have hless : ∀ depth ds reached, key.plain parser sentence (depth + 1) = some ds →
      Relation.TransGen (Calls parser sentence (Finds parser sentence)) key reached →
        ∃ found, reached.plain parser sentence depth = some found := by
    intro depth ds reached hds hreached
    induction hreached with
    | single hcall => exact plain_of_calls hds hcall
    | tail _ hcall ih =>
      obtain ⟨found, hfound⟩ := ih
      exact plain_of_calls (plain_succ depth _ found hfound) hcall
  obtain ⟨depth, ds, hds⟩ := h
  induction depth generalizing ds with
  | zero => cases hds
  | succ depth ih =>
    obtain ⟨found, hfound⟩ := hless depth ds key hds hloop
    exact ih found hfound

theorem stop_le_of_finds (h : key.Finds parser sentence d) (hpos : key.start ≤ sentence.length) :
    d.stop ≤ sentence.length := by
  obtain ⟨depth, ds, hds, hd⟩ := h
  induction depth generalizing key ds d with
  | zero => cases hds
  | succ depth ih =>
    refine ((builds_of_mem_expandWith hds hd).within hpos ?_).1
    rintro callee part - ⟨found, hfound, hpart⟩ hstart
    exact ih hstart found hfound hpart

end Key

variable {parser : Parser} {sentence : Sentence}

theorem Strand.Asks.start_le {callee : Key} {elements : List Element} {strand : Strand}
    (h : strand.Asks parser sentence (Key.Finds parser sentence) elements callee)
    (hpos : strand.pos ≤ sentence.length) : callee.start ≤ sentence.length := by
  induction elements generalizing strand with
  | nil => cases h
  | cons element elements ih =>
    rcases h with ⟨term, symbol, -, -, rfl⟩ | ⟨next, hpass, hasks⟩
    · exact hpos
    · exact ih hasks (hpass.within hpos fun _ _ _ hfinds => Key.stop_le_of_finds hfinds).1

namespace Key

variable {key callee : Key}

theorem Calls.inRange (h : key.Calls parser sentence (Finds parser sentence) callee)
    (hpos : key.start ≤ sentence.length) : key.InRange parser sentence := by
  obtain ⟨pattern, hp, -⟩ := h
  exact ⟨Grammar.lt_size_of_mem hp, hpos⟩

theorem Calls.start_le (h : key.Calls parser sentence (Finds parser sentence) callee)
    (hpos : key.start ≤ sentence.length) : callee.start ≤ sentence.length := by
  obtain ⟨pattern, -, -, hasks⟩ := h
  exact hasks.start_le hpos

/-- Without loops, the keys further out are different ones, of which there are not many. -/
theorem grounded_of_not_transGen (path : List Key) (hpos : key.start ≤ sentence.length)
    (hloops : ∀ visited, key.Visits parser sentence visited →
      ¬Relation.TransGen (Calls parser sentence (Finds parser sentence)) visited visited)
    (hpath : ∀ outer ∈ path,
      Relation.TransGen (Calls parser sentence (Finds parser sentence)) outer key) :
    key.Grounded parser sentence := by
  -- The induction is on the keys that the path has not come to.
  induction hn : ((Key.every parser sentence).filter (· ∉ path)).length using Nat.strongRecOn
    generalizing key path with
  | _ n ih =>
    subst hn
    have hnot : key ∉ path := fun hmem => hloops key .refl (hpath key hmem)
    obtain ⟨ds, hds⟩ : ∃ ds,
        key.expandWith parser sentence (answer parser sentence) = some ds := by
      refine exists_expandWith fun callee hcall => grounded_iff_answer.mp ?_
      have hfinds := hcall.mono fun _ _ => finds_iff.mpr
      have hless := length_filter_not_mem_lt (mem_every (hfinds.inRange hpos)) hnot
      refine ih _ hless (key :: path) (hfinds.start_le hpos)
        (fun visited hvisits => hloops visited (hvisits.head hfinds)) ?_ rfl
      rintro outer (_ | ⟨_, hmem⟩)
      · exact .single hfinds
      · exact (hpath outer hmem).tail hfinds
    rw [← answer_eq_expandWith] at hds
    exact grounded_iff_answer.mpr ⟨ds, hds⟩

/-- The plain search answers a key if and only if no key that it comes to leads back to itself. -/
theorem grounded_iff (hpos : key.start ≤ sentence.length) : key.Grounded parser sentence ↔
    ∀ visited, key.Visits parser sentence visited →
      ¬Relation.TransGen (Calls parser sentence (Finds parser sentence)) visited visited :=
  ⟨fun h _ hvisits => (h.visits hvisits).not_transGen,
    fun hloops => grounded_of_not_transGen [] hpos hloops fun _ hmem => by cases hmem⟩

end Key

/-- The search for a request, if it is for a symbol in the sentence, meets no left recursion. -/
def Request.Grounded (parser : Parser) (sentence : Sentence) (request : Request) : Prop :=
  ∀ symbol, parser.grammar.indexOf? request.start = some symbol →
    request.offset sentence ≤ sentence.length →
      (request.key sentence symbol).Grounded parser sentence

theorem Request.grounded_of_plain {parser : Parser} {sentence : Sentence} {request : Request}
    {symbol : Nat} (hs : parser.grammar.indexOf? request.start = some symbol) {depth : Nat}
    {found : List Derivation}
    (hfound : (request.key sentence symbol).plain parser sentence depth = some found) :
    request.Grounded parser sentence := by
  intro symbol' hs' _
  cases hs.symm.trans hs'
  exact ⟨depth, found, hfound⟩

namespace Analysis

variable {sentence : Sentence}

theorem seen_words (parser : Parser) (requests : List Request) (request : Request)
    (hs : parser.grammar.indexOf? request.start = none)
    (ho : request.offset sentence ≤ sentence.length) :
    ((ofSentence parser sentence).afterAll requests).seen request =
      (.ok (), (parser.wordTrees sentence request.start (request.offset sentence)
        request.inherited).filter (request.keeps sentence)) := by
  obtain ⟨t, -, -, hseen⟩ := exists_answer parser sentence requests request
  have htrees : request.trees parser sentence t = parser.wordTrees sentence request.start
      (request.offset sentence) request.inherited := by simp only [Request.trees, hs]
  rw [hseen, Request.answer, htrees]
  exact if_neg (Nat.not_lt.mpr ho)

/-- Where the plain search answers the key of a request, the request is answered with that. -/
theorem seen_plain (parser : Parser) (requests : List Request) (request : Request)
    {symbol : Nat} (hs : parser.grammar.indexOf? request.start = some symbol)
    (ho : request.offset sentence ≤ sentence.length) {depth : Nat} {found : List Derivation}
    (hfound : (request.key sentence symbol).plain parser sentence depth = some found) :
    ((ofSentence parser sentence).afterAll requests).seen request =
      (.ok (), (found.map Derivation.tree).filter (request.keeps sentence)) := by
  obtain ⟨t, ht, hdone, hseen⟩ := exists_answer parser sentence requests request
  obtain ⟨ds, hds⟩ := hdone symbol hs ho
  have heq := ht.steady _ ds hds depth found (Key.plain_le_steady depth _ found hfound)
  have htrees : request.trees parser sentence t = found.map Derivation.tree := by
    simp only [Request.trees, hs, hds, heq, Option.getD_some]
  rw [hseen, Request.answer, htrees]
  exact if_neg (Nat.not_lt.mpr ho)

theorem seen_parse_plain (parser : Parser) (requests : List Request) {start : Text}
    {symbol offset : Nat} (hs : parser.grammar.indexOf? start = some symbol)
    (ho : offset ≤ sentence.length) {depth : Nat} {found : List Derivation}
    (hfound : Key.plain parser sentence depth ⟨symbol, offset, .empty⟩ = some found) :
    ((ofSentence parser sentence).afterAll requests).seen (.parse start offset) =
      (.ok (), found.map Derivation.tree) := by
  have hkeeps : (found.map Derivation.tree).filter (Request.keeps sentence (.parse start offset)) =
      found.map Derivation.tree := List.filter_eq_self.mpr fun _ _ => rfl
  rw [← hkeeps]
  exact seen_plain parser requests (.parse start offset) hs ho hfound

end Analysis

end Concord
