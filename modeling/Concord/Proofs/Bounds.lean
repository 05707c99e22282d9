import Concord.Proofs.Linking
import Concord.Proofs.Matching
import Concord.Proofs.Surface
import Concord.Proofs.Termination

namespace Concord

/-- The variables of the alternative are among those counted, and its terms are linked to symbols
that there are. -/
structure Pattern.InBounds (grammar : Grammar) (pattern : Pattern) : Prop where
  counted : pattern.Scoped
  targets : ∀ term ∈ pattern.terms, ∀ symbol, term.target = some symbol → symbol < grammar.size

def Grammar.InBounds (grammar : Grammar) : Prop :=
  ∀ symbol, ∀ pattern ∈ grammar.alternatives symbol, pattern.InBounds grammar

/-- There are so many variables, and the exported ones are among them. -/
structure Bindings.InBounds (count : Nat) (bindings : Bindings) : Prop where
  values : bindings.values.length = count
  exports : ∀ kind index, .variable kind index ∈ bindings.exports → index < count

structure Branch.InBounds (sentence : Sentence) (count : Nat) (branch : Branch) : Prop where
  pos : branch.pos ≤ sentence.length
  bindings : branch.bindings.InBounds count
  children : ∀ tree ∈ branch.children, tree.Upto sentence.length

/-- The key is in range, the alternatives and elements still to match are the last ones of the
symbol, and the branches are those of the first of these alternatives. -/
structure Expansion.InBounds (parser : Parser) (sentence : Sentence) (e : Expansion) : Prop where
  key : e.key.InRange parser sentence
  alternatives : e.alternatives <:+ parser.grammar.alternatives e.key.symbol
  ended : e.alternatives = [] → e.elements = [] ∧ e.pending = [] ∧ e.advanced = []
  current : ∀ pattern rest, e.alternatives = pattern :: rest → e.elements <:+ pattern.elements ∧
    (∀ branch ∈ e.pending, branch.InBounds sentence pattern.variableCount) ∧
    ∀ branch ∈ e.advanced, branch.InBounds sentence pattern.variableCount
  results : ∀ tree ∈ e.results, tree.Upto sentence.length

/-- There is a place for the words at each position. What is remembered, and each expansion that is
going on, has its indices in range. -/
structure Search.InBounds (parser : Parser) (sentence : Sentence) (search : Search) : Prop where
  size : search.words.size = sentence.length + 1
  words : ∀ (pos : Nat) (leaves : List Leaf), search.words[pos]? = some (some leaves) →
    ∀ leaf ∈ leaves, (Tree.leaf leaf).Upto sentence.length
  keys : ∀ key ∈ search.memo, key.InRange parser sentence
  done : ∀ (key : Key) (trees : List Tree), search.memo[key]? = some (.done trees) →
    ∀ tree ∈ trees, tree.Upto sentence.length
  stack : ∀ e ∈ search.stack, e.InBounds parser sentence
  waiting : ∀ e ∈ search.stack.tail, e.alternatives ≠ []

/-- What a search has to look up next, or once an expansion that waits goes on: an index, and the
number of things that it counts among. -/
inductive Search.Uses (parser : Parser) (sentence : Sentence) (search : Search) : Nat → Nat → Prop
    where
  | symbol {e : Expansion} (he : e ∈ search.stack) :
      Uses parser sentence search e.key.symbol parser.grammar.size
  | alternative {e : Expansion} (he : e ∈ search.stack.tail) :
      Uses parser sentence search
        ((parser.grammar.alternatives e.key.symbol).length - e.alternatives.length)
        (parser.grammar.alternatives e.key.symbol).length
  | position {e : Expansion} {branch : Branch} (he : e ∈ search.stack)
      (hbranch : branch ∈ e.pending ∨ branch ∈ e.advanced) :
      Uses parser sentence search branch.pos (sentence.length + 1)
  | variable {e : Expansion} {term : Term} {elements : List Element} {branch : Branch}
      {clause : Clause} {index : Nat} (he : e ∈ search.stack)
      (helements : e.elements = .term term :: elements) (hbranch : branch ∈ e.pending)
      (hclause : clause ∈ term.clauses) (hvalue : clause.value = .variable index) :
      Uses parser sentence search index branch.bindings.values.length
  | exported {e : Expansion} {branch : Branch} {kind : Attribute} {index : Nat}
      (he : e ∈ search.stack) (hbranch : branch ∈ e.pending)
      (hexport : .variable kind index ∈ branch.bindings.exports) :
      Uses parser sentence search index branch.bindings.values.length
  | target {e : Expansion} {term : Term} {elements : List Element} {symbol : Nat}
      (he : e ∈ search.stack) (helements : e.elements = .term term :: elements)
      (htarget : term.target = some symbol) :
      Uses parser sentence search symbol parser.grammar.size
  | word {e : Expansion} {branch : Branch} (he : e ∈ search.stack) (hbranch : branch ∈ e.pending) :
      Uses parser sentence search branch.pos search.words.size
  | wordEnd {e : Expansion} {branch : Branch} (he : e ∈ search.stack)
      (hbranch : branch ∈ e.pending) :
      Uses parser sentence search (sentence.endOfWord branch.pos) (sentence.length + 1)

theorem foldlM_preserves {α β : Type} {p : β → Prop} {f : β → α → Option β} {xs : List α} {b b' : β}
    (hstep : ∀ b x b', x ∈ xs → p b → f b x = some b' → p b') (hb : p b)
    (h : xs.foldlM f b = some b') : p b' := by
  induction xs generalizing b with
  | nil =>
    cases h
    exact hb
  | cons x xs ih =>
    rw [List.foldlM_cons] at h
    obtain ⟨middle, hmiddle, h⟩ := Option.bind_eq_some_iff.mp h
    exact ih (fun b y b' hy => hstep b y b' (List.mem_cons_of_mem x hy))
      (hstep b x middle List.mem_cons_self hb hmiddle) h

section grammar

variable {grammar : Grammar}

theorem Grammar.inBounds_of_ofRules {rules : List Rule} (h : ofRules rules = .ok grammar) :
    grammar.InBounds := by
  intro symbol pattern hpattern
  refine ⟨(scoped_of_ofRules h).alternatives hpattern, fun term hterm target htarget => ?_⟩
  unfold alternatives at hpattern
  split at hpattern
  next found hfound =>
    have hmem : found ∈ grammar.symbols := Array.mem_of_getElem? hfound
    obtain ⟨name, -, hname⟩ :=
      (((links_of_ofRules h).linked found hmem pattern hpattern term hterm).1 target).mp htarget
    have hlt := (List.getElem?_eq_some_iff.mp hname).1
    simpa [names, size] using hlt
  next => cases hpattern

theorem Grammar.inBounds_of_ofBytes {bytes : Bytes} (h : ofBytes bytes = .ok grammar) :
    grammar.InBounds := by
  obtain ⟨rules, -, hrules⟩ := exists_ok_of_bind h
  exact inBounds_of_ofRules hrules

end grammar

section bindings

variable {count : Nat} {bindings b : Bindings} {clause : Clause} {features : Features}

theorem Bindings.inBounds_fresh (count : Nat) : (Bindings.fresh count).InBounds count :=
  ⟨List.length_replicate, fun _ _ h => by cases h⟩

theorem Bindings.InBounds.exporting (h : bindings.InBounds count) (clause : Clause)
    {exported : Export}
    (hexported : ∀ kind index, exported = .variable kind index → index < count) :
    (bindings.exporting clause exported).InBounds count := by
  unfold Bindings.exporting
  split
  · refine ⟨h.values, fun kind index hmem => ?_⟩
    rcases List.mem_append.mp hmem with hmem | hmem
    · exact h.exports kind index hmem
    · exact hexported kind index (List.mem_singleton.mp hmem).symm
  · exact h

theorem Bindings.InBounds.agree (h : bindings.InBounds count) {index : Nat} (hi : index < count)
    {feature : Feature} (hagree : bindings.agree index feature = some b) : b.InBounds count := by
  obtain ⟨hvalues, hexports, -⟩ := agree_sound hagree (h.values ▸ hi)
  exact ⟨hvalues.trans h.values, hexports ▸ h.exports⟩

theorem Clause.unifyWord_inBounds (h : bindings.InBounds count)
    (hclause : ∀ index, clause.value = .variable index → index < count)
    (hunify : clause.unifyWord features bindings = some b) : b.InBounds count := by
  rw [unifyWord_eq] at hunify
  obtain ⟨actual, -, hunify⟩ := Option.bind_eq_some_iff.mp hunify
  obtain ⟨middle, hmiddle, rfl⟩ := Option.map_eq_some_iff.mp hunify
  refine Bindings.InBounds.exporting ?_ clause nofun
  cases hvalue : clause.value with
  | any =>
    rw [hvalue] at hmiddle
    cases hmiddle
    exact h
  | literal value =>
    simp only [hvalue] at hmiddle
    split at hmiddle
    · cases hmiddle
      exact h
    · cases hmiddle
  | «variable» index =>
    rw [hvalue] at hmiddle
    exact h.agree (hclause index hvalue) hmiddle

theorem Clause.unifyPhrase_inBounds (h : bindings.InBounds count)
    (hclause : ∀ index, clause.value = .variable index → index < count)
    (hunify : clause.unifyPhrase features bindings = some b) : b.InBounds count := by
  unfold unifyPhrase at hunify
  split at hunify
  · cases hunify
  · cases hunify
    exact h.exporting clause nofun
  · cases hunify
    exact h.exporting clause nofun
  · split at hunify
    · cases hunify
      exact h.exporting clause nofun
    · cases hunify
  next index hvalue _ =>
    cases hunify
    refine h.exporting clause fun kind other heq => ?_
    cases heq
    exact hclause index hvalue
  next index actual hvalue _ =>
    obtain ⟨middle, hmiddle, rfl⟩ := Option.map_eq_some_iff.mp hunify
    refine (h.agree (hclause index hvalue) hmiddle).exporting clause fun kind other heq => ?_
    cases heq
    exact hclause index hvalue

end bindings

theorem Tree.Upto.stop_le {m : Nat} {tree : Tree} (h : tree.Upto m) : tree.stop ≤ m := by
  cases tree with
  | leaf leaf =>
    rw [Upto] at h
    exact h.2
  | phrase =>
    rw [Upto] at h
    exact h.2.1

namespace Branch

variable {sentence : Sentence} {pattern : Pattern} {branch next : Branch} {term : Term}

theorem inBounds_start {pos : Nat} (hpos : pos ≤ sentence.length) (pattern : Pattern) :
    (Branch.start pos pattern).InBounds sentence pattern.variableCount :=
  ⟨hpos, Bindings.inBounds_fresh _, fun _ h => by cases h⟩

theorem InBounds.literal? {count : Nat} (h : branch.InBounds sentence count) {text : Text}
    (hnext : branch.literal? sentence text = some next) : next.InBounds sentence count := by
  obtain ⟨stop, hstop, rfl⟩ := Option.map_eq_some_iff.mp hnext
  exact ⟨Sentence.endOf?_le hstop h.pos, h.bindings, h.children⟩

theorem InBounds.follow {count : Nat} (h : branch.InBounds sentence count) {bindings : Bindings}
    (hbindings : bindings.InBounds count) {tree : Tree} (htree : tree.Upto sentence.length) :
    (branch.follow bindings tree).InBounds sentence count :=
  ⟨htree.stop_le, hbindings,
    List.forall_mem_append.mpr ⟨h.children, List.forall_mem_singleton.mpr htree⟩⟩

theorem InBounds.word? (h : branch.InBounds sentence pattern.variableCount)
    (hpattern : pattern.Scoped) (hterm : term ∈ pattern.terms) {leaf : Leaf}
    (hleaf : (Tree.leaf leaf).Upto sentence.length) (hnext : branch.word? term leaf = some next) :
    next.InBounds sentence pattern.variableCount := by
  obtain ⟨bindings, hbindings, rfl⟩ := Option.map_eq_some_iff.mp hnext
  refine h.follow (foldlM_preserves (fun b clause b' hclause hb => ?_) h.bindings hbindings) hleaf
  exact Clause.unifyWord_inBounds hb (hpattern term hterm clause hclause)

theorem InBounds.phrase? (h : branch.InBounds sentence pattern.variableCount)
    (hpattern : pattern.Scoped) (hterm : term ∈ pattern.terms) {tree : Tree}
    (htree : tree.Upto sentence.length) (hnext : branch.phrase? term tree = some next) :
    next.InBounds sentence pattern.variableCount := by
  obtain ⟨bindings, hbindings, rfl⟩ := Option.map_eq_some_iff.mp hnext
  refine h.follow (foldlM_preserves (fun b clause b' hclause hb => ?_) h.bindings hbindings) htree
  exact Clause.unifyPhrase_inBounds hb (hpattern term hterm clause hclause)

theorem InBounds.finish? {count : Nat} (h : branch.InBounds sentence count) {name : Text}
    {start : Nat} (hstart : start ≤ sentence.length) {tree : Tree}
    (htree : branch.finish? name start = some tree) : tree.Upto sentence.length := by
  obtain ⟨features, -, rfl⟩ := Option.map_eq_some_iff.mp htree
  rw [Tree.Upto]
  exact ⟨hstart, h.pos, h.children⟩

end Branch

variable {parser : Parser} {sentence : Sentence}

namespace Expansion

variable {e : Expansion} {pattern : Pattern} {alternatives : List Pattern}

theorem inBounds_toAlternative (hkey : e.key.InRange parser sentence)
    (halternatives : alternatives <:+ parser.grammar.alternatives e.key.symbol)
    (hresults : ∀ tree ∈ e.results, tree.Upto sentence.length) :
    (e.toAlternative alternatives).InBounds parser sentence := by
  have hsuffix := (List.dropWhile_suffix (l := alternatives)
    (!·.admits e.key.inherited)).trans halternatives
  unfold toAlternative
  split
  next => exact ⟨hkey, List.nil_suffix, fun _ => ⟨rfl, rfl, rfl⟩, nofun, hresults⟩
  next first rest hdrop =>
    rw [hdrop] at hsuffix
    refine ⟨hkey, hsuffix, nofun, fun _ _ h => ?_, hresults⟩
    cases h
    exact ⟨List.suffix_rfl,
      List.forall_mem_singleton.mpr (Branch.inBounds_start hkey.2 first), nofun⟩

theorem inBounds_start {key : Key} (hkey : key.InRange parser sentence) (depth : Nat) :
    (Expansion.start parser.grammar key depth).InBounds parser sentence :=
  inBounds_toAlternative hkey List.suffix_rfl nofun

theorem InBounds.rest (h : e.InBounds parser sentence)
    (ha : e.alternatives = pattern :: alternatives) :
    alternatives <:+ parser.grammar.alternatives e.key.symbol :=
  (List.suffix_cons pattern alternatives).trans (ha ▸ h.alternatives)

theorem InBounds.finishAlternative (h : e.InBounds parser sentence)
    (ha : e.alternatives = pattern :: alternatives) (cap : Option Nat) (name : Text) :
    (e.finishAlternative cap name alternatives).InBounds parser sentence := by
  have hresults : ∀ tree ∈ e.results ++ e.pending.filterMap (·.finish? name e.key.start),
      tree.Upto sentence.length := by
    refine List.forall_mem_append.mpr ⟨h.results, fun tree htree => ?_⟩
    obtain ⟨branch, hbranch, hfinish⟩ := List.mem_filterMap.mp htree
    exact ((h.current pattern alternatives ha).2.1 branch hbranch).finish? h.key.2 hfinish
  unfold Expansion.finishAlternative
  dsimp only
  split
  next => exact inBounds_toAlternative h.key (h.rest ha) hresults
  next cap _ =>
    split
    next =>
      exact inBounds_toAlternative h.key List.nil_suffix
        fun tree htree => hresults tree (List.mem_of_mem_take htree)
    next => exact inBounds_toAlternative h.key (h.rest ha) hresults

theorem InBounds.toElement (h : e.InBounds parser sentence) {element : Element}
    {elements : List Element} (he : e.elements = element :: elements) :
    (e.toElement elements).InBounds parser sentence := by
  refine ⟨h.key, h.alternatives, fun ha => ?_, fun pattern rest ha => ?_, h.results⟩
  · cases he.symm.trans (h.ended ha).1
  · obtain ⟨helements, -, hadvanced⟩ := h.current pattern rest ha
    rw [he] at helements
    exact ⟨(List.suffix_cons element elements).trans helements,
      fun branch hbranch => hadvanced branch (List.mem_reverse.mp hbranch), nofun⟩

/-- A branch is replaced by its continuations, of which there may be none. -/
theorem InBounds.replaced (h : e.InBounds parser sentence) {branch : Branch}
    {pending next : List Branch} (hp : e.pending = branch :: pending)
    (hnext : ∀ pattern rest, e.alternatives = pattern :: rest → ∀ b ∈ next,
      b.InBounds sentence pattern.variableCount) (low : Nat) :
    Expansion.InBounds parser sentence
      { e with pending, advanced := next.reverse ++ e.advanced, low } := by
  refine ⟨h.key, h.alternatives, fun ha => ?_, fun pattern rest ha => ?_, h.results⟩
  · cases hp.symm.trans (h.ended ha).2.1
  obtain ⟨helements, hpending, hadvanced⟩ := h.current pattern rest ha
  rw [hp] at hpending
  refine ⟨helements, (List.forall_mem_cons.mp hpending).2, fun b hb => ?_⟩
  rcases List.mem_append.mp hb with hb | hb
  · exact hnext pattern rest ha b (List.mem_reverse.mp hb)
  · exact hadvanced b hb

variable {term : Term} {elements : List Element} {branch : Branch} {pending : List Branch}

/-- There is an alternative as long as there are branches. -/
theorem InBounds.exists_pattern (h : e.InBounds parser sentence)
    (hbranch : branch ∈ e.pending ∨ branch ∈ e.advanced) :
    ∃ pattern rest, e.alternatives = pattern :: rest ∧
      branch.InBounds sentence pattern.variableCount := by
  cases ha : e.alternatives with
  | nil =>
    obtain ⟨-, hpending, hadvanced⟩ := h.ended ha
    rw [hpending, hadvanced] at hbranch
    exact (not_or_intro List.not_mem_nil List.not_mem_nil hbranch).elim
  | cons pattern rest =>
    obtain ⟨-, hpending, hadvanced⟩ := h.current pattern rest ha
    exact ⟨pattern, rest, rfl, hbranch.elim (hpending branch) (hadvanced branch)⟩

theorem InBounds.pos_le (h : e.InBounds parser sentence)
    (hbranch : branch ∈ e.pending ∨ branch ∈ e.advanced) : branch.pos ≤ sentence.length := by
  obtain ⟨pattern, rest, -, hin⟩ := h.exists_pattern hbranch
  exact hin.pos

theorem InBounds.dropped (h : e.InBounds parser sentence) (hp : e.pending = branch :: pending)
    (low : Nat) : Expansion.InBounds parser sentence { e with pending, low } := by
  have hnone : ∀ pattern rest, e.alternatives = pattern :: rest → ∀ b ∈ ([] : List Branch),
      b.InBounds sentence pattern.variableCount := fun _ _ _ b hb => by cases hb
  exact h.replaced hp hnone low

theorem InBounds.mem_terms (h : e.InBounds parser sentence) {rest : List Pattern}
    (ha : e.alternatives = pattern :: rest) (he : e.elements = .term term :: elements) :
    pattern ∈ parser.grammar.alternatives e.key.symbol ∧ term ∈ pattern.terms := by
  refine ⟨h.alternatives.subset (ha ▸ List.mem_cons_self), ?_⟩
  have hterm : .term term ∈ pattern.elements :=
    (h.current pattern rest ha).1.subset (he ▸ List.mem_cons_self)
  exact List.mem_filterMap.mpr ⟨_, hterm, rfl⟩

/-- What a branch is continued by where a term is matched. -/
theorem InBounds.found {α : Type} (h : e.InBounds parser sentence)
    (hgrammar : parser.grammar.InBounds) (he : e.elements = .term term :: elements)
    (hp : e.pending = branch :: pending) {found : List α} {grow : α → Option Branch}
    (hgrow : ∀ pattern : Pattern, pattern.Scoped → term ∈ pattern.terms →
      branch.InBounds sentence pattern.variableCount → ∀ x ∈ found, ∀ b, grow x = some b →
        b.InBounds sentence pattern.variableCount) :
    ∀ pattern rest, e.alternatives = pattern :: rest →
      ∀ b ∈ found.filterMap grow, b.InBounds sentence pattern.variableCount := by
  intro pattern rest ha b hb
  obtain ⟨hpattern, hterm⟩ := h.mem_terms ha he
  obtain ⟨x, hx, hb⟩ := List.mem_filterMap.mp hb
  exact hgrow pattern (hgrammar _ pattern hpattern).counted hterm
    ((h.current pattern rest ha).2.1 branch (hp ▸ List.mem_cons_self)) x hx b hb

theorem InBounds.phrase? (h : e.InBounds parser sentence) (hgrammar : parser.grammar.InBounds)
    (he : e.elements = .term term :: elements) (hp : e.pending = branch :: pending)
    {trees : List Tree} (htrees : ∀ tree ∈ trees, tree.Upto sentence.length) :
    ∀ pattern rest, e.alternatives = pattern :: rest →
      ∀ b ∈ trees.filterMap (branch.phrase? term), b.InBounds sentence pattern.variableCount :=
  h.found hgrammar he hp fun _ hpattern hterm hbranch tree htree _ =>
    hbranch.phrase? hpattern hterm (htrees tree htree)

theorem InBounds.receive (h : e.InBounds parser sentence) (hgrammar : parser.grammar.InBounds)
    {trees : List Tree} (htrees : ∀ tree ∈ trees, tree.Upto sentence.length) (low : Nat) :
    (e.receive trees low).InBounds parser sentence := by
  unfold Expansion.receive
  dsimp only
  split
  next term _ branch pending he hp =>
    exact h.replaced hp (h.phrase? hgrammar he hp htrees) _
  next => exact ⟨h.key, h.alternatives, h.ended, h.current, h.results⟩

end Expansion

theorem Parser.upto_leavesAt (parser : Parser) {pos : Nat} (hpos : pos ≤ sentence.length) :
    ∀ leaf ∈ parser.leavesAt sentence pos, (Tree.leaf leaf).Upto sentence.length := by
  intro leaf hleaf
  rw [Tree.Upto, start_of_mem_leavesAt hleaf]
  exact ⟨hpos, stop_le_of_mem_leavesAt hleaf hpos⟩

namespace Search

variable {search next : Search} {top : Expansion} {rest : List Expansion}

/-- When nothing goes on, only what is remembered has to be in range. -/
theorem inBounds_idle {memo : Memo} {words : Array (Option (List Leaf))}
    (hsize : words.size = sentence.length + 1)
    (hwords : ∀ (pos : Nat) (leaves : List Leaf), words[pos]? = some (some leaves) →
      ∀ leaf ∈ leaves, (Tree.leaf leaf).Upto sentence.length)
    (hkeys : ∀ key ∈ memo, key.InRange parser sentence)
    (hdone : ∀ (key : Key) (trees : List Tree), memo[key]? = some (.done trees) →
      ∀ tree ∈ trees, tree.Upto sentence.length) :
    Search.InBounds parser sentence ⟨memo, words, []⟩ :=
  ⟨hsize, hwords, hkeys, hdone, fun _ he => absurd he List.not_mem_nil,
    fun _ he => absurd he List.not_mem_nil⟩

theorem InBounds.idle (h : search.InBounds parser sentence) :
    Search.InBounds parser sentence ⟨search.memo, search.words, []⟩ :=
  inBounds_idle h.size h.words h.keys h.done

theorem inBounds_empty (sentence : Sentence) :
    Search.InBounds parser sentence ⟨{}, Array.replicate (sentence.length + 1) none, []⟩ := by
  refine inBounds_idle Array.size_replicate (fun pos leaves hpos => ?_) (fun key hkey => ?_)
    fun key trees h => ?_
  · rw [Array.getElem?_replicate] at hpos
    split at hpos <;> cases hpos
  · exact absurd hkey Std.HashMap.not_mem_empty
  · cases Std.HashMap.getElem?_empty.symm.trans h

theorem InBounds.replace (h : search.InBounds parser sentence) (hstack : search.stack = top :: rest)
    {top' : Expansion} (htop : top'.InBounds parser sentence) :
    Search.InBounds parser sentence { search with stack := top' :: rest } := by
  obtain ⟨hsize, hwords, hkeys, hdone, hall, hwaiting⟩ := h
  rw [hstack] at hall hwaiting
  exact ⟨hsize, hwords, hkeys, hdone,
    List.forall_mem_cons.mpr ⟨htop, (List.forall_mem_cons.mp hall).2⟩, hwaiting⟩

theorem InBounds.leavesAt (h : search.InBounds parser sentence) {pos : Nat}
    (hpos : pos ≤ sentence.length) :
    (∀ leaf ∈ (search.leavesAt parser sentence pos).1, (Tree.leaf leaf).Upto sentence.length) ∧
      (search.leavesAt parser sentence pos).2.InBounds parser sentence := by
  unfold Search.leavesAt
  split
  next leaves hleaves => exact ⟨h.words pos leaves hleaves, h⟩
  next =>
    have hfound := parser.upto_leavesAt hpos
    refine ⟨hfound, (Array.size_setIfInBounds).trans h.size, fun pos' leaves hleaves => ?_, h.keys,
      h.done, h.stack, h.waiting⟩
    rw [Array.getElem?_setIfInBounds] at hleaves
    split at hleaves
    · split at hleaves
      · cases hleaves
        exact hfound
      · cases hleaves
    · exact h.words pos' leaves hleaves

theorem InBounds.enter (h : search.InBounds parser sentence) {key : Key}
    (hkey : key.InRange parser sentence) (hwaiting : ∀ e ∈ search.stack, e.alternatives ≠ []) :
    (search.enter parser.grammar key).InBounds parser sentence := by
  refine ⟨h.size, h.words, fun k hk => ?_, fun k trees hk => ?_,
    List.forall_mem_cons.mpr ⟨Expansion.inBounds_start hkey _, h.stack⟩, hwaiting⟩
  · rcases Std.HashMap.mem_insert.mp hk with hsame | hk
    · exact LawfulBEq.eq_of_beq hsame ▸ hkey
    · exact h.keys k hk
  · simp only [Search.enter, Std.HashMap.getElem?_insert] at hk
    split at hk
    · cases hk
    · exact h.done k trees hk

/-- What an expansion that has ended leaves behind. -/
theorem InBounds.settle (h : search.InBounds parser sentence)
    (htop : top.InBounds parser sentence) :
    Search.InBounds parser sentence ⟨search.memo.settle top, search.words, []⟩ := by
  refine inBounds_idle h.size h.words (fun key hkey => ?_) fun key trees hkey => ?_
  · by_cases hk : key = top.key
    · exact hk ▸ htop.key
    · rw [Std.HashMap.mem_iff_isSome_getElem?, Memo.getElem?_settle_of_ne _ _ hk,
        ← Std.HashMap.mem_iff_isSome_getElem?] at hkey
      exact h.keys key hkey
  · by_cases hk : key = top.key
    · rw [hk, Memo.getElem?_settle_self] at hkey
      split at hkey
      · cases hkey
      · cases hkey
        exact htop.results
    · rw [Memo.getElem?_settle_of_ne _ _ hk] at hkey
      exact h.done key trees hkey

end Search

/-- What a step leads to is in bounds, and so are the derivations that are found. -/
def Outcome.InBounds (parser : Parser) (sentence : Sentence) : Outcome → Prop
  | .running search => search.InBounds parser sentence
  | .finished trees search =>
    (∀ tree ∈ trees, tree.Upto sentence.length) ∧ search.InBounds parser sentence

namespace Search

variable {search next : Search} {top : Expansion} {rest : List Expansion}

theorem InBounds.leave (h : search.InBounds parser sentence) (hgrammar : parser.grammar.InBounds)
    (hstack : search.stack = top :: rest) : (search.leave top rest).InBounds parser sentence := by
  have hall := h.stack
  have hwaiting := h.waiting
  rw [hstack] at hall hwaiting
  obtain ⟨htop, hrest⟩ := List.forall_mem_cons.mp hall
  obtain ⟨hsize, hwords, hkeys, hdone, -, -⟩ := h.settle htop
  unfold Search.leave
  split
  next => exact ⟨htop.results, h.settle htop⟩
  next waiting rest =>
    obtain ⟨hfirst, hothers⟩ := List.forall_mem_cons.mp hrest
    exact ⟨hsize, hwords, hkeys, hdone,
      List.forall_mem_cons.mpr ⟨hfirst.receive hgrammar htop.results _, hothers⟩,
      fun e he => hwaiting e (List.mem_cons_of_mem _ he)⟩

theorem InBounds.matchTerm (h : search.InBounds parser sentence)
    (hgrammar : parser.grammar.InBounds) (hstack : search.stack = top :: rest) {pattern : Pattern}
    {alternatives : List Pattern} (ha : top.alternatives = pattern :: alternatives) {term : Term}
    {elements : List Element} (he : top.elements = .term term :: elements) {branch : Branch}
    {pending : List Branch} (hp : top.pending = branch :: pending) :
    (search.matchTerm parser sentence top rest branch pending term).InBounds parser sentence := by
  have hall := h.stack
  have hwaiting := h.waiting
  rw [hstack] at hall hwaiting
  obtain ⟨htop, -⟩ := List.forall_mem_cons.mp hall
  have hpos := ((htop.current pattern alternatives ha).2.1 branch (hp ▸ List.mem_cons_self)).pos
  unfold Search.matchTerm
  split
  next =>
    obtain ⟨hleaves, hnext⟩ := h.leavesAt hpos
    have hfound := htop.found hgrammar he hp fun _ hpattern hterm hbranch leaf hleaf _ =>
      hbranch.word? hpattern hterm (hleaves leaf hleaf)
    exact hnext.replace ((leavesAt_stack _).trans hstack) (htop.replaced hp hfound top.low)
  next symbol _ =>
    dsimp only
    split
    next trees htrees =>
      exact h.replace hstack
        (htop.replaced hp (htop.phrase? hgrammar he hp (h.done _ trees htrees)) top.low)
    next depth _ => exact h.replace hstack (htop.dropped hp (min top.low depth))
    next =>
      split
      next hrange =>
        refine h.enter hrange fun e hmem => ?_
        rw [hstack] at hmem
        rcases List.mem_cons.mp hmem with rfl | hmem
        · exact ha ▸ List.cons_ne_nil _ _
        · exact hwaiting e hmem
      next => exact h.replace hstack (htop.dropped hp top.low)

/-- A step keeps to the bounds. -/
theorem InBounds.step (h : search.InBounds parser sentence) (hgrammar : parser.grammar.InBounds) :
    (search.step parser sentence).InBounds parser sentence := by
  unfold Search.step
  split
  next => exact ⟨nofun, h⟩
  next top rest hstack =>
    have htop : top.InBounds parser sentence := h.stack top (hstack ▸ List.mem_cons_self)
    split
    next => exact h.leave hgrammar hstack
    next _ alternatives ha _ => exact h.replace hstack (htop.finishAlternative ha _ _)
    next _ alternatives _ elements ha he _ =>
      refine h.replace hstack ?_
      split
      · exact Expansion.inBounds_toAlternative htop.key (htop.rest ha) htop.results
      · exact htop.toElement he
    next text _ branch pending _ hp hne =>
      refine h.replace hstack (htop.replaced hp (fun pattern alternatives ha b hb => ?_) top.low)
      exact ((htop.current pattern alternatives ha).2.1 branch (hp ▸ List.mem_cons_self)).literal?
        (Option.mem_toList.mp hb)
    next term elements branch pending he hp hne =>
      cases ha : top.alternatives with
      | nil => exact absurd (he.symm.trans (htop.ended ha).1) (List.cons_ne_nil _ _)
      | cons pattern alternatives => exact h.matchTerm hgrammar hstack ha he hp

theorem InBounds.after (h : search.InBounds parser sentence) (hgrammar : parser.grammar.InBounds)
    {n : Nat} (hnext : search.after parser sentence n = some next) :
    next.InBounds parser sentence := by
  refine after_preserves (fun last next h hstep => ?_) h hnext
  have hbounds := h.step hgrammar
  rw [hstep] at hbounds
  exact hbounds

theorem InBounds.run (h : search.InBounds parser sentence) (hgrammar : parser.grammar.InBounds)
    (valid : search.Valid parser sentence) :
    (∀ tree ∈ (search.run parser sentence valid).1, tree.Upto sentence.length) ∧
      (search.run parser sentence valid).2.InBounds parser sentence := by
  have hstep := h.step hgrammar
  fun_induction search.run parser sentence valid with
  | case1 search valid next hnext ih =>
    rw [hnext] at hstep
    exact ih hstep (hstep.step hgrammar)
  | case2 search valid trees final hfinal =>
    rw [hfinal] at hstep
    exact hstep

theorem InBounds.uses (h : search.InBounds parser sentence) (hgrammar : parser.grammar.InBounds)
    {index bound : Nat} (huses : search.Uses parser sentence index bound) : index < bound := by
  cases huses with
  | symbol he => exact (h.stack _ he).key.1
  | @alternative e he =>
    have hin := h.stack e (List.mem_of_mem_tail he)
    have hle := hin.alternatives.length_le
    have hne := List.length_pos_iff.mpr (h.waiting e he)
    omega
  | position he hbranch => exact Nat.lt_succ_of_le ((h.stack _ he).pos_le hbranch)
  | «variable» he helements hbranch hclause hvalue =>
    obtain ⟨pattern, rest, ha, hin⟩ := (h.stack _ he).exists_pattern (.inl hbranch)
    obtain ⟨hpattern, hterm⟩ := (h.stack _ he).mem_terms ha helements
    rw [hin.bindings.values]
    exact (hgrammar _ pattern hpattern).counted _ hterm _ hclause _ hvalue
  | exported he hbranch hexport =>
    obtain ⟨pattern, rest, -, hin⟩ := (h.stack _ he).exists_pattern (.inl hbranch)
    rw [hin.bindings.values]
    exact hin.bindings.exports _ _ hexport
  | @target e _ _ _ he helements htarget =>
    cases ha : e.alternatives with
    | nil => exact absurd (helements.symm.trans ((h.stack e he).ended ha).1) (List.cons_ne_nil _ _)
    | cons pattern rest =>
      obtain ⟨hpattern, hterm⟩ := (h.stack e he).mem_terms ha helements
      exact (hgrammar _ pattern hpattern).targets _ hterm _ htarget
  | word he hbranch =>
    rw [h.size]
    exact Nat.lt_succ_of_le ((h.stack _ he).pos_le (.inl hbranch))
  | wordEnd he hbranch =>
    exact Nat.lt_succ_of_le (Sentence.endOfWord_le ((h.stack _ he).pos_le (.inl hbranch)))

end Search

end Concord
