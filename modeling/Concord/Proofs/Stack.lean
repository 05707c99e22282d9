import Concord.Proofs.Moves
import Concord.Proofs.Unfolding
import Mathlib.Logic.Relation

namespace Concord

/-- How deep the expansion of a key is, if it is going on. -/
def depthOf? : List Key → Key → Option Nat
  | [], _ => none
  | k :: path, key => if key = k then some path.length else depthOf? path key

/-- The least depth of the expansions that cut one short below a path. -/
def lowOf (path cut : List Key) : Nat :=
  (cut.filterMap (depthOf? path)).foldr min path.length

def Frame.expansion (f : Frame) : Expansion where
  key := f.key
  depth := f.path.length
  alternatives := f.alternatives
  elements := f.elements
  pending := f.pending.map Strand.branch
  advanced := (f.advanced.map Strand.branch).reverse
  results := f.results.map Derivation.tree
  low := lowOf f.path f.cut

/-- The memo of a table below a path. -/
structure Memo.Shows (memo : Memo) (t : Table) (path : List Key) : Prop where
  lookup : ∀ key, memo[key]? =
    match depthOf? path key with
    | some depth => some (.active depth)
    | none => (t key).map fun ds => .done (ds.map Derivation.tree)
  going : ∀ key ∈ path, t key = none

/-- The words remembered are those of the dictionary. -/
def Faithful (parser : Parser) (sentence : Sentence) (words : Array (Option (List Leaf))) : Prop :=
  ∀ pos leaves, words[pos]? = some (some leaves) → leaves = parser.leavesAt sentence pos

theorem depthOf?_eq_none {path : List Key} {key : Key} :
    depthOf? path key = none ↔ key ∉ path := by
  induction path with
  | nil => simp [depthOf?]
  | cons k path ih =>
    by_cases h : key = k
    · simp [depthOf?, h]
    · simp [depthOf?, h, ih]

theorem lt_of_depthOf? {path : List Key} {key : Key} {depth : Nat}
    (h : depthOf? path key = some depth) : depth < path.length := by
  induction path with
  | nil => simp [depthOf?] at h
  | cons k path ih =>
    unfold depthOf? at h
    split at h
    · cases h
      simp
    · have hlt := ih h
      simp only [List.length_cons]
      omega

theorem le_foldr_min {n m : Nat} {xs : List Nat} :
    n ≤ xs.foldr min m ↔ n ≤ m ∧ ∀ x ∈ xs, n ≤ x := by
  induction xs with
  | nil => simp
  | cons x xs ih =>
    simp only [List.foldr_cons, Nat.le_min, ih, List.forall_mem_cons]
    exact ⟨fun ⟨hx, hm, hall⟩ => ⟨hm, hx, hall⟩, fun ⟨hm, hx, hall⟩ => ⟨hx, hm, hall⟩⟩

theorem le_lowOf {n : Nat} {path cut : List Key} :
    n ≤ lowOf path cut ↔
      n ≤ path.length ∧ ∀ key ∈ cut, ∀ depth, depthOf? path key = some depth → n ≤ depth := by
  unfold lowOf
  rw [le_foldr_min]
  simp only [List.mem_filterMap]
  exact ⟨fun ⟨hn, h⟩ => ⟨hn, fun key hk depth hd => h depth ⟨key, hk, hd⟩⟩,
    fun ⟨hn, h⟩ => ⟨hn, fun depth ⟨key, hk, hd⟩ => h key hk depth hd⟩⟩

theorem lowOf_le (path cut : List Key) : lowOf path cut ≤ path.length :=
  (le_lowOf.mp (Nat.le_refl _)).1

theorem lowOf_nil (path : List Key) : lowOf path [] = path.length := rfl

theorem lowOf_singleton {path : List Key} {key : Key} {depth : Nat}
    (hd : depthOf? path key = some depth) : lowOf path [key] = depth := by
  have hlt := lt_of_depthOf? hd
  simp only [lowOf, List.filterMap_cons, hd, List.filterMap_nil, List.foldr_cons, List.foldr_nil]
  omega

theorem lowOf_lt {path cut : List Key} (hcut : cut ⊆ path) (hne : cut ≠ []) :
    lowOf path cut < path.length := by
  obtain ⟨key, hk⟩ := List.exists_mem_of_ne_nil cut hne
  have hsome : depthOf? path key ≠ none := fun h => depthOf?_eq_none.mp h (hcut hk)
  obtain ⟨depth, hd⟩ := Option.ne_none_iff_exists'.mp hsome
  have hle := (le_lowOf.mp (Nat.le_refl (lowOf path cut))).2 key hk depth hd
  have hlt := lt_of_depthOf? hd
  omega

/-- What cuts a callee short cuts the caller short unless it is the caller itself. -/
theorem lowOf_append (key : Key) (path cut cut' : List Key) :
    lowOf path (cut ++ cut'.filter (· ≠ key)) =
      min (lowOf path cut) (lowOf (key :: path) cut') := by
  have hsome : ∀ k depth, k ≠ key →
      (depthOf? (key :: path) k = some depth ↔ depthOf? path k = some depth) := by
    intro k depth hne
    simp [depthOf?, hne]
  refine Nat.le_antisymm (Nat.le_min.mpr ⟨?_, ?_⟩) ?_
  · refine le_lowOf.mpr ⟨lowOf_le _ _, fun k hk depth hd => ?_⟩
    exact (le_lowOf.mp (Nat.le_refl _)).2 k (List.mem_append_left _ hk) depth hd
  · have hlow := le_lowOf.mp (Nat.le_refl (lowOf path (cut ++ cut'.filter (· ≠ key))))
    refine le_lowOf.mpr ⟨?_, fun k hk depth hd => ?_⟩
    · simp only [List.length_cons]
      omega
    · by_cases hne : k = key
      · subst hne
        simp only [depthOf?, if_pos, Option.some.injEq] at hd
        omega
      · refine hlow.2 k (List.mem_append_right _ ?_) depth ((hsome k depth hne).mp hd)
        exact List.mem_filter.mpr ⟨hk, by simpa using hne⟩
  · have hl := le_lowOf.mp (Nat.min_le_left (lowOf path cut) (lowOf (key :: path) cut'))
    have hr := le_lowOf.mp (Nat.min_le_right (lowOf path cut) (lowOf (key :: path) cut'))
    refine le_lowOf.mpr ⟨hl.1, fun k hk depth hd => ?_⟩
    rcases List.mem_append.mp hk with hk | hk
    · exact hl.2 k hk depth hd
    · obtain ⟨hk, hne⟩ := List.mem_filter.mp hk
      exact hr.2 k hk depth ((hsome k depth (by simpa using hne)).mpr hd)

namespace Frame

variable {parser : Parser} {sentence : Sentence}

theorem expansion_toAlternative (f : Frame) (alternatives : List Pattern) :
    (f.toAlternative alternatives).expansion = f.expansion.toAlternative alternatives := by
  unfold toAlternative Expansion.toAlternative
  have hkey : f.expansion.key = f.key := rfl
  rw [hkey]
  cases alternatives.dropWhile (!·.admits f.key.inherited) with
  | nil => rfl
  | cons pattern rest => rfl

theorem expansion_start (grammar : Grammar) (path : List Key) (key : Key) :
    (start grammar path key).expansion = .start grammar key path.length := by
  unfold start Expansion.start
  rw [expansion_toAlternative]
  rfl

theorem expansion_finishAlternative (f : Frame) (parser : Parser) (alternatives : List Pattern) :
    (f.finishAlternative parser alternatives).expansion =
      f.expansion.finishAlternative parser.cap (parser.grammar.nameOf f.key.symbol)
        alternatives := by
  have hres : (f.results ++ f.pending.filterMap
      (·.finish? (parser.grammar.nameOf f.key.symbol) f.key)).map Derivation.tree =
      f.expansion.results ++ f.expansion.pending.filterMap
        (·.finish? (parser.grammar.nameOf f.key.symbol) f.expansion.key.start) := by
    simp only [List.map_append, List.map_filterMap, Strand.tree_finish?, expansion,
      List.filterMap_map, Function.comp_def]
  unfold finishAlternative Expansion.finishAlternative
  dsimp only
  rw [← hres]
  cases parser.cap with
  | none => exact expansion_toAlternative _ _
  | some cap =>
    dsimp only
    rw [List.length_map]
    split
    next =>
      rw [expansion_toAlternative]
      simp only [expansion, List.map_take]
    next => exact expansion_toAlternative _ _

theorem expansion_toElement (f : Frame) (elements : List Element) :
    (f.toElement elements).expansion = f.expansion.toElement elements := by
  simp [expansion, toElement, Expansion.toElement]

theorem expansion_continued (f : Frame) (pending next : List Strand) :
    (f.continued pending next).expansion =
      f.expansion.continued (pending.map Strand.branch) (next.map Strand.branch) := by
  simp [expansion, continued, Expansion.continued]

theorem map_branch_phrase? (strand : Strand) (term : Term) (answer : List Derivation) :
    (answer.filterMap (strand.phrase? term)).map Strand.branch =
      (answer.map Derivation.tree).filterMap (strand.branch.phrase? term) := by
  simp only [List.map_filterMap, List.filterMap_map, Strand.branch_phrase?, Function.comp_def]

theorem expansion_receive (f : Frame) (answer : List Derivation) (cut : List Key) :
    (f.receive answer cut).expansion =
      f.expansion.receive (answer.map Derivation.tree) (lowOf (f.key :: f.path) cut) := by
  have hlow : lowOf f.path (f.cut ++ cut.filter (· ≠ f.key)) =
      min f.expansion.low (lowOf (f.key :: f.path) cut) := lowOf_append _ _ _ _
  unfold receive Expansion.receive
  dsimp only
  rw [← hlow]
  cases he : f.elements with
  | nil => simp [expansion, he]
  | cons element elements =>
    cases element with
    | literal text => simp [expansion, he]
    | term term =>
      cases hp : f.pending with
      | nil => simp [expansion, he, hp]
      | cons strand pending =>
        rw [expansion_continued, map_branch_phrase?]
        simp [expansion, he, hp]

theorem callee?_expansion (f : Frame) : f.expansion.callee? = f.callee? := by
  unfold Expansion.callee? callee?
  dsimp only [expansion]
  cases f.alternatives with
  | nil => rfl
  | cons pattern alternatives =>
    cases f.elements with
    | nil => rfl
    | cons element elements => cases element <;> cases f.pending <;> rfl

theorem progress (parser : Parser) (sentence : Sentence) (f : Frame) :
    f.alternatives = [] ∨ (∃ g, f.Moves parser sentence g) ∨ ∃ callee, f.callee? = some callee := by
  cases ha : f.alternatives with
  | nil => exact .inl rfl
  | cons pattern alternatives =>
    right
    cases he : f.elements with
    | nil => exact .inl ⟨_, .finish ha he⟩
    | cons element elements =>
      cases hp : f.pending with
      | nil => exact .inl ⟨_, .pass ha he hp⟩
      | cons strand pending =>
        cases element with
        | literal text => exact .inl ⟨_, .literal ha he hp⟩
        | term term =>
          cases ht : term.target with
          | none => exact .inl ⟨_, .word ha he hp ht⟩
          | some symbol => exact .inr ⟨strand.callee symbol term, by simp [callee?, ha, he, hp, ht]⟩

end Frame

namespace Memo

variable {memo : Memo} {t : Table} {path : List Key}

theorem Shows.lookup_active (h : memo.Shows t path) {key : Key} {depth : Nat}
    (hd : depthOf? path key = some depth) : memo[key]? = some (.active depth) := by
  rw [h.lookup, hd]

theorem Shows.lookup_done (h : memo.Shows t path) {key : Key} (hd : key ∉ path) :
    memo[key]? = (t key).map fun ds => .done (ds.map Derivation.tree) := by
  rw [h.lookup, depthOf?_eq_none.mpr hd]

theorem Shows.enter (h : memo.Shows t path) {key : Key} (hkey : key ∉ path)
    (ht : t key = none) : Memo.Shows (memo.insert key (.active path.length)) t (key :: path) := by
  refine ⟨fun k => ?_, ?_⟩
  · rw [Std.HashMap.getElem?_insert]
    by_cases hk : key = k
    · simp [depthOf?, hk]
    · rw [if_neg (by simpa using hk), h.lookup]
      simp [depthOf?, Ne.symm hk]
  · intro k hk
    rcases List.mem_cons.mp hk with rfl | hk
    · exact ht
    · exact h.going k hk

theorem Shows.settle {g : Frame} (h : memo.Shows t (g.key :: path)) (hkey : g.key ∉ path)
    (hcut : g.CutOutside) :
    (memo.settle g.expansion).Shows (t.settle g) path := by
  have hg : t g.key = none := h.going _ List.mem_cons_self
  refine ⟨fun k => ?_, fun k hk => ?_⟩
  · by_cases hk : k = g.key
    · subst hk
      have hself : (memo.settle g.expansion)[g.key]? = _ := memo.getElem?_settle_self g.expansion
      rw [hself, depthOf?_eq_none.mpr hkey]
      by_cases hnil : g.cut = []
      · have hlow : ¬g.expansion.low < g.expansion.depth := by
          simp [Frame.expansion, hnil, lowOf_nil]
        rw [if_neg hlow]
        simp [Table.settle, hnil, Frame.expansion]
      · have hlow : g.expansion.low < g.expansion.depth := lowOf_lt hcut hnil
        rw [if_pos hlow]
        simp [Table.settle, hnil, hg]
    · rw [memo.getElem?_settle_of_ne g.expansion hk, h.lookup]
      simp [depthOf?, Table.settle, hk]
  · have hne : k ≠ g.key := by
      rintro rfl
      exact hkey hk
    rw [Table.settle_of_ne hne, h.going k (List.mem_cons_of_mem _ hk)]

end Memo

namespace Search

variable {parser : Parser} {sentence : Sentence} {search : Search} {t : Table} {f g : Frame}
variable {rest : List Expansion}

theorem leavesAt_eq (search : Search) (hwords : Faithful parser sentence search.words) (pos : Nat) :
    ∃ words, Faithful parser sentence words ∧
      search.leavesAt parser sentence pos =
        (parser.leavesAt sentence pos, { search with words }) := by
  unfold leavesAt
  split
  next leaves hpos => exact ⟨search.words, hwords, by rw [hwords pos leaves hpos]⟩
  next =>
    refine ⟨_, fun pos' leaves hpos' => ?_, rfl⟩
    rw [Array.getElem?_setIfInBounds] at hpos'
    split at hpos'
    next heq =>
      split at hpos'
      next =>
        cases hpos'
        rw [heq]
      next => cases hpos'
    next => exact hwords pos' leaves hpos'

theorem step_of_moves (hstack : search.stack = f.expansion :: rest)
    (hwords : Faithful parser sentence search.words) (m : f.Moves parser sentence g) :
    ∃ words, Faithful parser sentence words ∧
      search.step parser sentence =
        .running { search with words, stack := g.expansion :: rest } := by
  cases m with
  | @finish pattern alternatives ha he =>
    have ha' : f.expansion.alternatives = pattern :: alternatives := ha
    have he' : f.expansion.elements = [] := he
    refine ⟨search.words, hwords, ?_⟩
    rw [Frame.expansion_finishAlternative]
    simp only [step, hstack, ha', he']
    rfl
  | @pass pattern alternatives element elements ha he hp =>
    have ha' : f.expansion.alternatives = pattern :: alternatives := ha
    have he' : f.expansion.elements = element :: elements := he
    have hp' : f.expansion.pending = [] := by simp [Frame.expansion, hp]
    have hadv : f.expansion.advanced.isEmpty = f.advanced.isEmpty := by simp [Frame.expansion]
    refine ⟨search.words, hwords, ?_⟩
    simp only [step, hstack, ha', he', hp', hadv]
    split
    next => rw [Frame.expansion_toAlternative]
    next => rw [Frame.expansion_toElement]
  | @literal pattern alternatives text elements strand pending ha he hp =>
    have ha' : f.expansion.alternatives = pattern :: alternatives := ha
    have he' : f.expansion.elements = .literal text :: elements := he
    have hp' : f.expansion.pending = strand.branch :: pending.map Strand.branch := by
      simp [Frame.expansion, hp]
    refine ⟨search.words, hwords, ?_⟩
    rw [Frame.expansion_continued, ← Option.toList_map, Strand.branch_literal?]
    simp only [step, hstack, ha', he', hp']
  | @word pattern alternatives term elements strand pending ha he hp ht =>
    have ha' : f.expansion.alternatives = pattern :: alternatives := ha
    have he' : f.expansion.elements = .term term :: elements := he
    have hp' : f.expansion.pending = strand.branch :: pending.map Strand.branch := by
      simp [Frame.expansion, hp]
    obtain ⟨words, hw, hleaves⟩ := search.leavesAt_eq hwords strand.pos
    refine ⟨words, hw, ?_⟩
    rw [Frame.expansion_continued, List.map_filterMap]
    simp only [step, hstack, ha', he', hp', matchTerm, ht, Strand.branch_word?]
    have hpos : strand.branch.pos = strand.pos := rfl
    rw [hpos, hleaves]

theorem step_of_callee {callee : Key} (hstack : search.stack = f.expansion :: rest)
    (hmemo : search.memo.Shows t (f.key :: f.path)) (hc : f.callee? = some callee) :
    (∃ answer cut, f.Reply parser sentence t callee answer cut ∧
      search.step parser sentence =
        .running { search with stack := (f.receive answer cut).expansion :: rest }) ∨
    (t callee = none ∧ callee ∉ f.key :: f.path ∧ callee.InRange parser sentence ∧
      search.step parser sentence = .running (search.enter parser.grammar callee)) := by
  have hcall : f.expansion.callee? = some callee := f.callee?_expansion.trans hc
  have hlow : f.expansion.low ≤ lowOf (f.key :: f.path) [] := by
    rw [lowOf_nil]
    exact Nat.le_succ_of_le (lowOf_le f.path f.cut)
  by_cases hgoing : callee ∈ f.key :: f.path
  · left
    obtain ⟨depth, hd⟩ := Option.ne_none_iff_exists'.mp
      fun h => depthOf?_eq_none.mp h hgoing
    refine ⟨[], [callee], .cut hgoing, ?_⟩
    rw [step_of_cut hstack hcall (hmemo.lookup_active hd), Frame.expansion_receive,
      lowOf_singleton hd, List.map_nil, Expansion.receive_nil hcall]
  · have hlookup := hmemo.lookup_done hgoing
    cases htab : t callee with
    | some answer =>
      left
      rw [htab] at hlookup
      refine ⟨answer, [], .known htab, ?_⟩
      rw [Frame.expansion_receive]
      exact step_of_done hstack hcall hlookup hlow
    | none =>
      rw [htab] at hlookup
      by_cases hr : callee.InRange parser sentence
      · exact .inr ⟨rfl, hgoing, hr, step_of_call hstack hcall hlookup hr⟩
      · left
        refine ⟨[], [], .outside htab hr, ?_⟩
        rw [Frame.expansion_receive]
        exact step_of_outside hstack hcall hlookup hr hlow

def Follows (parser : Parser) (sentence : Sentence) (next search : Search) : Prop :=
  search.step parser sentence = .running next

theorem Valid.acc (valid : search.Valid parser sentence) :
    Acc (Follows parser sentence) search := by
  have hall : ∀ b : BoundedStack (Key.every parser sentence).length, ∀ s : Search,
      s.Valid parser sentence → s.ranks = b.ranks → Acc (Follows parser sentence) s := by
    intro b
    induction b using (WellFoundedRelation.wf (α := BoundedStack _)).induction with
    | _ b ih =>
      intro s hs hb
      refine ⟨_, fun next hnext => ?_⟩
      obtain ⟨hvalid, hdown⟩ := hs.step hnext
      refine ih ⟨next.ranks, by simpa [ranks] using hvalid.length_stack_le⟩ ?_ next hvalid rfl
      change StepDown next.ranks b.ranks
      rw [← hb]
      exact hdown
  exact hall ⟨search.ranks, by simpa [ranks] using valid.length_stack_le⟩ search valid rfl

open Relation in
theorem Valid.follows {next : Search} (valid : search.Valid parser sentence)
    (h : ReflTransGen (Follows parser sentence) next search) : next.Valid parser sentence := by
  induction h using ReflTransGen.head_induction_on with
  | refl => exact valid
  | head h _ ih => exact (ih.step h).1

open Relation in
theorem run_of_follows {next : Search} (valid : search.Valid parser sentence)
    (h : ReflTransGen (Follows parser sentence) next search) :
    ∃ valid', search.run parser sentence valid = next.run parser sentence valid' := by
  induction h using ReflTransGen.head_induction_on with
  | refl => exact ⟨valid, rfl⟩
  | @head next b h _ ih =>
    obtain ⟨hb, hrun⟩ := ih
    refine ⟨(hb.step h).1, ?_⟩
    rw [hrun, run]
    split
    next c hc =>
      rw [Follows, hc] at h
      cases h
      rfl
    next trees final hc =>
      rw [Follows, hc] at h
      cases h

theorem depth_eq (hstack : search.stack = f.expansion :: rest) :
    search.depth = (f.key :: f.path).length := by
  simp [depth, hstack, Frame.expansion]

/-- The innermost expansion shows a frame, above the others, and the memo shows a table and what is
going on. -/
structure Shows (parser : Parser) (sentence : Sentence) (search : Search) (t : Table) (f : Frame)
    (rest : List Expansion) : Prop where
  stack : search.stack = f.expansion :: rest
  memo : search.memo.Shows t (f.key :: f.path)
  words : Faithful parser sentence search.words
  cutOutside : f.CutOutside

theorem Shows.move (h : search.Shows parser sentence t f rest) (m : f.Moves parser sentence g) :
    ∃ next, Follows parser sentence next search ∧ next.Shows parser sentence t g rest := by
  obtain ⟨words, hwords, hstep⟩ := step_of_moves h.stack h.words m
  obtain ⟨hkey, hpath, hcut⟩ := m.fields
  refine ⟨_, hstep, rfl, ?_, hwords, ?_⟩
  · rw [hkey, hpath]
    exact h.memo
  · rw [Frame.CutOutside, hpath, hcut]
    exact h.cutOutside

theorem Shows.receive (h : search.Shows parser sentence t f rest) {answer : List Derivation}
    {cut : List Key} (hcut : cut ⊆ f.key :: f.path) :
    Search.Shows parser sentence { search with stack := (f.receive answer cut).expansion :: rest }
      t (f.receive answer cut) rest := by
  refine ⟨rfl, ?_, h.words, h.cutOutside.receive hcut answer⟩
  rw [Frame.key_receive, Frame.path_receive]
  exact h.memo

/-- A callee that is expanded begins on top of the stack. -/
theorem Shows.enter (h : search.Shows parser sentence t f rest) {callee : Key}
    (ht : t callee = none) (hm : callee ∉ f.key :: f.path) :
    (search.enter parser.grammar callee).Shows parser sentence t
      (.start parser.grammar (f.key :: f.path) callee) search.stack := by
  have hdepth := depth_eq h.stack
  refine ⟨?_, ?_, h.words, .start _ _ _⟩
  · rw [Frame.expansion_start, ← hdepth]
    rfl
  · have hactive := h.memo.enter hm ht
    rw [← hdepth] at hactive
    rwa [Frame.key_start, Frame.path_start]

/-- A callee that has run to its end leaves the stack, and the frame below it goes on. -/
theorem Shows.leave {t₁ : Table} {callee : Key} (h : search.Shows parser sentence t₁ g
      (f.expansion :: rest)) (hcut : f.CutOutside) (hm : callee ∉ f.key :: f.path)
    (call : Frame.Runs parser sentence t (.start parser.grammar (f.key :: f.path) callee) t₁ g) :
    ∃ next, Follows parser sentence next search ∧
      next.Shows parser sentence (t₁.settle g) (f.receive g.results g.cut) rest := by
  have hpath : g.path = f.key :: f.path := call.path_call
  have hended : g.expansion.alternatives = [] := call.alternatives_eq
  have hlow : g.expansion.low = lowOf (f.key :: f.path) g.cut := by
    rw [← hpath]
    rfl
  refine ⟨_, step_of_ended h.stack hended, ?_, ?_, h.words, hcut.receive (hpath ▸ h.cutOutside) _⟩
  · rw [Frame.expansion_receive, hlow]
    rfl
  · have hnew : g.key ∉ g.path := by rwa [call.key_call, hpath]
    have hsettled := h.memo.settle hnew h.cutOutside
    rw [Frame.key_receive, Frame.path_receive]
    rwa [hpath] at hsettled

open Relation in
/-- From when a frame is on top of the stack until it ends, the search follows a run of it. -/
theorem Shows.runs (h : search.Shows parser sentence t f rest)
    (valid : search.Valid parser sentence) :
    ∃ t' f' last, f.Runs parser sentence t t' f' ∧
      ReflTransGen (Follows parser sentence) last search ∧
      last.Shows parser sentence t' f' rest := by
  -- Less is left to do after each step, also for a callee that is expanded above the frame.
  have hacc := valid.acc.transGen
  induction hacc generalizing f t rest with
  | intro search _ ih =>
    have hgo : ∀ {next : Search} {t₁ : Table} {f₁ : Frame},
        TransGen (Follows parser sentence) next search → next.Shows parser sentence t₁ f₁ rest →
        (∀ t' f', f₁.Runs parser sentence t₁ t' f' → f.Runs parser sentence t t' f') →
        ∃ t' f' last, f.Runs parser sentence t t' f' ∧
          ReflTransGen (Follows parser sentence) last search ∧
          last.Shows parser sentence t' f' rest := by
      intro next t₁ f₁ hfollows hnext hruns
      obtain ⟨t', f', last, hrun, hlast, hshows⟩ :=
        ih next hfollows hnext (valid.follows hfollows.to_reflTransGen)
      exact ⟨t', f', last, hruns t' f' hrun, hlast.trans hfollows.to_reflTransGen, hshows⟩
    rcases f.progress parser sentence with hdone | ⟨g, m⟩ | ⟨callee, hc⟩
    · exact ⟨t, f, search, .done hdone, .refl, h⟩
    · obtain ⟨next, hstep, hnext⟩ := h.move m
      exact hgo (.single hstep) hnext fun _ _ hrun => .move m hrun
    · rcases step_of_callee h.stack h.memo hc with
        ⟨answer, cut, hr, hstep⟩ | ⟨ht, hm, hr, hstep⟩
      · exact hgo (.single hstep) (h.receive hr.cut_subset) fun _ _ hrun => .reply hc hr hrun
      · obtain ⟨t₁, g, last, call, hlast, hcalled⟩ :=
          ih _ (.single hstep) (h.enter ht hm) (valid.step hstep).1
        rw [h.stack] at hcalled
        obtain ⟨next, hleave, hnext⟩ := hcalled.leave h.cutOutside hm call
        exact hgo (.head' hleave (hlast.tail hstep)) hnext
          fun _ _ hrun => .expand hc ht hm hr call hrun

section expansion

variable {memo : Memo} {words : Array (Option (List Leaf))} {key : Key}

open Relation in
/-- The expansion of a key that is not done comes to an end. -/
theorem exists_finished (hrange : key.InRange parser sentence) (hnew : key ∉ memo)
    (hmemo : memo.Shows t []) (hwords : Faithful parser sentence words) :
    ∃ t' f' last, (Frame.start parser.grammar [] key).Runs parser sentence t t' f' ∧
      ReflTransGen (Follows parser sentence) last
        ((⟨memo, words, []⟩ : Search).enter parser.grammar key) ∧
      last.stack = [f'.expansion] ∧ last.memo.Shows t' [f'.key] ∧
      Faithful parser sentence last.words ∧
      last.step parser sentence = .finished (f'.results.map Derivation.tree)
        { last with memo := last.memo.settle f'.expansion, stack := [] } := by
  have ht : t key = none := by
    have hlookup := hmemo.lookup_done (List.not_mem_nil : key ∉ [])
    rw [Std.HashMap.getElem?_eq_none hnew] at hlookup
    simpa using hlookup.symm
  have hnil : Valid parser sentence ⟨memo, words, []⟩ := valid_of_stack_nil rfl
  have hshows : ((⟨memo, words, []⟩ : Search).enter parser.grammar key).Shows parser sentence t
      (.start parser.grammar [] key) [] := by
    refine ⟨?_, ?_, hwords, .start _ _ _⟩
    · rw [Frame.expansion_start]
      rfl
    · rw [Frame.key_start, Frame.path_start]
      exact hmemo.enter List.not_mem_nil ht
  obtain ⟨t', f', last, hrun, hfollows, hlast⟩ := hshows.runs (hnil.enter hrange hnew (by simp))
  have hended : f'.expansion.alternatives = [] := hrun.alternatives_eq
  have hmemo' := hlast.memo
  rw [hrun.path_call] at hmemo'
  exact ⟨t', f', last, hrun, hfollows, hlast.stack, hmemo', hlast.words,
    step_of_ended hlast.stack hended⟩

open Relation in
theorem treesOf_of_finished {last final : Search} {trees : List Tree}
    (hrange : key.InRange parser sentence) (hnew : key ∉ memo)
    (hfollows : ReflTransGen (Follows parser sentence) last
      ((⟨memo, words, []⟩ : Search).enter parser.grammar key))
    (hstep : last.step parser sentence = .finished trees final) :
    treesOf parser sentence memo words key hrange hnew = (trees, final) := by
  obtain ⟨hlast, heq⟩ :=
    run_of_follows ((valid_of_stack_nil rfl).enter hrange hnew (by simp)) hfollows
  unfold treesOf
  rw [heq, run]
  split
  next c hc =>
    rw [hstep] at hc
    cases hc
  next trees final hc =>
    rw [hstep] at hc
    cases hc
    rfl

/-- A key that is not done is expanded by a run of its frame, which is settled in the end. -/
theorem treesOf_eq (hrange : key.InRange parser sentence) (hnew : key ∉ memo)
    (hmemo : memo.Shows t []) (hwords : Faithful parser sentence words) :
    ∃ t' f' final, (Frame.start parser.grammar [] key).Runs parser sentence t t' f' ∧
      treesOf parser sentence memo words key hrange hnew =
        (f'.results.map Derivation.tree, final) ∧
      final.memo.Shows (t'.settle f') [] ∧ Faithful parser sentence final.words := by
  obtain ⟨t', f', last, hrun, hfollows, -, hlm, hlw, hstep⟩ :=
    exists_finished hrange hnew hmemo hwords
  exact ⟨t', f', _, hrun, treesOf_of_finished hrange hnew hfollows hstep,
    hlm.settle List.not_mem_nil (hrun.cutOutside (.start _ _ _)), hlw⟩

end expansion

end Search

end Concord
