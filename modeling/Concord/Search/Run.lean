import Concord.Search.KeySpace
import Concord.Search.Rank

namespace Concord

/-- An expansion that waits for another one has a branch for it, at a term. -/
def Expansion.Waiting (e : Expansion) : Prop :=
  ∃ term elements branch pending,
    e.elements = .term term :: elements ∧ e.pending = branch :: pending

def Expansion.rank (e : Expansion) : Rank :=
  ⟨e.alternatives.length, e.elements.length, e.pending.length⟩

namespace Expansion

@[simp] theorem key_toAlternative (e : Expansion) (alternatives : List Pattern) :
    (e.toAlternative alternatives).key = e.key := by
  unfold toAlternative
  split <;> rfl

@[simp] theorem key_start (grammar : Grammar) (key : Key) (depth : Nat) :
    (Expansion.start grammar key depth).key = key := by
  simp [Expansion.start]

@[simp] theorem key_finishAlternative (e : Expansion) (cap : Option Nat) (name : Text)
    (alternatives : List Pattern) :
    (e.finishAlternative cap name alternatives).key = e.key := by
  unfold finishAlternative
  dsimp only
  split
  · simp
  · split <;> simp

@[simp] theorem key_receive (e : Expansion) (trees : List Tree) (low : Nat) :
    (e.receive trees low).key = e.key := by
  unfold receive
  dsimp only
  split <;> rfl

theorem length_alternatives_toAlternative (e : Expansion) (alternatives : List Pattern) :
    (e.toAlternative alternatives).alternatives.length ≤ alternatives.length := by
  have h := (List.dropWhile_suffix (l := alternatives)
    (!·.admits e.key.inherited)).length_le
  unfold toAlternative
  split
  · exact Nat.zero_le _
  next hd => simpa only [← hd] using h

theorem length_alternatives_finishAlternative (e : Expansion) (cap : Option Nat) (name : Text)
    (alternatives : List Pattern) :
    (e.finishAlternative cap name alternatives).alternatives.length
      ≤ alternatives.length := by
  unfold finishAlternative
  dsimp only
  split
  · exact length_alternatives_toAlternative _ _
  · split
    · exact Nat.le_trans (length_alternatives_toAlternative _ _) (Nat.zero_le _)
    · exact length_alternatives_toAlternative _ _

/-- An expansion that waited has less to do once it goes on. -/
theorem rank_receive {e : Expansion} (h : e.Waiting) (trees : List Tree) (low : Nat) :
    (e.receive trees low).rank.Less e.rank := by
  obtain ⟨term, elements, branch, pending, he, hp⟩ := h
  simp only [receive, he, hp]
  exact Rank.less_of_branches rfl (by simp [rank, continued, he]) (by simp [rank, continued, hp])

end Expansion

/-- The keys on the stack are different ones, in range, and in the memo; the expansions below the
innermost one wait. -/
structure Search.Valid (parser : Parser) (sentence : Sentence) (search : Search) : Prop where
  nodup : (search.stack.map Expansion.key).Nodup
  inRange : ∀ key ∈ search.stack.map Expansion.key, key.InRange parser sentence
  known : ∀ key ∈ search.stack.map Expansion.key, key ∈ search.memo
  waiting : ∀ e ∈ search.stack.tail, e.Waiting

def Search.ranks (search : Search) : List Rank :=
  (search.stack.map Expansion.rank).reverse

namespace Search

variable {parser : Parser} {sentence : Sentence} {search next : Search}

theorem Valid.length_stack_le (valid : search.Valid parser sentence) :
    search.stack.length ≤ (Key.every parser sentence).length := by
  have h := valid.nodup.length_le_of_subset fun key hk => Key.mem_every (valid.inRange key hk)
  simpa using h

theorem not_mem_of_getElem? {memo : Memo} {key : Key} (h : memo[key]? = none) : key ∉ memo := by
  rw [Std.HashMap.mem_iff_isSome_getElem?, h]
  exact Bool.false_ne_true

theorem Valid.replace {top top' : Expansion} {rest : List Expansion}
    (valid : search.Valid parser sentence) (hstack : search.stack = top :: rest)
    (hnext : next.stack = top' :: rest) (hkey : top'.key = top.key)
    (hmemo : next.memo = search.memo) : next.Valid parser sentence := by
  have hkeys : next.stack.map Expansion.key = search.stack.map Expansion.key := by
    simp [hstack, hnext, hkey]
  refine ⟨hkeys ▸ valid.nodup, hkeys ▸ valid.inRange, ?_, ?_⟩
  · rw [hkeys, hmemo]
    exact valid.known
  · have h := valid.waiting
    rw [hstack] at h
    rwa [hnext]

theorem stepDown_replace {top top' : Expansion} {rest : List Expansion}
    (hstack : search.stack = top :: rest) (hnext : next.stack = top' :: rest)
    (hrank : top'.rank.Less top.rank) : StepDown next.ranks search.ranks := by
  simp only [ranks, hstack, hnext, List.map_cons, List.reverse_cons]
  exact (StepDown.lower [] [] hrank).append _

theorem Valid.enter {key : Key} (valid : search.Valid parser sentence)
    (hrange : key.InRange parser sentence) (hnew : key ∉ search.memo)
    (hwait : ∀ e ∈ search.stack, e.Waiting) :
    (search.enter parser.grammar key).Valid parser sentence := by
  refine ⟨?_, ?_, ?_, hwait⟩
  · simp only [Search.enter, List.map_cons, Expansion.key_start, List.nodup_cons]
    exact ⟨fun h => hnew (valid.known key h), valid.nodup⟩
  · simp only [Search.enter, List.map_cons, Expansion.key_start, List.mem_cons]
    rintro k (rfl | hk)
    · exact hrange
    · exact valid.inRange k hk
  · simp only [Search.enter, List.map_cons, Expansion.key_start, List.mem_cons,
      Std.HashMap.mem_insert]
    rintro k (rfl | hk)
    · exact .inl (by simp)
    · exact .inr (valid.known k hk)

theorem stepDown_enter (key : Key) :
    StepDown (search.enter parser.grammar key).ranks search.ranks := by
  simp only [ranks, Search.enter, List.map_cons, List.reverse_cons]
  simpa using (StepDown.push _).append (search.stack.map Expansion.rank).reverse

theorem Valid.leave {top : Expansion} {rest : List Expansion} (valid : search.Valid parser sentence)
    (hstack : search.stack = top :: rest) (h : search.leave top rest = .running next) :
    next.Valid parser sentence ∧ StepDown next.ranks search.ranks := by
  unfold Search.leave at h
  cases rest with
  | nil => simp at h
  | cons waiting rest =>
    simp only [Outcome.running.injEq] at h
    subst h
    obtain ⟨hnodup, hrange, hknown, hwait⟩ := valid
    rw [hstack] at hnodup hrange hknown hwait
    simp only [List.map_cons, List.nodup_cons, List.mem_cons, not_or] at hnodup
    have hne : ∀ k ∈ waiting.key :: rest.map Expansion.key, top.key ≠ k := by
      rintro k hk rfl
      rcases List.mem_cons.1 hk with h | h
      · exact hnodup.1.1 h
      · exact hnodup.1.2 h
    refine ⟨⟨?_, ?_, ?_, ?_⟩, ?_⟩
    · simpa using hnodup.2
    · intro k hk
      exact hrange k (by simpa using .inr (by simpa using hk))
    · intro k hk
      have hk : k ∈ waiting.key :: rest.map Expansion.key := by simpa using hk
      have hm := hknown k (by simpa using .inr (by simpa using hk))
      have hn := hne k hk
      unfold Memo.settle
      split
      · exact Std.HashMap.mem_erase.2 ⟨by simpa using hn, hm⟩
      · exact Std.HashMap.mem_insert.2 (.inr hm)
    · intro f hf
      exact hwait f (List.mem_cons_of_mem _ hf)
    · simp only [ranks, hstack, List.map_cons, List.reverse_cons, List.append_assoc]
      refine StepDown.append _ (StepDown.lower _ _ ?_)
      exact Expansion.rank_receive (hwait waiting List.mem_cons_self) _ _

theorem leavesAt_stack (pos : Nat) :
    (search.leavesAt parser sentence pos).2.stack = search.stack := by
  unfold leavesAt
  split <;> rfl

theorem leavesAt_memo (pos : Nat) :
    (search.leavesAt parser sentence pos).2.memo = search.memo := by
  unfold leavesAt
  split <;> rfl

/-- Continuing a branch by a term keeps a search in order and leaves less to do. -/
theorem Valid.matchTerm {top : Expansion} {rest : List Expansion} {branch : Branch}
    {pending : List Branch} {term : Term} {elements : List Element}
    (valid : search.Valid parser sentence) (hstack : search.stack = top :: rest)
    (helements : top.elements = .term term :: elements)
    (hpending : top.pending = branch :: pending) :
    (search.matchTerm parser sentence top rest branch pending term).Valid parser sentence ∧
      StepDown (search.matchTerm parser sentence top rest branch pending term).ranks
        search.ranks := by
  have hless : ∀ top' : Expansion, top'.alternatives = top.alternatives →
      top'.elements = top.elements → top'.pending = pending →
      top'.rank.Less top.rank := fun top' h1 h2 h3 =>
    Rank.less_of_branches (by simp [Expansion.rank, h1]) (by simp [Expansion.rank, h2])
      (by simp [Expansion.rank, h3, hpending])
  unfold Search.matchTerm
  split
  · exact ⟨valid.replace hstack rfl rfl (leavesAt_memo _),
      stepDown_replace hstack rfl (hless _ rfl rfl rfl)⟩
  · dsimp only
    split
    · exact ⟨valid.replace hstack rfl rfl rfl, stepDown_replace hstack rfl (hless _ rfl rfl rfl)⟩
    · exact ⟨valid.replace hstack rfl rfl rfl, stepDown_replace hstack rfl (hless _ rfl rfl rfl)⟩
    next hnone =>
      split
      next hrange =>
        refine ⟨valid.enter hrange (not_mem_of_getElem? hnone) ?_, stepDown_enter _⟩
        rw [hstack]
        intro f hf
        rcases List.mem_cons.1 hf with rfl | hf
        · exact ⟨term, elements, branch, pending, helements, hpending⟩
        · exact valid.waiting f (by rw [hstack]; exact hf)
      next =>
        exact ⟨valid.replace hstack rfl rfl rfl,
          stepDown_replace hstack rfl (hless _ rfl rfl rfl)⟩

/-- A step keeps a search in order and leaves less to do. -/
theorem Valid.step (valid : search.Valid parser sentence)
    (h : search.step parser sentence = .running next) :
    next.Valid parser sentence ∧ StepDown next.ranks search.ranks := by
  unfold Search.step at h
  split at h
  · simp at h
  next top rest hstack =>
    split at h
    · exact valid.leave hstack h
    next _ alternatives halt _ =>
      cases h
      refine ⟨valid.replace hstack rfl (by simp) rfl, stepDown_replace hstack rfl ?_⟩
      apply Rank.less_of_alternatives
      have hl := top.length_alternatives_finishAlternative parser.cap
        (parser.grammar.nameOf top.key.symbol) alternatives
      simp only [Expansion.rank, halt, List.length_cons]
      omega
    next _ alternatives _ elements halt helements _ =>
      cases h
      refine ⟨valid.replace hstack rfl ?_ rfl, stepDown_replace hstack rfl ?_⟩
      · split <;> simp [Expansion.toElement]
      · split
        · apply Rank.less_of_alternatives
          have hl := top.length_alternatives_toAlternative alternatives
          simp only [Expansion.rank, halt, List.length_cons]
          omega
        · exact Rank.less_of_elements rfl (by simp [Expansion.rank, Expansion.toElement, helements])
    next text _ branch pending _ hpending _ =>
      cases h
      refine ⟨valid.replace hstack rfl rfl rfl, stepDown_replace hstack rfl ?_⟩
      exact Rank.less_of_branches rfl rfl (by simp [Expansion.rank, Expansion.continued, hpending])
    next term elements branch pending helements hpending _ =>
      cases h
      exact valid.matchTerm hstack helements hpending

/-- Goes on until the outermost expansion ends. No key is on the stack twice, so the stack is no
higher than there are keys, and each step leaves less to do. -/
def run (parser : Parser) (sentence : Sentence) (search : Search)
    (valid : search.Valid parser sentence) : List Tree × Search :=
  match h : search.step parser sentence with
  | .running next => next.run parser sentence (valid.step h).1
  | .finished trees final => (trees, final)
termination_by (⟨search.ranks, by simpa [ranks] using valid.length_stack_le⟩ :
  BoundedStack (Key.every parser sentence).length)
decreasing_by exact (valid.step h).2

theorem valid_of_stack_nil (h : search.stack = []) : search.Valid parser sentence := by
  constructor <;> simp [h]

/-- The derivations of a key that is not in the memo, and what the search for them leaves behind. -/
def treesOf (parser : Parser) (sentence : Sentence) (memo : Memo)
    (words : Array (Option (List Leaf))) (key : Key) (hrange : key.InRange parser sentence)
    (hnew : key ∉ memo) : List Tree × Search :=
  ((⟨memo, words, []⟩ : Search).enter parser.grammar key).run parser sentence
    ((valid_of_stack_nil rfl).enter hrange hnew (by simp))

end Search

end Concord
