import Concord.Proofs.Moves
import Concord.Proofs.Termination
import Mathlib.Data.List.Chain

namespace Concord

def Memo.AllDone (memo : Memo) : Prop :=
  ∀ (key : Key) (progress : Progress), memo[key]? = some progress → ∃ trees, progress = .done trees

namespace Search

/-- What the memo tells to be going on is what is on the stack, at the same depth; each expansion
knows its depth, and the least depth recorded as having cut it short is at most that; and each but
the innermost one has a branch on top of its pending ones that calls for the next, by the term that
is its next element. -/
structure Agrees (search : Search) : Prop where
  active (key : Key) (depth : Nat) :
    search.memo[key]? = some (.active depth) ↔ search.keyAt? depth = some key
  depths (depth : Nat) (e : Expansion) :
    search.at? depth = some e → e.depth = depth ∧ e.low ≤ depth
  waiting : search.stack.IsChain fun callee caller => caller.callee? = some callee.key

variable {parser : Parser} {sentence : Sentence} {search next begun : Search}
variable {top top' : Expansion} {rest : List Expansion} {outcome : Outcome}

theorem Agrees.depth_eq (h : search.Agrees) : search.depth = search.stack.length := by
  unfold Search.depth
  split
  next hstack => rw [hstack, List.length_nil]
  next top rest hstack =>
    have htop := (h.depths rest.length top (at?_top hstack)).1
    rw [hstack, List.length_cons, htop]

theorem Agrees.replace (h : search.Agrees) (hstack : search.stack = top :: rest)
    (hnext : next.stack = top' :: rest) (hmemo : next.memo = search.memo)
    (hkey : top'.key = top.key) (hdepth : top'.depth = top.depth) (hlow : top'.low ≤ top.low) :
    next.Agrees := by
  refine ⟨fun key depth => ?_, fun depth e he => ?_, ?_⟩
  · rw [hmemo, h.active, keyAt?_eq, keyAt?_eq, hstack, hnext, List.map_cons, List.map_cons, hkey]
  · have hold := h.depths depth
    rw [at?_of_stack hstack] at hold
    rw [at?_of_stack hnext] at he
    split at he
    next heq =>
      cases he
      obtain ⟨hd, hl⟩ := hold top (if_pos heq)
      exact ⟨hdepth.trans hd, hlow.trans hl⟩
    next hne => exact hold e ((if_neg hne).trans he)
  · have hwaiting := h.waiting
    rw [hstack] at hwaiting
    rw [hnext]
    cases rest with
    | nil => exact .singleton _
    | cons caller rest =>
      rw [List.isChain_cons_cons] at hwaiting ⊢
      exact ⟨hkey ▸ hwaiting.1, hwaiting.2⟩

/-- An expansion that is called for is new to the memo, and goes on at the next depth. -/
theorem Agrees.enter (h : search.Agrees) {callee : Key} (hnew : search.memo[callee]? = none)
    (hcall : ∀ top ∈ search.stack.head?, top.callee? = some callee) :
    (search.enter parser.grammar callee).Agrees := by
  obtain ⟨hdepth, hlow⟩ := Expansion.fields_start parser.grammar callee search.depth
  refine ⟨fun key depth => ?_, fun depth e he => ?_, ?_⟩
  · have hkeys : (search.enter parser.grammar callee).keyAt? depth =
        if depth = search.stack.length then some callee else search.keyAt? depth := by
      simp only [keyAt?_eq, Search.enter, List.map_cons, getElem?_reverse_cons, List.length_map,
        Expansion.key_start]
    rw [hkeys, Search.enter, Std.HashMap.getElem?_insert, h.depth_eq]
    by_cases hk : callee = key
    · subst hk
      simp only [BEq.rfl, if_true, Option.some.injEq, Progress.active.injEq]
      refine ⟨fun heq => if_pos heq.symm, fun hat => ?_⟩
      split at hat
      next heq => exact heq.symm
      next => cases hnew.symm.trans ((h.active callee depth).mpr hat)
    · rw [if_neg (by simpa using hk), h.active]
      split
      next heq =>
        refine iff_of_false (fun hat => ?_) fun hsome => hk (Option.some.inj hsome)
        exact absurd (lt_of_keyAt? hat) (by omega)
      next => exact Iff.rfl
  · rw [at?, Search.enter, getElem?_reverse_cons] at he
    split at he
    next heq =>
      cases he
      rw [hdepth, hlow, h.depth_eq, heq]
      exact ⟨rfl, Nat.le_refl _⟩
    next => exact h.depths depth e he
  · rw [Search.enter, List.isChain_cons, Expansion.key_start]
    exact ⟨hcall, h.waiting⟩

/-- Once an expansion has ended, the memo no longer tells it to be going on. -/
theorem Agrees.settle (h : search.Agrees) (hstack : search.stack = top :: rest) :
    Agrees { search with memo := search.memo.settle top, stack := rest } := by
  have hactive := (h.active top.key rest.length).mpr (keyAt?_top hstack)
  refine ⟨fun key depth => ?_, fun depth e he => ?_, ?_⟩
  · have hkeys := search.keyAt?_eq depth
    rw [hstack, List.map_cons, getElem?_reverse_cons, List.length_map] at hkeys
    rw [keyAt?_eq]
    dsimp only
    by_cases hk : key = top.key
    · subst hk
      rw [Memo.getElem?_settle_self]
      refine iff_of_false (by split <;> simp) fun hat => ?_
      have hlt : depth < rest.length := by simpa using (List.getElem?_eq_some_iff.mp hat).1
      rw [if_neg (Nat.ne_of_lt hlt), hat, ← h.active, hactive, Option.some.injEq,
        Progress.active.injEq] at hkeys
      omega
    · rw [Memo.getElem?_settle_of_ne _ _ hk, h.active, hkeys]
      split
      next heq =>
        rw [heq, List.getElem?_eq_none (by simp)]
        simpa using Ne.symm hk
      next => exact Iff.rfl
  · refine h.depths depth e ?_
    have hlt : depth < rest.length := by simpa [at?] using (List.getElem?_eq_some_iff.mp he).1
    rw [at?_of_stack hstack, if_neg (Nat.ne_of_lt hlt)]
    exact he
  · have hwaiting := h.waiting
    rw [hstack] at hwaiting
    exact hwaiting.tail

/-- A step keeps the agreement, also the last one. -/
theorem Agrees.moves (h : search.Agrees) (m : search.Moves parser sentence outcome) :
    outcome.search.Agrees := by
  cases m with
  | idle => exact h
  | work hstack _ _ hkey hdepth hlow => exact h.replace hstack rfl rfl hkey hdepth hlow.le
  | cut hstack => exact h.replace hstack rfl rfl rfl rfl (Nat.min_le_left _ _)
  | call hstack _ _ hcall hnew =>
    refine h.enter hnew fun top htop => ?_
    rw [hstack] at htop
    cases htop
    exact hcall
  | @leave top rest hstack =>
    have hsettled := h.settle hstack
    cases rest with
    | nil => exact hsettled
    | cons waiting rest =>
      obtain ⟨hdepth, hlow⟩ := waiting.fields_receive top.results top.low
      exact hsettled.replace rfl rfl rfl (Expansion.key_receive _ _ _) hdepth
        (hlow ▸ Nat.min_le_left _ _)

theorem Agrees.after (h : begun.Agrees) {n : Nat}
    (hsearch : begun.after parser sentence n = some search) : search.Agrees := by
  refine after_preserves (fun last next h hstep => ?_) h hsearch
  have hmoves := moves_step parser sentence last
  rw [hstep] at hmoves
  exact h.moves hmoves

end Search

theorem Memo.Shows.allDone {memo : Memo} {t : Table} (h : memo.Shows t []) : memo.AllDone := by
  intro key progress hkey
  rw [h.lookup_done List.not_mem_nil] at hkey
  obtain ⟨ds, -, rfl⟩ := Option.map_eq_some_iff.mp hkey
  exact ⟨_, rfl⟩

/-- When nothing is going on, the stack is empty and the memo agrees with it. -/
theorem agrees_of_allDone {memo : Memo} (h : memo.AllDone) (words : Array (Option (List Leaf))) :
    Search.Agrees ⟨memo, words, []⟩ := by
  refine ⟨fun key depth => iff_of_false (fun hactive => ?_) ?_, fun depth e he => ?_, .nil⟩
  · obtain ⟨trees, htrees⟩ := h key _ hactive
    cases htrees
  · simp [Search.keyAt?, Search.at?]
  · simp [Search.at?] at he

end Concord
