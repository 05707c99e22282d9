import Concord.Proofs.Agreement
import Mathlib.Order.Bounds.Basic

namespace Concord

namespace Search

variable {parser : Parser} {sentence : Sentence} {search next begun : Search}
variable {top top' : Expansion} {rest : List Expansion} {outcome : Outcome}

/-- The least depth of an expansion that cut short one from a depth inwards, or else this depth. -/
def lowest (depth : Nat) : List Expansion → Nat
  | [] => depth
  | e :: rest => if rest.length < depth then depth else min e.low (lowest depth rest)

theorem lowest_le (depth : Nat) (stack : List Expansion) : lowest depth stack ≤ depth := by
  induction stack with
  | nil => exact Nat.le_refl _
  | cons e rest ih =>
    unfold lowest
    split
    · exact Nat.le_refl _
    · exact Nat.le_trans (Nat.min_le_right _ _) ih

theorem lowest_of_length_le {depth : Nat} {stack : List Expansion} (h : stack.length ≤ depth) :
    lowest depth stack = depth := by
  cases stack with
  | nil => rfl
  | cons e rest => exact if_pos h

theorem lowest_cons {depth : Nat} {rest : List Expansion} (h : depth ≤ rest.length)
    (e : Expansion) : lowest depth (e :: rest) = min e.low (lowest depth rest) :=
  if_neg (Nat.not_lt.mpr h)

theorem Agrees.lowest_top (h : search.Agrees) (hstack : search.stack = top :: rest) :
    lowest rest.length search.stack = top.low := by
  have hlow := (h.depths rest.length top (at?_top hstack)).2
  rw [hstack, lowest_cons (Nat.le_refl _), lowest_of_length_le (Nat.le_refl _),
    Nat.min_eq_left hlow]

/-- A cut lowers what has been lowest for the innermost expansion and for all that wait. -/
theorem Agrees.lowest_moves (h : search.Agrees) (m : search.Moves parser sentence outcome)
    {depth : Nat} (hbefore : depth < search.stack.length)
    (hafter : depth < outcome.search.stack.length) :
    lowest depth outcome.search.stack =
      search.cut?.elim (lowest depth search.stack) (min · (lowest depth search.stack)) := by
  cases m with
  | idle hstack =>
    rw [hstack] at hbefore
    exact absurd hbefore (Nat.not_lt_zero _)
  | @work top top' rest _ hstack _ hcut _ _ hlow =>
    have hle : depth ≤ rest.length := by simpa [hstack, Nat.lt_succ_iff] using hbefore
    simp only [Outcome.search, hstack, hcut, Option.elim_none, lowest_cons hle, hlow]
  | @cut top rest cut hstack _ hcut =>
    have hle : depth ≤ rest.length := by simpa [hstack, Nat.lt_succ_iff] using hbefore
    simp only [Outcome.search, hstack, hcut, Option.elim_some, lowest_cons hle, Expansion.cutAt]
    rw [Nat.min_comm top.low cut, Nat.min_assoc]
  | call _ _ hcut =>
    obtain ⟨-, hlow⟩ := Expansion.fields_start parser.grammar _ search.depth
    have hle := lowest_le depth search.stack
    rw [h.depth_eq] at hlow
    simp only [Outcome.search, Search.enter, hcut, Option.elim_none]
    rw [lowest_cons hbefore.le, h.depth_eq, hlow, Nat.min_eq_right (by omega)]
  | @leave top rest hstack _ hcut =>
    cases rest with
    | nil => exact absurd hafter (Nat.not_lt_zero _)
    | cons waiting rest =>
      have hle : depth ≤ rest.length := Nat.lt_succ_iff.mp hafter
      obtain ⟨-, hlow⟩ := waiting.fields_receive top.results top.low
      simp only [Search.leave, Outcome.search, hstack, hcut, Option.elim_none]
      rw [lowest_cons hle, lowest_cons (Nat.le_succ_of_le hle), lowest_cons hle, hlow,
        Nat.min_comm waiting.low, Nat.min_assoc]

/-- Nothing has cut an expansion short that only begins. -/
theorem Agrees.lowest_new (h : search.Agrees) (m : search.Moves parser sentence outcome)
    {depth : Nat} (hbefore : search.stack.length ≤ depth)
    (hafter : depth < outcome.search.stack.length) :
    lowest depth outcome.search.stack = depth := by
  have hagrees := h.moves m
  cases m with
  | idle => exact absurd hafter (Nat.not_lt.mpr hbefore)
  | work hstack | cut hstack =>
    rw [hstack] at hbefore
    exact absurd hafter (Nat.not_lt.mpr hbefore)
  | call =>
    obtain ⟨-, hlow⟩ := Expansion.fields_start parser.grammar _ search.depth
    have heq : depth = search.stack.length :=
      Nat.le_antisymm (Nat.lt_succ_iff.mp hafter) hbefore
    rw [heq, hagrees.lowest_top rfl, hlow, h.depth_eq]
  | @leave top rest hstack =>
    rw [hstack, List.length_cons] at hbefore
    cases rest with
    | nil => exact absurd hafter (Nat.not_lt_zero _)
    | cons waiting rest =>
      simp only [Search.leave, Outcome.search, List.length_cons] at hbefore hafter
      omega

/-- After each number of steps from `m` to `n`, an expansion of a key goes on at a depth of the
stack. It is the same one all along: an expansion that ends leaves its depth empty in the step that
ends it. -/
def GoesOn (parser : Parser) (sentence : Sentence) (begun : Search) (key : Key)
    (depth m n : Nat) : Prop :=
  ∀ k, m ≤ k → k ≤ n →
    ∃ search, begun.after parser sentence k = some search ∧ search.keyAt? depth = some key

/-- In a step before the `n`-th, while the expansion of a key went on that still does, the innermost
expansion was cut short by the one at the depth `cut`: the expansion of the key itself, or one that
was called on behalf of it. -/
def CutShort (parser : Parser) (sentence : Sentence) (begun : Search) (key : Key)
    (depth n cut : Nat) : Prop :=
  ∃ m search, m < n ∧ begun.GoesOn parser sentence key depth m n ∧
    begun.after parser sentence m = some search ∧ search.cut? = some cut

theorem cutShort_succ {key : Key} {depth n : Nat}
    (hsearch : begun.after parser sentence n = some search)
    (hkey : search.keyAt? depth = some key)
    (hnext : begun.after parser sentence (n + 1) = some next)
    (hkey' : next.keyAt? depth = some key) (cut : Nat) :
    begun.CutShort parser sentence key depth (n + 1) cut ↔
      begun.CutShort parser sentence key depth n cut ∨ search.cut? = some cut := by
  constructor
  · rintro ⟨m, last, hm, hgoes, hlast, hcut⟩
    rcases Nat.lt_succ_iff_lt_or_eq.mp hm with hm | rfl
    · exact .inl ⟨m, last, hm, fun k hmk hkn => hgoes k hmk (Nat.le_succ_of_le hkn), hlast, hcut⟩
    · cases hlast.symm.trans hsearch
      exact .inr hcut
  · rintro (⟨m, last, hm, hgoes, hlast, hcut⟩ | hcut)
    · refine ⟨m, last, Nat.lt_succ_of_lt hm, fun k hmk hkn => ?_, hlast, hcut⟩
      rcases Nat.le_succ_iff.mp hkn with hkn | rfl
      · exact hgoes k hmk hkn
      · exact ⟨next, hnext, hkey'⟩
    · refine ⟨n, search, Nat.lt_succ_self n, fun k hnk hkn => ?_, hsearch, hcut⟩
      rcases Nat.le_succ_iff.mp hkn with hkn | rfl
      · cases Nat.le_antisymm hnk hkn
        exact ⟨search, hsearch, hkey⟩
      · exact ⟨next, hnext, hkey'⟩

theorem not_cutShort_of_new {key : Key} {depth n : Nat}
    (hsearch : begun.after parser sentence n = some search)
    (hnew : search.stack.length ≤ depth) (cut : Nat) :
    ¬begun.CutShort parser sentence key depth (n + 1) cut := by
  rintro ⟨m, -, hm, hgoes, -⟩
  obtain ⟨search', hsearch', hkey⟩ := hgoes n (Nat.lt_succ_iff.mp hm) (Nat.le_succ n)
  cases hsearch'.symm.trans hsearch
  exact absurd (lt_of_keyAt? hkey) (Nat.not_lt.mpr hnew)

/-- What is lowest from a depth inwards is the least depth of an expansion that has cut short the
one at the depth, or one that was called on behalf of it, since it began, or else the depth. -/
theorem Agrees.isLeast_lowest (h : begun.Agrees) (hroot : begun.stack.length = 1) {n : Nat}
    (hsearch : begun.after parser sentence n = some search) {depth : Nat} {key : Key}
    (hkey : search.keyAt? depth = some key) :
    IsLeast {low | low = depth ∨ begun.CutShort parser sentence key depth n low}
      (lowest depth search.stack) := by
  induction n generalizing search with
  | zero =>
    cases hsearch
    have hzero : depth = 0 := Nat.lt_one_iff.mp (hroot ▸ lt_of_keyAt? hkey)
    have hlowest : lowest depth begun.stack = depth :=
      Nat.le_antisymm (lowest_le _ _) (hzero ▸ Nat.zero_le _)
    rw [hlowest]
    exact ⟨.inl rfl, fun low _ => hzero ▸ Nat.zero_le low⟩
  | succ n ih =>
    obtain ⟨last, hlast, hstep⟩ := after_succ_eq_some.mp hsearch
    have hagrees := h.after hlast
    have hmoves := moves_step parser sentence last
    rw [hstep] at hmoves
    have hafter : depth < (Outcome.running search).search.stack.length := lt_of_keyAt? hkey
    rcases Nat.lt_or_ge depth last.stack.length with hbefore | hnew
    · have hkey' : last.keyAt? depth = some key :=
        (hmoves.keyAt?_kept hbefore hafter).symm.trans hkey
      have hleast := ih hlast hkey'
      have hlowest := hagrees.lowest_moves hmoves hbefore hafter
      change lowest depth search.stack = _ at hlowest
      simp only [cutShort_succ hlast hkey' hsearch hkey, hlowest]
      cases hcut : last.cut? with
      | none => simpa using hleast
      | some cut =>
        have hset : {low | low = depth ∨ begun.CutShort parser sentence key depth n low ∨
            some cut = some low} = insert cut {low | low = depth ∨
              begun.CutShort parser sentence key depth n low} := by
          ext low
          simp only [Set.mem_ofPred_eq, Set.mem_insert_iff, Option.some.injEq]
          rw [← or_assoc, or_comm, @eq_comm _ cut low]
        rw [hset]
        exact hleast.insert cut
    · have hlowest := hagrees.lowest_new hmoves hnew hafter
      change lowest depth search.stack = _ at hlowest
      simp only [not_cutShort_of_new hlast hnew, or_false, hlowest]
      exact isLeast_singleton

/-- What holds of a search after `n` steps. The memo and the stack agree. An expansion that waits
after the next step stays as it is. The results of an expansion that ends in the next step are kept
if and only if none further out has cut it short, or one that was called on behalf of it; else they
are forgotten. Nothing else is done or undone. -/
structure AgreesAfter (parser : Parser) (sentence : Sentence) (search begun : Search) (n : Nat) :
    Prop where
  agrees : search.Agrees
  waits (next : Search) (depth : Nat) : search.step parser sentence = .running next →
    depth + 1 < next.stack.length → next.at? depth = search.at? depth
  kept (top : Expansion) (rest : List Expansion) :
    search.stack = top :: rest → top.alternatives = [] →
      ((search.step parser sentence).search.memo[top.key]? = some (.done top.results) ↔
        ∀ cut, begun.CutShort parser sentence top.key rest.length n cut → rest.length ≤ cut)
  forgotten (top : Expansion) (rest : List Expansion) :
    search.stack = top :: rest → top.alternatives = [] →
      ((search.step parser sentence).search.memo[top.key]? = none ↔
        ∃ cut < rest.length, begun.CutShort parser sentence top.key rest.length n cut)
  others (key : Key) (trees : List Tree) :
    (∀ top ∈ search.stack.head?, top.alternatives = [] → key ≠ top.key) →
      ((search.step parser sentence).search.memo[key]? = some (.done trees) ↔
        search.memo[key]? = some (.done trees))

/-- The innermost expansion has a lower depth recorded if and only if it was cut short there, or one
that was called on behalf of it. -/
theorem Agrees.low_lt_iff (h : begun.Agrees) (hroot : begun.stack.length = 1) {n : Nat}
    (hsearch : begun.after parser sentence n = some search) (hstack : search.stack = top :: rest) :
    top.low < rest.length ↔
      ∃ cut < rest.length, begun.CutShort parser sentence top.key rest.length n cut := by
  obtain ⟨hmem, hleast⟩ := h.isLeast_lowest hroot hsearch (keyAt?_top hstack)
  rw [(h.after hsearch).lowest_top hstack] at hmem hleast
  constructor
  · intro hlt
    exact ⟨top.low, hlt, hmem.resolve_left (Nat.ne_of_lt hlt)⟩
  · rintro ⟨cut, hlt, hcut⟩
    exact Nat.lt_of_le_of_lt (hleast (.inr hcut)) hlt

/-- What the memo tells about an expansion once it has ended. -/
theorem Agrees.memo_step_of_ended (h : search.Agrees) (hstack : search.stack = top :: rest)
    (ha : top.alternatives = []) : (search.step parser sentence).search.memo[top.key]? =
      if top.low < rest.length then none else some (.done top.results) := by
  have hdepth := (h.depths rest.length top (at?_top hstack)).1
  rw [step_of_ended hstack ha, memo_leave, Memo.getElem?_settle_self, hdepth]

theorem Agrees.agreesAfter (h : begun.Agrees) (hroot : begun.stack.length = 1) {n : Nat}
    (hsearch : begun.after parser sentence n = some search) :
    search.AgreesAfter parser sentence begun n := by
  have hagrees := h.after hsearch
  have hmoves := moves_step parser sentence search
  refine ⟨hagrees, fun next depth hstep hlt => ?_, fun top rest hstack ha => ?_,
    fun top rest hstack ha => ?_, fun key trees hkey => hmoves.done_kept hkey trees⟩
  · rw [hstep] at hmoves
    exact hmoves.at?_kept hlt
  · have hiff := h.low_lt_iff hroot hsearch hstack
    rw [hagrees.memo_step_of_ended hstack ha]
    split
    next hlt =>
      obtain ⟨cut, hcut, hshort⟩ := hiff.mp hlt
      exact iff_of_false (by simp) fun hall => absurd (hall cut hshort) (Nat.not_le.mpr hcut)
    next hle =>
      exact iff_of_true rfl fun cut hshort =>
        Nat.not_lt.mp fun hcut => hle (hiff.mpr ⟨cut, hcut, hshort⟩)
  · rw [hagrees.memo_step_of_ended hstack ha, ← h.low_lt_iff hroot hsearch hstack]
    split <;> simp [*]

end Search

namespace Analysis

/-- Whatever was asked before, nothing is going on in the memo when the derivations of a key are
asked for, nor when they have been found. If they are not there yet, the search for them ends, and
the memo and the stack agree after each of its steps. -/
theorem treesOf_agrees (parser : Parser) (sentence : Sentence) (requests : List Request)
    {key : Key} (hrange : key.InRange parser sentence) :
    let analysis := (ofSentence parser sentence).afterAll requests
    let begun := (⟨analysis.memo, analysis.words, []⟩ : Search).enter parser.grammar key
    analysis.memo.AllDone ∧ (analysis.treesOf key).2.memo.AllDone ∧
      (analysis.memo[key]? = none →
        (∀ n search, begun.after parser sentence n = some search →
          search.AgreesAfter parser sentence begun n) ∧
        ∃ n last trees final, begun.after parser sentence n = some last ∧
          last.step parser sentence = .finished trees final ∧
          final.memo = (analysis.treesOf key).2.memo) := by
  intro analysis begun
  obtain ⟨t, hshows, -⟩ := (shows_ofSentence parser sentence).afterAll .empty requests
  change analysis.Shows parser sentence t at hshows
  obtain ⟨t', -, hshows', -⟩ := hshows.treesOf key
  refine ⟨hshows.memo.allDone, hshows'.memo.allDone, fun hnone => ⟨fun n search hsearch => ?_, ?_⟩⟩
  · have hagrees : begun.Agrees :=
      (agrees_of_allDone hshows.memo.allDone analysis.words).enter hnone nofun
    exact hagrees.agreesAfter rfl hsearch
  · clear_value analysis
    obtain ⟨_, _, memo, words, results⟩ := analysis
    obtain ⟨rfl, rfl, hmemo, hwords⟩ := hshows
    have hnew := Search.not_mem_of_getElem? hnone
    obtain ⟨_, _, last, -, hfollows, -, -, -, hstep⟩ :=
      Search.exists_finished hrange hnew hmemo hwords
    obtain ⟨n, hn⟩ := Search.exists_after_of_follows hfollows
    refine ⟨n, last, _, _, hn, hstep, ?_⟩
    rw [treesOf_of_none hnone hrange, Search.treesOf_of_finished hrange hnew hfollows hstep]

/-- Two symbols that stand for each other: the second calls for the first, which cuts it short, so
it is forgotten when it ends. -/
theorem treesOf_agrees_cyclic :
    let parser : Parser := ⟨.empty, .cyclic, [' '], some 1⟩
    let sentence : Sentence := .ofText ['x']
    let a : Key := ⟨0, 0, .empty⟩
    let b : Key := ⟨1, 0, .empty⟩
    let analysis := (ofSentence parser sentence).afterAll []
    let begun := (⟨analysis.memo, analysis.words, []⟩ : Search).enter parser.grammar a
    a.InRange parser sentence ∧ analysis.memo[a]? = none ∧
      ∃ search top outer, begun.after parser sentence 3 = some search ∧
        search.stack = [top, outer] ∧ top.key = b ∧ top.alternatives = [] ∧
        begun.CutShort parser sentence b 1 3 0 ∧
        (search.step parser sentence).search.memo[b]? = none := by
  intro parser sentence a b analysis begun
  have hrange : a.InRange parser sentence := by decide
  have hnone : analysis.memo[a]? = none := Std.HashMap.getElem?_empty
  have hne : a ≠ b := by decide
  have hb : b.InRange parser sentence := by decide
  have hfresh : begun.memo[b]? = none := by
    simp only [begun, Search.enter, Std.HashMap.getElem?_insert]
    rw [if_neg (by simpa using hne)]
    exact Std.HashMap.getElem?_empty
  let called := begun.enter parser.grammar b
  have hcalled : begun.step parser sentence = .running called :=
    Search.step_of_call rfl rfl hfresh hb
  have hactive : called.memo[a]? = some (.active 0) := by
    simp only [called, begun, Search.enter, Std.HashMap.getElem?_insert]
    rw [if_neg (by simpa using hne.symm)]
    simp
    rfl
  -- The second symbol calls for the first, which is going on at depth 0, and has no more to try.
  have hcut : called.step parser sentence =
      .running { called with stack := (Expansion.start parser.grammar b 1).cutAt 0 ::
        [.start parser.grammar a 0] } := Search.step_of_cut rfl rfl hactive
  have hone : begun.after parser sentence 1 = some called :=
    Search.after_succ_of_follows hcalled 0
  have htwo : begun.after parser sentence 2 = some _ :=
    Search.after_succ_eq_some.mpr ⟨called, hone, hcut⟩
  have hthree : begun.after parser sentence 3 = some _ :=
    Search.after_succ_eq_some.mpr ⟨_, htwo, rfl⟩
  have hshort : begun.CutShort parser sentence b 1 3 0 := by
    refine ⟨1, called, by decide, fun k hk hk' => ?_, hone, ?_⟩
    · obtain rfl | rfl | rfl : k = 1 ∨ k = 2 ∨ k = 3 := by omega
      · exact ⟨_, hone, rfl⟩
      · exact ⟨_, htwo, rfl⟩
      · exact ⟨_, hthree, rfl⟩
    · have hcall : (Expansion.start parser.grammar b 1).callee? = some a := rfl
      rw [Search.cut?_of_callee? rfl hcall, hactive]
  obtain ⟨-, -, hsearches⟩ := treesOf_agrees parser sentence [] hrange
  have hagrees := (hsearches hnone).1 3 _ hthree
  exact ⟨hrange, hnone, _, _, _, hthree, rfl, rfl, rfl, hshort,
    (hagrees.forgotten _ _ rfl rfl).mpr ⟨0, by decide, hshort⟩⟩

end Analysis

end Concord
