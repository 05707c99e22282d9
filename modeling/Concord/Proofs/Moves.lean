import Concord.Search.Run

namespace Concord

/-- The key that the first pending branch calls for, where it has come to a term of a symbol. -/
def Expansion.callee? (e : Expansion) : Option Key :=
  match e.alternatives, e.elements, e.pending with
  | _ :: _, .term term :: _, branch :: _ =>
    term.target.map fun symbol => ⟨symbol, branch.pos, branch.handedDown term⟩
  | _, _, _ => none

/-- The branch that calls for what is going on at a depth is dropped. -/
def Expansion.cutAt (e : Expansion) (depth : Nat) : Expansion :=
  { e with pending := e.pending.tail, low := min e.low depth }

/-- The search that a step leads to, be it the last step. -/
def Outcome.search : Outcome → Search
  | running search => search
  | finished _ search => search

namespace Search

/-- The expansion at a depth of the stack; the outermost one is at depth 0. -/
def at? (search : Search) (depth : Nat) : Option Expansion :=
  search.stack.reverse[depth]?

def keyAt? (search : Search) (depth : Nat) : Option Key :=
  (search.at? depth).map Expansion.key

/-- The depth of the expansion that cuts the innermost one short in the next step: the innermost one
calls for what is going on there. -/
def cut? (search : Search) : Option Nat :=
  match search.stack.head?.bind Expansion.callee? with
  | none => none
  | some callee =>
    match search.memo[callee]? with
    | some (.active depth) => some depth
    | _ => none

/-- What a step does to the stack and the memo: it goes on with the innermost expansion, cuts it
short, begins the one that it calls for, or ends it. Nothing else on the stack is touched. -/
inductive Moves (parser : Parser) (sentence : Sentence) (search : Search) : Outcome → Prop where
  | idle (hstack : search.stack = []) : Moves parser sentence search (.finished [] search)
  | work {top top' : Expansion} {rest : List Expansion} {words : Array (Option (List Leaf))}
      (hstack : search.stack = top :: rest) (ha : top.alternatives ≠ [])
      (hcut : search.cut? = none) (hkey : top'.key = top.key) (hdepth : top'.depth = top.depth)
      (hlow : top'.low = top.low) :
      Moves parser sentence search (.running { search with words, stack := top' :: rest })
  | cut {top : Expansion} {rest : List Expansion} {depth : Nat}
      (hstack : search.stack = top :: rest) (ha : top.alternatives ≠ [])
      (hcut : search.cut? = some depth) :
      Moves parser sentence search (.running { search with stack := top.cutAt depth :: rest })
  | call {top : Expansion} {rest : List Expansion} {callee : Key}
      (hstack : search.stack = top :: rest) (ha : top.alternatives ≠ [])
      (hcut : search.cut? = none) (hcall : top.callee? = some callee)
      (hnew : search.memo[callee]? = none) :
      Moves parser sentence search (.running (search.enter parser.grammar callee))
  | leave {top : Expansion} {rest : List Expansion} (hstack : search.stack = top :: rest)
      (ha : top.alternatives = []) (hcut : search.cut? = none) :
      Moves parser sentence search (search.leave top rest)

end Search

namespace Expansion

theorem callee?_eq_some {e : Expansion} {callee : Key} : e.callee? = some callee ↔
    ∃ pattern alternatives term elements branch pending symbol,
      e.alternatives = pattern :: alternatives ∧ e.elements = .term term :: elements ∧
      e.pending = branch :: pending ∧ term.target = some symbol ∧
      callee = ⟨symbol, branch.pos, branch.handedDown term⟩ := by
  constructor
  · intro h
    unfold callee? at h
    split at h
    next pattern alternatives term elements branch pending ha he hp =>
      obtain ⟨symbol, ht, rfl⟩ := Option.map_eq_some_iff.mp h
      exact ⟨pattern, alternatives, term, elements, branch, pending, symbol, ha, he, hp, ht, rfl⟩
    next => cases h
  · rintro ⟨_, _, term, _, branch, _, symbol, ha, he, hp, ht, rfl⟩
    simp only [callee?, ha, he, hp, ht, Option.map_some]

/-- An answer of nothing from a depth is a cut there. -/
theorem receive_nil {e : Expansion} {callee : Key} (hcall : e.callee? = some callee)
    (depth : Nat) : e.receive [] depth = e.cutAt depth := by
  obtain ⟨_, _, term, _, branch, pending, _, _, he, hp, _, _⟩ := callee?_eq_some.mp hcall
  simp only [receive, cutAt, he, hp, continued, List.filterMap_nil, List.reverse_nil,
    List.nil_append, List.tail_cons]

variable (e : Expansion)

theorem fields_toAlternative (alternatives : List Pattern) :
    (e.toAlternative alternatives).depth = e.depth ∧
      (e.toAlternative alternatives).low = e.low := by
  unfold toAlternative
  split <;> exact ⟨rfl, rfl⟩

theorem fields_finishAlternative (cap : Option Nat) (name : Text) (alternatives : List Pattern) :
    (e.finishAlternative cap name alternatives).depth = e.depth ∧
      (e.finishAlternative cap name alternatives).low = e.low := by
  unfold finishAlternative
  dsimp only
  split
  · exact fields_toAlternative _ _
  · split <;> exact fields_toAlternative _ _

theorem fields_start (grammar : Grammar) (key : Key) (depth : Nat) :
    (start grammar key depth).depth = depth ∧ (start grammar key depth).low = depth :=
  fields_toAlternative _ _

theorem fields_receive (trees : List Tree) (low : Nat) :
    (e.receive trees low).depth = e.depth ∧ (e.receive trees low).low = min e.low low := by
  unfold receive
  dsimp only
  split <;> exact ⟨rfl, rfl⟩

end Expansion

namespace Memo

variable (memo : Memo) (e : Expansion)

theorem getElem?_settle_self : (memo.settle e)[e.key]? =
    if e.low < e.depth then none else some (.done e.results) := by
  unfold settle
  split
  · exact Std.HashMap.getElem?_erase_self
  · exact Std.HashMap.getElem?_insert_self

theorem getElem?_settle_of_ne {key : Key} (h : key ≠ e.key) :
    (memo.settle e)[key]? = memo[key]? := by
  unfold settle
  split
  · rw [Std.HashMap.getElem?_erase, if_neg (by simpa using Ne.symm h)]
  · rw [Std.HashMap.getElem?_insert, if_neg (by simpa using Ne.symm h)]

end Memo

namespace Search

variable {parser : Parser} {sentence : Sentence} {search : Search}
variable {top : Expansion} {rest : List Expansion} {outcome : Outcome}

theorem cut?_of_callee? (hstack : search.stack = top :: rest) {callee : Key}
    (hcall : top.callee? = some callee) : search.cut? =
      match search.memo[callee]? with
      | some (.active depth) => some depth
      | _ => none := by
  simp only [cut?, hstack, List.head?_cons, Option.bind_some, hcall]

theorem cut?_of_callee?_eq_none (hstack : search.stack = top :: rest)
    (hcall : top.callee? = none) : search.cut? = none := by
  simp only [cut?, hstack, List.head?_cons, Option.bind_some, hcall]

theorem moves_matchTerm (hstack : search.stack = top :: rest) {pattern : Pattern}
    {alternatives : List Pattern} (ha : top.alternatives = pattern :: alternatives) {term : Term}
    {elements : List Element} (he : top.elements = .term term :: elements) {branch : Branch}
    {pending : List Branch} (hp : top.pending = branch :: pending) :
    search.Moves parser sentence
      (.running (search.matchTerm parser sentence top rest branch pending term)) := by
  have hne : top.alternatives ≠ [] := ha ▸ List.cons_ne_nil _ _
  have hcallee : top.callee? =
      term.target.map fun symbol => ⟨symbol, branch.pos, branch.handedDown term⟩ := by
    simp only [Expansion.callee?, ha, he, hp]
  unfold matchTerm
  split
  next htarget =>
    rw [htarget] at hcallee
    have hcut := cut?_of_callee?_eq_none hstack hcallee
    have hmemo : (search.leavesAt parser sentence branch.pos).2.memo = search.memo :=
      leavesAt_memo branch.pos
    dsimp only
    rw [hmemo]
    exact .work hstack hne hcut rfl rfl rfl
  next symbol htarget =>
    rw [htarget] at hcallee
    have hcut := cut?_of_callee? hstack hcallee
    dsimp only
    split
    next trees hdone =>
      rw [hdone] at hcut
      exact .work hstack hne hcut rfl rfl rfl
    next depth hactive =>
      rw [hactive] at hcut
      have hmoves : search.Moves parser sentence
          (.running { search with stack := top.cutAt depth :: rest }) := .cut hstack hne hcut
      rwa [Expansion.cutAt, hp] at hmoves
    next hnone =>
      rw [hnone] at hcut
      split
      next => exact .call hstack hne hcut hcallee hnone
      next => exact .work hstack hne hcut rfl rfl rfl

theorem moves_step (parser : Parser) (sentence : Sentence) (search : Search) :
    search.Moves parser sentence (search.step parser sentence) := by
  unfold step
  split
  next hstack => exact .idle hstack
  next top rest hstack =>
    split
    next ha =>
      exact .leave hstack ha (cut?_of_callee?_eq_none hstack (by simp [Expansion.callee?, ha]))
    next _ alternatives ha he =>
      obtain ⟨hdepth, hlow⟩ := top.fields_finishAlternative parser.cap
        (parser.grammar.nameOf top.key.symbol) alternatives
      exact .work hstack (ha ▸ List.cons_ne_nil _ _)
        (cut?_of_callee?_eq_none hstack (by simp [Expansion.callee?, ha, he])) (by simp) hdepth hlow
    next _ alternatives _ elements ha he hp =>
      have hcut := cut?_of_callee?_eq_none hstack (by simp [Expansion.callee?, ha, he, hp])
      obtain ⟨hdepth, hlow⟩ := top.fields_toAlternative alternatives
      dsimp only
      split
      · exact .work hstack (ha ▸ List.cons_ne_nil _ _) hcut (by simp) hdepth hlow
      · exact .work hstack (ha ▸ List.cons_ne_nil _ _) hcut rfl rfl rfl
    next text _ branch pending he hp hne =>
      exact .work hstack hne
        (cut?_of_callee?_eq_none hstack (by simp [Expansion.callee?, he])) rfl rfl rfl
    next term elements branch pending he hp hne =>
      cases ha : top.alternatives with
      | nil => exact absurd ha hne
      | cons pattern alternatives => exact moves_matchTerm hstack ha he hp

theorem step_of_ended (hstack : search.stack = top :: rest) (ha : top.alternatives = []) :
    search.step parser sentence = search.leave top rest := by
  simp only [step, hstack, ha]

section call

variable {callee : Key} (hstack : search.stack = top :: rest) (hcall : top.callee? = some callee)
include hstack hcall

theorem step_of_call (hnew : search.memo[callee]? = none)
    (hrange : callee.InRange parser sentence) :
    search.step parser sentence = .running (search.enter parser.grammar callee) := by
  obtain ⟨_, _, term, _, branch, pending, symbol, ha, he, hp, ht, rfl⟩ :=
    Expansion.callee?_eq_some.mp hcall
  simp only [step, hstack, ha, he, hp, matchTerm, ht, hnew, if_pos hrange]

theorem step_of_cut {depth : Nat} (hactive : search.memo[callee]? = some (.active depth)) :
    search.step parser sentence =
      .running { search with stack := top.cutAt depth :: rest } := by
  obtain ⟨_, _, term, _, branch, pending, symbol, ha, he, hp, ht, rfl⟩ :=
    Expansion.callee?_eq_some.mp hcall
  simp only [step, hstack, ha, he, hp, matchTerm, ht, hactive, Expansion.cutAt, List.tail_cons]

theorem step_of_done {trees : List Tree} (hdone : search.memo[callee]? = some (.done trees))
    {low : Nat} (hlow : top.low ≤ low) : search.step parser sentence =
      .running { search with stack := top.receive trees low :: rest } := by
  obtain ⟨_, _, term, _, branch, pending, symbol, ha, he, hp, ht, rfl⟩ :=
    Expansion.callee?_eq_some.mp hcall
  simp only [step, hstack, ha, he, hp, matchTerm, ht, hdone, Expansion.receive,
    Nat.min_eq_left hlow, Expansion.continued]

theorem step_of_outside (hnew : search.memo[callee]? = none)
    (hrange : ¬callee.InRange parser sentence) {low : Nat} (hlow : top.low ≤ low) :
    search.step parser sentence =
      .running { search with stack := top.receive [] low :: rest } := by
  obtain ⟨_, _, term, _, branch, pending, symbol, ha, he, hp, ht, rfl⟩ :=
    Expansion.callee?_eq_some.mp hcall
  simp only [step, hstack, ha, he, hp, matchTerm, ht, hnew, if_neg hrange, Expansion.receive,
    Nat.min_eq_left hlow, Expansion.continued, List.filterMap_nil, List.reverse_nil,
    List.nil_append]

end call

theorem getElem?_reverse_cons {α : Type} (x : α) (xs : List α) (n : Nat) :
    (x :: xs).reverse[n]? = if n = xs.length then some x else xs.reverse[n]? := by
  rw [List.reverse_cons, List.getElem?_append, List.length_reverse]
  split
  next hlt => rw [if_neg (Nat.ne_of_lt hlt)]
  next hle =>
    split
    next heq => simp [heq]
    next hne =>
      rw [List.getElem?_eq_none (by simp; omega), List.getElem?_eq_none (by simp; omega)]

theorem at?_of_stack (hstack : search.stack = top :: rest) (depth : Nat) :
    search.at? depth = if depth = rest.length then some top else rest.reverse[depth]? := by
  rw [at?, hstack, getElem?_reverse_cons]

theorem keyAt?_eq (search : Search) (depth : Nat) :
    search.keyAt? depth = (search.stack.map Expansion.key).reverse[depth]? := by
  rw [keyAt?, at?, ← List.map_reverse, List.getElem?_map]

theorem lt_of_keyAt? {depth : Nat} {key : Key} (h : search.keyAt? depth = some key) :
    depth < search.stack.length := by
  rw [keyAt?_eq] at h
  simpa using (List.getElem?_eq_some_iff.mp h).1

theorem at?_top (hstack : search.stack = top :: rest) : search.at? rest.length = some top := by
  rw [at?_of_stack hstack, if_pos rfl]

theorem keyAt?_top (hstack : search.stack = top :: rest) :
    search.keyAt? rest.length = some top.key := by
  rw [keyAt?, at?_top hstack, Option.map_some]

/-- The expansion at a depth keeps its key for as long as the stack is higher. -/
theorem Moves.keyAt?_kept (m : search.Moves parser sentence outcome) {depth : Nat}
    (hbefore : depth < search.stack.length) (hafter : depth < outcome.search.stack.length) :
    outcome.search.keyAt? depth = search.keyAt? depth := by
  rw [keyAt?_eq, keyAt?_eq]
  cases m with
  | idle hstack => rfl
  | work hstack _ _ hkey => simp only [Outcome.search, hstack, List.map_cons, hkey]
  | cut hstack => simp only [Outcome.search, hstack, List.map_cons, Expansion.cutAt]
  | call hstack =>
    simp only [Outcome.search, enter, List.map_cons]
    rw [getElem?_reverse_cons, if_neg (by simp; omega)]
  | @leave top rest hstack =>
    cases rest with
    | nil => exact absurd hafter (Nat.not_lt_zero _)
    | cons waiting rest =>
      simp only [Search.leave, Outcome.search, hstack, List.map_cons, Expansion.key_receive]
        at hafter ⊢
      simp only [List.length_cons] at hafter
      rw [getElem?_reverse_cons, getElem?_reverse_cons, getElem?_reverse_cons]
      simp only [List.length_cons, List.length_map]
      rw [if_neg (by omega : depth ≠ rest.length + 1)]

/-- An expansion that waits after a step was there before it and is not touched by it. -/
theorem Moves.at?_kept (m : search.Moves parser sentence outcome) {depth : Nat}
    (h : depth + 1 < outcome.search.stack.length) :
    outcome.search.at? depth = search.at? depth := by
  cases m with
  | idle => rfl
  | work hstack | cut hstack =>
    have hne := Nat.ne_of_lt (Nat.lt_of_succ_lt_succ h)
    rw [at?_of_stack hstack, at?_of_stack rfl, if_neg hne, if_neg hne]
  | call =>
    have hlt : depth < search.stack.length := Nat.lt_of_succ_lt_succ h
    rw [at?_of_stack rfl, if_neg (Nat.ne_of_lt hlt), at?]
  | @leave top rest hstack =>
    cases rest with
    | nil => exact absurd h (Nat.not_lt_zero _)
    | cons waiting rest =>
      have hlt : depth < rest.length := Nat.lt_of_succ_lt_succ h
      rw [at?_of_stack hstack, at?_of_stack rfl, if_neg (Nat.ne_of_lt hlt), getElem?_reverse_cons,
        if_neg (Nat.ne_of_lt hlt), List.length_cons, if_neg (by omega)]

theorem memo_leave (search : Search) (top : Expansion) (rest : List Expansion) :
    (search.leave top rest).search.memo = search.memo.settle top := by
  cases rest <;> rfl

/-- Unless an expansion ends, a step does and undoes nothing. -/
theorem Moves.done_kept (m : search.Moves parser sentence outcome) {key : Key}
    (hkey : ∀ top ∈ search.stack.head?, top.alternatives = [] → key ≠ top.key)
    (trees : List Tree) : outcome.search.memo[key]? = some (.done trees) ↔
      search.memo[key]? = some (.done trees) := by
  cases m with
  | idle | work | cut => exact Iff.rfl
  | @call _ _ callee _ _ _ _ hnew =>
    simp only [Outcome.search, Search.enter, Std.HashMap.getElem?_insert]
    split
    next heq =>
      rw [← LawfulBEq.eq_of_beq heq, hnew]
      simp
    next => exact Iff.rfl
  | @leave top rest hstack ha =>
    have hne : key ≠ top.key := hkey top (by rw [hstack]; rfl) ha
    rw [memo_leave, Memo.getElem?_settle_of_ne _ _ hne]

end Search

end Concord
