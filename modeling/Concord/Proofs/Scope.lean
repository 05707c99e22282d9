import Concord.Proofs.Distinct
import Concord.Proofs.Outcome
import Concord.Proofs.Validity

namespace Concord

/-- The variable of a clause, if there is one, is among some that were seen. -/
def Clause.ScopedIn (seen : List Nat) (clause : Clause) : Prop :=
  ∀ index, clause.value = .variable index → index < seen.length

theorem Clause.ScopedIn.mono {seen seen' : List Nat} {clause : Clause}
    (h : clause.ScopedIn seen) (hle : seen.length ≤ seen'.length) : clause.ScopedIn seen' :=
  fun index hv => Nat.lt_of_lt_of_le (h index hv) hle

theorem place_spec (seen : List Nat) (number : Nat) :
    (place seen number).1 < (place seen number).2.length ∧
      seen.length ≤ (place seen number).2.length := by
  unfold place
  split
  next h => exact ⟨List.idxOf_lt_length_iff.mpr h, Nat.le_refl _⟩
  next => simp

theorem compileValue_scoped {seen seen' : List Nat} {kind : Attribute} {text : Text}
    {value : Demand} (h : compileValue seen kind text = .ok (value, seen')) :
    (∀ index, value = .variable index → index < seen'.length) ∧ seen.length ≤ seen'.length := by
  unfold compileValue at h
  split at h
  next digits =>
    split at h
    next number hnumber =>
      obtain ⟨hlt, hle⟩ := place_spec seen number
      cases h
      refine ⟨fun index hv => ?_, hle⟩
      cases hv
      exact hlt
    next => cases h
  next tag =>
    split at h
    next feature hfeature =>
      cases h
      exact ⟨nofun, Nat.le_refl _⟩
    next => cases h

theorem compileBody_scoped {seen seen' : List Nat} {exported : Bool} {body : Text}
    {clause : Clause} (h : compileBody seen exported body = .ok (clause, seen')) :
    clause.ScopedIn seen' ∧ seen.length ≤ seen'.length := by
  unfold compileBody at h
  split at h
  next name value? hsplit =>
    split at h
    next => cases h
    next kind hkind =>
      split at h
      next =>
        cases h
        exact ⟨nofun, Nat.le_refl _⟩
      next value =>
        obtain ⟨⟨demand, seen₁⟩, hv, heq⟩ := exists_ok_of_map h
        cases heq
        exact compileValue_scoped hv

theorem compileClause_scoped {seen seen' : List Nat} {token : Text} {clause : Clause}
    (h : compileClause seen token = .ok (clause, seen')) :
    clause.ScopedIn seen' ∧ seen.length ≤ seen'.length := by
  unfold compileClause at h
  split at h
  · exact compileBody_scoped h
  · exact compileBody_scoped h

theorem compileClauses_scoped {seen seen' : List Nat} {tokens : List Text}
    {clauses : List Clause} (h : compileClauses seen tokens = .ok (clauses, seen')) :
    (∀ clause ∈ clauses, clause.ScopedIn seen') ∧ seen.length ≤ seen'.length := by
  induction tokens generalizing seen clauses with
  | nil =>
    cases h
    exact ⟨by simp, Nat.le_refl _⟩
  | cons token tokens ih =>
    rw [compileClauses] at h
    obtain ⟨⟨clause, seen₁⟩, hfirst, h⟩ := exists_ok_of_bind h
    obtain ⟨⟨clauses', seen₂⟩, hrest, h⟩ := exists_ok_of_bind h
    cases h
    obtain ⟨hclause, hle₁⟩ := compileClause_scoped hfirst
    obtain ⟨hclauses, hle₂⟩ := ih hrest
    exact ⟨List.forall_mem_cons.mpr ⟨hclause.mono hle₂, hclauses⟩, Nat.le_trans hle₁ hle₂⟩

theorem compileTerm_scoped {seen seen' : List Nat} {body : Text} {term : Term}
    (h : compileTerm seen body = .ok (term, seen')) :
    (∀ clause ∈ term.clauses, clause.ScopedIn seen') ∧ seen.length ≤ seen'.length := by
  unfold compileTerm at h
  split at h
  next => cases h
  next first tokens _ =>
    split at h
    next =>
      split at h
      next =>
        obtain ⟨⟨clauses, seen₁⟩, hc, heq⟩ := exists_ok_of_map h
        cases heq
        exact compileClauses_scoped hc
      next => cases h
    next =>
      obtain ⟨⟨clauses, seen₁⟩, hc, heq⟩ := exists_ok_of_map h
      cases heq
      exact compileClauses_scoped hc

theorem compileGuard_length_le {seen seen' : List Nat} {body : Text} {value : Feature}
    (h : compileGuard seen body = .ok (value, seen')) : seen.length ≤ seen'.length := by
  unfold compileGuard at h
  split at h
  next token _ =>
    obtain ⟨⟨clause, seen₁⟩, hc, h⟩ := exists_ok_of_bind h
    split at h
    next heq =>
      cases h
      cases heq
      exact (compileClause_scoped hc).2
    next => cases h
  next => cases h

def Draft.Scoped (draft : Draft) : Prop :=
  ∀ term, .term term ∈ draft.elements → ∀ clause ∈ term.clauses, clause.ScopedIn draft.seen

theorem Draft.Scoped.add {draft draft' : Draft} {segment : Segment} (hd : draft.Scoped)
    (h : draft.add segment = .ok draft') : draft'.Scoped := by
  cases segment with
  | literal text =>
    rw [Draft.add] at h
    split at h
    next =>
      cases h
      exact hd
    next =>
      cases h
      intro term ht
      exact hd term (by simpa using ht)
  | guard body =>
    rw [Draft.add] at h
    obtain ⟨⟨value, seen⟩, hc, h⟩ := exists_ok_of_bind h
    cases h
    exact fun term ht clause hclause =>
      (hd term ht clause hclause).mono (compileGuard_length_le hc)
  | term body =>
    rw [Draft.add] at h
    obtain ⟨⟨new, seen⟩, hc, h⟩ := exists_ok_of_bind h
    cases h
    obtain ⟨hnew, hle⟩ := compileTerm_scoped hc
    intro term ht clause hclause
    rcases List.mem_append.mp ht with ht | ht
    · exact (hd term ht clause hclause).mono hle
    · cases List.mem_singleton.mp ht
      exact hnew clause hclause
  | fault fault => cases h

theorem Draft.Scoped.addAll {draft draft' : Draft} {segments : List Segment} (hd : draft.Scoped)
    (h : segments.foldlM Draft.add draft = .ok draft') : draft'.Scoped := by
  induction segments generalizing draft with
  | nil =>
    cases h
    exact hd
  | cons segment segments ih =>
    rw [List.foldlM_cons] at h
    obtain ⟨middle, hs, h⟩ := exists_ok_of_bind h
    exact ih (hd.add hs) h

theorem Pattern.scoped_of_read {raw : Text} {pattern : Pattern}
    (h : Pattern.read raw = .ok pattern) : pattern.Scoped := by
  unfold Pattern.read at h
  obtain ⟨draft, hd, h⟩ := exists_ok_of_bind h
  cases h
  have hscoped : draft.Scoped := Draft.Scoped.addAll (fun term ht => by cases ht) hd
  intro term ht
  obtain ⟨element, he, hterm⟩ := List.mem_filterMap.mp ht
  cases element with
  | literal text => cases hterm
  | term t =>
    cases hterm
    exact hscoped term he

theorem Pattern.Scoped.link {pattern : Pattern} (h : pattern.Scoped) (names : List Text) :
    (pattern.link names).Scoped := by
  intro term ht clause hclause
  obtain ⟨element, he, hterm⟩ := List.mem_filterMap.mp ht
  obtain ⟨element', he', rfl⟩ := List.mem_map.mp he
  cases element' with
  | literal text => cases hterm
  | term t =>
    cases hterm
    exact h t (List.mem_filterMap.mpr ⟨_, he', rfl⟩) clause hclause

theorem Rule.scoped_of_compile {rule : Rule} {pattern : Pattern}
    (h : rule.compile = .ok pattern) : pattern.Scoped := by
  unfold Rule.compile at h
  split at h
  next hread =>
    cases h
    exact Pattern.scoped_of_read hread
  next => cases h

namespace Grammar

theorem scoped_of_compileAll {rules : List Rule} {patterns : List (Text × Pattern)}
    (h : rules.mapM (fun rule => return (rule.name, ← rule.compile)) = .ok patterns) :
    ∀ pair ∈ patterns, pair.2.Scoped := by
  induction rules generalizing patterns with
  | nil =>
    cases h
    simp
  | cons rule rules ih =>
    rw [List.mapM_cons] at h
    obtain ⟨first, hfirst, h⟩ := exists_ok_of_bind h
    obtain ⟨pattern, hpattern, hfirst⟩ := exists_ok_of_bind hfirst
    obtain ⟨rest, hrest, h⟩ := exists_ok_of_bind h
    cases hfirst
    cases h
    exact List.forall_mem_cons.mpr ⟨Rule.scoped_of_compile hpattern, ih hrest⟩

theorem patterns_of_ofRules {rules : List Rule} {grammar : Grammar}
    (h : ofRules rules = .ok grammar) :
    ∃ patterns : List (Text × Pattern), grammar = ofPatterns patterns ∧
      ∀ pair ∈ patterns, pair.2.Scoped := by
  obtain ⟨patterns, hpatterns, h⟩ := exists_ok_of_bind h
  cases h
  exact ⟨patterns, rfl, scoped_of_compileAll hpatterns⟩

theorem scoped_of_ofRules {rules : List Rule} {grammar : Grammar}
    (h : ofRules rules = .ok grammar) : grammar.Scoped := by
  obtain ⟨patterns, rfl, hscoped⟩ := patterns_of_ofRules h
  intro symbol hsymbol pattern hpattern
  simp only [ofPatterns, List.mem_toArray, List.mem_map] at hsymbol
  obtain ⟨name, -, rfl⟩ := hsymbol
  obtain ⟨pair, hpair, rfl⟩ := List.mem_map.mp hpattern
  exact (hscoped pair (List.mem_filter.mp hpair).1).link _

theorem indexOf?_nameOf {rules : List Rule} {grammar : Grammar}
    (h : ofRules rules = .ok grammar) {symbol : Nat} (hs : symbol < grammar.size) :
    grammar.indexOf? (grammar.nameOf symbol) = some symbol := by
  obtain ⟨patterns, rfl, -⟩ := patterns_of_ofRules h
  have hnodup := nodup_eraseDups (patterns.map Prod.fst)
  unfold ofPatterns at hs ⊢
  generalize (patterns.map Prod.fst).eraseDups = names at hs hnodup ⊢
  simp only [size, List.size_toArray, List.length_map] at hs
  simp only [nameOf, indexOf?, List.getElem?_toArray, List.getElem?_map,
    List.getElem?_eq_getElem hs, Option.map_some, List.findIdx?_toArray, List.findIdx?_map]
  rw [List.findIdx?_eq_some_iff_getElem]
  refine ⟨hs, by simp, fun j hj => ?_⟩
  have hne := List.pairwise_iff_getElem.mp hnodup j symbol (Nat.lt_trans hj hs) hs hj
  simpa using hne

/-- A symbol that may begin with itself. -/
def direct : Grammar where
  symbols := #[⟨['a'], [⟨['{', 'a', '}', '!'], none,
    [.term ⟨some ['a'], [], some 0⟩, .literal ['!']], 0⟩, ⟨['x'], none, [.literal ['x']], 0⟩]⟩]
  undefined := []

theorem ofRules_direct :
    ofRules [⟨['a'], ['{', 'a', '}', '!']⟩, ⟨['a'], ['x']⟩] = .ok .direct :=
  ok_of_toOption (by decide +kernel)

end Grammar

end Concord
