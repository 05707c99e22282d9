namespace Concord

/-- What is left to do in an expansion: alternatives, elements of the current one, and branches at
the current element. -/
structure Rank where
  alternatives : Nat
  elements : Nat
  branches : Nat

def Rank.triple (r : Rank) : Nat × Nat × Nat :=
  (r.alternatives, r.elements, r.branches)

/-- Fewer alternatives are less to do; with as many, fewer elements; with as many, fewer
branches. -/
def Rank.Less (a b : Rank) : Prop :=
  Prod.Lex (· < ·) (Prod.Lex (· < ·) (· < ·)) a.triple b.triple

theorem Rank.less_wf : WellFounded Rank.Less :=
  InvImage.wf Rank.triple
    (Prod.lex Nat.lt_wfRel (Prod.lex Nat.lt_wfRel Nat.lt_wfRel)).wf

theorem Rank.less_of_alternatives {a b : Rank} (h : a.alternatives < b.alternatives) :
    a.Less b :=
  Prod.Lex.left _ _ h

theorem Rank.less_of_elements {a b : Rank} (ha : a.alternatives = b.alternatives)
    (h : a.elements < b.elements) : a.Less b := by
  obtain ⟨a1, a2, a3⟩ := a
  obtain ⟨b1, b2, b3⟩ := b
  cases ha
  exact Prod.Lex.right _ (Prod.Lex.left _ _ h)

theorem Rank.less_of_branches {a b : Rank} (ha : a.alternatives = b.alternatives)
    (he : a.elements = b.elements) (h : a.branches < b.branches) : a.Less b := by
  obtain ⟨a1, a2, a3⟩ := a
  obtain ⟨b1, b2, b3⟩ := b
  cases ha
  cases he
  exact Prod.Lex.right _ (Prod.Lex.right _ h)

/-- One step down of a stack, given with its outermost entry first. -/
inductive StepDown : List Rank → List Rank → Prop where
  | push (top : Rank) : StepDown [top] []
  | lower {a b : Rank} (as bs : List Rank) : a.Less b → StepDown (a :: as) (b :: bs)
  | above (a : Rank) {as bs : List Rank} : StepDown as bs → StepDown (a :: as) (a :: bs)

/-- A step down to a stack of bounded height. -/
def StepDownWithin (height : Nat) (a b : List Rank) : Prop :=
  StepDown a b ∧ a.length ≤ height

theorem StepDown.append (outer : List Rank) {a b : List Rank} (h : StepDown a b) :
    StepDown (outer ++ a) (outer ++ b) := by
  induction outer with
  | nil => exact h
  | cons r outer ih => exact .above r ih

theorem stepDownWithin_acc (height : Nat) (stack : List Rank) :
    Acc (StepDownWithin height) stack := by
  induction height generalizing stack with
  | zero =>
    refine ⟨_, fun a h => ?_⟩
    obtain ⟨h, hl⟩ := h
    cases h <;> simp at hl
  | succ height ih =>
    have hcons : ∀ r bs, Acc (StepDownWithin (height + 1)) (r :: bs) := by
      intro r
      induction r using Rank.less_wf.induction with
      | _ r ihr =>
        intro bs
        induction ih bs with
        | intro bs _ ihb =>
          refine ⟨_, fun a h => ?_⟩
          obtain ⟨h, hl⟩ := h
          cases h with
          | lower as _ hab => exact ihr _ hab as
          | above _ hab => exact ihb _ ⟨hab, Nat.le_of_succ_le_succ hl⟩
    cases stack with
    | cons r bs => exact hcons r bs
    | nil =>
      refine ⟨_, fun a h => ?_⟩
      obtain ⟨h, _⟩ := h
      cases h
      exact hcons _ _

structure BoundedStack (height : Nat) where
  ranks : List Rank
  length_le : ranks.length ≤ height

/-- Stacks of bounded height cannot step down for ever. -/
instance (height : Nat) : WellFoundedRelation (BoundedStack height) where
  rel a b := StepDown a.ranks b.ranks
  wf := by
    have h : ∀ a b : BoundedStack height,
        StepDown a.ranks b.ranks → StepDownWithin height a.ranks b.ranks :=
      fun a _ h => ⟨h, a.length_le⟩
    exact Subrelation.wf (h _ _) (InvImage.wf BoundedStack.ranks ⟨stepDownWithin_acc height⟩)

end Concord
