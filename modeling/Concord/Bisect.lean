namespace Concord

/-- Halves the interval from `lo` to `hi` while it is not empty, at most `fuel` times. -/
def bisectLoop (below : Nat → Bool) : Nat → Nat → Nat → Nat
  | 0, lo, _ => lo
  | fuel + 1, lo, hi =>
    if lo < hi then
      let mid := (lo + hi) / 2
      if below mid then bisectLoop below fuel (mid + 1) hi else bisectLoop below fuel lo mid
    else
      lo

/-- The first position from `lo` on where `below` fails, `hi` if there is none before it. -/
def bisect (below : Nat → Bool) (lo hi : Nat) : Nat :=
  bisectLoop below (hi - lo) lo hi

/-- A position splits the interval if `below` holds before it and fails from it on. -/
def Splits (below : Nat → Bool) (lo hi i : Nat) : Prop :=
  lo ≤ i ∧ i ≤ hi ∧ (∀ j, lo ≤ j → j < i → below j = true) ∧
    (∀ j, i ≤ j → j < hi → below j = false)

theorem bisectLoop_splits {below : Nat → Bool} {fuel lo hi : Nat}
    (hmono : ∀ i j, i ≤ j → j < hi → below j = true → below i = true)
    (hle : lo ≤ hi) (hfuel : hi - lo ≤ fuel) :
    Splits below lo hi (bisectLoop below fuel lo hi) := by
  induction fuel generalizing lo hi with
  | zero =>
    have h : bisectLoop below 0 lo hi = lo := rfl
    rw [h]
    exact ⟨Nat.le_refl _, hle, fun j _ _ => by omega, fun j _ _ => by omega⟩
  | succ fuel ih =>
    unfold bisectLoop
    split
    next hlt =>
      have hmid : lo ≤ (lo + hi) / 2 ∧ (lo + hi) / 2 < hi := by omega
      generalize (lo + hi) / 2 = mid at hmid
      cases hb : below mid with
      | true =>
        obtain ⟨h1, h2, h3, h4⟩ := ih hmono (show mid + 1 ≤ hi by omega) (by omega)
        simp only [hb, if_true]
        refine ⟨by omega, h2, fun j _ hj => ?_, h4⟩
        by_cases hjm : j ≤ mid
        · exact hmono j mid hjm hmid.2 hb
        · exact h3 j (by omega) hj
      | false =>
        obtain ⟨h1, h2, h3, h4⟩ :=
          ih (fun i j hij hj => hmono i j hij (by omega)) hmid.1 (by omega)
        simp only [hb, Bool.false_eq_true, if_false]
        refine ⟨h1, by omega, h3, fun j hj hjh => ?_⟩
        by_cases hjm : j < mid
        · exact h4 j hj hjm
        · cases hbj : below j with
          | false => rfl
          | true => exact absurd (hmono mid j (by omega) hjh hbj) (by simp [hb])
    next hlt =>
      exact ⟨Nat.le_refl _, hle, fun j _ _ => by omega, fun j _ _ => by omega⟩

/-- Binary search finds the end of the stretch on which a downward closed property holds. -/
theorem bisect_splits {below : Nat → Bool} {lo hi : Nat}
    (hmono : ∀ i j, i ≤ j → j < hi → below j = true → below i = true) (hle : lo ≤ hi) :
    Splits below lo hi (bisect below lo hi) :=
  bisectLoop_splits hmono hle (Nat.le_refl _)

theorem Splits.unique {below : Nat → Bool} {lo hi i j : Nat}
    (hi' : Splits below lo hi i) (hj' : Splits below lo hi j) : i = j := by
  obtain ⟨hi1, hi2, hi3, hi4⟩ := hi'
  obtain ⟨hj1, hj2, hj3, hj4⟩ := hj'
  rcases Nat.lt_trichotomy i j with h | h | h
  · have h1 := hj3 i hi1 h
    have h2 := hi4 i (Nat.le_refl i) (by omega)
    simp [h1] at h2
  · exact h
  · have h1 := hi3 j hj1 h
    have h2 := hj4 j (Nat.le_refl j) (by omega)
    simp [h1] at h2

end Concord
