import Concord.Proofs.Lookup
import Concord.Sentence

namespace Concord

/-- The stretches from one bound to the next that are in a set. -/
def stretches : List Nat → List (Nat × Nat)
  | lo :: hi :: bounds => (lo, hi) :: stretches bounds
  | _ => []

/-- The number of bounds up to a code point is odd within the stretches. -/
theorem odd_countP_iff {bounds : List Nat} (hsorted : bounds.Pairwise (· < ·))
    (heven : bounds.length % 2 = 0) (code : Nat) :
    bounds.countP (· ≤ code) % 2 = 1 ↔ ∃ s ∈ stretches bounds, s.1 ≤ code ∧ code < s.2 := by
  induction bounds using stretches.induct with
  | case1 lo hi bounds ih =>
    obtain ⟨hlo, hrest⟩ := List.pairwise_cons.mp hsorted
    obtain ⟨hhi, hrest⟩ := List.pairwise_cons.mp hrest
    have hlohi := hlo hi List.mem_cons_self
    have ih := ih hrest (by simp only [List.length_cons] at heven; omega)
    rw [stretches, List.countP_cons, List.countP_cons]
    -- Before `hi` the later bounds count for nothing; from `hi` on both bounds count.
    by_cases hcode : code < hi
    · have hnone : bounds.countP (· ≤ code) = 0 := by
        refine List.countP_eq_zero.mpr fun bound hbound => ?_
        have hbelow := hhi bound hbound
        simp only [decide_eq_true_eq]
        omega
      have hlater : ¬∃ s ∈ stretches bounds, s.1 ≤ code ∧ code < s.2 :=
        mt ih.mpr (by omega)
      have hnot : ¬hi ≤ code := by omega
      by_cases hle : lo ≤ code
      · simp [hnone, hle, hcode, hnot]
      · simp [hnone, hle, hlater, hnot]
    · have hle : lo ≤ code := by omega
      have hle' : hi ≤ code := by omega
      simp [hle, hle', hcode, Nat.add_assoc, ih]
  | case2 bounds hshort =>
    have hnil : bounds = [] := by
      match bounds with
      | [] => rfl
      | [_] => simp at heven
      | lo :: hi :: rest => exact (hshort lo hi rest rfl).elim
    subst hnil
    simp [stretches]

/-- Binary search counts the elements with a property that ceases to hold once. -/
theorem bisect_eq_countP {α : Type} {below : α → Bool} {xs : List α}
    (hbelow : xs.Pairwise fun x y => below y = true → below x = true) :
    bisect (fun i => xs[i]?.any below) 0 xs.length = xs.countP below := by
  have hsplits := splits_bisect hbelow (Nat.zero_le _)
  have hdrop := congrArg List.length (drop_of_splits hsplits)
  obtain ⟨-, hle, -, -⟩ := hsplits
  have hcut := congrArg List.length
    (List.takeWhile_append_dropWhile (p := below) (l := xs))
  rw [takeWhile_eq_filter hbelow, List.length_append, ← List.countP_eq_length_filter] at hcut
  rw [List.drop_zero, List.length_drop] at hdrop
  omega

theorem Ranges.contains_iff {ranges : Ranges} (hsorted : ranges.bounds.toList.Pairwise (· < ·))
    (heven : ranges.bounds.toList.length % 2 = 0) (code : Nat) :
    ranges.contains code = true ↔
      ∃ s ∈ stretches ranges.bounds.toList, s.1 ≤ code ∧ code < s.2 := by
  have hbelow : ranges.bounds.toList.Pairwise fun a b =>
      decide (b ≤ code) = true → decide (a ≤ code) = true := by
    refine hsorted.imp fun hab hb => ?_
    rw [decide_eq_true_eq] at *
    omega
  have hcount := bisect_eq_countP hbelow
  rw [← odd_countP_iff hsorted heven, ← hcount, contains, beq_iff_eq]
  simp only [Array.getElem?_toList, Array.length_toList]

theorem contains_alphanumericRanges (code : Nat) : alphanumericRanges.contains code = true ↔
    ∃ s ∈ stretches alphanumericRanges.bounds.toList, s.1 ≤ code ∧ code < s.2 :=
  Ranges.contains_iff (List.isChain_iff_pairwise.mp (by decide +kernel)) (by decide +kernel) code

theorem contains_blankRanges (code : Nat) : blankRanges.contains code = true ↔
    ∃ s ∈ stretches blankRanges.bounds.toList, s.1 ≤ code ∧ code < s.2 :=
  Ranges.contains_iff (List.isChain_iff_pairwise.mp (by decide +kernel)) (by decide +kernel) code

/-- The lower case of a run stands in one stretch of letters. -/
theorem any_stretches_target : ∀ run ∈ caseRuns.toList,
    ((stretches alphanumericRanges.bounds.toList).any fun s =>
      s.1.ble run.target && (run.target + (run.last - run.first)).blt s.2) = true := by
  decide +kernel

theorem caseRuns_bounds : ∀ run ∈ caseRuns.toList, 0x41 ≤ run.first ∧ 0x61 ≤ run.target ∧
    (run.target + (run.last - run.first) < 0xD800 ∨
      0xDFFF < run.target ∧ run.target + (run.last - run.first) < 0x110000) := by
  decide +kernel

/-- A character is its own lower case, or a run of the table holds it. -/
theorem lowerChar_cases (c : Char) : lowerChar c = c ∨ ∃ run ∈ caseRuns.toList,
    run.first ≤ c.toNat ∧ c.toNat ≤ run.last ∧ (c.toNat - run.first) % run.step = 0 ∧
      (lowerChar c).toNat = run.target + (c.toNat - run.first) := by
  unfold lowerChar
  dsimp only
  split
  next code hcode =>
    right
    obtain ⟨run, hrun, himage⟩ := Option.bind_eq_some_iff.mp hcode
    have hmem : run ∈ caseRuns.toList := Array.mem_toList_iff.mpr (Array.mem_of_getElem? hrun)
    unfold CaseRun.image? at himage
    split at himage
    next hin =>
      obtain ⟨hfirst, hlast, hstep⟩ := hin
      cases himage
      obtain ⟨-, -, hvalid⟩ := caseRuns_bounds run hmem
      have hcode' : run.target + (c.toNat - run.first) < 0xD800 ∨
          0xDFFF < run.target + (c.toNat - run.first) ∧
            run.target + (c.toNat - run.first) < 0x110000 := by omega
      exact ⟨run, hmem, hfirst, hlast, hstep, toNat_ofNat_of_valid hcode'⟩
    next => cases himage
  next => exact .inl rfl

theorem lowerChar_eq_iff {c d : Char} (hd : d.toNat < 0x41) : lowerChar c = d ↔ c = d := by
  rcases lowerChar_cases c with heq | ⟨run, hrun, hfirst, -, -, heq⟩
  · rw [heq]
  · obtain ⟨hrunFirst, htarget, -⟩ := caseRuns_bounds run hrun
    constructor
    · rintro rfl
      omega
    · rintro rfl
      omega

/-- The lower case of a character is the character itself, or else it is a letter. -/
theorem lowerChar_eq_self_or_letter (c : Char) :
    lowerChar c = c ∨ isAlphanumeric (lowerChar c) = true := by
  rcases lowerChar_cases c with heq | ⟨run, hrun, hfirst, hlast, -, heq⟩
  · exact .inl heq
  · obtain ⟨s, hs, hin⟩ := List.any_eq_true.mp (any_stretches_target run hrun)
    rw [Bool.and_eq_true, Nat.ble_eq, Nat.blt_eq] at hin
    rw [isAlphanumeric, heq]
    exact .inr ((contains_alphanumericRanges _).mpr ⟨s, hs, by omega, by omega⟩)

theorem lowerChar_ne_space {c : Char} (h : isBlank c = false) : lowerChar c ≠ ' ' := by
  rw [ne_eq, lowerChar_eq_iff (by decide)]
  rintro rfl
  cases h

/-- What a run is sent to lies outside each run, or between the code points of one. -/
theorem caseRuns_apart : ∀ run ∈ caseRuns.toList, (caseRuns.toList.all fun later =>
    (run.target + (run.last - run.first)).blt later.first || later.last.blt run.target ||
      (later.step == 2 && (run.step == 2 || run.first == run.last) &&
        (run.target + later.first) % 2 == 1)) = true := by
  decide +kernel

theorem lowerChar_lowerChar (c : Char) : lowerChar (lowerChar c) = lowerChar c := by
  rcases lowerChar_cases c with heq | ⟨run, hrun, hfirst, hlast, hstep, heq⟩
  · rw [heq, heq]
  rcases lowerChar_cases (lowerChar c) with heq' | ⟨later, hlater, hfirst', hlast', hstep', -⟩
  · exact heq'
  · -- The lower case would be in a run itself.
    have hapart := List.all_eq_true.mp (caseRuns_apart run hrun) later hlater
    simp only [Bool.or_eq_true, Bool.and_eq_true, beq_iff_eq, Nat.blt_eq] at hapart
    rw [heq] at hfirst' hlast' hstep'
    rcases hapart with (hbelow | habove) | ⟨⟨hlaterStep, hrunStep | hsingle⟩, hodd⟩
    · omega
    · omega
    · rw [hlaterStep] at hstep'
      rw [hrunStep] at hstep
      omega
    · rw [hlaterStep] at hstep'
      omega

theorem isWordChar_lowerChar {c : Char} (h : isWordChar c = true) :
    isWordChar (lowerChar c) = true := by
  rcases lowerChar_eq_self_or_letter c with heq | hletter
  · exact (congrArg isWordChar heq).trans h
  · rw [isWordChar, hletter, Bool.true_or]

/-- No stretch of letters touches a stretch of white space. -/
theorem stretches_disjoint : ∀ blank ∈ stretches blankRanges.bounds.toList,
    ¬(blank.1 ≤ 0x2D ∧ 0x2D < blank.2) ∧
      ((stretches alphanumericRanges.bounds.toList).all fun s =>
        s.2.ble blank.1 || blank.2.ble s.1) = true := by
  decide +kernel

theorem not_isAlphanumeric_of_isBlank {c : Char} (h : isBlank c = true) :
    isAlphanumeric c = false := by
  obtain ⟨blank, hblank, hlo, hhi⟩ := (contains_blankRanges c.toNat).mp h
  rw [Bool.eq_false_iff]
  intro hletter
  obtain ⟨s, hs, hlo', hhi'⟩ := (contains_alphanumericRanges c.toNat).mp hletter
  have hapart := List.all_eq_true.mp (stretches_disjoint blank hblank).2 s hs
  rw [Bool.or_eq_true, Nat.ble_eq, Nat.ble_eq] at hapart
  omega

theorem not_isWordChar_of_isBlank {c : Char} (h : isBlank c = true) : isWordChar c = false := by
  obtain ⟨blank, hblank, hlo, hhi⟩ := (contains_blankRanges c.toNat).mp h
  have hne : c ≠ '-' := by
    rintro rfl
    exact (stretches_disjoint blank hblank).1 ⟨hlo, hhi⟩
  rw [isWordChar, not_isAlphanumeric_of_isBlank h, Bool.false_or, beq_eq_false_iff_ne]
  exact hne

theorem isBlank_lowerChar {c : Char} (h : isBlank c = false) : isBlank (lowerChar c) = false := by
  rcases lowerChar_eq_self_or_letter c with heq | hletter
  · exact (congrArg isBlank heq).trans h
  · rw [Bool.eq_false_iff]
    intro hblank
    cases hletter.symm.trans (not_isAlphanumeric_of_isBlank hblank)

end Concord
