import Mathlib.Data.List.Basic
import Mathlib.Data.List.Induction

namespace Concord

variable {α : Type _} [BEq α] [LawfulBEq α] {xs : List α} {a b : α}

theorem eraseDups_concat (xs : List α) (a : α) : (xs ++ [a]).eraseDups =
    if a ∈ xs then xs.eraseDups else xs.eraseDups ++ [a] := by
  rw [List.eraseDups_append]
  by_cases h : a ∈ xs
  · simp [h, List.removeAll]
  · simp [h, List.removeAll, List.eraseDups_cons]

theorem pairwise_eraseDups (xs : List α) :
    xs.eraseDups.Pairwise fun a b => xs.idxOf a < xs.idxOf b := by
  induction xs using List.reverseRecOn with
  | nil => simp
  | append_singleton xs last ih =>
    -- What stands before keeps its place, and a new element comes after all of it.
    have hsame : ∀ a ∈ xs.eraseDups, (xs ++ [last]).idxOf a = xs.idxOf a := fun a ha =>
      List.idxOf_append_of_mem (List.mem_eraseDups.mp ha)
    have hfront : xs.eraseDups.Pairwise fun a b =>
        (xs ++ [last]).idxOf a < (xs ++ [last]).idxOf b :=
      ih.imp_of_mem fun ha hb hlt => by rwa [hsame _ ha, hsame _ hb]
    rw [eraseDups_concat]
    by_cases hlast : last ∈ xs
    · rwa [if_pos hlast]
    · have hnew : (xs ++ [last]).idxOf last = xs.length := by
        rw [List.idxOf_append_of_notMem hlast, List.idxOf_cons_self, Nat.add_zero]
      rw [if_neg hlast]
      refine List.pairwise_append.mpr ⟨hfront, List.pairwise_singleton _ _, fun a ha b hb => ?_⟩
      rw [List.mem_singleton.mp hb, hnew, hsame a ha]
      exact List.idxOf_lt_length_iff.mpr (List.mem_eraseDups.mp ha)

theorem nodup_eraseDups (xs : List α) : xs.eraseDups.Nodup := by
  refine (pairwise_eraseDups xs).imp fun hlt => ?_
  rintro rfl
  exact Nat.lt_irrefl _ hlt

/-- Without the repetitions, elements stand as they first occur. -/
theorem idxOf_eraseDups_lt_iff (ha : a ∈ xs) (hb : b ∈ xs) :
    xs.eraseDups.idxOf a < xs.eraseDups.idxOf b ↔ xs.idxOf a < xs.idxOf b := by
  have hplace : ∀ {c}, c ∈ xs → xs.eraseDups.idxOf c < xs.eraseDups.length := fun hc =>
    List.idxOf_lt_length_iff.mpr (List.mem_eraseDups.mpr hc)
  have hmono : ∀ {c d}, c ∈ xs → d ∈ xs → xs.eraseDups.idxOf c < xs.eraseDups.idxOf d →
      xs.idxOf c < xs.idxOf d := by
    intro c d hc hd hlt
    have hordered := List.pairwise_iff_getElem.mp (pairwise_eraseDups xs) _ _ (hplace hc)
      (hplace hd) hlt
    rwa [List.getElem_idxOf, List.getElem_idxOf] at hordered
  refine ⟨hmono ha hb, fun hlt => ?_⟩
  rcases Nat.lt_trichotomy (xs.eraseDups.idxOf a) (xs.eraseDups.idxOf b) with h | h | h
  · exact h
  · rw [(List.idxOf_inj (List.mem_eraseDups.mpr ha)).mp h] at hlt
    exact absurd hlt (Nat.lt_irrefl _)
  · exact absurd (hmono hb ha h) (Nat.lt_asymm hlt)

end Concord
