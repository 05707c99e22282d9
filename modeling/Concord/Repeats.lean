namespace Concord

variable {α : Type _} [DecidableEq α]

/-- Leaves one of each run of equal neighbours. -/
def dropRepeats : List α → List α
  | a :: b :: rest => if a = b then dropRepeats (b :: rest) else a :: dropRepeats (b :: rest)
  | xs => xs

@[simp] theorem mem_dropRepeats {x : α} {xs : List α} : x ∈ dropRepeats xs ↔ x ∈ xs := by
  fun_induction dropRepeats xs with
  | case1 a rest ih => simp_all
  | case2 a b rest hab ih => rw [List.mem_cons, ih, List.mem_cons (l := b :: rest)]
  | case3 xs => exact Iff.rfl

/-- In a list that is sorted by an antisymmetric relation, no element is left twice. -/
theorem pairwise_dropRepeats {R : α → α → Prop} {xs : List α}
    (hanti : ∀ a b, R a b → R b a → a = b) (h : xs.Pairwise R) :
    (dropRepeats xs).Pairwise fun a b => R a b ∧ a ≠ b := by
  fun_induction dropRepeats xs with
  | case1 a rest ih => exact ih (List.pairwise_cons.1 h).2
  | case2 a b rest hab ih =>
    obtain ⟨ha, hb⟩ := List.pairwise_cons.1 h
    refine List.pairwise_cons.2 ⟨fun c hc => ?_, ih hb⟩
    have hc := mem_dropRepeats.1 hc
    refine ⟨ha c hc, ?_⟩
    rintro rfl
    rcases List.mem_cons.1 hc with rfl | hc
    · exact hab rfl
    · exact hab (hanti a b (ha b List.mem_cons_self) ((List.pairwise_cons.1 hb).1 a hc))
  | case3 xs hxs =>
    match xs, hxs with
    | [], _ => exact .nil
    | [a], _ => exact List.pairwise_singleton _ a
    | a :: b :: rest, hxs => exact absurd rfl (hxs a b rest)

end Concord
