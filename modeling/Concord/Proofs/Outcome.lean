import Mathlib.Data.List.Forall2

namespace Concord

variable {ε α β : Type _}

section except

variable {x : Except ε α} {b : β}

theorem exists_ok_of_bind {f : α → Except ε β} (h : x >>= f = .ok b) :
    ∃ a, x = .ok a ∧ f a = .ok b := by
  cases x with
  | error fault => cases h
  | ok a => exact ⟨a, rfl, h⟩

theorem exists_ok_of_map {f : α → β} (h : x.map f = .ok b) : ∃ a, x = .ok a ∧ f a = b := by
  cases x with
  | error fault => cases h
  | ok a =>
    cases h
    exact ⟨a, rfl, rfl⟩

theorem ok_of_mapError {ε' : Type _} {f : ε → ε'} {a : α} (h : x.mapError f = .ok a) :
    x = .ok a := by
  cases x with
  | error fault => cases h
  | ok b =>
    cases h
    rfl

theorem ok_of_toOption {a : α} {x : Except ε α} (h : x.toOption = some a) : x = .ok a := by
  cases x with
  | error fault => cases h
  | ok b =>
    cases h
    rfl

end except

section each

variable {f : α → Except ε β}

/-- All results are there if each element has its own. -/
theorem mapM_eq_ok {xs : List α} {ys : List β} :
    xs.mapM f = .ok ys ↔ List.Forall₂ (fun x y => f x = .ok y) xs ys := by
  induction xs generalizing ys with
  | nil =>
    rw [List.forall₂_nil_left_iff, List.mapM_nil]
    exact ⟨fun h => (Except.ok.inj h).symm, fun h => h ▸ rfl⟩
  | cons x xs ih =>
    rw [List.forall₂_cons_left_iff, List.mapM_cons]
    constructor
    · intro h
      obtain ⟨y, hy, h⟩ := exists_ok_of_bind h
      obtain ⟨ys', hys, h⟩ := exists_ok_of_bind h
      cases h
      exact ⟨y, ys', hy, ih.mp hys, rfl⟩
    · rintro ⟨y, ys', hy, hys, rfl⟩
      rw [hy, ih.mpr hys]
      rfl

theorem mapM_cons_eq_error {x : α} {xs : List α} {e : ε} : (x :: xs).mapM f = .error e ↔
    f x = .error e ∨ (∃ b, f x = .ok b) ∧ xs.mapM f = .error e := by
  rw [List.mapM_cons]
  cases hx : f x with
  | error fault =>
    constructor
    · intro h
      cases h
      exact .inl rfl
    · rintro (h | ⟨⟨b, hb⟩, -⟩)
      · cases h
        rfl
      · cases hb
  | ok b =>
    cases hxs : xs.mapM f with
    | error fault =>
      constructor
      · intro h
        exact .inr ⟨⟨b, rfl⟩, h⟩
      · rintro (h | ⟨-, h⟩)
        · cases h
        · exact h
    | ok bs =>
      refine iff_of_false nofun ?_
      rintro (h | ⟨-, h⟩)
      · cases h
      · cases h

/-- The first element without a result is the one that is reported. -/
theorem mapM_eq_error {xs : List α} {e : ε} : xs.mapM f = .error e ↔
    ∃ before x after, xs = before ++ x :: after ∧ (∀ y ∈ before, ∃ b, f y = .ok b) ∧
      f x = .error e := by
  induction xs with
  | nil => exact iff_of_false nofun (by simp)
  | cons first xs ih =>
    rw [mapM_cons_eq_error, ih]
    constructor
    · rintro (h | ⟨hfirst, before, x, after, rfl, hbefore, hx⟩)
      · exact ⟨[], first, xs, rfl, nofun, h⟩
      · exact ⟨first :: before, x, after, rfl, List.forall_mem_cons.mpr ⟨hfirst, hbefore⟩, hx⟩
    · rintro ⟨before, x, after, hsplit, hbefore, hx⟩
      cases before with
      | nil =>
        cases hsplit
        exact .inl hx
      | cons y before =>
        cases hsplit
        obtain ⟨hfirst, hbefore⟩ := List.forall_mem_cons.mp hbefore
        exact .inr ⟨hfirst, before, x, after, rfl, hbefore, hx⟩

end each

theorem forall_of_forall₂ {α β : Type _} {r : α → β → Prop} {p : α → Prop} {xs : List α}
    {ys : List β} (h : List.Forall₂ r xs ys) (hp : ∀ x y, r x y → p x) : ∀ x ∈ xs, p x := by
  induction h with
  | nil => nofun
  | cons hxy _ ih => exact List.forall_mem_cons.mpr ⟨hp _ _ hxy, ih⟩

section gather

variable {f g : α → Option (List β)} {xs : List α} {ys : List β}

/-- The lists that are made of elements, joined, if one is made of each. -/
def gather (f : α → Option (List β)) : List α → Option (List β)
  | [] => some []
  | x :: xs => (f x).bind fun ys => (gather f xs).map (ys ++ ·)

theorem gather_eq_some : gather f xs = some ys ↔
    (∀ x ∈ xs, ∃ made, f x = some made) ∧ ys = xs.flatMap fun x => (f x).getD [] := by
  induction xs generalizing ys with
  | nil => simp [gather, eq_comm]
  | cons x xs ih =>
    rw [gather, List.forall_mem_cons, List.flatMap_cons]
    cases hx : f x with
    | none => simp
    | some first =>
      simp only [Option.bind_some, Option.map_eq_some_iff, ih, Option.getD_some, Option.some.injEq,
        exists_eq', true_and]
      constructor
      · rintro ⟨others, ⟨hall, rfl⟩, rfl⟩
        exact ⟨hall, rfl⟩
      · rintro ⟨hall, rfl⟩
        exact ⟨_, ⟨hall, rfl⟩, rfl⟩

theorem exists_gather (h : ∀ x ∈ xs, ∃ made, f x = some made) : ∃ ys, gather f xs = some ys :=
  ⟨_, gather_eq_some.mpr ⟨h, rfl⟩⟩

theorem mem_gather {p : α → β → Prop} (h : gather f xs = some ys)
    (hp : ∀ x ∈ xs, ∀ made, f x = some made → ∀ y, y ∈ made ↔ p x y) {y : β} :
    y ∈ ys ↔ ∃ x ∈ xs, p x y := by
  obtain ⟨hall, rfl⟩ := gather_eq_some.mp h
  rw [List.mem_flatMap]
  refine exists_congr fun x => and_congr_right fun hx => ?_
  obtain ⟨made, hmade⟩ := hall x hx
  rw [hmade, Option.getD_some, hp x hx made hmade]

/-- What is gathered stays the same if nothing that is made changes. -/
theorem gather_mono (h : gather f xs = some ys)
    (hfg : ∀ x ∈ xs, ∀ made, f x = some made → g x = some made) : gather g xs = some ys := by
  obtain ⟨hall, rfl⟩ := gather_eq_some.mp h
  refine gather_eq_some.mpr ⟨fun x hx => ?_, ?_⟩
  · obtain ⟨made, hmade⟩ := hall x hx
    exact ⟨made, hfg x hx made hmade⟩
  · rw [List.flatMap, List.flatMap]
    refine congrArg List.flatten (List.map_congr_left fun x hx => ?_)
    obtain ⟨made, hmade⟩ := hall x hx
    rw [hmade, hfg x hx made hmade]

end gather

end Concord
