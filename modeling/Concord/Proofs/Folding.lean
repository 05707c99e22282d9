import Concord.Pattern.Compile
import Concord.Proofs.Letters

namespace Concord

section folding

theorem foldLiteral_of_isBlank {c : Char} (hc : isBlank c = true) (rest : Text) :
    foldLiteral (c :: rest) = ' ' :: foldLiteral (rest.dropWhile isBlank) := by
  induction rest generalizing c with
  | nil =>
    rw [foldLiteral, if_pos hc]
    rfl
  | cons d rest ih =>
    rw [foldLiteral, if_pos hc]
    by_cases hd : isBlank d = true
    · rw [List.dropWhile_cons_of_pos hd, if_pos hd, ih hd]
    · rw [List.dropWhile_cons_of_neg hd, if_neg hd]

theorem foldLiteral_of_not_isBlank {c : Char} (hc : isBlank c = false) (rest : Text) :
    foldLiteral (c :: rest) = lowerChar c :: foldLiteral rest := by
  cases rest with
  | nil => simp [foldLiteral, hc]
  | cons d rest => rw [foldLiteral, if_neg (by simp [hc])]

/-- The characters of a sentence are folded the way literals are. -/
theorem map_fst_normalizedFrom (offset : Nat) (text : Text) :
    (normalizedFrom offset false text).map Prod.fst = foldLiteral text ∧
      (normalizedFrom offset true text).map Prod.fst = foldLiteral (text.dropWhile isBlank) := by
  induction text generalizing offset with
  | nil => exact ⟨rfl, rfl⟩
  | cons c text ih =>
    obtain ⟨hfalse, htrue⟩ := ih (offset + c.utf8Size)
    rw [normalizedFrom, normalizedFrom]
    by_cases hc : isBlank c = true
    · rw [if_pos hc, if_pos hc, foldLiteral_of_isBlank hc, List.dropWhile_cons_of_pos hc]
      simp [htrue]
    · rw [List.dropWhile_cons_of_neg hc]
      rw [Bool.not_eq_true] at hc
      simp [hc, foldLiteral_of_not_isBlank hc, hfalse]

/-- All white space of a text is single spaces. -/
structure SingleSpaced (text : Text) : Prop where
  spaces : (text.all fun c => !isBlank c || c == ' ') = true
  apart : text.IsChain fun c d => isBlank c = true → isBlank d = false

theorem SingleSpaced.foldLiteral_eq {text : Text} (h : SingleSpaced text) :
    foldLiteral text = normalize text := by
  induction text with
  | nil => rfl
  | cons c rest ih =>
    obtain ⟨hspaces, hapart⟩ := h
    rw [List.all_cons, Bool.and_eq_true] at hspaces
    have hrest := ih ⟨hspaces.2, hapart.tail⟩
    by_cases hc : isBlank c = true
    · have hspace : c = ' ' := by simpa [hc] using hspaces.1
      have hdrop : rest.dropWhile isBlank = rest := by
        cases rest with
        | nil => rfl
        | cons d rest =>
          have hd := (List.isChain_cons_cons.mp hapart).1 hc
          exact List.dropWhile_cons_of_neg (by simp [hd])
      have hlower : lowerChar c = ' ' := (lowerChar_eq_iff (by decide)).mpr hspace
      rw [foldLiteral_of_isBlank hc, hdrop, hrest, normalize, normalize, List.map_cons, hlower]
    · rw [Bool.not_eq_true] at hc
      rw [foldLiteral_of_not_isBlank hc, hrest, normalize, normalize, List.map_cons]

/-- A folded text holds spaces, and the lower case of what is not white space. -/
theorem forall_mem_foldLiteral {p : Char → Prop} (hspace : p ' ') {text : Text}
    (h : ∀ c ∈ text, isBlank c = false → p (lowerChar c)) : ∀ d ∈ foldLiteral text, p d := by
  fun_induction foldLiteral text with
  | case1 => simp
  | case2 c hc d rest hd ih => exact ih (List.forall_mem_cons.mp h).2
  | case3 c hc d rest hd ih =>
    exact List.forall_mem_cons.mpr ⟨hspace, ih (List.forall_mem_cons.mp h).2⟩
  | case4 c hc => exact List.forall_mem_singleton.mpr hspace
  | case5 c rest hc ih =>
    obtain ⟨hfirst, hrest⟩ := List.forall_mem_cons.mp h
    exact List.forall_mem_cons.mpr ⟨hfirst (by simpa using hc), ih hrest⟩

/-- A folded text has no white space but single spaces. -/
theorem singleSpaced_foldLiteral (text : Text) : SingleSpaced (foldLiteral text) := by
  refine ⟨List.all_eq_true.mpr (forall_mem_foldLiteral (by decide) fun c _ hc => ?_), ?_⟩
  · rw [isBlank_lowerChar hc]
    rfl
  · fun_induction foldLiteral text with
    | case1 => exact .nil
    | case2 c hc d rest hd ih => exact ih
    | case3 c hc d rest hd ih =>
      rw [Bool.not_eq_true] at hd
      rw [foldLiteral_of_not_isBlank hd] at ih ⊢
      exact List.isChain_cons_cons.mpr ⟨fun _ => isBlank_lowerChar hd, ih⟩
    | case4 c hc => exact List.isChain_singleton _
    | case5 c rest hc ih =>
      rw [Bool.not_eq_true] at hc
      cases hrest : foldLiteral rest with
      | nil => exact List.isChain_singleton _
      | cons d later =>
        rw [hrest] at ih
        refine List.isChain_cons_cons.mpr ⟨fun hblank => ?_, ih⟩
        cases hblank.symm.trans (isBlank_lowerChar hc)

theorem toList_chars_ofText (text : Text) :
    (Sentence.ofText text).chars.toList = foldLiteral text :=
  (map_fst_normalizedFrom 0 text).1

end folding

section mapped

theorem splitAll_map {α : Type} {f : α → α} {sep : α → Bool} (hf : ∀ a, sep (f a) = sep a)
    (xs : List α) : splitAll sep (xs.map f) = (splitAll sep xs).map (List.map f) := by
  induction xs with
  | nil => rfl
  | cons a xs ih =>
    rw [List.map_cons, splitAll, splitAll, hf, ih]
    split
    · rfl
    · cases splitAll sep xs with
      | nil => rfl
      | cons piece pieces => rfl

variable {α : Type} [DecidableEq α] {f : α → α}

theorem dropFinal_map {a : α} (hf : ∀ b, f b = a ↔ b = a) (xs : List α) :
    dropFinal a (xs.map f) = (dropFinal a xs).map f := by
  have hlast : (xs.map f).getLast? = some a ↔ xs.getLast? = some a := by
    rw [List.getLast?_map, Option.map_eq_some_iff]
    constructor
    · rintro ⟨b, hb, hfb⟩
      rw [hb, (hf b).mp hfb]
    · intro h
      exact ⟨a, h, (hf a).mpr rfl⟩
  unfold dropFinal
  by_cases h : xs.getLast? = some a
  · rw [if_pos h, if_pos (hlast.mpr h), List.map_dropLast]
  · rw [if_neg h, if_neg (mt hlast.mp h)]

theorem linesWith_map {feed carriage : α} (hfeed : ∀ b, f b = feed ↔ b = feed)
    (hcarriage : ∀ b, f b = carriage ↔ b = carriage) (text : List α) :
    linesWith feed carriage (text.map f) = (linesWith feed carriage text).map (List.map f) := by
  have hpieces : splitAll (· = feed) (text.map f) =
      (splitAll (· = feed) text).map (List.map f) := splitAll_map (by simp [hfeed]) text
  unfold linesWith
  rw [hpieces]
  dsimp only
  rw [← List.map_dropLast, List.map_map, List.getLast?_map, List.map_append, List.map_map]
  congr 1
  · exact List.map_congr_left fun piece _ => dropFinal_map hcarriage piece
  · cases (splitAll (· = feed) text).getLast? with
    | none => rfl
    | some piece => cases piece <;> rfl

theorem splitAtFirst_normalize {c : Char} (hc : c.toNat < 0x41) (text : Text) :
    splitAtFirst c (normalize text) =
      (splitAtFirst c text).map fun (left, right) => (normalize left, normalize right) := by
  induction text with
  | nil => rfl
  | cons a text ih =>
    rw [normalize, List.map_cons, splitAtFirst, splitAtFirst]
    by_cases ha : a = c
    · rw [if_pos ha, if_pos ((lowerChar_eq_iff hc).mpr ha)]
      rfl
    · rw [if_neg ha, if_neg (mt (lowerChar_eq_iff hc).mp ha)]
      rw [normalize] at ih
      rw [ih, Option.map_map, Option.map_map]
      rfl

theorem lines_normalize (text : Text) : lines (normalize text) = (lines text).map normalize :=
  linesWith_map (fun _ => lowerChar_eq_iff (by decide)) (fun _ => lowerChar_eq_iff (by decide)) text

end mapped

end Concord
