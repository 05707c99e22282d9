import Concord.Proofs.Folding
import Concord.Proofs.Locality
import Concord.Proofs.Trimming
import Concord.Proofs.Utf8

namespace Concord

section placed

variable {p q s text : Text}

/-- Whether a blank comes last, or came before if there is nothing else. -/
def endsBlank (afterBlank : Bool) (text : Text) : Bool :=
  (text.getLast?.map isBlank).getD afterBlank

theorem endsBlank_cons (afterBlank : Bool) (c : Char) (text : Text) :
    endsBlank afterBlank (c :: text) = endsBlank (isBlank c) text := by
  rw [endsBlank, endsBlank, List.getLast?_cons]
  cases text.getLast? <;> rfl

theorem normalizedFrom_append (offset : Nat) (afterBlank : Bool) (text rest : Text) :
    normalizedFrom offset afterBlank (text ++ rest) = normalizedFrom offset afterBlank text ++
      normalizedFrom (offset + utf8Length text) (endsBlank afterBlank text) rest := by
  induction text generalizing offset afterBlank with
  | nil => rfl
  | cons c text ih =>
    rw [List.cons_append, normalizedFrom, normalizedFrom, utf8Length, endsBlank_cons,
      ← Nat.add_assoc, ih, ih]
    by_cases hc : isBlank c = true
    · cases afterBlank <;> simp [hc]
    · simp [hc]

theorem normalizedFrom_add (offset count : Nat) (afterBlank : Bool) (text : Text) :
    normalizedFrom (offset + count) afterBlank text =
      (normalizedFrom offset afterBlank text).map fun (c, i) => (c, i + count) := by
  induction text generalizing offset afterBlank with
  | nil => rfl
  | cons c text ih =>
    have hnext : offset + count + c.utf8Size = offset + c.utf8Size + count := by omega
    rw [normalizedFrom, normalizedFrom, hnext, ih, ih]
    by_cases hc : isBlank c = true
    · cases afterBlank <;> simp [hc]
    · simp [hc]

theorem normalizedFrom_blank (hq : ∀ c ∈ q, isBlank c = true) (offset : Nat) :
    normalizedFrom offset true q = [] := by
  induction q generalizing offset with
  | nil => rfl
  | cons c q ih =>
    obtain ⟨hc, hq⟩ := List.forall_mem_cons.mp hq
    rw [normalizedFrom, if_pos hc, if_pos rfl, ih hq]

theorem endsBlank_blank (hp : ∀ c ∈ p, isBlank c = true) : endsBlank true p = true := by
  induction p with
  | nil => rfl
  | cons c p ih =>
    obtain ⟨hc, hp⟩ := List.forall_mem_cons.mp hp
    rw [endsBlank_cons, hc]
    exact ih hp

theorem normalizedFrom_ne_nil {c : Char} (hc : c ∈ text) (hblank : isBlank c = false)
    (offset : Nat) (afterBlank : Bool) : normalizedFrom offset afterBlank text ≠ [] := by
  induction text generalizing offset afterBlank with
  | nil => cases hc
  | cons d text ih =>
    rw [normalizedFrom]
    split
    · rename_i hd
      have hrest : c ∈ text := by
        rcases List.mem_cons.mp hc with rfl | hc
        · rw [hblank] at hd
          cases hd
        · exact hc
      split
      · exact ih hrest _ _
      · exact List.cons_ne_nil _ _
    · exact List.cons_ne_nil _ _

theorem normalizedFrom_trailing (hq : ∀ c ∈ q, isBlank c = true) (hne : q ≠ []) (text : Text) :
    normalizedFrom 0 false (text ++ q) = normalizedFrom 0 false text ++
      if endsBlank false text then [] else [(' ', utf8Length text)] := by
  rw [normalizedFrom_append, Nat.zero_add]
  cases endsBlank false text with
  | true => rw [normalizedFrom_blank hq, if_pos rfl]
  | false =>
    obtain ⟨c, rest, rfl⟩ := List.exists_cons_of_ne_nil hne
    obtain ⟨hc, hrest⟩ := List.forall_mem_cons.mp hq
    simp [normalizedFrom, hc, normalizedFrom_blank hrest]

namespace Sentence

theorem afterSpace_le (text : Text) : (ofText text).afterSpace 0 ≤ (ofText text).length := by
  unfold afterSpace
  split
  · rename_i hspace
    exact (Array.getElem?_eq_some_iff.mp hspace).1
  · exact Nat.zero_le _

theorem getElem?_chars (text : Text) (i : Nat) :
    (ofText text).chars[i]? = ((normalizedFrom 0 false text)[i]?).map Prod.fst := by
  simp [ofText]

/-- What follows the space at the beginning. -/
theorem drop_afterSpace (text : Text) :
    (normalizedFrom 0 false text).drop ((ofText text).afterSpace 0) =
      normalizedFrom 0 true text := by
  cases text with
  | nil => simp [normalizedFrom]
  | cons c text =>
    unfold afterSpace
    rw [getElem?_chars, normalizedFrom, normalizedFrom]
    by_cases hc : isBlank c = true
    · simp [hc]
    · have hspace : lowerChar c ≠ ' ' := lowerChar_ne_space (Bool.eq_false_iff.mpr hc)
      simp [hc, hspace]

theorem drop_chars (text : Text) :
    (ofText text).chars.toList.drop ((ofText text).afterSpace 0) =
      (normalizedFrom 0 true text).map Prod.fst := by
  rw [← drop_afterSpace, List.map_drop]
  rfl

theorem toList_bytes (text : Text) : (ofText text).bytes.toList =
    (normalizedFrom 0 false text).map Prod.snd ++ [utf8Length text] :=
  rfl

theorem length_placed (text : Text) :
    (normalizedFrom 0 false text).length = (ofText text).length := by
  simp [ofText, length]

theorem drop_bytes (text : Text) :
    (ofText text).bytes.toList.drop ((ofText text).afterSpace 0) =
      (normalizedFrom 0 true text).map Prod.snd ++ [utf8Length text] := by
  have hle := afterSpace_le text
  rw [toList_bytes, List.drop_append_of_le_length (by simpa [length_placed] using hle),
    ← List.map_drop, drop_afterSpace]

theorem byteOffset_eq (sentence : Sentence) (start count : Nat) :
    sentence.byteOffset (start + count) = (sentence.bytes.toList.drop start)[count]?.getD 0 := by
  rw [List.getElem?_drop, Array.getElem?_toList, byteOffset, Array.getD_eq_getD_getElem?]

theorem normalizedFrom_leading (hp : ∀ c ∈ p, isBlank c = true) (s : Text) :
    normalizedFrom 0 true (p ++ s) =
      (normalizedFrom 0 true s).map fun (c, i) => (c, i + utf8Length p) := by
  rw [normalizedFrom_append, normalizedFrom_blank hp, endsBlank_blank hp, List.nil_append,
    normalizedFrom_add]

/-- White space before a text leaves the characters after the space at the beginning as they are. -/
theorem agree_leading (hp : ∀ c ∈ p, isBlank c = true) (s : Text) :
    (ofText (p ++ s)).Agree (ofText s) ((ofText (p ++ s)).afterSpace 0)
      ((ofText s).afterSpace 0) := by
  refine ⟨afterSpace_le _, afterSpace_le _, ?_⟩
  rw [drop_chars, drop_chars, normalizedFrom_leading hp, List.map_map]
  rfl

/-- White space before a text moves every byte position by its length. -/
theorem byteOffset_leading (hp : ∀ c ∈ p, isBlank c = true) (s : Text) {count : Nat}
    (hcount : (ofText (p ++ s)).afterSpace 0 + count ≤ (ofText (p ++ s)).length) :
    (ofText (p ++ s)).byteOffset ((ofText (p ++ s)).afterSpace 0 + count) =
      (ofText s).byteOffset ((ofText s).afterSpace 0 + count) + utf8Length p := by
  have hbytes : (ofText (p ++ s)).bytes.toList.drop ((ofText (p ++ s)).afterSpace 0) =
      ((ofText s).bytes.toList.drop ((ofText s).afterSpace 0)).map (· + utf8Length p) := by
    rw [drop_bytes, drop_bytes, normalizedFrom_leading hp, utf8Length_append, List.map_append,
      List.map_map, List.map_map, Nat.add_comm (utf8Length p)]
    rfl
  have hlength := congrArg List.length hbytes
  rw [List.length_map, List.length_drop, List.length_drop, toList_bytes, List.length_append,
    List.length_map, length_placed, List.length_singleton] at hlength
  rw [byteOffset_eq, byteOffset_eq, hbytes, List.getElem?_map]
  have hlt : count < ((ofText s).bytes.toList.drop ((ofText s).afterSpace 0)).length := by
    rw [List.length_drop]
    omega
  rw [List.getElem?_eq_getElem hlt]
  rfl

theorem afterSpace_lt {c : Char} (hc : c ∈ text) (hblank : isBlank c = false) :
    (ofText text).afterSpace 0 < (ofText text).length := by
  have hlength := congrArg List.length (drop_afterSpace text)
  rw [List.length_drop, length_placed] at hlength
  have hpos := List.length_pos_iff.mpr (normalizedFrom_ne_nil hc hblank 0 true)
  omega

theorem byteOffset_length (text : Text) :
    (ofText text).byteOffset (ofText text).length = utf8Length text := by
  have heq := byteOffset_eq (ofText text) (ofText text).length 0
  rw [Nat.add_zero, toList_bytes, List.drop_left' (by rw [List.length_map, length_placed])] at heq
  exact heq

theorem byteOffset_of_lt (text : Text) {i : Nat} (hi : i < (ofText text).length) :
    (ofText text).byteOffset i = (((normalizedFrom 0 false text)[i]?).map Prod.snd).getD 0 := by
  have heq := byteOffset_eq (ofText text) 0 i
  rw [Nat.zero_add, List.drop_zero, toList_bytes, List.getElem?_append_left
    (by rwa [List.length_map, length_placed]), List.getElem?_map] at heq
  exact heq

theorem getElem?_last (hends : endsBlank false text = false) {i : Nat}
    (hi : i + 1 = (ofText text).length) : (ofText text).chars[i]? ≠ some ' ' := by
  rcases List.eq_nil_or_concat text with rfl | ⟨front, c, rfl⟩
  · cases hi
  · have hc : isBlank c = false := by simpa [endsBlank] using hends
    have hspace : lowerChar c ≠ ' ' := lowerChar_ne_space hc
    have hplaced := normalizedFrom_append 0 false front [c]
    rw [← length_placed] at hi
    rw [getElem?_chars]
    simp only [List.concat_eq_append, hplaced, normalizedFrom, hc, List.length_append,
      List.length_singleton, Bool.false_eq_true, if_false] at hi ⊢
    obtain rfl : i = (normalizedFrom 0 false front).length := by omega
    simpa using hspace

section trailing

variable (hq : ∀ c ∈ q, isBlank c = true) (hne : q ≠ [])

include hq hne

theorem chars_trailing (hends : endsBlank false text = true) :
    (ofText (text ++ q)).chars = (ofText text).chars := by
  unfold ofText
  rw [normalizedFrom_trailing hq hne, if_pos hends, List.append_nil]

theorem addsSpace_trailing (hends : endsBlank false text = false) :
    (ofText (text ++ q)).AddsSpace (ofText text) := by
  unfold ofText AddsSpace
  rw [normalizedFrom_trailing hq hne, if_neg (by simp [hends])]
  simp

/-- Where nothing follows but the added space, nothing follows without it, and nowhere else. -/
theorem onlySpaceFrom_trailing (hends : endsBlank false text = false) {pos : Nat}
    (hpos : pos ≤ (ofText text).length) :
    (ofText text).onlySpaceFrom pos = (ofText (text ++ q)).onlySpaceFrom pos := by
  have hspace := addsSpace_trailing hq hne hends
  have hlength := hspace.length
  rw [onlySpaceFrom, onlySpaceFrom, decide_eq_decide, afterSpace, afterSpace]
  rcases Nat.lt_or_eq_of_le hpos with hlt | rfl
  · rw [hspace.getElem?_of_lt hlt]
    split
    · rename_i hchar
      have hlast : pos + 1 ≠ (ofText text).length := fun hi => getElem?_last hends hi hchar
      omega
    · omega
  · rw [hspace.getElem?_length, if_pos rfl]
    have hnone : (ofText text).chars[(ofText text).length]? = none :=
      Array.getElem?_eq_none (Nat.le_refl _)
    rw [hnone, if_neg (by simp)]
    omega

theorem byteOffset_trailing {i : Nat} (hi : i < (ofText text).length) :
    (ofText (text ++ q)).byteOffset i = (ofText text).byteOffset i := by
  have hplaced := normalizedFrom_trailing hq hne text
  have hi' : i < (normalizedFrom 0 false text).length := by rwa [length_placed]
  have hlt : i < (ofText (text ++ q)).length := by
    rw [← length_placed, hplaced, List.length_append]
    omega
  rw [byteOffset_of_lt _ hi, byteOffset_of_lt _ hlt, hplaced, List.getElem?_append_left hi']

theorem byteOffset_space (hends : endsBlank false text = false) :
    (ofText (text ++ q)).byteOffset (ofText text).length =
      (ofText text).byteOffset (ofText text).length := by
  have hlt : (ofText text).length < (ofText (text ++ q)).length := by
    rw [(addsSpace_trailing hq hne hends).length]
    exact Nat.lt_succ_self _
  rw [byteOffset_length, byteOffset_of_lt _ hlt, normalizedFrom_trailing hq hne,
    if_neg (by simp [hends]), ← length_placed, List.getElem?_concat_length]
  rfl

end trailing

end Sentence

end placed

end Concord
