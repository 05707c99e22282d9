import Concord.Proofs.Outcome
import Concord.Text.Utf8

namespace Concord

theorem toNat_lt_or_lt (c : Char) : c.toNat < 0xD800 ∨ 0xDFFF < c.toNat ∧ c.toNat < 0x110000 :=
  c.valid

theorem toNat_ofNat_of_valid {n : Nat} (h : n < 0xD800 ∨ 0xDFFF < n ∧ n < 0x110000) :
    (Char.ofNat n).toNat = n := by
  have hvalid : n.isValidChar := h
  rw [Char.ofNat, dif_pos hvalid]
  rfl

/-- The bytes that spell a number, the first of which says how many there are. -/
inductive Spells (n : Nat) : Bytes → Prop where
  | one {a : UInt8} : n < 0x80 → a.toNat = n → Spells n [a]
  | two {a b : UInt8} : 0x80 ≤ n → n < 0x800 → a.toNat = 0xC0 + n / 0x40 →
      b.toNat = 0x80 + n % 0x40 → Spells n [a, b]
  | three {a b c : UInt8} : 0x800 ≤ n → n < 0x10000 → a.toNat = 0xE0 + n / 0x1000 →
      b.toNat = 0x80 + n / 0x40 % 0x40 → c.toNat = 0x80 + n % 0x40 → Spells n [a, b, c]
  | four {a b c d : UInt8} : 0x10000 ≤ n → n < 0x110000 → a.toNat = 0xF0 + n / 0x40000 →
      b.toNat = 0x80 + n / 0x1000 % 0x40 → c.toNat = 0x80 + n / 0x40 % 0x40 →
      d.toNat = 0x80 + n % 0x40 → Spells n [a, b, c, d]

namespace Spells

variable {n m : Nat} {xs ys : Bytes}

theorem encode (c : Char) : Spells c.toNat (String.utf8EncodeChar c) := by
  have hlt := toNat_lt_or_lt c
  have hval : c.val.toNat = c.toNat := rfl
  unfold String.utf8EncodeChar
  dsimp only
  rw [hval]
  split
  next => exact .one (by omega) (by simp; omega)
  next =>
    split
    next => exact .two (by omega) (by omega) (by simp; omega) (by simp; omega)
    next =>
      split
      next => exact .three (by omega) (by omega) (by simp; omega) (by simp; omega) (by simp; omega)
      next =>
        exact .four (by omega) (by omega) (by simp; omega) (by simp; omega) (by simp; omega)
          (by simp; omega)

theorem unique (hx : Spells n xs) (hy : Spells n ys) : xs = ys := by
  cases hx <;> cases hy <;> try omega
  all_goals
    simp only [List.cons.injEq, and_true, ← UInt8.toNat_inj]
    omega

/-- Spellings are in the order of their numbers, whatever follows them. -/
theorem lt (hx : Spells n xs) (hy : Spells m ys) (h : n < m) (xs' ys' : Bytes) :
    xs ++ xs' < ys ++ ys' := by
  cases hx <;> cases hy <;>
    simp only [List.cons_append, List.nil_append, List.cons_lt_cons_iff, UInt8.lt_iff_toNat_lt,
      ← UInt8.toNat_inj] <;>
    omega

theorem zero_mem (hx : Spells n xs) (h : 0 ∈ xs) : n = 0 := by
  cases hx <;> simp only [List.mem_cons, List.not_mem_nil, or_false, ← UInt8.toNat_inj,
    UInt8.toNat_zero] at h <;> omega

theorem encode_ofNat (hx : Spells n xs) (hn : n < 0xD800 ∨ 0xDFFF < n ∧ n < 0x110000) :
    String.utf8EncodeChar (Char.ofNat n) = xs := by
  have hc := encode (Char.ofNat n)
  rw [toNat_ofNat_of_valid hn] at hc
  exact hc.unique hx

end Spells

section ranges

variable {a b lo hi : UInt8}

theorem between_iff : (decide (lo ≤ a) && decide (a ≤ hi)) = true ↔
    lo.toNat ≤ a.toNat ∧ a.toNat ≤ hi.toNat := by
  simp only [Bool.and_eq_true, decide_eq_true_eq, UInt8.le_iff_toNat_le]

theorem isContinuation_iff : isContinuation b = true ↔ 0x80 ≤ b.toNat ∧ b.toNat ≤ 0xBF := by
  unfold isContinuation
  rw [between_iff]
  rfl

theorem isSecondOfThree_iff : isSecondOfThree a b = true ↔ 0x80 ≤ b.toNat ∧ b.toNat ≤ 0xBF ∧
    (a.toNat = 0xE0 → 0xA0 ≤ b.toNat) ∧ (a.toNat = 0xED → b.toNat ≤ 0x9F) := by
  unfold isSecondOfThree
  simp only [← UInt8.toNat_inj, UInt8.reduceToNat]
  split
  · rw [between_iff]
    simp only [UInt8.reduceToNat]
    omega
  · split
    · rw [between_iff]
      simp only [UInt8.reduceToNat]
      omega
    · rw [isContinuation_iff]
      omega

theorem isSecondOfFour_iff : isSecondOfFour a b = true ↔ 0x80 ≤ b.toNat ∧ b.toNat ≤ 0xBF ∧
    (a.toNat = 0xF0 → 0x90 ≤ b.toNat) ∧ (a.toNat = 0xF4 → b.toNat ≤ 0x8F) := by
  unfold isSecondOfFour
  simp only [← UInt8.toNat_inj, UInt8.reduceToNat]
  split
  · rw [between_iff]
    simp only [UInt8.reduceToNat]
    omega
  · split
    · rw [between_iff]
      simp only [UInt8.reduceToNat]
      omega
    · rw [isContinuation_iff]
      omega

end ranges

@[simp] theorem encodeUtf8_nil : encodeUtf8 [] = [] := rfl

theorem encodeUtf8_cons (c : Char) (text : Text) :
    encodeUtf8 (c :: text) = String.utf8EncodeChar c ++ encodeUtf8 text :=
  List.flatMap_cons

theorem encodeUtf8_append (a b : Text) : encodeUtf8 (a ++ b) = encodeUtf8 a ++ encodeUtf8 b :=
  List.flatMap_append

theorem length_encodeUtf8 (text : Text) : (encodeUtf8 text).length = utf8Length text := by
  induction text with
  | nil => rfl
  | cons c text ih =>
    rw [encodeUtf8_cons, List.length_append, String.length_utf8EncodeChar, ih]
    rfl

theorem utf8Length_append (a b : Text) : utf8Length (a ++ b) = utf8Length a + utf8Length b := by
  rw [← length_encodeUtf8, encodeUtf8_append, List.length_append, length_encodeUtf8,
    length_encodeUtf8]

section decoding

variable {index : Nat} {bytes : Bytes} {text : Text}

theorem decodeUtf8From_append (index : Nat) (c : Char) (rest : Bytes) :
    decodeUtf8From index (String.utf8EncodeChar c ++ rest) =
      (decodeUtf8From (index + c.utf8Size) rest).map (c :: ·) := by
  have hlt := toNat_lt_or_lt c
  have hofNat : ∀ n, n = c.toNat → Char.ofNat n = c := fun _ hn => hn ▸ Char.ofNat_toNat c
  have hspells := Spells.encode c
  rw [← String.length_utf8EncodeChar]
  generalize String.utf8EncodeChar c = xs at hspells
  cases hspells with
  | @one a h ha =>
    have hchar : Char.ofNat a.toNat = c := hofNat _ ha
    rw [List.singleton_append, decodeUtf8From.eq_def]
    simp only [UInt8.lt_iff_toNat_lt, UInt8.reduceToNat]
    rw [if_pos (by omega), hchar]
    rfl
  | @two a b h1 h2 ha hb =>
    have hcont : isContinuation b = true := isContinuation_iff.mpr (by omega)
    have hchar : charOfTwo a b = c := hofNat _ (by omega)
    rw [List.cons_append, List.singleton_append, decodeUtf8From.eq_def]
    simp only [between_iff, UInt8.lt_iff_toNat_lt, UInt8.reduceToNat]
    rw [if_neg (by omega), if_pos (by omega), if_pos hcont, hchar]
    rfl
  | @three a b d h1 h2 ha hb hd =>
    have hsecond : isSecondOfThree a b = true := isSecondOfThree_iff.mpr (by omega)
    have hcont : isContinuation d = true := isContinuation_iff.mpr (by omega)
    have hchar : charOfThree a b d = c := hofNat _ (by omega)
    rw [List.cons_append, List.cons_append, List.singleton_append, decodeUtf8From.eq_def]
    simp only [between_iff, UInt8.lt_iff_toNat_lt, UInt8.reduceToNat]
    rw [if_neg (by omega), if_neg (by omega), if_pos (by omega), if_pos hsecond, if_pos hcont,
      hchar]
    rfl
  | @four a b d e h1 h2 ha hb hd he =>
    have hsecond : isSecondOfFour a b = true := isSecondOfFour_iff.mpr (by omega)
    have hthird : isContinuation d = true := isContinuation_iff.mpr (by omega)
    have hcont : isContinuation e = true := isContinuation_iff.mpr (by omega)
    have hchar : charOfFour a b d e = c := hofNat _ (by omega)
    rw [List.cons_append, List.cons_append, List.cons_append, List.singleton_append,
      decodeUtf8From.eq_def]
    simp only [between_iff, UInt8.lt_iff_toNat_lt, UInt8.reduceToNat]
    rw [if_neg (by omega), if_neg (by omega), if_neg (by omega), if_pos (by omega),
      if_pos hsecond, if_pos hthird, if_pos hcont, hchar]
    rfl

theorem decodeUtf8From_encodeUtf8 (index : Nat) (text : Text) :
    decodeUtf8From index (encodeUtf8 text) = .ok text := by
  induction text generalizing index with
  | nil => rfl
  | cons c text ih =>
    rw [encodeUtf8_cons, decodeUtf8From_append, ih]
    rfl

theorem encodeUtf8_of_decodeUtf8From (h : decodeUtf8From index bytes = .ok text) :
    encodeUtf8 text = bytes := by
  have hcons : ∀ {n : Nat} {xs rest : Bytes} {tail : Text}, Spells n xs →
      (n < 0xD800 ∨ 0xDFFF < n ∧ n < 0x110000) → encodeUtf8 tail = rest →
      encodeUtf8 (Char.ofNat n :: tail) = xs ++ rest := by
    intro n xs rest tail hx hn htail
    rw [encodeUtf8_cons, hx.encode_ofNat hn, htail]
  fun_induction decodeUtf8From index bytes generalizing text with
  | case1 =>
    cases h
    rfl
  | case2 index a rest ha ih =>
    obtain ⟨tail, htail, rfl⟩ := exists_ok_of_map h
    simp only [UInt8.lt_iff_toNat_lt, UInt8.reduceToNat] at ha
    exact hcons (.one ha rfl) (by omega) (ih htail)
  | case4 index a h1 h2 b rest hb ih =>
    obtain ⟨tail, htail, rfl⟩ := exists_ok_of_map h
    simp only [between_iff, UInt8.lt_iff_toNat_lt, UInt8.reduceToNat] at h1 h2
    rw [isContinuation_iff] at hb
    exact hcons (.two (by omega) (by omega) (by omega) (by omega)) (by omega) (ih htail)
  | case8 index a h1 h2 h3 b hb c rest hc ih =>
    obtain ⟨tail, htail, rfl⟩ := exists_ok_of_map h
    simp only [between_iff, UInt8.lt_iff_toNat_lt, UInt8.reduceToNat] at h1 h2 h3
    rw [isSecondOfThree_iff] at hb
    rw [isContinuation_iff] at hc
    exact hcons (.three (by omega) (by omega) (by omega) (by omega) (by omega)) (by omega)
      (ih htail)
  | case14 index a h1 h2 h3 h4 b hb c hc d rest hd ih =>
    obtain ⟨tail, htail, rfl⟩ := exists_ok_of_map h
    simp only [between_iff, UInt8.lt_iff_toNat_lt, UInt8.reduceToNat] at h1 h2 h3 h4
    rw [isSecondOfFour_iff] at hb
    rw [isContinuation_iff] at hc hd
    exact hcons (.four (by omega) (by omega) (by omega) (by omega) (by omega) (by omega))
      (by omega) (ih htail)
  | _ => cases h

/-- Bytes decode to a text if and only if they are its encoding. -/
theorem decodeUtf8_eq_ok : decodeUtf8 bytes = .ok text ↔ encodeUtf8 text = bytes :=
  ⟨encodeUtf8_of_decodeUtf8From, fun h => h ▸ decodeUtf8From_encodeUtf8 0 text⟩

end decoding

theorem encodeUtf8_inj {a b : Text} : encodeUtf8 a = encodeUtf8 b ↔ a = b := by
  refine ⟨fun h => ?_, congrArg encodeUtf8⟩
  have ha := decodeUtf8_eq_ok.mpr (rfl : encodeUtf8 a = encodeUtf8 a)
  exact Except.ok.inj (ha.symm.trans (decodeUtf8_eq_ok.mpr h.symm))

theorem encodeUtf8_eq_nil {text : Text} : encodeUtf8 text = [] ↔ text = [] :=
  encodeUtf8_inj (b := [])

theorem encodeUtf8_lt_of_lt {a b : Text} (h : a < b) : encodeUtf8 a < encodeUtf8 b := by
  induction h with
  | @nil d b =>
    rw [encodeUtf8_cons, encodeUtf8_nil]
    have hlength := String.length_utf8EncodeChar d
    have hpos := d.utf8Size_pos
    cases hd : String.utf8EncodeChar d with
    | nil =>
      rw [hd, List.length_nil] at hlength
      omega
    | cons byte rest => exact List.nil_lt_cons _ _
  | rel h =>
    rw [encodeUtf8_cons, encodeUtf8_cons]
    exact (Spells.encode _).lt (Spells.encode _) h _ _
  | cons _ ih =>
    rw [encodeUtf8_cons, encodeUtf8_cons]
    exact List.append_left_lt ih

/-- Texts are in the order of their bytes. -/
theorem encodeUtf8_lt {a b : Text} : encodeUtf8 a < encodeUtf8 b ↔ a < b := by
  refine ⟨fun h => ?_, encodeUtf8_lt_of_lt⟩
  by_contra hn
  rcases List.le_iff_lt_or_eq.mp (List.not_lt.mp hn) with hba | rfl
  · exact List.lt_asymm h (encodeUtf8_lt_of_lt hba)
  · exact List.lt_irrefl _ h

/-- Only a NUL is spelled with a zero. -/
theorem eq_nul_of_zero_mem {c : Char} (h : 0 ∈ String.utf8EncodeChar c) : c = '\x00' :=
  Char.toNat_inj.mp ((Spells.encode c).zero_mem h)

theorem zero_not_mem_encodeUtf8 {text : Text} (h : '\x00' ∉ text) : 0 ∉ encodeUtf8 text := by
  intro hzero
  obtain ⟨c, hc, hzero⟩ := List.mem_flatMap.mp hzero
  exact h (eq_nul_of_zero_mem hzero ▸ hc)

/-- A zero among the bytes of a text is a NUL of the text. -/
theorem exists_eq_append_of_zero {text : Text} {i : Nat} (h : (encodeUtf8 text)[i]? = some 0) :
    ∃ before after, text = before ++ '\x00' :: after ∧ utf8Length before = i := by
  induction text generalizing i with
  | nil => cases h
  | cons c text ih =>
    have hlength := String.length_utf8EncodeChar c
    rw [encodeUtf8_cons] at h
    by_cases hi : i < c.utf8Size
    · rw [List.getElem?_append_left (by omega)] at h
      obtain rfl := eq_nul_of_zero_mem (List.mem_of_getElem? h)
      have hone : Char.utf8Size '\x00' = 1 := rfl
      exact ⟨[], text, rfl, by rw [utf8Length]; omega⟩
    · rw [List.getElem?_append_right (by omega), hlength] at h
      obtain ⟨before, after, rfl, hbefore⟩ := ih h
      exact ⟨c :: before, after, rfl, by rw [utf8Length]; omega⟩

theorem getLast?_encodeUtf8 {text : Text} :
    (encodeUtf8 text).getLast? = some 0 ↔ text.getLast? = some '\x00' := by
  rcases List.eq_nil_or_concat text with rfl | ⟨front, c, rfl⟩
  · simp
  · have hlength := String.length_utf8EncodeChar c
    have hpos := c.utf8Size_pos
    have hne : String.utf8EncodeChar c ≠ [] := fun h => by
      rw [h, List.length_nil] at hlength
      omega
    have hsingle : encodeUtf8 [c] = String.utf8EncodeChar c := by
      rw [encodeUtf8_cons, encodeUtf8_nil, List.append_nil]
    rw [List.concat_eq_append, encodeUtf8_append, hsingle, List.getLast?_append_of_ne_nil _ hne,
      List.getLast?_append_of_ne_nil _ (List.cons_ne_nil _ _), List.getLast?_singleton,
      Option.some.injEq]
    constructor
    · intro h
      exact eq_nul_of_zero_mem (List.mem_of_getLast? h)
    · rintro rfl
      rfl

end Concord
