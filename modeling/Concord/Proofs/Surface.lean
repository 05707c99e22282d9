import Concord.Inspect
import Concord.Proofs.WholeParse

namespace Concord

section placed

/-- A character of a text as it is put into a sentence. -/
def foldChar (c : Char) : Char :=
  if isBlank c then ' ' else lowerChar c

/-- Only a blank after a blank is left out. -/
theorem normalizedFrom_cons (offset : Nat) (afterBlank : Bool) (c : Char) (text : Text) :
    normalizedFrom offset afterBlank (c :: text) =
      (if (isBlank c && afterBlank) = true then [] else [(foldChar c, offset)]) ++
        normalizedFrom (offset + c.utf8Size) (isBlank c) text := by
  rw [normalizedFrom, foldChar]
  cases hc : isBlank c <;> cases afterBlank <;> simp

/-- Where the characters of a text begin, and where the text ends. -/
def positionsFrom (offset : Nat) (afterBlank : Bool) (text : Text) : List Nat :=
  (normalizedFrom offset afterBlank text).map Prod.snd ++ [offset + utf8Length text]

theorem positionsFrom_cons (offset : Nat) (afterBlank : Bool) (c : Char) (text : Text) :
    positionsFrom offset afterBlank (c :: text) =
      (if (isBlank c && afterBlank) = true then [] else [offset]) ++
        positionsFrom (offset + c.utf8Size) (isBlank c) text := by
  rw [positionsFrom, positionsFrom, normalizedFrom_cons, utf8Length, List.map_append,
    List.append_assoc, ← Nat.add_assoc]
  split <;> rfl

theorem le_of_mem_positionsFrom {offset pos : Nat} {afterBlank : Bool} {text : Text}
    (h : pos ∈ positionsFrom offset afterBlank text) : offset ≤ pos := by
  induction text generalizing offset afterBlank with
  | nil => exact (List.mem_singleton.mp h).ge
  | cons c text ih =>
    rw [positionsFrom_cons, List.mem_append] at h
    rcases h with h | h
    · split at h
      · cases h
      · exact (List.mem_singleton.mp h).ge
    · have hle := ih h
      omega

theorem pairwise_positionsFrom (offset : Nat) (afterBlank : Bool) (text : Text) :
    (positionsFrom offset afterBlank text).Pairwise (· < ·) := by
  induction text generalizing offset afterBlank with
  | nil => exact List.pairwise_singleton _ _
  | cons c text ih =>
    rw [positionsFrom_cons]
    split
    · exact ih _ _
    · refine List.pairwise_cons.mpr ⟨fun pos hpos => ?_, ih _ _⟩
      have hle := le_of_mem_positionsFrom hpos
      have hsize := c.utf8Size_pos
      omega

/-- A text can be cut where a character of its sentence begins. What comes before makes up the
characters before, and what follows does not go on with white space. -/
theorem exists_cut (offset : Nat) (afterBlank : Bool) (text : Text) {i : Nat}
    (hi : i ≤ (normalizedFrom offset afterBlank text).length) :
    ∃ before after, text = before ++ after ∧
      (positionsFrom offset afterBlank text)[i]? = some (offset + utf8Length before) ∧
      normalizedFrom offset afterBlank before = (normalizedFrom offset afterBlank text).take i ∧
      (after.head?.any isBlank = true → endsBlank afterBlank before = false) := by
  induction text generalizing offset afterBlank i with
  | nil =>
    obtain rfl : i = 0 := Nat.le_zero.mp hi
    exact ⟨[], [], rfl, rfl, rfl, fun h => by cases h⟩
  | cons c text ih =>
    rw [normalizedFrom_cons] at hi
    rw [positionsFrom_cons, normalizedFrom_cons]
    by_cases hskip : (isBlank c && afterBlank) = true
    · rw [if_pos hskip, List.nil_append] at hi
      obtain ⟨before, after, rfl, hpos, hbefore, hends⟩ := ih _ _ hi
      refine ⟨c :: before, after, rfl, ?_, ?_, ?_⟩
      · rw [if_pos hskip, List.nil_append, hpos, utf8Length, Nat.add_assoc]
      · rw [normalizedFrom_cons, if_pos hskip, List.nil_append, List.nil_append, hbefore]
      · rw [endsBlank_cons]
        exact hends
    · rw [if_neg hskip, List.singleton_append, List.length_cons] at hi
      cases i with
      | zero =>
        refine ⟨[], c :: text, rfl, by rw [if_neg hskip]; rfl, rfl, fun hblank => ?_⟩
        have hc : isBlank c = true := by simpa using hblank
        rw [hc, Bool.true_and, Bool.not_eq_true] at hskip
        exact hskip
      | succ i =>
        obtain ⟨before, after, rfl, hpos, hbefore, hends⟩ := ih _ _ (Nat.le_of_succ_le_succ hi)
        refine ⟨c :: before, after, rfl, ?_, ?_, ?_⟩
        · rw [if_neg hskip, List.singleton_append, List.getElem?_cons_succ, hpos, utf8Length,
            Nat.add_assoc]
        · rw [normalizedFrom_cons, if_neg hskip, List.singleton_append, List.singleton_append,
            List.take_succ_cons, hbefore]
        · rw [endsBlank_cons]
          exact hends

/-- No white space goes on after white space, so that it is the same whether some came before. -/
theorem normalizedFrom_of_head {text : Text} {afterBlank : Bool}
    (h : text.head?.any isBlank = true → afterBlank = false) (offset : Nat) :
    normalizedFrom offset afterBlank text = normalizedFrom offset false text := by
  cases text with
  | nil => rfl
  | cons c text =>
    rw [normalizedFrom_cons, normalizedFrom_cons, Bool.and_false]
    by_cases hc : isBlank c = true
    · rw [h (by simpa using hc), Bool.and_false]
    · rw [Bool.not_eq_true] at hc
      rw [hc, Bool.false_and]

theorem byteSlice_append (before part after : Text) (offset : Nat) :
    byteSlice (offset + utf8Length before) (offset + utf8Length before + utf8Length part) offset
      (before ++ (part ++ after)) = part := by
  induction before generalizing offset with
  | nil =>
    simp only [utf8Length, Nat.add_zero, List.nil_append]
    -- The start lies behind once the part has been entered, so it is left open.
    have hpart : ∀ start offset, start ≤ offset →
        byteSlice start (offset + utf8Length part) offset (part ++ after) = part := by
      induction part with
      | nil =>
        intro start offset hstart
        cases after with
        | nil => rfl
        | cons c after =>
          rw [List.nil_append, byteSlice, if_neg (Nat.not_lt.mpr hstart), utf8Length,
            if_neg (by omega)]
      | cons c part ih =>
        intro start offset hstart
        have hsize := c.utf8Size_pos
        have hrest := ih start (offset + c.utf8Size) (by omega)
        rw [Nat.add_assoc] at hrest
        rw [List.cons_append, byteSlice, if_neg (Nat.not_lt.mpr hstart), utf8Length,
          if_pos (by omega), hrest]
    exact hpart offset offset (Nat.le_refl _)
  | cons c before ih =>
    have hsize := c.utf8Size_pos
    have hrest := ih (offset + c.utf8Size)
    rw [Nat.add_assoc offset] at hrest
    rw [List.cons_append, byteSlice, utf8Length, if_pos (by omega)]
    exact hrest

end placed

namespace Sentence

/-- The surface between two positions of the sentence of a text is the part of the text from the
byte position of the one to that of the other, and its own sentence has the characters between
them. -/
def Shows (sentence : Sentence) (text : Text) (start stop : Nat) : Prop :=
  ∃ before after, text = before ++ (sentence.surface start stop ++ after) ∧
    utf8Length before = sentence.byteOffset start ∧
    utf8Length (before ++ sentence.surface start stop) = sentence.byteOffset stop ∧
    (ofText (sentence.surface start stop)).chars.toList = sentence.slice start stop

theorem bytes_eq (text : Text) : (ofText text).bytes.toList = positionsFrom 0 false text := by
  rw [toList_bytes, positionsFrom, Nat.zero_add]

theorem byteOffset_of_getElem? {text : Text} {i offset : Nat}
    (h : (positionsFrom 0 false text)[i]? = some offset) :
    (ofText text).byteOffset i = offset := by
  rw [byteOffset, Array.getD_eq_getD_getElem?, ← Array.getElem?_toList, bytes_eq, h]
  rfl

/-- The positions in the first part of a text are positions in the text. -/
theorem getElem?_positionsFrom_append {front after : Text} {i : Nat}
    (hi : i < (normalizedFrom 0 false front).length) :
    (positionsFrom 0 false (front ++ after))[i]? = (positionsFrom 0 false front)[i]? := by
  have hi' : i < ((normalizedFrom 0 false front).map Prod.snd).length := by
    rwa [List.length_map]
  rw [positionsFrom, positionsFrom, normalizedFrom_append, List.map_append, List.append_assoc,
    List.getElem?_append_left hi', List.getElem?_append_left hi']

theorem shows_ofText (text : Text) {start stop : Nat} (hle : start ≤ stop)
    (hstop : stop ≤ (ofText text).length) : (ofText text).Shows text start stop := by
  rw [← length_placed] at hstop
  obtain ⟨front, after, rfl, hbyteStop, hfront, -⟩ := exists_cut 0 false text hstop
  have hlength : (normalizedFrom 0 false front).length = stop := by
    rw [hfront, List.length_take, Nat.min_eq_left hstop]
  obtain ⟨before, part, rfl, hbyteStart, hbefore, hends⟩ :=
    exists_cut 0 false front (hle.trans_eq hlength.symm)
  have hstopOffset : (ofText (before ++ part ++ after)).byteOffset stop =
      utf8Length (before ++ part) := by
    rw [byteOffset_of_getElem? hbyteStop, Nat.zero_add]
  have hstartOffset : (ofText (before ++ part ++ after)).byteOffset start = utf8Length before := by
    rcases hle.lt_or_eq with hlt | rfl
    · rw [← getElem?_positionsFrom_append (by rwa [hlength])] at hbyteStart
      rw [byteOffset_of_getElem? hbyteStart, Nat.zero_add]
    · -- Nothing is between the positions, so that both cuts are the end of the first part.
      have hend : (positionsFrom 0 false (before ++ part))[start]? =
          some (0 + utf8Length (before ++ part)) := by
        rw [positionsFrom, ← hlength, ← List.length_map (f := Prod.snd),
          List.getElem?_concat_length]
      rw [hstopOffset, ← Nat.zero_add (utf8Length (before ++ part)),
        ← Nat.zero_add (utf8Length before)]
      exact Option.some.inj (hend.symm.trans hbyteStart)
  have hsurface : (ofText (before ++ part ++ after)).surface start stop = part := by
    have hslice := byteSlice_append before part after 0
    rw [Nat.zero_add, ← utf8Length_append] at hslice
    rw [surface, hstartOffset, hstopOffset, List.append_assoc]
    exact hslice
  refine ⟨before, after, ?_, hstartOffset.symm, ?_, ?_⟩
  · rw [hsurface, List.append_assoc]
  · rw [hsurface, hstopOffset]
  · have hpart : normalizedFrom (0 + utf8Length before) false part =
        ((normalizedFrom 0 false (before ++ part ++ after)).take stop).drop start := by
      have hstart : (normalizedFrom 0 false before).length = start := by
        rw [hbefore, List.length_take, hlength, Nat.min_eq_left hle]
      rw [← hfront, normalizedFrom_append 0 false before part, List.drop_left' hstart]
      exact (normalizedFrom_of_head hends _).symm
    obtain ⟨count, rfl⟩ := Nat.exists_eq_add_of_le hle
    rw [hsurface, toList_chars_ofText, ← (map_fst_normalizedFrom (0 + utf8Length before) part).1,
      hpart, slice_eq, List.drop_take, Nat.add_sub_cancel_left, List.map_take, List.map_drop]
    rfl

/-- The sentence stands over its text. Its positions ascend from the beginning of the text to the
end, always between characters; no space follows a space, so that spaces are skipped in one step;
and all surfaces show what is above them. -/
structure Mirrors (sentence : Sentence) (text : Text) : Prop where
  size : sentence.bytes.size = sentence.length + 1
  first : sentence.byteOffset 0 = 0
  ascending : sentence.bytes.toList.Pairwise (· < ·)
  last : sentence.byteOffset sentence.length = utf8Length text
  between : ∀ offset ∈ sentence.bytes.toList,
    ∃ before after, text = before ++ after ∧ utf8Length before = offset
  apart (pos : Nat) : sentence.chars[pos]? = some ' ' → sentence.chars[pos + 1]? ≠ some ' '
  skips (pos : Nat) : pos ≤ sentence.afterSpace pos ∧
    sentence.chars[sentence.afterSpace pos]? ≠ some ' ' ∧
    ∀ i, pos ≤ i → i < sentence.afterSpace pos → sentence.chars[i]? = some ' '
  ends (pos : Nat) : sentence.onlySpaceFrom pos = true ↔
    ∀ i c, pos ≤ i → sentence.chars[i]? = some c → c = ' '
  shows (start stop : Nat) : start ≤ stop → stop ≤ sentence.length →
    sentence.Shows text start stop

theorem apart_ofText (text : Text) {pos : Nat} (hpos : (ofText text).chars[pos]? = some ' ') :
    (ofText text).chars[pos + 1]? ≠ some ' ' := by
  intro hnext
  have hchain := (singleSpaced_foldLiteral text).apart
  rw [← toList_chars_ofText, List.isChain_iff_getElem] at hchain
  rw [← Array.getElem?_toList] at hpos hnext
  obtain ⟨_, hspace⟩ := List.getElem?_eq_some_iff.mp hpos
  obtain ⟨hlt, hspace'⟩ := List.getElem?_eq_some_iff.mp hnext
  have hblank := hchain pos hlt
  rw [hspace, hspace'] at hblank
  cases hblank (by decide)

theorem afterSpace_ofText (text : Text) (pos : Nat) :
    pos ≤ (ofText text).afterSpace pos ∧
      (ofText text).chars[(ofText text).afterSpace pos]? ≠ some ' ' ∧
      ∀ i, pos ≤ i → i < (ofText text).afterSpace pos → (ofText text).chars[i]? = some ' ' := by
  unfold afterSpace
  split
  next hspace =>
    refine ⟨Nat.le_succ pos, apart_ofText text hspace, fun i hle hlt => ?_⟩
    obtain rfl : i = pos := by omega
    exact hspace
  next hspace => exact ⟨Nat.le_refl pos, hspace, fun i hle hlt => by omega⟩

theorem onlySpaceFrom_ofText (text : Text) (pos : Nat) :
    (ofText text).onlySpaceFrom pos = true ↔
      ∀ i c, pos ≤ i → (ofText text).chars[i]? = some c → c = ' ' := by
  obtain ⟨hle, hnone, hspaces⟩ := afterSpace_ofText text pos
  rw [onlySpaceFrom, decide_eq_true_eq]
  constructor
  · intro hlength i c hpos hc
    have hlt : i < (ofText text).length := (Array.getElem?_eq_some_iff.mp hc).1
    exact Option.some.inj (hc.symm.trans (hspaces i hpos (by omega)))
  · intro hall
    by_contra hlength
    have hlt : (ofText text).afterSpace pos < (ofText text).chars.size := Nat.not_le.mp hlength
    have hchar := Array.getElem?_eq_getElem hlt
    exact hnone (hall _ _ hle hchar ▸ hchar)

theorem mirrors_ofText (text : Text) : (ofText text).Mirrors text := by
  have hpositions := bytes_eq text
  have hsize : (ofText text).bytes.size = (ofText text).length + 1 := by
    rw [← Array.length_toList, toList_bytes, List.length_append, List.length_map, length_placed]
    rfl
  refine ⟨hsize, ?_, ?_, byteOffset_length text, fun offset hoffset => ?_,
    fun _ => apart_ofText text, afterSpace_ofText text, onlySpaceFrom_ofText text,
    fun _ _ => shows_ofText text⟩
  · obtain ⟨before, after, -, hfirst, hbefore, -⟩ := exists_cut 0 false text (Nat.zero_le _)
    cases before with
    | nil => exact byteOffset_of_getElem? hfirst
    | cons c before =>
      rw [List.take_zero, normalizedFrom_cons, Bool.and_false] at hbefore
      cases hbefore
  · rw [hpositions]
    exact pairwise_positionsFrom 0 false text
  · obtain ⟨i, hi⟩ := List.mem_iff_getElem?.mp hoffset
    have hlt := (List.getElem?_eq_some_iff.mp hi).1
    rw [Array.length_toList, hsize, ← length_placed] at hlt
    obtain ⟨before, after, htext, hcut, -⟩ := exists_cut 0 false text (Nat.le_of_lt_succ hlt)
    rw [hpositions, hcut, Option.some.injEq, Nat.zero_add] at hi
    exact ⟨before, after, htext, hi⟩

end Sentence

namespace Tree

/-- Every node ends where it begins or after. -/
def Forward : Tree → Prop
  | .leaf ⟨start, stop, _⟩ => start ≤ stop
  | .phrase _ start stop _ children => start ≤ stop ∧ ∀ child ∈ children, Forward child

variable {m : Nat}

mutual

theorem Forward.of_mem_preorder (tree : Tree) (hforward : tree.Forward) (hupto : tree.Upto m)
    (depth : Nat) : ∀ row ∈ tree.preorder depth, row.2.start ≤ row.2.stop ∧ row.2.stop ≤ m := by
  intro row hrow
  cases tree with
  | leaf leaf =>
    rw [Forward] at hforward
    rw [Upto] at hupto
    rw [preorder, List.mem_singleton] at hrow
    subst hrow
    exact ⟨hforward, hupto.2⟩
  | phrase name start stop features children =>
    rw [Forward] at hforward
    rw [Upto] at hupto
    rw [preorder] at hrow
    rcases List.mem_cons.mp hrow with rfl | hrow
    · exact ⟨hforward.1, hupto.2.1⟩
    · exact Forward.of_mem_preorderAll children hforward.2 hupto.2.2 (depth + 1) row hrow

theorem Forward.of_mem_preorderAll (trees : List Tree) (hforward : ∀ tree ∈ trees, tree.Forward)
    (hupto : ∀ tree ∈ trees, tree.Upto m) (depth : Nat) :
    ∀ row ∈ preorderAll depth trees, row.2.start ≤ row.2.stop ∧ row.2.stop ≤ m := by
  intro row hrow
  cases trees with
  | nil =>
    rw [preorderAll] at hrow
    cases hrow
  | cons tree trees =>
    obtain ⟨hf, hfs⟩ := List.forall_mem_cons.mp hforward
    obtain ⟨hu, hus⟩ := List.forall_mem_cons.mp hupto
    rw [preorderAll] at hrow
    rcases List.mem_append.mp hrow with hrow | hrow
    · exact Forward.of_mem_preorder tree hf hu depth row hrow
    · exact Forward.of_mem_preorderAll trees hfs hus depth row hrow

end

end Tree

variable {parser : Parser} {sentence : Sentence}

theorem inherited_forward (parser : Parser) (sentence : Sentence) :
    Inherited parser sentence [] fun key d => Extends key d ∧ d.tree.Forward := by
  intro key d hbanned hr hbuilds
  have hextends := inherited_extends parser sentence key d hbanned hr
    (hbuilds.mono fun _ _ _ h => ⟨h.1, h.2.1⟩)
  have hkey := hbuilds.key?_eq
  refine ⟨hextends, ?_⟩
  cases d with
  | word leaf => cases hkey
  | expansion name key stop features parts =>
    cases hkey
    rw [Derivation.tree_expansion, Tree.Forward]
    refine ⟨hextends.le, fun child hchild => ?_⟩
    obtain ⟨part, hpart, rfl⟩ := List.mem_map.mp hchild
    rcases hbuilds.parts_offered part hpart with ⟨leaf, pos, rfl, hleaf⟩ | ⟨callee, -, -, h⟩
    · have hle := Parser.le_stop_of_mem_leavesAt hleaf
      rw [← Parser.start_of_mem_leavesAt hleaf] at hle
      rw [Derivation.tree_word, Tree.Forward]
      exact hle
    · exact h

/-- What a request finds runs forward in the sentence, whatever was found before. -/
theorem Request.forward_trees {t : Table} (ht : t.Reached parser sentence) {request : Request}
    (hoffset : request.offset sentence ≤ sentence.length) {tree : Tree}
    (htree : tree ∈ request.trees parser sentence t) :
    tree.Forward ∧ tree.Upto sentence.length := by
  unfold trees at htree
  split at htree
  next symbol hs =>
    have hall := ht.all ((inherited_forward parser sentence).and
      (inherited_endsIn parser sentence))
    obtain ⟨d, hd, rfl⟩ := List.mem_map.mp htree
    cases hds : t (request.key sentence symbol) with
    | none =>
      rw [hds] at hd
      cases hd
    | some ds =>
      rw [hds] at hd
      obtain ⟨⟨hextends, hforward⟩, hends⟩ := hall _ _ hds d hd
      exact ⟨hforward, hextends.upto.mono hends.2⟩
  next =>
    obtain ⟨leaf, hleaf, rfl⟩ := List.mem_map.mp htree
    have hmem := (List.mem_filter.mp hleaf).1
    have hle := Parser.le_stop_of_mem_leavesAt hmem
    have hstop := Parser.stop_le_of_mem_leavesAt hmem hoffset
    rw [← Parser.start_of_mem_leavesAt hmem] at hle
    have hforward : Tree.Forward (.leaf leaf) := by
      rw [Tree.Forward]
      exact hle
    have hupto : Tree.Upto sentence.length (.leaf leaf) := by
      rw [Tree.Upto]
      exact ⟨hle.trans hstop, hstop⟩
    rw [Tree.Forward, Tree.Upto]
    exact ⟨⟨hle, List.forall_mem_singleton.mpr hforward⟩, hle.trans hstop, hstop,
      List.forall_mem_singleton.mpr hupto⟩

namespace Analysis

/-- The derivations found in a sentence run forward in it, after any requests. -/
theorem forward_results (parser : Parser) (sentence : Sentence) (requests : List Request) :
    ∀ tree ∈ ((ofSentence parser sentence).afterAll requests).results,
      tree.Forward ∧ tree.Upto sentence.length := by
  rcases List.eq_nil_or_concat requests with rfl | ⟨front, request, rfl⟩
  · intro tree htree
    cases htree
  · intro tree htree
    obtain ⟨t, t', ht, hmakes, hseen⟩ := seen_afterAll parser sentence front request
    have hresults : ((ofSentence parser sentence).afterAll (front.concat request)).results =
        (request.answer parser sentence t').2 := by
      rw [← hseen, seen, afterAll, List.concat_eq_append, List.foldl_append]
      rfl
    rw [hresults, Request.answer] at htree
    split at htree
    next => cases htree
    next hoffset =>
      exact Request.forward_trees (ht.makes hmakes) (Nat.not_lt.mp hoffset)
        (List.mem_filter.mp htree).1

/-- A sentence that is set stands over its text, whatever was analysed before. Every node of every
derivation that any requests then find covers a part of the text whose own sentence has the
characters that the node covers. -/
theorem reset_mirrors (analysis : Analysis) (text : Text) (requests : List Request) :
    (analysis.reset text).sentence.Mirrors text ∧
      ∀ tree ∈ ((analysis.reset text).afterAll requests).results, ∀ row ∈ tree.preorder 0,
        row.2.start ≤ row.2.stop ∧ row.2.stop ≤ (analysis.reset text).sentence.length ∧
          (analysis.reset text).sentence.Shows text row.2.start row.2.stop := by
  have hmirrors : (analysis.reset text).sentence.Mirrors text := Sentence.mirrors_ofText text
  refine ⟨hmirrors, fun tree htree row hrow => ?_⟩
  obtain ⟨hforward, hupto⟩ := forward_results analysis.parser (.ofText text) requests tree htree
  obtain ⟨hle, hstop⟩ := hforward.of_mem_preorder tree hupto 0 row hrow
  exact ⟨hle, hstop, hmirrors.shows _ _ hle hstop⟩

end Analysis

end Concord
