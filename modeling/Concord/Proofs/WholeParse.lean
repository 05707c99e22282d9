import Concord.Proofs.Padding
import Concord.Proofs.Plain
import Concord.Proofs.TrimmedSearch

namespace Concord

theorem map_filter_eq {α β γ : Type} {f : α → γ} {g : β → γ} {p : α → Bool} {q : β → Bool}
    {xs : List α} {ys : List β} (h : xs.map f = ys.map g)
    (hpq : ∀ x ∈ xs, ∀ y, f x = g y → p x = q y) : (xs.filter p).map f = (ys.filter q).map g := by
  induction xs generalizing ys with
  | nil =>
    rw [List.map_nil, eq_comm, List.map_eq_nil_iff] at h
    rw [h]
    rfl
  | cons x xs ih =>
    cases ys with
    | nil => cases h
    | cons y ys =>
      obtain ⟨hhead, htail⟩ := List.cons.inj h
      obtain ⟨hx, hxs⟩ := List.forall_mem_cons.mp hpq
      rw [List.filter_cons, List.filter_cons, hx y hhead]
      split
      · rw [List.map_cons, List.map_cons, hhead, ih htail hxs]
      · exact ih htail hxs

theorem Sentence.Agree.onlySpaceFrom {sentence sentence' : Sentence} {i j : Nat}
    (h : sentence.Agree sentence' i j) (n : Nat) :
    sentence.onlySpaceFrom (i + n) = sentence'.onlySpaceFrom (j + n) := by
  have hlength := h.length
  have hle := h.le
  have hle' := h.le'
  rw [Sentence.onlySpaceFrom, Sentence.onlySpaceFrom, afterSpace, afterSpace, h.getElem?,
    decide_eq_decide]
  split <;> omega

namespace Tree

theorem stop_move (r : Nat → Nat) : ∀ tree : Tree, (tree.move r).stop = r tree.stop
  | .leaf ⟨_, _, _⟩ => by rw [move]; rfl
  | .phrase _ _ _ _ _ => by rw [move]; rfl

theorem start_move (r : Nat → Nat) : ∀ tree : Tree, (tree.move r).start = r tree.start
  | .leaf ⟨_, _, _⟩ => by rw [move]; rfl
  | .phrase _ _ _ _ _ => by rw [move]; rfl

theorem Upto.start_le {m : Nat} : ∀ {tree : Tree}, tree.Upto m → tree.start ≤ m
  | .leaf ⟨_, _, _⟩, h => by
    rw [Upto] at h
    exact h.1
  | .phrase _ _ _ _ _, h => by
    rw [Upto] at h
    exact h.1

theorem move_move (r r' : Nat → Nat) : ∀ tree : Tree, (tree.move r).move r' = tree.move (r' ∘ r)
  | .leaf ⟨start, stop, features⟩ => by rw [move, move, move]; rfl
  | .phrase name start stop features children => by
    have hchildren : (children.map (move r)).map (move r') = children.map (move (r' ∘ r)) := by
      rw [List.map_map]
      exact List.map_congr_left fun child _ => move_move r r' child
    rw [move, move, move, hchildren]
    rfl

/-- The tree over characters and over bytes, moved by some characters and some bytes. -/
def placed (sentence : Sentence) (chars bytes : Nat) (tree : Tree) : Tree × Tree :=
  (tree.move (· + chars), tree.move (sentence.byteOffset · + bytes))

theorem placed_add (sentence : Sentence) (chars bytes chars' bytes' : Nat) (tree : Tree) :
    tree.placed sentence (chars + chars') (bytes + bytes') =
      (tree.placed sentence chars bytes).map (move (· + chars')) (move (· + bytes')) := by
  rw [placed, placed, Prod.map, move_move, move_move]
  simp only [Function.comp_def, Nat.add_assoc]

end Tree

/-- The trees are the same, in the same order, up to one distance in characters and one in bytes. -/
def Displaced (sentence sentence' : Sentence) (trees trees' : List Tree) : Prop :=
  ∃ chars bytes chars' bytes', trees.map (Tree.placed sentence chars bytes) =
    trees'.map (Tree.placed sentence' chars' bytes')

namespace Displaced

variable {a b c : Sentence} {trees trees' trees'' : List Tree}

theorem symm (h : Displaced a b trees trees') : Displaced b a trees' trees := by
  obtain ⟨chars, bytes, chars', bytes', h⟩ := h
  exact ⟨chars', bytes', chars, bytes, h.symm⟩

theorem trans (h : Displaced a b trees trees') (h' : Displaced b c trees' trees'') :
    Displaced a c trees trees'' := by
  obtain ⟨i, j, i', j', h⟩ := h
  obtain ⟨k, l, k', l', h'⟩ := h'
  refine ⟨i + k, j + l, k' + i', l' + j', ?_⟩
  have hshift : ∀ (sentence : Sentence) (trees : List Tree) (i j k l : Nat),
      trees.map (Tree.placed sentence (i + k) (j + l)) =
        (trees.map (Tree.placed sentence i j)).map
          (Prod.map (Tree.move (· + k)) (Tree.move (· + l))) := by
    intro sentence trees i j k l
    rw [List.map_map]
    exact List.map_congr_left fun tree _ => tree.placed_add sentence i j k l
  rw [hshift a, h, ← hshift b, Nat.add_comm i', Nat.add_comm j', hshift b, h', ← hshift c]

theorem length_eq (h : Displaced a b trees trees') : trees.length = trees'.length := by
  obtain ⟨chars, bytes, chars', bytes', h⟩ := h
  simpa using congrArg List.length h

end Displaced

theorem inherited_key? (parser : Parser) (sentence : Sentence) :
    Inherited parser sentence [] fun key d => d.key? = some key :=
  fun _ _ _ _ hbuilds => hbuilds.key?_eq

variable {parser : Parser} {sentence : Sentence} {t : Table}

/-- What a request finds begins at its position and ends in the sentence. -/
theorem Request.mem_trees {request : Request} (hoffset : request.offset sentence ≤ sentence.length)
    (makes : request.Makes parser sentence (fun _ => none) t) {tree : Tree}
    (htree : tree ∈ request.trees parser sentence t) :
    tree.start = request.offset sentence ∧ tree.stop ≤ sentence.length ∧ tree.Upto tree.stop := by
  unfold trees at htree
  split at htree
  · rename_i symbol hs
    have hall := (Table.Reached.empty.makes makes).all
      (((inherited_extends parser sentence).and (inherited_endsIn parser sentence)).and
        (inherited_key? parser sentence))
    obtain ⟨d, hd, rfl⟩ := List.mem_map.mp htree
    cases hds : t (request.key sentence symbol) with
    | none =>
      rw [hds] at hd
      cases hd
    | some ds =>
      rw [hds] at hd
      obtain ⟨⟨hextends, hends⟩, hkey⟩ := hall _ _ hds d hd
      rw [Derivation.stop_tree]
      refine ⟨?_, hends.2, hextends.upto⟩
      cases d with
      | word leaf => cases hkey
      | expansion name key stop features parts =>
        cases hkey
        rw [Derivation.tree_expansion]
        rfl
  · obtain ⟨leaf, hleaf, rfl⟩ := List.mem_map.mp htree
    have hmem := (List.mem_filter.mp hleaf).1
    have hstart := Parser.start_of_mem_leavesAt hmem
    have hle := Parser.le_stop_of_mem_leavesAt hmem
    refine ⟨hstart, Parser.stop_le_of_mem_leavesAt hmem hoffset, ?_⟩
    rw [Tree.Upto]
    refine ⟨hstart.trans_le hle, Nat.le_refl _, List.forall_mem_singleton.mpr ?_⟩
    rw [Tree.Upto]
    exact ⟨hstart.trans_le hle, Nat.le_refl _⟩

/-- A grammar that takes in a space at the end. -/
def Grammar.spaced : Grammar where
  symbols := #[⟨['s'], [⟨['x', ' '], none, [.literal ['x', ' ']], 0⟩]⟩]
  undefined := []

theorem Grammar.ofRules_spaced : ofRules [⟨['s'], ['x', ' ']⟩] = .ok .spaced :=
  ok_of_toOption (by decide +kernel)

theorem Derivation.valid_spaced : (expansion ['s'] ⟨0, 0, .empty⟩ 2 .empty []).Valid
    ⟨.empty, .spaced, [' '], none⟩ (.ofText ['x', ' ']) := by
  have hsentence : Sentence.ofText ['x', ' '] = ⟨['x', ' '], #['x', ' '], #[0, 1, 2]⟩ := by
    decide +kernel
  have hkey : (expansion ['s'] ⟨0, 0, .empty⟩ 2 .empty []).key? = some ⟨0, 0, .empty⟩ := rfl
  rw [hsentence, valid_iff (Grammar.scoped_of_ofRules Grammar.ofRules_spaced) hkey]
  exact ⟨⟨_, .head _, rfl, _, ⟨_, .literal rfl, rfl⟩, rfl⟩, fun _ hp => by cases hp⟩

namespace Analysis

open Sentence

variable {start text p q s : Text}

/-- What is seen of a complete parse of a text. -/
theorem exists_whole (parser : Parser) (start text : Text) :
    ∃ t, (Request.parseWhole start).Makes parser (ofText text) (fun _ => none) t ∧
      ((new parser).reset text).seen (.parseWhole start) =
        (.ok (), ((Request.parseWhole start).trees parser (ofText text) t).filter
          fun tree => (ofText text).onlySpaceFrom tree.stop) := by
  obtain ⟨t, makes, -, hseen⟩ := (shows_ofSentence parser (ofText text)).perform (.parseWhole start)
  refine ⟨t, makes, hseen.trans ?_⟩
  rw [Request.answer]
  exact if_neg (Nat.not_lt.mpr (afterSpace_le text))

/-- What is found begins after the space at the beginning. -/
theorem mem_whole (makes : (Request.parseWhole start).Makes parser (ofText text) (fun _ => none) t)
    {tree : Tree} (htree : tree ∈ (Request.parseWhole start).trees parser (ofText text) t) :
    tree.start = (ofText text).afterSpace 0 ∧ tree.stop ≤ (ofText text).length ∧
      tree.Upto tree.stop := by
  have hoffset : (Request.parseWhole start).offset (ofText text) ≤ (ofText text).length :=
    afterSpace_le text
  exact Request.mem_trees hoffset makes htree

section agree

variable {a b : Text} {u : Table} {r r' : Nat → Nat}

/-- Where two texts have the same characters after the space at the beginning, what complete parses
find corresponds. Beyond the ends of the sentences nothing need be known of the two moves. -/
theorem move_trees_of_agree
    (hagree : (ofText a).Agree (ofText b) ((ofText a).afterSpace 0) ((ofText b).afterSpace 0))
    (hr : ∀ count, (ofText a).afterSpace 0 + count ≤ (ofText a).length →
      r ((ofText a).afterSpace 0 + count) = r' ((ofText b).afterSpace 0 + count))
    (makes : (Request.parseWhole start).Makes parser (ofText a) (fun _ => none) t)
    (makes' : (Request.parseWhole start).Makes parser (ofText b) (fun _ => none) u) :
    ((Request.parseWhole start).trees parser (ofText a) t).map (Tree.move r) =
      ((Request.parseWhole start).trees parser (ofText b) u).map (Tree.move r') := by
  have hstart : Option.Rel (Pairing.shift ((ofText a).afterSpace 0)
      ((ofText b).afterSpace 0)).symbols (parser.grammar.indexOf? start)
      (parser.grammar.indexOf? start) := by
    cases parser.grammar.indexOf? start with
    | none => exact .none
    | some symbol => exact .some rfl
  let bounded (p : Nat) : Nat := if p ≤ (ofText a).length then r p else 0
  let bounded' (p : Nat) : Nat := if p ≤ (ofText b).length then r' p else 0
  have hbounded : ((Request.parseWhole start).trees parser (ofText a) t).map (Tree.move bounded) =
      ((Request.parseWhole start).trees parser (ofText b) u).map (Tree.move bounded') := by
    refine (Pairing.between_shift parser hagree).trees ?_ hstart ⟨0, rfl, rfl⟩ makes makes'
    rintro _ _ ⟨count, rfl, rfl⟩
    have hlength := hagree.length
    have hle := hagree.le
    have hle' := hagree.le'
    by_cases hcount : (ofText a).afterSpace 0 + count ≤ (ofText a).length
    · exact (if_pos hcount).trans ((hr count hcount).trans (if_pos (by omega)).symm)
    · exact (if_neg hcount).trans (if_neg (by omega)).symm
  rw [List.map_congr_left fun tree htree => ?_, hbounded,
    List.map_congr_left fun tree htree => ?_]
  · obtain ⟨-, hstop, hupto⟩ := mem_whole makes' htree
    exact Tree.move_congr (fun p hp => if_pos hp) (hupto.mono hstop)
  · obtain ⟨-, hstop, hupto⟩ := mem_whole makes htree
    exact Tree.move_congr (fun p hp => (if_pos hp).symm) (hupto.mono hstop)

/-- Where two texts have the same characters after the space at the beginning, complete parses find
the same. -/
theorem whole_of_agree
    (hagree : (ofText a).Agree (ofText b) ((ofText a).afterSpace 0) ((ofText b).afterSpace 0))
    (hr : ∀ count, (ofText a).afterSpace 0 + count ≤ (ofText a).length →
      r ((ofText a).afterSpace 0 + count) = r' ((ofText b).afterSpace 0 + count))
    (makes : (Request.parseWhole start).Makes parser (ofText a) (fun _ => none) t)
    (makes' : (Request.parseWhole start).Makes parser (ofText b) (fun _ => none) u) :
    (((Request.parseWhole start).trees parser (ofText a) t).filter
        fun tree => (ofText a).onlySpaceFrom tree.stop).map
        (fun tree => (tree.move (· + (ofText b).afterSpace 0), tree.move r)) =
      (((Request.parseWhole start).trees parser (ofText b) u).filter
        fun tree => (ofText b).onlySpaceFrom tree.stop).map
        (fun tree => (tree.move (· + (ofText a).afterSpace 0), tree.move r')) := by
  have hbytes := move_trees_of_agree hagree hr makes makes'
  have hchars : ((Request.parseWhole start).trees parser (ofText a) t).map
      (Tree.move (· + (ofText b).afterSpace 0)) =
      ((Request.parseWhole start).trees parser (ofText b) u).map
        (Tree.move (· + (ofText a).afterSpace 0)) :=
    move_trees_of_agree hagree (fun count _ => by omega) makes makes'
  refine map_filter_eq ?_ fun tree htree tree' heq => ?_
  · rw [← List.zip_map', ← List.zip_map', hchars, hbytes]
  · obtain ⟨hfirst, hstop, hupto⟩ := mem_whole makes htree
    have hle := hupto.start_le
    have hstops := congrArg Tree.stop (congrArg Prod.fst heq)
    rw [Tree.stop_move, Tree.stop_move] at hstops
    obtain ⟨count, hcount⟩ := Nat.exists_eq_add_of_le (hfirst ▸ hle)
    have hcount' : tree'.stop = (ofText b).afterSpace 0 + count := by omega
    rw [hcount, hcount']
    exact hagree.onlySpaceFrom count

end agree

/-- Two texts have the same complete derivations, but for where they stand. -/
def ParsesAlike (parser : Parser) (start a b : Text) : Prop :=
  ∃ trees trees', ((new parser).reset a).seen (.parseWhole start) = (.ok (), trees) ∧
    ((new parser).reset b).seen (.parseWhole start) = (.ok (), trees') ∧
    Displaced (ofText a) (ofText b) trees trees'

theorem parsesAlike_iff {a b : Text} {trees trees' : List Tree}
    (hseen : ((new parser).reset a).seen (.parseWhole start) = (.ok (), trees))
    (hseen' : ((new parser).reset b).seen (.parseWhole start) = (.ok (), trees')) :
    ParsesAlike parser start a b ↔ Displaced (ofText a) (ofText b) trees trees' := by
  refine ⟨?_, fun h => ⟨trees, trees', hseen, hseen', h⟩⟩
  rintro ⟨seen, seen', heq, heq', h⟩
  obtain ⟨-, rfl⟩ := Prod.mk.inj (hseen.symm.trans heq)
  obtain ⟨-, rfl⟩ := Prod.mk.inj (hseen'.symm.trans heq')
  exact h

theorem ParsesAlike.symm {a b : Text} (h : ParsesAlike parser start a b) :
    ParsesAlike parser start b a := by
  obtain ⟨trees, trees', hseen, hseen', h⟩ := h
  exact ⟨trees', trees, hseen', hseen, h.symm⟩

theorem ParsesAlike.trans {a b c : Text} (h : ParsesAlike parser start a b)
    (h' : ParsesAlike parser start b c) : ParsesAlike parser start a c := by
  obtain ⟨trees, middle, hseen, hmiddle, h⟩ := h
  obtain ⟨-, trees', -, hseen', -⟩ := id h'
  exact ⟨trees, trees', hseen, hseen', h.trans ((parsesAlike_iff hmiddle hseen').mp h')⟩

/-- White space before a text makes no difference. -/
theorem parsesAlike_leading (parser : Parser) (start : Text) (hp : ∀ c ∈ p, isBlank c = true)
    (s : Text) : ParsesAlike parser start (p ++ s) s := by
  obtain ⟨t, makes, hseen⟩ := exists_whole parser start (p ++ s)
  obtain ⟨u, makes', hseen'⟩ := exists_whole parser start s
  refine ⟨_, _, hseen, hseen', (ofText s).afterSpace 0, 0, (ofText (p ++ s)).afterSpace 0,
    utf8Length p, ?_⟩
  exact whole_of_agree (agree_leading hp s) (fun _ => byteOffset_leading hp s) makes makes'

/-- All texts of white space only parse alike. -/
theorem parsesAlike_blank (parser : Parser) (start : Text) (hp : ∀ c ∈ p, isBlank c = true)
    (hs : ∀ c ∈ s, isBlank c = true) : ParsesAlike parser start p s := by
  have hnil := parsesAlike_leading parser start hp []
  have hnil' := parsesAlike_leading parser start hs []
  rw [List.append_nil] at hnil hnil'
  exact hnil.trans hnil'.symm

section trailing

variable (hq : ∀ c ∈ q, isBlank c = true) (hne : q ≠ [])

include hq hne

/-- Trees that end before the white space at the end have the same positions without it. -/
theorem displaced_of_lt {trees : List Tree}
    (htrees : ∀ tree ∈ trees, tree.Upto tree.stop ∧ tree.stop < (ofText (text ++ q)).length) :
    Displaced (ofText (text ++ q)) (ofText text) trees trees := by
  refine ⟨0, 0, 0, 0, List.map_congr_left fun tree htree => ?_⟩
  obtain ⟨hupto, hlt⟩ := htrees tree htree
  refine Prod.ext rfl (Tree.move_congr (fun p hp => ?_) hupto)
  have hoffset : (ofText (text ++ q)).byteOffset p = (ofText text).byteOffset p := by
    cases hends : endsBlank false text with
    | true =>
      have hlength : (ofText (text ++ q)).length = (ofText text).length :=
        congrArg Array.size (chars_trailing hq hne hends)
      exact byteOffset_trailing hq hne (by omega)
    | false =>
      have hlength := (addsSpace_trailing hq hne hends).length
      rcases Nat.lt_or_ge p (ofText text).length with hlt | hge
      · exact byteOffset_trailing hq hne hlt
      · obtain rfl : p = (ofText text).length := by omega
        exact byteOffset_space hq hne hends
  rw [hoffset]

omit hq in
theorem utf8Length_pos : 0 < utf8Length q := by
  obtain ⟨c, rest, rfl⟩ := List.exists_cons_of_ne_nil hne
  have hpos := Char.utf8Size_pos c
  rw [utf8Length]
  omega

/-- White space that widens a space at the end moves the end of the text, and nothing else. -/
theorem parsesAlike_widened (hends : endsBlank false text = true) {c : Char} (hc : c ∈ text)
    (hblank : isBlank c = false) : ParsesAlike parser start (text ++ q) text ↔
      ∀ tree ∈ (((new parser).reset (text ++ q)).seen (.parseWhole start)).2,
        tree.stop < (ofText (text ++ q)).length := by
  obtain ⟨t, makes, hseen⟩ := exists_whole parser start (text ++ q)
  obtain ⟨u, makes', hseen'⟩ := exists_whole parser start text
  have hchars := chars_trailing hq hne hends
  have hlength : (ofText (text ++ q)).length = (ofText text).length := congrArg Array.size hchars
  have hafter : (ofText (text ++ q)).afterSpace 0 = (ofText text).afterSpace 0 := by
    rw [afterSpace, afterSpace, hchars]
  have hagree : (ofText (text ++ q)).Agree (ofText text) ((ofText (text ++ q)).afterSpace 0)
      ((ofText text).afterSpace 0) :=
    ⟨afterSpace_le _, afterSpace_le _, by rw [hafter, hchars]⟩
  have hid : ∀ count, (ofText (text ++ q)).afterSpace 0 + count ≤ (ofText (text ++ q)).length →
      id ((ofText (text ++ q)).afterSpace 0 + count) = id ((ofText text).afterSpace 0 + count) :=
    fun count _ => by rw [hafter]
  have hsame := congrArg (List.map Prod.snd) (whole_of_agree hagree hid makes makes')
  simp only [List.map_map, Function.comp_def, Tree.move_id, List.map_id'] at hsame
  rw [hsame] at hseen
  rw [parsesAlike_iff hseen hseen', hseen]
  constructor
  · rintro ⟨chars, bytes, chars', bytes', heq⟩ tree htree
    have hplaced := congrArg Prod.snd (List.map_inj_left.mp heq tree htree)
    have hstarts := congrArg Tree.start hplaced
    have hstops := congrArg Tree.stop hplaced
    simp only [Tree.placed, Tree.start_move, Tree.stop_move] at hstarts hstops
    obtain ⟨hfirst, hle, -⟩ := mem_whole makes' (List.mem_filter.mp htree).1
    have hlt := afterSpace_lt hc hblank
    rw [hfirst, byteOffset_trailing hq hne hlt] at hstarts
    rw [hlength]
    refine Nat.lt_of_le_of_ne hle fun hstop => ?_
    -- The end has moved by the length of the white space, the beginning has not.
    rw [hstop, byteOffset_length, ← hlength, byteOffset_length, utf8Length_append] at hstops
    have hpos := utf8Length_pos hne
    omega
  · intro hlt
    exact displaced_of_lt hq hne fun tree htree =>
      ⟨(mem_whole makes' (List.mem_filter.mp htree).1).2.2, hlt tree htree⟩

/-- A space at the end of a text that ends in none makes a difference if something that is found
takes it in. -/
theorem parsesAlike_spaced (hscoped : parser.grammar.Scoped) (hzero : parser.cap ≠ some 0)
    (hends : endsBlank false text = false) {c : Char} (hc : c ∈ text) (hblank : isBlank c = false)
    (hbound : parser.cap = none ∨
      parser.NoneBeyond (ofText (text ++ q)) (ofText text).length) :
    ParsesAlike parser start (text ++ q) text ↔
      ∀ tree ∈ (((new parser).reset (text ++ q)).seen (.parseWhole start)).2,
        tree.stop < (ofText (text ++ q)).length := by
  obtain ⟨t, makes, hseen⟩ := exists_whole parser start (text ++ q)
  obtain ⟨u, makes', hseen'⟩ := exists_whole parser start text
  have hspace := addsSpace_trailing hq hne hends
  have hlt := afterSpace_lt hc hblank
  have hafter : (ofText text).afterSpace 0 = (ofText (text ++ q)).afterSpace 0 := by
    rw [afterSpace, afterSpace, hspace.getElem?_of_lt (by omega)]
  have hoffset : (Request.parseWhole start).offset (ofText text) =
      (Request.parseWhole start).offset (ofText (text ++ q)) := hafter
  have hle : (Request.parseWhole start).offset (ofText (text ++ q)) ≤ (ofText text).length :=
    hoffset ▸ Nat.le_of_lt hlt
  have hlength := hspace.length
  -- What is found without the space is what is found with it and does not take it in.
  have hsame : ((Request.parseWhole start).trees parser (ofText text) u).filter
        (fun tree => (ofText text).onlySpaceFrom tree.stop) =
      (((Request.parseWhole start).trees parser (ofText (text ++ q)) t).filter
        fun tree => (ofText (text ++ q)).onlySpaceFrom tree.stop).filter
          (·.stop ≤ (ofText text).length) := by
    rw [Request.trees_trimmed hspace hzero hscoped hbound hoffset hle makes makes',
      List.filter_filter, List.filter_filter]
    refine List.filter_congr fun tree _ => ?_
    by_cases hstop : tree.stop ≤ (ofText text).length
    · simp [hstop, onlySpaceFrom_trailing hq hne hends hstop]
    · simp [hstop]
  rw [hsame] at hseen'
  rw [parsesAlike_iff hseen hseen', hseen]
  constructor
  · intro hdisplaced
    have hall := List.length_filter_eq_length_iff.mp hdisplaced.length_eq.symm
    intro tree htree
    have hstop := of_decide_eq_true (hall tree htree)
    omega
  · intro hstops
    have hend : ∀ tree : Tree, tree.stop < (ofText (text ++ q)).length →
        decide (tree.stop ≤ (ofText text).length) = true :=
      fun tree hstop => decide_eq_true (by omega)
    rw [List.filter_eq_self.mpr fun tree htree => hend tree (hstops tree htree)]
    exact displaced_of_lt hq hne fun tree htree =>
      ⟨(mem_whole makes (List.mem_filter.mp htree).1).2.2, hstops tree htree⟩

end trailing

theorem exists_tree_spaced :
    ∃ tree ∈ (((new ⟨.empty, .spaced, [' '], none⟩).reset ['x', ' ']).seen (.parseWhole ['s'])).2,
      tree.stop = (ofText ['x', ' ']).length := by
  let parser : Parser := ⟨.empty, .spaced, [' '], none⟩
  obtain ⟨t, makes, hseen⟩ := exists_whole parser ['s'] ['x', ' ']
  have hs : parser.grammar.indexOf? ['s'] = some 0 := by decide +kernel
  have hafter : (ofText ['x', ' ']).afterSpace 0 = 0 := by decide +kernel
  have hlength : (ofText ['x', ' ']).length = 2 := by decide +kernel
  have hspace : (ofText ['x', ' ']).onlySpaceFrom 2 = true := by decide +kernel
  rcases makes with ⟨-, hlt⟩ | ⟨symbol, hs', hle, hcalls⟩
  · exact absurd (hlt 0 hs) (Nat.not_lt.mpr (afterSpace_le _))
  · obtain rfl : symbol = 0 := Option.some.inj (hs'.symm.trans hs)
    have hkey : (Request.parseWhole ['s']).key (ofText ['x', ' ']) 0 = ⟨0, 0, .empty⟩ := by
      rw [Request.key, Request.offset, hafter]
      rfl
    rw [hkey] at hcalls
    obtain ⟨ds, hds⟩ := hcalls.done ⟨by decide, Nat.zero_le _⟩
    have hmem := (Table.Reached.empty.call hcalls).mem_of_valid rfl
      (Grammar.scoped_of_ofRules Grammar.ofRules_spaced) hds Derivation.valid_spaced rfl
      (Nat.zero_le _) (by decide)
    refine ⟨.phrase ['s'] 0 2 .empty [], ?_, hlength.symm⟩
    rw [hseen]
    refine List.mem_filter.mpr ⟨?_, hspace⟩
    rw [Request.trees,
      show parser.grammar.indexOf? (Request.parseWhole ['s']).start = some 0 from hs]
    dsimp only
    rw [hkey, hds]
    have htree := List.mem_map_of_mem (f := Derivation.tree) hmem
    rwa [Derivation.tree_expansion] at htree

/-- White space before a text makes no difference to a complete parse. White space behind it makes
none exactly if the text is white space, or if nothing that is found ends behind the space at the
end. With a cap, nothing valid must take in a space that the text does not have. -/
theorem parseWhole_padded (parser : Parser) {rules : List Rule}
    (hrules : Grammar.ofRules rules = .ok parser.grammar) (hzero : parser.cap ≠ some 0)
    (start : Text) {p s q : Text} (hp : ∀ c ∈ p, isBlank c = true) (hq : ∀ c ∈ q, isBlank c = true)
    (hcap : parser.cap ≠ none → q ≠ [] → (s.getLast?.any isBlank) = false →
      parser.NoneBeyond (ofText (p ++ s ++ q)) (ofText (p ++ s)).length) :
    ParsesAlike parser start (p ++ s ++ q) s ↔ q = [] ∨ (∀ c ∈ s, isBlank c = true) ∨
      ∀ tree ∈ (((new parser).reset (p ++ s ++ q)).seen (.parseWhole start)).2,
        tree.stop < (ofText (p ++ s ++ q)).length := by
  have hleading := parsesAlike_leading parser start hp s
  by_cases hne : q = []
  · rw [hne, List.append_nil]
    exact iff_of_true hleading (.inl rfl)
  · by_cases hs : ∀ c ∈ s, isBlank c = true
    · have hall : ∀ c ∈ p ++ s ++ q, isBlank c = true :=
        List.forall_mem_append.mpr ⟨List.forall_mem_append.mpr ⟨hp, hs⟩, hq⟩
      exact iff_of_true (parsesAlike_blank parser start hall hs) (.inr (.inl hs))
    · rw [or_iff_right hne, or_iff_right hs]
      push Not at hs
      obtain ⟨c, hc, hblank⟩ := hs
      rw [ne_eq, Bool.not_eq_true] at hblank
      have hmem : c ∈ p ++ s := List.mem_append_right p hc
      have hiff : ParsesAlike parser start (p ++ s ++ q) s ↔
          ParsesAlike parser start (p ++ s ++ q) (p ++ s) :=
        ⟨fun h => h.trans hleading.symm, fun h => h.trans hleading⟩
      rw [hiff]
      cases hends : endsBlank false (p ++ s) with
      | true => exact parsesAlike_widened hq hne hends hmem hblank
      | false =>
        have hlast : s.getLast?.any isBlank = false := by
          rw [endsBlank, List.getLast?_append_of_ne_nil _ (List.ne_nil_of_mem hc)] at hends
          cases hs : s.getLast? with
          | none => rfl
          | some d => simpa [hs] using hends
        have hscoped := Grammar.scoped_of_ofRules hrules
        refine parsesAlike_spaced hq hne hscoped hzero hends hmem hblank ?_
        by_cases hnone : parser.cap = none
        · exact .inl hnone
        · exact .inr (hcap hnone hne hlast)

theorem parseWhole_padded_spaced :
    let parser : Parser := ⟨.empty, .spaced, [' '], none⟩
    ParsesAlike parser ['s'] ['\t', 'x'] ['x'] ∧ ¬ParsesAlike parser ['s'] ['x', ' '] ['x'] := by
  intro parser
  have htab : ∀ c ∈ ['\t'], isBlank c = true := List.forall_mem_singleton.mpr (by decide)
  have hspace : ∀ c ∈ [' '], isBlank c = true := List.forall_mem_singleton.mpr (by decide)
  have hnone : ∀ c ∈ ([] : Text), isBlank c = true := List.forall_mem_nil _
  have hleading := parseWhole_padded parser Grammar.ofRules_spaced (by decide) ['s'] (s := ['x'])
    htab hnone (fun h => absurd rfl h)
  have htrailing := parseWhole_padded parser Grammar.ofRules_spaced (by decide) ['s'] (s := ['x'])
    hnone hspace (fun h => absurd rfl h)
  refine ⟨hleading.mpr (.inl rfl), fun halike => ?_⟩
  obtain ⟨tree, htree, hstop⟩ := exists_tree_spaced
  rcases htrailing.mp halike with hnil | hblank | hlt
  · cases hnil
  · exact absurd (hblank 'x' (.head _)) (by decide)
  · exact absurd (hlt tree htree) (Nat.not_lt.mpr hstop.ge)

/-- The grammar has the one alternative `x` with a space behind it, the text is `x`, and a space
stands behind it. -/
theorem not_parseWhole_padded : ¬∀ (parser : Parser) (rules : List Rule) (start p s q : Text),
    Grammar.ofRules rules = .ok parser.grammar → (∀ c ∈ p, isBlank c = true) →
      (∀ c ∈ q, isBlank c = true) → ParsesAlike parser start (p ++ s ++ q) s := by
  intro h
  have hspace : ∀ c ∈ [' '], isBlank c = true := List.forall_mem_singleton.mpr (by decide)
  have halike : ParsesAlike _ ['s'] (['x'] ++ [' ']) ['x'] :=
    h ⟨.empty, .spaced, [' '], none⟩ _ ['s'] [] ['x'] [' '] Grammar.ofRules_spaced
      (List.forall_mem_nil _) hspace
  obtain ⟨tree, htree, hstop⟩ := exists_tree_spaced
  have hscoped := Grammar.scoped_of_ofRules Grammar.ofRules_spaced
  have hlt := (parsesAlike_spaced hspace (by decide) hscoped (by decide) (by decide)
    (.head _) (by decide) (.inl rfl)).mp halike tree htree
  exact absurd hlt (Nat.not_lt.mpr hstop.ge)

end Analysis

end Concord
