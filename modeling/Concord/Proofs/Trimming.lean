import Concord.Proofs.Extent
import Concord.Proofs.Letters
import Concord.Proofs.Position

namespace Concord

theorem filter_filterMap_eq {α β : Type} {f : α → Option β} {p : β → Bool} {q : α → Bool}
    (h : ∀ x y, f x = some y → p y = q x) (xs : List α) :
    (xs.filterMap f).filter p = (xs.filter q).filterMap f := by
  rw [List.filter_filterMap, List.filterMap_filter]
  congr 1
  funext x
  cases hx : f x with
  | none => simp
  | some y => simp [Option.filter, h x y hx]

namespace Sentence

/-- The first sentence has the characters of the second one, and a space after them. -/
def AddsSpace (sentence trimmed : Sentence) : Prop :=
  sentence.chars = trimmed.chars.push ' '

variable {sentence trimmed : Sentence}

namespace AddsSpace

theorem length (h : sentence.AddsSpace trimmed) : sentence.length = trimmed.length + 1 := by
  rw [Sentence.length, h, Array.size_push]
  rfl

theorem getElem?_of_lt (h : sentence.AddsSpace trimmed) {i : Nat} (hi : i < trimmed.length) :
    sentence.chars[i]? = trimmed.chars[i]? := by
  rw [h, Array.getElem?_push_lt hi]
  exact (Array.getElem?_eq_getElem hi).symm

theorem getElem?_length (h : sentence.AddsSpace trimmed) :
    sentence.chars[trimmed.length]? = some ' ' := by
  rw [h]
  exact Array.getElem?_push_size

theorem endOf? (h : sentence.AddsSpace trimmed) {pos : Nat} (hpos : pos ≤ trimmed.length)
    (text : Text) :
    trimmed.endOf? pos text = (sentence.endOf? pos text).filter (· ≤ trimmed.length) := by
  induction text generalizing pos with
  | nil => simp [Sentence.endOf?, Option.filter, hpos]
  | cons c text ih =>
    rw [Sentence.endOf?, Sentence.endOf?]
    rcases Nat.lt_or_eq_of_le hpos with hlt | rfl
    · rw [h.getElem?_of_lt hlt]
      split
      · exact ih hlt
      · rfl
    · have hnone : trimmed.chars[trimmed.length]? = none :=
        Array.getElem?_eq_none (Nat.le_refl _)
      rw [hnone, if_neg (by simp)]
      split
      · cases hstop : sentence.endOf? (trimmed.length + 1) text with
        | none => rfl
        | some stop =>
          have hle := le_of_endOf? hstop
          simp [Option.filter, Nat.not_le.mpr hle]
      · rfl

theorem wordLength (h : sentence.AddsSpace trimmed) {count pos : Nat}
    (hcount : pos + count = trimmed.length) :
    sentence.wordLength (count + 1) pos = trimmed.wordLength count pos := by
  induction count generalizing pos with
  | zero =>
    obtain rfl : pos = trimmed.length := hcount
    have hspace : isWordChar ' ' = false := not_isWordChar_of_isBlank (by decide)
    simp [Sentence.wordLength, h.getElem?_length, hspace]
  | succ count ih =>
    have hnext : sentence.wordLength (count + 1) (pos + 1) = trimmed.wordLength count (pos + 1) :=
      ih (by omega)
    rw [Sentence.wordLength, h.getElem?_of_lt (by omega), hnext, Sentence.wordLength]

theorem endOfWord (h : sentence.AddsSpace trimmed) {pos : Nat} (hpos : pos ≤ trimmed.length) :
    sentence.endOfWord pos = trimmed.endOfWord pos := by
  have hcount : sentence.length - pos = (trimmed.length - pos) + 1 := by
    rw [h.length]
    omega
  rw [Sentence.endOfWord, Sentence.endOfWord, hcount, h.wordLength (by omega)]

theorem slice (h : sentence.AddsSpace trimmed) {start stop : Nat} (hstop : stop ≤ trimmed.length) :
    sentence.slice start stop = trimmed.slice start stop := by
  rw [Sentence.slice, Sentence.slice, h, Array.extract_push_of_le hstop]

end AddsSpace

end Sentence

variable {parser : Parser} {sentence trimmed : Sentence}

theorem phraseLeaf?_trimmed (h : sentence.AddsSpace trimmed) {pos : Nat}
    (hpos : pos ≤ trimmed.length) (entry : Entry) :
    Parser.phraseLeaf? trimmed pos entry =
      (Parser.phraseLeaf? sentence pos entry).filter (·.stop ≤ trimmed.length) := by
  unfold Parser.phraseLeaf?
  rw [h.endOf? hpos]
  cases hstop : sentence.endOf? pos entry.word with
  | none => rfl
  | some stop =>
    by_cases hle : stop ≤ trimmed.length
    · have hnext : trimmed.chars[stop]?.any isWordChar = sentence.chars[stop]?.any isWordChar := by
        rcases Nat.lt_or_eq_of_le hle with hlt | rfl
        · rw [h.getElem?_of_lt hlt]
        · have hspace : isWordChar ' ' = false := not_isWordChar_of_isBlank (by decide)
          have hnone : trimmed.chars[trimmed.length]? = none :=
            Array.getElem?_eq_none (Nat.le_refl _)
          simp [hnone, h.getElem?_length, hspace]
      cases hword : sentence.chars[stop]?.any isWordChar <;> simp [Option.filter, hle, hnext, hword]
    · cases hword : sentence.chars[stop]?.any isWordChar <;> simp [Option.filter, hle, hword]

theorem leavesAt_trimmed (h : sentence.AddsSpace trimmed) {pos : Nat}
    (hpos : pos ≤ trimmed.length) :
    parser.leavesAt trimmed pos =
      (parser.leavesAt sentence pos).filter (·.stop ≤ trimmed.length) := by
  have hend := Sentence.endOfWord_le hpos
  unfold Parser.leavesAt
  dsimp only
  rw [h.endOfWord hpos, h.slice hend]
  split
  · rfl
  · rw [List.filter_append]
    congr 1
    · exact (List.filter_eq_self.mpr fun leaf hleaf => by
        obtain ⟨entry, -, rfl⟩ := List.mem_map.mp hleaf
        simpa using hend).symm
    · rw [List.filter_filterMap]
      congr 1
      funext entry
      exact phraseLeaf?_trimmed h hpos entry

namespace Strand

theorem filter_literal? (h : sentence.AddsSpace trimmed) {strand : Strand}
    (hpos : strand.pos ≤ trimmed.length) (text : Text) :
    (strand.literal? trimmed text).toList =
      (strand.literal? sentence text).toList.filter (·.pos ≤ trimmed.length) := by
  rw [literal?, literal?, h.endOf? hpos]
  cases sentence.endOf? strand.pos text with
  | none => rfl
  | some stop => by_cases hle : stop ≤ trimmed.length <;> simp [Option.filter, hle]

theorem pos_of_word? {strand next : Strand} {term : Term} {leaf : Leaf}
    (h : strand.word? term leaf = some next) : next.pos = leaf.stop := by
  obtain ⟨_, _, rfl⟩ := Option.map_eq_some_iff.mp h
  rfl

theorem pos_of_phrase? {strand next : Strand} {term : Term} {part : Derivation}
    (h : strand.phrase? term part = some next) : next.pos = part.stop := by
  obtain ⟨_, _, rfl⟩ := Option.map_eq_some_iff.mp h
  rfl

end Strand

namespace Frame

/-- The strands of the second frame are those of the first one that are not beyond `n`. -/
structure Abreast (n : Nat) (f h : Frame) : Prop where
  elements : h.elements = f.elements
  pending : h.pending = f.pending.filter (·.pos ≤ n)
  advanced : h.advanced = f.advanced.filter (·.pos ≤ n)

/-- The second frame has no strand left at the element that it has come to; all strands of the first
one are beyond `n`. -/
structure Waits (n : Nat) (f h : Frame) : Prop where
  elements : h.elements ≠ []
  pending : h.pending = []
  advanced : h.advanced = []
  beyond : ∀ strand ∈ f.pending ++ f.advanced, n < strand.pos

/-- The second frame is the first one without what is beyond `n`. Where nothing else is left of the
current alternative, it waits for the first one to come to the next alternative. -/
structure Trims (n : Nat) (f h : Frame) : Prop where
  key : h.key = f.key
  path : h.path = f.path
  cut : h.cut = f.cut
  results : h.results = f.results.filter (·.stop ≤ n)
  alternatives : h.alternatives = f.alternatives
  strands : Abreast n f h ∨ Waits n f h

variable {n : Nat} {f g h : Frame}

namespace Trims

theorem toAlternative (hf : Trims n f h) (hstart : f.key.start ≤ n)
    {results results' : List Derivation} (hresults : results' = results.filter (·.stop ≤ n))
    (alternatives : List Pattern) :
    Trims n (Frame.toAlternative { f with results } alternatives)
      (Frame.toAlternative { h with results := results' } alternatives) := by
  unfold Frame.toAlternative
  dsimp only
  rw [hf.key]
  split
  · exact ⟨rfl, hf.path, hf.cut, hresults, rfl, .inl ⟨rfl, rfl, rfl⟩⟩
  · refine ⟨rfl, hf.path, hf.cut, hresults, rfl, .inl ⟨rfl, ?_, rfl⟩⟩
    simp [Strand.start, hstart]

theorem start (grammar : Grammar) {path path' : List Key} (hpath : path' = path) {key : Key}
    (hstart : key.start ≤ n) :
    Trims n (Frame.start grammar path key) (Frame.start grammar path' key) := by
  subst hpath
  exact toAlternative (f := ⟨key, _, [], [], [], [], [], []⟩)
    (h := ⟨key, _, [], [], [], [], [], []⟩)
    ⟨rfl, rfl, rfl, rfl, rfl, .inl ⟨rfl, rfl, rfl⟩⟩ hstart rfl _

/-- What is found at the end of the current alternative. -/
theorem finished (hf : Trims n f h) (hab : Abreast n f h) (name : Text) :
    h.results ++ h.pending.filterMap (·.finish? name h.key) =
      (f.results ++ f.pending.filterMap (·.finish? name f.key)).filter (·.stop ≤ n) := by
  have hstop : ∀ strand d, Strand.finish? strand name f.key = some d →
      decide (d.stop ≤ n) = decide (strand.pos ≤ n) := by
    intro strand d hd
    rw [(Strand.finish?_eq_some hd).2.2]
  rw [List.filter_append, filter_filterMap_eq hstop, hf.results, hab.pending, hf.key]

theorem finishAlternative (hf : Trims n f h) (hab : Abreast n f h) (hstart : f.key.start ≤ n)
    (hbound : parser.cap = none ∨ ∀ d ∈ f.results ++
      f.pending.filterMap (·.finish? (parser.grammar.nameOf f.key.symbol) f.key), d.stop ≤ n)
    (alternatives : List Pattern) : Trims n (f.finishAlternative parser alternatives)
      (h.finishAlternative parser alternatives) := by
  have hresults := hf.finished hab (parser.grammar.nameOf f.key.symbol)
  unfold Frame.finishAlternative
  dsimp only
  rw [show h.key.symbol = f.key.symbol from congrArg Key.symbol hf.key, hresults]
  revert hbound
  generalize f.results ++ f.pending.filterMap _ = found
  intro hbound
  split
  · exact hf.toAlternative hstart rfl alternatives
  · rename_i cap hcap
    have hall := hbound.resolve_left (by simp [hcap])
    have hsame := List.filter_eq_self.mpr fun d hd => decide_eq_true (hall d hd)
    have htake := List.filter_eq_self.mpr fun d hd =>
      decide_eq_true (hall d (List.mem_of_mem_take (i := cap) hd))
    rw [hsame]
    split
    · exact hf.toAlternative hstart htake.symm []
    · exact hf.toAlternative hstart hsame.symm alternatives

/-- What is at the end of an alternative where the other frame waits is all beyond `n`. -/
theorem finishAlternative_of_waits (hf : Trims n f h) (hwaits : Waits n f h)
    (hstart : f.key.start ≤ n)
    (hbound : parser.cap = none ∨ ∀ d ∈ f.results ++
      f.pending.filterMap (·.finish? (parser.grammar.nameOf f.key.symbol) f.key), d.stop ≤ n)
    (hroom : ∀ cap, parser.cap = some cap → f.results.length < cap)
    (alternatives : List Pattern) : Trims n (f.finishAlternative parser alternatives)
      (h.toAlternative alternatives) := by
  have hbeyond : ∀ d ∈ f.pending.filterMap
      (·.finish? (parser.grammar.nameOf f.key.symbol) f.key), n < d.stop := by
    intro d hd
    obtain ⟨strand, hstrand, hfinish⟩ := List.mem_filterMap.mp hd
    rw [(Strand.finish?_eq_some hfinish).2.2]
    exact hwaits.beyond strand (List.mem_append_left _ hstrand)
  unfold Frame.finishAlternative
  dsimp only
  revert hbound hbeyond
  generalize f.pending.filterMap _ = new
  intro hbound hbeyond
  have hnone : new.filter (·.stop ≤ n) = [] :=
    List.filter_eq_nil_iff.mpr fun d hd => by simpa using hbeyond d hd
  have hresults : h.results = (f.results ++ new).filter (·.stop ≤ n) := by
    rw [List.filter_append, hnone, List.append_nil, hf.results]
  split
  · exact hf.toAlternative hstart hresults alternatives
  · rename_i cap hcap
    have hall := hbound.resolve_left (by simp [hcap])
    have hnil : new = [] := List.eq_nil_iff_forall_not_mem.mpr fun d hd =>
      absurd (hall d (List.mem_append_right _ hd)) (Nat.not_le.mpr (hbeyond d hd))
    rw [if_neg (by simpa [hnil] using hroom cap hcap)]
    exact hf.toAlternative hstart hresults alternatives

/-- A strand beyond `n` is continued beyond `n`, and the other frame does not see it. -/
theorem continued_beyond (hf : Trims n f h) {strand : Strand} {pending next : List Strand}
    (hp : f.pending = strand :: pending) (hpos : n < strand.pos)
    (hnext : ∀ s ∈ next, n < s.pos) : Trims n (f.continued pending next) h := by
  have hnone : next.filter (·.pos ≤ n) = [] :=
    List.filter_eq_nil_iff.mpr fun s hs => by simpa using hnext s hs
  refine ⟨hf.key, hf.path, hf.cut, hf.results, hf.alternatives, ?_⟩
  rcases hf.strands with hab | hwaits
  · refine .inl ⟨hab.elements, ?_, ?_⟩
    · rw [hab.pending, hp, List.filter_cons_of_neg (by simpa using hpos)]
      rfl
    · rw [hab.advanced, Frame.continued, List.filter_append, hnone, List.append_nil]
  · refine .inr ⟨hwaits.elements, hwaits.pending, hwaits.advanced, ?_⟩
    have hbeyond := hwaits.beyond
    rw [hp, List.cons_append, List.forall_mem_cons, List.forall_mem_append] at hbeyond
    obtain ⟨-, hpending, hadvanced⟩ := hbeyond
    exact List.forall_mem_append.mpr ⟨hpending, List.forall_mem_append.mpr ⟨hadvanced, hnext⟩⟩

/-- A strand that is not beyond `n` is at the head of both frames. -/
theorem abreast_of_le (hf : Trims n f h) {strand : Strand} {pending : List Strand}
    (hp : f.pending = strand :: pending) (hpos : strand.pos ≤ n) :
    Abreast n f h ∧ h.pending = strand :: pending.filter (·.pos ≤ n) := by
  rcases hf.strands with hab | hwaits
  · exact ⟨hab, by rw [hab.pending, hp, List.filter_cons_of_pos (by simpa using hpos)]⟩
  · have hbeyond := hwaits.beyond strand (by simp [hp])
    omega

theorem continued (hf : Trims n f h) (hab : Abreast n f h) (pending : List Strand)
    {next next' : List Strand} (hnext : next' = next.filter (·.pos ≤ n)) :
    Trims n (f.continued pending next) (h.continued (pending.filter (·.pos ≤ n)) next') := by
  refine ⟨hf.key, hf.path, hf.cut, hf.results, hf.alternatives, .inl ⟨hab.elements, rfl, ?_⟩⟩
  rw [Frame.continued, Frame.continued, List.filter_append, hab.advanced, hnext]

/-- The first frame comes to the next element or alternative, the second one to the next alternative
as soon as it has no strand left. -/
theorem pass (hf : Trims n f h) (hstart : f.key.start ≤ n) {pattern : Pattern}
    {alternatives : List Pattern} {element : Element} {elements : List Element}
    (ha : f.alternatives = pattern :: alternatives) (he : f.elements = element :: elements)
    (hp : f.pending = []) :
    let next := if f.advanced.isEmpty then f.toAlternative alternatives else f.toElement elements
    Trims n next h ∨ ∃ g', h.Moves parser trimmed g' ∧ Trims n next g' := by
  intro next
  have ha' := hf.alternatives.trans ha
  have hturn := hf.toAlternative hstart hf.results alternatives
  by_cases hadvanced : f.advanced = []
  · have hnext : next = f.toAlternative alternatives := if_pos (by simp [hadvanced])
    rw [hnext]
    rcases hf.strands with hab | hwaits
    · refine .inr ⟨_, .pass ha' (hab.elements.trans he) (by simp [hab.pending, hp]), ?_⟩
      rw [if_pos (by simp [hab.advanced, hadvanced])]
      exact hturn
    · obtain ⟨element', elements', he'⟩ := List.exists_cons_of_ne_nil hwaits.elements
      refine .inr ⟨_, .pass ha' he' hwaits.pending, ?_⟩
      rw [if_pos (by simp [hwaits.advanced])]
      exact hturn
  · have hnext : next = f.toElement elements := if_neg (by simpa using hadvanced)
    rw [hnext]
    have hwait : (h.elements ≠ [] ∧ h.pending = [] ∧ h.advanced = []) →
        (∀ strand ∈ f.advanced, n < strand.pos) → Trims n (f.toElement elements) h := by
      intro ⟨hne, hpending, hnone⟩ hbeyond
      exact ⟨hf.key, hf.path, hf.cut, hf.results, hf.alternatives,
        .inr ⟨hne, hpending, hnone, by simpa [toElement] using hbeyond⟩⟩
    rcases hf.strands with hab | hwaits
    · by_cases hleft : h.advanced = []
      · refine .inl (hwait ⟨by simp [hab.elements, he], by simp [hab.pending, hp], hleft⟩ ?_)
        rw [hab.advanced, List.filter_eq_nil_iff] at hleft
        exact fun strand hstrand => by simpa using hleft strand hstrand
      · refine .inr ⟨_, .pass ha' (hab.elements.trans he) (by simp [hab.pending, hp]), ?_⟩
        rw [if_neg (by simpa using hleft)]
        exact ⟨hf.key, hf.path, hf.cut, hf.results, hf.alternatives,
          .inl ⟨rfl, hab.advanced, rfl⟩⟩
    · exact .inl (hwait ⟨hwaits.elements, hwaits.pending, hwaits.advanced⟩
        fun strand hstrand => hwaits.beyond strand (List.mem_append_right _ hstrand))

/-- What the first frame does without a call, the second one does too, or it waits. -/
theorem move (hspace : sentence.AddsSpace trimmed) (hf : Trims trimmed.length f h)
    (hstart : f.key.start ≤ trimmed.length)
    (hbound : parser.cap = none ∨ (f.elements = [] → ∀ d ∈ f.results ++
      f.pending.filterMap (·.finish? (parser.grammar.nameOf f.key.symbol) f.key),
        d.stop ≤ trimmed.length))
    (hroom : ∀ cap, parser.cap = some cap → f.results.length < cap)
    (m : f.Moves parser sentence g) :
    Trims trimmed.length g h ∨ ∃ g', h.Moves parser trimmed g' ∧ Trims trimmed.length g g' := by
  cases m with
  | finish ha he =>
    have hbound := hbound.imp_right fun h => h he
    have ha' := hf.alternatives.trans ha
    rcases hf.strands with hab | hwaits
    · exact .inr ⟨_, .finish ha' (hab.elements.trans he),
        hf.finishAlternative hab hstart hbound _⟩
    · obtain ⟨element, elements, he'⟩ := List.exists_cons_of_ne_nil hwaits.elements
      refine .inr ⟨_, .pass ha' he' hwaits.pending, ?_⟩
      rw [if_pos (by simp [hwaits.advanced])]
      exact hf.finishAlternative_of_waits hwaits hstart hbound hroom _
  | @pass _ alternatives element elements ha he hp => exact hf.pass hstart ha he hp
  | @literal _ _ text _ strand pending ha he hp =>
    by_cases hpos : strand.pos ≤ trimmed.length
    · obtain ⟨hab, hp'⟩ := hf.abreast_of_le hp hpos
      exact .inr ⟨_, .literal (hf.alternatives.trans ha) (hab.elements.trans he) hp',
        hf.continued hab pending (Strand.filter_literal? hspace hpos text)⟩
    · refine .inl (hf.continued_beyond hp (Nat.not_le.mp hpos) fun s hs => ?_)
      have hpasses : strand.Passes parser sentence (fun _ _ => False) (.literal text) s :=
        .literal (Option.mem_toList.mp hs)
      exact Nat.lt_of_lt_of_le (Nat.not_le.mp hpos) (hpasses.pos_le fun _ _ h => h.elim)
  | @word _ _ term _ strand pending ha he hp ht =>
    by_cases hpos : strand.pos ≤ trimmed.length
    · obtain ⟨hab, hp'⟩ := hf.abreast_of_le hp hpos
      refine .inr ⟨_, .word (hf.alternatives.trans ha) (hab.elements.trans he) hp' ht,
        hf.continued hab pending ?_⟩
      rw [leavesAt_trimmed hspace hpos]
      refine (filter_filterMap_eq (fun leaf next hnext => ?_) _).symm
      rw [Strand.pos_of_word? hnext]
    · refine .inl (hf.continued_beyond hp (Nat.not_le.mp hpos) fun s hs => ?_)
      obtain ⟨leaf, hleaf, hs⟩ := List.mem_filterMap.mp hs
      have hpasses : strand.Passes parser sentence (fun _ _ => False) (.term term) s :=
        .word ht hleaf hs
      exact Nat.lt_of_lt_of_le (Nat.not_le.mp hpos) (hpasses.pos_le fun _ _ h => h.elim)

end Trims

end Frame

end Concord
