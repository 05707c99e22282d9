import Concord.Proofs.Unification

namespace Concord

namespace Sentence

variable {sentence : Sentence}

theorem slice_eq (sentence : Sentence) (pos count : Nat) :
    sentence.slice pos (pos + count) = (sentence.chars.toList.drop pos).take count := by
  simp [slice]

theorem slice_eq_cons {pos : Nat} {c : Char} {text : Text} :
    sentence.slice pos (pos + (c :: text).length) = c :: text ↔
      sentence.chars[pos]? = some c ∧
        sentence.slice (pos + 1) (pos + 1 + text.length) = text := by
  rw [slice_eq, slice_eq, List.length_cons, ← Array.getElem?_toList]
  by_cases h : pos < sentence.chars.toList.length
  · rw [List.drop_eq_getElem_cons h, List.take_succ_cons, List.getElem?_eq_getElem h]
    simp
  · have hle : sentence.chars.toList.length ≤ pos := Nat.not_lt.mp h
    rw [List.drop_eq_nil_of_le hle, List.getElem?_eq_none hle]
    simp

theorem endOf?_eq_some {pos stop : Nat} {text : Text} :
    sentence.endOf? pos text = some stop ↔
      sentence.slice pos (pos + text.length) = text ∧ stop = pos + text.length := by
  induction text generalizing pos with
  | nil =>
    rw [endOf?, slice_eq, List.length_nil, List.take_zero, Option.some.injEq, Nat.add_zero,
      and_iff_right rfl]
    exact eq_comm
  | cons c text ih =>
    have hlength : pos + (c :: text).length = pos + 1 + text.length := by
      simp only [List.length_cons]
      omega
    rw [endOf?, slice_eq_cons, hlength]
    split
    next h => rw [ih, and_iff_right h]
    next h => simp [h]

end Sentence

theorem Parser.start_of_mem_leavesAt {parser : Parser} {sentence : Sentence} {pos : Nat}
    {leaf : Leaf} (h : leaf ∈ parser.leavesAt sentence pos) : leaf.start = pos := by
  unfold leavesAt at h
  dsimp only at h
  split at h
  next => cases h
  next =>
    rcases List.mem_append.mp h with h | h
    · obtain ⟨entry, -, rfl⟩ := List.mem_map.mp h
      rfl
    · obtain ⟨entry, -, h⟩ := List.mem_filterMap.mp h
      unfold phraseLeaf? at h
      split at h
      next => cases h
      next =>
        split at h
        next => cases h
        next =>
          cases h
          rfl

theorem Branch.handedDown_eq (branch : Branch) (term : Term) :
    branch.handedDown term = term.inherits branch.bindings.get := by
  unfold handedDown Term.inherits
  rw [List.foldl_filterMap]
  congr 1
  funext features clause
  unfold Clause.given?
  match clause.value with
  | .any => rfl
  | .literal value =>
    dsimp only
    split <;> rfl
  | .variable index =>
    dsimp only
    cases branch.bindings.get index with
    | none => rfl
    | some value =>
      by_cases h : value.kind = clause.kind <;> simp [h, Option.filter]

theorem Tiles.append {sentence : Sentence} {elements elements' : List Element}
    {start middle stop : Nat} {slots slots' : List Slot}
    (h : Tiles sentence elements start slots middle)
    (h' : Tiles sentence elements' middle slots' stop) :
    Tiles sentence (elements ++ elements') start (slots ++ slots') stop := by
  induction h with
  | nil => exact h'
  | literal h rest ih => exact .literal h (ih h')
  | term h rest ih => exact .term h (ih h')

namespace Strand

/-- The strand has matched elements with slots. -/
structure Matched (parser : Parser) (sentence : Sentence) (start count : Nat)
    (elements : List Element) (slots : List Slot) (strand : Strand) : Prop where
  parts : strand.parts = slots.map Slot.part
  tiles : Tiles sentence elements start slots strand.pos
  count : strand.bindings.values.length = count
  met : ∀ slot ∈ slots, ∀ clause ∈ slot.term.clauses,
    clause.MetBy strand.bindings.get slot.part
  bound : ∀ index, strand.bindings.get index ≠ none →
    ∃ slot ∈ slots, ∃ clause ∈ slot.term.clauses, clause.binds slot.part index = true
  exports : strand.bindings.exports =
    slots.flatMap fun slot => slot.term.clauses.flatMap (·.exports slot.part)
  stands : ∀ before slot later, slots = before ++ slot :: later →
    slot.Stands parser sentence (Assignment.after strand.bindings.get before)

theorem after_congr {values values' : Assignment} {slots : List Slot}
    (hmet : ∀ slot ∈ slots, ∀ clause ∈ slot.term.clauses, clause.MetBy values slot.part)
    (hle : ∀ index value, values index = some value → values' index = some value) :
    values'.after slots = values.after slots := by
  funext index
  unfold Assignment.after
  split
  next h =>
    obtain ⟨slot, hslot, h⟩ := List.any_eq_true.mp h
    obtain ⟨clause, hclause, hbinds⟩ := List.any_eq_true.mp h
    obtain ⟨value, hvalue⟩ := Option.ne_none_iff_exists'.mp
      ((hmet slot hslot clause hclause).fixes hbinds)
    rw [hvalue, hle index value hvalue]
  next => rfl

variable {parser : Parser} {sentence : Sentence} {first count : Nat} {elements : List Element}
variable {slots : List Slot} {strand next : Strand} {values : Assignment}

theorem Matched.after_eq (h : strand.Matched parser sentence first count elements slots)
    (hw : strand.bindings.Within values) : values.after slots = strand.bindings.get := by
  rw [after_congr h.met hw]
  funext index
  unfold Assignment.after
  split
  next => rfl
  next hany =>
    cases hget : strand.bindings.get index with
    | none => rfl
    | some value =>
      obtain ⟨slot, hslot, clause, hclause, hbinds⟩ := h.bound index (by simp [hget])
      exact absurd (List.any_eq_true.mpr
        ⟨slot, hslot, List.any_eq_true.mpr ⟨clause, hclause, hbinds⟩⟩) hany

theorem Matched.start (parser : Parser) (sentence : Sentence) (pos : Nat) (pattern : Pattern) :
    (Strand.start pos pattern).Matched parser sentence pos pattern.variableCount [] [] := by
  refine ⟨rfl, .nil, by simp [Strand.start, Bindings.fresh], by simp, fun index hne => ?_, rfl, ?_⟩
  · refine absurd ?_ hne
    simp only [Strand.start, Bindings.fresh, Bindings.get, List.getD_eq_getElem?_getD,
      List.getElem?_replicate]
    split <;> rfl
  · intro before slot later h
    simp at h

theorem Matched.literal (h : strand.Matched parser sentence first count elements slots)
    {text : Text} (hl : strand.literal? sentence text = some next) :
    next.Matched parser sentence first count (elements ++ [.literal text]) slots := by
  obtain ⟨pos, hpos, rfl⟩ := Option.map_eq_some_iff.mp hl
  obtain ⟨hslice, rfl⟩ := Sentence.endOf?_eq_some.mp hpos
  refine ⟨h.parts, ?_, h.count, h.met, h.bound, h.exports, h.stands⟩
  simpa using h.tiles.append (.literal hslice .nil)

theorem Matched.follow (h : strand.Matched parser sentence first count elements slots)
    {term : Term} {part : Derivation} {b : Bindings}
    (hstands : Slot.Stands parser sentence strand.bindings.get ⟨term, part⟩)
    (hstart : part.start = strand.pos)
    (hunified : Unified term.clauses part strand.bindings b) :
    (strand.follow part b).Matched parser sentence first count (elements ++ [.term term])
      (slots ++ [⟨term, part⟩]) := by
  refine ⟨?_, ?_, hunified.length.trans h.count, ?_, ?_, ?_, ?_⟩
  · simp [Strand.follow, h.parts]
  · exact h.tiles.append (.term hstart .nil)
  · intro slot hslot clause hclause
    rcases List.mem_append.mp hslot with hslot | hslot
    · exact (h.met slot hslot clause hclause).mono hunified.within
    · cases List.mem_singleton.mp hslot
      exact hunified.met clause hclause
  · intro index hne
    rcases hunified.bound index hne with hne | ⟨clause, hclause, hbinds⟩
    · obtain ⟨slot, hslot, hbound⟩ := h.bound index hne
      exact ⟨slot, List.mem_append_left _ hslot, hbound⟩
    · exact ⟨⟨term, part⟩, by simp, clause, hclause, hbinds⟩
  · simp [Strand.follow, hunified.exports, h.exports]
  · intro before slot later hsplit
    have hw := hunified.within
    rcases List.eq_nil_or_concat later with rfl | ⟨later, last, rfl⟩
    · obtain ⟨hbefore, hslot⟩ := List.append_inj' hsplit rfl
      cases hslot
      rw [← hbefore]
      change Slot.Stands parser sentence (Assignment.after b.get slots) ⟨term, part⟩
      rwa [h.after_eq hw]
    · rw [List.concat_eq_append, ← List.cons_append, ← List.append_assoc] at hsplit
      obtain ⟨hbefore, -⟩ := List.append_inj' hsplit rfl
      have hmet : ∀ slot ∈ before, ∀ clause ∈ slot.term.clauses,
          clause.MetBy strand.bindings.get slot.part :=
        fun slot hslot => h.met slot (hbefore ▸ List.mem_append_left _ hslot)
      change slot.Stands parser sentence (Assignment.after b.get before)
      rw [after_congr hmet hw]
      exact h.stands before slot later hbefore

theorem Matched.passes (h : strand.Matched parser sentence first count elements slots)
    {element : Element} (hp : strand.Passes parser sentence Key.IsKeyOf element next)
    (hs : ∀ term, element = .term term → Clause.ScopedAll term.clauses strand.bindings) :
    ∃ more, next.Matched parser sentence first count (elements ++ [element]) (slots ++ more) := by
  cases hp with
  | literal hl => exact ⟨[], by simpa using h.literal hl⟩
  | @word term leaf _ ht hl hw =>
    obtain ⟨b, hb, rfl⟩ := Option.map_eq_some_iff.mp hw
    have hstart := Parser.start_of_mem_leavesAt hl
    have hstands : Slot.Stands parser sentence strand.bindings.get ⟨term, .word leaf⟩ :=
      ⟨ht, by rwa [hstart]⟩
    exact ⟨_, h.follow hstands hstart (Clause.unifyAll_sound hb (hs term rfl))⟩
  | @phrase term symbol part _ ht hkey hp =>
    obtain ⟨b, hb, rfl⟩ := Option.map_eq_some_iff.mp hp
    cases part with
    | word leaf => cases hkey
    | expansion name key stop features parts =>
      cases hkey
      have hstands : Slot.Stands parser sentence strand.bindings.get
          ⟨term, .expansion name (strand.callee symbol term) stop features parts⟩ :=
        ⟨ht, Branch.handedDown_eq _ _⟩
      exact ⟨_, h.follow hstands rfl (Clause.unifyAll_sound hb (hs term rfl))⟩

def ScopedElements (elements : List Element) (count : Nat) : Prop :=
  ∀ term, .term term ∈ elements → ∀ clause ∈ term.clauses, ∀ index,
    clause.value = .variable index → index < count

theorem Matched.passesAll (h : strand.Matched parser sentence first count elements slots)
    {later : List Element} {last : Strand}
    (hp : PassesAll parser sentence Key.IsKeyOf later strand last)
    (hs : ScopedElements later count) :
    ∃ more, last.Matched parser sentence first count (elements ++ later) (slots ++ more) := by
  induction later generalizing elements slots strand with
  | nil =>
    cases hp
    exact ⟨[], by simpa using h⟩
  | cons element later ih =>
    obtain ⟨next, hnext, hlast⟩ := hp
    have hscoped : ∀ term, element = .term term →
        Clause.ScopedAll term.clauses strand.bindings := by
      rintro term rfl clause hc index hv
      rw [h.count]
      exact hs term List.mem_cons_self clause hc index hv
    obtain ⟨more, hmore⟩ := h.passes hnext hscoped
    obtain ⟨more', hmore'⟩ := ih hmore hlast fun term ht => hs term (List.mem_cons_of_mem _ ht)
    exact ⟨more ++ more', by simpa using hmore'⟩

/-- A strand within an assignment comes through a slot that the assignment meets. -/
theorem Matched.passes_slot (h : strand.Matched parser sentence first count elements slots)
    (hw : strand.bindings.Within values) {slot : Slot} (hstart : slot.part.start = strand.pos)
    (hstands : slot.Stands parser sentence (values.after slots))
    (hmet : ∀ clause ∈ slot.term.clauses, clause.MetBy values slot.part)
    (hs : Clause.ScopedAll slot.term.clauses strand.bindings) :
    ∃ next, strand.Passes parser sentence Key.IsKeyOf (.term slot.term) next ∧
      next.Matched parser sentence first count (elements ++ [.term slot.term])
        (slots ++ [slot]) ∧ next.bindings.Within values ∧ next.pos = slot.part.stop := by
  obtain ⟨b, hb, hwb⟩ := Clause.unifyAll_complete hw hmet hs
  have hunified := Clause.unifyAll_sound hb hs
  rw [h.after_eq hw] at hstands
  refine ⟨strand.follow slot.part b, ?_, h.follow hstands hstart hunified, hwb, rfl⟩
  obtain ⟨term, part⟩ := slot
  cases part with
  | word leaf =>
    obtain ⟨ht, hl⟩ := hstands
    rw [show leaf.start = strand.pos from hstart] at hl
    exact .word ht hl (Option.map_eq_some_iff.mpr ⟨b, hb, rfl⟩)
  | expansion name key stop features parts =>
    obtain ⟨ht, hinherited⟩ := hstands
    have hnext : strand.phrase? term (.expansion name key stop features parts) =
        some (strand.follow (.expansion name key stop features parts) b) :=
      Option.map_eq_some_iff.mpr ⟨b, hb, rfl⟩
    refine .phrase ht ?_ hnext
    obtain ⟨symbol, start, inherited⟩ := key
    rw [show start = strand.pos from hstart, show inherited = _ from hinherited]
    exact congrArg (fun inherited => some (Key.mk symbol strand.pos inherited))
      (Branch.handedDown_eq strand.branch term).symm

theorem Matched.complete (h : strand.Matched parser sentence first count elements slots)
    (hw : strand.bindings.Within values) {later : List Element} {more : List Slot} {stop : Nat}
    (htiles : Tiles sentence later strand.pos more stop)
    (hstands : ∀ before slot rest, more = before ++ slot :: rest →
      slot.Stands parser sentence (values.after (slots ++ before)))
    (hmet : ∀ slot ∈ more, ∀ clause ∈ slot.term.clauses, clause.MetBy values slot.part)
    (hs : ScopedElements later count) :
    ∃ last, PassesAll parser sentence Key.IsKeyOf later strand last ∧
      last.Matched parser sentence first count (elements ++ later) (slots ++ more) ∧
      last.bindings.Within values ∧ last.pos = stop := by
  induction later generalizing elements slots strand more with
  | nil =>
    cases htiles
    exact ⟨strand, rfl, by simpa using h, hw, rfl⟩
  | cons element later ih =>
    have hs' : ScopedElements later count :=
      fun term ht => hs term (List.mem_cons_of_mem _ ht)
    cases htiles with
    | @literal text _ _ _ _ hslice htiles =>
      have hnext : strand.literal? sentence text =
          some { strand with pos := strand.pos + text.length } :=
        Option.map_eq_some_iff.mpr ⟨_, Sentence.endOf?_eq_some.mpr ⟨hslice, rfl⟩, rfl⟩
      obtain ⟨last, hpasses, hlast, hwl, hstop⟩ :=
        ih (h.literal hnext) hw htiles hstands hmet hs'
      exact ⟨last, ⟨_, .literal hnext, hpasses⟩, by simpa using hlast, hwl, hstop⟩
    | @term term part _ _ _ more hstart htiles =>
      have hscoped : Clause.ScopedAll term.clauses strand.bindings := by
        intro clause hc index hv
        rw [h.count]
        exact hs term List.mem_cons_self clause hc index hv
      have hfirst : Slot.Stands parser sentence (values.after slots) ⟨term, part⟩ := by
        simpa using hstands [] ⟨term, part⟩ more rfl
      obtain ⟨next, hnext, hmatched, hwn, hpos⟩ :=
        h.passes_slot hw hstart hfirst (hmet _ List.mem_cons_self) hscoped
      obtain ⟨last, hpasses, hlast, hwl, hstop⟩ := ih hmatched hwn (hpos ▸ htiles)
        (fun before slot rest hsplit => by
          simpa using hstands (⟨term, part⟩ :: before) slot rest (by rw [hsplit, List.cons_append]))
        (fun slot hslot => hmet slot (List.mem_cons_of_mem _ hslot)) hs'
      exact ⟨last, ⟨next, hnext, hpasses⟩, by simpa using hlast, hwl, hstop⟩

theorem Matched.mem_exports (h : strand.Matched parser sentence first count elements slots)
    {exported : Export} : exported ∈ strand.bindings.exports ↔
      ∃ slot ∈ slots, ∃ clause ∈ slot.term.clauses,
        clause.exported = true ∧ clause.export? slot.part = some exported := by
  simp only [h.exports, List.mem_flatMap, Clause.mem_exports]

/-- The features of a finished strand are the ones that its slots export. -/
theorem Matched.features?_eq_some
    (h : strand.Matched parser sentence first count elements slots) {features : Features} :
    strand.bindings.features? = some features ↔
      (∀ slot ∈ slots, ∀ clause ∈ slot.term.clauses, clause.exported = true →
        ∃ value, clause.exportOf? strand.bindings.get slot.part = some value ∧
          features.get value.kind = some value) ∧
      ∀ value, features.get value.kind = some value →
        ∃ slot ∈ slots, ∃ clause ∈ slot.term.clauses, clause.exported = true ∧
          clause.exportOf? strand.bindings.get slot.part = some value := by
  rw [Bindings.features?_eq_some]
  refine and_congr ⟨fun hall slot hslot clause hclause he => ?_, fun hall exported he => ?_⟩
    (forall_congr' fun value => imp_congr_right fun _ => ⟨?_, ?_⟩)
  · obtain ⟨exported, hexported⟩ := (h.met slot hslot clause hclause).export?
    obtain ⟨value, hvalue, hget⟩ :=
      hall exported (h.mem_exports.mpr ⟨slot, hslot, clause, hclause, he, hexported⟩)
    exact ⟨value, by rw [Clause.exportOf?_eq, hexported, Option.bind_some, hvalue], hget⟩
  · obtain ⟨slot, hslot, clause, hclause, he, hexported⟩ := h.mem_exports.mp he
    obtain ⟨value, hvalue, hget⟩ := hall slot hslot clause hclause he
    rw [Clause.exportOf?_eq, hexported, Option.bind_some] at hvalue
    exact ⟨value, hvalue, hget⟩
  · rintro ⟨exported, he, hvalue⟩
    obtain ⟨slot, hslot, clause, hclause, he, hexported⟩ := h.mem_exports.mp he
    refine ⟨slot, hslot, clause, hclause, he, ?_⟩
    rw [Clause.exportOf?_eq, hexported, Option.bind_some, hvalue]
  · rintro ⟨slot, hslot, clause, hclause, he, hvalue⟩
    rw [Clause.exportOf?_eq] at hvalue
    obtain ⟨exported, hexported, hvalue⟩ := Option.bind_eq_some_iff.mp hvalue
    exact ⟨exported, h.mem_exports.mpr ⟨slot, hslot, clause, hclause, he, hexported⟩, hvalue⟩

end Strand

theorem Pattern.Scoped.elements {pattern : Pattern} (h : pattern.Scoped) :
    Strand.ScopedElements pattern.elements pattern.variableCount := by
  intro term ht
  exact h term (List.mem_filterMap.mpr ⟨_, ht, rfl⟩)

/-- A strand comes through all elements of an alternative and is finished with some features if
there is a matching with them. -/
theorem Strand.passesAll_iff {parser : Parser} {sentence : Sentence} {pattern : Pattern}
    (hscoped : pattern.Scoped) {pos stop : Nat} {features : Features} {parts : List Derivation} :
    (∃ strand, PassesAll parser sentence Key.IsKeyOf pattern.elements (.start pos pattern) strand ∧
      strand.bindings.features? = some features ∧ strand.pos = stop ∧ strand.parts = parts) ↔
    ∃ slots values, slots.map Slot.part = parts ∧
      Matching parser sentence pattern pos stop features slots values := by
  have hstart := Strand.Matched.start parser sentence pos pattern
  constructor
  · rintro ⟨strand, hpasses, hfeatures, rfl, rfl⟩
    obtain ⟨slots, h⟩ := hstart.passesAll hpasses hscoped.elements
    rw [List.nil_append, List.nil_append] at h
    obtain ⟨hexported, honly⟩ := h.features?_eq_some.mp hfeatures
    exact ⟨slots, strand.bindings.get, h.parts.symm,
      h.tiles, h.stands, h.met, h.bound, hexported, honly⟩
  · rintro ⟨slots, values, rfl, m⟩
    have hw : (Strand.start pos pattern).bindings.Within values := by
      intro index value hv
      obtain ⟨slot, hslot, -⟩ := hstart.bound index (by simp [hv])
      cases hslot
    obtain ⟨last, hpasses, h, hwl, hstop⟩ := hstart.complete hw m.tiles
      (by simpa using m.stands) m.met hscoped.elements
    rw [List.nil_append, List.nil_append] at h
    have hvalues : values = last.bindings.get := by
      rw [← h.after_eq hwl]
      funext index
      unfold Assignment.after
      split
      next => rfl
      next hany =>
        cases hv : values index with
        | none => rfl
        | some value =>
          obtain ⟨slot, hslot, clause, hclause, hbinds⟩ := m.bound index (by simp [hv])
          exact absurd (List.any_eq_true.mpr
            ⟨slot, hslot, List.any_eq_true.mpr ⟨clause, hclause, hbinds⟩⟩) hany
    have hfeatures : last.bindings.features? = some features := by
      rw [h.features?_eq_some, ← hvalues]
      exact ⟨m.exported, m.only⟩
    exact ⟨last, hpasses, hfeatures, hstop, h.parts⟩

variable {parser : Parser} {sentence : Sentence}

theorem Grammar.Scoped.alternatives {grammar : Grammar} (h : grammar.Scoped) {symbol : Nat}
    {pattern : Pattern} (hp : pattern ∈ grammar.alternatives symbol) : pattern.Scoped := by
  unfold Grammar.alternatives at hp
  split at hp
  next s hs => exact h s (Array.mem_of_getElem? hs) pattern hp
  next => cases hp

theorem Key.builds_iff (hscoped : parser.grammar.Scoped) {key : Key} {name : Text} {stop : Nat}
    {features : Features} {parts : List Derivation} :
    key.Builds parser sentence Key.IsKeyOf (.expansion name key stop features parts) ↔
      name = parser.grammar.nameOf key.symbol ∧
      ∃ pattern ∈ parser.grammar.alternatives key.symbol,
        pattern.admits key.inherited = true ∧ ∃ slots values, slots.map Slot.part = parts ∧
          Matching parser sentence pattern key.start stop features slots values := by
  constructor
  · rintro ⟨pattern, hp, hadmits, strand, hpasses, hfinish⟩
    obtain ⟨features', hfeatures, heq⟩ := Option.map_eq_some_iff.mp hfinish
    cases heq
    exact ⟨rfl, pattern, hp, hadmits,
      (Strand.passesAll_iff (hscoped.alternatives hp)).mp ⟨strand, hpasses, hfeatures, rfl, rfl⟩⟩
  · rintro ⟨rfl, pattern, hp, hadmits, h⟩
    obtain ⟨strand, hpasses, hfeatures, rfl, rfl⟩ :=
      (Strand.passesAll_iff (hscoped.alternatives hp)).mpr h
    exact ⟨pattern, hp, hadmits, strand, hpasses,
      Option.map_eq_some_iff.mpr ⟨features, hfeatures, rfl⟩⟩

namespace Derivation

/-- A derivation is valid if it is built from derivations of the right keys that are valid. -/
theorem valid_iff (hscoped : parser.grammar.Scoped) {key : Key} {d : Derivation}
    (hkey : d.key? = some key) :
    d.Valid parser sentence ↔ key.Builds parser sentence Key.IsKeyOf d ∧
      ∀ part ∈ d.parts, part.Valid parser sentence := by
  cases d with
  | word leaf => cases hkey
  | expansion name k stop features parts =>
    cases hkey
    rw [Key.builds_iff hscoped, Valid, and_assoc]
    rfl

end Derivation

end Concord
