import Concord.Proofs.Strand

namespace Concord

/-- An expansion that is going on below the expansions of `path`, the innermost first. `cut` are the
keys of `path` that cut it short, or one that it called. -/
structure Frame where
  key : Key
  path : List Key
  alternatives : List Pattern
  elements : List Element
  pending : List Strand
  advanced : List Strand
  results : List Derivation
  cut : List Key

namespace Frame

/-- Turns to the first of some alternatives whose guard is met. -/
def toAlternative (f : Frame) (alternatives : List Pattern) : Frame :=
  match alternatives.dropWhile (!·.admits f.key.inherited) with
  | [] => { f with alternatives := [], elements := [], pending := [], advanced := [] }
  | pattern :: rest =>
    { f with
      alternatives := pattern :: rest
      elements := pattern.elements
      pending := [.start f.key.start pattern]
      advanced := [] }

def start (grammar : Grammar) (path : List Key) (key : Key) : Frame :=
  toAlternative ⟨key, path, [], [], [], [], [], []⟩ (grammar.alternatives key.symbol)

def toElement (f : Frame) (elements : List Element) : Frame :=
  { f with elements, pending := f.advanced, advanced := [] }

def continued (f : Frame) (pending next : List Strand) : Frame :=
  { f with pending, advanced := f.advanced ++ next }

def finishAlternative (f : Frame) (parser : Parser) (alternatives : List Pattern) : Frame :=
  let name := parser.grammar.nameOf f.key.symbol
  let results := f.results ++ f.pending.filterMap (·.finish? name f.key)
  match parser.cap with
  | none => { f with results }.toAlternative alternatives
  | some cap =>
    if cap ≤ results.length then
      { f with results := results.take cap }.toAlternative []
    else
      { f with results }.toAlternative alternatives

def callee? (f : Frame) : Option Key :=
  match f.alternatives, f.elements, f.pending with
  | _ :: _, .term term :: _, strand :: _ => term.target.map (strand.callee · term)
  | _, _, _ => none

/-- The strand that waits for the call is continued by the answer. -/
def receive (f : Frame) (answer : List Derivation) (cut : List Key) : Frame :=
  let f := { f with cut := f.cut ++ cut.filter (· ≠ f.key) }
  match f.elements, f.pending with
  | .term term :: _, strand :: pending =>
    f.continued pending (answer.filterMap (strand.phrase? term))
  | _, _ => f

/-- A step without a call. -/
inductive Moves (parser : Parser) (sentence : Sentence) (f : Frame) : Frame → Prop where
  | finish {pattern : Pattern} {alternatives : List Pattern}
      (ha : f.alternatives = pattern :: alternatives) (he : f.elements = []) :
      Moves parser sentence f (f.finishAlternative parser alternatives)
  | pass {pattern : Pattern} {alternatives : List Pattern} {element : Element}
      {elements : List Element} (ha : f.alternatives = pattern :: alternatives)
      (he : f.elements = element :: elements) (hp : f.pending = []) :
      Moves parser sentence f
        (if f.advanced.isEmpty then f.toAlternative alternatives else f.toElement elements)
  | literal {pattern : Pattern} {alternatives : List Pattern} {text : Text}
      {elements : List Element} {strand : Strand} {pending : List Strand}
      (ha : f.alternatives = pattern :: alternatives)
      (he : f.elements = .literal text :: elements) (hp : f.pending = strand :: pending) :
      Moves parser sentence f (f.continued pending (strand.literal? sentence text).toList)
  | word {pattern : Pattern} {alternatives : List Pattern} {term : Term}
      {elements : List Element} {strand : Strand} {pending : List Strand}
      (ha : f.alternatives = pattern :: alternatives) (he : f.elements = .term term :: elements)
      (hp : f.pending = strand :: pending) (ht : term.target = none) :
      Moves parser sentence f
        (f.continued pending
          ((parser.leavesAt sentence strand.pos).filterMap (strand.word? term)))

/-- The strands at the end of the current alternative. -/
def strands? (parser : Parser) (sentence : Sentence) (answers : Answers) (f : Frame) :
    Option (List Strand) :=
  match f.elements with
  | [] => some f.pending
  | element :: elements =>
    (Strand.advanceEach parser sentence answers element f.pending).bind fun next =>
      Strand.advanceAll parser sentence answers elements (f.advanced ++ next)

/-- What the expansion will have found, given the answers to the calls still to come. It stays the
same from one step to the next. -/
def outlook (parser : Parser) (sentence : Sentence) (answers : Answers) (f : Frame) :
    Option (List Derivation) :=
  match f.alternatives with
  | [] => some (parser.limit f.results)
  | _ :: alternatives =>
    (f.strands? parser sentence answers).bind fun strands =>
      (f.key.tryEach parser sentence answers
        (alternatives.filter (·.admits f.key.inherited))).map fun later =>
          parser.limit (f.results ++
            (strands.filterMap (·.finish? (parser.grammar.nameOf f.key.symbol) f.key) ++ later))

/-- The frame with the strands and derivations that consist of what is kept. -/
def view (keep : Derivation → Bool) (f : Frame) : Frame :=
  { f with
    pending := f.pending.filter (·.parts.all keep)
    advanced := f.advanced.filter (·.parts.all keep)
    results := f.results.filter (·.parts.all keep) }

end Frame

theorem filter_dropWhile_not {α : Type _} (p : α → Bool) (xs : List α) :
    (xs.dropWhile (!p ·)).filter p = xs.filter p := by
  induction xs with
  | nil => rfl
  | cons x xs ih =>
    cases hx : p x with
    | true => simp [hx]
    | false => simp [hx, ih]

namespace Strand

variable {parser : Parser} {sentence : Sentence} {answers : Answers}

theorem advanceAll_nil (elements : List Element) :
    advanceAll parser sentence answers elements [] = some [] := by
  induction elements with
  | nil => rfl
  | cons element elements ih => simp [advanceAll, advanceEach, ih]

end Strand

namespace Frame

variable {parser : Parser} {sentence : Sentence} {answers : Answers}
variable {f : Frame} {pattern : Pattern} {alternatives : List Pattern}

theorem outlook_of_cons (ha : f.alternatives = pattern :: alternatives) :
    f.outlook parser sentence answers =
      (f.strands? parser sentence answers).bind fun strands =>
        (f.key.tryEach parser sentence answers
          (alternatives.filter (·.admits f.key.inherited))).map fun later =>
            parser.limit (f.results ++
              (strands.filterMap (·.finish? (parser.grammar.nameOf f.key.symbol) f.key) ++
                later)) := by
  unfold outlook
  rw [ha]

theorem outlook_of_nil (ha : f.alternatives = []) :
    f.outlook parser sentence answers = some (parser.limit f.results) := by
  unfold outlook
  rw [ha]

theorem outlook_toAlternative (f : Frame) (alternatives : List Pattern) :
    (f.toAlternative alternatives).outlook parser sentence answers =
      (f.key.tryEach parser sentence answers
        (alternatives.filter (·.admits f.key.inherited))).map
        fun later => parser.limit (f.results ++ later) := by
  rw [← filter_dropWhile_not]
  unfold toAlternative
  split
  next hd =>
    rw [outlook_of_nil rfl, hd]
    simp [Key.tryEach]
  next p rest hd =>
    have hp : p.admits f.key.inherited = true := by
      have hh := List.head?_dropWhile_not (!·.admits f.key.inherited) alternatives
      simpa [hd] using hh
    have hf : (p :: rest).filter (·.admits f.key.inherited) =
        p :: rest.filter (·.admits f.key.inherited) := List.filter_cons_of_pos hp
    rw [outlook_of_cons rfl, hd, hf]
    cases he : p.elements with
    | nil => simp [strands?, Key.tryEach, Strand.advanceAll, he, Function.comp_def]
    | cons element elements =>
      simp [strands?, Key.tryEach, Strand.advanceAll, he, Option.map_bind, Function.comp_def]

theorem outlook_start (path : List Key) (key : Key) :
    (start parser.grammar path key).outlook parser sentence answers =
      key.expandWith parser sentence answers := by
  unfold start Key.expandWith
  rw [outlook_toAlternative]
  simp only [List.nil_append]

theorem outlook_toElement {element : Element} {elements : List Element}
    (ha : f.alternatives = pattern :: alternatives) (he : f.elements = element :: elements)
    (hp : f.pending = []) :
    (f.toElement elements).outlook parser sentence answers =
      f.outlook parser sentence answers := by
  rw [outlook_of_cons (f := f.toElement elements) ha, outlook_of_cons ha]
  cases elements with
  | nil => simp [strands?, toElement, he, hp, Strand.advanceEach, Strand.advanceAll]
  | cons element' elements =>
    simp [strands?, toElement, he, hp, Strand.advanceEach, Strand.advanceAll]

theorem outlook_toAlternative_of_nil {element : Element} {elements : List Element}
    (ha : f.alternatives = pattern :: alternatives) (he : f.elements = element :: elements)
    (hp : f.pending = []) (hadv : f.advanced = []) :
    (f.toAlternative alternatives).outlook parser sentence answers =
      f.outlook parser sentence answers := by
  rw [outlook_toAlternative, outlook_of_cons ha]
  simp only [strands?, he, hp, hadv, Strand.advanceEach, Strand.advanceAll_nil, Option.bind_some,
    List.filterMap_nil, List.nil_append]

theorem outlook_continued {element : Element} {elements : List Element} {strand : Strand}
    {pending next : List Strand} (ha : f.alternatives = pattern :: alternatives)
    (he : f.elements = element :: elements) (hp : f.pending = strand :: pending)
    (hn : strand.advance parser sentence answers element = some next) :
    (f.continued pending next).outlook parser sentence answers =
      f.outlook parser sentence answers := by
  rw [outlook_of_cons (f := f.continued pending next) ha, outlook_of_cons ha]
  have hs : (f.continued pending next).strands? parser sentence answers =
      f.strands? parser sentence answers := by
    simp only [strands?, continued, he, hp, Strand.advanceEach, hn, List.append_assoc,
      Option.bind_some, Option.bind_map, Function.comp_def]
  rw [hs]
  rfl

/-- With a cap, the alternatives after the last one that counts may call for answers that there are
not. -/
theorem outlook_finishAlternative (ha : f.alternatives = pattern :: alternatives)
    (he : f.elements = [])
    (h : parser.cap = none ∨ f.outlook parser sentence answers ≠ none) :
    (f.finishAlternative parser alternatives).outlook parser sentence answers =
      f.outlook parser sentence answers := by
  rw [outlook_of_cons ha] at h ⊢
  simp only [strands?, he, Option.bind_some] at h ⊢
  unfold finishAlternative
  dsimp only
  split
  next hc =>
    rw [outlook_toAlternative]
    simp only [List.append_assoc]
  next cap hc =>
    split
    next hle =>
      obtain ⟨later, hl⟩ : ∃ later, f.key.tryEach parser sentence answers
          (alternatives.filter (·.admits f.key.inherited)) = some later := by
        rw [hc] at h
        simpa [Option.ne_none_iff_exists'] using h
      rw [outlook_toAlternative, hl]
      simp only [List.filter_nil, Key.tryEach, Option.map_some, Option.some.injEq, Parser.limit, hc,
        List.append_nil, List.take_take, Nat.min_self, ← List.append_assoc]
      rw [List.take_append_of_le_length hle]
    next hlt =>
      rw [outlook_toAlternative]
      simp only [List.append_assoc]

theorem outlook_move {f' : Frame} (m : f.Moves parser sentence f')
    (h : parser.cap = none ∨ f.outlook parser sentence answers ≠ none) :
    f'.outlook parser sentence answers = f.outlook parser sentence answers := by
  cases m with
  | finish ha he => exact outlook_finishAlternative ha he h
  | pass ha he hp =>
    split
    next hadv => exact outlook_toAlternative_of_nil ha he hp (List.isEmpty_iff.mp hadv)
    next => exact outlook_toElement ha he hp
  | literal ha he hp => exact outlook_continued ha he hp rfl
  | word ha he hp ht => exact outlook_continued ha he hp (by simp [Strand.advance, ht])

theorem callee?_eq_some {callee : Key} (hc : f.callee? = some callee) :
    ∃ pattern alternatives term elements strand pending symbol,
      f.alternatives = pattern :: alternatives ∧ f.elements = .term term :: elements ∧
      f.pending = strand :: pending ∧ term.target = some symbol ∧
      strand.callee symbol term = callee ∧ ∀ answer cut, f.receive answer cut =
        { f with cut := f.cut ++ cut.filter (· ≠ f.key) }.continued pending
          (answer.filterMap (strand.phrase? term)) := by
  unfold callee? at hc
  split at hc
  next pattern alternatives term elements strand pending ha he hp =>
    obtain ⟨symbol, ht, hs⟩ := Option.map_eq_some_iff.mp hc
    refine ⟨pattern, alternatives, term, elements, strand, pending, symbol, ha, he, hp, ht, hs, ?_⟩
    intro answer cut
    unfold receive
    dsimp only
    rw [he, hp]
  next => simp at hc

theorem outlook_receive {callee : Key} {answer : List Derivation} (hc : f.callee? = some callee)
    (ha : answers callee = some answer) (cut : List Key) :
    (f.receive answer cut).outlook parser sentence answers =
      f.outlook parser sentence answers := by
  obtain ⟨_, _, term, _, strand, _, symbol, halt, he, hp, ht, rfl, hr⟩ := callee?_eq_some hc
  have hn : strand.advance parser sentence answers (.term term) =
      some (answer.filterMap (strand.phrase? term)) := by
    simp only [Strand.advance, ht, ha, Option.map_some]
  rw [hr]
  exact outlook_continued (f := { f with cut := _ }) halt he hp hn

end Frame

namespace Strand

theorem parts_of_literal? {strand next : Strand} {sentence : Sentence} {text : Text}
    (h : strand.literal? sentence text = some next) : next.parts = strand.parts := by
  obtain ⟨_, _, rfl⟩ := Option.map_eq_some_iff.mp h
  rfl

theorem parts_of_word? {strand next : Strand} {term : Term} {leaf : Leaf}
    (h : strand.word? term leaf = some next) : next.parts = strand.parts ++ [.word leaf] := by
  obtain ⟨_, _, rfl⟩ := Option.map_eq_some_iff.mp h
  rfl

theorem parts_of_phrase? {strand next : Strand} {term : Term} {part : Derivation}
    (h : strand.phrase? term part = some next) : next.parts = strand.parts ++ [part] := by
  obtain ⟨_, _, rfl⟩ := Option.map_eq_some_iff.mp h
  rfl

theorem finish?_eq_some {strand : Strand} {name : Text} {key : Key} {d : Derivation}
    (h : strand.finish? name key = some d) :
    d.parts = strand.parts ∧ d.key? = some key ∧ d.stop = strand.pos := by
  obtain ⟨_, _, rfl⟩ := Option.map_eq_some_iff.mp h
  exact ⟨rfl, rfl, rfl⟩

theorem filter_finish? (keep : Derivation → Bool) (name : Text) (key : Key)
    (strands : List Strand) :
    (strands.filterMap (·.finish? name key)).filter (·.parts.all keep) =
      (strands.filter (·.parts.all keep)).filterMap (·.finish? name key) := by
  rw [List.filter_filterMap, List.filterMap_filter]
  congr 1
  funext strand
  cases h : strand.finish? name key with
  | none => simp
  | some d => simp [Option.filter, (finish?_eq_some h).1]

theorem filter_phrase? {keep : Derivation → Bool} {strand : Strand}
    (hs : strand.parts.all keep = true) (term : Term) (answer : List Derivation) :
    (answer.filterMap (strand.phrase? term)).filter (·.parts.all keep) =
      (answer.filter keep).filterMap (strand.phrase? term) := by
  rw [List.filter_filterMap, List.filterMap_filter]
  congr 1
  funext part
  cases h : strand.phrase? term part with
  | none => simp
  | some next =>
    have hp : next.parts.all keep = keep part := by
      rw [parts_of_phrase? h, List.all_append, hs]
      simp
    simp [Option.filter, hp]

end Strand

namespace Frame

variable {parser : Parser} {sentence : Sentence} {answers : Answers}
variable {f : Frame} {keep : Derivation → Bool}

theorem view_toAlternative (f : Frame) (keep : Derivation → Bool) (alternatives : List Pattern) :
    (f.toAlternative alternatives).view keep = (f.view keep).toAlternative alternatives := by
  unfold toAlternative
  dsimp only [view]
  split
  next => simp
  next => simp [Strand.start]

theorem view_start (grammar : Grammar) (path : List Key) (key : Key) :
    (start grammar path key).view keep = start grammar path key := by
  unfold start
  rw [view_toAlternative]
  rfl

theorem view_finishAlternative (hcap : parser.cap = none) (alternatives : List Pattern) :
    (f.finishAlternative parser alternatives).view keep =
      (f.view keep).finishAlternative parser alternatives := by
  unfold finishAlternative
  simp only [hcap]
  rw [view_toAlternative]
  simp only [view, List.filter_append, Strand.filter_finish?]

/-- A strand that is kept is continued in the view; any other one must have continuations that are
not kept either. -/
theorem outlook_view_continued {pattern : Pattern} {alternatives : List Pattern}
    {element : Element} {elements : List Element} {strand : Strand} {pending next : List Strand}
    (ha : f.alternatives = pattern :: alternatives) (he : f.elements = element :: elements)
    (hp : f.pending = strand :: pending)
    (hkept : strand.parts.all keep = true →
      strand.advance parser sentence answers element = some (next.filter (·.parts.all keep)))
    (hnext : ∀ s ∈ next, ∃ more, s.parts = strand.parts ++ more) :
    ((f.continued pending next).view keep).outlook parser sentence answers =
      (f.view keep).outlook parser sentence answers := by
  by_cases hs : strand.parts.all keep = true
  · have hpv : (f.view keep).pending = strand :: pending.filter (·.parts.all keep) := by
      simp only [view, hp]
      exact List.filter_cons_of_pos hs
    have hv : (f.continued pending next).view keep =
        (f.view keep).continued (pending.filter (·.parts.all keep))
          (next.filter (·.parts.all keep)) := by
      simp only [view, continued, List.filter_append]
    rw [hv]
    exact outlook_continued ha he hpv (hkept hs)
  · have hdrop : next.filter (·.parts.all keep) = [] := by
      rw [List.filter_eq_nil_iff]
      intro s hm hk
      obtain ⟨more, hmore⟩ := hnext s hm
      rw [hmore, List.all_append, Bool.and_eq_true] at hk
      exact hs hk.1
    have hpv : f.pending.filter (·.parts.all keep) = pending.filter (·.parts.all keep) := by
      rw [hp]
      exact List.filter_cons_of_neg hs
    have hv : (f.continued pending next).view keep = f.view keep := by
      simp only [view, continued, List.filter_append, hdrop, hpv, List.append_nil]
    rw [hv]

theorem outlook_view_move {f' : Frame} (hcap : parser.cap = none)
    (hword : ∀ leaf, keep (.word leaf) = true) (m : f.Moves parser sentence f') :
    (f'.view keep).outlook parser sentence answers =
      (f.view keep).outlook parser sentence answers := by
  cases m with
  | finish ha he =>
    rw [view_finishAlternative hcap]
    exact outlook_finishAlternative ha he (.inl hcap)
  | pass ha he hp =>
    have hpv : (f.view keep).pending = [] := by simp [view, hp]
    split
    next hadv =>
      have hav : (f.view keep).advanced = [] := by simp [view, List.isEmpty_iff.mp hadv]
      rw [view_toAlternative]
      exact outlook_toAlternative_of_nil ha he hpv hav
    next => exact outlook_toElement (f := f.view keep) ha he hpv
  | @literal _ _ text _ strand _ ha he hp =>
    have hparts : ∀ s ∈ (strand.literal? sentence text).toList, s.parts = strand.parts :=
      fun s hs => Strand.parts_of_literal? (Option.mem_toList.mp hs)
    refine outlook_view_continued ha he hp (fun hs => ?_) fun s hm => ⟨[], by simp [hparts s hm]⟩
    have hall : (strand.literal? sentence text).toList.filter (·.parts.all keep) =
        (strand.literal? sentence text).toList :=
      List.filter_eq_self.mpr fun s hm => by rw [hparts s hm, hs]
    rw [hall]
    rfl
  | @word _ _ term _ strand _ ha he hp ht =>
    have hparts : ∀ s ∈ (parser.leavesAt sentence strand.pos).filterMap (strand.word? term),
        ∃ leaf, s.parts = strand.parts ++ [.word leaf] := by
      intro s hm
      obtain ⟨leaf, _, hl⟩ := List.mem_filterMap.mp hm
      exact ⟨leaf, Strand.parts_of_word? hl⟩
    refine outlook_view_continued ha he hp (fun hs => ?_) fun s hm =>
      (hparts s hm).elim fun leaf hl => ⟨_, hl⟩
    have hall : ((parser.leavesAt sentence strand.pos).filterMap (strand.word? term)).filter
          (·.parts.all keep) =
        (parser.leavesAt sentence strand.pos).filterMap (strand.word? term) := by
      refine List.filter_eq_self.mpr fun s hm => ?_
      obtain ⟨leaf, hl⟩ := hparts s hm
      rw [hl, List.all_append, hs]
      simp [hword leaf]
    rw [hall]
    simp only [Strand.advance, ht]

theorem outlook_view_receive {callee : Key} {answer : List Derivation}
    (hc : f.callee? = some callee) (ha : answers callee = some (answer.filter keep))
    (cut : List Key) :
    ((f.receive answer cut).view keep).outlook parser sentence answers =
      (f.view keep).outlook parser sentence answers := by
  obtain ⟨_, _, term, _, strand, _, symbol, halt, he, hp, ht, rfl, hr⟩ := callee?_eq_some hc
  rw [hr]
  refine outlook_view_continued (f := { f with cut := _ }) halt he hp (fun hs => ?_) ?_
  · simp only [Strand.advance, ht, ha, Option.map_some, Strand.filter_phrase? hs]
  · intro s hm
    obtain ⟨part, _, hpart⟩ := List.mem_filterMap.mp hm
    exact ⟨[part], Strand.parts_of_phrase? hpart⟩

end Frame

end Concord
