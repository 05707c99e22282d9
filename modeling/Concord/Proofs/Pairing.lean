import Concord.Proofs.History
import Concord.Proofs.Inversion
import Mathlib.Data.List.Forall2
import Mathlib.Logic.Relator

namespace Concord

section related

variable {α β γ δ : Type} {r : α → β → Prop} {q : γ → δ → Prop}

theorem rel_map_option {f : α → γ} {g : β → δ} {x : Option α} {y : Option β}
    (hfg : ∀ a b, r a b → q (f a) (g b)) (h : Option.Rel r x y) :
    Option.Rel q (x.map f) (y.map g) := by
  cases h with
  | none => exact .none
  | some h => exact .some (hfg _ _ h)

theorem rel_toList {x : Option α} {y : Option β} (h : Option.Rel r x y) :
    List.Forall₂ r x.toList y.toList := by
  cases h with
  | none => exact .nil
  | some h => exact .cons h .nil

theorem rel_eq_none_iff {x : Option α} {y : Option β} (h : Option.Rel r x y) :
    x = none ↔ y = none := by
  cases h with
  | none => simp
  | some h => simp

theorem rel_of_eq_some {x : Option α} {y : Option β} {a : α} (h : Option.Rel r x y)
    (hx : x = some a) : ∃ b, y = some b ∧ r a b := by
  cases h with
  | none => cases hx
  | some h =>
    cases hx
    exact ⟨_, rfl, h⟩

theorem rel_nil_iff {xs : List α} {ys : List β} (h : List.Forall₂ r xs ys) :
    xs = [] ↔ ys = [] := by
  cases h with
  | nil => simp
  | cons => simp

theorem rel_of_eq_cons {xs rest : List α} {ys : List β} {a : α} (h : List.Forall₂ r xs ys)
    (hx : xs = a :: rest) : ∃ b rest', ys = b :: rest' ∧ r a b ∧ List.Forall₂ r rest rest' := by
  rw [hx, List.forall₂_cons_left_iff] at h
  obtain ⟨b, rest', hab, hrest, hys⟩ := h
  exact ⟨b, rest', hys, hab, hrest⟩

theorem rel_dropWhile {p : α → Bool} {q : β → Bool} (hpq : ∀ a b, r a b → p a = q b)
    {xs : List α} {ys : List β} (h : List.Forall₂ r xs ys) :
    List.Forall₂ r (xs.dropWhile p) (ys.dropWhile q) := by
  induction h with
  | nil => exact .nil
  | @cons a b _ _ hab hrest ih =>
    rw [List.dropWhile_cons, List.dropWhile_cons, hpq a b hab]
    split
    · exact ih
    · exact .cons hab hrest

theorem map_eq_of_forall₂ {f : α → γ} {g : β → γ} {xs : List α} {ys : List β}
    (h : List.Forall₂ r xs ys) (hfg : ∀ x ∈ xs, ∀ y, r x y → f x = g y) :
    xs.map f = ys.map g := by
  induction h with
  | nil => rfl
  | cons hxy _ ih =>
    obtain ⟨hhead, htail⟩ := List.forall_mem_cons.mp hfg
    rw [List.map_cons, List.map_cons, hhead _ hxy, ih htail]

theorem biUnique_eq : Relator.BiUnique ((· = ·) : α → α → Prop) :=
  ⟨fun _ _ _ h h' => h.trans h'.symm, fun _ _ _ h h' => h.symm.trans h'⟩

end related

/-- Which symbols of two grammars and which positions in two sentences correspond. -/
structure Pairing where
  symbols : Nat → Nat → Prop
  positions : Nat → Nat → Prop

/-- The tree with every position moved. -/
def Tree.move (r : Nat → Nat) : Tree → Tree
  | .leaf ⟨start, stop, features⟩ => .leaf ⟨r start, r stop, features⟩
  | .phrase name start stop features children =>
    .phrase name (r start) (r stop) features (children.map (move r))

theorem Tree.move_id : ∀ tree : Tree, tree.move id = tree
  | .leaf ⟨start, stop, features⟩ => by rw [move, id, id]
  | .phrase name start stop features children => by
    have hchildren : children.map (move id) = children.map id :=
      List.map_congr_left fun child _ => move_id child
    rw [move, hchildren, List.map_id, id, id]

namespace Pairing

section relations

variable (P : Pairing)

structure Keys (key key' : Key) : Prop where
  symbol : P.symbols key.symbol key'.symbol
  start : P.positions key.start key'.start
  inherited : key.inherited = key'.inherited

structure Leaves (leaf leaf' : Leaf) : Prop where
  start : P.positions leaf.start leaf'.start
  stop : P.positions leaf.stop leaf'.stop
  features : leaf.features = leaf'.features

inductive Derivations : Derivation → Derivation → Prop where
  | word {leaf leaf' : Leaf} (h : P.Leaves leaf leaf') : Derivations (.word leaf) (.word leaf')
  | expansion {name : Text} {key key' : Key} {stop stop' : Nat} {features : Features}
      {parts parts' : List Derivation} (hkey : P.Keys key key') (hstop : P.positions stop stop')
      (hparts : List.Forall₂ Derivations parts parts') :
      Derivations (.expansion name key stop features parts)
        (.expansion name key' stop' features parts')

structure Terms (term term' : Term) : Prop where
  clauses : term.clauses = term'.clauses
  target : Option.Rel P.symbols term.target term'.target

inductive Elements : Element → Element → Prop where
  | literal (text : Text) : Elements (.literal text) (.literal text)
  | term {term term' : Term} (h : P.Terms term term') : Elements (.term term) (.term term')

structure Patterns (pattern pattern' : Pattern) : Prop where
  guard : pattern.guard = pattern'.guard
  variableCount : pattern.variableCount = pattern'.variableCount
  elements : List.Forall₂ P.Elements pattern.elements pattern'.elements

structure Strands (strand strand' : Strand) : Prop where
  pos : P.positions strand.pos strand'.pos
  bindings : strand.bindings = strand'.bindings
  parts : List.Forall₂ P.Derivations strand.parts strand'.parts

structure Frames (f f' : Frame) : Prop where
  key : P.Keys f.key f'.key
  path : List.Forall₂ P.Keys f.path f'.path
  alternatives : List.Forall₂ P.Patterns f.alternatives f'.alternatives
  elements : List.Forall₂ P.Elements f.elements f'.elements
  pending : List.Forall₂ P.Strands f.pending f'.pending
  advanced : List.Forall₂ P.Strands f.advanced f'.advanced
  results : List.Forall₂ P.Derivations f.results f'.results
  cut : List.Forall₂ P.Keys f.cut f'.cut

def Tables (t t' : Table) : Prop :=
  ∀ ⦃key key' : Key⦄, P.Keys key key' → Option.Rel (List.Forall₂ P.Derivations) (t key) (t' key')

/-- What a pairing must satisfy for the searches to run side by side. -/
structure Between (parser parser' : Parser) (sentence sentence' : Sentence) : Prop where
  symbols : Relator.BiUnique P.symbols
  positions : Relator.BiUnique P.positions
  cap : parser.cap = parser'.cap
  nameOf : ∀ ⦃symbol symbol' : Nat⦄, P.symbols symbol symbol' →
    parser.grammar.nameOf symbol = parser'.grammar.nameOf symbol'
  alternatives : ∀ ⦃symbol symbol' : Nat⦄, P.symbols symbol symbol' →
    List.Forall₂ P.Patterns (parser.grammar.alternatives symbol)
      (parser'.grammar.alternatives symbol')
  inRange : ∀ ⦃key key' : Key⦄, P.Keys key key' →
    (key.InRange parser sentence ↔ key'.InRange parser' sentence')
  endOf? : ∀ ⦃pos pos' : Nat⦄, P.positions pos pos' → ∀ text,
    Option.Rel P.positions (sentence.endOf? pos text) (sentence'.endOf? pos' text)
  leavesAt : ∀ ⦃pos pos' : Nat⦄, P.positions pos pos' →
    List.Forall₂ P.Leaves (parser.leavesAt sentence pos) (parser'.leavesAt sentence' pos')

end relations

end Pairing

namespace Pairing

variable {P : Pairing} {parser parser' : Parser} {sentence sentence' : Sentence}

theorem Derivations.stop {d d' : Derivation} (h : P.Derivations d d') :
    P.positions d.stop d'.stop := by
  cases h with
  | word h => exact h.stop
  | expansion _ hstop _ => exact hstop

theorem Derivations.features {d d' : Derivation} (h : P.Derivations d d') :
    d.features = d'.features := by
  cases h with
  | word h => exact h.features
  | expansion => rfl

theorem Patterns.admits {pattern pattern' : Pattern} (h : P.Patterns pattern pattern')
    (inherited : Features) : pattern.admits inherited = pattern'.admits inherited := by
  rw [Pattern.admits, Pattern.admits, h.guard]

/-- A key corresponds to one key at most, in either direction. -/
theorem biUnique_keys (hsymbols : Relator.BiUnique P.symbols)
    (hpositions : Relator.BiUnique P.positions) : Relator.BiUnique P.Keys := by
  constructor
  · intro ⟨symbol₁, start₁, inherited₁⟩ key ⟨symbol₂, start₂, inherited₂⟩ h₁ h₂
    rw [Key.mk.injEq]
    exact ⟨hsymbols.1 h₁.symbol h₂.symbol, hpositions.1 h₁.start h₂.start,
      h₁.inherited.trans h₂.inherited.symm⟩
  · intro key ⟨symbol₁, start₁, inherited₁⟩ ⟨symbol₂, start₂, inherited₂⟩ h₁ h₂
    rw [Key.mk.injEq]
    exact ⟨hsymbols.2 h₁.symbol h₂.symbol, hpositions.2 h₁.start h₂.start,
      h₁.inherited.symm.trans h₂.inherited⟩

theorem Between.keys (h : P.Between parser parser' sentence sentence') :
    Relator.BiUnique P.Keys :=
  biUnique_keys h.symbols h.positions

section strands

variable {strand strand' : Strand} {term term' : Term}

theorem Strands.start {pos pos' : Nat} {pattern pattern' : Pattern}
    (hpos : P.positions pos pos') (h : P.Patterns pattern pattern') :
    P.Strands (.start pos pattern) (.start pos' pattern') :=
  ⟨hpos, by rw [Strand.start, Strand.start, h.variableCount], .nil⟩

theorem Strands.follow (hs : P.Strands strand strand') {part part' : Derivation}
    (hpart : P.Derivations part part') (bindings : Bindings) :
    P.Strands (strand.follow part bindings) (strand'.follow part' bindings) :=
  ⟨hpart.stop, rfl, List.rel_append hs.parts (.cons hpart .nil)⟩

theorem Strands.literal? (hs : P.Strands strand strand') {text : Text}
    (hends : Option.Rel P.positions (sentence.endOf? strand.pos text)
      (sentence'.endOf? strand'.pos text)) :
    Option.Rel P.Strands (strand.literal? sentence text) (strand'.literal? sentence' text) :=
  rel_map_option (fun _ _ hpos => ⟨hpos, hs.bindings, hs.parts⟩) hends

theorem Strands.word? (hs : P.Strands strand strand') (ht : P.Terms term term')
    {leaf leaf' : Leaf} (hl : P.Leaves leaf leaf') :
    Option.Rel P.Strands (strand.word? term leaf) (strand'.word? term' leaf') := by
  rw [Strand.word?, Strand.word?, ht.clauses, hl.features, hs.bindings]
  cases term'.clauses.foldlM (Clause.unifyWord leaf'.features) strand'.bindings with
  | none => exact .none
  | some bindings => exact .some (hs.follow (.word hl) bindings)

theorem Strands.phrase? (hs : P.Strands strand strand') (ht : P.Terms term term')
    {part part' : Derivation} (hpart : P.Derivations part part') :
    Option.Rel P.Strands (strand.phrase? term part) (strand'.phrase? term' part') := by
  rw [Strand.phrase?, Strand.phrase?, ht.clauses, hpart.features, hs.bindings]
  cases term'.clauses.foldlM (Clause.unifyPhrase part'.features) strand'.bindings with
  | none => exact .none
  | some bindings => exact .some (hs.follow hpart bindings)

theorem Strands.finish? (hs : P.Strands strand strand') {key key' : Key}
    (hkey : P.Keys key key') (name : Text) :
    Option.Rel P.Derivations (strand.finish? name key) (strand'.finish? name key') := by
  rw [Strand.finish?, Strand.finish?, hs.bindings]
  cases strand'.bindings.features? with
  | none => exact .none
  | some features => exact .some (.expansion hkey hs.pos hs.parts)

theorem Strands.callee (hs : P.Strands strand strand') (ht : P.Terms term term')
    {symbol symbol' : Nat} (hsymbol : P.symbols symbol symbol') :
    P.Keys (strand.callee symbol term) (strand'.callee symbol' term') := by
  refine ⟨hsymbol, hs.pos, ?_⟩
  simp only [Strand.callee, Branch.handedDown, Strand.branch, ht.clauses, hs.bindings]

end strands

section frames

variable {f f' g : Frame}

theorem Frames.toAlternative (hf : P.Frames f f') {alternatives alternatives' : List Pattern}
    (ha : List.Forall₂ P.Patterns alternatives alternatives') :
    P.Frames (f.toAlternative alternatives) (f'.toAlternative alternatives') := by
  have hdrop := rel_dropWhile (p := (!·.admits f.key.inherited))
    (q := (!·.admits f'.key.inherited)) (fun pattern pattern' h => by
      rw [h.admits, hf.key.inherited]) ha
  unfold Frame.toAlternative
  generalize alternatives.dropWhile (!·.admits f.key.inherited) = left at hdrop
  generalize alternatives'.dropWhile (!·.admits f'.key.inherited) = right at hdrop
  cases hdrop with
  | nil =>
    exact { hf with alternatives := .nil, elements := .nil, pending := .nil, advanced := .nil }
  | cons hpattern hrest =>
    exact { hf with
      alternatives := .cons hpattern hrest
      elements := hpattern.elements
      pending := .cons (.start hf.key.start hpattern) .nil
      advanced := .nil }

theorem Frames.start (h : P.Between parser parser' sentence sentence') {path path' : List Key}
    (hpath : List.Forall₂ P.Keys path path') {key key' : Key} (hkey : P.Keys key key') :
    P.Frames (.start parser.grammar path key) (.start parser'.grammar path' key') :=
  Frames.toAlternative ⟨hkey, hpath, .nil, .nil, .nil, .nil, .nil, .nil⟩
    (h.alternatives hkey.symbol)

theorem Frames.toElement (hf : P.Frames f f') {elements elements' : List Element}
    (he : List.Forall₂ P.Elements elements elements') :
    P.Frames (f.toElement elements) (f'.toElement elements') :=
  { hf with elements := he, pending := hf.advanced, advanced := .nil }

theorem Frames.continued (hf : P.Frames f f') {pending pending' next next' : List Strand}
    (hp : List.Forall₂ P.Strands pending pending') (hn : List.Forall₂ P.Strands next next') :
    P.Frames (f.continued pending next) (f'.continued pending' next') :=
  { hf with pending := hp, advanced := List.rel_append hf.advanced hn }

theorem Frames.found (hf : P.Frames f f') {results results' : List Derivation}
    (hr : List.Forall₂ P.Derivations results results') :
    P.Frames { f with results } { f' with results := results' } :=
  { hf with results := hr }

theorem Frames.finishAlternative (h : P.Between parser parser' sentence sentence')
    (hf : P.Frames f f') {alternatives alternatives' : List Pattern}
    (ha : List.Forall₂ P.Patterns alternatives alternatives') :
    P.Frames (f.finishAlternative parser alternatives)
      (f'.finishAlternative parser' alternatives') := by
  have hresults : List.Forall₂ P.Derivations
      (f.results ++ f.pending.filterMap (·.finish? (parser.grammar.nameOf f.key.symbol) f.key))
      (f'.results ++
        f'.pending.filterMap (·.finish? (parser'.grammar.nameOf f'.key.symbol) f'.key)) := by
    rw [h.nameOf hf.key.symbol]
    exact List.rel_append hf.results
      (List.rel_filterMap (fun _ _ hs => hs.finish? hf.key _) hf.pending)
  unfold Frame.finishAlternative
  simp only [h.cap, hresults.length_eq]
  split
  · exact (hf.found hresults).toAlternative ha
  · split
    · exact (hf.found (List.forall₂_take _ hresults)).toAlternative .nil
    · exact (hf.found hresults).toAlternative ha

theorem Frames.receive (h : P.Between parser parser' sentence sentence') (hf : P.Frames f f')
    {answer answer' : List Derivation} (ha : List.Forall₂ P.Derivations answer answer')
    {cut cut' : List Key} (hc : List.Forall₂ P.Keys cut cut') :
    P.Frames (f.receive answer cut) (f'.receive answer' cut') := by
  have hcut : P.Frames { f with cut := f.cut ++ cut.filter (· ≠ f.key) }
      { f' with cut := f'.cut ++ cut'.filter (· ≠ f'.key) } := by
    refine { hf with cut := List.rel_append hf.cut (List.rel_filter (fun k k' hk => ?_) hc) }
    simpa using not_congr (Relator.rel_eq h.keys hk hf.key)
  obtain ⟨key, path, alternatives, elements, pending, advanced, results, cut₀⟩ := f
  obtain ⟨key', path', alternatives', elements', pending', advanced', results', cut₀'⟩ := f'
  unfold Frame.receive
  dsimp only at hcut ⊢
  have he := hcut.elements
  have hp := hcut.pending
  dsimp only at he hp
  cases he with
  | nil => exact hcut
  | cons helement hrest =>
    cases helement with
    | literal => exact hcut
    | term ht =>
      cases hp with
      | nil => exact hcut
      | cons hs hp =>
        exact hcut.continued hp (List.rel_filterMap (fun _ _ hd => hs.phrase? ht hd) ha)

theorem Frames.callee? (hf : P.Frames f f') : Option.Rel P.Keys f.callee? f'.callee? := by
  obtain ⟨-, -, ha, he, hp, -, -, -⟩ := hf
  obtain ⟨_, _, alternatives, elements, pending, _, _, _⟩ := f
  obtain ⟨_, _, alternatives', elements', pending', _, _, _⟩ := f'
  unfold Frame.callee?
  dsimp only at ha he hp ⊢
  cases ha with
  | nil => exact .none
  | cons =>
    cases he with
    | nil => exact .none
    | cons helement =>
      cases helement with
      | literal => exact .none
      | term ht =>
        cases hp with
        | nil => exact .none
        | cons hs => exact rel_map_option (fun _ _ hsymbol => hs.callee ht hsymbol) ht.target

/-- What one of two frames does without a call, the other one does too. -/
theorem Frames.move (h : P.Between parser parser' sentence sentence') (hf : P.Frames f f')
    (m : f.Moves parser sentence g) : ∃ g', f'.Moves parser' sentence' g' ∧ P.Frames g g' := by
  cases m with
  | finish ha he =>
    obtain ⟨_, _, ha', -, hrest⟩ := rel_of_eq_cons hf.alternatives ha
    have he' := (rel_nil_iff hf.elements).mp he
    exact ⟨_, .finish ha' he', hf.finishAlternative h hrest⟩
  | pass ha he hp =>
    obtain ⟨_, _, ha', -, hrest⟩ := rel_of_eq_cons hf.alternatives ha
    obtain ⟨_, _, he', -, helements⟩ := rel_of_eq_cons hf.elements he
    have hp' := (rel_nil_iff hf.pending).mp hp
    refine ⟨_, .pass ha' he' hp', ?_⟩
    have hadvanced := rel_nil_iff hf.advanced
    rw [← List.isEmpty_iff, ← List.isEmpty_iff] at hadvanced
    by_cases hempty : f.advanced.isEmpty
    · rw [if_pos hempty, if_pos (hadvanced.mp hempty)]
      exact hf.toAlternative hrest
    · rw [if_neg hempty, if_neg (mt hadvanced.mpr hempty)]
      exact hf.toElement helements
  | @literal _ _ text _ _ _ ha he hp =>
    obtain ⟨_, _, ha', -, -⟩ := rel_of_eq_cons hf.alternatives ha
    obtain ⟨_, _, he', helement, -⟩ := rel_of_eq_cons hf.elements he
    obtain ⟨_, _, hp', hs, hpending⟩ := rel_of_eq_cons hf.pending hp
    cases helement with
    | literal =>
      have hnext := rel_toList (hs.literal? (h.endOf? hs.pos text))
      exact ⟨_, .literal ha' he' hp', hf.continued hpending hnext⟩
  | word ha he hp ht =>
    obtain ⟨_, _, ha', -, -⟩ := rel_of_eq_cons hf.alternatives ha
    obtain ⟨_, _, he', helement, -⟩ := rel_of_eq_cons hf.elements he
    obtain ⟨_, _, hp', hs, hpending⟩ := rel_of_eq_cons hf.pending hp
    cases helement with
    | term hterm =>
      have ht' := (rel_eq_none_iff hterm.target).mp ht
      have hwords := List.rel_filterMap (fun _ _ hl => hs.word? hterm hl) (h.leavesAt hs.pos)
      exact ⟨_, .word ha' he' hp' ht', hf.continued hpending hwords⟩

theorem Tables.settle (h : P.Between parser parser' sentence sentence') {t t' : Table}
    (ht : P.Tables t t') (hf : P.Frames f f') : P.Tables (t.settle f) (t'.settle f') := by
  intro key key' hkey
  have hdone : f.cut = [] ∧ key = f.key ↔ f'.cut = [] ∧ key' = f'.key :=
    and_congr (rel_nil_iff hf.cut) (Relator.rel_eq h.keys hkey hf.key)
  unfold Table.settle
  by_cases hd : f.cut = [] ∧ key = f.key
  · rw [if_pos hd, if_pos (hdone.mp hd)]
    exact .some hf.results
  · rw [if_neg hd, if_neg (mt hdone.mpr hd)]
    exact ht hkey

/-- A call that is answered at once in one of two searches is answered at once in the other. -/
theorem Frames.reply (h : P.Between parser parser' sentence sentence') {t t' : Table}
    (ht : P.Tables t t') (hf : P.Frames f f') {callee callee' : Key}
    (hkey : P.Keys callee callee') {answer : List Derivation} {cut : List Key}
    (hr : Frame.Reply parser sentence t f callee answer cut) :
    ∃ answer' cut', Frame.Reply parser' sentence' t' f' callee' answer' cut' ∧
      List.Forall₂ P.Derivations answer answer' ∧ List.Forall₂ P.Keys cut cut' := by
  cases hr with
  | known hknown =>
    obtain ⟨answer', hknown', hanswer⟩ := rel_of_eq_some (ht hkey) hknown
    exact ⟨answer', [], .known hknown', hanswer, .nil⟩
  | cut hm =>
    have hm' := (List.rel_mem h.keys hkey (.cons hf.key hf.path)).mp hm
    exact ⟨[], [callee'], .cut hm', .nil, .cons hkey .nil⟩
  | outside hnone hr =>
    have hnone' := (rel_eq_none_iff (ht hkey)).mp hnone
    exact ⟨[], [], .outside hnone' (mt (h.inRange hkey).mpr hr), .nil, .nil⟩

/-- Two runs that begin side by side end side by side. -/
theorem Frames.run (h : P.Between parser parser' sentence sentence') {t t₁ t' t₁' : Table}
    {f₁ f₁' : Frame} (run : f.Runs parser sentence t t₁ f₁)
    (run' : f'.Runs parser' sentence' t' t₁' f₁') (ht : P.Tables t t') (hf : P.Frames f f')
    (hgoing : f'.Going parser' sentence' t') : P.Tables t₁ t₁' ∧ P.Frames f₁ f₁' := by
  -- One run is followed; the other one can only begin with the step that corresponds.
  induction run generalizing f' t' t₁' f₁' with
  | done ha =>
    obtain ⟨rfl, rfl⟩ := run'.of_done ((rel_nil_iff hf.alternatives).mp ha)
    exact ⟨ht, hf⟩
  | move m rest ih =>
    obtain ⟨g', m', hg⟩ := hf.move h m
    obtain ⟨hkey, hpath, -⟩ := m'.fields
    exact ih (run'.of_move m') ht hg (hgoing.of_eq hkey hpath)
  | @reply t _ f _ callee answer cut hc hr rest ih =>
    obtain ⟨callee', hc', hcallee⟩ := rel_of_eq_some hf.callee? hc
    obtain ⟨answer', cut', hr', hanswer, hcut⟩ := hf.reply h ht hcallee hr
    exact ih (run'.of_reply hgoing hc' hr') ht (hf.receive h hanswer hcut)
      (hgoing.of_eq (f'.key_receive answer' cut') (f'.path_receive answer' cut'))
  | @expand t t₂ _ f g _ callee hc hnone hm hr call rest ihc ih =>
    obtain ⟨callee', hc', hcallee⟩ := rel_of_eq_some hf.callee? hc
    have hpath := List.Forall₂.cons hf.key hf.path
    have hnone' := (rel_eq_none_iff (ht hcallee)).mp hnone
    have hm' := mt (List.rel_mem h.keys hcallee hpath).mpr hm
    have hr' := (h.inRange hcallee).mp hr
    obtain ⟨t₂', g', call', rest'⟩ := run'.of_expand hc' hnone' hm' hr'
    obtain ⟨ht₂, hg⟩ := ihc call' ht (.start h hpath hcallee) (.start hnone' hr' hgoing)
    exact ih rest' (ht₂.settle h hg) (hf.receive h hg.results hg.cut)
      (hgoing.settle call' hnone' hm' g'.results g'.cut)

end frames

theorem tables_empty : P.Tables (fun _ => none) fun _ => none :=
  fun _ _ _ => .none

theorem Tables.call (h : P.Between parser parser' sentence sentence') {t t₁ t' t₁' : Table}
    (ht : P.Tables t t') {key key' : Key} (hkey : P.Keys key key')
    (call : t.Calls parser sentence key t₁) (call' : t'.Calls parser' sentence' key' t₁') :
    P.Tables t₁ t₁' := by
  have hnone := rel_eq_none_iff (ht hkey)
  cases call with
  | kept hkept =>
    cases call' with
    | kept => exact ht
    | expand ht' hr' => exact absurd ((h.inRange hkey).mpr hr') (hkept (hnone.mpr ht'))
  | expand hkey' hr run =>
    cases call' with
    | kept hkept' => exact absurd ((h.inRange hkey).mp hr) (hkept' (hnone.mp hkey'))
    | expand ht' hr' run' =>
      have hgoing : (Frame.start parser'.grammar [] key').Going parser' sentence' t' :=
        .start ht' hr' fun _ hk => by cases hk
      obtain ⟨ht₁, hf⟩ := Frames.run h run run' ht (.start h .nil hkey) hgoing
      exact ht₁.settle h hf

section requests

variable {r r' : Nat → Nat}

theorem Leaves.move_eq (hr : ∀ p p', P.positions p p' → r p = r' p') {leaf leaf' : Leaf}
    (h : P.Leaves leaf leaf') : (Tree.leaf leaf).move r = (Tree.leaf leaf').move r' := by
  rw [Tree.move, Tree.move, hr _ _ h.start, hr _ _ h.stop, h.features]

theorem Derivations.move_eq (hr : ∀ p p', P.positions p p' → r p = r' p') {d d' : Derivation}
    (h : P.Derivations d d') : d.tree.move r = d'.tree.move r' := by
  induction d using Derivation.induct generalizing d' with
  | word leaf =>
    cases h with
    | word h => simpa using h.move_eq hr
  | expansion name key stop features parts ih =>
    cases h with
    | expansion hkey hstop hparts =>
      have hchildren := map_eq_of_forall₂ (f := Tree.move r ∘ Derivation.tree)
        (g := Tree.move r' ∘ Derivation.tree) hparts fun part hp _ hpart => ih part hp hpart
      rw [Derivation.tree_expansion, Derivation.tree_expansion, Tree.move, Tree.move,
        hr _ _ hkey.start, hr _ _ hstop, List.map_map, List.map_map, hchildren]

theorem Between.wordTrees (h : P.Between parser parser' sentence sentence')
    (hr : ∀ p p', P.positions p p' → r p = r' p') {pos pos' : Nat} (hpos : P.positions pos pos')
    (name : Text) (inherited : Features) :
    (parser.wordTrees sentence name pos inherited).map (Tree.move r) =
      (parser'.wordTrees sentence' name pos' inherited).map (Tree.move r') := by
  have hleaves := List.rel_filter
    (p := fun leaf => inherited.toList.all fun feature =>
      leaf.features.get feature.kind = some feature)
    (q := fun leaf => inherited.toList.all fun feature =>
      leaf.features.get feature.kind = some feature)
    (fun _ _ hl => by
      dsimp only
      rw [hl.features]) (h.leavesAt hpos)
  unfold Parser.wordTrees
  dsimp only
  rw [List.map_map, List.map_map]
  refine map_eq_of_forall₂ hleaves fun leaf _ leaf' hl => ?_
  have hleaf := hl.move_eq hr
  simp only [Function.comp_apply, Tree.move, List.map_cons, List.map_nil] at hleaf ⊢
  rw [hleaf, hr _ _ hl.start, hr _ _ hl.stop, hl.features]

section request

variable {start : Text} {pos pos' : Nat} {inherited : Features} {t t' : Table}

/-- What two requests for the same start symbol make of empty tables. -/
theorem Between.tables (h : P.Between parser parser' sentence sentence') {symbol symbol' : Nat}
    (hs : parser.grammar.indexOf? start = some symbol)
    (hs' : parser'.grammar.indexOf? start = some symbol') (hsymbol : P.symbols symbol symbol')
    (hpos : P.positions pos pos')
    (makes : Request.Makes parser sentence (fun _ => none) (.parseGiven start pos inherited) t)
    (makes' : Request.Makes parser' sentence' (fun _ => none)
      (.parseGiven start pos' inherited) t') : P.Tables t t' := by
  have hkey : P.Keys ⟨symbol, pos, inherited⟩ ⟨symbol', pos', inherited⟩ := ⟨hsymbol, hpos, rfl⟩
  have hsize : symbol < parser.grammar.size := (Array.findIdx?_eq_some_iff_getElem.mp hs).1
  have hsize' : symbol' < parser'.grammar.size := (Array.findIdx?_eq_some_iff_getElem.mp hs').1
  have hends : pos ≤ sentence.length ↔ pos' ≤ sentence'.length := by
    have hrange := h.inRange hkey
    simpa only [Key.InRange, hsize, hsize', true_and] using hrange
  simp only [Request.Makes, Request.start, Request.offset, Request.key, Request.inherited]
    at makes makes'
  -- Either both positions are beyond the end of their sentence, or neither is.
  rcases makes with ⟨rfl, hlt⟩ | ⟨_, hs₁, hle, call⟩
  · rcases makes' with ⟨rfl, -⟩ | ⟨_, _, hle', -⟩
    · exact tables_empty
    · exact absurd (hends.mpr hle') (Nat.not_le.mpr (hlt symbol hs))
  · rcases makes' with ⟨rfl, hlt'⟩ | ⟨_, hs₁', _, call'⟩
    · exact absurd (hends.mp hle) (Nat.not_le.mpr (hlt' symbol' hs'))
    · cases hs.symm.trans hs₁
      cases hs'.symm.trans hs₁'
      exact tables_empty.call h hkey call call'

theorem Between.trees (h : P.Between parser parser' sentence sentence')
    (hr : ∀ p p', P.positions p p' → r p = r' p')
    (hstart : Option.Rel P.symbols (parser.grammar.indexOf? start)
      (parser'.grammar.indexOf? start)) (hpos : P.positions pos pos')
    (makes : Request.Makes parser sentence (fun _ => none) (.parseGiven start pos inherited) t)
    (makes' : Request.Makes parser' sentence' (fun _ => none)
      (.parseGiven start pos' inherited) t') :
    (Request.trees parser sentence t (.parseGiven start pos inherited)).map (Tree.move r) =
      (Request.trees parser' sentence' t' (.parseGiven start pos' inherited)).map
        (Tree.move r') := by
  simp only [Request.trees, Request.start, Request.offset, Request.inherited, Request.key]
  cases hs : parser.grammar.indexOf? start with
  | none =>
    rw [(rel_eq_none_iff hstart).mp hs]
    exact h.wordTrees hr hpos start inherited
  | some symbol =>
    obtain ⟨symbol', hs', hsymbol⟩ := rel_of_eq_some hstart hs
    rw [hs']
    dsimp only
    have ht := h.tables hs hs' hsymbol hpos makes makes'
    have hkey : P.Keys ⟨symbol, pos, inherited⟩ ⟨symbol', pos', inherited⟩ :=
      ⟨hsymbol, hpos, rfl⟩
    have hfound := ht hkey
    generalize t ⟨symbol, pos, inherited⟩ = found at hfound ⊢
    generalize t' ⟨symbol', pos', inherited⟩ = found' at hfound ⊢
    cases hfound with
    | none => rfl
    | some hds =>
      rw [Option.getD_some, Option.getD_some, List.map_map, List.map_map]
      exact map_eq_of_forall₂ hds fun d _ d' hd => hd.move_eq hr

end request

theorem answer_parseGiven (parser : Parser) (sentence : Sentence) (t : Table) (start : Text)
    (pos : Nat) (inherited : Features) :
    Request.answer parser sentence t (.parseGiven start pos inherited) =
      if sentence.length < pos then (.error (.offsetBeyondEnd pos sentence.length), [])
      else (.ok (), Request.trees parser sentence t (.parseGiven start pos inherited)) := by
  have hall : (Request.trees parser sentence t (.parseGiven start pos inherited)).filter
      (Request.keeps sentence (.parseGiven start pos inherited)) =
      Request.trees parser sentence t (.parseGiven start pos inherited) :=
    List.filter_eq_self.mpr fun _ _ => rfl
  rw [Request.answer, hall]
  rfl

/-- Analyses that have found nothing yet answer alike, but for the positions. -/
theorem Between.seen (h : P.Between parser parser' sentence sentence')
    (hr : ∀ p p', P.positions p p' → r p = r' p') {start : Text}
    (hstart : Option.Rel P.symbols (parser.grammar.indexOf? start)
      (parser'.grammar.indexOf? start)) {pos pos' : Nat} (hpos : P.positions pos pos')
    (inherited : Features) :
    ∃ trees trees' : List Tree, trees.map (Tree.move r) = trees'.map (Tree.move r') ∧
      (Analysis.ofSentence parser sentence).seen (.parseGiven start pos inherited) =
        (if sentence.length < pos then (.error (.offsetBeyondEnd pos sentence.length), [])
        else (.ok (), trees)) ∧
      (Analysis.ofSentence parser' sentence').seen (.parseGiven start pos' inherited) =
        (if sentence'.length < pos' then (.error (.offsetBeyondEnd pos' sentence'.length), [])
        else (.ok (), trees')) := by
  obtain ⟨t, makes, -, hseen⟩ :=
    (Analysis.shows_ofSentence parser sentence).perform (.parseGiven start pos inherited)
  obtain ⟨t', makes', -, hseen'⟩ :=
    (Analysis.shows_ofSentence parser' sentence').perform (.parseGiven start pos' inherited)
  rw [answer_parseGiven] at hseen hseen'
  exact ⟨_, _, h.trees hr hstart hpos makes makes', hseen, hseen'⟩

end requests

end Pairing

end Concord
