import Concord.Proofs.History
import Concord.Proofs.Passage

namespace Concord

namespace Frame

/-- The strands and derivations of a frame follow its alternatives, given what calls answer. -/
structure Built (parser : Parser) (sentence : Sentence) (relation : Key → Derivation → Prop)
    (f : Frame) : Prop where
  results : ∀ d ∈ f.results, f.key.Builds parser sentence relation d
  subset : f.alternatives ⊆ parser.grammar.alternatives f.key.symbol
  current : ∀ pattern rest, f.alternatives = pattern :: rest →
    pattern.admits f.key.inherited = true ∧ ∃ before,
      pattern.elements = before ++ f.elements ∧
      (∀ strand ∈ f.pending, Strand.PassesAll parser sentence relation before
        (.start f.key.start pattern) strand) ∧
      ∀ strand ∈ f.advanced, ∃ element elements, f.elements = element :: elements ∧
        Strand.PassesAll parser sentence relation (before ++ [element])
          (.start f.key.start pattern) strand

variable {parser : Parser} {sentence : Sentence} {relation : Key → Derivation → Prop}
variable {f f' : Frame}

theorem Built.toAlternative {alternatives : List Pattern}
    (hresults : ∀ d ∈ f.results, f.key.Builds parser sentence relation d)
    (hsubset : alternatives ⊆ parser.grammar.alternatives f.key.symbol) :
    (f.toAlternative alternatives).Built parser sentence relation := by
  have hsuffix := (List.dropWhile_suffix (l := alternatives)
    (!·.admits f.key.inherited)).subset
  have hhead := List.head?_dropWhile_not (!·.admits f.key.inherited) alternatives
  unfold Frame.toAlternative
  split
  next => exact ⟨hresults, List.nil_subset _, fun _ _ h => by cases h⟩
  next pattern rest hd =>
    rw [hd] at hsuffix hhead
    refine ⟨hresults, fun p hp => hsubset (hsuffix hp), fun p r h => ?_⟩
    cases h
    refine ⟨by simpa using hhead, [], rfl, fun strand hs => ?_, fun strand hs => ?_⟩
    · rw [List.mem_singleton.mp hs]
      rfl
    · cases hs

theorem Built.start (path : List Key) (key : Key) :
    (Frame.start parser.grammar path key).Built parser sentence relation :=
  .toAlternative (by simp) (List.Subset.refl _)

theorem Built.continued (hf : f.Built parser sentence relation) {element : Element}
    {elements : List Element} {strand : Strand} {pending next : List Strand}
    (he : f.elements = element :: elements) (hp : f.pending = strand :: pending)
    (hnext : ∀ s ∈ next, strand.Passes parser sentence relation element s) :
    (f.continued pending next).Built parser sentence relation := by
  refine ⟨hf.results, hf.subset, fun pattern rest ha => ?_⟩
  obtain ⟨hadmits, before, helements, hpending, hadvanced⟩ := hf.current pattern rest ha
  rw [hp] at hpending
  refine ⟨hadmits, before, helements, fun s hs => hpending s (List.mem_cons_of_mem _ hs), ?_⟩
  intro s hs
  rcases List.mem_append.mp hs with hs | hs
  · exact hadvanced s hs
  · exact ⟨element, elements, he, (hpending strand List.mem_cons_self).snoc (hnext s hs)⟩

/-- What is found at the end of an alternative is built. -/
theorem Built.finished (hf : f.Built parser sentence relation) {pattern : Pattern}
    {alternatives : List Pattern} (ha : f.alternatives = pattern :: alternatives)
    (he : f.elements = []) : ∀ d ∈ f.results ++
      f.pending.filterMap (·.finish? (parser.grammar.nameOf f.key.symbol) f.key),
      f.key.Builds parser sentence relation d := by
  obtain ⟨hadmits, before, helements, hpending, -⟩ := hf.current pattern alternatives ha
  have hmem : pattern ∈ parser.grammar.alternatives f.key.symbol :=
    hf.subset (ha ▸ List.mem_cons_self)
  intro d hd
  rcases List.mem_append.mp hd with hd | hd
  · exact hf.results d hd
  · obtain ⟨strand, hs, hfinish⟩ := List.mem_filterMap.mp hd
    rw [he, List.append_nil] at helements
    exact ⟨pattern, hmem, hadmits, strand, helements ▸ hpending strand hs, hfinish⟩

theorem Built.finishAlternative (hf : f.Built parser sentence relation) {pattern : Pattern}
    {alternatives : List Pattern} (ha : f.alternatives = pattern :: alternatives)
    (he : f.elements = []) : (f.finishAlternative parser alternatives).Built parser sentence
      relation := by
  have hresults := hf.finished ha he
  have hrest : alternatives ⊆ parser.grammar.alternatives f.key.symbol :=
    fun p hp => hf.subset (ha ▸ List.mem_cons_of_mem _ hp)
  unfold Frame.finishAlternative
  dsimp only
  split
  next => exact .toAlternative hresults hrest
  next cap _ =>
    split
    next =>
      exact .toAlternative (fun d hd => hresults d (List.mem_of_mem_take hd)) (List.nil_subset _)
    next => exact .toAlternative hresults hrest

theorem Built.toElement (hf : f.Built parser sentence relation) {element : Element}
    {elements : List Element} (he : f.elements = element :: elements) :
    (f.toElement elements).Built parser sentence relation := by
  refine ⟨hf.results, hf.subset, fun pattern rest ha => ?_⟩
  obtain ⟨hadmits, before, helements, -, hadvanced⟩ := hf.current pattern rest ha
  refine ⟨hadmits, before ++ [element], ?_, fun s hs => ?_, fun s hs => by cases hs⟩
  · rw [helements, he, List.append_assoc]
    rfl
  · obtain ⟨element', elements', he', hpasses⟩ := hadvanced s hs
    rw [he] at he'
    cases he'
    exact hpasses

theorem Built.move (hf : f.Built parser sentence relation) (m : f.Moves parser sentence f') :
    f'.Built parser sentence relation := by
  cases m with
  | finish ha he => exact hf.finishAlternative ha he
  | pass ha he hp =>
    split
    next =>
      exact .toAlternative hf.results fun p hp => hf.subset (ha ▸ List.mem_cons_of_mem _ hp)
    next => exact hf.toElement he
  | literal ha he hp =>
    exact hf.continued he hp fun s hs => .literal (Option.mem_toList.mp hs)
  | word ha he hp ht =>
    refine hf.continued he hp fun s hs => ?_
    obtain ⟨leaf, hl, hs⟩ := List.mem_filterMap.mp hs
    exact .word ht hl hs

theorem Built.receive (hf : f.Built parser sentence relation) {callee : Key}
    (hc : f.callee? = some callee) {answer : List Derivation}
    (ha : ∀ d ∈ answer, relation callee d) (cut : List Key) :
    (f.receive answer cut).Built parser sentence relation := by
  obtain ⟨_, _, term, _, strand, _, symbol, -, he, hp, ht, rfl, hr⟩ := callee?_eq_some hc
  rw [hr]
  have hcut : Built parser sentence relation
      { f with cut := f.cut ++ cut.filter (· ≠ f.key) } := ⟨hf.results, hf.subset, hf.current⟩
  refine hcut.continued he hp fun s hs => ?_
  obtain ⟨part, hpart, hs⟩ := List.mem_filterMap.mp hs
  exact .phrase ht (ha part hpart) hs

end Frame

def Table.All (t : Table) (property : Key → Derivation → Prop) : Prop :=
  ∀ key ds, t key = some ds → ∀ d ∈ ds, property key d

/-- What is built of derivations with a property, none of them with the key at hand, has it too;
nothing is said about banned keys. -/
def Inherited (parser : Parser) (sentence : Sentence) (banned : List Key)
    (property : Key → Derivation → Prop) : Prop :=
  ∀ key d, key ∉ banned → key.InRange parser sentence →
    key.Builds parser sentence (fun callee part => callee ≠ key ∧ property callee part) d →
    property key d

variable {parser : Parser} {sentence : Sentence} {property : Key → Derivation → Prop}
variable {banned : List Key} {t t' : Table} {f f' : Frame}

/-- What a finished expansion has found has the property, and so has what is done once it is
settled. -/
theorem Frame.Runs.settle_all (hinherited : Inherited parser sentence banned property)
    {path : List Key} {key : Key}
    (h : (Frame.start parser.grammar path key).Runs parser sentence t t' f) (hn : key ∉ banned)
    (hr : key.InRange parser sentence) (ht' : t'.All property)
    (hf : f.Built parser sentence fun callee part => callee ≠ key ∧ property callee part) :
    (∀ d ∈ f.results, property key d) ∧ (t'.settle f).All property := by
  have hkey : f.key = key := h.key_call
  have hfound : ∀ d ∈ f.results, property key d := by
    intro d hd
    have hbuilds := hf.results d hd
    rw [hkey] at hbuilds
    exact hinherited key d hn hr hbuilds
  refine ⟨hfound, fun k ds hk d hd => ?_⟩
  rcases settle_eq_some hk with hk | ⟨-, rfl, rfl⟩
  · exact ht' k ds hk d hd
  · rw [hkey]
    exact hfound d hd

/-- What is answered at once has the property. -/
theorem Frame.Reply.all {callee : Key} {answer : List Derivation} {cut : List Key}
    (h : Frame.Reply parser sentence t f callee answer cut)
    (hopen : ∀ key ∈ f.key :: f.path, t key = none) (ht : t.All property) :
    ∀ d ∈ answer, callee ≠ f.key ∧ property callee d := by
  intro d hd
  cases h with
  | known htab =>
    refine ⟨?_, ht _ _ htab d hd⟩
    intro heq
    rw [heq, hopen f.key List.mem_cons_self] at htab
    cases htab
  | cut hm => cases hd
  | outside ht hr => cases hd

/-- A run finds nothing but what is built of derivations with the property. -/
theorem Frame.Runs.built (hinherited : Inherited parser sentence banned property)
    (h : f.Runs parser sentence t t' f') (hbanned : banned ⊆ f.key :: f.path)
    (hopen : ∀ key ∈ f.key :: f.path, t key = none) (ht : t.All property)
    (hf : f.Built parser sentence fun callee part => callee ≠ f.key ∧ property callee part) :
    t'.All property ∧
      f'.Built parser sentence fun callee part => callee ≠ f.key ∧ property callee part := by
  induction h with
  | done ha => exact ⟨ht, hf⟩
  | move m rest ih =>
    obtain ⟨hkey, hpath, -⟩ := m.fields
    rw [hkey, hpath] at ih
    exact ih hbanned hopen ht (hf.move m)
  | @reply t t' f f' callee answer cut hc hr rest ih =>
    rw [key_receive, path_receive] at ih
    exact ih hbanned hopen ht (hf.receive hc (hr.all hopen ht) cut)
  | @expand t t₁ t' f g f' callee hc htab hm hr call rest ihc ih =>
    rw [key_start, path_start] at ihc
    rw [key_receive, path_receive] at ih
    have hstart : ∀ key ∈ callee :: f.key :: f.path, t key = none :=
      List.forall_mem_cons.mpr ⟨htab, hopen⟩
    obtain ⟨ht₁, hg⟩ := ihc (fun key hk => List.mem_cons_of_mem _ (hbanned hk)) hstart ht
      (.start _ _)
    obtain ⟨hfound, hsettle⟩ :=
      call.settle_all hinherited (fun hb => hm (hbanned hb)) hr ht₁ hg
    refine ih hbanned (call.settle_open htab hm hopen) hsettle
      (hf.receive hc (fun d hd => ⟨?_, hfound d hd⟩) g.cut)
    rintro rfl
    exact hm List.mem_cons_self

/-- Whatever calls lead to has a property that passes from parts to what is built of them. -/
theorem Table.Reached.all (hinherited : Inherited parser sentence [] property)
    (h : t.Reached parser sentence) : t.All property := by
  induction h with
  | empty => exact fun _ _ h => by cases h
  | @call t t' key h hc ih =>
    cases hc with
    | kept => exact ih
    | @expand t' f htab hr run =>
      obtain ⟨ht', hf⟩ := run.built hinherited (List.nil_subset _)
        (by simp [htab]) ih (.start _ _)
      rw [Frame.key_start] at hf
      exact (run.settle_all hinherited List.not_mem_nil hr ht' hf).2

end Concord
