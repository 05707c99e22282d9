import Concord.Proofs.Plain
import Concord.Proofs.Priming

namespace Concord

/-- Each request is answered as if nothing had been asked before. -/
def Transparent (parser : Parser) (sentence : Sentence) : Prop :=
  ∀ requests request, ((Analysis.ofSentence parser sentence).afterAll requests).seen request =
    (Analysis.ofSentence parser sentence).seen request

variable {parser : Parser} {sentence : Sentence}

namespace Analysis

/-- A request is answered alike after different requests if the derivations of its key do not depend
on them. -/
theorem seen_eq_of_done {request : Request} (requests requests' : List Request)
    (h : ∀ symbol, parser.grammar.indexOf? request.start = some symbol →
      request.offset sentence ≤ sentence.length → ∀ (t t' : Table) ds ds',
        t.Reached parser sentence → t'.Reached parser sentence →
        t (request.key sentence symbol) = some ds → t' (request.key sentence symbol) = some ds' →
        ds = ds') :
    ((ofSentence parser sentence).afterAll requests).seen request =
      ((ofSentence parser sentence).afterAll requests').seen request := by
  obtain ⟨t, ht, hdone, hseen⟩ := exists_answer parser sentence requests request
  obtain ⟨t', ht', hdone', hseen'⟩ := exists_answer parser sentence requests' request
  rw [hseen, hseen']
  unfold Request.answer
  dsimp only
  split
  next => rfl
  next hle =>
    have htrees : request.trees parser sentence t = request.trees parser sentence t' := by
      unfold Request.trees
      cases hs : parser.grammar.indexOf? request.start with
      | none => rfl
      | some symbol =>
        have ho := Nat.not_lt.mp hle
        obtain ⟨ds, hds⟩ := hdone symbol hs ho
        obtain ⟨ds', hds'⟩ := hdone' symbol hs ho
        dsimp only
        rw [hds, hds', h symbol hs ho t t' ds ds' ht ht' hds hds']
    rw [htrees]

end Analysis

/-- Where nothing valid is looped, what is found is what the acyclic search finds. -/
theorem transparent_of_not_looped (hcap : parser.cap = none) (hscoped : parser.grammar.Scoped)
    (h : ∀ key d, ¬Derivation.Looped parser sentence key d) : Transparent parser sentence := by
  have hdone : ∀ (t : Table) key ds, t.Reached parser sentence → t key = some ds →
      ds = key.acyclic parser sentence [] := by
    intro t key ds ht hds
    rw [((ht.complete hcap) key ds hds).acyclic [] (List.nil_subset _) List.not_mem_nil,
      eq_comm, List.filter_eq_self]
    intro d hd
    obtain ⟨hkey, hvalid, halternating⟩ := ht.all (inherited_valid hscoped) key ds hds d hd
    have hstart := (ht.all (inherited_endsIn parser sentence) key ds hds d hd).1
    cases hu : d.unrepeated [] with
    | true => rfl
    | false => exact absurd ⟨hkey, hstart, hvalid, halternating, hu⟩ (h key d)
  intro requests request
  refine Analysis.seen_eq_of_done requests [] fun symbol _ _ t t' ds ds' ht ht' hds hds' => ?_
  rw [hdone t _ ds ht hds, hdone t' _ ds' ht' hds']

namespace Frame

variable {t t' : Table} {f : Frame} {key : Key} {d : Derivation}

/-- A run finds a derivation of which all parts are done. -/
theorem Runs.mem_results (hcap : parser.cap = none)
    (run : (start parser.grammar [] key).Runs parser sentence t t' f)
    (hbuilds : key.Builds parser sentence Key.IsKeyOf d) (htab : t key = none)
    (ht : t.Complete parser sentence) (hholds : t.Holds (Derivation.among d.parts)) :
    d ∈ f.results := by
  have hkey : f.key = key := run.key_call
  have hpath : f.path = [] := run.path_call
  have hopen : ∀ k ∈ f.key :: f.path, t k = none := by simpa [hkey, hpath] using htab
  have hgrants : f.Grants parser sentence t (t.kept (Derivation.among d.parts) [])
      (Derivation.among d.parts) :=
    grants_kept (Derivation.among_word d.parts) hholds hopen (Table.cut_eq_nil run) (by simp)
  obtain ⟨-, hagree⟩ := run.agree hcap (by simpa using htab) ht
  have houtlook := hagree _ _ hgrants
  rw [outlook_view_done hcap run.alternatives_eq, view_start, outlook_start] at houtlook
  refine (List.mem_filter.mp ((Key.mem_expandWith hcap houtlook.symm).mpr ?_)).1
  refine hbuilds.mono fun callee part hp hk => ?_
  obtain ⟨ds, hds, hmem⟩ := hholds part callee (Derivation.among_of_mem hp) hk
  refine ⟨_, Table.kept_of_not_mem List.not_mem_nil,
    List.mem_filter.mpr ⟨?_, Derivation.among_of_mem hp⟩⟩
  rw [hds]
  exact hmem

/-- If nothing is done before, a run for a key finds nothing that has the key further down. -/
theorem Runs.avoids (run : (start parser.grammar [] key).Runs parser sentence (fun _ => none) t f) :
    ∀ d ∈ f.results, ∀ part ∈ d.parts, part.Avoids key := by
  obtain ⟨-, hf⟩ := run.built (inherited_avoids parser sentence key) (by simp) (fun _ _ => rfl)
    (fun _ _ h => by cases h) (.start _ _)
  intro d hd part hp
  rcases (hf.results d hd).parts part hp with ⟨leaf, rfl⟩ | ⟨callee, -, h⟩
  · rw [Derivation.Avoids]
    trivial
  · exact h

end Frame

/-- A least looped derivation is found after requests for its parts, and not before. -/
theorem not_transparent_of_looped (hcap : parser.cap = none) (hscoped : parser.grammar.Scoped)
    (hnames : ∀ symbol < parser.grammar.size,
      parser.grammar.indexOf? (parser.grammar.nameOf symbol) = some symbol)
    (h : ∃ key d, Derivation.Looped parser sentence key d) : ¬Transparent parser sentence := by
  intro htransparent
  obtain ⟨key, d, hd, hmin⟩ := Derivation.exists_minimal_looped h
  obtain ⟨hr, -⟩ := hd.valid.builds hscoped hd.key?_eq hd.start_le
  have hbuilds := ((Derivation.valid_iff hscoped hd.key?_eq).mp hd.valid).1
  obtain ⟨requests, t, hshows, ht, hholds, hnone⟩ := Analysis.exists_primed hcap hscoped hnames hd
    (hd.unrepeated_parts hscoped hmin) (List.append_nil d.parts).symm
  obtain ⟨t', ds, hcalls, hds, -, hseen⟩ :=
    hshows.seen (hnames _ hr.1) hr.2 key.inherited
  obtain ⟨t₀, ds₀, hcalls₀, hds₀, -, hseen₀⟩ :=
    (Analysis.shows_ofSentence parser sentence).seen (hnames _ hr.1) hr.2 key.inherited
  have ht' := ht.call hcalls
  have ht₀ := Table.Reached.empty.call hcalls₀
  -- Both answers have the same unrepeated derivations; the later one has `d` besides, and the fresh
  -- one has nothing repeated that is as large.
  have hfound : d ∈ ds := by
    obtain ⟨_, f, run, rfl⟩ := hcalls.exists_run hnone hr hds
    exact run.mem_results hcap hbuilds hnone (ht.complete hcap) hholds
  have hfresh : ∀ e ∈ ds₀, e.size = d.size → e.unrepeated [] = true := by
    intro e he hsize
    obtain ⟨hkey, hvalid, halternating⟩ := ht₀.all (inherited_valid hscoped) _ _ hds₀ e he
    cases hu : e.unrepeated [] with
    | true => rfl
    | false =>
      have hlooped : e.Looped parser sentence key := ⟨hkey, hr.2, hvalid, halternating, hu⟩
      obtain ⟨_, f, run, rfl⟩ := hcalls₀.exists_run rfl hr hds₀
      exact absurd (run.avoids e he) (hlooped.not_avoids hscoped (hsize ▸ hmin))
  have hunrepeated : ∀ {t : Table} {ds}, t.Reached parser sentence → t key = some ds →
      key.acyclic parser sentence [] = ds.filter (·.unrepeated []) := fun ht hds =>
    (ht.complete hcap key _ hds).acyclic [] (List.nil_subset _) List.not_mem_nil
  have hsame := (hunrepeated ht' hds).symm.trans (hunrepeated ht₀ hds₀)
  have heq := htransparent requests
    (.parseGiven (parser.grammar.nameOf key.symbol) key.start key.inherited)
  rw [hseen, hseen₀] at heq
  exact Derivation.map_tree_ne hsame hfound hd.repeated hfresh (Prod.mk.inj heq).2

/-- Without a cap, requests are answered as if nothing had been asked before if and only if nothing
valid is looped. With a cap or without, a request is answered so if the steady search answers its
key. -/
theorem transparent_iff_not_looped (parser : Parser) {rules : List Rule}
    (hrules : Grammar.ofRules rules = .ok parser.grammar) (sentence : Sentence) :
    (parser.cap = none →
      (Transparent parser sentence ↔ ∀ key d, ¬Derivation.Looped parser sentence key d)) ∧
    ∀ requests request, (∀ symbol, parser.grammar.indexOf? request.start = some symbol →
        request.offset sentence ≤ sentence.length → ∃ depth found,
          Key.steady parser sentence depth (request.key sentence symbol) = some found) →
      ((Analysis.ofSentence parser sentence).afterAll requests).seen request =
        (Analysis.ofSentence parser sentence).seen request := by
  have hscoped := Grammar.scoped_of_ofRules hrules
  refine ⟨fun hcap => ⟨fun htransparent key d hd => ?_, transparent_of_not_looped hcap hscoped⟩,
    fun requests request hsteady => ?_⟩
  · exact not_transparent_of_looped hcap hscoped (fun _ => Grammar.indexOf?_nameOf hrules)
      ⟨key, d, hd⟩ htransparent
  · refine Analysis.seen_eq_of_done requests [] fun symbol hs ho t t' ds ds' ht ht' hds hds' => ?_
    obtain ⟨depth, found, hfound⟩ := hsteady symbol hs ho
    rw [ht.steady _ ds hds depth found hfound, ht'.steady _ ds' hds' depth found hfound]

theorem transparent_direct :
    (Transparent ⟨.empty, .direct, [' '], none⟩ (.ofText ['x', '!']) ↔ ∀ key d,
      ¬Derivation.Looped ⟨.empty, .direct, [' '], none⟩ (.ofText ['x', '!']) key d) ∧
    ((Analysis.ofSentence ⟨.empty, .direct, [' '], none⟩ (.ofText ['x', '!'])).afterAll
        [.parse ['a'] 1]).seen (.parse ['a'] 0) =
      (Analysis.ofSentence ⟨.empty, .direct, [' '], none⟩ (.ofText ['x', '!'])).seen
        (.parse ['a'] 0) := by
  obtain ⟨hiff, hsteady⟩ := transparent_iff_not_looped ⟨.empty, .direct, [' '], none⟩
    Grammar.ofRules_direct (.ofText ['x', '!'])
  refine ⟨hiff rfl, hsteady _ _ fun symbol hs _ => ?_⟩
  have hzero : Grammar.direct.indexOf? ['a'] = some 0 := by decide +kernel
  cases Option.some.inj (hzero.symm.trans hs)
  exact ⟨1, Option.isSome_iff_exists.mp (by decide +kernel)⟩

/-- Two symbols each of which may begin with the other. -/
def Grammar.crossed : Grammar where
  symbols := #[
    ⟨['a'], [⟨['{', 'b', '}'], none, [.term ⟨some ['b'], [], some 1⟩], 0⟩]⟩,
    ⟨['b'], [⟨['{', 'a', '}', '!'], none, [.term ⟨some ['a'], [], some 0⟩, .literal ['!']], 0⟩,
      ⟨['x'], none, [.literal ['x']], 0⟩]⟩]
  undefined := []

theorem Grammar.ofRules_crossed : Grammar.ofRules
    [⟨['a'], ['{', 'b', '}']⟩, ⟨['b'], ['{', 'a', '}', '!']⟩, ⟨['b'], ['x']⟩] = .ok .crossed :=
  ok_of_toOption (by decide +kernel)

/-- `b` in `a` in `b`, of one character, one and two. -/
def Derivation.crossed : Derivation :=
  .expansion ['b'] ⟨1, 0, .empty⟩ 2 .empty
    [.expansion ['a'] ⟨0, 0, .empty⟩ 1 .empty [.expansion ['b'] ⟨1, 0, .empty⟩ 1 .empty []]]

theorem Derivation.looped_crossed : Looped ⟨.empty, .crossed, [' '], none⟩
    (.ofText ['x', '!']) ⟨1, 0, .empty⟩ crossed := by
  have hsentence : Sentence.ofText ['x', '!'] = ⟨['x', '!'], #['x', '!'], #[0, 1, 2]⟩ := by
    decide +kernel
  have hscoped := Grammar.scoped_of_ofRules Grammar.ofRules_crossed
  have hkey : ∀ name key stop features parts,
      (expansion name key stop features parts).key? = some key := fun _ _ _ _ _ => rfl
  rw [hsentence]
  refine ⟨rfl, Nat.zero_le _, ?_, ?_, by decide⟩
  · refine (valid_iff hscoped (hkey _ _ _ _ _)).mpr ⟨?_, ?_⟩
    · exact ⟨_, .head _, rfl, _,
        ⟨_, .phrase rfl (hkey ['a'] _ 1 .empty _) rfl, _, .literal rfl, rfl⟩, rfl⟩
    · rw [parts, List.forall_mem_singleton]
      refine (valid_iff hscoped (hkey _ _ _ _ _)).mpr ⟨?_, ?_⟩
      · exact ⟨_, .head _, rfl, _, ⟨_, .phrase rfl (hkey ['b'] _ 1 .empty []) rfl, rfl⟩, rfl⟩
      · rw [parts, List.forall_mem_singleton]
        refine (valid_iff hscoped (hkey _ _ _ _ _)).mpr ⟨?_, ?_⟩
        · exact ⟨_, .tail _ (.head _), rfl, _, ⟨_, .literal rfl, rfl⟩, rfl⟩
        · exact fun part hp => by cases hp
  · simp [Alternating, crossed, key?]

/-- Once `a` has been asked for, more is found for `b`. -/
theorem not_transparent_crossed :
    ¬Transparent ⟨.empty, .crossed, [' '], none⟩ (.ofText ['x', '!']) :=
  not_transparent_of_looped rfl (Grammar.scoped_of_ofRules Grammar.ofRules_crossed)
    (fun _ => Grammar.indexOf?_nameOf Grammar.ofRules_crossed)
    ⟨_, _, Derivation.looped_crossed⟩

end Concord
