import Concord.Proofs.Acyclic
import Concord.Proofs.Matching
import Concord.Proofs.Position
import Concord.Proofs.Scope

namespace Concord

variable {parser : Parser} {sentence : Sentence}

namespace Derivation

theorem Valid.stop_le (hscoped : parser.grammar.Scoped) {d : Derivation} {key : Key}
    (hvalid : d.Valid parser sentence) (hkey : d.key? = some key)
    (hpos : key.start ≤ sentence.length) : d.stop ≤ sentence.length := by
  induction d using Derivation.induct generalizing key with
  | word leaf => cases hkey
  | expansion name k stop features parts ih =>
    obtain ⟨hbuilds, hparts⟩ := (valid_iff hscoped hkey).mp hvalid
    exact (hbuilds.within hpos fun callee part hp hcallee hstart =>
      ih part hp (hparts part hp) hcallee hstart).1

/-- A valid derivation is built of derivations whose keys are in range. -/
theorem Valid.builds (hscoped : parser.grammar.Scoped) {d : Derivation} {key : Key}
    (hvalid : d.Valid parser sentence) (hkey : d.key? = some key)
    (hpos : key.start ≤ sentence.length) :
    key.InRange parser sentence ∧ key.Builds parser sentence
      (fun callee part => part.key? = some callee ∧ callee.InRange parser sentence) d := by
  obtain ⟨hbuilds, hparts⟩ := (valid_iff hscoped hkey).mp hvalid
  have hends : Ends sentence Key.IsKeyOf d.parts := fun callee part hp hcallee hstart =>
    (hparts part hp).stop_le hscoped hcallee hstart
  refine ⟨⟨hbuilds.symbol_lt, hpos⟩, ?_⟩
  refine (hbuilds.within hpos hends).2.mono fun callee part hp h => ⟨h.1, ?_, h.2⟩
  exact ((valid_iff hscoped h.1).mp (hparts part hp)).1.symbol_lt

end Derivation

/-- Without a cap, the acyclic search finds each valid derivation without a repeated key. -/
theorem Key.mem_acyclic_of_valid (hcap : parser.cap = none) (hscoped : parser.grammar.Scoped)
    {d : Derivation} {key : Key} {path : List Key} (hvalid : d.Valid parser sentence)
    (hkey : d.key? = some key) (hpos : key.start ≤ sentence.length)
    (hpath : d.unrepeated path = true) : d ∈ key.acyclic parser sentence path := by
  induction d using Derivation.induct generalizing key path with
  | word leaf => cases hkey
  | expansion name k stop features parts ih =>
    cases hkey
    obtain ⟨hnot, hunrepeated⟩ := Derivation.unrepeated_expansion.mp hpath
    obtain ⟨hrange, hbuilds⟩ := hvalid.builds hscoped rfl hpos
    have hparts := ((Derivation.valid_iff hscoped rfl).mp hvalid).2
    rw [mem_acyclic hcap hrange hnot]
    exact hbuilds.mono fun callee part hp h =>
      ih part hp (hparts part hp) h.1 h.2.2 (hunrepeated part hp)

theorem Table.Reached.mem_of_valid (hcap : parser.cap = none) (hscoped : parser.grammar.Scoped)
    {t : Table} (ht : t.Reached parser sentence) {key : Key} {ds : List Derivation}
    (hds : t key = some ds) {d : Derivation} (hvalid : d.Valid parser sentence)
    (hkey : d.key? = some key) (hpos : key.start ≤ sentence.length)
    (hunrepeated : d.unrepeated [] = true) : d ∈ ds := by
  have hfound := Key.mem_acyclic_of_valid hcap hscoped hvalid hkey hpos hunrepeated
  rw [(ht.complete hcap key ds hds).acyclic [] (List.nil_subset _) List.not_mem_nil] at hfound
  exact (List.mem_filter.mp hfound).1

/-- Whatever is found is valid, and no expansion in it stands immediately below one with the same
key. -/
theorem inherited_valid (hscoped : parser.grammar.Scoped) :
    Inherited parser sentence [] fun key d =>
      d.key? = some key ∧ d.Valid parser sentence ∧ d.Alternating := by
  intro key d _ _ hbuilds
  have hkey := hbuilds.key?_eq
  have hparts := hbuilds.parts
  refine ⟨hkey, (Derivation.valid_iff hscoped hkey).mpr ⟨?_, fun part hp => ?_⟩, ?_⟩
  · exact hbuilds.mono fun callee part _ h => h.2.1
  · rcases hparts part hp with ⟨leaf, rfl⟩ | ⟨callee, -, -, h, -⟩
    · rw [Derivation.Valid]
      trivial
    · exact h
  · cases d with
    | word leaf => cases hkey
    | expansion name k stop features parts =>
      cases hkey
      rw [Derivation.Alternating]
      refine ⟨fun part hp heq => ?_, fun part hp => ?_⟩
      · rcases hparts part hp with ⟨leaf, rfl⟩ | ⟨callee, hne, hcallee, -⟩
        · cases heq
        · rw [heq] at hcallee
          exact hne (Option.some.inj hcallee).symm
      · rcases hparts part hp with ⟨leaf, rfl⟩ | ⟨callee, -, -, -, h⟩
        · rw [Derivation.Alternating]
          trivial
        · exact h

theorem Derivation.valid_direct : (expansion ['a'] ⟨0, 0, .empty⟩ 1 .empty []).Valid
    ⟨.empty, .direct, [' '], none⟩ (.ofText ['x', '!']) := by
  have hsentence : Sentence.ofText ['x', '!'] = ⟨['x', '!'], #['x', '!'], #[0, 1, 2]⟩ := by
    decide +kernel
  have hkey : (expansion ['a'] ⟨0, 0, .empty⟩ 1 .empty []).key? = some ⟨0, 0, .empty⟩ := rfl
  rw [hsentence, valid_iff (Grammar.scoped_of_ofRules Grammar.ofRules_direct) hkey]
  exact ⟨⟨_, .tail _ (.head _), rfl, _, ⟨_, .literal rfl, rfl⟩, rfl⟩, fun _ hp => by cases hp⟩

namespace Analysis

/-- Each result of a parse is the tree of a valid derivation of the key that is asked for, whatever
was asked before and whatever cut the search short. -/
theorem results_valid (parser : Parser) {rules : List Rule}
    (hrules : Grammar.ofRules rules = .ok parser.grammar) (sentence : Sentence)
    (requests : List Request) {start : Text} {symbol : Nat}
    (hs : parser.grammar.indexOf? start = some symbol) (offset : Nat) (inherited : Features) :
    ∀ tree ∈ (((ofSentence parser sentence).afterAll requests).parseGiven start offset
        inherited).2.results,
      ∃ d : Derivation, d.tree = tree ∧ d.key? = some ⟨symbol, offset, inherited⟩ ∧
        d.Valid parser sentence := by
  change ∀ tree ∈ (((ofSentence parser sentence).afterAll requests).seen
    (.parseGiven start offset inherited)).2, _
  by_cases ho : offset ≤ sentence.length
  · obtain ⟨t, ds, ht, hds, hseen⟩ := seen_of_indexOf? requests hs ho inherited
    rw [hseen]
    intro tree htree
    obtain ⟨d, hd, rfl⟩ := List.mem_map.mp htree
    obtain ⟨hkey, hvalid, -⟩ :=
      ht.all (inherited_valid (Grammar.scoped_of_ofRules hrules)) _ ds hds d hd
    exact ⟨d, rfl, hkey, hvalid⟩
  · rw [seen_of_lt requests start (Nat.not_le.mp ho) inherited]
    simp

theorem results_valid_direct :
    ∃ tree ∈ (((ofSentence ⟨.empty, .direct, [' '], none⟩ (.ofText ['x', '!'])).afterAll
        [.parse ['a'] 1]).parseGiven ['a'] 0 .empty).2.results,
      ∃ d : Derivation, d.tree = tree ∧ d.key? = some ⟨0, 0, .empty⟩ ∧
        d.Valid ⟨.empty, .direct, [' '], none⟩ (.ofText ['x', '!']) := by
  have hs : (Parser.mk .empty .direct [' '] none).grammar.indexOf? ['a'] = some 0 := by
    decide +kernel
  have hscoped := Grammar.scoped_of_ofRules Grammar.ofRules_direct
  obtain ⟨t, ds, ht, hds, hseen⟩ := seen_of_indexOf? [.parse ['a'] 1] hs
    (Nat.zero_le (Sentence.ofText ['x', '!']).length) .empty
  have hmem := ht.mem_of_valid rfl hscoped hds Derivation.valid_direct rfl (Nat.zero_le _)
    (by decide)
  have htree : Derivation.tree _ ∈ ds.map Derivation.tree := List.mem_map_of_mem hmem
  rw [← (Prod.mk.inj hseen).2] at htree
  exact ⟨_, htree, results_valid ⟨.empty, .direct, [' '], none⟩ Grammar.ofRules_direct
    (.ofText ['x', '!']) [.parse ['a'] 1] hs 0 .empty _ htree⟩

/-- A parse without a cap finds every valid derivation of the key that is asked for in which no key
stands within an expansion of the same key, whatever was asked before. -/
theorem results_complete (parser : Parser) {rules : List Rule}
    (hrules : Grammar.ofRules rules = .ok parser.grammar) (hcap : parser.cap = none)
    (sentence : Sentence) (requests : List Request) {start : Text} {symbol : Nat}
    (hs : parser.grammar.indexOf? start = some symbol) {offset : Nat}
    (ho : offset ≤ sentence.length) (inherited : Features) :
    let parse := ((ofSentence parser sentence).afterAll requests).parseGiven start offset inherited
    parse.1 = .ok () ∧ ∀ d : Derivation, d.key? = some ⟨symbol, offset, inherited⟩ →
      d.Valid parser sentence → d.unrepeated [] = true → d.tree ∈ parse.2.results := by
  obtain ⟨t, ds, ht, hds, hseen⟩ := seen_of_indexOf? requests hs ho inherited
  obtain ⟨houtcome, hresults⟩ := Prod.mk.inj hseen
  refine ⟨houtcome, fun d hkey hvalid hunrepeated => ?_⟩
  have hfound := ht.mem_of_valid hcap (Grammar.scoped_of_ofRules hrules) hds hvalid hkey ho
    hunrepeated
  have hmem : d.tree ∈ ds.map Derivation.tree := List.mem_map_of_mem hfound
  rw [← hresults] at hmem
  exact hmem

theorem results_complete_direct :
    .phrase ['a'] 0 1 .empty [] ∈ (((ofSentence ⟨.empty, .direct, [' '], none⟩
      (.ofText ['x', '!'])).afterAll [.parse ['a'] 1]).parseGiven ['a'] 0 .empty).2.results := by
  have hs : Grammar.direct.indexOf? ['a'] = some 0 := by decide +kernel
  obtain ⟨-, hall⟩ := results_complete ⟨.empty, .direct, [' '], none⟩ Grammar.ofRules_direct rfl
    (.ofText ['x', '!']) [.parse ['a'] 1] hs (Nat.zero_le _) .empty
  simpa using hall _ rfl Derivation.valid_direct (by decide)

end Analysis

end Concord
