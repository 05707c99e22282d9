import Concord.Proofs.Grounded
import Mathlib.Data.List.Flatten

namespace Concord

/-- Each attribute of some features is there in the others too, with the same value. -/
def Features.Within (features features' : Features) : Prop :=
  ∀ kind value, features.get kind = some value → features'.get kind = some value

namespace Features

variable {features features' features'' : Features}

theorem mem_toList {value : Feature} :
    value ∈ features.toList ↔ features.get value.kind = some value := by
  rw [toList, List.mem_filterMap]
  constructor
  · rintro ⟨kind, -, hvalue⟩
    rwa [kind_of_get hvalue]
  · intro hvalue
    exact ⟨value.kind, by cases value.kind <;> decide, hvalue⟩

theorem within_iff : features.Within features' ↔
    ∀ value ∈ features.toList, features'.get value.kind = some value := by
  constructor
  · intro h value hvalue
    exact h _ _ (mem_toList.mp hvalue)
  · intro h kind value hvalue
    have hkind := kind_of_get hvalue
    subst hkind
    exact h value (mem_toList.mpr hvalue)

instance : Decidable (features.Within features') :=
  decidable_of_iff' _ within_iff

theorem Within.trans (h : features.Within features') (h' : features'.Within features'') :
    features.Within features'' :=
  fun kind value hvalue => h' kind value (h kind value hvalue)

end Features

variable {parser : Parser} {sentence : Sentence}

/-- What is admitted with more attributes is admitted with fewer. -/
theorem Pattern.admits_of_within {pattern : Pattern} {inherited inherited' : Features}
    (hwithin : inherited.Within inherited') (h : pattern.admits inherited' = true) :
    pattern.admits inherited = true := by
  unfold admits at h ⊢
  cases hguard : pattern.guard with
  | none => rfl
  | some value =>
    rw [hguard] at h
    dsimp only at h ⊢
    cases hvalue : inherited.get value.kind with
    | none => rfl
    | some other => rwa [hwithin _ _ hvalue] at h

theorem gather_sublist {α β : Type} {f : α → Option (List β)} {xs xs' : List α} {ys ys' : List β}
    (hsub : xs.Sublist xs') (h : gather f xs = some ys) (h' : gather f xs' = some ys') :
    ys.Sublist ys' := by
  obtain ⟨-, rfl⟩ := gather_eq_some.mp h
  obtain ⟨-, rfl⟩ := gather_eq_some.mp h'
  exact hsub.flatMap _

namespace Key

variable {answers answers' : Answers} {key callee : Key} {found : List Derivation}

/-- What a key finds by one of its alternatives. -/
def treesBy (parser : Parser) (sentence : Sentence) (answers : Answers) (key : Key)
    (pattern : Pattern) : Option (List Tree) :=
  (Strand.advanceAll parser sentence answers pattern.elements [.start key.start pattern]).map
    (·.filterMap fun strand =>
      strand.branch.finish? (parser.grammar.nameOf key.symbol) key.start)

theorem tryEach_trees (key : Key) (patterns : List Pattern) :
    (key.tryEach parser sentence answers patterns).map (·.map Derivation.tree) =
      gather (key.treesBy parser sentence answers) patterns := by
  induction patterns with
  | nil => rfl
  | cons pattern patterns ih =>
    rw [tryEach, gather, ← ih, treesBy]
    cases Strand.advanceAll parser sentence answers pattern.elements
        [.start key.start pattern] with
    | none => rfl
    | some strands =>
      cases key.tryEach parser sentence answers patterns with
      | none => rfl
      | some later => simp [List.map_filterMap, Strand.tree_finish?]

theorem expandWith_trees (hcap : parser.cap = none) (sentence : Sentence) (answers : Answers)
    (key : Key) :
    (key.expandWith parser sentence answers).map (·.map Derivation.tree) =
      gather (key.treesBy parser sentence answers)
        ((parser.grammar.alternatives key.symbol).filter (·.admits key.inherited)) := by
  have hlimit : ∀ ds, parser.limit ds = ds := fun ds => by rw [Parser.limit, hcap]
  rw [← tryEach_trees, expandWith, Option.map_map]
  simp only [Function.comp_def, hlimit]

theorem treesBy_of_calls {pattern : Pattern} {made : List Tree}
    (h : key.treesBy parser sentence answers pattern = some made)
    (hcalls : ∀ callee, (Strand.start key.start pattern).Asks parser sentence answers.Has
      pattern.elements callee → ∀ found, answers callee = some found →
        answers' callee = some found) :
    key.treesBy parser sentence answers' pattern = some made := by
  obtain ⟨strands, hstrands, rfl⟩ := Option.map_eq_some_iff.mp h
  rw [treesBy,
    Strand.advanceAll_of_calls hstrands (List.forall_mem_singleton.mpr hcalls), Option.map_some]

/-- On a path that the plain search does not lead back to, the acyclic search finds the same. -/
theorem acyclic_eq_of_plain {depth : Nat} {path : List Key}
    (h : key.plain parser sentence depth = some found) (hpos : key.start ≤ sentence.length)
    (hpath : ∀ outer ∈ path, ¬key.Visits parser sentence outer) :
    key.acyclic parser sentence path = found := by
  induction depth generalizing key found path with
  | zero => cases h
  | succ depth ih =>
    by_cases hr : key.InRange parser sentence
    · have hgrounded : key.Grounded parser sentence := ⟨depth + 1, found, h⟩
      have hcalls : ∀ callee,
          key.Calls parser sentence (Answers.Has (plain parser sentence depth)) callee →
            ∀ answer, callee.plain parser sentence depth = some answer →
              some (callee.acyclic parser sentence (key :: path)) = some answer := by
        intro callee hcall answer hanswer
        have hfinds : key.Calls parser sentence (Finds parser sentence) callee :=
          hcall.mono fun _ _ hhas => ⟨depth, hhas⟩
        have hself : ¬callee.Visits parser sentence key := fun hback =>
          hgrounded.not_transGen (.head' hfinds hback)
        have houter : ∀ outer ∈ path, ¬callee.Visits parser sentence outer :=
          fun outer hmem hvisits => hpath outer hmem (hvisits.head hfinds)
        rw [ih hanswer (hfinds.start_le hpos) (List.forall_mem_cons.mpr ⟨hself, houter⟩)]
      rw [plain] at h
      have hexpand := expandWith_of_calls h hcalls
      rw [acyclic_eq hr fun hmem => hpath key hmem .refl] at hexpand
      exact Option.some.inj hexpand
    · rw [acyclic_of_outside hr]
      exact (steady_outside hr hpos (plain_le_steady _ _ _ h)).symm

variable {symbol offset depth : Nat} {inherited inherited' : Features}

/-- What the plain search finds with more attributes, the acyclic search finds with fewer. -/
theorem plain_sublist_acyclic (hcap : parser.cap = none) (hwithin : inherited.Within inherited')
    (hr : Key.InRange parser sentence ⟨symbol, offset, inherited⟩)
    (h : plain parser sentence depth ⟨symbol, offset, inherited'⟩ = some found) :
    (found.map Derivation.tree).Sublist
      ((acyclic parser sentence [] ⟨symbol, offset, inherited⟩).map Derivation.tree) := by
  cases depth with
  | zero => cases h
  | succ depth =>
    have hgrounded : Grounded parser sentence ⟨symbol, offset, inherited'⟩ := ⟨_, _, h⟩
    have hmore := expandWith_trees hcap sentence (plain parser sentence depth)
      ⟨symbol, offset, inherited'⟩
    have hfewer := expandWith_trees hcap sentence
      (fun callee => some (callee.acyclic parser sentence [⟨symbol, offset, inherited⟩]))
      ⟨symbol, offset, inherited⟩
    rw [← plain, h, Option.map_some] at hmore
    rw [acyclic_eq hr List.not_mem_nil, Option.map_some] at hfewer
    refine gather_sublist ?_ (gather_mono hmore.symm fun pattern hpattern made hmade => ?_)
      hfewer.symm
    · exact List.monotone_filter_right _ fun pattern hadmits =>
        pattern.admits_of_within hwithin hadmits
    · obtain ⟨hmem, hadmits⟩ := List.mem_filter.mp hpattern
      refine treesBy_of_calls hmade fun callee hasks answer hanswer => congrArg some ?_
      have hfinds : (Strand.start offset pattern).Asks parser sentence (Finds parser sentence)
          pattern.elements callee := hasks.mono fun _ _ hhas => ⟨depth, hhas⟩
      have hcall : Calls parser sentence (Finds parser sentence) ⟨symbol, offset, inherited'⟩
          callee := ⟨pattern, hmem, hadmits, hfinds⟩
      refine acyclic_eq_of_plain hanswer (hcall.start_le hr.2) (List.forall_mem_singleton.mpr ?_)
      -- The key with fewer attributes would be grounded, and yet its call leads back to it.
      intro hback
      have hcall' : Calls parser sentence (Finds parser sentence) ⟨symbol, offset, inherited⟩
          callee := ⟨pattern, hmem, pattern.admits_of_within hwithin hadmits, hfinds⟩
      exact (hgrounded.visits (hback.head hcall)).not_transGen (.head' hcall' hback)

/-- Attributes that no guard contradicts make no difference. -/
theorem plain_of_admits (hcap : parser.cap = none) (hwithin : inherited.Within inherited')
    (hadmits : ∀ pattern ∈ parser.grammar.alternatives symbol, pattern.admits inherited' = true)
    (h : plain parser sentence depth ⟨symbol, offset, inherited'⟩ = some found) :
    ∃ found', plain parser sentence depth ⟨symbol, offset, inherited⟩ = some found' ∧
      found'.map Derivation.tree = found.map Derivation.tree := by
  cases depth with
  | zero => cases h
  | succ depth =>
    have hmore := expandWith_trees hcap sentence (plain parser sentence depth)
      ⟨symbol, offset, inherited'⟩
    have hfewer := expandWith_trees hcap sentence (plain parser sentence depth)
      ⟨symbol, offset, inherited⟩
    have hall : ∀ features : Features, features.Within inherited' →
        (parser.grammar.alternatives symbol).filter (·.admits features) =
          parser.grammar.alternatives symbol := fun features hfeatures =>
      List.filter_eq_self.mpr fun pattern hp =>
        pattern.admits_of_within hfeatures (hadmits pattern hp)
    rw [← plain, h, Option.map_some, hall inherited' fun _ _ hvalue => hvalue] at hmore
    rw [← plain, hall inherited hwithin] at hfewer
    exact Option.map_eq_some_iff.mp (hfewer.trans hmore.symm)

end Key

/-- Of the words of which some attributes are asked for, those that have more of them too. -/
theorem Parser.wordTrees_filter (parser : Parser) (sentence : Sentence) (name : Text) (pos : Nat)
    {inherited inherited' : Features} (hwithin : inherited.Within inherited') :
    (parser.wordTrees sentence name pos inherited).filter (inherited'.Within ·.features) =
      parser.wordTrees sentence name pos inherited' := by
  have hfits : ∀ (features : Features) (leaf : Leaf), (features.toList.all fun value =>
      leaf.features.get value.kind = some value) = decide (features.Within leaf.features) := by
    intro features leaf
    rw [Bool.eq_iff_iff, List.all_eq_true, decide_eq_true_iff, Features.within_iff]
    simp only [decide_eq_true_eq]
  simp only [wordTrees, hfits]
  rw [List.filter_map, List.filter_filter]
  refine congrArg (List.map _) (List.filter_congr fun leaf _ => ?_)
  rw [Bool.eq_iff_iff, Bool.and_eq_true, Function.comp_apply, decide_eq_true_iff,
    decide_eq_true_iff, decide_eq_true_iff]
  exact ⟨fun h => h.1, fun h => ⟨h, hwithin.trans h⟩⟩

/-- Of what gets done for a symbol, what is done with more attributes is a part of what is done with
fewer, and all of it if no guard contradicts them. -/
theorem Table.Reached.trees_inherited (hcap : parser.cap = none) {inherited inherited' : Features}
    (hwithin : inherited.Within inherited') {symbol offset : Nat} {t t' : Table}
    {ds ds' : List Derivation} (ht : t.Reached parser sentence)
    (hds : t ⟨symbol, offset, inherited⟩ = some ds) (ht' : t'.Reached parser sentence)
    (hds' : t' ⟨symbol, offset, inherited'⟩ = some ds')
    (hr : Key.InRange parser sentence ⟨symbol, offset, inherited⟩)
    (hgrounded : Key.Grounded parser sentence ⟨symbol, offset, inherited'⟩) :
    (ds'.map Derivation.tree).Sublist (ds.map Derivation.tree) ∧
      ((∀ pattern ∈ parser.grammar.alternatives symbol, pattern.admits inherited' = true) →
        ds'.map Derivation.tree = ds.map Derivation.tree) := by
  obtain ⟨depth, found, hfound⟩ := hgrounded
  have heq : ds' = found := ht'.steady _ _ hds' _ _ (Key.plain_le_steady _ _ _ hfound)
  subst heq
  refine ⟨?_, fun hadmits => ?_⟩
  · have hsub := Key.plain_sublist_acyclic hcap hwithin hr hfound
    rw [(ht.complete hcap _ _ hds).acyclic [] (List.nil_subset _) List.not_mem_nil] at hsub
    exact hsub.trans (List.filter_sublist.map _)
  · obtain ⟨found, hfound', htrees⟩ := Key.plain_of_admits hcap hwithin hadmits hfound
    have heq := ht.steady _ _ hds _ _ (Key.plain_le_steady _ _ _ hfound')
    rw [heq, htrees]

namespace Analysis

/-- Without a cap, with more attributes handed down to the start symbol a parse finds some of what
it finds with fewer, in the same order, if the search for more meets no left recursion; all of it,
if no guard of the start symbol contradicts them. A start symbol without rules keeps to the words
that have them. What was asked before makes no difference. -/
theorem seen_inherited (parser : Parser) (hcap : parser.cap = none) (sentence : Sentence)
    (start : Text) (offset : Nat) {inherited inherited' : Features}
    (hwithin : inherited.Within inherited') (requests requests' : List Request) :
    let fewer := ((ofSentence parser sentence).afterAll requests).seen
      (.parseGiven start offset inherited)
    let more := ((ofSentence parser sentence).afterAll requests').seen
      (.parseGiven start offset inherited')
    more.1 = fewer.1 ∧
    (∀ symbol, parser.grammar.indexOf? start = some symbol →
      Key.Grounded parser sentence ⟨symbol, offset, inherited'⟩ →
        more.2.Sublist fewer.2 ∧
        ((∀ pattern ∈ parser.grammar.alternatives symbol, pattern.admits inherited' = true) →
          more.2 = fewer.2)) ∧
    (parser.grammar.indexOf? start = none →
      more.2 = fewer.2.filter (inherited'.Within ·.features)) := by
  intro fewer more
  by_cases hlt : sentence.length < offset
  · have hfewer := seen_beyond parser requests (.parseGiven start offset inherited) hlt
    have hmore := seen_beyond parser requests' (.parseGiven start offset inherited') hlt
    rw [show fewer = _ from hfewer, show more = _ from hmore]
    exact ⟨rfl, fun _ _ _ => ⟨.refl _, fun _ => rfl⟩, fun _ => rfl⟩
  have ho := Nat.not_lt.mp hlt
  have hkeeps : ∀ (features : Features) (trees : List Tree),
      trees.filter (Request.keeps sentence (.parseGiven start offset features)) = trees :=
    fun features trees => List.filter_eq_self.mpr fun _ _ => rfl
  cases hs : parser.grammar.indexOf? start with
  | none =>
    have hfewer := seen_words parser requests (.parseGiven start offset inherited) hs ho
    have hmore := seen_words parser requests' (.parseGiven start offset inherited') hs ho
    rw [hkeeps] at hfewer hmore
    rw [show fewer = _ from hfewer, show more = _ from hmore]
    exact ⟨rfl, nofun, fun _ =>
      (parser.wordTrees_filter sentence start offset hwithin).symm⟩
  | some symbol =>
    obtain ⟨t, ds, ht, hds, hfewer⟩ := seen_of_indexOf? requests hs ho inherited
    obtain ⟨t', ds', ht', hds', hmore⟩ := seen_of_indexOf? requests' hs ho inherited'
    rw [show fewer = _ from hfewer, show more = _ from hmore]
    refine ⟨rfl, fun _ h hgrounded => ?_, nofun⟩
    cases h
    have hr : Key.InRange parser sentence ⟨symbol, offset, inherited⟩ :=
      ⟨(Array.findIdx?_eq_some_iff_getElem.mp hs).1, ho⟩
    exact Table.Reached.trees_inherited hcap hwithin ht hds ht' hds' hr hgrounded

/-- The guard of the second alternative contradicts the singular, which is asked for in addition
after a parse without it. -/
theorem seen_inherited_singular :
    let parser : Parser := ⟨.empty, ⟨#[⟨['a'], [⟨['x'], none, [.literal ['x']], 0⟩,
      ⟨"@{number=plur}x".toList, some (.number .plur), [.literal ['x']], 0⟩]⟩], []⟩, [' '], none⟩
    let noun : Features := { pos := some .noun }
    let singular : Features := { pos := some .noun, number := some .sing }
    let fewer := ((ofSentence parser (.ofText ['x'])).afterAll []).seen
      (.parseGiven ['a'] 0 noun)
    let more := ((ofSentence parser (.ofText ['x'])).afterAll [.parseGiven ['a'] 0 noun]).seen
      (.parseGiven ['a'] 0 singular)
    noun.Within singular ∧ fewer.2 = [.phrase ['a'] 0 1 .empty [], .phrase ['a'] 0 1 .empty []] ∧
      more.2 = [.phrase ['a'] 0 1 .empty []] ∧ more.2.Sublist fewer.2 := by
  intro parser noun singular fewer more
  have hsentence : Sentence.ofText ['x'] = ⟨['x'], #['x'], #[0, 1]⟩ := by decide +kernel
  have hs : parser.grammar.indexOf? ['a'] = some 0 := by decide +kernel
  have hfewer : Key.plain parser (.ofText ['x']) 1 ⟨0, 0, noun⟩ =
      some [.expansion ['a'] ⟨0, 0, noun⟩ 1 .empty [],
        .expansion ['a'] ⟨0, 0, noun⟩ 1 .empty []] := by
    rw [hsentence]
    rfl
  have hmore : Key.plain parser (.ofText ['x']) 1 ⟨0, 0, singular⟩ =
      some [.expansion ['a'] ⟨0, 0, singular⟩ 1 .empty []] := by
    rw [hsentence]
    rfl
  have hwithin : noun.Within singular := by decide
  obtain ⟨-, hsub, -⟩ := seen_inherited parser rfl (.ofText ['x']) ['a'] 0 hwithin []
    [.parseGiven ['a'] 0 noun]
  have hseen := seen_plain parser [] (.parseGiven ['a'] 0 noun) hs (Nat.zero_le _) hfewer
  have hseen' := seen_plain parser [.parseGiven ['a'] 0 noun] (.parseGiven ['a'] 0 singular) hs
    (Nat.zero_le _) hmore
  refine ⟨hwithin, ?_, ?_, (hsub 0 hs ⟨1, _, hmore⟩).1⟩
  · rw [show fewer = _ from hseen]
    simp [Request.keeps]
  · rw [show more = _ from hseen']
    simp [Request.keeps]

end Analysis

end Concord
