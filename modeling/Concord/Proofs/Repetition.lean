import Concord.Proofs.Results
import Mathlib.Order.WellFounded

namespace Concord

namespace Derivation

noncomputable def size (d : Derivation) : Nat :=
  sizeOf d.tree

theorem size_lt_of_mem {d part : Derivation} (h : part ∈ d.parts) : part.size < d.size := by
  cases d with
  | word leaf => cases h
  | expansion name key stop features parts =>
    have hmem : part.tree ∈ parts.map tree := List.mem_map_of_mem h
    have hlt := List.sizeOf_lt_of_mem hmem
    rw [size, size, tree_expansion, Tree.phrase.sizeOf_spec]
    omega

/-- Where the unrepeated derivations of two lists are the same, the trees differ if a repeated one
is in the first list, and none as large in the second. -/
theorem map_tree_ne {ds ds' : List Derivation} {d : Derivation}
    (hsame : ds.filter (·.unrepeated []) = ds'.filter (·.unrepeated [])) (hd : d ∈ ds)
    (hrepeated : d.unrepeated [] = false)
    (hlarge : ∀ e ∈ ds', e.size = d.size → e.unrepeated [] = true) :
    ds.map tree ≠ ds'.map tree := by
  intro heq
  have hcount : ds.countP (·.size = d.size) = ds'.countP (·.size = d.size) := by
    have h := congrArg (List.countP (sizeOf · = d.size)) heq
    rwa [List.countP_map, List.countP_map] at h
  rw [List.countP_eq_countP_filter_add ds _ (·.unrepeated []),
    List.countP_eq_countP_filter_add ds' _ (·.unrepeated []), hsame] at hcount
  have hsome : 0 < (ds.filter (!·.unrepeated [])).countP (·.size = d.size) :=
    List.countP_pos_iff.mpr ⟨d, by simp [hd, hrepeated], by simp⟩
  have hnone : (ds'.filter (!·.unrepeated [])).countP (·.size = d.size) = 0 := by
    rw [List.countP_eq_zero]
    intro e he hsize
    obtain ⟨he, hu⟩ := List.mem_filter.mp he
    rw [hlarge e he (by simpa using hsize)] at hu
    cases hu
  omega

/-- A derivation without a key is unrepeated below that key too. -/
theorem Avoids.unrepeated {d : Derivation} {key : Key} {path : List Key} (h : d.Avoids key)
    (hd : d.unrepeated path = true) : d.unrepeated (path ++ [key]) = true := by
  induction d using Derivation.induct generalizing path with
  | word leaf => rfl
  | expansion name k stop features parts ih =>
    rw [Avoids] at h
    rw [unrepeated_expansion] at hd ⊢
    refine ⟨?_, fun part hp => ?_⟩
    · rw [List.mem_append, List.mem_singleton]
      exact fun hm => hm.elim hd.1 h.1
    · exact ih part hp (h.2 part hp) (hd.2 part hp)

/-- A derivation of a key in the sentence that is valid and alternates, but repeats a key. -/
structure Looped (parser : Parser) (sentence : Sentence) (key : Key) (d : Derivation) : Prop where
  key?_eq : d.key? = some key
  start_le : key.start ≤ sentence.length
  valid : d.Valid parser sentence
  alternating : d.Alternating
  repeated : d.unrepeated [] = false

variable {parser : Parser} {sentence : Sentence} {key : Key} {d : Derivation}

theorem exists_minimal_looped (h : ∃ key d, Looped parser sentence key d) :
    ∃ key d, Looped parser sentence key d ∧
      ∀ key' d', Looped parser sentence key' d' → d.size ≤ d'.size := by
  obtain ⟨key, d, hd⟩ := h
  obtain ⟨m, ⟨k, hm⟩, hmin⟩ := (measure size).wf.has_min
    {d | ∃ key, Looped parser sentence key d} ⟨d, key, hd⟩
  exact ⟨k, m, hm, fun k' d' h' => Nat.not_lt.mp (hmin d' ⟨k', h'⟩)⟩

theorem Alternating.parts (h : d.Alternating) (hkey : d.key? = some key) :
    ∀ part ∈ d.parts, part.key? ≠ some key ∧ part.Alternating := by
  cases d with
  | word leaf => cases hkey
  | expansion name k stop features parts =>
    cases hkey
    rw [Alternating] at h
    exact fun part hp => ⟨h.1 part hp, h.2 part hp⟩

/-- In a least looped derivation, the parts are not looped. -/
theorem Looped.unrepeated_parts (hscoped : parser.grammar.Scoped)
    (h : Looped parser sentence key d)
    (hmin : ∀ key' d', Looped parser sentence key' d' → d.size ≤ d'.size) :
    ∀ part ∈ d.parts, part.unrepeated [] = true := by
  intro part hp
  obtain ⟨-, hbuilds⟩ := h.valid.builds hscoped h.key?_eq h.start_le
  rcases hbuilds.parts part hp with ⟨leaf, rfl⟩ | ⟨callee, hcallee, hrange⟩
  · rfl
  · cases hu : part.unrepeated [] with
    | true => rfl
    | false =>
      have hvalid := ((valid_iff hscoped h.key?_eq).mp h.valid).2 part hp
      have hlooped : Looped parser sentence callee part :=
        ⟨hcallee, hrange.2, hvalid, ((h.alternating.parts h.key?_eq) part hp).2, hu⟩
      have hlt := size_lt_of_mem hp
      have hle := hmin callee part hlooped
      omega

/-- In a least looped derivation, the key of the derivation stands within a part. -/
theorem Looped.not_avoids (hscoped : parser.grammar.Scoped) (h : Looped parser sentence key d)
    (hmin : ∀ key' d', Looped parser sentence key' d' → d.size ≤ d'.size) :
    ¬∀ part ∈ d.parts, part.Avoids key := by
  intro hall
  have hparts := h.unrepeated_parts hscoped hmin
  have hu : d.unrepeated [] = true := by
    rw [unrepeated_eq h.key?_eq List.not_mem_nil, List.all_eq_true]
    exact fun part hp => (hall part hp).unrepeated (hparts part hp)
  rw [h.repeated] at hu
  cases hu

end Derivation

/-- Below an expansion of a key, nothing with that key is found. -/
theorem inherited_avoids (parser : Parser) (sentence : Sentence) (avoided : Key) :
    Inherited parser sentence [avoided] fun _ d => d.Avoids avoided := by
  intro key d hn _ hbuilds
  have hkey := hbuilds.key?_eq
  have hparts := hbuilds.parts
  cases d with
  | word leaf => cases hkey
  | expansion name k stop features parts =>
    cases hkey
    rw [Derivation.Avoids]
    refine ⟨fun heq => hn (List.mem_singleton.mpr heq), fun part hp => ?_⟩
    rcases hparts part hp with ⟨leaf, rfl⟩ | ⟨callee, -, h⟩
    · rw [Derivation.Avoids]
      trivial
    · exact h

end Concord
