import Concord.Proofs.Calls
import Concord.Proofs.Soundness

namespace Concord

theorem length_filter_not_mem_lt {keys path : List Key} {key : Key} (hm : key ∈ keys)
    (hn : key ∉ path) :
    (keys.filter (· ∉ key :: path)).length < (keys.filter (· ∉ path)).length := by
  have hsub : keys.filter (· ∉ key :: path) = (keys.filter (· ∉ path)).filter (· ≠ key) := by
    rw [List.filter_filter]
    exact List.filter_congr (by simp)
  rw [hsub]
  have hmem : key ∈ keys.filter (· ∉ path) := List.mem_filter.mpr ⟨hm, by simpa using hn⟩
  refine Nat.lt_of_le_of_ne (List.length_filter_le _ _) fun heq => ?_
  have hall := List.length_filter_eq_length_iff.mp heq key hmem
  simp at hall

/-- The derivations of a key in which no key stands within an expansion of the same key, those of
`path` being expanded further out. -/
def Key.acyclic (parser : Parser) (sentence : Sentence) (path : List Key) (key : Key) :
    List Derivation :=
  if _h : key.InRange parser sentence ∧ key ∉ path then
    (key.expandWith parser sentence fun callee =>
      some (callee.acyclic parser sentence (key :: path))).getD []
  else
    []
termination_by ((Key.every parser sentence).filter (· ∉ path)).length
decreasing_by exact length_filter_not_mem_lt (Key.mem_every _h.1) _h.2

namespace Key

variable {parser : Parser} {sentence : Sentence} {path : List Key} {key : Key}

theorem acyclic_of_mem (h : key ∈ path) : key.acyclic parser sentence path = [] := by
  rw [acyclic, dif_neg fun hn => hn.2 h]

theorem acyclic_of_outside (h : ¬key.InRange parser sentence) :
    key.acyclic parser sentence path = [] := by
  rw [acyclic, dif_neg fun hn => h hn.1]

theorem acyclic_eq (hr : key.InRange parser sentence) (hn : key ∉ path) :
    key.expandWith parser sentence (fun callee =>
      some (callee.acyclic parser sentence (key :: path))) =
        some (key.acyclic parser sentence path) := by
  obtain ⟨ds, hds⟩ : ∃ ds, key.expandWith parser sentence (fun callee =>
      some (callee.acyclic parser sentence (key :: path))) = some ds :=
    exists_expandWith fun callee _ => ⟨_, rfl⟩
  rw [acyclic, dif_pos ⟨hr, hn⟩, hds]
  rfl

theorem mem_acyclic (hcap : parser.cap = none) (hr : key.InRange parser sentence)
    (hn : key ∉ path) {d : Derivation} :
    d ∈ key.acyclic parser sentence path ↔ key.Builds parser sentence
      (fun callee part => part ∈ callee.acyclic parser sentence (key :: path)) d := by
  rw [mem_expandWith hcap (acyclic_eq hr hn)]
  have hiff : ∀ callee part,
      Answers.Has (fun callee => some (callee.acyclic parser sentence (key :: path))) callee part ↔
        part ∈ callee.acyclic parser sentence (key :: path) := by
    intro callee part
    simp [Answers.Has]
  exact ⟨fun h => h.mono fun callee part _ => (hiff callee part).mp,
    fun h => h.mono fun callee part _ => (hiff callee part).mpr⟩

end Key

/-- However the expansions further out cut it short, what was found for a key has all derivations
without a repeated key, in order, provided that the keys of `cut` are among those further out. -/
structure Answered (parser : Parser) (sentence : Sentence) (key : Key) (ds : List Derivation)
    (cut : List Key) : Prop where
  key?_eq : ∀ d ∈ ds, d.key? = some key
  acyclic : ∀ path, cut ⊆ path → key ∉ path →
    key.acyclic parser sentence path = ds.filter (·.unrepeated path)

/-- What is done is answered whatever stands further out. -/
def Table.Complete (t : Table) (parser : Parser) (sentence : Sentence) : Prop :=
  ∀ key ds, t key = some ds → Answered parser sentence key ds []

/-- Answers that grant a frame what it has been told, of which some derivations are kept. -/
structure Frame.Grants (parser : Parser) (sentence : Sentence) (t : Table) (f : Frame)
    (answers : Answers) (keep : Derivation → Bool) : Prop where
  word : ∀ leaf, keep (.word leaf) = true
  outside : ∀ key, t key = none → ¬key.InRange parser sentence → answers key = some []
  cut : ∀ key ∈ f.key :: f.cut, answers key = some []
  done : ∀ key ds, t key = some ds → answers key = some (ds.filter keep)
  fresh : ∀ key ds, key ∉ f.key :: f.path → t key = none →
    Answered parser sentence key ds (f.key :: f.cut) → answers key = some (ds.filter keep)

variable {parser : Parser} {sentence : Sentence}

theorem Answered.mono {key : Key} {ds : List Derivation} {cut cut' : List Key}
    (h : Answered parser sentence key ds cut) (hsub : cut ⊆ cut') :
    Answered parser sentence key ds cut' :=
  ⟨h.key?_eq, fun path hpath hn => h.acyclic path (List.Subset.trans hsub hpath) hn⟩

/-- An answer holds on a path too that the key itself is on. -/
theorem Answered.filter {key : Key} {ds : List Derivation} {cut path : List Key}
    (h : Answered parser sentence key ds cut) (hsub : cut ⊆ path) :
    key.acyclic parser sentence path = ds.filter (·.unrepeated path) := by
  by_cases hm : key ∈ path
  · rw [Key.acyclic_of_mem hm, eq_comm, List.filter_eq_nil_iff]
    intro d hd
    have hkey := h.key?_eq d hd
    cases d with
    | word leaf => cases hkey
    | expansion =>
      cases hkey
      rw [Derivation.unrepeated_expansion]
      exact fun hh => hh.1 hm
  · exact h.acyclic path hsub hm

theorem Derivation.unrepeated_eq {d : Derivation} {key : Key} {path : List Key}
    (hkey : d.key? = some key) (hn : key ∉ path) :
    d.unrepeated path = d.parts.all (·.unrepeated (key :: path)) := by
  cases d with
  | word leaf => cases hkey
  | expansion =>
    cases hkey
    rw [Bool.eq_iff_iff, unrepeated_expansion, List.all_eq_true]
    exact ⟨fun h => h.2, fun h => ⟨hn, h⟩⟩

namespace Frame

variable {t t' : Table} {f f' : Frame}

theorem Runs.results_key (h : f.Runs parser sentence t t' f')
    (hopen : ∀ key ∈ f.key :: f.path, t key = none)
    (hf : f.Built parser sentence fun callee _ => callee ≠ f.key ∧ True) :
    ∀ d ∈ f'.results, d.key? = some f.key := by
  have htrue : Inherited parser sentence [] fun _ _ => True := fun _ _ _ _ _ => trivial
  obtain ⟨-, hf'⟩ := h.built htrue (List.nil_subset _) hopen (fun _ _ _ _ _ => trivial) hf
  intro d hd
  rw [← h.key_eq]
  exact (hf'.results d hd).key?_eq

theorem grants_acyclic (ht : t.Complete parser sentence) {path : List Key}
    (hcut : f.key :: f.cut ⊆ path) :
    f.Grants parser sentence t (fun callee => some (callee.acyclic parser sentence path))
      (·.unrepeated path) where
  word _ := rfl
  outside key _ hr := by rw [Key.acyclic_of_outside hr]
  cut key hk := by rw [Key.acyclic_of_mem (hcut hk)]
  done key ds hk := by rw [(ht key ds hk).filter (List.nil_subset _)]
  fresh key ds _ _ h := by rw [h.filter hcut]

theorem outlook_view_done {answers : Answers} {keep : Derivation → Bool}
    (hcap : parser.cap = none) (ha : f.alternatives = []) :
    (f.view keep).outlook parser sentence answers =
      some (f.results.filter (·.parts.all keep)) := by
  rw [outlook_of_nil (f := f.view keep) ha]
  simp [Parser.limit, hcap, view]

theorem Runs.answered (hcap : parser.cap = none) {path : List Key} {key : Key}
    (h : (start parser.grammar path key).Runs parser sentence t t' f)
    (hr : key.InRange parser sentence) (hopen : ∀ k ∈ key :: path, t k = none)
    (ht : t.Complete parser sentence)
    (hagree : ∀ answers keep, f.Grants parser sentence t answers keep →
      (f.view keep).outlook parser sentence answers =
        ((start parser.grammar path key).view keep).outlook parser sentence answers) :
    Answered parser sentence key f.results f.cut := by
  have hkey : f.key = key := h.key_call
  have hkeys := h.results_key (by simpa using hopen) (.start _ _)
  rw [key_start] at hkeys
  refine ⟨hkeys, fun path' hsub hn => ?_⟩
  have hcut : f.key :: f.cut ⊆ key :: path' := by
    rw [hkey]
    exact List.cons_subset_cons _ hsub
  have houtlook := hagree _ _ (grants_acyclic ht hcut)
  rw [outlook_view_done hcap h.alternatives_eq, view_start, outlook_start,
    Key.acyclic_eq hr hn] at houtlook
  rw [← Option.some.inj houtlook]
  refine List.filter_congr fun d hd => ?_
  rw [Derivation.unrepeated_eq (hkeys d hd) hn]

theorem Complete.settle (ht : t.Complete parser sentence)
    (hf : Answered parser sentence f.key f.results f.cut) :
    (t.settle f).Complete parser sentence := by
  intro key ds hk
  rcases settle_eq_some hk with hk | ⟨hcut, rfl, rfl⟩
  · exact ht key ds hk
  · exact hcut ▸ hf

/-- What a frame is granted on the table before a call, it is granted on the table after it. -/
theorem Grants.settle {t₁ : Table} {g : Frame} {callee : Key} {answers : Answers}
    {keep : Derivation → Bool} (hg : f'.Grants parser sentence t answers keep)
    (call : Runs parser sentence t (start parser.grammar (f.key :: f.path) callee) t₁ g)
    (htab : t callee = none) (hm : callee ∉ f.key :: f.path)
    (hopen : ∀ key ∈ f.key :: f.path, t key = none)
    (hsettle : (t₁.settle g).Complete parser sentence) (hkey : f'.key = f.key)
    (hpath : f'.path = f.path) : f'.Grants parser sentence (t₁.settle g) answers keep := by
  refine ⟨hg.word, fun key hk => hg.outside key (call.settle_eq_none htab hk), hg.cut,
    fun key ds hk => ?_,
    fun key ds hn hk hds => hg.fresh key ds hn (call.settle_eq_none htab hk) hds⟩
  cases hbefore : t key with
  | some ds' =>
    have hsame := call.settle_le htab hbefore
    rw [hk] at hsame
    cases hsame
    exact hg.done key ds hbefore
  | none =>
    refine hg.fresh key ds (fun hmem => ?_) hbefore ((hsettle key ds hk).mono (List.nil_subset _))
    rw [hkey, hpath] at hmem
    rw [call.settle_open htab hm hopen key hmem] at hk
    cases hk

/-- The outlook of what is kept stays the same during a run, and what gets done is complete. -/
theorem Runs.agree (hcap : parser.cap = none) (h : f.Runs parser sentence t t' f')
    (hopen : ∀ key ∈ f.key :: f.path, t key = none) (ht : t.Complete parser sentence) :
    t'.Complete parser sentence ∧ ∀ answers keep,
      f'.Grants parser sentence t answers keep →
        (f'.view keep).outlook parser sentence answers =
          (f.view keep).outlook parser sentence answers := by
  induction h with
  | done ha => exact ⟨ht, fun _ _ _ => rfl⟩
  | @move t t' f g f' m rest ih =>
    obtain ⟨hkey, hpath, -⟩ := m.fields
    rw [hkey, hpath] at ih
    obtain ⟨ht', hagree⟩ := ih hopen ht
    refine ⟨ht', fun answers keep hg => ?_⟩
    rw [hagree answers keep hg, outlook_view_move hcap hg.word m]
  | @reply t t' f f' callee answer cut hc hr rest ih =>
    rw [key_receive, path_receive] at ih
    obtain ⟨ht', hagree⟩ := ih hopen ht
    refine ⟨ht', fun answers keep hg => ?_⟩
    have hanswer : answers callee = some (answer.filter keep) := by
      cases hr with
      | known htab => exact hg.done callee answer htab
      | cut hm => exact hg.cut callee (rest.cut_receive List.mem_cons_self)
      | outside htab hr => exact hg.outside callee htab hr
    rw [hagree answers keep hg, outlook_view_receive hc hanswer cut]
  | @expand t t₁ t' f g f' callee hc htab hm hr call rest ihc ih =>
    rw [key_start, path_start] at ihc
    rw [key_receive, path_receive] at ih
    have hstart : ∀ key ∈ callee :: f.key :: f.path, t key = none :=
      List.forall_mem_cons.mpr ⟨htab, hopen⟩
    obtain ⟨ht₁, hcall⟩ := ihc hstart ht
    have hanswered := call.answered hcap hr hstart ht hcall
    have hsettle := Complete.settle ht₁ (by rwa [call.key_call])
    obtain ⟨ht', hagree⟩ := ih (call.settle_open htab hm hopen) hsettle
    refine ⟨ht', fun answers keep hg => ?_⟩
    have hkey : f'.key = f.key := by simpa using rest.key_eq
    have hpath : f'.path = f.path := by simpa using rest.path_eq
    have hanswer : answers callee = some (g.results.filter keep) :=
      hg.fresh callee g.results (by rwa [hkey, hpath]) htab (hanswered.mono rest.cut_receive)
    have hgrants := hg.settle call htab hm hopen hsettle hkey hpath
    rw [hagree answers keep hgrants, outlook_view_receive hc hanswer g.cut]

theorem Runs.settle_complete (hcap : parser.cap = none) {path : List Key} {key : Key}
    (h : (start parser.grammar path key).Runs parser sentence t t' f)
    (hr : key.InRange parser sentence) (hopen : ∀ k ∈ key :: path, t k = none)
    (ht : t.Complete parser sentence) : (t'.settle f).Complete parser sentence := by
  have hkey : f.key = key := h.key_call
  obtain ⟨ht', hagree⟩ := h.agree hcap (by simpa using hopen) ht
  have hanswered := h.answered hcap hr hopen ht hagree
  exact Complete.settle ht' (hkey ▸ hanswered)

end Frame

theorem Table.Reached.complete (hcap : parser.cap = none) {t : Table}
    (h : t.Reached parser sentence) : t.Complete parser sentence := by
  induction h with
  | empty => exact fun _ _ h => by cases h
  | @call t t' key h hc ih =>
    cases hc with
    | kept => exact ih
    | @expand t' f htab hr run =>
      exact run.settle_complete hcap hr (by simpa using htab) ih

end Concord
