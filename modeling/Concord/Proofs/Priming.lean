import Concord.Proofs.Repetition
import Mathlib.Data.List.Induction

namespace Concord

variable {parser : Parser} {sentence : Sentence}

/-- The derivations of a table that are kept; some keys are missing. -/
def Table.kept (t : Table) (keep : Derivation → Bool) (missing : List Key) : Answers := fun key =>
  if key ∈ missing then none else some (((t key).getD []).filter keep)

/-- What is kept is done. -/
def Table.Holds (t : Table) (keep : Derivation → Bool) : Prop :=
  ∀ d key, keep d = true → d.key? = some key → ∃ ds, t key = some ds ∧ d ∈ ds

theorem Table.kept_of_mem {t : Table} {keep : Derivation → Bool} {missing : List Key} {key : Key}
    (h : key ∈ missing) : t.kept keep missing key = none :=
  if_pos h

theorem Table.kept_of_not_mem {t : Table} {keep : Derivation → Bool} {missing : List Key}
    {key : Key} (h : key ∉ missing) :
    t.kept keep missing key = some (((t key).getD []).filter keep) :=
  if_neg h

theorem Table.Holds.mono {t t' : Table} {keep : Derivation → Bool} (h : t.Holds keep)
    (hle : ∀ key ds, t key = some ds → t' key = some ds) : t'.Holds keep := by
  intro d key hd hkey
  obtain ⟨ds, hds, hmem⟩ := h d key hd hkey
  exact ⟨ds, hle key ds hds, hmem⟩

namespace Frame

variable {t t' : Table} {f f' : Frame} {keep : Derivation → Bool}

/-- What a table keeps grants a frame that nothing cuts short what it has been told, even if keys
further out are missing. -/
theorem grants_kept {missing : List Key} (hword : ∀ leaf, keep (.word leaf) = true)
    (hholds : t.Holds keep) (hopen : ∀ key ∈ f.key :: f.path, t key = none) (hcut : f.cut = [])
    (hmissing : ∀ key ∈ missing, key ∈ f.path ∧ key ≠ f.key ∧ key.InRange parser sentence) :
    f.Grants parser sentence t (t.kept keep missing) keep where
  word := hword
  outside key hk hr := by
    rw [Table.kept_of_not_mem fun hm => hr (hmissing key hm).2.2, hk]
    rfl
  cut key hk := by
    rw [hcut, List.mem_singleton] at hk
    subst hk
    rw [Table.kept_of_not_mem fun hm => (hmissing _ hm).2.1 rfl, hopen _ List.mem_cons_self]
    rfl
  done key ds hk := by
    have hn : key ∉ missing := by
      intro hm
      rw [hopen key (List.mem_cons_of_mem _ (hmissing key hm).1)] at hk
      cases hk
    rw [Table.kept_of_not_mem hn, hk]
    rfl
  fresh key ds hn hk hds := by
    have hnil : ds.filter keep = [] := by
      rw [List.filter_eq_nil_iff]
      intro d hd hkeep
      obtain ⟨_, hsome, -⟩ := hholds d key hkeep (hds.key?_eq d hd)
      rw [hk] at hsome
      cases hsome
    rw [Table.kept_of_not_mem fun hm => hn (List.mem_cons_of_mem _ (hmissing key hm).1), hk, hnil]
    rfl

/-- An expansion that has no answer without a key further out does not end without being cut short:
its outlook would be that of a finished one. -/
theorem Runs.cut_ne_nil_of_blocked (hcap : parser.cap = none) {path : List Key}
    {callee outer : Key} {g : Frame} (hword : ∀ leaf, keep (.word leaf) = true)
    (hrange : outer.InRange parser sentence) (hholds : t.Holds keep)
    (hblocked : callee.expandWith parser sentence (t.kept keep [outer]) = none)
    (call : (start parser.grammar path callee).Runs parser sentence t t' g)
    (hopen : ∀ k ∈ callee :: path, t k = none) (ht : t.Complete parser sentence)
    (houter : outer ∈ path) (hm : callee ∉ path) : g.cut ≠ [] := by
  intro hcut
  have hgrants : g.Grants parser sentence t (t.kept keep [outer]) keep := by
    refine grants_kept hword hholds ?_ hcut fun k hk => ?_
    · rw [call.key_call, call.path_call]
      exact hopen
    · rw [List.mem_singleton.mp hk, call.key_call, call.path_call]
      exact ⟨houter, fun heq => hm (heq ▸ houter), hrange⟩
  obtain ⟨-, hagree⟩ := call.agree hcap (by simpa using hopen) ht
  have houtlook := hagree _ _ hgrants
  rw [outlook_view_done hcap call.alternatives_eq, view_start, outlook_start, hblocked] at houtlook
  cases houtlook

/-- A key that an expansion of `outer` further out is missing for does not get done. -/
theorem Runs.not_done (hcap : parser.cap = none) {key outer : Key}
    (hword : ∀ leaf, keep (.word leaf) = true) (hrange : outer.InRange parser sentence)
    (hblocked : ∀ t : Table, t.Holds keep →
      key.expandWith parser sentence (t.kept keep [outer]) = none)
    (h : f.Runs parser sentence t t' f') (houter : outer ∈ f.key :: f.path)
    (hopen : ∀ k ∈ f.key :: f.path, t k = none) (ht : t.Complete parser sentence)
    (hholds : t.Holds keep) (hkey : t key = none) : t' key = none := by
  induction h with
  | done ha => exact hkey
  | move m rest ih =>
    obtain ⟨hk, hpath, -⟩ := m.fields
    rw [hk, hpath] at ih
    exact ih houter hopen ht hholds hkey
  | reply hc hr rest ih =>
    rw [key_receive, path_receive] at ih
    exact ih houter hopen ht hholds hkey
  | @expand t t₁ t' f g f' callee hc htab hm hr call rest ihc ih =>
    rw [key_start, path_start] at ihc
    rw [key_receive, path_receive] at ih
    have hstart : ∀ k ∈ callee :: f.key :: f.path, t k = none :=
      List.forall_mem_cons.mpr ⟨htab, hopen⟩
    have hkey₁ := ihc (List.mem_cons_of_mem _ houter) hstart ht hholds hkey
    have hsettle : t₁.settle g key = none := by
      cases hs : t₁.settle g key with
      | none => rfl
      | some ds =>
        rcases settle_eq_some hs with hs | ⟨hcut, rfl, -⟩
        · rw [hkey₁] at hs
          cases hs
        · have hcallee : callee.expandWith parser sentence (t.kept keep [outer]) = none := by
            rw [← call.key_call]
            exact hblocked t hholds
          exact absurd hcut (call.cut_ne_nil_of_blocked hcap hword hrange hholds hcallee hstart ht
            houter hm)
    exact ih houter (call.settle_open htab hm hopen) (call.settle_complete hcap hr hstart ht)
      (hholds.mono fun k ds hk => call.settle_le htab hk) hsettle

end Frame

open Classical in
noncomputable def Derivation.among (parts : List Derivation) (d : Derivation) : Bool :=
  d.key?.isNone || decide (d ∈ parts)

theorem Derivation.among_word (parts : List Derivation) (leaf : Leaf) :
    (word leaf).among parts = true := rfl

theorem Derivation.among_of_mem {parts : List Derivation} {d : Derivation} (h : d ∈ parts) :
    d.among parts = true := by
  simp [among, h]

theorem Derivation.mem_of_among {parts : List Derivation} {d : Derivation} {key : Key}
    (h : d.among parts = true) (hkey : d.key? = some key) : d ∈ parts := by
  simpa [among, hkey] using h

/-- What is answered with the parts of a strand is kept, if these are done and none of them has a
key that is missing. -/
theorem Strand.PassesAll.kept {elements : List Element} {strand last : Strand}
    {before : List Derivation} {callee : Key} {t : Table}
    (h : strand.PassesAll parser sentence Key.IsKeyOf elements last)
    (hlast : last.parts = before) (hbefore : ∀ p ∈ before, p.key? ≠ some callee)
    (hholds : t.Holds (Derivation.among before)) : strand.PassesAll parser sentence
      (Answers.Has (t.kept (Derivation.among before) [callee])) elements last := by
  refine h.mono fun k d hd hk => ?_
  have hmem : d ∈ before := hlast ▸ hd
  have hn : k ∉ [callee] := by
    rw [List.mem_singleton]
    rintro rfl
    exact hbefore d hmem hk
  obtain ⟨ds, hds, hin⟩ := hholds d k (Derivation.among_of_mem hmem) hk
  refine ⟨_, Table.kept_of_not_mem hn, List.mem_filter.mpr ⟨?_, Derivation.among_of_mem hmem⟩⟩
  rw [hds]
  exact hin

/-- An expansion that can come through the parts before one of them has no answer if the key of
that one is missing. -/
theorem Key.Builds.blocked {key callee : Key} {d part : Derivation}
    (h : key.Builds parser sentence Key.IsKeyOf d) {before later : List Derivation}
    (hparts : d.parts = before ++ part :: later) (hcallee : part.key? = some callee)
    (hbefore : ∀ p ∈ before, p.key? ≠ some callee) {t : Table}
    (hholds : t.Holds (Derivation.among before)) :
    key.expandWith parser sentence (t.kept (Derivation.among before) [callee]) = none := by
  obtain ⟨pattern, hp, hadmits, strand, hpasses, hfinish⟩ := h
  rw [(Strand.finish?_eq_some hfinish).1] at hparts
  have hstart : strand.parts =
      (Strand.start key.start pattern).parts ++ before ++ part :: later := by
    simpa [Strand.start] using hparts
  obtain ⟨front, element, back, middle, next, helements, hfront, hmiddle, hpass, hnext⟩ :=
    hpasses.split hstart
  have hsnoc : next.parts = middle.parts ++ [part] := by rw [hnext, hmiddle]
  have hanswers := hfront.kept (by simpa [Strand.start] using hmiddle) hbefore hholds
  cases hexpand : key.expandWith parser sentence (t.kept (Derivation.among before) [callee]) with
  | none => rfl
  | some ds =>
    cases hpass with
    | literal hl =>
      rw [Strand.parts_of_literal? hl] at hsnoc
      simp at hsnoc
    | word ht hl hw =>
      rw [Strand.parts_of_word? hw] at hsnoc
      obtain rfl : Derivation.word _ = part := by simpa using hsnoc
      cases hcallee
    | @phrase term symbol found _ ht ha hph =>
      rw [Strand.parts_of_phrase? hph] at hsnoc
      obtain rfl : found = part := by simpa using hsnoc
      have heq : middle.callee symbol term = callee := Option.some.inj (ha.symm.trans hcallee)
      have hasks := Strand.asks_of_passesAll hanswers ht back
      rw [← helements] at hasks
      obtain ⟨answer, hanswer⟩ := Key.answered_of_calls
        (fun _ _ _ hfound hhas => hhas.mem hfound) hexpand ⟨pattern, hp, hadmits, hasks⟩
      rw [heq, Table.kept_of_mem List.mem_cons_self] at hanswer
      cases hanswer

theorem Table.Holds.snoc {t : Table} {before : List Derivation} {part : Derivation}
    (h : t.Holds (Derivation.among before))
    (hpart : ∀ key, part.key? = some key → ∃ ds, t key = some ds ∧ part ∈ ds) :
    t.Holds (Derivation.among (before ++ [part])) := by
  intro d key hd hkey
  rcases List.mem_append.mp (Derivation.mem_of_among hd hkey) with hm | hm
  · exact h d key (Derivation.among_of_mem hm) hkey
  · rw [List.mem_singleton.mp hm] at hkey ⊢
    exact hpart key hkey

/-- A call for a part of a derivation does not get the whole done, if the parts before it are done
and none of them has its key. -/
theorem Table.Calls.not_done (hcap : parser.cap = none) {key callee : Key} {d part : Derivation}
    (hbuilds : key.Builds parser sentence Key.IsKeyOf d) (hne : callee ≠ key)
    {before later : List Derivation} (hparts : d.parts = before ++ part :: later)
    (hcallee : part.key? = some callee) (hbefore : ∀ p ∈ before, p.key? ≠ some callee)
    {t t' : Table} (hcalls : t.Calls parser sentence callee t') (ht : t.Complete parser sentence)
    (hholds : t.Holds (Derivation.among before)) (hkey : t key = none) : t' key = none := by
  cases hcalls with
  | kept => exact hkey
  | @expand t₁ f htab hr run =>
    have hkey₁ := run.not_done hcap (Derivation.among_word before) hr
      (fun _ hh => hbuilds.blocked hparts hcallee hbefore hh) (by simp) (by simpa using htab) ht
      hholds hkey
    cases hsettle : t₁.settle f key with
    | none => rfl
    | some ds =>
      rcases Frame.settle_eq_some hsettle with hs | ⟨-, hs, -⟩
      · rw [hkey₁] at hs
        cases hs
      · rw [run.key_call] at hs
        exact absurd hs.symm hne

/-- There are requests after which the first parts of a least looped derivation are done, but not
the derivation. -/
theorem Analysis.exists_primed (hcap : parser.cap = none) (hscoped : parser.grammar.Scoped)
    (hnames : ∀ symbol < parser.grammar.size,
      parser.grammar.indexOf? (parser.grammar.nameOf symbol) = some symbol)
    {key : Key} {d : Derivation} (h : d.Looped parser sentence key)
    (hunrepeated : ∀ part ∈ d.parts, part.unrepeated [] = true) {before later : List Derivation}
    (hparts : d.parts = before ++ later) :
    ∃ (requests : List Request) (t : Table),
      ((ofSentence parser sentence).afterAll requests).Shows parser sentence t ∧
      t.Reached parser sentence ∧ t.Holds (Derivation.among before) ∧ t key = none := by
  -- One more part is asked for at a time, the first one first.
  induction before using List.reverseRecOn generalizing later with
  | nil =>
    refine ⟨[], _, shows_ofSentence parser sentence, .empty, fun d k hd hk => ?_, rfl⟩
    cases Derivation.mem_of_among hd hk
  | append_singleton before part ih =>
    rw [List.append_assoc, List.singleton_append] at hparts
    obtain ⟨requests, t, hshows, ht, hholds, hnone⟩ := ih hparts
    have hp : part ∈ d.parts := by
      rw [hparts]
      exact List.mem_append_right _ List.mem_cons_self
    obtain ⟨hbuilds, hvalid⟩ := (Derivation.valid_iff hscoped h.key?_eq).mp h.valid
    have hrange := (h.valid.builds hscoped h.key?_eq h.start_le).2.parts part hp
    have hfound : ∀ {t : Table} {callee ds}, t.Reached parser sentence →
        part.key? = some callee → callee.InRange parser sentence → t callee = some ds →
        part ∈ ds := fun ht hk hr hds =>
      ht.mem_of_valid hcap hscoped hds (hvalid part hp) hk hr.2 (hunrepeated part hp)
    rcases hrange with ⟨leaf, rfl⟩ | ⟨callee, hcallee, hr⟩
    · exact ⟨requests, t, hshows, ht, hholds.snoc fun _ hk => (by cases hk), hnone⟩
    · -- A key that an earlier part has is done already, with all its derivations.
      by_cases hbefore : ∃ p ∈ before, p.key? = some callee
      · obtain ⟨p, hpm, hpk⟩ := hbefore
        obtain ⟨ds, hds, -⟩ := hholds p callee (Derivation.among_of_mem hpm) hpk
        refine ⟨requests, t, hshows, ht, hholds.snoc fun k hk => ?_, hnone⟩
        cases hcallee.symm.trans hk
        exact ⟨ds, hds, hfound ht hcallee hr hds⟩
      · obtain ⟨t', ds, hcalls, hds, hshows', -⟩ :=
          hshows.seen (hnames _ hr.1) hr.2 callee.inherited
        have ht' := ht.call hcalls
        refine ⟨requests ++ [.parseGiven (parser.grammar.nameOf callee.symbol) callee.start
          callee.inherited], t', ?_, ht', ?_, ?_⟩
        · simpa [afterAll] using hshows'
        · refine (hholds.mono fun _ _ hk => hcalls.table_le hk).snoc fun k hk => ?_
          cases hcallee.symm.trans hk
          exact ⟨ds, hds, hfound ht' hcallee hr hds⟩
        · refine hcalls.not_done hcap hbuilds ?_ hparts hcallee
            (fun p hpm hpk => hbefore ⟨p, hpm, hpk⟩) (ht.complete hcap) hholds hnone
          rintro rfl
          exact (h.alternating.parts h.key?_eq part hp).1 hcallee

end Concord
