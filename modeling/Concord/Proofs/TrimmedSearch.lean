import Concord.Proofs.History
import Concord.Proofs.Inversion
import Concord.Proofs.Results
import Concord.Proofs.Trimming

namespace Concord

variable {parser : Parser} {sentence trimmed : Sentence} {property : Key → Derivation → Prop}
variable {t t₁ t' u u' : Table} {f f' g h h' : Frame} {n : Nat}

namespace Frame

/-- With alternatives left, an expansion has found less than the cap allows. -/
def HasRoom (parser : Parser) (f : Frame) : Prop :=
  f.alternatives ≠ [] → ∀ cap, parser.cap = some cap → f.results.length < cap

theorem HasRoom.toAlternative (h : ∀ cap, parser.cap = some cap → f.results.length < cap)
    (alternatives : List Pattern) : (f.toAlternative alternatives).HasRoom parser := by
  intro _
  rw [results_toAlternative]
  exact h

theorem HasRoom.start (hzero : parser.cap ≠ some 0) (path : List Key) (key : Key) :
    (Frame.start parser.grammar path key).HasRoom parser := by
  refine .toAlternative (f := ⟨key, path, [], [], [], [], [], []⟩) (fun cap hcap => ?_) _
  refine Nat.pos_of_ne_zero fun hcapZero => hzero ?_
  rw [hcap, hcapZero]

theorem HasRoom.move (hf : f.HasRoom parser) (m : f.Moves parser sentence g) :
    g.HasRoom parser := by
  have hroom := hf m.alternatives_ne
  cases m with
  | finish ha he =>
    unfold finishAlternative
    dsimp only
    split
    · rename_i hcap
      exact .toAlternative (by simp [hcap]) _
    · rename_i cap hcap
      split
      · exact fun hne => absurd rfl hne
      · rename_i hlt
        refine .toAlternative (fun cap' hcap' => ?_) _
        cases hcap.symm.trans hcap'
        exact Nat.not_le.mp hlt
  | pass ha he hp =>
    split
    · exact .toAlternative hroom _
    · exact fun _ => hroom
  | literal ha he hp => exact fun _ => hroom
  | word ha he hp ht => exact fun _ => hroom

theorem HasRoom.receive (hf : f.HasRoom parser) (answer : List Derivation) (cut : List Key) :
    (f.receive answer cut).HasRoom parser := by
  unfold Frame.receive
  dsimp only
  split
  · exact hf
  · exact hf

/-- What a run relies on: its expansions are going on, what is done has a property and so have the
parts of what is found, and the cap is not reached before the last alternative. -/
structure Ready (parser : Parser) (sentence : Sentence) (property : Key → Derivation → Prop)
    (t : Table) (f : Frame) : Prop where
  going : f.Going parser sentence t
  all : t.All property
  built : f.Built parser sentence fun callee part => callee ≠ f.key ∧ property callee part
  room : f.HasRoom parser

namespace Ready

theorem start (hzero : parser.cap ≠ some 0) (hall : t.All property) {path : List Key} {key : Key}
    (hgoing : (Frame.start parser.grammar path key).Going parser sentence t) :
    Ready parser sentence property t (Frame.start parser.grammar path key) :=
  ⟨hgoing, hall, .start path key, .start hzero path key⟩

theorem move (hf : Ready parser sentence property t f) (m : f.Moves parser sentence g) :
    Ready parser sentence property t g := by
  obtain ⟨hkey, hpath, -⟩ := m.fields
  exact ⟨hf.going.of_eq hkey hpath, hf.all, hkey ▸ hf.built.move m, hf.room.move m⟩

theorem reply (hf : Ready parser sentence property t f) {callee : Key}
    {answer : List Derivation} {cut : List Key} (hc : f.callee? = some callee)
    (hr : Reply parser sentence t f callee answer cut) :
    (∀ d ∈ answer, property callee d) ∧
      Ready parser sentence property t (f.receive answer cut) := by
  have hanswer := hr.all (fun key hk => (hf.going key hk).1) hf.all
  refine ⟨fun d hd => (hanswer d hd).2, ?_⟩
  exact ⟨hf.going.of_eq (f.key_receive answer cut) (f.path_receive answer cut), hf.all,
    f.key_receive answer cut ▸ hf.built.receive hc hanswer cut, hf.room.receive answer cut⟩

/-- A call finds what has the property, and the frame is ready to go on with it. -/
theorem expand (hf : Ready parser sentence property t f)
    (hinherited : Inherited parser sentence [] property) {callee : Key}
    (hc : f.callee? = some callee) (ht : t callee = none) (hm : callee ∉ f.key :: f.path)
    (hr : callee.InRange parser sentence)
    (call : Runs parser sentence t (Frame.start parser.grammar (f.key :: f.path) callee) t₁ g) :
    (∀ d ∈ g.results, property callee d) ∧
      Ready parser sentence property (t₁.settle g) (f.receive g.results g.cut) := by
  have hopen : ∀ key ∈ callee :: f.key :: f.path, t key = none :=
    List.forall_mem_cons.mpr ⟨ht, fun key hk => (hf.going key hk).1⟩
  obtain ⟨hall, hbuilt⟩ := call.built hinherited (List.nil_subset _) (by simpa using hopen) hf.all
    (.start _ _)
  rw [key_start] at hbuilt
  obtain ⟨hfound, hsettle⟩ := call.settle_all hinherited List.not_mem_nil hr hall hbuilt
  have hanswer : ∀ d ∈ g.results, callee ≠ f.key ∧ property callee d := by
    refine fun d hd => ⟨?_, hfound d hd⟩
    rintro rfl
    exact hm List.mem_cons_self
  exact ⟨hfound, hf.going.settle call ht hm _ _, hsettle,
    f.key_receive g.results g.cut ▸ hf.built.receive hc hanswer g.cut, hf.room.receive _ _⟩

end Ready

theorem Ready.le_callee (hle : ∀ key d, property key d → key.start ≤ d.stop)
    (hf : Ready parser sentence property t f) {callee : Key} (hc : f.callee? = some callee) :
    f.key.start ≤ callee.start :=
  hf.built.le_callee (fun callee part hpart => hle callee part hpart.2) hc

theorem Runs.settle_beyond {path : List Key} {callee : Key}
    (call : Runs parser sentence t (Frame.start parser.grammar path callee) t₁ g)
    (hcallee : n < callee.start) (hkept : ∀ key : Key, key.start ≤ n → t₁ key = t key) (key : Key)
    (hk : key.start ≤ n) : t₁.settle g key = t key := by
  have hne : key ≠ g.key := by
    rw [call.key_call]
    rintro rfl
    omega
  rw [Table.settle_of_ne hne, hkept key hk]

section beyond

variable (hzero : parser.cap ≠ some 0) (hinherited : Inherited parser sentence [] property)
  (hle : ∀ key d, property key d → key.start ≤ d.stop)

include hzero hinherited hle

/-- An expansion that begins beyond `n` adds nothing that begins before, and is cut short by nothing
that begins before. -/
theorem Ready.beyond (run : f.Runs parser sentence t t' f')
    (hf : Ready parser sentence property t f) (hstart : n < f.key.start)
    (hcut : ∀ key ∈ f.cut, n < key.start) :
    (∀ key : Key, key.start ≤ n → t' key = t key) ∧ ∀ key ∈ f'.cut, n < key.start := by
  induction run with
  | done ha => exact ⟨fun _ _ => rfl, hcut⟩
  | move m rest ih =>
    obtain ⟨hkey, -, hsame⟩ := m.fields
    exact ih (hf.move m) (hkey ▸ hstart) (hsame ▸ hcut)
  | @reply t t' f f' callee answer cut hc hr rest ih =>
    have hcallee := Nat.lt_of_lt_of_le hstart (hf.le_callee hle hc)
    refine ih (hf.reply hc hr).2 (f.key_receive answer cut ▸ hstart) fun key hk => ?_
    rw [cut_receive, List.mem_append, List.mem_filter] at hk
    rcases hk with hk | ⟨hk, -⟩
    · exact hcut key hk
    · cases hr with
      | known | outside => cases hk
      | cut hm => exact List.mem_singleton.mp hk ▸ hcallee
  | @expand t t₁ t' f g f' callee hc ht hm hr call rest ihc ih =>
    have hcallee := Nat.lt_of_lt_of_le hstart (hf.le_callee hle hc)
    obtain ⟨-, hready⟩ := hf.expand hinherited hc ht hm hr call
    have hgoing : (Frame.start parser.grammar (f.key :: f.path) callee).Going parser sentence t :=
      .start ht hr hf.going
    obtain ⟨hkept, hcalleeCut⟩ := ihc (.start hzero hf.all hgoing) (by simpa using hcallee)
      (by simp)
    obtain ⟨hrest, hfinal⟩ := ih hready (f.key_receive g.results g.cut ▸ hstart) fun key hk => by
      rw [cut_receive, List.mem_append, List.mem_filter] at hk
      exact hk.elim (hcut key) fun hk => hcalleeCut key hk.1
    exact ⟨fun key hk => (hrest key hk).trans (call.settle_beyond hcallee hkept key hk), hfinal⟩

/-- A call that begins beyond `n` from expansions that do not is cut short by nothing, and adds
nothing that begins before. -/
theorem Ready.call_beyond (hf : Ready parser sentence property t f)
    (hstarts : ∀ key ∈ f.key :: f.path, key.start ≤ n) {callee : Key} (hcallee : n < callee.start)
    (ht : t callee = none) (hr : callee.InRange parser sentence)
    (call : Runs parser sentence t (Frame.start parser.grammar (f.key :: f.path) callee) t₁ g) :
    g.cut = [] ∧ ∀ key : Key, key.start ≤ n → t₁.settle g key = t key := by
  have hgoing : (Frame.start parser.grammar (f.key :: f.path) callee).Going parser sentence t :=
    .start ht hr hf.going
  obtain ⟨hkept, hcut⟩ := Ready.beyond hzero hinherited hle call (.start hzero hf.all hgoing)
    (by simpa using hcallee) (by simp)
  have hpath : g.cut ⊆ f.key :: f.path := by
    have houtside := call.cutOutside (.start _ _ _)
    rwa [CutOutside, call.path_call] at houtside
  refine ⟨List.eq_nil_iff_forall_not_mem.mpr fun key hk => ?_, call.settle_beyond hcallee hkept⟩
  exact absurd (hstarts key (hpath hk)) (Nat.not_le.mpr (hcut key hk))

end beyond

end Frame

/-- The second table has what begins by `n` in the first one, without what ends beyond. -/
def Table.Trims (n : Nat) (t u : Table) : Prop :=
  ∀ key : Key, key.start ≤ n → u key = (t key).map (·.filter (·.stop ≤ n))

theorem Table.Trims.settle (ht : t.Trims n u) (hf : Frame.Trims n f h) :
    (t.settle f).Trims n (u.settle h) := by
  intro key hk
  rw [Table.settle, Table.settle, hf.key, hf.cut, hf.results]
  split
  · rfl
  · exact ht key hk

namespace Frame

namespace Trims

theorem withCut (hf : Trims n f h) {cut cut' : List Key} (hcut : cut' = cut) :
    Trims n { f with cut } { h with cut := cut' } :=
  ⟨hf.key, hf.path, hcut, hf.results, hf.alternatives, hf.strands.imp
    (fun hab => ⟨hab.elements, hab.pending, hab.advanced⟩)
    fun hwaits => ⟨hwaits.elements, hwaits.pending, hwaits.advanced, hwaits.beyond⟩⟩

/-- A call of a strand that is not beyond the end is one of the second frame too. -/
theorem callee?_of_le (hf : Trims n f h) {callee : Key} (hc : f.callee? = some callee)
    (hstart : callee.start ≤ n) : h.callee? = some callee ∧ ∀ answer answer' cut,
      answer' = answer.filter (·.stop ≤ n) →
        Trims n (f.receive answer cut) (h.receive answer' cut) := by
  obtain ⟨_, _, term, elements, strand, pending, symbol, ha, he, hp, ht, rfl, hreceive⟩ :=
    callee?_eq_some hc
  obtain ⟨hab, hp'⟩ := hf.abreast_of_le hp hstart
  have ha' := hf.alternatives.trans ha
  have he' := hab.elements.trans he
  have hc' : h.callee? = some (strand.callee symbol term) := by
    simp [callee?, ha', he', hp', ht]
  obtain ⟨_, _, term', _, strand', pending', _, _, he'', hp'', _, _, hreceive'⟩ :=
    callee?_eq_some hc'
  cases he'.symm.trans he''
  cases hp'.symm.trans hp''
  refine ⟨hc', fun answer answer' cut hanswer => ?_⟩
  rw [hreceive, hreceive']
  have hcut : Trims n { f with cut := f.cut ++ cut.filter (· ≠ f.key) }
      { h with cut := h.cut ++ cut.filter (· ≠ h.key) } := hf.withCut (by rw [hf.cut, hf.key])
  refine hcut.continued ⟨hab.elements, hab.pending, hab.advanced⟩ pending ?_
  rw [hanswer]
  refine (filter_filterMap_eq (fun part next hnext => ?_) _).symm
  rw [Strand.pos_of_phrase? hnext]

/-- What is answered to a strand beyond the end makes no difference to the second frame. -/
theorem receive_of_lt (hf : Trims n f h) {callee : Key} (hc : f.callee? = some callee)
    (hstart : n < callee.start) {answer : List Derivation} (hanswer : ∀ d ∈ answer, n < d.stop) :
    Trims n (f.receive answer []) h := by
  obtain ⟨_, _, term, elements, strand, pending, symbol, ha, he, hp, ht, rfl, hreceive⟩ :=
    callee?_eq_some hc
  have hnext : ∀ s ∈ answer.filterMap (strand.phrase? term), n < s.pos := by
    intro s hs
    obtain ⟨part, hpart, hs⟩ := List.mem_filterMap.mp hs
    rw [Strand.pos_of_phrase? hs]
    exact hanswer part hpart
  have hcut : Trims n { f with cut := f.cut ++ [].filter (· ≠ f.key) } h :=
    hf.withCut (by simp [hf.cut])
  rw [hreceive]
  exact hcut.continued_beyond hp hstart hnext

/-- What is answered at once in one search is answered at once in the other. -/
theorem reply (hspace : sentence.AddsSpace trimmed) (ht : t.Trims trimmed.length u)
    (hf : Trims trimmed.length f h) {callee : Key} (hstart : callee.start ≤ trimmed.length)
    {answer : List Derivation} {cut : List Key} (hr : Reply parser sentence t f callee answer cut) :
    Reply parser trimmed u h callee (answer.filter (·.stop ≤ trimmed.length)) cut := by
  cases hr with
  | known hknown => exact .known (by rw [ht callee hstart, hknown, Option.map_some])
  | cut hm => exact .cut (by rwa [hf.key, hf.path])
  | outside hnone hr =>
    refine .outside (by rw [ht callee hstart, hnone, Option.map_none]) fun hr' => hr ⟨hr'.1, ?_⟩
    rw [hspace.length]
    exact Nat.le_succ_of_le hr'.2

end Trims

/-- Beside a frame in the longer sentence, a run goes on in the trimmed one, from what is left of
the frame and its table without what is beyond the end. -/
def RunsBeside (parser : Parser) (trimmed : Sentence) (t : Table) (f : Frame) (u' : Table)
    (h' : Frame) : Prop :=
  ∃ u h, h.Runs parser trimmed u u' h' ∧ h.Going parser trimmed u ∧
    t.Trims trimmed.length u ∧ Trims trimmed.length f h

/-- With a cap, what is found at the end of an alternative ends in the trimmed sentence. -/
theorem Ready.ends (hready : Ready parser sentence property t f)
    (hinherited : Inherited parser sentence [] property)
    (hbound : parser.cap = none ∨ ∀ key d, property key d → key.start ≤ n → d.stop ≤ n)
    (m : f.Moves parser sentence g) (hstart : f.key.start ≤ n) :
    parser.cap = none ∨ (f.elements = [] → ∀ d ∈ f.results ++
      f.pending.filterMap (·.finish? (parser.grammar.nameOf f.key.symbol) f.key), d.stop ≤ n) := by
  refine hbound.imp_right fun hbound he d hd => ?_
  obtain ⟨pattern, alternatives, ha⟩ := List.exists_cons_of_ne_nil m.alternatives_ne
  have hrange := (hready.going f.key List.mem_cons_self).2
  have hd : property f.key d :=
    hinherited f.key d List.not_mem_nil hrange (hready.built.finished ha he d hd)
  exact hbound f.key d hd hstart

namespace RunsBeside

/-- The other run moves too, or it waits. -/
theorem move (hb : RunsBeside parser trimmed t f u' h') (hspace : sentence.AddsSpace trimmed)
    (hinherited : Inherited parser sentence [] property)
    (hbound : parser.cap = none ∨ ∀ key d, property key d →
      key.start ≤ trimmed.length → d.stop ≤ trimmed.length)
    (hready : Ready parser sentence property t f) (hstart : f.key.start ≤ trimmed.length)
    (m : f.Moves parser sentence g) : RunsBeside parser trimmed t g u' h' := by
  obtain ⟨u, h, run, hgoing, ht, hf⟩ := hb
  have hends := hready.ends hinherited hbound m hstart
  rcases hf.move hspace hstart hends (hready.room m.alternatives_ne) m with hg | ⟨h₁, m', hg⟩
  · exact ⟨u, h, run, hgoing, ht, hg⟩
  · obtain ⟨hkey, hpath, -⟩ := m'.fields
    exact ⟨u, h₁, run.of_move m', hgoing.of_eq hkey hpath, ht, hg⟩

/-- A call that is answered at once is answered in the other run too, unless it is beyond the
end. -/
theorem reply (hb : RunsBeside parser trimmed t f u' h') (hspace : sentence.AddsSpace trimmed)
    (hle : ∀ key d, property key d → key.start ≤ d.stop)
    (hready : Ready parser sentence property t f)
    (hstarts : ∀ key ∈ f.key :: f.path, key.start ≤ trimmed.length) {callee : Key}
    {answer : List Derivation} {cut : List Key} (hc : f.callee? = some callee)
    (hr : Reply parser sentence t f callee answer cut) :
    RunsBeside parser trimmed t (f.receive answer cut) u' h' := by
  obtain ⟨u, h, run, hgoing, ht, hf⟩ := hb
  by_cases hstart : callee.start ≤ trimmed.length
  · obtain ⟨hc', hreceive⟩ := hf.callee?_of_le hc hstart
    have hr' := hf.reply hspace ht hstart hr
    exact ⟨u, _, run.of_reply hgoing hc' hr',
      hgoing.of_eq (h.key_receive _ cut) (h.path_receive _ cut), ht, hreceive answer _ cut rfl⟩
  · have hbeyond := Nat.not_le.mp hstart
    have hcut : cut = [] := by
      cases hr with
      | known | outside => rfl
      | cut hm => exact absurd (hstarts callee hm) hstart
    subst hcut
    refine ⟨u, h, run, hgoing, ht, hf.receive_of_lt hc hbeyond fun d hd => ?_⟩
    exact Nat.lt_of_lt_of_le hbeyond (hle callee d ((hready.reply hc hr).1 d hd))

section expand

variable {callee : Key} (hb : RunsBeside parser trimmed t f u' h') (hc : f.callee? = some callee)
  (hnone : t callee = none)

include hb hc hnone

/-- A call within the trimmed sentence runs in both, side by side. -/
theorem expand_of_le (hstart : callee.start ≤ trimmed.length) (hm : callee ∉ f.key :: f.path)
    (hr : callee.InRange parser sentence)
    (hcall : ∀ u₁ h₁, RunsBeside parser trimmed t
        (Frame.start parser.grammar (f.key :: f.path) callee) u₁ h₁ →
      t₁.Trims trimmed.length u₁ ∧ Trims trimmed.length g h₁) :
    RunsBeside parser trimmed (t₁.settle g) (f.receive g.results g.cut) u' h' := by
  obtain ⟨u, h, run, hgoing, ht, hf⟩ := hb
  obtain ⟨hc', hreceive⟩ := hf.callee?_of_le hc hstart
  have hnone' : u callee = none := by rw [ht callee hstart, hnone, Option.map_none]
  have hm' : callee ∉ h.key :: h.path := by rwa [hf.key, hf.path]
  have hr' : callee.InRange parser trimmed := ⟨hr.1, hstart⟩
  have hpath : h.key :: h.path = f.key :: f.path := by rw [hf.key, hf.path]
  obtain ⟨u₁, h₁, call', rest'⟩ := run.of_expand hc' hnone' hm' hr'
  obtain ⟨ht₁, hg⟩ := hcall u₁ h₁
    ⟨u, _, call', .start hnone' hr' hgoing, ht, .start parser.grammar hpath hstart⟩
  rw [hg.cut] at rest'
  exact ⟨_, _, rest', hgoing.settle call' hnone' hm' h₁.results g.cut, ht₁.settle hg,
    hreceive _ _ _ hg.results⟩

/-- A call beyond the end of the trimmed sentence leaves the other run as it is. -/
theorem expand_of_lt (hbeyond : trimmed.length < callee.start) (hzero : parser.cap ≠ some 0)
    (hinherited : Inherited parser sentence [] property)
    (hle : ∀ key d, property key d → key.start ≤ d.stop)
    (hready : Ready parser sentence property t f)
    (hstarts : ∀ key ∈ f.key :: f.path, key.start ≤ trimmed.length)
    (hm : callee ∉ f.key :: f.path) (hr : callee.InRange parser sentence)
    (call : Runs parser sentence t (Frame.start parser.grammar (f.key :: f.path) callee) t₁ g) :
    RunsBeside parser trimmed (t₁.settle g) (f.receive g.results g.cut) u' h' := by
  obtain ⟨u, h, run, hgoing, ht, hf⟩ := hb
  obtain ⟨hfound, -⟩ := hready.expand hinherited hc hnone hm hr call
  obtain ⟨hcut, hsettle⟩ := hready.call_beyond hzero hinherited hle hstarts hbeyond hnone hr call
  rw [hcut]
  refine ⟨u, h, run, hgoing, fun key hk => ?_, hf.receive_of_lt hc hbeyond fun d hd => ?_⟩
  · rw [hsettle key hk]
    exact ht key hk
  · exact Nat.lt_of_lt_of_le hbeyond (hle callee d (hfound d hd))

end expand

/-- Two runs that begin side by side end side by side. -/
theorem run (hspace : sentence.AddsSpace trimmed) (hzero : parser.cap ≠ some 0)
    (hinherited : Inherited parser sentence [] property)
    (hle : ∀ key d, property key d → key.start ≤ d.stop)
    (hbound : parser.cap = none ∨ ∀ key d, property key d →
      key.start ≤ trimmed.length → d.stop ≤ trimmed.length)
    (run : f.Runs parser sentence t t' f') (hready : Ready parser sentence property t f)
    (hstarts : ∀ key ∈ f.key :: f.path, key.start ≤ trimmed.length)
    (hb : RunsBeside parser trimmed t f u' h') :
    t'.Trims trimmed.length u' ∧ Trims trimmed.length f' h' := by
  -- The run in the longer sentence is followed; the other one does the same step, or none.
  induction run generalizing h' u' with
  | done ha =>
    obtain ⟨u, h, run', -, ht, hf⟩ := hb
    obtain ⟨rfl, rfl⟩ := run'.of_done (hf.alternatives.trans ha)
    exact ⟨ht, hf⟩
  | @move _ _ f g _ m rest ih =>
    obtain ⟨hkey, hpath, -⟩ := m.fields
    rw [hkey, hpath] at ih
    have hstart := hstarts f.key List.mem_cons_self
    exact ih (hready.move m) hstarts (hb.move hspace hinherited hbound hready hstart m)
  | reply hc hr rest ih =>
    rw [key_receive, path_receive] at ih
    exact ih (hready.reply hc hr).2 hstarts (hb.reply hspace hle hready hstarts hc hr)
  | @expand t t₁ _ f g _ callee hc hnone hm hr call rest ihc ih =>
    rw [key_receive, path_receive] at ih
    refine ih (hready.expand hinherited hc hnone hm hr call).2 hstarts ?_
    by_cases hstart : callee.start ≤ trimmed.length
    · have hstarts' : ∀ key ∈ callee :: f.key :: f.path, key.start ≤ trimmed.length :=
        List.forall_mem_cons.mpr ⟨hstart, hstarts⟩
      rw [key_start, path_start] at ihc
      exact hb.expand_of_le hc hnone hstart hm hr fun u₁ h₁ hcall =>
        ihc (.start hzero hready.all (.start hnone hr hready.going)) hstarts' hcall
    · exact hb.expand_of_lt hc hnone (Nat.not_le.mp hstart) hzero hinherited hle hready hstarts hm
        hr call

end RunsBeside

end Frame

/-- No valid derivation that begins by `n` ends beyond. -/
def Parser.NoneBeyond (parser : Parser) (sentence : Sentence) (n : Nat) : Prop :=
  ∀ (d : Derivation) (key : Key), d.key? = some key → d.Valid parser sentence → key.start ≤ n →
    d.stop ≤ n

section request

variable (hspace : sentence.AddsSpace trimmed) (hzero : parser.cap ≠ some 0)

include hspace hzero

theorem Table.Trims.call (hinherited : Inherited parser sentence [] property)
    (hle : ∀ key d, property key d → key.start ≤ d.stop)
    (hbound : parser.cap = none ∨ ∀ key d, property key d →
      key.start ≤ trimmed.length → d.stop ≤ trimmed.length)
    (hall : t.All property) (ht : t.Trims trimmed.length u) {key : Key}
    (hstart : key.start ≤ trimmed.length) (call : t.Calls parser sentence key t')
    (call' : u.Calls parser trimmed key u') : t'.Trims trimmed.length u' := by
  have hnone : u key = none ↔ t key = none := by rw [ht key hstart, Option.map_eq_none_iff]
  have hrange : key.InRange parser trimmed ↔ key.InRange parser sentence :=
    ⟨fun hr => ⟨hr.1, by rw [hspace.length]; omega⟩, fun hr => ⟨hr.1, hstart⟩⟩
  cases call with
  | kept hkept =>
    cases call' with
    | kept => exact ht
    | expand ht' hr' => exact absurd (hrange.mp hr') (hkept (hnone.mp ht'))
  | expand hkey hr run =>
    cases call' with
    | kept hkept' => exact absurd (hrange.mpr hr) (hkept' (hnone.mpr hkey))
    | expand ht' hr' run' =>
      have hgoing : (Frame.start parser.grammar [] key).Going parser sentence t :=
        .start hkey hr fun _ hk => by cases hk
      have hgoing' : (Frame.start parser.grammar [] key).Going parser trimmed u :=
        .start ht' hr' fun _ hk => by cases hk
      obtain ⟨ht₁, hf⟩ := Frame.RunsBeside.run hspace hzero hinherited hle hbound run
        (.start hzero hall hgoing) (by simpa using hstart)
        ⟨u, _, run', hgoing', ht, .start parser.grammar rfl hstart⟩
      exact ht₁.settle hf

/-- Without the space at the end, a request that is made first finds what it finds with it, except
for what takes in the space. With a cap, this is so if nothing valid takes in the space. -/
theorem Request.trees_trimmed (hscoped : parser.grammar.Scoped)
    (hbound : parser.cap = none ∨ parser.NoneBeyond sentence trimmed.length) {request : Request}
    (hoffset : request.offset trimmed = request.offset sentence)
    (hstart : request.offset sentence ≤ trimmed.length)
    (makes : request.Makes parser sentence (fun _ => none) t)
    (makes' : request.Makes parser trimmed (fun _ => none) u) :
    request.trees parser trimmed u =
      (request.trees parser sentence t).filter (·.stop ≤ trimmed.length) := by
  have hkey : ∀ symbol, request.key trimmed symbol = request.key sentence symbol :=
    fun symbol => by rw [key, key, hoffset]
  have hstart' : request.offset sentence ≤ sentence.length := by
    rw [hspace.length]
    omega
  unfold trees
  cases hs : parser.grammar.indexOf? request.start with
  | none =>
    dsimp only
    rw [hoffset]
    unfold Parser.wordTrees
    dsimp only
    rw [leavesAt_trimmed hspace hstart, List.filter_filter, List.filter_map, List.filter_filter]
    refine congrArg _ (List.filter_congr fun leaf _ => ?_)
    rw [Bool.and_comm]
    rfl
  | some symbol =>
    have hinherited := (inherited_extends parser sentence).and (inherited_valid hscoped)
    have ht : t.Trims trimmed.length u := by
      rcases makes with ⟨-, hlt⟩ | ⟨symbol', hs', -, call⟩
      · exact absurd (hlt symbol hs) (Nat.not_lt.mpr hstart')
      · cases hs.symm.trans hs'
        rcases makes' with ⟨-, hlt⟩ | ⟨symbol', hs', -, call'⟩
        · exact absurd (hlt symbol hs) (Nat.not_lt.mpr (hoffset ▸ hstart))
        · cases hs.symm.trans hs'
          rw [hkey] at call'
          exact Table.Trims.call hspace hzero hinherited (fun _ _ h => h.1.le)
            (hbound.imp_right fun hbound key d h => hbound d key h.2.1 h.2.2.1)
            (fun _ _ h => by cases h) (fun _ _ => rfl) hstart call call'
    dsimp only
    rw [hkey, ht _ hstart]
    cases t (request.key sentence symbol) with
    | none => rfl
    | some ds =>
      rw [Option.map_some, Option.getD_some, Option.getD_some, List.filter_map]
      refine congrArg _ (List.filter_congr fun d _ => ?_)
      rw [Function.comp_apply, Derivation.stop_tree]

end request

end Concord
