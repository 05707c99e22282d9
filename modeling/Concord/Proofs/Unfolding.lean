import Concord.Proofs.Frame

namespace Concord

/-- The derivations of the keys that are done. -/
abbrev Table := Key → Option (List Derivation)

/-- The table once an expansion has ended; what was cut short is not kept. -/
def Table.settle (t : Table) (f : Frame) : Table := fun key =>
  if f.cut = [] ∧ key = f.key then some f.results else t key

theorem Table.settle_of_ne {t : Table} {f : Frame} {key : Key} (h : key ≠ f.key) :
    t.settle f key = t key :=
  if_neg fun hdone => h hdone.2

namespace Frame

/-- What is answered at once to a call: what is in the table, or nothing. -/
inductive Reply (parser : Parser) (sentence : Sentence) (t : Table) (f : Frame) (callee : Key) :
    List Derivation → List Key → Prop where
  | known {answer : List Derivation} (ht : t callee = some answer) :
      Reply parser sentence t f callee answer []
  | cut (hm : callee ∈ f.key :: f.path) : Reply parser sentence t f callee [] [callee]
  | outside (ht : t callee = none) (hr : ¬callee.InRange parser sentence) :
      Reply parser sentence t f callee [] []

/-- A frame with a table runs to another frame with another table. The runs of the expansions that
it calls are nested in it. -/
inductive Runs (parser : Parser) (sentence : Sentence) :
    Table → Frame → Table → Frame → Prop where
  | done {t : Table} {f : Frame} (ha : f.alternatives = []) : Runs parser sentence t f t f
  | move {t t' : Table} {f g f' : Frame} (m : f.Moves parser sentence g)
      (rest : Runs parser sentence t g t' f') : Runs parser sentence t f t' f'
  | reply {t t' : Table} {f f' : Frame} {callee : Key} {answer : List Derivation}
      {cut : List Key} (hc : f.callee? = some callee)
      (hr : Reply parser sentence t f callee answer cut)
      (rest : Runs parser sentence t (f.receive answer cut) t' f') : Runs parser sentence t f t' f'
  | expand {t t₁ t' : Table} {f g f' : Frame} {callee : Key} (hc : f.callee? = some callee)
      (ht : t callee = none) (hm : callee ∉ f.key :: f.path)
      (hr : callee.InRange parser sentence)
      (call : Runs parser sentence t (start parser.grammar (f.key :: f.path) callee) t₁ g)
      (rest : Runs parser sentence (t₁.settle g) (f.receive g.results g.cut) t' f') :
      Runs parser sentence t f t' f'

section fields

variable (f : Frame) (alternatives : List Pattern) (answer : List Derivation) (cut : List Key)

@[simp] theorem key_toAlternative : (f.toAlternative alternatives).key = f.key := by
  unfold toAlternative
  split <;> rfl

@[simp] theorem path_toAlternative : (f.toAlternative alternatives).path = f.path := by
  unfold toAlternative
  split <;> rfl

@[simp] theorem cut_toAlternative : (f.toAlternative alternatives).cut = f.cut := by
  unfold toAlternative
  split <;> rfl

@[simp] theorem results_toAlternative : (f.toAlternative alternatives).results = f.results := by
  unfold toAlternative
  split <;> rfl

@[simp] theorem key_start (grammar : Grammar) (path : List Key) (key : Key) :
    (start grammar path key).key = key := by
  simp [start]

@[simp] theorem path_start (grammar : Grammar) (path : List Key) (key : Key) :
    (start grammar path key).path = path := by
  simp [start]

@[simp] theorem cut_start (grammar : Grammar) (path : List Key) (key : Key) :
    (start grammar path key).cut = [] := by
  simp [start]

@[simp] theorem results_start (grammar : Grammar) (path : List Key) (key : Key) :
    (start grammar path key).results = [] := by
  simp [start]

@[simp] theorem key_receive : (f.receive answer cut).key = f.key := by
  unfold receive
  dsimp only
  split <;> rfl

@[simp] theorem path_receive : (f.receive answer cut).path = f.path := by
  unfold receive
  dsimp only
  split <;> rfl

@[simp] theorem cut_receive :
    (f.receive answer cut).cut = f.cut ++ cut.filter (· ≠ f.key) := by
  unfold receive
  dsimp only
  split <;> rfl

theorem fields_finishAlternative (parser : Parser) :
    (f.finishAlternative parser alternatives).key = f.key ∧
      (f.finishAlternative parser alternatives).path = f.path ∧
      (f.finishAlternative parser alternatives).cut = f.cut := by
  unfold finishAlternative
  dsimp only
  split
  · simp
  · split <;> simp

end fields

variable {parser : Parser} {sentence : Sentence} {t t' : Table} {f f' : Frame}

theorem Moves.fields (m : f.Moves parser sentence f') :
    f'.key = f.key ∧ f'.path = f.path ∧ f'.cut = f.cut := by
  cases m with
  | finish ha he => exact fields_finishAlternative f _ parser
  | pass ha he hp => split <;> simp [toElement]
  | literal ha he hp => exact ⟨rfl, rfl, rfl⟩
  | word ha he hp ht => exact ⟨rfl, rfl, rfl⟩

theorem Runs.key_eq (h : Runs parser sentence t f t' f') : f'.key = f.key := by
  induction h with
  | done ha => rfl
  | move m rest ih => exact ih.trans m.fields.1
  | reply hc hr rest ih => simpa using ih
  | expand hc ht hm hr call rest ihc ih => simpa using ih

theorem Runs.path_eq (h : Runs parser sentence t f t' f') : f'.path = f.path := by
  induction h with
  | done ha => rfl
  | move m rest ih => exact ih.trans m.fields.2.1
  | reply hc hr rest ih => simpa using ih
  | expand hc ht hm hr call rest ihc ih => simpa using ih

theorem Runs.alternatives_eq (h : Runs parser sentence t f t' f') : f'.alternatives = [] := by
  induction h with
  | done ha => exact ha
  | move m rest ih => exact ih
  | reply hc hr rest ih => exact ih
  | expand hc ht hm hr call rest ihc ih => exact ih

theorem Runs.cut_subset (h : Runs parser sentence t f t' f') : f.cut ⊆ f'.cut := by
  induction h with
  | done ha => exact List.Subset.refl _
  | move m rest ih => exact m.fields.2.2 ▸ ih
  | reply hc hr rest ih => exact fun k hk => ih (by simp [hk])
  | expand hc ht hm hr call rest ihc ih => exact fun k hk => ih (by simp [hk])

/-- Only expansions further out cut an expansion short. -/
def CutOutside (f : Frame) : Prop :=
  f.cut ⊆ f.path

theorem CutOutside.start (grammar : Grammar) (path : List Key) (key : Key) :
    (Frame.start grammar path key).CutOutside := by
  simp [CutOutside]

theorem CutOutside.receive (hf : f.CutOutside) {cut : List Key}
    (hcut : cut ⊆ f.key :: f.path) (answer : List Derivation) :
    (f.receive answer cut).CutOutside := by
  intro k hk
  rw [cut_receive, List.mem_append, List.mem_filter] at hk
  rw [path_receive]
  rcases hk with hk | ⟨hk, hne⟩
  · exact hf hk
  · rcases List.mem_cons.mp (hcut hk) with rfl | hk
    · simp at hne
    · exact hk

theorem Reply.cut_subset {callee : Key} {answer : List Derivation} {cut : List Key}
    (h : Reply parser sentence t f callee answer cut) : cut ⊆ f.key :: f.path := by
  cases h with
  | known ht => exact List.nil_subset _
  | cut hm => exact by simpa using hm
  | outside ht hr => exact List.nil_subset _

theorem Runs.cutOutside (h : Runs parser sentence t f t' f') (hf : f.CutOutside) :
    f'.CutOutside := by
  induction h with
  | done ha => exact hf
  | @move _ _ f g _ m rest ih =>
    obtain ⟨_, hpath, hcut⟩ := m.fields
    exact ih (by rw [CutOutside, hpath, hcut]; exact hf)
  | reply hc hr rest ih => exact ih (hf.receive hr.cut_subset _)
  | @expand _ _ _ f g _ _ hc ht hm hr call rest ihc ih =>
    have hg := ihc (.start _ _ _)
    rw [CutOutside, call.path_eq, path_start] at hg
    exact ih (hf.receive hg _)

theorem Runs.open_keys (h : Runs parser sentence t f t' f')
    (hf : ∀ key ∈ f.key :: f.path, t key = none) : ∀ key ∈ f.key :: f.path, t' key = none := by
  induction h with
  | done ha => exact hf
  | move m rest ih =>
    obtain ⟨hkey, hpath, _⟩ := m.fields
    rw [hkey, hpath] at ih
    exact ih hf
  | reply hc hr rest ih =>
    simp only [key_receive, path_receive] at ih
    exact ih hf
  | @expand t t₁ _ f g _ callee hc ht hm hr call rest ihc ih =>
    simp only [key_receive, path_receive, key_start, path_start] at ih ihc
    refine ih fun key hk => ?_
    have hopen := ihc (by simpa [ht] using hf) key (List.mem_cons_of_mem _ hk)
    have hne : key ≠ g.key := by
      rw [call.key_eq, key_start]
      rintro rfl
      exact hm hk
    rw [Table.settle_of_ne hne, hopen]

theorem Runs.table_le (h : Runs parser sentence t f t' f') {key : Key} {ds : List Derivation}
    (hk : t key = some ds) : t' key = some ds := by
  induction h with
  | done ha => exact hk
  | move m rest ih => exact ih hk
  | reply hc hr rest ih => exact ih hk
  | @expand t t₁ _ f g _ callee hc ht hm hr call rest ihc ih =>
    refine ih ?_
    have hne : key ≠ g.key := by
      rw [call.key_eq, key_start]
      rintro rfl
      simp [hk] at ht
    rw [Table.settle_of_ne hne, ihc hk]

section call

variable {t₁ : Table} {g : Frame} {callee : Key}

theorem Runs.key_call {path : List Key}
    (call : Runs parser sentence t (Frame.start parser.grammar path callee) t₁ g) :
    g.key = callee := by
  simpa using call.key_eq

theorem Runs.path_call {path : List Key}
    (call : Runs parser sentence t (Frame.start parser.grammar path callee) t₁ g) :
    g.path = path := by
  simpa using call.path_eq

theorem Runs.settle_open (call : Runs parser sentence t
    (Frame.start parser.grammar (f.key :: f.path) callee) t₁ g) (ht : t callee = none)
    (hm : callee ∉ f.key :: f.path) (hopen : ∀ key ∈ f.key :: f.path, t key = none) :
    ∀ key ∈ f.key :: f.path, t₁.settle g key = none := by
  intro key hk
  have hstart : ∀ k ∈ callee :: f.key :: f.path, t k = none :=
    List.forall_mem_cons.mpr ⟨ht, hopen⟩
  have hopen₁ := call.open_keys (by simpa using hstart)
  have hne : key ≠ g.key := by
    rw [call.key_call]
    rintro rfl
    exact hm hk
  rw [Table.settle_of_ne hne]
  exact hopen₁ key (by simpa using .inr (List.mem_cons.mp hk))

theorem Runs.settle_le (call : Runs parser sentence t
    (Frame.start parser.grammar (f.key :: f.path) callee) t₁ g) (ht : t callee = none) {key : Key}
    {ds : List Derivation} (hk : t key = some ds) : t₁.settle g key = some ds := by
  have hne : key ≠ g.key := by
    rw [call.key_call]
    rintro rfl
    simp [hk] at ht
  rw [Table.settle_of_ne hne, call.table_le hk]

theorem Runs.settle_eq_none (call : Runs parser sentence t
    (Frame.start parser.grammar (f.key :: f.path) callee) t₁ g) (ht : t callee = none) {key : Key}
    (hk : t₁.settle g key = none) : t key = none := by
  cases hbefore : t key with
  | none => rfl
  | some ds =>
    rw [call.settle_le ht hbefore] at hk
    cases hk

/-- What is done once a callee has ended was done before, or is the callee and was not cut short. -/
theorem settle_eq_some {key : Key} {ds : List Derivation}
    (h : t₁.settle g key = some ds) :
    t₁ key = some ds ∨ g.cut = [] ∧ key = g.key ∧ ds = g.results := by
  unfold Table.settle at h
  split at h
  next hs =>
    cases h
    exact .inr ⟨hs.1, hs.2, rfl⟩
  next => exact .inl h

/-- What cuts a callee short cuts the caller short, or is the caller. -/
theorem Runs.cut_receive {answer : List Derivation} {cut : List Key}
    (rest : Runs parser sentence t (f.receive answer cut) t' f') : cut ⊆ f'.key :: f'.cut := by
  intro key hk
  have hkey : f'.key = f.key := by simpa using rest.key_eq
  by_cases h : key = f.key
  · rw [h, hkey]
    exact List.mem_cons_self
  · refine List.mem_cons_of_mem _ (rest.cut_subset ?_)
    simp [hk, h]

end call

end Frame

end Concord
