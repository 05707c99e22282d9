import Concord.Proofs.Unfolding

namespace Concord

namespace Frame

variable {parser : Parser} {sentence : Sentence} {t t' : Table} {f g f' : Frame}

/-- The expansions that are going on are not done, and their keys are in range. -/
def Going (parser : Parser) (sentence : Sentence) (t : Table) (f : Frame) : Prop :=
  ∀ key ∈ f.key :: f.path, t key = none ∧ key.InRange parser sentence

theorem Going.of_eq (hgoing : f.Going parser sentence t) (hkey : g.key = f.key)
    (hpath : g.path = f.path) : g.Going parser sentence t := by
  rw [Going, hkey, hpath]
  exact hgoing

theorem Going.start {path : List Key} {key : Key} (ht : t key = none)
    (hr : key.InRange parser sentence)
    (hpath : ∀ k ∈ path, t k = none ∧ k.InRange parser sentence) :
    (Frame.start parser.grammar path key).Going parser sentence t := by
  rw [Going, key_start, path_start]
  exact List.forall_mem_cons.mpr ⟨⟨ht, hr⟩, hpath⟩

/-- Once a callee has ended, the frame goes on. -/
theorem Going.settle {t₁ : Table} {callee : Key} (hgoing : f.Going parser sentence t)
    (call : Runs parser sentence t (Frame.start parser.grammar (f.key :: f.path) callee) t₁ g)
    (ht : t callee = none) (hm : callee ∉ f.key :: f.path) (answer : List Derivation)
    (cut : List Key) : (f.receive answer cut).Going parser sentence (t₁.settle g) := by
  rw [Going, key_receive, path_receive]
  exact fun key hk =>
    ⟨call.settle_open ht hm (fun k hk => (hgoing k hk).1) key hk, (hgoing key hk).2⟩

theorem Moves.alternatives_ne (m : f.Moves parser sentence g) : f.alternatives ≠ [] := by
  cases m with
  | finish ha | pass ha | literal ha | word ha => exact ha ▸ List.cons_ne_nil _ _

theorem Moves.callee?_eq_none (m : f.Moves parser sentence g) : f.callee? = none := by
  cases m with
  | finish ha he => simp [callee?, ha, he]
  | pass ha he hp => simp [callee?, ha, he, hp]
  | literal ha he hp => simp [callee?, ha, he, hp]
  | word ha he hp ht => simp [callee?, ha, he, hp, ht]

/-- What stands first in a frame decides what it does next. -/
theorem Moves.unique (m : f.Moves parser sentence g) (m' : f.Moves parser sentence f') :
    g = f' := by
  cases m with
  | finish ha he =>
    cases m' with
    | finish ha' _ =>
      cases ha.symm.trans ha'
      rfl
    | pass _ he' | literal _ he' | word _ he' => cases he.symm.trans he'
  | pass ha he hp =>
    cases m' with
    | finish _ he' => cases he.symm.trans he'
    | pass ha' he' _ =>
      cases ha.symm.trans ha'
      cases he.symm.trans he'
      rfl
    | literal _ _ hp' | word _ _ hp' => cases hp.symm.trans hp'
  | literal ha he hp =>
    cases m' with
    | finish _ he' | word _ he' => cases he.symm.trans he'
    | pass _ _ hp' => cases hp.symm.trans hp'
    | literal _ he' hp' =>
      cases he.symm.trans he'
      cases hp.symm.trans hp'
      rfl
  | word ha he hp ht =>
    cases m' with
    | finish _ he' | literal _ he' => cases he.symm.trans he'
    | pass _ _ hp' => cases hp.symm.trans hp'
    | word _ he' hp' _ =>
      cases he.symm.trans he'
      cases hp.symm.trans hp'
      rfl

theorem alternatives_ne_of_callee? {callee : Key} (hc : f.callee? = some callee) :
    f.alternatives ≠ [] := by
  obtain ⟨_, _, _, _, _, _, _, ha, -⟩ := callee?_eq_some hc
  exact ha ▸ List.cons_ne_nil _ _

section reply

variable {callee : Key} {answer answer' : List Derivation} {cut cut' : List Key}

theorem Reply.unique (h : Reply parser sentence t f callee answer cut)
    (h' : Reply parser sentence t f callee answer' cut') (hgoing : f.Going parser sentence t) :
    answer = answer' ∧ cut = cut' := by
  cases h with
  | known ht =>
    cases h' with
    | known ht' => exact ⟨Option.some.inj (ht.symm.trans ht'), rfl⟩
    | cut hm => cases (hgoing callee hm).1.symm.trans ht
    | outside ht' => cases ht.symm.trans ht'
  | cut hm =>
    cases h' with
    | known ht => cases (hgoing callee hm).1.symm.trans ht
    | cut => exact ⟨rfl, rfl⟩
    | outside _ hr => exact absurd (hgoing callee hm).2 hr
  | outside ht hr =>
    cases h' with
    | known ht' => cases ht.symm.trans ht'
    | cut hm => exact absurd (hgoing callee hm).2 hr
    | outside => exact ⟨rfl, rfl⟩

/-- What is answered at once is not expanded. -/
theorem Reply.not_expanded (h : Reply parser sentence t f callee answer cut)
    (ht : t callee = none) (hm : callee ∉ f.key :: f.path)
    (hr : callee.InRange parser sentence) : False := by
  cases h with
  | known ht' => cases ht.symm.trans ht'
  | cut hm' => exact hm hm'
  | outside _ hr' => exact hr' hr

end reply

theorem Runs.of_done (h : f.Runs parser sentence t t' f') (ha : f.alternatives = []) :
    t' = t ∧ f' = f := by
  cases h with
  | done => exact ⟨rfl, rfl⟩
  | move m => exact absurd ha m.alternatives_ne
  | reply hc => exact absurd ha (alternatives_ne_of_callee? hc)
  | expand hc => exact absurd ha (alternatives_ne_of_callee? hc)

theorem Runs.of_move (h : f.Runs parser sentence t t' f') (m : f.Moves parser sentence g) :
    g.Runs parser sentence t t' f' := by
  cases h with
  | done ha => exact absurd ha m.alternatives_ne
  | move m' rest => exact m.unique m' ▸ rest
  | reply hc => cases m.callee?_eq_none.symm.trans hc
  | expand hc => cases m.callee?_eq_none.symm.trans hc

theorem Runs.of_reply {callee : Key} {answer : List Derivation} {cut : List Key}
    (h : f.Runs parser sentence t t' f') (hgoing : f.Going parser sentence t)
    (hc : f.callee? = some callee) (hr : Reply parser sentence t f callee answer cut) :
    (f.receive answer cut).Runs parser sentence t t' f' := by
  cases h with
  | done ha => exact absurd ha (alternatives_ne_of_callee? hc)
  | move m => cases m.callee?_eq_none.symm.trans hc
  | reply hc' hr' rest =>
    cases hc.symm.trans hc'
    obtain ⟨rfl, rfl⟩ := hr.unique hr' hgoing
    exact rest
  | expand hc' ht hm hr' =>
    cases hc.symm.trans hc'
    exact (hr.not_expanded ht hm hr').elim

theorem Runs.of_expand {callee : Key} (h : f.Runs parser sentence t t' f')
    (hc : f.callee? = some callee) (ht : t callee = none) (hm : callee ∉ f.key :: f.path)
    (hr : callee.InRange parser sentence) :
    ∃ t₁ g, Runs parser sentence t (start parser.grammar (f.key :: f.path) callee) t₁ g ∧
      Runs parser sentence (t₁.settle g) (f.receive g.results g.cut) t' f' := by
  cases h with
  | done ha => exact absurd ha (alternatives_ne_of_callee? hc)
  | move m => cases m.callee?_eq_none.symm.trans hc
  | reply hc' hr' =>
    cases hc.symm.trans hc'
    exact (hr'.not_expanded ht hm hr).elim
  | expand hc' _ _ _ call rest =>
    cases hc.symm.trans hc'
    exact ⟨_, _, call, rest⟩

end Frame

end Concord
