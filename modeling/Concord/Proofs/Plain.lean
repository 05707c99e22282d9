import Concord.Proofs.Calls
import Concord.Proofs.Matching
import Concord.Proofs.Position

namespace Concord

def Answers.Le (answers answers' : Answers) : Prop :=
  ∀ key ds, answers key = some ds → answers' key = some ds

theorem Parser.limit_nil (parser : Parser) : parser.limit [] = [] := by
  unfold limit
  split
  · rfl
  · exact List.take_nil

theorem Key.expandWith_mono {parser : Parser} {sentence : Sentence} {answers answers' : Answers}
    (hle : answers.Le answers') {key : Key} {ds : List Derivation}
    (h : key.expandWith parser sentence answers = some ds) :
    key.expandWith parser sentence answers' = some ds :=
  expandWith_of_calls h fun callee _ => hle callee

namespace Key

def apart (key : Key) (answers : Answers) : Answers := fun callee =>
  if callee = key then some [] else answers callee

/-- The plain search in which an expansion that calls itself gets nothing there. -/
def steady (parser : Parser) (sentence : Sentence) : Nat → Key → Option (List Derivation)
  | 0, _ => none
  | depth + 1, key => key.expandWith parser sentence (key.apart (steady parser sentence depth))

variable {parser : Parser} {sentence : Sentence}

theorem apart_self (key : Key) (answers : Answers) : key.apart answers key = some [] :=
  if_pos rfl

theorem apart_of_ne {key callee : Key} (h : callee ≠ key) (answers : Answers) :
    key.apart answers callee = answers callee :=
  if_neg h

theorem apart_mono {answers answers' : Answers} (hle : answers.Le answers') (key : Key) :
    (key.apart answers).Le (key.apart answers') := by
  intro callee ds h
  unfold apart at h ⊢
  split
  next heq => rwa [if_pos heq] at h
  next hne =>
    rw [if_neg hne] at h
    exact hle callee ds h

theorem plain_succ (depth : Nat) :
    Answers.Le (plain parser sentence depth) (plain parser sentence (depth + 1)) := by
  induction depth with
  | zero => exact fun _ _ h => by cases h
  | succ depth ih => exact fun _ _ h => expandWith_mono ih h

theorem plain_mono {depth depth' : Nat} (h : depth ≤ depth') :
    Answers.Le (plain parser sentence depth) (plain parser sentence depth') := by
  induction h with
  | refl => exact fun _ _ h => h
  | step _ ih => exact fun key ds h => plain_succ _ key ds (ih key ds h)

theorem plain_unique {depth depth' : Nat} {key : Key} {ds ds' : List Derivation}
    (h : key.plain parser sentence depth = some ds)
    (h' : key.plain parser sentence depth' = some ds') : ds = ds' := by
  have hlater := plain_mono (Nat.le_max_left depth depth') key ds h
  rw [plain_mono (Nat.le_max_right depth depth') key ds' h'] at hlater
  exact (Option.some.inj hlater).symm

theorem steady_succ (depth : Nat) :
    Answers.Le (steady parser sentence depth) (steady parser sentence (depth + 1)) := by
  induction depth with
  | zero => exact fun _ _ h => by cases h
  | succ depth ih => exact fun key _ h => expandWith_mono (apart_mono ih key) h

/-- What the plain search answers does not call itself. -/
theorem plain_le_steady (depth : Nat) :
    Answers.Le (plain parser sentence depth) (steady parser sentence depth) := by
  induction depth with
  | zero => exact fun _ _ h => by cases h
  | succ depth ih =>
    intro key ds h
    cases hself : plain parser sentence depth key with
    | none =>
      refine expandWith_mono (fun callee found hc => ?_) h
      have hne : callee ≠ key := by
        rintro rfl
        rw [hself] at hc
        cases hc
      rw [apart_of_ne hne]
      exact ih callee found hc
    | some found =>
      have heq := plain_succ depth key found hself
      rw [h] at heq
      cases heq
      exact steady_succ depth key _ (ih key _ hself)

end Key

/-- What is done is what the steady search answers, if it answers. -/
def Table.Steady (t : Table) (parser : Parser) (sentence : Sentence) : Prop :=
  ∀ key ds, t key = some ds → ∀ depth found, key.steady parser sentence depth = some found →
    ds = found

namespace Frame

/-- The frame will have found what the steady search answers, if it answers. -/
def Steady (parser : Parser) (sentence : Sentence) (f : Frame) : Prop :=
  ∀ depth found, f.key.steady parser sentence (depth + 1) = some found →
    f.outlook parser sentence (f.key.apart (Key.steady parser sentence depth)) = some found

/-- Where the steady search answers a key of the path, it answers the innermost key before that. -/
def Descends (parser : Parser) (sentence : Sentence) (f : Frame) : Prop :=
  ∀ key ∈ f.path, ∀ depth, key.steady parser sentence (depth + 1) ≠ none →
    ∃ depth' ≤ depth, f.key.steady parser sentence depth' ≠ none

variable {parser : Parser} {sentence : Sentence} {t t' : Table} {f f' : Frame}

theorem answered_of_outlook {answers : Answers} {callee : Key} {found : List Derivation}
    (hc : f.callee? = some callee) (h : f.outlook parser sentence answers = some found) :
    ∃ answer, answers callee = some answer := by
  obtain ⟨_, _, term, _, strand, _, symbol, ha, he, hp, ht, rfl, -⟩ := callee?_eq_some hc
  rw [outlook_of_cons ha] at h
  obtain ⟨strands, hstrands, -⟩ := Option.bind_eq_some_iff.mp h
  simp only [strands?, he, hp] at hstrands
  obtain ⟨next, hnext, -⟩ := Option.bind_eq_some_iff.mp hstrands
  obtain ⟨first, hfirst, -⟩ := Option.bind_eq_some_iff.mp hnext
  simp only [Strand.advance, ht] at hfirst
  obtain ⟨answer, hanswer, -⟩ := Option.map_eq_some_iff.mp hfirst
  exact ⟨answer, hanswer⟩

theorem Steady.start (path : List Key) (key : Key) :
    (Frame.start parser.grammar path key).Steady parser sentence := by
  intro depth found h
  rw [outlook_start, key_start]
  rwa [key_start] at h

theorem Steady.move (hf : f.Steady parser sentence) (m : f.Moves parser sentence f') :
    f'.Steady parser sentence := by
  intro depth found h
  rw [m.fields.1] at h ⊢
  have houtlook := hf depth found h
  rw [outlook_move m (.inr (by simp [houtlook])), houtlook]

theorem Steady.receive (hf : f.Steady parser sentence) {callee : Key}
    (hc : f.callee? = some callee) {answer : List Derivation}
    (ha : ∀ depth found, f.key.steady parser sentence (depth + 1) ≠ none →
      f.key.apart (Key.steady parser sentence depth) callee = some found → answer = found)
    (cut : List Key) : (f.receive answer cut).Steady parser sentence := by
  intro depth found h
  rw [key_receive] at h ⊢
  have houtlook := hf depth found h
  obtain ⟨answer', hanswer⟩ := answered_of_outlook hc houtlook
  rw [ha depth answer' (by simp [h]) hanswer, outlook_receive hc hanswer, houtlook]

theorem limit_results_move (m : f.Moves parser sentence f')
    (hf : parser.limit f.results = f.results) : parser.limit f'.results = f'.results := by
  cases m with
  | finish ha he =>
    unfold finishAlternative
    unfold Parser.limit
    cases hcap : parser.cap with
    | none => rfl
    | some cap =>
      dsimp only
      split
      next => simp only [results_toAlternative, List.take_take, Nat.min_self]
      next hlt =>
        rw [results_toAlternative]
        exact List.take_of_length_le (Nat.le_of_lt (Nat.not_le.mp hlt))
  | pass ha he hp =>
    split
    next => simpa using hf
    next => exact hf
  | literal ha he hp => exact hf
  | word ha he hp ht => exact hf

@[simp] theorem results_receive (answer : List Derivation) (cut : List Key) :
    (f.receive answer cut).results = f.results := by
  unfold receive
  dsimp only
  split <;> rfl

theorem Runs.limit_results (h : f.Runs parser sentence t t' f')
    (hf : parser.limit f.results = f.results) : parser.limit f'.results = f'.results := by
  induction h with
  | done ha => exact hf
  | move m rest ih => exact ih (limit_results_move m hf)
  | reply hc hr rest ih => exact ih (by simpa using hf)
  | expand hc ht hm hr call rest ihc ih => exact ih (by simpa using hf)

end Frame

def EndsIn (sentence : Sentence) (key : Key) (d : Derivation) : Prop :=
  key.start ≤ sentence.length ∧ d.stop ≤ sentence.length

theorem inherited_endsIn (parser : Parser) (sentence : Sentence) :
    Inherited parser sentence [] (EndsIn sentence) := by
  intro key d _ hr hbuilds
  exact ⟨hr.2, (hbuilds.within hr.2 fun callee part _ h _ => h.2.2).1⟩

theorem Frame.Built.callee_start_le {parser : Parser} {sentence : Sentence} {f : Frame}
    (hf : f.Built parser sentence fun callee part =>
      callee ≠ f.key ∧ EndsIn sentence callee part) (hpos : f.key.start ≤ sentence.length)
    {callee : Key} (hc : f.callee? = some callee) : callee.start ≤ sentence.length := by
  obtain ⟨pattern, _, _, _, strand, _, _, ha, -, hp, -, rfl, -⟩ := callee?_eq_some hc
  obtain ⟨-, before, -, hpending, -⟩ := hf.current _ _ ha
  have hpasses := hpending strand (hp ▸ List.mem_cons_self)
  exact (hpasses.within hpos fun callee part _ h _ => h.2.2).1

theorem Key.steady_outside {parser : Parser} {sentence : Sentence} {key : Key}
    (hr : ¬key.InRange parser sentence) (hpos : key.start ≤ sentence.length) {depth : Nat}
    {found : List Derivation} (h : key.steady parser sentence depth = some found) :
    found = [] := by
  cases depth with
  | zero => cases h
  | succ depth =>
    have hsize : parser.grammar.size ≤ key.symbol := Nat.not_lt.mp fun hlt => hr ⟨hlt, hpos⟩
    have hnone : parser.grammar.symbols[key.symbol]? = none := Array.getElem?_eq_none hsize
    have hnil : parser.grammar.alternatives key.symbol = [] := by
      unfold Grammar.alternatives
      rw [hnone]
    rw [steady, expandWith, hnil] at h
    simp only [List.filter_nil, tryEach, Option.map_some, Option.some.injEq] at h
    rw [← h, Parser.limit_nil]

namespace Frame

variable {parser : Parser} {sentence : Sentence} {t t' : Table} {f f' : Frame}

/-- A key whose frame calls into its own path is not answered by the steady search. -/
theorem Descends.not_steady (hd : f.Descends parser sentence) (hf : f.Steady parser sentence)
    {callee : Key} (hc : f.callee? = some callee) (hm : callee ∈ f.path) (hne : callee ≠ f.key)
    (depth : Nat) : f.key.steady parser sentence depth = none := by
  induction depth using Nat.strongRecOn with
  | _ depth ih =>
    cases depth with
    | zero => rfl
    | succ depth =>
      cases hkey : f.key.steady parser sentence (depth + 1) with
      | none => rfl
      | some found =>
        obtain ⟨answer, hanswer⟩ := answered_of_outlook hc (hf depth found hkey)
        rw [Key.apart_of_ne hne] at hanswer
        cases depth with
        | zero => cases hanswer
        | succ depth =>
          obtain ⟨depth', hle, hsome⟩ := hd callee hm depth (by simp [hanswer])
          exact absurd (ih depth' (by omega)) hsome

theorem Descends.call (hd : f.Descends parser sentence) (hf : f.Steady parser sentence)
    {callee : Key} (hc : f.callee? = some callee) (hne : callee ≠ f.key) :
    (start parser.grammar (f.key :: f.path) callee).Descends parser sentence := by
  rw [Descends, key_start, path_start]
  have hfirst : ∀ depth, f.key.steady parser sentence (depth + 1) ≠ none →
      callee.steady parser sentence depth ≠ none := by
    intro depth h
    obtain ⟨found, hfound⟩ := Option.ne_none_iff_exists'.mp h
    obtain ⟨answer, hanswer⟩ := answered_of_outlook hc (hf depth found hfound)
    rw [Key.apart_of_ne hne] at hanswer
    simp [hanswer]
  intro key hk depth h
  rcases List.mem_cons.mp hk with rfl | hk
  · exact ⟨depth, Nat.le_refl _, hfirst depth h⟩
  · obtain ⟨depth', hle, hsome⟩ := hd key hk depth h
    cases depth' with
    | zero => exact absurd rfl hsome
    | succ depth' => exact ⟨depth', by omega, hfirst depth' hsome⟩

theorem Runs.results_eq_of_steady {path : List Key} {key : Key}
    (h : (start parser.grammar path key).Runs parser sentence t t' f)
    (hf : f.Steady parser sentence) (depth : Nat) (found : List Derivation)
    (hfound : key.steady parser sentence depth = some found) : f.results = found := by
  have hkey : f.key = key := h.key_call
  have hlimit := h.limit_results (by rw [results_start, Parser.limit_nil])
  cases depth with
  | zero => cases hfound
  | succ depth =>
    have houtlook := hf depth found (by rwa [hkey])
    rw [outlook_of_nil h.alternatives_eq, hlimit] at houtlook
    exact Option.some.inj houtlook

/-- What is answered at once is what the steady search answers, where it answers the frame. -/
theorem Reply.steady {callee : Key} {answer found : List Derivation} {cut : List Key} {depth : Nat}
    (h : Reply parser sentence t f callee answer cut) (hc : f.callee? = some callee)
    (hopen : ∀ key ∈ f.key :: f.path, t key = none) (ht : t.Steady parser sentence)
    (hd : f.Descends parser sentence) (hf : f.Steady parser sentence)
    (hpos : callee.start ≤ sentence.length)
    (hkey : f.key.steady parser sentence (depth + 1) ≠ none)
    (ha : f.key.apart (Key.steady parser sentence depth) callee = some found) : answer = found := by
  by_cases hne : callee = f.key
  · subst hne
    rw [Key.apart_self] at ha
    cases ha
    cases h with
    | known htab =>
      rw [hopen f.key List.mem_cons_self] at htab
      cases htab
    | cut hmem => rfl
    | outside htab hr => rfl
  · rw [Key.apart_of_ne hne] at ha
    cases h with
    | known htab => exact ht callee answer htab depth found ha
    | cut hmem =>
      -- An expansion further out would have to be answered less deep than it is.
      have hpath := (List.mem_cons.mp hmem).resolve_left hne
      exact absurd (hd.not_steady hf hc hpath hne (depth + 1)) hkey
    | outside htab hr => exact (Key.steady_outside hr hpos ha).symm

/-- During a run, a frame keeps to what the steady search answers. -/
theorem Runs.steady (h : f.Runs parser sentence t t' f')
    (hopen : ∀ key ∈ f.key :: f.path, t key = none) (ht : t.Steady parser sentence)
    (hends : t.All (EndsIn sentence)) (hpos : f.key.start ≤ sentence.length)
    (hbuilt : f.Built parser sentence fun callee part =>
      callee ≠ f.key ∧ EndsIn sentence callee part)
    (hd : f.Descends parser sentence) (hf : f.Steady parser sentence) :
    t'.Steady parser sentence ∧ f'.Steady parser sentence := by
  induction h with
  | done ha => exact ⟨ht, hf⟩
  | @move t t' f g f' m rest ih =>
    obtain ⟨hkey, hpath, -⟩ := m.fields
    rw [Descends, hkey, hpath] at ih
    exact ih hopen ht hends hpos (hbuilt.move m) hd (hf.move m)
  | @reply t t' f f' callee answer cut hc hr rest ih =>
    rw [Descends, key_receive, path_receive] at ih
    exact ih hopen ht hends hpos (hbuilt.receive hc (hr.all hopen hends) cut) hd
      (hf.receive hc (fun _ _ => hr.steady hc hopen ht hd hf (hbuilt.callee_start_le hpos hc)) cut)
  | @expand t t₁ t' f g f' callee hc htab hm hr call rest ihc ih =>
    rw [key_start, path_start] at ihc
    rw [Descends, key_receive, path_receive] at ih
    have hne : callee ≠ f.key := by
      rintro rfl
      exact hm List.mem_cons_self
    have hstart : ∀ key ∈ callee :: f.key :: f.path, t key = none :=
      List.forall_mem_cons.mpr ⟨htab, hopen⟩
    obtain ⟨hends₁, hg⟩ := call.built (inherited_endsIn parser sentence) (List.nil_subset _)
      (by simpa using hstart) hends (.start _ _)
    rw [key_start] at hg
    obtain ⟨hfound, hends'⟩ :=
      call.settle_all (inherited_endsIn parser sentence) List.not_mem_nil hr hends₁ hg
    obtain ⟨ht₁, hgsteady⟩ := ihc hstart ht hends hr.2 (.start _ _) (hd.call hf hc hne)
      (.start _ _)
    have hresults := call.results_eq_of_steady hgsteady
    have hsettle : (t₁.settle g).Steady parser sentence := by
      intro key ds hk
      rcases settle_eq_some hk with hk | ⟨-, rfl, rfl⟩
      · exact ht₁ key ds hk
      · rw [call.key_call]
        exact hresults
    refine ih (call.settle_open htab hm hopen) hsettle hends' hpos
      (hbuilt.receive hc (fun d hm => ⟨hne, hfound d hm⟩) g.cut) hd
      (hf.receive hc (fun depth found _ ha => ?_) g.cut)
    rw [Key.apart_of_ne hne] at ha
    exact hresults depth found ha

end Frame

variable {parser : Parser} {sentence : Sentence}

theorem Table.Reached.steady {t : Table} (h : t.Reached parser sentence) :
    t.Steady parser sentence := by
  induction h with
  | empty => exact fun _ _ h => by cases h
  | @call t t' key h hc ih =>
    cases hc with
    | kept => exact ih
    | @expand t' f htab hr run =>
      have hpath : (Frame.start parser.grammar [] key).Descends parser sentence := by
        rw [Frame.Descends, Frame.path_start]
        exact fun _ hk => by cases hk
      obtain ⟨ht', hf⟩ := run.steady (by simp [htab]) ih (h.all (inherited_endsIn parser sentence))
        (by simpa using hr.2) (.start _ _) hpath (.start _ _)
      have hkey : f.key = key := run.key_call
      intro k ds hk
      rcases Frame.settle_eq_some hk with hk | ⟨-, rfl, rfl⟩
      · exact ht' k ds hk
      · rw [hkey]
        exact run.results_eq_of_steady hf

/-- A symbol that begins with another one. -/
def Grammar.nested : Grammar where
  symbols := #[
    ⟨['a'], [⟨['{', 'b', '}', '!'], none, [.term ⟨some ['b'], [], some 1⟩, .literal ['!']], 0⟩]⟩,
    ⟨['b'], [⟨['x'], none, [.literal ['x']], 0⟩]⟩]
  undefined := []

namespace Analysis

/-- A parse for a key that the plain search answers finds what the plain search finds, in the same
order, whatever was asked before. -/
theorem results_eq_plain (parser : Parser) (sentence : Sentence) (requests : List Request)
    {start : Text} {symbol : Nat} (hs : parser.grammar.indexOf? start = some symbol) {offset : Nat}
    (ho : offset ≤ sentence.length) (inherited : Features) {depth : Nat} {ds : List Derivation}
    (h : Key.plain parser sentence depth ⟨symbol, offset, inherited⟩ = some ds) :
    let parse := ((ofSentence parser sentence).afterAll requests).parseGiven start offset inherited
    parse.1 = .ok () ∧ parse.2.results = ds.map Derivation.tree := by
  obtain ⟨t, ds', ht, hds, hseen⟩ := seen_of_indexOf? requests hs ho inherited
  have heq := ht.steady _ ds' hds depth ds (Key.plain_le_steady depth _ ds h)
  subst heq
  exact Prod.mk.inj hseen

theorem results_eq_plain_nested :
    (((ofSentence ⟨.empty, .nested, [' '], none⟩ (.ofText ['x', '!'])).afterAll
        [.parse ['b'] 0]).parseGiven ['a'] 0 .empty).2.results =
      [.phrase ['a'] 0 2 .empty [.phrase ['b'] 0 1 .empty []]] := by
  have hs : Grammar.nested.indexOf? ['a'] = some 0 := by decide +kernel
  have hsentence : Sentence.ofText ['x', '!'] = ⟨['x', '!'], #['x', '!'], #[0, 1, 2]⟩ := by
    decide +kernel
  have hplain : Key.plain ⟨.empty, .nested, [' '], none⟩ (.ofText ['x', '!']) 2 ⟨0, 0, .empty⟩ =
      some [.expansion ['a'] ⟨0, 0, .empty⟩ 2 .empty
        [.expansion ['b'] ⟨1, 0, .empty⟩ 1 .empty []]] := by
    rw [hsentence]
    rfl
  have h := results_eq_plain ⟨.empty, .nested, [' '], none⟩ (.ofText ['x', '!'])
    [.parse ['b'] 0] hs (Nat.zero_le _) .empty hplain
  simpa using h.2

end Analysis

end Concord
