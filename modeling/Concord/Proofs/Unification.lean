import Concord.Proofs.Validity

namespace Concord

namespace Bindings

/-- The values of the variables so far are those of an assignment. -/
def Within (bindings : Bindings) (values : Assignment) : Prop :=
  ∀ index value, bindings.get index = some value → values index = some value

theorem Within.refl (bindings : Bindings) : bindings.Within bindings.get :=
  fun _ _ h => h

theorem Within.trans {a b : Bindings} {values : Assignment} (h : a.Within b.get)
    (h' : b.Within values) : a.Within values :=
  fun index value hv => h' index value (h index value hv)

theorem get_bind (bindings : Bindings) {index : Nat} (hi : index < bindings.values.length)
    (feature : Feature) (i : Nat) :
    (bindings.bind index feature).get i = if i = index then some feature else bindings.get i := by
  unfold get bind
  simp only [List.getD_eq_getElem?_getD, List.getElem?_set]
  by_cases h : index = i
  · subst h
    simp [hi]
  · simp [h, Ne.symm h]

theorem get_exporting (bindings : Bindings) (clause : Clause) (exported : Export) :
    (bindings.exporting clause exported).get = bindings.get := by
  unfold exporting
  split <;> rfl

theorem Within.exporting {bindings : Bindings} {values : Assignment} {clause : Clause}
    {exported : Export} (h : bindings.Within values) :
    (bindings.exporting clause exported).Within values := by
  rw [Within, get_exporting]
  exact h

theorem agree_sound {bindings b : Bindings} {index : Nat} {feature : Feature}
    (h : bindings.agree index feature = some b) (hi : index < bindings.values.length) :
    b.values.length = bindings.values.length ∧ b.exports = bindings.exports ∧
      bindings.Within b.get ∧ b.get index = some feature ∧
      ∀ i, b.get i ≠ none → bindings.get i ≠ none ∨ i = index := by
  unfold agree at h
  split at h
  next hnone =>
    cases h
    refine ⟨List.length_set, rfl, fun i value hv => ?_, ?_, fun i hne => ?_⟩
    · rw [get_bind _ hi, if_neg, hv]
      rintro rfl
      rw [hnone] at hv
      cases hv
    · rw [get_bind _ hi, if_pos rfl]
    · rw [get_bind _ hi] at hne
      split at hne
      next heq => exact .inr heq
      next => exact .inl hne
  next bound hbound =>
    split at h
    next heq =>
      cases h
      exact ⟨rfl, rfl, .refl _, heq ▸ hbound, fun i hne => .inl hne⟩
    next => cases h

theorem agree_complete {bindings : Bindings} {values : Assignment} {index : Nat}
    {feature : Feature} (hw : bindings.Within values) (hv : values index = some feature)
    (hi : index < bindings.values.length) :
    ∃ b, bindings.agree index feature = some b ∧ b.Within values := by
  unfold agree
  cases hget : bindings.get index with
  | none =>
    refine ⟨_, rfl, fun i value hvalue => ?_⟩
    rw [get_bind _ hi] at hvalue
    split at hvalue
    next heq =>
      cases hvalue
      rw [heq, hv]
    next => exact hw i value hvalue
  | some bound =>
    have heq : bound = feature := by
      have hb := hw index bound hget
      rw [hv] at hb
      exact (Option.some.inj hb).symm
    exact ⟨bindings, by simp [heq], hw⟩

end Bindings

namespace Clause

def unify (part : Derivation) (bindings : Bindings) (clause : Clause) : Option Bindings :=
  match part with
  | .word leaf => unifyWord leaf.features bindings clause
  | .expansion _ _ _ features _ => unifyPhrase features bindings clause

def export? (clause : Clause) : Derivation → Option Export
  | .word leaf => (leaf.features.get clause.kind).map .value
  | .expansion _ _ _ features _ =>
    match clause.value with
    | .any => (features.get clause.kind).map .value
    | .literal value => some (.value value)
    | .variable index => some (.variable clause.kind index)

def exports (clause : Clause) (part : Derivation) : List Export :=
  if clause.exported then (clause.export? part).toList else []

theorem unifyWord_eq (features : Features) (bindings : Bindings) (clause : Clause) :
    unifyWord features bindings clause = (features.get clause.kind).bind fun actual =>
      (match clause.value with
        | .any => some bindings
        | .literal value => if actual = value then some bindings else none
        | .variable index => bindings.agree index actual).map
        fun (b : Bindings) => b.exporting clause (.value actual) := by
  unfold unifyWord
  cases features.get clause.kind with
  | none => rfl
  | some actual =>
    match clause.value with
    | .any => rfl
    | .literal value => by_cases h : actual = value <;> simp [h]
    | .variable index => cases h : bindings.agree index actual <;> simp [h]

theorem exportOf?_eq (clause : Clause) (part : Derivation) (bindings : Bindings) :
    clause.exportOf? bindings.get part = (clause.export? part).bind (·.value? bindings) := by
  have hmap : ∀ value? : Option Feature,
      value? = (value?.map Export.value).bind (·.value? bindings) := by
    intro value?
    cases value? <;> rfl
  cases part with
  | word leaf => exact hmap _
  | expansion name key stop features parts =>
    unfold exportOf? export?
    dsimp only
    match clause.value with
    | .any => exact hmap _
    | .literal value => rfl
    | .variable index => rfl

theorem Allows.mono {clause : Clause} {values values' : Assignment} {value : Feature}
    (h : clause.Allows values value)
    (hle : ∀ index value, values index = some value → values' index = some value) :
    clause.Allows values' value := by
  unfold Allows at h ⊢
  match hv : clause.value with
  | .any => trivial
  | .literal expected => simpa [hv] using h
  | .variable index => exact hle index value (by simpa [hv] using h)

theorem MetBy.mono {clause : Clause} {values values' : Assignment} {part : Derivation}
    (h : clause.MetBy values part)
    (hle : ∀ index value, values index = some value → values' index = some value) :
    clause.MetBy values' part := by
  cases part with
  | word leaf =>
    obtain ⟨value, hvalue, hallows⟩ := h
    exact ⟨value, hvalue, hallows.mono hle⟩
  | expansion name key stop features parts =>
    exact ⟨h.1, fun value hvalue => (h.2 value hvalue).mono hle⟩

/-- A variable that a clause fixes has a value under each assignment that meets the clause. -/
theorem MetBy.fixes {clause : Clause} {values : Assignment} {part : Derivation} {index : Nat}
    (h : clause.MetBy values part) (hb : clause.binds part index = true) :
    values index ≠ none := by
  simp only [binds, Bool.and_eq_true, decide_eq_true_eq, Option.isSome_iff_exists] at hb
  obtain ⟨hv, feature, hf⟩ := hb
  cases part with
  | word leaf =>
    obtain ⟨value, -, hallows⟩ := h
    simp only [Allows, hv] at hallows
    simp [hallows]
  | expansion name key stop features parts =>
    have hallows := h.2 feature hf
    simp only [Allows, hv] at hallows
    simp [hallows]

theorem MetBy.export? {clause : Clause} {values : Assignment} {part : Derivation}
    (h : clause.MetBy values part) : ∃ exported, clause.export? part = some exported := by
  cases part with
  | word leaf =>
    obtain ⟨value, hvalue, -⟩ := h
    exact ⟨.value value, by simp [Clause.export?, hvalue]⟩
  | expansion name key stop features parts =>
    unfold Clause.export?
    cases hv : clause.value with
    | any =>
      obtain ⟨value, hvalue⟩ := Option.ne_none_iff_exists'.mp (h.1 hv)
      exact ⟨.value value, by simp [hvalue]⟩
    | literal value => exact ⟨_, rfl⟩
    | «variable» index => exact ⟨_, rfl⟩

theorem mem_exports {clause : Clause} {part : Derivation} {exported : Export} :
    exported ∈ clause.exports part ↔
      clause.exported = true ∧ clause.export? part = some exported := by
  unfold exports
  split
  next h => simp [h]
  next h => simp [h]

end Clause

structure Unified (clauses : List Clause) (part : Derivation) (bindings b : Bindings) : Prop where
  length : b.values.length = bindings.values.length
  within : bindings.Within b.get
  met : ∀ clause ∈ clauses, clause.MetBy b.get part
  bound : ∀ index, b.get index ≠ none →
    bindings.get index ≠ none ∨ ∃ clause ∈ clauses, clause.binds part index = true
  exports : b.exports = bindings.exports ++ clauses.flatMap (·.exports part)

namespace Unified

variable {clauses clauses' : List Clause} {part : Derivation} {bindings b b' : Bindings}

theorem nil : Unified [] part bindings bindings :=
  ⟨rfl, .refl _, by simp, fun _ h => .inl h, by simp⟩

theorem append (h : Unified clauses part bindings b) (h' : Unified clauses' part b b') :
    Unified (clauses ++ clauses') part bindings b' where
  length := h'.length.trans h.length
  within := h.within.trans h'.within
  met clause hc := by
    rcases List.mem_append.mp hc with hc | hc
    · exact (h.met clause hc).mono h'.within
    · exact h'.met clause hc
  bound index hne := by
    rcases h'.bound index hne with hb | ⟨clause, hc, hb⟩
    · rcases h.bound index hb with hb | ⟨clause, hc, hb⟩
      · exact .inl hb
      · exact .inr ⟨clause, List.mem_append_left _ hc, hb⟩
    · exact .inr ⟨clause, List.mem_append_right _ hc, hb⟩
  exports := by rw [h'.exports, h.exports, List.flatMap_append, List.append_assoc]

/-- A clause that fixes no variable only exports. -/
theorem exporting {clause : Clause} {exported : Export} (hmet : clause.MetBy bindings.get part)
    (he : clause.export? part = some exported) :
    Unified [clause] part bindings (bindings.exporting clause exported) := by
  have hget := bindings.get_exporting clause exported
  refine ⟨?_, ?_, ?_, ?_, ?_⟩
  · unfold Bindings.exporting
    split <;> rfl
  · rw [hget]
    exact .refl _
  · simpa [hget] using hmet
  · exact fun index hne => .inl (hget ▸ hne)
  · unfold Bindings.exporting Clause.exports
    split
    next h => simp [h, he]
    next h => simp [h]

theorem agree {clause : Clause} {index : Nat} {feature : Feature}
    (hv : clause.value = .variable index) (hf : part.features.get clause.kind = some feature)
    (hi : index < bindings.values.length) (h : bindings.agree index feature = some b)
    {exported : Export} (he : clause.export? part = some exported) :
    Unified [clause] part bindings (b.exporting clause exported) := by
  obtain ⟨hlength, hexports, hwithin, hget, hbound⟩ := Bindings.agree_sound h hi
  have hmet : clause.MetBy b.get part := by
    have hallows : clause.Allows b.get feature := by simp [Clause.Allows, hv, hget]
    cases part with
    | word leaf => exact ⟨feature, hf, hallows⟩
    | expansion name key stop features parts =>
      refine ⟨fun hany => by simp [hv] at hany, fun value hvalue => ?_⟩
      rw [show features.get clause.kind = some feature from hf] at hvalue
      cases hvalue
      exact hallows
  have hexporting := Unified.exporting hmet he
  refine ⟨hexporting.length.trans hlength, hwithin.trans hexporting.within, hexporting.met, ?_, ?_⟩
  · intro i hne
    rw [Bindings.get_exporting] at hne
    rcases hbound i hne with hb | rfl
    · exact .inl hb
    · exact .inr ⟨clause, List.mem_singleton.mpr rfl, by simp [Clause.binds, hv, hf]⟩
  · rw [hexporting.exports, hexports]

end Unified

namespace Clause

variable {clause : Clause} {part : Derivation} {bindings b : Bindings} {values : Assignment}

theorem unifyWord_sound {leaf : Leaf} (h : unifyWord leaf.features bindings clause = some b)
    (hs : ∀ index, clause.value = .variable index → index < bindings.values.length) :
    Unified [clause] (.word leaf) bindings b := by
  rw [unifyWord_eq] at h
  obtain ⟨actual, hactual, h⟩ := Option.bind_eq_some_iff.mp h
  obtain ⟨middle, hmiddle, rfl⟩ := Option.map_eq_some_iff.mp h
  have he : clause.export? (.word leaf) = some (.value actual) := by simp [export?, hactual]
  cases hv : clause.value with
  | any =>
    simp only [hv, Option.some.injEq] at hmiddle
    subst hmiddle
    have hmet : clause.MetBy bindings.get (.word leaf) :=
      ⟨actual, hactual, by simp [Allows, hv]⟩
    exact .exporting hmet he
  | literal value =>
    simp only [hv, Option.ite_none_right_eq_some, Option.some.injEq] at hmiddle
    obtain ⟨heq, rfl⟩ := hmiddle
    have hmet : clause.MetBy bindings.get (.word leaf) :=
      ⟨actual, hactual, by simp [Allows, hv, heq]⟩
    exact .exporting hmet he
  | «variable» index =>
    simp only [hv] at hmiddle
    refine .agree hv ?_ (hs index hv) hmiddle he
    exact hactual

theorem unifyPhrase_sound {name : Text} {key : Key} {stop : Nat} {features : Features}
    {parts : List Derivation} (h : unifyPhrase features bindings clause = some b)
    (hs : ∀ index, clause.value = .variable index → index < bindings.values.length) :
    Unified [clause] (.expansion name key stop features parts) bindings b := by
  simp only [unifyPhrase] at h
  cases hv : clause.value with
  | any =>
    cases hf : features.get clause.kind with
    | none => simp [hv, hf] at h
    | some actual =>
      simp only [hv, hf, Option.some.injEq] at h
      subst h
      refine .exporting ⟨fun _ => by simp [hf], fun value _ => ?_⟩ ?_
      · simp [Allows, hv]
      · simp [export?, hv, hf]
  | literal value =>
    cases hf : features.get clause.kind with
    | none =>
      simp only [hv, hf, Option.some.injEq] at h
      subst h
      refine .exporting ⟨fun hany => by simp [hv] at hany, fun value hvalue => ?_⟩ ?_
      · simp [hf] at hvalue
      · simp [export?, hv]
    | some actual =>
      simp only [hv, hf, Option.ite_none_right_eq_some, Option.some.injEq] at h
      obtain ⟨heq, rfl⟩ := h
      refine .exporting ⟨fun hany => by simp [hv] at hany, fun value' hvalue => ?_⟩ ?_
      · rw [hf, heq] at hvalue
        cases hvalue
        simp [Allows, hv]
      · simp [export?, hv]
  | «variable» index =>
    cases hf : features.get clause.kind with
    | none =>
      simp only [hv, hf, Option.some.injEq] at h
      subst h
      refine .exporting ⟨fun hany => by simp [hv] at hany, fun value hvalue => ?_⟩ ?_
      · simp [hf] at hvalue
      · simp [export?, hv]
    | some actual =>
      simp only [hv, hf] at h
      obtain ⟨middle, hmiddle, rfl⟩ := Option.map_eq_some_iff.mp h
      refine .agree hv ?_ (hs index hv) hmiddle (by simp [export?, hv])
      exact hf

theorem unify_sound (h : clause.unify part bindings = some b)
    (hs : ∀ index, clause.value = .variable index → index < bindings.values.length) :
    Unified [clause] part bindings b := by
  cases part with
  | word leaf => exact unifyWord_sound h hs
  | expansion name key stop features parts => exact unifyPhrase_sound h hs

theorem unify_complete (hw : bindings.Within values) (hmet : clause.MetBy values part)
    (hs : ∀ index, clause.value = .variable index → index < bindings.values.length) :
    ∃ b, clause.unify part bindings = some b ∧ b.Within values := by
  cases part with
  | word leaf =>
    obtain ⟨actual, hactual, hallows⟩ := hmet
    cases hv : clause.value with
    | any => exact ⟨_, by simp [unify, unifyWord_eq, hactual, hv]; rfl, hw.exporting⟩
    | literal value =>
      simp only [Allows, hv] at hallows
      exact ⟨_, by simp [unify, unifyWord_eq, hactual, hv, hallows]; rfl, hw.exporting⟩
    | «variable» index =>
      simp only [Allows, hv] at hallows
      obtain ⟨b, hb, hwb⟩ := Bindings.agree_complete hw hallows (hs index hv)
      exact ⟨_, by simp [unify, unifyWord_eq, hactual, hv, hb]; rfl, hwb.exporting⟩
  | expansion name key stop features parts =>
    obtain ⟨hany, hallows⟩ := hmet
    cases hv : clause.value with
    | any =>
      cases hf : features.get clause.kind with
      | none => exact absurd hf (hany hv)
      | some actual =>
        exact ⟨_, by simp [unify, unifyPhrase, hv, hf]; rfl, hw.exporting⟩
    | literal value =>
      cases hf : features.get clause.kind with
      | none =>
        exact ⟨_, by simp [unify, unifyPhrase, hv, hf]; rfl, hw.exporting⟩
      | some actual =>
        have heq := hallows actual hf
        simp only [Allows, hv] at heq
        exact ⟨_, by simp [unify, unifyPhrase, hv, hf, heq]; rfl, hw.exporting⟩
    | «variable» index =>
      cases hf : features.get clause.kind with
      | none =>
        exact ⟨_, by simp [unify, unifyPhrase, hv, hf]; rfl, hw.exporting⟩
      | some actual =>
        have hvalue := hallows actual hf
        simp only [Allows, hv] at hvalue
        obtain ⟨b, hb, hwb⟩ := Bindings.agree_complete hw hvalue (hs index hv)
        exact ⟨_, by simp [unify, unifyPhrase, hv, hf, hb]; rfl, hwb.exporting⟩

def ScopedAll (clauses : List Clause) (bindings : Bindings) : Prop :=
  ∀ clause ∈ clauses, ∀ index, clause.value = .variable index → index < bindings.values.length

theorem unifyAll_sound {clauses : List Clause}
    (h : clauses.foldlM (unify part) bindings = some b) (hs : ScopedAll clauses bindings) :
    Unified clauses part bindings b := by
  induction clauses generalizing bindings with
  | nil =>
    cases h
    exact .nil
  | cons clause clauses ih =>
    rw [List.foldlM_cons] at h
    obtain ⟨middle, hmiddle, h⟩ := Option.bind_eq_some_iff.mp h
    have hone := unify_sound hmiddle (hs clause List.mem_cons_self)
    refine hone.append (ih h fun c hc index hv => ?_)
    rw [hone.length]
    exact hs c (List.mem_cons_of_mem _ hc) index hv

theorem unifyAll_complete {clauses : List Clause} (hw : bindings.Within values)
    (hmet : ∀ clause ∈ clauses, clause.MetBy values part) (hs : ScopedAll clauses bindings) :
    ∃ b, clauses.foldlM (unify part) bindings = some b ∧ b.Within values := by
  induction clauses generalizing bindings with
  | nil => exact ⟨bindings, rfl, hw⟩
  | cons clause clauses ih =>
    have hfirst := hs clause List.mem_cons_self
    obtain ⟨middle, hmiddle, hwm⟩ := unify_complete hw (hmet clause List.mem_cons_self) hfirst
    have hlength := (unify_sound hmiddle hfirst).length
    obtain ⟨b, hb, hwb⟩ := ih hwm (fun c hc => hmet c (List.mem_cons_of_mem _ hc))
      fun c hc index hv => hlength ▸ hs c (List.mem_cons_of_mem _ hc) index hv
    exact ⟨b, by simp [List.foldlM_cons, hmiddle, hb], hwb⟩

end Clause

namespace Features

theorem get_ext {f g : Features} (h : ∀ kind, f.get kind = g.get kind) : f = g := by
  obtain ⟨pos, number, gramCase⟩ := f
  obtain ⟨pos', number', gramCase'⟩ := g
  have hpos := h .pos
  have hnumber := h .number
  have hcase := h .gramCase
  have hinj : ∀ {α : Type} {c : α → Feature}, Function.Injective c → ∀ {a b : Option α},
      a.map c = b.map c → a = b := fun hc _ _ heq => Option.map_injective hc heq
  simp only [get] at hpos hnumber hcase
  rw [hinj (fun _ _ h => by cases h; rfl) hpos, hinj (fun _ _ h => by cases h; rfl) hnumber,
    hinj (fun _ _ h => by cases h; rfl) hcase]

theorem get_add? {f g : Features} {feature : Feature} (h : f.add? feature = some g)
    (kind : Attribute) :
    g.get kind = if kind = feature.kind then some feature else f.get kind := by
  unfold add? at h
  split at h
  next hnone =>
    cases h
    split
    next heq => rw [heq, get_set_self]
    next hne => exact get_set_of_ne f hne
  next existing hexisting =>
    split at h
    next heq =>
      cases h
      split
      next hkind => rw [hkind, hexisting, heq]
      next => rfl
    next => cases h

end Features

namespace Bindings

variable {bindings : Bindings}

/-- Some exports are resolved by features: each has a value, and the features have that value. -/
def Resolves (bindings : Bindings) (features : Features) (exports : List Export) : Prop :=
  ∀ exported ∈ exports, ∃ value, exported.value? bindings = some value ∧
    features.get value.kind = some value

def resolve (bindings : Bindings) (features : Features) (exported : Export) : Option Features := do
  features.add? (← exported.value? bindings)

theorem resolveAll_sound {exports : List Export} {f g : Features}
    (h : exports.foldlM bindings.resolve f = some g) :
    (∀ kind value, f.get kind = some value → g.get kind = some value) ∧
      bindings.Resolves g exports ∧
      ∀ kind value, g.get kind = some value → f.get kind = some value ∨
        ∃ exported ∈ exports, exported.value? bindings = some value := by
  induction exports generalizing f with
  | nil =>
    cases h
    exact ⟨fun _ _ h => h, by simp [Resolves], fun _ _ h => .inl h⟩
  | cons exported exports ih =>
    rw [List.foldlM_cons] at h
    obtain ⟨middle, hmiddle, h⟩ := Option.bind_eq_some_iff.mp h
    obtain ⟨feature, hfeature, hadd⟩ := Option.bind_eq_some_iff.mp hmiddle
    obtain ⟨hkept, hresolves, honly⟩ := ih h
    have hget := Features.get_add? hadd
    refine ⟨fun kind value hv => hkept kind value ?_, ?_, fun kind value hv => ?_⟩
    · rw [hget]
      split
      next heq =>
        unfold Features.add? at hadd
        rw [← heq, hv] at hadd
        simp only [Option.ite_none_right_eq_some] at hadd
        rw [hadd.1]
      next => exact hv
    · refine List.forall_mem_cons.mpr ⟨⟨feature, hfeature, hkept _ _ ?_⟩, hresolves⟩
      rw [hget, if_pos rfl]
    · rcases honly kind value hv with hm | ⟨e, he, hvalue⟩
      · rw [hget] at hm
        split at hm
        next =>
          cases hm
          exact .inr ⟨exported, List.mem_cons_self, hfeature⟩
        next => exact .inl hm
      · exact .inr ⟨e, List.mem_cons_of_mem _ he, hvalue⟩

theorem resolveAll_complete {exports : List Export} {f features : Features}
    (hf : ∀ kind value, f.get kind = some value → features.get kind = some value)
    (h : bindings.Resolves features exports) :
    ∃ g, exports.foldlM bindings.resolve f = some g ∧
      ∀ kind value, g.get kind = some value → features.get kind = some value := by
  induction exports generalizing f with
  | nil => exact ⟨f, rfl, hf⟩
  | cons exported exports ih =>
    obtain ⟨⟨feature, hfeature, hget⟩, hrest⟩ := List.forall_mem_cons.mp h
    obtain ⟨middle, hadd⟩ : ∃ middle, f.add? feature = some middle := by
      unfold Features.add?
      cases hold : f.get feature.kind with
      | none => exact ⟨_, rfl⟩
      | some existing =>
        have heq := hf _ _ hold
        rw [hget] at heq
        cases heq
        exact ⟨f, by simp⟩
    have hmiddle : ∀ kind value, middle.get kind = some value →
        features.get kind = some value := by
      intro kind value hv
      rw [Features.get_add? hadd] at hv
      split at hv
      next heq =>
        cases hv
        rw [heq, hget]
      next => exact hf kind value hv
    obtain ⟨g, hg, hle⟩ := ih hmiddle hrest
    exact ⟨g, by simp [List.foldlM_cons, resolve, hfeature, hadd, hg], hle⟩

/-- The features of finished bindings are the values of their exports, and nothing else. -/
theorem features?_eq_some {features : Features} :
    bindings.features? = some features ↔ bindings.Resolves features bindings.exports ∧
      ∀ value, features.get value.kind = some value →
        ∃ exported ∈ bindings.exports, exported.value? bindings = some value := by
  have hempty : ∀ kind, Features.empty.get kind = none := fun kind => by cases kind <;> rfl
  constructor
  · intro h
    have hfold : bindings.exports.foldlM bindings.resolve .empty = some features := h
    obtain ⟨-, hresolves, honly⟩ := resolveAll_sound hfold
    refine ⟨hresolves, fun value hv => (honly _ value hv).resolve_left ?_⟩
    simp [hempty]
  · rintro ⟨hresolves, honly⟩
    obtain ⟨g, hg, hle⟩ := resolveAll_complete (f := .empty) (by simp [hempty]) hresolves
    obtain ⟨-, hresolves', -⟩ := resolveAll_sound hg
    have heq : g = features := by
      refine Features.get_ext fun kind => ?_
      cases hv : features.get kind with
      | none =>
        cases hv' : g.get kind with
        | none => rfl
        | some value => rw [hle kind value hv'] at hv; cases hv
      | some value =>
        have hkind := Features.kind_of_get hv
        obtain ⟨exported, he, hvalue⟩ := honly value (hkind ▸ hv)
        obtain ⟨value', hvalue', hget⟩ := hresolves' exported he
        rw [hvalue] at hvalue'
        cases hvalue'
        rwa [hkind] at hget
    rw [← heq]
    exact hg

end Bindings

end Concord
