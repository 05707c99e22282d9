import Concord.Proofs.Written

namespace Concord

section cuts

variable {c : Char} {text left right : Text}

theorem splitAtFirst_append (h : c ∉ left) (right : Text) :
    splitAtFirst c (left ++ c :: right) = some (left, right) := by
  induction left with
  | nil => rw [List.nil_append, splitAtFirst, if_pos rfl]
  | cons a left ih =>
    rw [List.mem_cons, not_or] at h
    rw [List.cons_append, splitAtFirst, if_neg (Ne.symm h.1), ih h.2]
    rfl

theorem splitAtFirst_eq_some (h : splitAtFirst c text = some (left, right)) :
    text = left ++ c :: right := by
  induction text generalizing left with
  | nil => cases h
  | cons a text ih =>
    rw [splitAtFirst] at h
    split at h
    next ha =>
      cases h
      rw [ha, List.nil_append]
    next =>
      obtain ⟨⟨left', right'⟩, hcut, heq⟩ := Option.map_eq_some_iff.mp h
      cases heq
      rw [ih hcut, List.cons_append]

theorem splitAtFirst_of_notMem (h : c ∉ text) : splitAtFirst c text = none := by
  rw [Option.eq_none_iff_forall_ne_some]
  rintro ⟨left, right⟩ hcut
  rw [splitAtFirst_eq_some hcut] at h
  exact h (List.mem_append_right _ List.mem_cons_self)

theorem append_cons_inj {left' right' : Text} (hleft : c ∉ left)
    (hleft' : c ∉ left') (h : left ++ c :: right = left' ++ c :: right') :
    left = left' ∧ right = right' := by
  have hcut := congrArg (splitAtFirst c) h
  rw [splitAtFirst_append hleft, splitAtFirst_append hleft'] at hcut
  cases hcut
  exact ⟨rfl, rfl⟩

end cuts

section names

variable {kind : Attribute} {text : Text} {value : Feature}

theorem Attribute.ofName?_eq_some :
    Attribute.ofName? text = some kind ↔ text = kind.name.toList := by
  constructor
  · intro h
    rw [ofName?] at h
    have htext := List.find?_some h
    exact (beq_iff_eq.mp htext).symm
  · rintro rfl
    cases kind <;> rfl

theorem Attribute.ofName?_eq_none :
    Attribute.ofName? text = none ↔ ∀ kind : Attribute, text ≠ kind.name.toList := by
  rw [Option.eq_none_iff_forall_ne_some]
  exact forall_congr' fun kind => not_congr Attribute.ofName?_eq_some

theorem Tagset.tag_of_ofTag? {α : Type} [DecidableEq α] [Tagset α] {v : α}
    (h : Tagset.ofTag? text = some v) : text = (Tagset.tag v).toList := by
  rw [ofTag?] at h
  have htext := List.find?_some h
  exact (beq_iff_eq.mp htext).symm

theorem Feature.ofAttributeTag?_eq_some :
    Feature.ofAttributeTag? kind text = some value ↔
      value.kind = kind ∧ text = value.tag.toList := by
  constructor
  · intro h
    cases kind <;>
      (obtain ⟨v, hv, rfl⟩ := Option.map_eq_some_iff.mp h
       exact ⟨rfl, Tagset.tag_of_ofTag? hv⟩)
  · rintro ⟨rfl, rfl⟩
    rcases value with v | v | v <;> cases v <;> rfl

/-- No tag begins like a variable. -/
theorem Feature.tag_ne_cons (value : Feature) (digits : Text) :
    value.tag.toList ≠ '@' :: digits := by
  intro h
  have hhead : value.tag.toList.head? ≠ some '@' := by
    rcases value with v | v | v <;> cases v <;> decide
  rw [h] at hhead
  exact hhead rfl

theorem Attribute.equals_notMem_name (kind : Attribute) : '=' ∉ kind.name.toList := by
  cases kind <;> decide

theorem Attribute.name_ne_nil (kind : Attribute) : kind.name.toList ≠ [] := by
  cases kind <;> decide

theorem Attribute.name_ne_cons (kind : Attribute) (rest : Text) :
    kind.name.toList ≠ '!' :: rest := by
  intro h
  have hhead : kind.name.toList.head? ≠ some '!' := by cases kind <;> decide
  rw [h] at hhead
  exact hhead rfl

end names

/-- What is read where `numbers` are written after other ones: the meaning with the places that the
numbers have by then, and the different numbers. -/
def readAfter {α : Type _} (before numbers : List Nat) (meaning : (Nat → Nat) → α) : α × List Nat :=
  (meaning (variableIndex (before ++ numbers)), (before ++ numbers).eraseDups)

theorem place_eraseDups (before : List Nat) (n : Nat) : place before.eraseDups n =
    (variableIndex (before ++ [n]) n, (before ++ [n]).eraseDups) := by
  unfold place
  by_cases h : n ∈ before
  · rw [if_pos (List.mem_eraseDups.mpr h), variableIndex_append h, eraseDups_concat, if_pos h,
      variableIndex]
  · rw [if_neg (mt List.mem_eraseDups.mp h), variableIndex_concat h, eraseDups_concat, if_neg h]

theorem variableNumber?_eq_some {digits : Text} {n : Nat} :
    variableNumber? digits = some n ↔ ∃ number : Numeral, number.digits = digits ∧
      number.value = n := by
  unfold variableNumber?
  constructor
  · intro h
    split at h
    next hvalid =>
      obtain ⟨-, hdigits, hpos, hlt⟩ := hvalid
      cases h
      exact ⟨⟨digits, List.all_eq_true.mp hdigits, hpos, hlt⟩, rfl, rfl⟩
    next => cases h
  · rintro ⟨⟨digits, hdigits, hpos, hlt⟩, rfl, rfl⟩
    have hne : digits ≠ [] := by
      rintro rfl
      cases hpos
    exact if_pos ⟨hne, List.all_eq_true.mpr hdigits, hpos, hlt⟩

section clauses

variable {seen seen' : List Nat} {token : Text} {clause : Clause}

theorem compileValue_tag (seen : List Nat) (value : Feature) :
    compileValue seen value.kind value.tag.toList = .ok (.literal value, seen) := by
  have hvalue : Feature.ofAttributeTag? value.kind value.tag.toList = some value :=
    Feature.ofAttributeTag?_eq_some.mpr ⟨rfl, rfl⟩
  unfold compileValue
  split
  next digits heq => exact absurd heq (value.tag_ne_cons digits)
  next => rw [hvalue]

theorem compileValue_numbered (before : List Nat) (kind : Attribute) (number : Numeral) :
    compileValue before.eraseDups kind ('@' :: number.digits) =
      .ok (readAfter before [number.value] fun index => .variable (index number.value)) := by
  have hnumber : variableNumber? number.digits = some number.value :=
    variableNumber?_eq_some.mpr ⟨number, rfl, rfl⟩
  rw [compileValue.eq_1, hnumber]
  dsimp only
  rw [place_eraseDups]
  rfl

theorem compileBody_text (before : List Nat) (exported : Bool) (demand : WrittenDemand) :
    compileBody before.eraseDups exported demand.text =
      .ok (readAfter before demand.numbers fun index =>
        ⟨demand.kind, demand.meaning index, exported⟩) := by
  have hname : ∀ kind : Attribute, Attribute.ofName? kind.name.toList = some kind := fun kind =>
    Attribute.ofName?_eq_some.mpr rfl
  unfold compileBody
  cases demand with
  | any kind =>
    rw [WrittenDemand.text, splitAtFirst_of_notMem kind.equals_notMem_name, readAfter,
      WrittenDemand.numbers, List.append_nil]
    dsimp only
    rw [hname]
    rfl
  | tag value =>
    rw [WrittenDemand.text, splitAtFirst_append value.kind.equals_notMem_name, readAfter,
      WrittenDemand.numbers, List.append_nil]
    dsimp only
    rw [hname]
    dsimp only
    rw [compileValue_tag]
    rfl
  | numbered kind number =>
    rw [WrittenDemand.text, splitAtFirst_append kind.equals_notMem_name]
    dsimp only
    rw [hname]
    dsimp only
    rw [compileValue_numbered]
    rfl

theorem exists_of_compileBody {exported : Bool}
    (h : compileBody seen exported token = .ok (clause, seen')) :
    ∃ demand : WrittenDemand, demand.text = token := by
  unfold compileBody at h
  split at h
  next name value? hcut =>
    split at h
    next => cases h
    next kind hkind =>
      obtain rfl := Attribute.ofName?_eq_some.mp hkind
      split at hcut
      next name' value hsplit =>
        cases hcut
        obtain ⟨⟨demand, seen₁⟩, hvalue, -⟩ := exists_ok_of_map h
        rw [splitAtFirst_eq_some hsplit]
        unfold compileValue at hvalue
        split at hvalue
        next digits =>
          split at hvalue
          next n hn =>
            obtain ⟨number, rfl, -⟩ := variableNumber?_eq_some.mp hn
            exact ⟨.numbered kind number, rfl⟩
          next => cases hvalue
        next tag _ =>
          split at hvalue
          next feature hfeature =>
            obtain ⟨rfl, rfl⟩ := Feature.ofAttributeTag?_eq_some.mp hfeature
            exact ⟨.tag feature, rfl⟩
          next => cases hvalue
      next hsplit =>
        cases hcut
        exact ⟨.any kind, rfl⟩

/-- What is written of a demand begins with the name of its attribute. -/
theorem WrittenDemand.exists_text_eq (demand : WrittenDemand) :
    ∃ later, demand.text = demand.kind.name.toList ++ later := by
  cases demand with
  | any kind => exact ⟨[], (List.append_nil _).symm⟩
  | _ => exact ⟨_, rfl⟩

theorem WrittenDemand.text_ne_cons (demand : WrittenDemand) (rest : Text) :
    demand.text ≠ '!' :: rest := by
  obtain ⟨later, hlater⟩ := demand.exists_text_eq
  intro h
  rw [hlater] at h
  rcases List.append_eq_cons_iff.mp h with ⟨hname, -⟩ | ⟨front, hname, -⟩
  · exact demand.kind.name_ne_nil hname
  · exact demand.kind.name_ne_cons front hname

theorem compileClause_text (before : List Nat) (clause : WrittenClause) :
    compileClause before.eraseDups clause.text =
      .ok (readAfter before clause.numbers clause.meaning) := by
  obtain ⟨exported, demand⟩ := clause
  cases exported with
  | true => exact compileBody_text before true demand
  | false =>
    have hbody : compileClause before.eraseDups demand.text =
        compileBody before.eraseDups false demand.text := by
      unfold compileClause
      split
      next body heq => exact absurd heq (demand.text_ne_cons body)
      next => rfl
    exact hbody.trans (compileBody_text before false demand)

theorem exists_of_compileClause (h : compileClause seen token = .ok (clause, seen')) :
    ∃ written : WrittenClause, written.text = token := by
  unfold compileClause at h
  split at h
  · obtain ⟨demand, rfl⟩ := exists_of_compileBody h
    exact ⟨⟨true, demand⟩, rfl⟩
  · obtain ⟨demand, rfl⟩ := exists_of_compileBody h
    exact ⟨⟨false, demand⟩, rfl⟩

theorem compileClauses_text (before : List Nat) (clauses : List WrittenClause) :
    compileClauses before.eraseDups (clauses.map WrittenClause.text) =
      .ok (readAfter before (clauses.flatMap (·.numbers)) fun index =>
        clauses.map (·.meaning index)) := by
  induction clauses generalizing before with
  | nil =>
    rw [readAfter, List.flatMap_nil, List.append_nil]
    rfl
  | cons clause clauses ih =>
    -- The variables of the first clause keep their places when more are written after it.
    have hstay : clause.meaning (variableIndex (before ++ clause.numbers)) =
        clause.meaning (variableIndex
          (before ++ clause.numbers ++ clauses.flatMap (·.numbers))) :=
      WrittenClause.meaning_congr fun n hn =>
        (variableIndex_append (List.mem_append_right _ hn) _).symm
    rw [List.map_cons, compileClauses.eq_2, compileClause_text before clause]
    dsimp only [bind, Except.bind, readAfter]
    rw [ih (before ++ clause.numbers), hstay, List.flatMap_cons, List.map_cons,
      ← List.append_assoc]
    rfl

theorem exists_of_compileClauses {tokens : List Text} {clauses : List Clause}
    (h : compileClauses seen tokens = .ok (clauses, seen')) :
    ∃ written : List WrittenClause, written.map WrittenClause.text = tokens := by
  induction tokens generalizing seen seen' clauses with
  | nil => exact ⟨[], rfl⟩
  | cons token tokens ih =>
    rw [compileClauses.eq_2] at h
    obtain ⟨⟨clause, seen₁⟩, hclause, h⟩ := exists_ok_of_bind h
    obtain ⟨⟨clauses', seen₂⟩, hclauses, -⟩ := exists_ok_of_bind h
    obtain ⟨first, rfl⟩ := exists_of_compileClause hclause
    obtain ⟨written, rfl⟩ := ih hclauses
    exact ⟨first :: written, rfl⟩

end clauses

section terms

variable {seen seen' : List Nat} {body : Text}

/-- A clause is told from a symbol by its exclamation mark, its equals sign or its name. -/
theorem WrittenClause.not_isSymbolToken (clause : WrittenClause) :
    isSymbolToken clause.text = false := by
  obtain ⟨exported, demand⟩ := clause
  cases exported with
  | true => rfl
  | false =>
    have hequals : ∀ {front later : Text}, (front ++ '=' :: later).contains '=' = true :=
      List.contains_iff_mem.mpr (List.mem_append_right _ List.mem_cons_self)
    rw [isSymbolToken, WrittenClause.text, if_neg Bool.false_ne_true, List.nil_append]
    cases demand with
    | any kind => cases kind <;> rfl
    | tag value => rw [WrittenDemand.text, hequals, Bool.not_true, Bool.and_false, Bool.false_and]
    | numbered kind number =>
      rw [WrittenDemand.text, hequals, Bool.not_true, Bool.and_false, Bool.false_and]

theorem isSymbolToken_of_isSymbol {token : Text} (hsymbol : isSymbol token = true)
    (hname : ∀ kind : Attribute, token ≠ kind.name.toList) : isSymbolToken token = true := by
  have hletters := List.all_eq_true.mp hsymbol
  have hmark : token.head? ≠ some '!' := fun h =>
    absurd (hletters '!' (List.mem_of_mem_head? h)) (by decide +kernel)
  have hequals : '=' ∉ token := fun h => absurd (hletters '=' h) (by decide +kernel)
  rw [isSymbolToken, Attribute.ofName?_eq_none.mpr hname, bne_iff_ne.mpr hmark]
  simp [hequals]

theorem compileTerm_body (before : List Nat) (term : WrittenTerm) :
    compileTerm before.eraseDups term.body =
      .ok (readAfter before term.numbers term.meaning) := by
  obtain ⟨name, clauses, body, hunbraced, htokens, hfilled, hsymbol⟩ := term
  unfold compileTerm
  dsimp only
  rw [htokens] at hfilled ⊢
  cases name with
  | some token =>
    obtain ⟨hletters, hname⟩ := hsymbol token rfl
    rw [Option.toList_some, List.singleton_append]
    dsimp only
    rw [if_pos (isSymbolToken_of_isSymbol hletters hname), if_pos hletters, compileClauses_text]
    rfl
  | none =>
    rw [Option.toList_none, List.nil_append] at hfilled ⊢
    obtain ⟨clause, clauses, rfl⟩ := List.exists_cons_of_ne_nil (mt (congrArg _) hfilled)
    rw [List.map_cons]
    dsimp only
    rw [if_neg (by rw [clause.not_isSymbolToken]; decide), ← List.map_cons, compileClauses_text]
    rfl

theorem exists_of_compileTerm {term : Term} (hunbraced : Unbraced body)
    (h : compileTerm seen body = .ok (term, seen')) :
    ∃ written : WrittenTerm, written.body = body := by
  unfold compileTerm at h
  split at h
  next => cases h
  next first tokens hfields =>
    have hfilled : fields isBlank body ≠ [] := by simp [hfields]
    split at h
    next htoken =>
      split at h
      next hsymbol =>
        obtain ⟨⟨clauses, seen₁⟩, hclauses, -⟩ := exists_ok_of_map h
        obtain ⟨written, rfl⟩ := exists_of_compileClauses hclauses
        have hname : Attribute.ofName? first = none := by
          rw [isSymbolToken, Bool.and_eq_true] at htoken
          exact Option.isNone_iff_eq_none.mp htoken.2
        refine ⟨⟨some first, written, body, hunbraced, hfields, hfilled, ?_⟩, rfl⟩
        rintro token ⟨⟩
        exact ⟨hsymbol, Attribute.ofName?_eq_none.mp hname⟩
      next => cases h
    next =>
      obtain ⟨⟨clauses, seen₁⟩, hclauses, -⟩ := exists_ok_of_map h
      obtain ⟨written, hwritten⟩ := exists_of_compileClauses hclauses
      rw [← hwritten] at hfields
      exact ⟨⟨none, written, body, hunbraced, hfields, hfilled, nofun⟩, rfl⟩

theorem compileGuard_body (before : List Nat) (guard : WrittenGuard) :
    compileGuard before.eraseDups guard.body = .ok (guard.value, before.eraseDups) := by
  obtain ⟨value, body, hunbraced, htokens⟩ := guard
  unfold compileGuard
  dsimp only
  rw [htokens]
  dsimp only
  rw [compileClause_text, readAfter, WrittenClause.numbers, WrittenDemand.numbers, List.append_nil]
  rfl

theorem exists_of_compileGuard {before : List Nat} {value : Feature} (hunbraced : Unbraced body)
    (h : compileGuard before.eraseDups body = .ok (value, seen')) :
    ∃ written : WrittenGuard, written.body = body := by
  unfold compileGuard at h
  split at h
  next token hfields =>
    obtain ⟨⟨clause, seen₁⟩, hclause, h⟩ := exists_ok_of_bind h
    obtain ⟨⟨exported, demand⟩, rfl⟩ := exists_of_compileClause hclause
    rw [compileClause_text] at hclause
    cases hclause
    cases exported with
    | true => cases demand <;> cases h
    | false =>
      cases demand with
      | any kind => cases h
      | tag value' => exact ⟨⟨value', body, hunbraced, hfields⟩, rfl⟩
      | numbered kind number => cases h
  next => cases h

end terms

section segments

variable {within : Within} {piece chunk text rest : Text}

def Within.segment : Within → Text → Segment
  | .literal => .literal
  | .guard => .guard
  | .term => .term

/-- Terms with chunks after them, as segments. -/
def partsSegments (parts : List (WrittenTerm × Text)) : List Segment :=
  parts.flatMap fun (term, chunk) => [.term term.body, .literal chunk]

theorem segmentsFrom_append (h : Unbraced chunk) (rest : Text) :
    segmentsFrom within piece (chunk ++ rest) =
      segmentsFrom within (chunk.reverse ++ piece) rest := by
  induction chunk generalizing piece with
  | nil => rfl
  | cons c chunk ih =>
    obtain ⟨hopen, hclose⟩ := h
    rw [List.mem_cons, not_or] at hopen hclose
    have hstep : segmentsFrom within piece (c :: (chunk ++ rest)) =
        segmentsFrom within (c :: piece) (chunk ++ rest) := by
      cases within <;>
        rw [segmentsFrom, if_neg (Ne.symm hclose.1), if_neg (Ne.symm hopen.1)]
    rw [List.cons_append, hstep, ih ⟨hopen.2, hclose.2⟩, List.reverse_cons, List.append_assoc,
      List.singleton_append]

/-- The first brace of a text, if there is one. -/
theorem unbraced_or_exists_brace (text : Text) : Unbraced text ∨
    ∃ chunk brace rest, text = chunk ++ brace :: rest ∧ Unbraced chunk ∧
      (brace = '{' ∨ brace = '}') := by
  induction text with
  | nil => exact .inl ⟨List.not_mem_nil, List.not_mem_nil⟩
  | cons c text ih =>
    by_cases hc : c = '{' ∨ c = '}'
    · exact .inr ⟨[], c, text, rfl, ⟨List.not_mem_nil, List.not_mem_nil⟩, hc⟩
    · rw [not_or] at hc
      have hcons : ∀ {chunk}, Unbraced chunk → Unbraced (c :: chunk) := fun h =>
        ⟨List.not_mem_cons_of_ne_of_not_mem (Ne.symm hc.1) h.1,
          List.not_mem_cons_of_ne_of_not_mem (Ne.symm hc.2) h.2⟩
      rcases ih with h | ⟨chunk, brace, rest, rfl, h, hbrace⟩
      · exact .inl (hcons h)
      · exact .inr ⟨c :: chunk, brace, rest, rfl, hcons h, hbrace⟩

theorem segmentsFrom_close (hwithin : within ≠ .literal) (h : Unbraced chunk) (rest : Text) :
    segmentsFrom within [] (chunk ++ '}' :: rest) =
      within.segment chunk :: segmentsFrom .literal [] rest := by
  rw [segmentsFrom_append h, List.append_nil]
  cases within with
  | literal => exact absurd rfl hwithin
  | guard => rw [segmentsFrom, if_pos rfl, List.reverse_reverse, Within.segment]
  | term => rw [segmentsFrom, if_pos rfl, List.reverse_reverse, Within.segment]

theorem segmentsFrom_open (h : Unbraced chunk) (rest : Text) :
    segmentsFrom .literal [] (chunk ++ '{' :: rest) =
      .literal chunk :: segmentsFrom .term [] rest := by
  rw [segmentsFrom_append h, List.append_nil, segmentsFrom, if_neg (by decide), if_pos rfl,
    List.reverse_reverse]

theorem segmentsFrom_of_unbraced (h : Unbraced chunk) :
    segmentsFrom within [] chunk = segmentsFrom within chunk.reverse [] := by
  have happend : segmentsFrom within [] (chunk ++ []) =
      segmentsFrom within (chunk.reverse ++ []) [] :=
    segmentsFrom_append h []
  rwa [List.append_nil, List.append_nil] at happend

theorem segmentsFrom_parts {parts : List (WrittenTerm × Text)} (hchunk : Unbraced chunk)
    (hparts : ∀ part ∈ parts, Unbraced part.2) :
    segmentsFrom .literal [] (chunk ++ partsText parts) =
      .literal chunk :: partsSegments parts := by
  induction parts generalizing chunk with
  | nil =>
    have hnil : partsText [] = [] := rfl
    rw [hnil, List.append_nil, segmentsFrom_of_unbraced hchunk, segmentsFrom,
      List.reverse_reverse]
    rfl
  | cons part parts ih =>
    obtain ⟨term, next⟩ := part
    obtain ⟨hnext, hparts⟩ := List.forall_mem_cons.mp hparts
    rw [partsText_cons, segmentsFrom_open hchunk, segmentsFrom_close (by decide) term.unbraced,
      ih hnext hparts]
    rfl

theorem segments_of_head (h : text.head? ≠ some '@') :
    segments text = segmentsFrom .literal [] text := by
  unfold segments
  split
  · exact absurd rfl h
  · exact absurd rfl h
  · rfl

theorem WrittenPattern.segments_text (written : WrittenPattern) : segments written.text =
    (written.guard.map fun guard => Segment.guard guard.body).toList ++
      .literal written.opening :: partsSegments written.parts := by
  obtain ⟨guard, opening, parts, hopening, hparts, hguard⟩ := written
  rw [← segmentsFrom_parts hopening hparts]
  cases guard with
  | none =>
    refine segments_of_head ?_
    have hopen := hguard rfl
    cases opening with
    | cons c opening => exact hopen
    | nil =>
      cases parts with
      | nil => nofun
      | cons part parts =>
        rw [text, partsText_cons]
        simp
  | some guard =>
    have htext : text ⟨some guard, opening, parts, hopening, hparts, hguard⟩ =
        '@' :: '{' :: (guard.body ++ '}' :: (opening ++ partsText parts)) := by
      simp [text]
    rw [htext, segments.eq_1, segmentsFrom_close (by decide) guard.unbraced]
    rfl

end segments

section drafts

variable {draft draft' : Draft} {text rest : Text}

theorem Draft.add_literal (draft : Draft) (chunk : Text) : draft.add (.literal chunk) =
    .ok { draft with elements := draft.elements ++ chunkElements chunk } := by
  rw [add, chunkElements, foldRuns_eq_foldLiteral]
  cases chunk with
  | nil => rw [List.isEmpty_nil, if_pos rfl, if_pos rfl, List.append_nil]
  | cons c chunk =>
    rw [List.isEmpty_cons, if_neg Bool.false_ne_true, if_neg (List.cons_ne_nil c chunk)]

theorem foldlM_partsSegments (guard : Option Feature) (elements : List Element) (before : List Nat)
    (parts : List (WrittenTerm × Text)) :
    (partsSegments parts).foldlM Draft.add ⟨guard, elements, before.eraseDups⟩ =
      .ok ⟨guard, elements ++ partsElements (variableIndex (before ++ partsNumbers parts)) parts,
        (before ++ partsNumbers parts).eraseDups⟩ := by
  induction parts generalizing elements before with
  | nil => simp [partsSegments, partsElements, partsNumbers, pure, Except.pure]
  | cons part parts ih =>
    obtain ⟨term, chunk⟩ := part
    -- The variables of the first term keep their places when more are written after it.
    have hstay : term.meaning (variableIndex (before ++ term.numbers)) =
        term.meaning (variableIndex (before ++ term.numbers ++ partsNumbers parts)) :=
      WrittenTerm.meaning_congr fun n hn =>
        (variableIndex_append (List.mem_append_right _ hn) _).symm
    have hterm : Draft.add ⟨guard, elements, before.eraseDups⟩ (.term term.body) =
        .ok ⟨guard, elements ++ [.term (term.meaning (variableIndex (before ++ term.numbers)))],
          (before ++ term.numbers).eraseDups⟩ := by
      rw [Draft.add, compileTerm_body]
      rfl
    have hsegments : partsSegments ((term, chunk) :: parts) =
        .term term.body :: .literal chunk :: partsSegments parts := rfl
    rw [hsegments, List.foldlM_cons, hterm]
    dsimp only [bind, Except.bind]
    rw [List.foldlM_cons, Draft.add_literal]
    dsimp only [bind, Except.bind]
    rw [ih, hstay, partsNumbers_cons, partsElements_cons, ← List.append_assoc before,
      List.append_assoc elements, List.append_assoc, List.singleton_append, List.cons_append]

theorem Pattern.read_text (written : WrittenPattern) :
    Pattern.read written.text = .ok written.meaning := by
  have hparts : ∀ guard, (.literal written.opening :: partsSegments written.parts).foldlM Draft.add
      ⟨guard, [], List.eraseDups []⟩ =
        .ok ⟨guard, written.meaning.elements, written.numbers.eraseDups⟩ := fun guard => by
    rw [List.foldlM_cons, Draft.add_literal]
    exact foldlM_partsSegments guard (chunkElements written.opening) [] written.parts
  have hguard : (segments written.text).foldlM Draft.add {} =
      .ok ⟨written.meaning.guard, written.meaning.elements, written.numbers.eraseDups⟩ := by
    rw [written.segments_text, ← hparts]
    cases hcase : written.guard with
    | none =>
      rw [WrittenPattern.meaning, hcase]
      rfl
    | some guard =>
      have hadd : Draft.add {} (.guard guard.body) =
          .ok ⟨some guard.value, [], List.eraseDups []⟩ := by
        have hcompile := compileGuard_body [] guard
        rw [List.eraseDups_nil] at hcompile
        rw [Draft.add, hcompile]
        rfl
      rw [WrittenPattern.meaning, hcase, Option.map_some, Option.toList_some,
        List.singleton_append, List.foldlM_cons, hadd]
      rfl
  rw [Pattern.read, hguard]
  rfl

/-- Chunks of text with terms between them. -/
def Chunked (text : Text) : Prop :=
  ∃ opening parts, text = opening ++ partsText parts ∧ Unbraced opening ∧
    ∀ part ∈ parts, Unbraced part.2

/-- What is read within braces, if nothing goes wrong, is closed before another brace opens. -/
theorem exists_close {within : Within} (hwithin : within ≠ .literal)
    (h : (segmentsFrom within [] text).foldlM Draft.add draft = .ok draft') :
    ∃ body rest, text = body ++ '}' :: rest ∧ Unbraced body ∧
      segmentsFrom within [] text = within.segment body :: segmentsFrom .literal [] rest := by
  rcases unbraced_or_exists_brace text with hunbraced | ⟨body, brace, rest, rfl, hbody, rfl | rfl⟩
  · rw [segmentsFrom_of_unbraced hunbraced] at h
    cases within with
    | literal => exact absurd rfl hwithin
    | guard => cases h
    | term => cases h
  · rw [segmentsFrom_append hbody] at h
    cases within with
    | literal => exact absurd rfl hwithin
    | guard => cases h
    | term => cases h
  · exact ⟨body, rest, rfl, hbody, segmentsFrom_close hwithin hbody rest⟩

theorem chunked_of_foldlM
    (h : (segmentsFrom .literal [] text).foldlM Draft.add draft = .ok draft') : Chunked text := by
  -- On the length, since the next chunk begins only where a term is closed.
  induction hlength : text.length using Nat.strong_induction_on generalizing text draft with
  | _ n ih =>
    subst hlength
    rcases unbraced_or_exists_brace text with
      hunbraced | ⟨chunk, brace, rest, rfl, hchunk, rfl | rfl⟩
    · exact ⟨text, [], (List.append_nil text).symm, hunbraced, nofun⟩
    · rw [segmentsFrom_open hchunk, List.foldlM_cons] at h
      obtain ⟨_, -, h⟩ := exists_ok_of_bind h
      obtain ⟨body, after, rfl, hbody, hclose⟩ := exists_close (by decide) h
      rw [hclose, List.foldlM_cons] at h
      obtain ⟨_, hadd, hafter⟩ := exists_ok_of_bind h
      obtain ⟨⟨_, _⟩, hterm, -⟩ := exists_ok_of_bind hadd
      obtain ⟨term, rfl⟩ := exists_of_compileTerm hbody hterm
      obtain ⟨next, parts, rfl, hnext, hparts⟩ := ih _ (by simp; omega) hafter rfl
      refine ⟨chunk, (term, next) :: parts, ?_, hchunk, List.forall_mem_cons.mpr ⟨hnext, hparts⟩⟩
      rw [partsText_cons]
    · rw [segmentsFrom_append hchunk] at h
      cases h

theorem Pattern.exists_of_read {pattern : Pattern} (h : Pattern.read text = .ok pattern) :
    ∃ written : WrittenPattern, written.text = text := by
  rw [Pattern.read] at h
  obtain ⟨draft, hdraft, -⟩ := exists_ok_of_bind h
  unfold segments at hdraft
  split at hdraft
  next rest =>
    obtain ⟨body, after, rfl, hbody, hclose⟩ := exists_close (by decide) hdraft
    rw [hclose, List.foldlM_cons] at hdraft
    obtain ⟨_, hadd, hrest⟩ := exists_ok_of_bind hdraft
    obtain ⟨⟨value, seen⟩, hguard, -⟩ := exists_ok_of_bind hadd
    have hguard : compileGuard (List.eraseDups []) body = .ok (value, seen) := hguard
    obtain ⟨guard, rfl⟩ := exists_of_compileGuard hbody hguard
    obtain ⟨opening, parts, rfl, hopening, hparts⟩ := chunked_of_foldlM hrest
    exact ⟨⟨some guard, opening, parts, hopening, hparts, nofun⟩, by simp [WrittenPattern.text]⟩
  next => cases hdraft
  next hsign hbrace =>
    obtain ⟨opening, parts, rfl, hopening, hparts⟩ := chunked_of_foldlM hdraft
    refine ⟨⟨none, opening, parts, hopening, hparts, fun _ hhead => ?_⟩, rfl⟩
    obtain ⟨later, rfl⟩ := List.head?_eq_some_iff.mp hhead
    exact hbrace _ rfl

end drafts

theorem Pattern.compile_eq_ok {raw : Text} {pattern : Pattern} :
    Pattern.compile raw = .ok pattern ↔ Pattern.read raw = .ok pattern := by
  unfold Pattern.compile
  cases Pattern.read raw with
  | ok read => simp only [Except.ok.injEq]
  | error fault => exact iff_of_false nofun nofun

/-- A pattern compiles if it can be written as a guard, chunks and terms, and then to the meaning
of these, in which the variables are numbered in the order of their first occurrence. -/
theorem Pattern.compile_eq_ok_iff_written :
    (∀ raw pattern, Pattern.compile raw = .ok pattern ↔
      ∃ written : WrittenPattern, written.text = raw ∧ written.meaning = pattern) ∧
    ∀ written : WrittenPattern,
      Numbering written.numbers written.index written.meaning.variableCount := by
  refine ⟨fun raw pattern => ?_, fun written => numbering_variableIndex written.numbers⟩
  rw [Pattern.compile_eq_ok]
  constructor
  · intro h
    obtain ⟨written, rfl⟩ := Pattern.exists_of_read h
    rw [Pattern.read_text] at h
    exact ⟨written, rfl, Except.ok.inj h⟩
  · rintro ⟨written, rfl, rfl⟩
    exact Pattern.read_text written

end Concord
