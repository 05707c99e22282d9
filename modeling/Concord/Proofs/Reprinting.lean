import Concord.Proofs.Compilation
import Mathlib.Data.List.Perm.Subperm
import Mathlib.Data.Set.Function
import Mathlib.Logic.Equiv.Basic

namespace Concord

/-- What follows the name of the attribute in the printed form of a clause. -/
def Demand.print : Demand → Text
  | .any => []
  | .literal value => '=' :: value.tag.toList
  | .variable index => '=' :: '@' :: Nat.toDigits 10 (index + 1)

def Clause.print (clause : Clause) : Text :=
  (if clause.exported then ['!'] else []) ++ (clause.kind.name.toList ++ clause.value.print)

def Term.print (term : Term) : Text :=
  '{' :: ([' '].intercalate (term.name.toList ++ term.clauses.map Clause.print) ++ ['}'])

def Element.print : Element → Text
  | .literal text => text
  | .term t => t.print

def Pattern.print (pattern : Pattern) : Text :=
  (match pattern.guard with
    | none => []
    | some value => '@' :: '{' :: ((value.kind.name.toList ++ '=' :: value.tag.toList) ++ ['}'])) ++
  pattern.elements.flatMap Element.print

/-- Two patterns mean the same, however they are written. -/
structure Pattern.Agrees (pattern other : Pattern) : Prop where
  guard : pattern.guard = other.guard
  elements : pattern.elements = other.elements
  variableCount : pattern.variableCount = other.variableCount

/-- A text is written anew within its braces: the tokens there, as white space separates them, are
replaced one by one. -/
inductive Rewritten (same : Text → Text → Prop) : Text → Text → Prop
  | nil : Rewritten same [] []
  | outside {c : Char} {rest rest' : Text} (hc : c ≠ '{') (h : Rewritten same rest rest') :
    Rewritten same (c :: rest) (c :: rest')
  | braces {body body' rest rest' : Text} (hbody : Unbraced body) (hbody' : Unbraced body')
    (htokens : List.Forall₂ same (fields isBlank body) (fields isBlank body'))
    (h : Rewritten same rest rest') :
    Rewritten same ('{' :: (body ++ '}' :: rest)) ('{' :: (body' ++ '}' :: rest'))

/-- Another number stands behind the sign of a variable; a token without one is the same. -/
inductive Renumbered (f : Nat → Nat) : Text → Text → Prop
  | numbered {front digits digits' : Text} (hfront : '=' ∉ front)
    (hdigits' : ∀ d ∈ digits', d.isDigit = true) (h : decimal digits' = f (decimal digits)) :
    Renumbered f (front ++ '=' :: '@' :: digits) (front ++ '=' :: '@' :: digits')
  | other {token : Text} (h : ∀ front digits, '=' ∉ front → token ≠ front ++ '=' :: '@' :: digits) :
    Renumbered f token token

section renumbering

variable {f : Nat → Nat} {numbers : List Nat} {n : Nat}

theorem eraseDups_map (hinj : Set.InjOn f {n | n ∈ numbers}) :
    (numbers.map f).eraseDups = numbers.eraseDups.map f := by
  induction numbers using List.reverseRecOn with
  | nil => rfl
  | append_singleton numbers last ih =>
    have ih := ih (hinj.mono fun n hn => List.mem_append_left _ hn)
    have hmem : f last ∈ numbers.map f ↔ last ∈ numbers := by
      refine ⟨fun h => ?_, List.mem_map_of_mem⟩
      obtain ⟨n, hn, heq⟩ := List.mem_map.mp h
      have hsame : n = last := hinj (List.mem_append_left _ hn)
        (List.mem_append_right _ (List.mem_singleton_self last)) heq
      rwa [← hsame]
    rw [List.map_append, List.map_singleton, eraseDups_concat, eraseDups_concat, ih]
    by_cases hlast : last ∈ numbers
    · rw [if_pos hlast, if_pos (hmem.mpr hlast)]
    · rw [if_neg hlast, if_neg (mt hmem.mp hlast), List.map_append, List.map_singleton]

theorem variableIndex_map (hinj : Set.InjOn f {n | n ∈ numbers}) (hn : n ∈ numbers) :
    variableIndex (numbers.map f) (f n) = variableIndex numbers n := by
  have hplace : numbers.eraseDups.idxOf n < numbers.eraseDups.length := variableIndex_lt hn
  have hlt : numbers.eraseDups.idxOf n < (numbers.map f).eraseDups.length := by
    rw [eraseDups_map hinj, List.length_map]
    exact hplace
  have hget : (numbers.map f).eraseDups[numbers.eraseDups.idxOf n] = f n := by
    simp only [eraseDups_map hinj, List.getElem_map, List.getElem_idxOf]
  rw [variableIndex, ← hget, (nodup_eraseDups _).idxOf_getElem _ hlt, variableIndex]

/-- What is written a second way, with other numbers, means the same under the places of these. -/
structure Renamed {α : Type _} (f : Nat → Nat) (numbers numbers' : List Nat)
    (meaning meaning' : (Nat → Nat) → α) : Prop where
  numbers : numbers' = numbers.map f
  meaning (index : Nat → Nat) : meaning' index = meaning (index ∘ f)

def WrittenClause.Renamed (f : Nat → Nat) (clause clause' : WrittenClause) : Prop :=
  Concord.Renamed f clause.numbers clause'.numbers clause.meaning clause'.meaning

def WrittenTerm.Renamed (f : Nat → Nat) (term term' : WrittenTerm) : Prop :=
  Concord.Renamed f term.numbers term'.numbers term.meaning term'.meaning

/-- Terms are renamed, and the chunks after them are the same elements. -/
def PartRenamed (f : Nat → Nat) (part part' : WrittenTerm × Text) : Prop :=
  part.1.Renamed f part'.1 ∧ chunkElements part'.2 = chunkElements part.2

structure WrittenPattern.Renamed (f : Nat → Nat) (written written' : WrittenPattern) : Prop where
  guard : written'.guard.map (·.value) = written.guard.map (·.value)
  opening : chunkElements written'.opening = chunkElements written.opening
  parts : List.Forall₂ (PartRenamed f) written.parts written'.parts

theorem renamed_clauses {clauses clauses' : List WrittenClause}
    (h : List.Forall₂ (WrittenClause.Renamed f) clauses clauses') :
    Renamed f (clauses.flatMap (·.numbers)) (clauses'.flatMap (·.numbers))
      (fun index => clauses.map (·.meaning index)) fun index => clauses'.map (·.meaning index) := by
  induction h with
  | nil => exact ⟨rfl, fun _ => rfl⟩
  | cons hclause _ ih =>
    refine ⟨?_, fun index => ?_⟩
    · rw [List.flatMap_cons, List.flatMap_cons, List.map_append, hclause.numbers, ih.numbers]
    · rw [List.map_cons, List.map_cons, hclause.meaning, ih.meaning]

theorem WrittenTerm.exists_renamed (term : WrittenTerm) {clauses' : List WrittenClause}
    {body' : Text} (hclauses : List.Forall₂ (WrittenClause.Renamed f) term.clauses clauses')
    (hunbraced : Unbraced body')
    (htokens : fields isBlank body' = term.name.toList ++ clauses'.map WrittenClause.text) :
    ∃ term' : WrittenTerm, term'.body = body' ∧ term.Renamed f term' := by
  have hfilled : fields isBlank body' ≠ [] := by
    have hlength := congrArg List.length term.tokens
    have hpos := List.length_pos_of_ne_nil term.filled
    have hclausesLength := hclauses.length_eq
    rw [List.length_append, List.length_map] at hlength
    refine List.ne_nil_of_length_pos ?_
    rw [htokens, List.length_append, List.length_map]
    omega
  obtain ⟨hnumbers, hmeaning⟩ := renamed_clauses hclauses
  refine ⟨⟨term.name, clauses', body', hunbraced, htokens, hfilled, term.symbol⟩, rfl, hnumbers,
    fun index => ?_⟩
  exact congrArg (fun clauses => ({ name := term.name, clauses } : Term)) (hmeaning index)

theorem renamed_parts {parts parts' : List (WrittenTerm × Text)}
    (h : List.Forall₂ (PartRenamed f) parts parts') :
    Renamed f (partsNumbers parts) (partsNumbers parts') (partsElements · parts)
      (partsElements · parts') := by
  induction h with
  | nil => exact ⟨rfl, fun _ => rfl⟩
  | @cons part part' parts parts' hpart _ ih =>
    obtain ⟨⟨hnumbers, hmeaning⟩, hchunk⟩ := hpart
    refine ⟨?_, fun index => ?_⟩
    · rw [partsNumbers_cons, partsNumbers_cons, List.map_append, hnumbers, ih.numbers]
    · have hrest : partsElements index parts' = partsElements (index ∘ f) parts := ih.meaning index
      rw [partsElements_cons, partsElements_cons, hmeaning, hchunk, hrest]

/-- Each variable has a number that a variable may have. -/
theorem WrittenPattern.numbers_valid (written : WrittenPattern) :
    ∀ n ∈ written.numbers, 0 < n ∧ n < UInt32.size := by
  intro n hn
  obtain ⟨⟨term, chunk⟩, -, hn⟩ := List.mem_flatMap.mp hn
  obtain ⟨⟨exported, demand⟩, -, hn⟩ := List.mem_flatMap.mp hn
  cases demand with
  | any kind => cases hn
  | tag value => cases hn
  | numbered kind number =>
    obtain rfl := List.mem_singleton.mp hn
    exact ⟨number.pos, number.lt⟩

theorem WrittenPattern.Renamed.agrees {written written' : WrittenPattern}
    (h : written.Renamed f written') (hinj : Set.InjOn f {n | n ∈ written.numbers}) :
    written'.meaning.Agrees written.meaning := by
  obtain ⟨hnumbers, hmeaning⟩ := renamed_parts h.parts
  have hnumbers : written'.numbers = written.numbers.map f := hnumbers
  refine ⟨h.guard, ?_, ?_⟩
  · have hindex : ∀ n ∈ written.numbers, (written'.index ∘ f) n = written.index n := fun n hn => by
      rw [Function.comp_apply, index, hnumbers, variableIndex_map hinj hn, index]
    have hparts : partsElements written'.index written'.parts =
        partsElements written.index written.parts :=
      (hmeaning written'.index).trans (partsElements_congr hindex)
    rw [meaning, meaning, h.opening, hparts]
  · rw [meaning, meaning, hnumbers, eraseDups_map hinj, List.length_map]

end renumbering

section tokens

/-- Tokens are made of what is neither white space nor a brace. -/
def isTokenChar (c : Char) : Bool :=
  !isBlank c && c != '{' && c != '}'

theorem isTokenChar_iff {c : Char} :
    isTokenChar c = true ↔ isBlank c = false ∧ c ≠ '{' ∧ c ≠ '}' := by
  simp [isTokenChar, and_assoc]

theorem isTokenChar_of_isAlphanumeric {c : Char} (h : isAlphanumeric c = true) :
    isTokenChar c = true := by
  have hbraces : isAlphanumeric '{' = false ∧ isAlphanumeric '}' = false := by decide +kernel
  rw [isTokenChar_iff]
  refine ⟨?_, ?_, ?_⟩
  · rw [Bool.eq_false_iff]
    intro hblank
    cases h.symm.trans (not_isAlphanumeric_of_isBlank hblank)
  · rintro rfl
    cases h.symm.trans hbraces.1
  · rintro rfl
    cases h.symm.trans hbraces.2

theorem isTokenChar_of_isSymbol {token : Text} (h : isSymbol token = true) :
    token.all isTokenChar = true := by
  refine List.all_eq_true.mpr fun c hc => ?_
  have hletter := List.all_eq_true.mp h c hc
  rcases Bool.or_eq_true_iff.mp hletter with hletter | hline
  · exact isTokenChar_of_isAlphanumeric hletter
  · obtain rfl := of_decide_eq_true hline
    decide

theorem isTokenChar_of_isDigit {c : Char} (h : c.isDigit = true) : isTokenChar c = true := by
  have hdigits : ∀ n < 10, isTokenChar (Char.ofNat ('0'.toNat + n)) = true := by decide
  rw [Char.isDigit, Bool.and_eq_true, decide_eq_true_eq, decide_eq_true_eq] at h
  obtain ⟨hlo, hhi⟩ := h
  have hlo : '0'.toNat ≤ c.toNat := hlo
  have hhi : c.toNat ≤ '9'.toNat := hhi
  have hnine : '9'.toNat = '0'.toNat + 9 := rfl
  have hc := hdigits (c.toNat - '0'.toNat) (by omega)
  rwa [Nat.add_sub_cancel' hlo, Char.ofNat_toNat] at hc

theorem WrittenClause.all_text (clause : WrittenClause) : clause.text.all isTokenChar = true := by
  have hname : ∀ kind : Attribute, kind.name.toList.all isTokenChar = true := fun kind => by
    cases kind <;> decide
  have htag : ∀ value : Feature, value.tag.toList.all isTokenChar = true := fun value => by
    rcases value with v | v | v <;> cases v <;> decide
  obtain ⟨exported, demand⟩ := clause
  have hdemand : demand.text.all isTokenChar = true := by
    cases demand with
    | any kind => exact hname kind
    | tag value =>
      rw [WrittenDemand.text, List.all_append, List.all_cons, hname, htag]
      decide
    | numbered kind number =>
      have hdigits : number.digits.all isTokenChar = true :=
        List.all_eq_true.mpr fun d hd => isTokenChar_of_isDigit (number.isDigit d hd)
      rw [WrittenDemand.text, List.all_append, List.all_cons, List.all_cons, hname, hdigits]
      decide
  rw [text, List.all_append, hdemand]
  cases exported <;> rfl

theorem WrittenClause.text_ne_nil (clause : WrittenClause) : clause.text ≠ [] := by
  obtain ⟨later, hlater⟩ := clause.demand.exists_text_eq
  rw [text, hlater]
  exact List.append_ne_nil_of_right_ne_nil _
    (List.append_ne_nil_of_left_ne_nil clause.demand.kind.name_ne_nil later)

variable {tokens : List Text}

theorem fields_intercalate (h : ∀ token ∈ tokens, token ≠ [] ∧ token.all isTokenChar = true) :
    fields isBlank ([' '].intercalate tokens) = tokens := by
  have hone : ∀ token : Text, token ≠ [] ∧ token.all isTokenChar = true →
      splitAll isBlank token = [token] ∧ token.isEmpty = false := fun token htoken =>
    ⟨splitAll_of_not_mem fun c hc =>
      (isTokenChar_iff.mp (List.all_eq_true.mp htoken.2 c hc)).1,
      List.isEmpty_eq_false_iff.mpr htoken.1⟩
  induction tokens with
  | nil => rfl
  | cons token tokens ih =>
    obtain ⟨htoken, htokens⟩ := List.forall_mem_cons.mp h
    obtain ⟨hsplit, hempty⟩ := hone token htoken
    cases tokens with
    | nil => rw [List.intercalate_singleton, fields, hsplit]; simp [hempty]
    | cons next tokens =>
      have ih := ih htokens
      rw [fields] at ih
      rw [List.intercalate_cons_cons, List.append_assoc, List.singleton_append, fields,
        splitAll_append_cons (by decide), hsplit, List.filter_append, ih]
      simp [hempty]

theorem unbraced_intercalate (h : ∀ token ∈ tokens, token.all isTokenChar = true) :
    Unbraced ([' '].intercalate tokens) := by
  have hmem : ∀ c ∈ [' '].intercalate tokens, c = ' ' ∨ isTokenChar c = true := by
    induction tokens with
    | nil => nofun
    | cons token tokens ih =>
      obtain ⟨htoken, htokens⟩ := List.forall_mem_cons.mp h
      have hfirst : ∀ c ∈ token, c = ' ' ∨ isTokenChar c = true := fun c hc =>
        .inr (List.all_eq_true.mp htoken c hc)
      cases tokens with
      | nil => rwa [List.intercalate_singleton]
      | cons next tokens =>
        rw [List.intercalate_cons_cons, List.append_assoc]
        intro c hc
        rcases List.mem_append.mp hc with hc | hc
        · exact hfirst c hc
        · rcases List.mem_cons.mp hc with rfl | hc
          · exact .inl rfl
          · exact ih htokens c hc
  have hbrace : ∀ {c}, c ≠ ' ' → isTokenChar c = false → c ∉ [' '].intercalate tokens :=
    fun hspace hbrace hc => by
      rcases hmem _ hc with rfl | htoken
      · exact hspace rfl
      · cases hbrace.symm.trans htoken
  exact ⟨hbrace (by decide) (by decide), hbrace (by decide) (by decide)⟩

end tokens

section printing

variable {g : Nat → Nat}

theorem Numeral.exists_printed {n : Nat} (hpos : 0 < n) (hlt : n < UInt32.size) :
    ∃ number : Numeral, number.digits = Nat.toDigits 10 n ∧ number.value = n := by
  have hvalue : decimal (Nat.toDigits 10 n) = n :=
    Nat.ofDigitChars_toDigits (by decide) (by decide)
  exact ⟨⟨Nat.toDigits 10 n, fun d hd => Nat.isDigit_of_mem_toDigits (by decide) (by decide) hd,
    by rwa [hvalue], by rwa [hvalue]⟩, rfl, hvalue⟩

theorem WrittenClause.exists_printed (clause : WrittenClause)
    (h : ∀ n ∈ clause.numbers, g n + 1 < UInt32.size) :
    ∃ clause' : WrittenClause, clause'.text = (clause.meaning g).print ∧
      clause.Renamed (g · + 1) clause' := by
  obtain ⟨exported, demand⟩ := clause
  cases demand with
  | any kind =>
    refine ⟨⟨exported, .any kind⟩, ?_, rfl, fun _ => rfl⟩
    rw [text, Clause.print]
    exact congrArg _ (List.append_nil _).symm
  | tag value => exact ⟨⟨exported, .tag value⟩, rfl, rfl, fun _ => rfl⟩
  | numbered kind number =>
    have hlt := h number.value (List.mem_singleton_self _)
    obtain ⟨number', hdigits, hvalue⟩ := Numeral.exists_printed (Nat.succ_pos _) hlt
    refine ⟨⟨exported, .numbered kind number'⟩, ?_, congrArg (fun n => [n]) hvalue, fun index => ?_⟩
    · rw [text, WrittenDemand.text, hdigits]
      rfl
    · rw [meaning, meaning, WrittenDemand.meaning, WrittenDemand.meaning, hvalue]
      rfl

theorem exists_printed_clauses (clauses : List WrittenClause)
    (h : ∀ n ∈ clauses.flatMap (·.numbers), g n + 1 < UInt32.size) :
    ∃ clauses' : List WrittenClause,
      clauses'.map WrittenClause.text = (clauses.map (·.meaning g)).map Clause.print ∧
      List.Forall₂ (WrittenClause.Renamed (g · + 1)) clauses clauses' := by
  induction clauses with
  | nil => exact ⟨[], rfl, .nil⟩
  | cons clause clauses ih =>
    rw [List.flatMap_cons, List.forall_mem_append] at h
    obtain ⟨clause', htext, hclause⟩ := clause.exists_printed h.1
    obtain ⟨clauses', htexts, hclauses⟩ := ih h.2
    refine ⟨clause' :: clauses', ?_, .cons hclause hclauses⟩
    rw [List.map_cons, List.map_cons, List.map_cons, htext, htexts]

theorem WrittenTerm.exists_printed (term : WrittenTerm)
    (h : ∀ n ∈ term.numbers, g n + 1 < UInt32.size) :
    ∃ term' : WrittenTerm, '{' :: (term'.body ++ ['}']) = (term.meaning g).print ∧
      term.Renamed (g · + 1) term' := by
  obtain ⟨clauses', htexts, hclauses⟩ := exists_printed_clauses term.clauses h
  have htokens : ∀ token ∈ term.name.toList ++ clauses'.map WrittenClause.text,
      token ≠ [] ∧ token.all isTokenChar = true := by
    intro token htoken
    rcases List.mem_append.mp htoken with hname | hclause
    · have hfield : token ∈ fields isBlank term.body := by
        rw [term.tokens]
        exact List.mem_append_left _ hname
      have hne := (List.mem_filter.mp hfield).2
      refine ⟨?_, isTokenChar_of_isSymbol (term.symbol token (Option.mem_toList.mp hname)).1⟩
      rintro rfl
      cases hne
    · obtain ⟨clause, -, rfl⟩ := List.mem_map.mp hclause
      exact ⟨clause.text_ne_nil, clause.all_text⟩
  obtain ⟨term', hbody, hrenamed⟩ := term.exists_renamed hclauses
    (unbraced_intercalate fun token htoken => (htokens token htoken).2) (fields_intercalate htokens)
  refine ⟨term', ?_, hrenamed⟩
  rw [hbody, htexts]
  rfl

theorem WrittenGuard.exists_printed (guard : WrittenGuard) :
    ∃ guard' : WrittenGuard, guard'.value = guard.value ∧
      guard'.body = guard.value.kind.name.toList ++ '=' :: guard.value.tag.toList := by
  have htokens : ∀ token ∈ [WrittenClause.text ⟨false, .tag guard.value⟩],
      token ≠ [] ∧ token.all isTokenChar = true :=
    List.forall_mem_singleton.mpr ⟨WrittenClause.text_ne_nil _, WrittenClause.all_text _⟩
  have hunbraced := unbraced_intercalate fun token htoken => (htokens token htoken).2
  have hfields := fields_intercalate htokens
  rw [List.intercalate_singleton] at hunbraced hfields
  exact ⟨⟨guard.value, _, hunbraced, hfields⟩, rfl, rfl⟩

/-- Folding a chunk again changes nothing. -/
theorem foldRuns_foldRuns (chunk : Text) : foldRuns (foldRuns chunk) = foldRuns chunk := by
  have hspace : lowerChar ' ' = ' ' := (lowerChar_eq_iff (by decide)).mpr rfl
  have hlower : ∀ d ∈ foldLiteral chunk, lowerChar d = d :=
    forall_mem_foldLiteral (p := fun d => lowerChar d = d) hspace fun c _ _ => lowerChar_lowerChar c
  rw [foldRuns_eq_foldLiteral, foldRuns_eq_foldLiteral,
    (singleSpaced_foldLiteral chunk).foldLiteral_eq, normalize, List.map_congr_left hlower,
    List.map_id']

theorem unbraced_foldRuns {chunk : Text} (h : Unbraced chunk) : Unbraced (foldRuns chunk) := by
  have hchars : ∀ d ∈ foldLiteral chunk, d ≠ '{' ∧ d ≠ '}' := by
    refine forall_mem_foldLiteral (by decide) fun c hc _ => ?_
    rcases lowerChar_eq_self_or_letter c with heq | hletter
    · rw [heq]
      exact ⟨ne_of_mem_of_not_mem hc h.1, ne_of_mem_of_not_mem hc h.2⟩
    · exact (isTokenChar_iff.mp (isTokenChar_of_isAlphanumeric hletter)).2
  rw [foldRuns_eq_foldLiteral]
  exact ⟨fun hmem => (hchars _ hmem).1 rfl, fun hmem => (hchars _ hmem).2 rfl⟩

/-- What a folded chunk begins with, a chunk begins with, if it is no letter and no space. -/
theorem head?_foldRuns_ne {chunk : Text} (h : chunk.head? ≠ some '@') :
    (foldRuns chunk).head? ≠ some '@' := by
  rw [foldRuns_eq_foldLiteral]
  cases chunk with
  | nil => nofun
  | cons c chunk =>
    by_cases hc : isBlank c = true
    · rw [foldLiteral_of_isBlank hc]
      simp
    · rw [Bool.not_eq_true] at hc
      rw [foldLiteral_of_not_isBlank hc, List.head?_cons]
      rw [List.head?_cons] at h
      intro hlower
      exact h (congrArg some ((lowerChar_eq_iff (by decide)).mp (Option.some.inj hlower)))

theorem foldRuns_eq_nil {chunk : Text} : foldRuns chunk = [] ↔ chunk = [] := by
  rw [foldRuns_eq_foldLiteral]
  cases chunk with
  | nil => exact iff_of_true rfl rfl
  | cons c chunk =>
    refine iff_of_false ?_ (List.cons_ne_nil c chunk)
    by_cases hc : isBlank c = true
    · rw [foldLiteral_of_isBlank hc]
      exact List.cons_ne_nil _ _
    · rw [foldLiteral_of_not_isBlank (Bool.eq_false_iff.mpr hc)]
      exact List.cons_ne_nil _ _

theorem chunkElements_foldRuns (chunk : Text) :
    chunkElements (foldRuns chunk) = chunkElements chunk := by
  rw [chunkElements, chunkElements, foldRuns_foldRuns]
  simp only [foldRuns_eq_nil]

theorem flatMap_print_chunkElements (chunk : Text) :
    (chunkElements chunk).flatMap Element.print = foldRuns chunk := by
  rw [chunkElements]
  split
  next h => rw [h]; rfl
  next => exact List.append_nil _

theorem exists_printed_parts (parts : List (WrittenTerm × Text))
    (hparts : ∀ part ∈ parts, Unbraced part.2)
    (h : ∀ n ∈ partsNumbers parts, g n + 1 < UInt32.size) :
    ∃ parts' : List (WrittenTerm × Text),
      partsText parts' = (partsElements g parts).flatMap Element.print ∧
      List.Forall₂ (PartRenamed (g · + 1)) parts parts' ∧ ∀ part ∈ parts', Unbraced part.2 := by
  induction parts with
  | nil => exact ⟨[], rfl, .nil, nofun⟩
  | cons part parts ih =>
    obtain ⟨term, chunk⟩ := part
    obtain ⟨hchunk, hparts⟩ := List.forall_mem_cons.mp hparts
    rw [partsNumbers_cons, List.forall_mem_append] at h
    obtain ⟨term', hterm, hrenamed⟩ := term.exists_printed h.1
    obtain ⟨parts', htext, hall, hparts'⟩ := ih hparts h.2
    refine ⟨(term', foldRuns chunk) :: parts', ?_,
      .cons ⟨hrenamed, chunkElements_foldRuns chunk⟩ hall,
      List.forall_mem_cons.mpr ⟨unbraced_foldRuns hchunk, hparts'⟩⟩
    rw [partsText_cons, partsElements_cons, List.flatMap_cons, List.flatMap_append,
      flatMap_print_chunkElements, htext, Element.print, ← hterm]
    simp

/-- The places of variables are fewer than the numbers that they may be given. -/
theorem WrittenPattern.index_lt (written : WrittenPattern) {n : Nat} (hn : n ∈ written.numbers) :
    written.index n + 1 < UInt32.size := by
  have hvalue : ∀ n ∈ written.numbers.eraseDups, n ∈ List.range' 1 (UInt32.size - 1) := by
    intro n hn
    obtain ⟨hpos, hlt⟩ := written.numbers_valid n (List.mem_eraseDups.mp hn)
    exact List.mem_range'_1.mpr ⟨hpos, by omega⟩
  have hcount := (List.subperm_of_subset (nodup_eraseDups written.numbers) hvalue).length_le
  have hplace : written.index n < written.numbers.eraseDups.length := variableIndex_lt hn
  have hsize : 0 < UInt32.size := by decide
  rw [List.length_range'] at hcount
  omega

theorem WrittenPattern.exists_printed (written : WrittenPattern) :
    ∃ written' : WrittenPattern, written'.text = written.meaning.print ∧
      written.Renamed (written.index · + 1) written' := by
  obtain ⟨parts', htext, hparts, hunbraced⟩ := exists_printed_parts written.parts
    written.unbraced_parts fun n hn => written.index_lt hn
  have hopening := unbraced_foldRuns written.unbraced
  have helements : written.meaning.elements.flatMap Element.print =
      foldRuns written.opening ++ partsText parts' := by
    rw [meaning, List.flatMap_append, flatMap_print_chunkElements, htext]
  rw [Pattern.print, helements]
  cases hguard : written.guard with
  | none =>
    refine ⟨⟨none, foldRuns written.opening, parts', hopening, hunbraced,
      fun _ => head?_foldRuns_ne (written.unguarded hguard)⟩, ?_, ?_⟩
    · rw [meaning, hguard]
      rfl
    · exact ⟨by rw [hguard], chunkElements_foldRuns written.opening, hparts⟩
  | some guard =>
    obtain ⟨guard', hvalue, hbody⟩ := guard.exists_printed
    refine ⟨⟨some guard', foldRuns written.opening, parts', hopening, hunbraced,
      fun hnone => absurd hnone (Option.some_ne_none guard')⟩, ?_, ?_⟩
    · rw [meaning, hguard, text, Option.map_some]
      dsimp only
      rw [hbody]
    · refine ⟨?_, chunkElements_foldRuns written.opening, hparts⟩
      rw [hguard, Option.map_some, Option.map_some, hvalue]

end printing

section rewriting

variable {f : Nat → Nat} {same : Text → Text → Prop}

/-- Replaced tokens are renamed: a symbol stays as it is, and a clause gets other numbers. -/
structure Renames (f : Nat → Nat) (same : Text → Text → Prop) : Prop where
  symbol (token token' : Text) : isSymbol token = true → same token token' → token' = token
  clause (clause : WrittenClause) (token' : Text) :
    (∀ n ∈ clause.numbers, 0 < f n ∧ f n < UInt32.size) → same clause.text token' →
      ∃ clause' : WrittenClause, clause'.text = token' ∧ clause.Renamed f clause'

theorem renames_eq : Renames id Eq :=
  ⟨fun _ _ _ h => h.symm, fun clause _ _ h =>
    ⟨clause, h, (List.map_id _).symm, fun _ => rfl⟩⟩

/-- What stands in a clause before its equals sign, if there is one. -/
def WrittenClause.front (clause : WrittenClause) : Text :=
  (if clause.exported then ['!'] else []) ++ clause.demand.kind.name.toList

theorem WrittenClause.equals_notMem_front (clause : WrittenClause) : '=' ∉ clause.front := by
  rw [front, List.mem_append, not_or]
  refine ⟨?_, clause.demand.kind.equals_notMem_name⟩
  cases clause.exported <;> decide

/-- A clause with the sign of a variable behind its first equals sign is one with a number. -/
theorem WrittenClause.exists_numbered {clause : WrittenClause} {front digits : Text}
    (hfront : '=' ∉ front) (h : clause.text = front ++ '=' :: '@' :: digits) :
    ∃ kind number, clause.demand = .numbered kind number ∧ number.digits = digits ∧
      clause.front = front := by
  have hequals := clause.equals_notMem_front
  obtain ⟨exported, demand⟩ := clause
  cases demand with
  | any kind =>
    have hmem : '=' ∈ front ++ '=' :: '@' :: digits := List.mem_append_right _ List.mem_cons_self
    rw [← h] at hmem
    exact absurd hmem hequals
  | tag value =>
    rw [text, WrittenDemand.text, ← List.append_assoc] at h
    exact absurd (append_cons_inj hequals hfront h).2 (value.tag_ne_cons digits)
  | numbered kind number =>
    rw [text, WrittenDemand.text, ← List.append_assoc] at h
    obtain ⟨hfront, hdigits⟩ := append_cons_inj hequals hfront h
    exact ⟨kind, number, rfl, (List.cons.inj hdigits).2, hfront⟩

theorem renames_renumbered (f : Nat → Nat) : Renames f (Renumbered f) := by
  refine ⟨fun token token' hsymbol h => ?_, fun clause token' hvalid h => ?_⟩
  · cases h with
    | numbered hfront hdigits' hvalue =>
      have hequals := List.all_eq_true.mp hsymbol '=' (List.mem_append_right _ List.mem_cons_self)
      exact absurd hequals (by decide +kernel)
    | other => rfl
  · generalize htext : clause.text = token at h
    cases h with
    | @numbered front digits digits' hfront hdigits' hvalue =>
      obtain ⟨kind, number, hdemand, rfl, rfl⟩ := WrittenClause.exists_numbered hfront htext
      obtain ⟨exported, demand⟩ := clause
      obtain rfl : demand = .numbered kind number := hdemand
      obtain ⟨hpos, hlt⟩ := hvalid number.value (List.mem_singleton_self _)
      have hvalue : decimal digits' = f number.value := hvalue
      refine ⟨⟨exported, .numbered kind ⟨digits', hdigits', by rwa [hvalue], by rwa [hvalue]⟩⟩,
        (List.append_assoc _ _ _).symm, congrArg (fun n => [n]) hvalue, fun index => ?_⟩
      have hindex : index (decimal digits') = index (f number.value) := congrArg index hvalue
      exact congrArg (fun n => (⟨kind, .variable n, exported⟩ : Clause)) hindex
    | other hother =>
      -- Without a number nothing is renamed.
      refine ⟨clause, htext, ?_⟩
      obtain ⟨exported, demand⟩ := clause
      cases demand with
      | any kind => exact ⟨rfl, fun _ => rfl⟩
      | tag value => exact ⟨rfl, fun _ => rfl⟩
      | numbered kind number =>
        rw [WrittenClause.text, WrittenDemand.text, ← List.append_assoc] at htext
        exact absurd htext.symm (hother _ _ (WrittenClause.equals_notMem_front ⟨exported, _⟩))

theorem exists_rewritten_clauses (h : Renames f same) {clauses : List WrittenClause}
    (hvalid : ∀ n ∈ clauses.flatMap (·.numbers), 0 < f n ∧ f n < UInt32.size)
    {tokens' : List Text} (htokens : List.Forall₂ same (clauses.map WrittenClause.text) tokens') :
    ∃ clauses' : List WrittenClause, clauses'.map WrittenClause.text = tokens' ∧
      List.Forall₂ (WrittenClause.Renamed f) clauses clauses' := by
  induction clauses generalizing tokens' with
  | nil =>
    obtain rfl := List.forall₂_nil_left_iff.mp htokens
    exact ⟨[], rfl, .nil⟩
  | cons clause clauses ih =>
    obtain ⟨token', tokens', htoken, hrest, rfl⟩ := List.forall₂_cons_left_iff.mp htokens
    rw [List.flatMap_cons, List.forall_mem_append] at hvalid
    obtain ⟨clause', rfl, hclause⟩ := h.clause clause token' hvalid.1 htoken
    obtain ⟨clauses', rfl, hclauses⟩ := ih hvalid.2 hrest
    exact ⟨clause' :: clauses', rfl, .cons hclause hclauses⟩

theorem WrittenTerm.exists_rewritten (h : Renames f same) (term : WrittenTerm)
    (hvalid : ∀ n ∈ term.numbers, 0 < f n ∧ f n < UInt32.size) {body' : Text}
    (hunbraced : Unbraced body')
    (htokens : List.Forall₂ same (fields isBlank term.body) (fields isBlank body')) :
    ∃ term' : WrittenTerm, term'.body = body' ∧ term.Renamed f term' := by
  rw [term.tokens] at htokens
  cases hname : term.name with
  | none =>
    rw [hname, Option.toList_none, List.nil_append] at htokens
    obtain ⟨clauses', htexts, hclauses⟩ := exists_rewritten_clauses h hvalid htokens
    exact term.exists_renamed hclauses hunbraced (by rw [hname, htexts]; rfl)
  | some token =>
    rw [hname, Option.toList_some, List.singleton_append] at htokens
    obtain ⟨token', tokens', htoken, hrest, hfields⟩ := List.forall₂_cons_left_iff.mp htokens
    obtain rfl := h.symbol token token' (term.symbol token hname).1 htoken
    obtain ⟨clauses', htexts, hclauses⟩ := exists_rewritten_clauses h hvalid hrest
    exact term.exists_renamed hclauses hunbraced (by rw [hname, htexts, hfields]; rfl)

theorem WrittenGuard.exists_rewritten (h : Renames f same) (guard : WrittenGuard) {body' : Text}
    (hunbraced : Unbraced body')
    (htokens : List.Forall₂ same (fields isBlank guard.body) (fields isBlank body')) :
    ∃ guard' : WrittenGuard, guard'.body = body' ∧ guard'.value = guard.value := by
  rw [guard.tokens, List.forall₂_cons_left_iff] at htokens
  obtain ⟨token', tokens', htoken, hrest, hfields⟩ := htokens
  obtain rfl := List.forall₂_nil_left_iff.mp hrest
  obtain ⟨⟨exported, demand⟩, rfl, hrenamed⟩ :=
    h.clause _ token' (fun _ hn => absurd hn List.not_mem_nil) htoken
  have hexported := congrArg Clause.exported (hrenamed.meaning id)
  have hvalue := congrArg Clause.value (hrenamed.meaning id)
  cases hexported
  cases demand with
  | any kind => cases hvalue
  | tag value =>
    cases hvalue
    exact ⟨⟨guard.value, body', hunbraced, hfields⟩, rfl, rfl⟩
  | numbered kind number => cases hvalue

/-- A text without braces stays as it is where it is rewritten. -/
theorem Rewritten.of_append {chunk text raw' : Text} (hchunk : Unbraced chunk)
    (h : Rewritten same (chunk ++ text) raw') :
    ∃ text', raw' = chunk ++ text' ∧ Rewritten same text text' := by
  induction chunk generalizing raw' with
  | nil => exact ⟨raw', rfl, h⟩
  | cons c chunk ih =>
    obtain ⟨hopen, hclose⟩ := hchunk
    rw [List.mem_cons, not_or] at hopen hclose
    generalize hraw : c :: chunk ++ text = raw at h
    cases h with
    | nil => cases hraw
    | outside hc hrest =>
      cases hraw
      obtain ⟨text', rfl, htext⟩ := ih ⟨hopen.2, hclose.2⟩ hrest
      exact ⟨text', rfl, htext⟩
    | braces => exact absurd (List.cons.inj hraw).1.symm hopen.1

theorem Rewritten.of_braces {body rest raw' : Text} (hbody : Unbraced body)
    (h : Rewritten same ('{' :: (body ++ '}' :: rest)) raw') :
    ∃ body' rest', raw' = '{' :: (body' ++ '}' :: rest') ∧ Unbraced body' ∧
      List.Forall₂ same (fields isBlank body) (fields isBlank body') ∧
      Rewritten same rest rest' := by
  generalize htext : '{' :: (body ++ '}' :: rest) = raw at h
  cases h with
  | nil => cases htext
  | outside hc hrest =>
    cases htext
    exact absurd rfl hc
  | @braces body₁ body' rest₁ rest' hbody₁ hbody' htokens hrest =>
    obtain ⟨rfl, rfl⟩ := append_cons_inj hbody.2 hbody₁.2 (List.cons.inj htext).2
    exact ⟨body', rest', rfl, hbody', htokens, hrest⟩

theorem exists_rewritten_parts (h : Renames f same) {parts : List (WrittenTerm × Text)}
    (hparts : ∀ part ∈ parts, Unbraced part.2)
    (hvalid : ∀ n ∈ partsNumbers parts, 0 < f n ∧ f n < UInt32.size) {raw' : Text}
    (hraw : Rewritten same (partsText parts) raw') :
    ∃ parts' : List (WrittenTerm × Text), partsText parts' = raw' ∧
      List.Forall₂ (PartRenamed f) parts parts' ∧ ∀ part ∈ parts', Unbraced part.2 := by
  induction parts generalizing raw' with
  | nil =>
    cases hraw
    exact ⟨[], rfl, .nil, nofun⟩
  | cons part parts ih =>
    obtain ⟨term, chunk⟩ := part
    obtain ⟨hchunk, hparts⟩ := List.forall_mem_cons.mp hparts
    rw [partsNumbers_cons, List.forall_mem_append] at hvalid
    rw [partsText_cons] at hraw
    obtain ⟨body', after', rfl, hbody', htokens, hafter⟩ := hraw.of_braces term.unbraced
    obtain ⟨rest', rfl, hrest⟩ := hafter.of_append hchunk
    obtain ⟨term', rfl, hterm⟩ := term.exists_rewritten h hvalid.1 hbody' htokens
    obtain ⟨parts', rfl, hall, hparts'⟩ := ih hparts hvalid.2 hrest
    exact ⟨(term', chunk) :: parts', partsText_cons term' chunk parts', .cons ⟨hterm, rfl⟩ hall,
      List.forall_mem_cons.mpr ⟨hchunk, hparts'⟩⟩

theorem WrittenPattern.exists_rewritten (h : Renames f same) (written : WrittenPattern)
    (hvalid : ∀ n ∈ written.numbers, 0 < f n ∧ f n < UInt32.size) {raw' : Text}
    (hraw : Rewritten same written.text raw') :
    ∃ written' : WrittenPattern, written'.text = raw' ∧ written.Renamed f written' := by
  obtain ⟨guard, opening, parts, hopening, hparts, hguard⟩ := written
  cases guard with
  | none =>
    obtain ⟨rest', rfl, hrest⟩ := Rewritten.of_append hopening hraw
    obtain ⟨parts', rfl, hall, hparts'⟩ := exists_rewritten_parts h hparts hvalid hrest
    exact ⟨⟨none, opening, parts', hopening, hparts', hguard⟩, rfl, rfl, rfl, hall⟩
  | some guard =>
    have htext : text ⟨some guard, opening, parts, hopening, hparts, hguard⟩ =
        ['@'] ++ '{' :: (guard.body ++ '}' :: (opening ++ partsText parts)) := by
      simp [text]
    rw [htext] at hraw
    obtain ⟨_, rfl, hguarded⟩ := Rewritten.of_append (by decide) hraw
    obtain ⟨body', after', rfl, hbody', htokens, hafter⟩ := hguarded.of_braces guard.unbraced
    obtain ⟨rest', rfl, hrest⟩ := hafter.of_append hopening
    obtain ⟨guard', rfl, hvalue⟩ := guard.exists_rewritten h hbody' htokens
    obtain ⟨parts', rfl, hall, hparts'⟩ := exists_rewritten_parts h hparts hvalid hrest
    refine ⟨⟨some guard', opening, parts', hopening, hparts',
      fun hnone => absurd hnone (Option.some_ne_none guard')⟩, ?_, ?_, rfl, hall⟩
    · simp [text]
    · rw [Option.map_some, Option.map_some, hvalue]

end rewriting

/-- A compiled pattern means the same when it is printed and compiled again. So does its text when
the white space between tokens is changed, and when its variables are given other numbers. -/
theorem Pattern.compile_print {raw : Text} {pattern : Pattern}
    (h : Pattern.compile raw = .ok pattern) :
    (∃ again, Pattern.compile pattern.print = .ok again ∧ again.Agrees pattern) ∧
    (∀ raw', Rewritten Eq raw raw' →
      ∃ again, Pattern.compile raw' = .ok again ∧ again.Agrees pattern) ∧
    ∀ written : WrittenPattern, written.text = raw → ∀ f : Nat → Nat,
      Set.InjOn f {n | n ∈ written.numbers} →
      (∀ n ∈ written.numbers, 0 < f n ∧ f n < UInt32.size) →
      ∀ raw', Rewritten (Renumbered f) raw raw' →
        ∃ again, Pattern.compile raw' = .ok again ∧ again.Agrees pattern := by
  have hcompile : ∀ written : WrittenPattern, Pattern.compile written.text = .ok written.meaning :=
    fun written => Pattern.compile_eq_ok.mpr (Pattern.read_text written)
  have hmeaning : ∀ written : WrittenPattern, written.text = raw → written.meaning = pattern :=
    fun written htext => Except.ok.inj ((hcompile written).symm.trans (htext ▸ h))
  have hrewritten : ∀ f same, Renames f same → ∀ written : WrittenPattern, written.text = raw →
      Set.InjOn f {n | n ∈ written.numbers} →
      (∀ n ∈ written.numbers, 0 < f n ∧ f n < UInt32.size) → ∀ raw', Rewritten same raw raw' →
      ∃ again, Pattern.compile raw' = .ok again ∧ again.Agrees pattern := by
    rintro f same hrenames written rfl hinj hvalid raw' hraw
    obtain ⟨written', rfl, hrenamed⟩ := written.exists_rewritten hrenames hvalid hraw
    exact ⟨written'.meaning, hcompile written', hmeaning written rfl ▸ hrenamed.agrees hinj⟩
  obtain ⟨written, htext⟩ := Pattern.exists_of_read (Pattern.compile_eq_ok.mp h)
  refine ⟨?_, fun raw' hraw => ?_, fun written htext f hinj hvalid =>
    hrewritten f _ (renames_renumbered f) written htext hinj hvalid⟩
  · obtain ⟨written', htext', hrenamed⟩ := written.exists_printed
    have hinj : Set.InjOn (written.index · + 1) {n | n ∈ written.numbers} := fun n hn m _ heq =>
      (variableIndex_inj hn).mp (Nat.succ.inj heq)
    rw [← hmeaning written htext, ← htext']
    exact ⟨written'.meaning, hcompile written', hrenamed.agrees hinj⟩
  · exact hrewritten id Eq renames_eq written htext (Set.injOn_id _) written.numbers_valid raw' hraw

/-- One term with one variable: printed, with other white space, and with the numbers 7 and 12
exchanged. -/
theorem Pattern.compile_print_swapped : ∃ pattern,
    Pattern.compile ('{' :: ("a case=@7".toList ++ ['}'])) = .ok pattern ∧
    (∃ again, Pattern.compile pattern.print = .ok again ∧ again.Agrees pattern) ∧
    (∃ again, Pattern.compile ('{' :: (" a\tcase=@7 ".toList ++ ['}'])) = .ok again ∧
      again.Agrees pattern) ∧
    ∃ again, Pattern.compile ('{' :: ("a case=@012".toList ++ ['}'])) = .ok again ∧
      again.Agrees pattern := by
  have hcompile : Pattern.compile ('{' :: ("a case=@7".toList ++ ['}'])) =
      .ok ⟨'{' :: ("a case=@7".toList ++ ['}']), none,
        [.term { name := some ['a'], clauses := [⟨.gramCase, .variable 0, false⟩] }], 1⟩ := by
    decide +kernel
  obtain ⟨hprint, hspaced, hrenumbered⟩ := Pattern.compile_print hcompile
  obtain ⟨written, htext⟩ := Pattern.exists_of_read (Pattern.compile_eq_ok.mp hcompile)
  have hfields : fields isBlank "a case=@7".toList = ["a".toList, "case=@7".toList] := by decide
  refine ⟨_, hcompile, hprint, hspaced _ ?_, hrenumbered written htext (Equiv.swap 7 12)
    (Equiv.injective _).injOn (fun n hn => ?_) _ ?_⟩
  · have hfields' : fields isBlank " a\tcase=@7 ".toList = ["a".toList, "case=@7".toList] := by
      decide
    refine .braces (by decide) (by decide) ?_ .nil
    rw [hfields, hfields']
    exact List.forall₂_refl _
  · obtain ⟨hpos, hlt⟩ := written.numbers_valid n hn
    rw [Equiv.swap_apply_def]
    split
    · decide
    · split
      · decide
      · exact ⟨hpos, hlt⟩
  · have hfields' : fields isBlank "a case=@012".toList = ["a".toList, "case=@012".toList] := by
      decide
    have hsymbol : Renumbered (Equiv.swap 7 12) "a".toList "a".toList := by
      refine .other fun front digits _ heq => ?_
      have hequals : '=' ∈ "a".toList := heq ▸ List.mem_append_right front List.mem_cons_self
      exact absurd hequals (by decide)
    have hclause : Renumbered (Equiv.swap 7 12) ("case".toList ++ '=' :: '@' :: "7".toList)
        ("case".toList ++ '=' :: '@' :: "012".toList) :=
      .numbered (by decide) (List.all_eq_true.mp (by decide)) (by decide)
    refine .braces (by decide) (by decide) ?_ .nil
    rw [hfields, hfields']
    exact .cons hsymbol (.cons hclause .nil)

end Concord
