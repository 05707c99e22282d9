import Concord.Proofs.Folding
import Concord.Proofs.Scope
import Mathlib.Data.List.Induction
import Mathlib.Data.List.SplitBy

namespace Concord

/-- The number of a variable in digits. It is positive and has at most 32 bits. -/
structure Numeral where
  digits : Text
  isDigit : ∀ d ∈ digits, d.isDigit = true
  pos : 0 < decimal digits
  lt : decimal digits < UInt32.size

def Numeral.value (number : Numeral) : Nat :=
  decimal number.digits

/-- What a clause asks of an attribute, as it is written. A tag is one of its attribute. -/
inductive WrittenDemand where
  | any (kind : Attribute)
  | tag (value : Feature)
  | numbered (kind : Attribute) (number : Numeral)

namespace WrittenDemand

def kind : WrittenDemand → Attribute
  | any kind => kind
  | tag value => value.kind
  | numbered kind _ => kind

def text : WrittenDemand → Text
  | any kind => kind.name.toList
  | tag value => value.kind.name.toList ++ '=' :: value.tag.toList
  | numbered kind number => kind.name.toList ++ '=' :: '@' :: number.digits

def meaning (index : Nat → Nat) : WrittenDemand → Demand
  | any _ => .any
  | tag value => .literal value
  | numbered _ number => .variable (index number.value)

def numbers : WrittenDemand → List Nat
  | any _ => []
  | tag _ => []
  | numbered _ number => [number.value]

end WrittenDemand

structure WrittenClause where
  exported : Bool
  demand : WrittenDemand

namespace WrittenClause

def text (clause : WrittenClause) : Text :=
  (if clause.exported then ['!'] else []) ++ clause.demand.text

def meaning (index : Nat → Nat) (clause : WrittenClause) : Clause :=
  ⟨clause.demand.kind, clause.demand.meaning index, clause.exported⟩

def numbers (clause : WrittenClause) : List Nat :=
  clause.demand.numbers

end WrittenClause

/-- Neither brace stands in a text. -/
def Unbraced (text : Text) : Prop :=
  '{' ∉ text ∧ '}' ∉ text

instance (text : Text) : Decidable (Unbraced text) :=
  inferInstanceAs (Decidable (_ ∧ _))

/-- A guard is one clause that gives a value and is not exported. -/
structure WrittenGuard where
  value : Feature
  body : Text
  unbraced : Unbraced body
  tokens : fields isBlank body = [WrittenClause.text ⟨false, .tag value⟩]

/-- A term is what stands between its braces: a symbol, clauses, or a symbol and then clauses, as
the tokens between white space. No symbol is the name of an attribute. -/
structure WrittenTerm where
  name : Option Text
  clauses : List WrittenClause
  body : Text
  unbraced : Unbraced body
  tokens : fields isBlank body = name.toList ++ clauses.map WrittenClause.text
  filled : fields isBlank body ≠ []
  symbol : ∀ token ∈ name, isSymbol token = true ∧ ∀ kind : Attribute, token ≠ kind.name.toList

namespace WrittenTerm

def meaning (index : Nat → Nat) (term : WrittenTerm) : Term where
  name := term.name
  clauses := term.clauses.map (·.meaning index)

def numbers (term : WrittenTerm) : List Nat :=
  term.clauses.flatMap (·.numbers)

end WrittenTerm

/-- The guard, the chunk of text after it, and the terms with the chunk after each. Without a guard
the text does not begin with its sign. -/
structure WrittenPattern where
  guard : Option WrittenGuard
  opening : Text
  parts : List (WrittenTerm × Text)
  unbraced : Unbraced opening
  unbraced_parts : ∀ part ∈ parts, Unbraced part.2
  unguarded : guard = none → opening.head? ≠ some '@'

/-- Characters in lower case, with one space for each run of white space. -/
def foldRuns (text : Text) : Text :=
  (text.splitBy fun c d => isBlank c == isBlank d).flatMap fun run =>
    if run.all isBlank then [' '] else run.map lowerChar

/-- The place of a number among the different ones, in the order of their first occurrence. -/
def variableIndex (numbers : List Nat) (number : Nat) : Nat :=
  numbers.eraseDups.idxOf number

/-- Terms with chunks after them, as they are written. -/
def partsText (parts : List (WrittenTerm × Text)) : Text :=
  parts.flatMap fun (term, chunk) => '{' :: (term.body ++ '}' :: chunk)

def partsNumbers (parts : List (WrittenTerm × Text)) : List Nat :=
  parts.flatMap fun (term, _) => term.numbers

/-- A chunk without characters is left out. -/
def chunkElements (chunk : Text) : List Element :=
  if chunk = [] then [] else [.literal (foldRuns chunk)]

def partsElements (index : Nat → Nat) (parts : List (WrittenTerm × Text)) : List Element :=
  parts.flatMap fun (term, chunk) => .term (term.meaning index) :: chunkElements chunk

section cons

variable (term : WrittenTerm) (chunk : Text) (parts : List (WrittenTerm × Text))

theorem partsText_cons : partsText ((term, chunk) :: parts) =
    '{' :: (term.body ++ '}' :: (chunk ++ partsText parts)) := by
  simp [partsText]

theorem partsNumbers_cons :
    partsNumbers ((term, chunk) :: parts) = term.numbers ++ partsNumbers parts :=
  rfl

theorem partsElements_cons (index : Nat → Nat) : partsElements index ((term, chunk) :: parts) =
    .term (term.meaning index) :: (chunkElements chunk ++ partsElements index parts) :=
  rfl

end cons

namespace WrittenPattern

def text (written : WrittenPattern) : Text :=
  (match written.guard with
    | none => []
    | some guard => '@' :: '{' :: (guard.body ++ ['}'])) ++
  (written.opening ++ partsText written.parts)

/-- The numbers of the variables in the order in which they are written. -/
def numbers (written : WrittenPattern) : List Nat :=
  partsNumbers written.parts

def index (written : WrittenPattern) : Nat → Nat :=
  variableIndex written.numbers

def meaning (written : WrittenPattern) : Pattern where
  raw := written.text
  guard := written.guard.map (·.value)
  elements := chunkElements written.opening ++ partsElements written.index written.parts
  variableCount := written.numbers.eraseDups.length

end WrittenPattern

section indexes

variable {numbers : List Nat} {n m : Nat}

theorem variableIndex_append (h : n ∈ numbers) (later : List Nat) :
    variableIndex (numbers ++ later) n = variableIndex numbers n := by
  rw [variableIndex, List.eraseDups_append, List.idxOf_append_of_mem (List.mem_eraseDups.mpr h),
    variableIndex]

theorem variableIndex_inj (h : n ∈ numbers) :
    variableIndex numbers n = variableIndex numbers m ↔ n = m :=
  List.idxOf_inj (List.mem_eraseDups.mpr h)

theorem variableIndex_lt (h : n ∈ numbers) :
    variableIndex numbers n < numbers.eraseDups.length :=
  List.idxOf_lt_length_iff.mpr (List.mem_eraseDups.mpr h)

/-- The place of a number that is written for the first time is the next one. -/
theorem variableIndex_concat (h : n ∉ numbers) :
    variableIndex (numbers ++ [n]) n = numbers.eraseDups.length := by
  have hnot : n ∉ numbers.eraseDups := mt List.mem_eraseDups.mp h
  rw [variableIndex, eraseDups_concat, if_neg h, List.idxOf_append_of_notMem hnot,
    List.idxOf_cons_self, Nat.add_zero]

/-- Places number the variables from zero, in the order of their first occurrence. -/
structure Numbering (numbers : List Nat) (index : Nat → Nat) (count : Nat) : Prop where
  same : ∀ n ∈ numbers, ∀ m ∈ numbers, (index n = index m ↔ n = m)
  order : ∀ n ∈ numbers, ∀ m ∈ numbers, (index n < index m ↔ numbers.idxOf n < numbers.idxOf m)
  onto (place : Nat) : place < count ↔ ∃ n ∈ numbers, index n = place

theorem numbering_variableIndex (numbers : List Nat) :
    Numbering numbers (variableIndex numbers) numbers.eraseDups.length := by
  refine ⟨fun n hn m _ => variableIndex_inj hn, fun n hn m hm => idxOf_eraseDups_lt_iff hn hm,
    fun place => ⟨fun hlt => ?_, ?_⟩⟩
  · have hmem := List.mem_eraseDups.mp (List.getElem_mem hlt)
    exact ⟨_, hmem, (nodup_eraseDups numbers).idxOf_getElem place hlt⟩
  · rintro ⟨n, hn, rfl⟩
    exact variableIndex_lt hn

end indexes

section meanings

variable {index index' : Nat → Nat}

theorem WrittenClause.meaning_congr {clause : WrittenClause}
    (h : ∀ n ∈ clause.numbers, index n = index' n) :
    clause.meaning index = clause.meaning index' := by
  obtain ⟨exported, demand⟩ := clause
  cases demand with
  | numbered kind number =>
    have hindex := h number.value (List.mem_singleton_self _)
    rw [meaning, meaning, WrittenDemand.meaning, WrittenDemand.meaning, hindex]
  | _ => rfl

theorem WrittenTerm.meaning_congr {term : WrittenTerm}
    (h : ∀ n ∈ term.numbers, index n = index' n) : term.meaning index = term.meaning index' := by
  have hclauses : term.clauses.map (·.meaning index) = term.clauses.map (·.meaning index') :=
    List.map_congr_left fun clause hclause =>
      clause.meaning_congr fun n hn => h n (List.mem_flatMap.mpr ⟨clause, hclause, hn⟩)
  rw [meaning, meaning, hclauses]

theorem partsElements_congr {parts : List (WrittenTerm × Text)}
    (h : ∀ n ∈ partsNumbers parts, index n = index' n) :
    partsElements index parts = partsElements index' parts := by
  refine List.flatMap_congr fun part hpart => ?_
  have hterm : part.1.meaning index = part.1.meaning index' :=
    WrittenTerm.meaning_congr fun n hn => h n (List.mem_flatMap.mpr ⟨part, hpart, hn⟩)
  dsimp only
  rw [hterm]

end meanings

section runs

/-- Within a run there is white space only, or none. -/
theorem isBlank_of_isChain {c : Char} {run : Text}
    (h : (c :: run).IsChain fun c d => (isBlank c == isBlank d) = true) :
    ∀ d ∈ run, isBlank d = isBlank c := by
  induction run generalizing c with
  | nil => nofun
  | cons d run ih =>
    obtain ⟨hcd, hrun⟩ := List.isChain_cons_cons.mp h
    have hd : isBlank d = isBlank c := (beq_iff_eq.mp hcd).symm
    exact List.forall_mem_cons.mpr ⟨hd, fun e he => (ih hrun e he).trans hd⟩

theorem foldLiteral_append_of_not_isBlank {run : Text} (hrun : ∀ c ∈ run, isBlank c = false)
    (rest : Text) : foldLiteral (run ++ rest) = run.map lowerChar ++ foldLiteral rest := by
  induction run with
  | nil => rfl
  | cons c run ih =>
    obtain ⟨hc, hrun⟩ := List.forall_mem_cons.mp hrun
    rw [List.cons_append, foldLiteral_of_not_isBlank hc, ih hrun, List.map_cons, List.cons_append]

theorem foldLiteral_append_of_isBlank {run rest : Text} (hne : run ≠ [])
    (hrun : ∀ c ∈ run, isBlank c = true) (hrest : ∀ d ∈ rest.head?, isBlank d = false) :
    foldLiteral (run ++ rest) = ' ' :: foldLiteral rest := by
  obtain ⟨c, run, rfl⟩ := List.exists_cons_of_ne_nil hne
  obtain ⟨hc, hrun⟩ := List.forall_mem_cons.mp hrun
  have hdrop : rest.dropWhile isBlank = rest := by
    cases rest with
    | nil => rfl
    | cons d rest => exact List.dropWhile_cons_of_neg (by simp [hrest d rfl])
  rw [List.cons_append, foldLiteral_of_isBlank hc, List.dropWhile_append_of_pos hrun, hdrop]

theorem foldLiteral_flatten {runs : List Text} (hne : [] ∉ runs)
    (hwithin : ∀ run ∈ runs, run.IsChain fun c d => (isBlank c == isBlank d) = true)
    (hapart : runs.IsChain fun run next =>
      ∃ hrun hnext, (isBlank (run.getLast hrun) == isBlank (next.head hnext)) = false) :
    foldLiteral runs.flatten =
      runs.flatMap fun run => if run.all isBlank then [' '] else run.map lowerChar := by
  induction runs with
  | nil => rfl
  | cons run runs ih =>
    rw [List.mem_cons, not_or] at hne
    obtain ⟨hrunNe, hne⟩ := hne
    obtain ⟨hrun, hwithin⟩ := List.forall_mem_cons.mp hwithin
    have ih := ih hne hwithin hapart.tail
    rw [List.flatten_cons, List.flatMap_cons, ← ih]
    obtain ⟨c, run, rfl⟩ := List.exists_cons_of_ne_nil (Ne.symm hrunNe)
    have hsame : ∀ d ∈ c :: run, isBlank d = isBlank c :=
      List.forall_mem_cons.mpr ⟨rfl, isBlank_of_isChain hrun⟩
    by_cases hc : isBlank c = true
    · have hblank : ∀ d ∈ c :: run, isBlank d = true := fun d hd => (hsame d hd).trans hc
      rw [if_pos (List.all_eq_true.mpr hblank), List.singleton_append]
      refine foldLiteral_append_of_isBlank (List.cons_ne_nil c run) hblank fun d hd => ?_
      -- The next run begins with what is not white space, since this one ends with it.
      cases runs with
      | nil => cases hd
      | cons next runs =>
        obtain ⟨_, hnext, happ⟩ := (List.isChain_cons_cons.mp hapart).1
        rw [hblank _ (List.getLast_mem _)] at happ
        obtain ⟨e, next, rfl⟩ := List.exists_cons_of_ne_nil hnext
        cases hd
        simpa using happ
    · rw [Bool.not_eq_true] at hc
      have hnot : (c :: run).all isBlank = false := by rw [List.all_cons, hc, Bool.false_and]
      rw [if_neg (by rw [hnot]; decide)]
      exact foldLiteral_append_of_not_isBlank (fun d hd => (hsame d hd).trans hc) runs.flatten

/-- Folding goes run by run. -/
theorem foldRuns_eq_foldLiteral (text : Text) : foldRuns text = foldLiteral text := by
  have hfold := foldLiteral_flatten
    (List.nil_notMem_splitBy (fun c d => isBlank c == isBlank d) text)
    (fun _ => List.isChain_of_mem_splitBy)
    (List.isChain_getLast_head_splitBy (fun c d => isBlank c == isBlank d) text)
  rw [List.flatten_splitBy] at hfold
  exact hfold.symm

end runs

end Concord
