import Concord.Proofs.History
import Concord.Session
import Mathlib.Data.List.Induction

namespace Concord

namespace Session

/-- What may be done with a session. A load meets the disk as it is at that moment. -/
inductive Operation where
  | setSeparator (separator : Text)
  | setCap (cap : Nat)
  | load (disk : Disk) (path : Text)
  | unload
  | parse (text start : Text) (offset : Nat)
  | parser

namespace Operation

/-- Whether the session keeps its dictionary, or has none as before. -/
def keepsDictionary : Operation → Bool
  | load _ _ => false
  | unload => false
  | _ => true

def separator? : Operation → Option Text
  | setSeparator separator => some separator
  | _ => none

def cap? : Operation → Option Nat
  | setCap cap => some cap
  | _ => none

end Operation

/-- The session after an operation. To parse or to ask for the parser changes nothing. -/
def after (session : Session) : Operation → Session
  | .setSeparator separator => session.withSeparator separator
  | .setCap cap => session.withCap cap
  | .load disk path => (session.load disk path).2
  | .unload => session.unload
  | .parse _ _ _ => session
  | .parser => session

def afterAll (session : Session) (operations : List Operation) : Session :=
  operations.foldl after session

/-- The separator that was set last. -/
def separatorIn (operations : List Operation) : Text :=
  (operations.filterMap Operation.separator?).getLast?.getD [' ']

/-- The cap that was set last; zero is no cap. -/
def capIn (operations : List Operation) : Nat :=
  (operations.filterMap Operation.cap?).getLast?.getD 0

/-- The parser that a load leads to after some operations. -/
def parserAt (grammar : Grammar) (before : List Operation) (dictionary : Dictionary) : Parser :=
  (Parser.withSeparator { dictionary, grammar } (separatorIn before)).withCap (capIn before)

/-- The last load among some operations was successful and led to the parser, and nothing was
unloaded after it. -/
def InForce (grammar : Grammar) (operations : List Operation) (parser : Parser) : Prop :=
  ∃ before disk path later dictionary,
    operations = before ++ .load disk path :: later ∧
    (∀ operation ∈ later, operation.keepsDictionary = true) ∧
    Dictionary.load disk path = .ok dictionary ∧ parser = parserAt grammar before dictionary

variable {grammar : Grammar} {operations : List Operation} {operation : Operation}
variable {parser : Parser} {session : Session}

theorem getLast?_filterMap_snoc {α β : Type} (f : α → Option β) (xs : List α) (x : α) (d : β) :
    ((xs ++ [x]).filterMap f).getLast?.getD d =
      (f x).getD ((xs.filterMap f).getLast?.getD d) := by
  rw [List.filterMap_append]
  cases h : f x with
  | none => simp [h]
  | some y => simp [h]

theorem separatorIn_snoc (operations : List Operation) (operation : Operation) :
    separatorIn (operations ++ [operation]) =
      operation.separator?.getD (separatorIn operations) :=
  getLast?_filterMap_snoc _ _ _ _

theorem capIn_snoc (operations : List Operation) (operation : Operation) :
    capIn (operations ++ [operation]) = operation.cap?.getD (capIn operations) :=
  getLast?_filterMap_snoc _ _ _ _

theorem not_inForce_nil : ¬InForce grammar [] parser := by
  rintro ⟨before, disk, path, later, dictionary, hsplit, -⟩
  simp at hsplit

theorem inForce_snoc_of_keeps (hkeeps : operation.keepsDictionary = true) :
    InForce grammar (operations ++ [operation]) parser ↔ InForce grammar operations parser := by
  constructor
  · rintro ⟨before, disk, path, later, dictionary, hsplit, hlater, hload⟩
    rcases List.eq_nil_or_concat later with rfl | ⟨later, last, rfl⟩
    · obtain ⟨-, hlast⟩ := List.append_inj' hsplit rfl
      cases hlast
      cases hkeeps
    · rw [List.concat_eq_append, ← List.cons_append, ← List.append_assoc] at hsplit
      obtain ⟨hbefore, -⟩ := List.append_inj' hsplit rfl
      exact ⟨before, disk, path, later, dictionary, hbefore,
        fun o ho => hlater o (by simp [ho]), hload⟩
  · rintro ⟨before, disk, path, later, dictionary, rfl, hlater, hload⟩
    refine ⟨before, disk, path, later ++ [operation], dictionary, by simp, fun o ho => ?_, hload⟩
    rcases List.mem_append.mp ho with ho | ho
    · exact hlater o ho
    · rwa [List.mem_singleton.mp ho]

/-- What ends with a load, or with an unload, has nothing after it that keeps a dictionary. -/
theorem inForce_snoc_of_not_keeps (hkeeps : operation.keepsDictionary = false) :
    InForce grammar (operations ++ [operation]) parser ↔ ∃ disk path dictionary,
      operation = .load disk path ∧ Dictionary.load disk path = .ok dictionary ∧
        parser = parserAt grammar operations dictionary := by
  constructor
  · rintro ⟨before, disk, path, later, dictionary, hsplit, hlater, hload⟩
    rcases List.eq_nil_or_concat later with rfl | ⟨later, last, rfl⟩
    · obtain ⟨rfl, hlast⟩ := List.append_inj' hsplit rfl
      cases hlast
      exact ⟨disk, path, dictionary, rfl, hload⟩
    · rw [List.concat_eq_append, ← List.cons_append, ← List.append_assoc] at hsplit
      obtain ⟨-, hlast⟩ := List.append_inj' hsplit rfl
      cases hlast
      cases hkeeps.symm.trans (hlater operation (by simp))
  · rintro ⟨disk, path, dictionary, rfl, hload⟩
    exact ⟨operations, disk, path, [], dictionary, rfl, by simp, hload⟩

/-- Nothing is in force where the last operation was an unload or a load that failed. -/
theorem not_inForce_snoc (hkeeps : operation.keepsDictionary = false)
    (hfailed : ∀ disk path dictionary, operation = .load disk path →
      Dictionary.load disk path ≠ .ok dictionary) :
    ¬InForce grammar (operations ++ [operation]) parser := by
  rw [inForce_snoc_of_not_keeps hkeeps]
  rintro ⟨disk, path, dictionary, hload, hok, -⟩
  exact hfailed disk path dictionary hload hok

/-- The session is what some operations make of a new one. -/
structure Follows (grammar : Grammar) (operations : List Operation) (session : Session) : Prop where
  grammar_eq : session.grammar = grammar
  separator_eq : session.separator = separatorIn operations
  cap_eq : session.cap = capIn operations
  parser?_eq (parser : Parser) : session.parser? = some parser ↔ InForce grammar operations parser

theorem follows_new (grammar : Grammar) : (new grammar).Follows grammar [] := by
  refine ⟨rfl, rfl, rfl, fun parser => ?_⟩
  rw [iff_false_right not_inForce_nil]
  intro h
  cases h

/-- Options take no effect before the next load. -/
theorem Follows.snoc (h : session.Follows grammar operations) (operation : Operation) :
    (session.after operation).Follows grammar (operations ++ [operation]) := by
  obtain ⟨hgrammar, hseparator, hcap, hparser⟩ := h
  have hseparator' : operation.separator?.getD session.separator =
      separatorIn (operations ++ [operation]) := by rw [separatorIn_snoc, hseparator]
  have hcap' : operation.cap?.getD session.cap = capIn (operations ++ [operation]) := by
    rw [capIn_snoc, hcap]
  cases operation with
  | setSeparator | setCap | parse | parser =>
    exact ⟨hgrammar, hseparator', hcap',
      fun parser => (hparser parser).trans (inForce_snoc_of_keeps rfl).symm⟩
  | unload =>
    refine ⟨hgrammar, hseparator', hcap', fun parser => iff_of_false (fun h => by cases h) ?_⟩
    exact not_inForce_snoc rfl fun disk path dictionary hsame => by cases hsame
  | load disk path =>
    cases hload : Dictionary.load disk path with
    | error error =>
      have hafter : session.after (.load disk path) = session.unload := by
        simp only [after, load, install, hload]
      rw [hafter]
      refine ⟨hgrammar, hseparator', hcap', fun parser => iff_of_false (fun h => by cases h) ?_⟩
      refine not_inForce_snoc rfl fun disk path dictionary hsame hok => ?_
      cases hsame
      cases hload.symm.trans hok
    | ok dictionary =>
      have hafter : session.after (.load disk path) =
          { session with parser? := some (parserAt grammar operations dictionary) } := by
        simp only [after, load, install, hload, parserAt, hgrammar, hseparator, hcap]
      rw [hafter]
      refine ⟨hgrammar, hseparator', hcap', fun parser => ?_⟩
      rw [inForce_snoc_of_not_keeps rfl]
      constructor
      · intro hsome
        exact ⟨disk, path, dictionary, rfl, hload, (Option.some.inj hsome).symm⟩
      · rintro ⟨_, _, _, hsame, hok, rfl⟩
        cases hsame
        cases hload.symm.trans hok
        rfl

theorem follows_afterAll (grammar : Grammar) (operations : List Operation) :
    ((new grammar).afterAll operations).Follows grammar operations := by
  induction operations using List.reverseRecOn with
  | nil => exact follows_new grammar
  | append_singleton operations operation ih =>
    rw [afterAll, List.foldl_append]
    exact ih.snoc operation

/-- After any operations, a session has a dictionary if the last load was successful and nothing was
unloaded since. It then parses as a fresh analysis does with the parser of that load; otherwise it
refuses to. -/
theorem parse_afterAll (grammar : Grammar) (operations : List Operation) :
    let session := (new grammar).afterAll operations
    (session.hasDictionary = true ↔ ∃ before disk path later dictionary,
      operations = before ++ .load disk path :: later ∧
        (∀ operation ∈ later, operation.keepsDictionary = true) ∧
        Dictionary.load disk path = .ok dictionary) ∧
    (session.hasDictionary = false → session.parser = .error .noDictionary ∧
      ∀ text start offset, session.parse text start offset = .error .noDictionary) ∧
    (∀ parser, InForce grammar operations parser → session.parser = .ok parser ∧
      ∀ text start offset,
        let answer := ((Analysis.new parser).reset text).perform (.parse start offset)
        session.parse text start offset = answer.1.map fun _ => answer.2) ∧
    ∀ disk path error, Dictionary.load disk path = .error error →
      (session.load disk path).1 = .error error ∧
        (session.load disk path).2.hasDictionary = false := by
  intro session
  have hfollows : session.Follows grammar operations := follows_afterAll grammar operations
  clear_value session
  refine ⟨?_, fun hnone => ?_, fun parser hforce => ?_, fun disk path error hload => ?_⟩
  · rw [hasDictionary, Option.isSome_iff_exists]
    simp only [hfollows.parser?_eq]
    constructor
    · rintro ⟨_, before, disk, path, later, dictionary, hsplit, hlater, hload, -⟩
      exact ⟨before, disk, path, later, dictionary, hsplit, hlater, hload⟩
    · rintro ⟨before, disk, path, later, dictionary, hsplit, hlater, hload⟩
      exact ⟨_, before, disk, path, later, dictionary, hsplit, hlater, hload, rfl⟩
  · have hparser : session.parser = .error .noDictionary := by
      rw [Session.parser, Option.isNone_iff_eq_none.mp (Option.isSome_eq_false_iff.mp hnone)]
    exact ⟨hparser, fun text start offset => by rw [Session.parse, hparser]; rfl⟩
  · have hparser : session.parser = .ok parser := by
      rw [Session.parser, (hfollows.parser?_eq parser).mpr hforce]
    refine ⟨hparser, fun text start offset => ?_⟩
    intro answer
    have hanswer : ((Analysis.new parser).reset text).parse start offset = answer := rfl
    rw [Session.parse, hparser]
    simp only [bind, Except.bind, hanswer]
    rcases answer with ⟨error | ⟨⟩, analysis⟩ <;> rfl
  · rw [load, hload]
    exact ⟨rfl, rfl⟩

/-- The cap that is set after a load waits for the next one, which fails. -/
theorem parse_afterAll_waiting :
    let grammar : Grammar := ⟨#[], []⟩
    let disk : Disk := { nodes := [([['d']], .file (Header.ofSizes 0 0).encode)] }
    let before : List Operation := [.setSeparator ['-'], .load disk ['d'], .setCap 1, .parser]
    Dictionary.load disk ['d'] = .ok .empty ∧
      Dictionary.load disk ['e'] = .error (.file .notFound) ∧
      ((new grammar).afterAll before).parser = .ok ⟨.empty, grammar, ['-'], none⟩ ∧
      ((new grammar).afterAll (before ++ [.load disk ['e']])).parser = .error .noDictionary := by
  intro grammar disk before
  have hload : Dictionary.load disk ['d'] = .ok .empty := by decide +kernel
  have hfault : Dictionary.load disk ['e'] = .error (.file .notFound) := by decide +kernel
  have hforce : InForce grammar before ⟨.empty, grammar, ['-'], none⟩ :=
    ⟨[.setSeparator ['-']], disk, ['d'], [.setCap 1, .parser], .empty, rfl,
      by simp [Operation.keepsDictionary], hload, rfl⟩
  obtain ⟨-, -, hparse, hfailed⟩ := parse_afterAll grammar before
  obtain ⟨-, hnone, -, -⟩ := parse_afterAll grammar (before ++ [.load disk ['e']])
  have hafter : (new grammar).afterAll (before ++ [.load disk ['e']]) =
      (((new grammar).afterAll before).load disk ['e']).2 := by
    rw [afterAll, List.foldl_append]
    rfl
  refine ⟨hload, hfault, (hparse _ hforce).1, (hnone ?_).1⟩
  rw [hafter]
  exact (hfailed disk ['e'] _ hfault).2

end Session

end Concord
