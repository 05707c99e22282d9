import Concord.Proofs.Layout
import Mathlib.Data.List.Chain

namespace Concord

open Layout

/-- A check of the file as a whole, of the record with a number, or of the order of all words. -/
inductive Check where
  | header | magic | text | entries | wholeRecords | utf8 | finalNul
  | offset (k : Nat)
  | code (k : Nat) (kind : Attribute)
  | order

namespace Check

/-- What a file must be like to pass a check. -/
def Passes (file : Bytes) : Check → Prop
  | .header => headerSize ≤ file.length
  | .magic => numberAt file 0 = magicNumber
  | .text => headerSize + textSize file ≤ file.length
  | .entries => headerSize + textSize file + tableSize file ≤ file.length
  | .wholeRecords => entrySize ∣ tableSize file
  | .utf8 => ∃ text, encodeUtf8 text = textSection file
  | .finalNul => textSection file = [] ∨ (textSection file).getLast? = some 0
  | .offset k => BeginsWord (textSection file) (offsetAt file k)
  | .code k kind => (codeAt file k kind).toNat ≤ kind.valueCount
  | .order => ∀ k, k + 1 < recordCount file → ¬wordAt file (k + 1) < wordAt file k

/-- The error of a file that does not pass a check. -/
def Reports (file : Bytes) : Check → Error → Prop
  | .header, error => error = .truncated .header headerSize file.length
  | .magic, error => error = .badMagic (numberAt file 0)
  | .text, error => error = .truncated .text (textSize file) (file.length - headerSize)
  | .entries, error =>
    error = .truncated .entries (tableSize file) (file.length - headerSize - textSize file)
  | .wholeRecords, error => error = .database (.unevenEntries (tableSize file))
  | .utf8, error => ∃ fault, decodeUtf8 (textSection file) = .error fault ∧ error = .notUtf8 fault
  | .finalNul, error => error = .database .unterminatedText
  | .offset k, error => error = .database (.offsetOffWord (offsetAt file k))
  | .code k kind, error =>
    error = .database (.codeOutOfRange kind (codeAt file k kind).toNat)
  | .order, error => error = .database .unsortedEntries

theorem Reports.unique {file : Bytes} {check : Check} {error error' : Error}
    (h : check.Reports file error) (h' : check.Reports file error') : error = error' := by
  cases check with
  | utf8 =>
    obtain ⟨fault, hfault, rfl⟩ := h
    obtain ⟨fault', hfault', rfl⟩ := h'
    rw [Except.error.inj (hfault.symm.trans hfault')]
  | _ => exact Eq.trans h (Eq.symm h')

/-- The checks of a record. -/
def ofRecord (k : Nat) : List Check :=
  .offset k :: Attribute.all.map (.code k)

/-- All checks of a file, in their order. -/
def all (file : Bytes) : List Check :=
  [.header, .magic, .text, .entries, .wholeRecords, .utf8, .finalNul]
    ++ (List.range (recordCount file)).flatMap ofRecord ++ [.order]

/-- Of these checks, one fails after all before it have passed. -/
def FailsFirst (file : Bytes) (checks : List Check) (check : Check) : Prop :=
  ∃ before after, checks = before ++ check :: after ∧ (∀ c ∈ before, c.Passes file) ∧
    ¬check.Passes file

end Check

/-- An entry says what the record with a number says. -/
structure Entry.Describes (entry : Entry) (file : Bytes) (k : Nat) : Prop where
  offset : entry.offset = offsetAt file k
  word : encodeUtf8 entry.word = wordAt file k
  code (kind : Attribute) : entry.features.code kind = (codeAt file k kind).toNat

/-- A dictionary holds the text section of a file and what its records say, in their order. -/
structure Dictionary.Describes (dictionary : Dictionary) (file : Bytes) : Prop where
  text : encodeUtf8 dictionary.text = textSection file
  size : dictionary.size = recordCount file
  entry (k : Nat) (h : k < dictionary.entries.size) : dictionary.entries[k].Describes file k

/-- What comes of making checks one after another. -/
inductive Verdict (file : Bytes) : List Check → Except Error Dictionary → Prop where
  | accept {dictionary : Dictionary} : dictionary.Describes file → Verdict file [] (.ok dictionary)
  | pass {check : Check} {checks : List Check} {result : Except Error Dictionary} :
      check.Passes file → Verdict file checks result → Verdict file (check :: checks) result
  | fail {check : Check} {checks : List Check} {error : Error} :
      ¬check.Passes file → check.Reports file error → Verdict file (check :: checks) (.error error)

namespace Verdict

variable {file : Bytes} {checks : List Check} {result : Except Error Dictionary}

theorem guard {check : Check} (hpass : check.Passes file → Verdict file checks result)
    (hfail : ¬check.Passes file → ∃ error, check.Reports file error ∧ result = .error error) :
    Verdict file (check :: checks) result := by
  by_cases h : check.Passes file
  · exact .pass h (hpass h)
  · obtain ⟨error, hreports, rfl⟩ := hfail h
    exact .fail h hreports

/-- A test that is made for a check. -/
theorem test {check : Check} {c : Prop} [Decidable c] {error : Error} (hc : c ↔ ¬check.Passes file)
    (hreports : check.Reports file error) (hpass : check.Passes file → Verdict file checks result) :
    Verdict file (check :: checks) (if c then .error error else result) := by
  refine .guard (fun h => ?_) (fun h => ⟨error, hreports, if_pos (hc.mpr h)⟩)
  rw [if_neg fun hfail => hc.mp hfail h]
  exact hpass h

theorem describes (h : Verdict file checks result) {dictionary : Dictionary}
    (hok : result = .ok dictionary) :
    dictionary.Describes file ∧ ∀ check ∈ checks, check.Passes file := by
  induction h with
  | accept hdescribes =>
    cases hok
    exact ⟨hdescribes, List.forall_mem_nil _⟩
  | pass hpass _ ih =>
    obtain ⟨hdescribes, hchecks⟩ := ih hok
    exact ⟨hdescribes, List.forall_mem_cons.mpr ⟨hpass, hchecks⟩⟩
  | fail => cases hok

theorem failsFirst (h : Verdict file checks result) {error : Error}
    (herror : result = .error error) :
    ∃ check : Check, check.Reports file error ∧ check.FailsFirst file checks := by
  induction h with
  | accept => cases herror
  | @pass first checks result hpass _ ih =>
    obtain ⟨check, hreports, before, after, rfl, hbefore, hfails⟩ := ih herror
    exact ⟨check, hreports, first :: before, after, rfl,
      List.forall_mem_cons.mpr ⟨hpass, hbefore⟩, hfails⟩
  | @fail first checks found hfails hreports =>
    cases herror
    exact ⟨first, hreports, [], checks, rfl, List.forall_mem_nil _, hfails⟩

theorem error_of_failsFirst (h : Verdict file checks result) {check : Check} {error : Error}
    (hfirst : check.FailsFirst file checks) (hreports : check.Reports file error) :
    result = .error error := by
  obtain ⟨before, after, hsplit, hbefore, hfails⟩ := hfirst
  induction h generalizing before with
  | accept =>
    have hne : before ++ check :: after ≠ [] := by simp
    exact absurd hsplit.symm hne
  | pass hpass _ ih =>
    cases before with
    | nil =>
      cases hsplit
      exact absurd hpass hfails
    | cons first before =>
      cases hsplit
      exact ih before rfl (List.forall_mem_cons.mp hbefore).2
  | fail hfail hfound =>
    cases before with
    | nil =>
      cases hsplit
      rw [hfound.unique hreports]
    | cons first before =>
      cases hsplit
      exact absurd (List.forall_mem_cons.mp hbefore).1 hfail

theorem ok_of_passes (h : Verdict file checks result)
    (hpass : ∀ check ∈ checks, check.Passes file) :
    ∃ dictionary, result = .ok dictionary := by
  cases hr : result with
  | ok dictionary => exact ⟨dictionary, rfl⟩
  | error error =>
    obtain ⟨check, -, before, after, rfl, -, hfails⟩ := h.failsFirst hr
    exact absurd (hpass check (by simp)) hfails

end Verdict

section records

variable {file : Bytes} {checks : List Check}

/-- A code is read if it is in range. -/
theorem Verdict.code {α : Type} [DecidableEq α] [Tagset α] [LawfulTagset α] {k : Nat}
    {kind : Attribute} (hcount : kind.valueCount = (Tagset.values (α := α)).length)
    {next : Option α → Except Error Dictionary}
    (h : ∀ v, Tagset.codeOf v = (codeAt file k kind).toNat → Verdict file checks (next v)) :
    Verdict file (.code k kind :: checks) (valueOfCode kind (codeAt file k kind) >>= next) := by
  rw [valueOfCode_eq, ← hcount]
  refine .guard (fun hpass => ?_) (fun hfail => ?_)
  · rw [if_neg (Nat.not_lt.mpr hpass)]
    exact h _ (codeOf_ofCode? (hcount ▸ hpass))
  · refine ⟨_, rfl, ?_⟩
    rw [if_pos (Nat.lt_of_not_le hfail)]
    rfl

variable {text : Text} (htext : encodeUtf8 text = textSection file)
  (hnul : textSection file = [] ∨ (textSection file).getLast? = some 0)

include htext hnul

/-- The checks of one record. -/
theorem Verdict.record {k : Nat} {next : Entry → Except Error Dictionary}
    (h : ∀ entry : Entry, entry.Describes file k → Verdict file checks (next entry)) :
    Verdict file (Check.ofRecord k ++ checks)
      (Record.entry (Std.HashMap.ofList (wordsOfText text)) (recordAt file k) >>= next) := by
  refine .guard (fun hbegins => ?_) (fun hfail => ?_)
  · have hends : encodeUtf8 text = [] ∨ (encodeUtf8 text).getLast? = some 0 := htext ▸ hnul
    have hbegins : BeginsWord (encodeUtf8 text) (offsetAt file k) := htext ▸ hbegins
    obtain ⟨word, hstands⟩ := exists_standsAt hends hbegins
    have hword : encodeUtf8 word = wordAt file k := by
      rw [wordAt, ← htext, hstands.takeWhile_drop]
    have hentry : Record.entry (Std.HashMap.ofList (wordsOfText text)) (recordAt file k) =
        (recordAt file k).codes.features >>= fun features =>
          .ok ⟨offsetAt file k, word, features⟩ := by
      rw [Record.entry, recordAt, getElem?_wordsOfText.mpr hstands]
      dsimp only
      cases Codes.features _ <;> rfl
    rw [hentry, bind_assoc, Codes.features]
    simp only [bind_assoc, pure_bind]
    refine .code rfl fun pos hpos => .code rfl fun number hnumber =>
      .code rfl fun gramCase hcase => ?_
    refine h _ ⟨rfl, hword, fun kind => ?_⟩
    cases kind with
    | pos => exact hpos
    | number => exact hnumber
    | gramCase => exact hcase
  · refine ⟨_, rfl, ?_⟩
    have hoff : ¬BeginsWord (encodeUtf8 text) (offsetAt file k) := htext ▸ hfail
    rw [Record.entry, recordAt, getElem?_wordsOfText_eq_none hoff]
    rfl

/-- The checks of records one after another; whatever follows them sees the entries of all. -/
theorem Verdict.records {ks : List Nat} {next : List Entry → Except Error Dictionary}
    (h : ∀ entries, List.Forall₂ (fun k (entry : Entry) => entry.Describes file k) ks entries →
      Verdict file checks (next entries)) :
    Verdict file (ks.flatMap Check.ofRecord ++ checks)
      ((ks.map (recordAt file)).mapM
        (Record.entry (Std.HashMap.ofList (wordsOfText text))) >>= next) := by
  induction ks generalizing next with
  | nil => exact h [] .nil
  | cons k ks ih =>
    rw [List.flatMap_cons, List.append_assoc, List.map_cons, List.mapM_cons]
    simp only [bind_assoc, pure_bind]
    exact .record htext hnul fun entry hentry =>
      ih fun entries hentries => h _ (.cons hentry hentries)

end records

theorem inOrder_iff {a b : Text} : inOrder a b = true ↔ ¬encodeUtf8 b < encodeUtf8 a := by
  rw [inOrder, Bool.not_eq_true', decide_eq_false_iff_not, encodeUtf8_lt]

theorem wordsAscend_iff {entries : List Entry} : wordsAscend entries = true ↔
    entries.IsChain fun a b => ¬encodeUtf8 b.word < encodeUtf8 a.word := by
  induction entries with
  | nil => simp [wordsAscend]
  | cons a rest ih =>
    cases rest with
    | nil => simp [wordsAscend]
    | cons b rest =>
      rw [wordsAscend, Bool.and_eq_true, inOrder_iff, ih, List.isChain_cons_cons]

namespace Dictionary

variable {file : Bytes}

theorem verdict_ofParts {text : Text} (htext : encodeUtf8 text = textSection file)
    (hnul : textSection file = [] ∨ (textSection file).getLast? = some 0) :
    Verdict file ((List.range (recordCount file)).flatMap Check.ofRecord ++ [.order])
      (ofParts text ((List.range (recordCount file)).map (recordAt file))) := by
  refine .records htext hnul fun entries hentries => ?_
  obtain ⟨hlength, hdescribes⟩ := List.forall₂_iff_get.mp hentries
  rw [List.length_range] at hlength
  have hentry : ∀ k (h : k < entries.length), entries[k].Describes file k := fun k h => by
    simpa using hdescribes k (by rw [List.length_range]; omega) h
  have horder : wordsAscend entries = true ↔ Check.Passes file .order := by
    rw [wordsAscend_iff, List.isChain_iff_getElem, Check.Passes, hlength]
    refine forall_congr' fun k => forall_congr' fun hk => ?_
    rw [(hentry k (by omega)).word, (hentry (k + 1) (by omega)).word]
  refine .guard (fun hpass => ?_) (fun hfail => ⟨_, rfl, ?_⟩)
  · rw [if_pos (horder.mpr hpass)]
    exact .accept ⟨htext, hlength.symm, hentry⟩
  · rw [if_neg fun h => hfail (horder.mp h)]
    rfl

/-- The header is read by the positions of its numbers. -/
theorem ofBytes_eq (file : Bytes) : ofBytes file =
    if file.length < headerSize then .error (.truncated .header headerSize file.length)
    else if numberAt file 0 ≠ magicNumber then .error (.badMagic (numberAt file 0))
    else
      let body := file.drop headerSize
      if body.length < textSize file then .error (.truncated .text (textSize file) body.length)
      else
        let table := body.drop (textSize file)
        if table.length < tableSize file then
          .error (.truncated .entries (tableSize file) table.length)
        else if tableSize file % entrySize ≠ 0 then
          .error (.database (.unevenEntries (tableSize file)))
        else
          match decodeUtf8 (textSection file) with
          | .error fault => .error (.notUtf8 fault)
          | .ok text =>
            if text.getLast?.any (· ≠ '\x00') then .error (.database .unterminatedText)
            else ofParts text (Record.decodeAll (tableSection file)) := by
  rw [ofBytes, header_decode]
  rfl

/-- Reading a file makes all checks in their order. -/
theorem verdict_ofBytes (file : Bytes) : Verdict file (Check.all file) (ofBytes file) := by
  have hbody : (file.drop headerSize).length = file.length - headerSize := List.length_drop
  have htable : ((file.drop headerSize).drop (textSize file)).length =
      file.length - headerSize - textSize file := by
    rw [List.length_drop, hbody]
  rw [ofBytes_eq]
  dsimp only
  rw [hbody, htable]
  refine .test Nat.not_le.symm rfl fun (hheader : headerSize ≤ file.length) => ?_
  refine .test Iff.rfl rfl fun _ => ?_
  refine .test (by rw [Check.Passes]; omega) rfl
    fun (htext : headerSize + textSize file ≤ file.length) => ?_
  refine .test (by rw [Check.Passes]; omega) rfl
    fun (hentries : headerSize + textSize file + tableSize file ≤ file.length) => ?_
  refine .test (not_congr Nat.dvd_iff_mod_eq_zero.symm) rfl
    fun (hwhole : entrySize ∣ tableSize file) => ?_
  rw [decodeAll_tableSection hentries hwhole]
  refine .guard ?_ (fun hfail => ?_)
  · rintro ⟨text, hdecodes⟩
    have hnul : text.getLast?.any (· ≠ '\x00') = true ↔ ¬Check.Passes file .finalNul := by
      rw [Check.Passes, ← hdecodes, getLast?_any_iff]
    rw [decodeUtf8_eq_ok.mpr hdecodes]
    exact .test hnul rfl (verdict_ofParts hdecodes)
  · cases hd : decodeUtf8 (textSection file) with
    | ok text => exact absurd ⟨text, decodeUtf8_eq_ok.mp hd⟩ hfail
    | error fault => exact ⟨_, ⟨fault, hd, rfl⟩, rfl⟩

end Dictionary

end Concord
