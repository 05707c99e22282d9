import Concord.Proofs.Checks

namespace Concord

open Layout

/-- A computation that may fail and that may use a bad index. Nothing comes of a bad index, not even
a failure. -/
abbrev Indexed := ExceptT Error Option

namespace Indexed

/-- A computation that uses no bad index. -/
def sure {α : Type} (x : Except Error α) : Indexed α :=
  some x

/-- The bytes from an index on. -/
def bytesFrom (bytes : Bytes) (i : Nat) : Indexed Bytes :=
  if i ≤ bytes.length then pure (bytes.drop i) else none

def byteAt (bytes : Bytes) (i : Nat) : Indexed UInt8 :=
  match bytes[i]? with
  | some byte => pure byte
  | none => none

def numberAt (bytes : Bytes) (i : Nat) : Indexed Nat := do
  let b0 ← byteAt bytes i
  let b1 ← byteAt bytes (i + 1)
  let b2 ← byteAt bytes (i + 2)
  let b3 ← byteAt bytes (i + 3)
  return littleEndian [b0, b1, b2, b3]

/-- The text from a byte position on, which must be the position of a character or the end. -/
def textFrom : Text → Nat → Indexed Text
  | text, 0 => pure text
  | [], _ + 1 => none
  | c :: rest, i + 1 =>
    if c.utf8Size ≤ i + 1 then textFrom rest (i + 1 - c.utf8Size) else none

/-- The text up to a byte position, which must be the position of a character or the end. -/
def textUpTo : Text → Nat → Indexed Text
  | _, 0 => pure []
  | [], _ + 1 => none
  | c :: rest, i + 1 =>
    if c.utf8Size ≤ i + 1 then do
      let front ← textUpTo rest (i + 1 - c.utf8Size)
      return c :: front
    else none

/-- The byte position of the first NUL. -/
def firstNul? : Text → Option Nat
  | [] => none
  | c :: rest => if c = '\x00' then some 0 else (firstNul? rest).map (c.utf8Size + ·)

/-- The length in bytes of the word at an offset, if a word begins there. -/
def wordLength? (text : Text) (offset : Nat) : Indexed (Option Nat) := do
  if utf8Length text ≤ offset then
    return none
  else if offset = 0 then
    return firstNul? (← textFrom text offset)
  else
    let before ← byteAt (encodeUtf8 text) (offset - 1)
    if before ≠ 0 then
      return none
    else
      return firstNul? (← textFrom text offset)

/-- The entry that eight bytes describe. -/
def entry (text : Text) (chunk : Bytes) : Indexed Entry := do
  let offset ← numberAt chunk 0
  let pos ← byteAt chunk 4
  let number ← byteAt chunk 5
  let gramCase ← byteAt chunk 6
  match ← wordLength? text offset with
  | none => throw (.database (.offsetOffWord offset))
  | some length =>
    let features ← sure (Codes.features ⟨pos, number, gramCase⟩)
    let word ← textUpTo (← textFrom text offset) length
    return ⟨offset, word, features⟩

/-- The chunks of eight bytes; what is left at the end is not looked at. -/
def chunks (table : Bytes) : List Bytes :=
  (List.range (table.length / entrySize)).map fun k => (table.drop (entrySize * k)).take entrySize

/-- Reads a dictionary file. -/
def ofBytes (file : Bytes) : Indexed Dictionary := do
  if file.length < headerSize then
    throw (.truncated .header headerSize file.length)
  else
    let head := file.take headerSize
    let magic ← numberAt head 0
    let textSize ← numberAt head 4
    let tableSize ← numberAt head 8
    if magic ≠ magicNumber then
      throw (.badMagic magic)
    else
      let body ← bytesFrom file headerSize
      if body.length < textSize then
        throw (.truncated .text textSize body.length)
      else
        let table ← bytesFrom body textSize
        if table.length < tableSize then
          throw (.truncated .entries tableSize table.length)
        else if tableSize % entrySize ≠ 0 then
          throw (.database (.unevenEntries tableSize))
        else
          match decodeUtf8 (body.take textSize) with
          | .error fault => throw (.notUtf8 fault)
          | .ok text =>
            if text.getLast?.any (· ≠ '\x00') then
              throw (.database .unterminatedText)
            else
              let entries ← (chunks (table.take tableSize)).mapM (entry text)
              if wordsAscend entries then
                return ⟨text, entries.toArray⟩
              else
                throw (.database .unsortedEntries)

theorem sure_bind {α β : Type} (x : Except Error α) (f : α → Except Error β) :
    sure x >>= (fun a => sure (f a)) = sure (x >>= f) := by
  cases x <;> rfl

theorem mapM_eq_sure {α β : Type} {f : α → Indexed β} {g : α → Except Error β} {xs : List α}
    (h : ∀ x ∈ xs, f x = sure (g x)) : xs.mapM f = sure (xs.mapM g) := by
  induction xs with
  | nil => rfl
  | cons x xs ih =>
    obtain ⟨hx, hxs⟩ := List.forall_mem_cons.mp h
    rw [List.mapM_cons, List.mapM_cons, hx, ih hxs, ← sure_bind]
    congr 1
    funext a
    rw [← sure_bind]
    rfl

theorem byteAt_eq {bytes : Bytes} {i : Nat} (h : i < bytes.length) :
    byteAt bytes i = pure (Layout.byteAt bytes i) := by
  rw [byteAt, Layout.byteAt, List.getD_eq_getElem?_getD, List.getElem?_eq_getElem h]
  rfl

theorem numberAt_eq {bytes : Bytes} {i : Nat} (h : i + 4 ≤ bytes.length) :
    numberAt bytes i = pure (Layout.numberAt bytes i) := by
  rw [numberAt, byteAt_eq (by omega), byteAt_eq (by omega), byteAt_eq (by omega),
    byteAt_eq (by omega)]
  simp only [pure_bind]
  congr 1
  simp only [littleEndian, Layout.numberAt]
  omega

theorem bytesFrom_eq {bytes : Bytes} {i : Nat} (h : i ≤ bytes.length) :
    bytesFrom bytes i = pure (bytes.drop i) :=
  if_pos h

theorem exists_utf8Length_cons (c : Char) (text : Text) : ∃ i, utf8Length (c :: text) = i + 1 ∧
    c.utf8Size ≤ i + 1 ∧ i + 1 - c.utf8Size = utf8Length text := by
  have hpos := c.utf8Size_pos
  obtain ⟨i, hi⟩ : ∃ i, utf8Length (c :: text) = i + 1 :=
    Nat.exists_eq_succ_of_ne_zero (by rw [utf8Length]; omega)
  refine ⟨i, hi, ?_⟩
  rw [utf8Length] at hi
  omega

theorem textFrom_eq (before after : Text) :
    textFrom (before ++ after) (utf8Length before) = pure after := by
  induction before with
  | nil => cases after <;> rfl
  | cons c before ih =>
    obtain ⟨i, hi, hle, hrest⟩ := exists_utf8Length_cons c before
    rw [hi, List.cons_append, textFrom, if_pos hle, hrest, ih]

theorem textUpTo_eq (before after : Text) :
    textUpTo (before ++ after) (utf8Length before) = pure before := by
  induction before with
  | nil => cases after <;> rfl
  | cons c before ih =>
    obtain ⟨i, hi, hle, hrest⟩ := exists_utf8Length_cons c before
    rw [hi, List.cons_append, textUpTo, if_pos hle, hrest, ih]
    rfl

theorem firstNul?_eq {word : Text} (h : '\x00' ∉ word) (after : Text) :
    firstNul? (word ++ '\x00' :: after) = some (utf8Length word) := by
  induction word with
  | nil => rfl
  | cons c word ih =>
    rw [List.mem_cons, not_or] at h
    rw [List.cons_append, firstNul?, if_neg (Ne.symm h.1), ih h.2]
    rfl

variable {text : Text} {offset : Nat}

theorem wordLength?_of_standsAt {word : Text} (h : StandsAt text offset word) :
    wordLength? text offset = pure (some (utf8Length word)) ∧
      (textFrom text offset >>= fun rest => textUpTo rest (utf8Length word)) = pure word := by
  obtain ⟨hlt, hzero⟩ := h.beginsWord
  rw [length_encodeUtf8] at hlt
  obtain ⟨before, after, rfl, rfl, hword, -⟩ := h
  have hfrom : textFrom (before ++ word ++ '\x00' :: after) (utf8Length before) =
      pure (word ++ '\x00' :: after) := by
    rw [List.append_assoc, textFrom_eq]
  constructor
  · rw [wordLength?, if_neg (Nat.not_le.mpr hlt), hfrom]
    by_cases h0 : utf8Length before = 0
    · rw [if_pos h0, pure_bind, firstNul?_eq hword]
    · have hbefore : byteAt (encodeUtf8 (before ++ word ++ '\x00' :: after))
          (utf8Length before - 1) = pure 0 := by
        rw [byteAt, hzero.resolve_left h0]
      rw [if_neg h0, hbefore, pure_bind, if_neg (not_not.mpr rfl), pure_bind, firstNul?_eq hword]
  · rw [hfrom, pure_bind, textUpTo_eq]

theorem wordLength?_of_not_beginsWord (h : ¬BeginsWord (encodeUtf8 text) offset) :
    wordLength? text offset = pure none := by
  have hlength := length_encodeUtf8 text
  rw [wordLength?]
  by_cases hle : utf8Length text ≤ offset
  · rw [if_pos hle]
  · have h0 : offset ≠ 0 := by
      rintro rfl
      exact h ⟨by omega, .inl rfl⟩
    have hlt : offset - 1 < (encodeUtf8 text).length := by omega
    have hbyte : Layout.byteAt (encodeUtf8 text) (offset - 1) ≠ 0 := by
      intro hzero
      rw [Layout.byteAt, List.getD_eq_getElem?_getD, List.getElem?_eq_getElem hlt] at hzero
      exact h ⟨by omega, .inr (by rw [List.getElem?_eq_getElem hlt]; exact congrArg some hzero)⟩
    rw [if_neg hle, if_neg h0, byteAt_eq hlt, pure_bind, if_pos hbyte]

/-- Reading a record uses no bad index. -/
theorem entry_eq {chunk : Bytes} (hchunk : chunk.length = entrySize)
    (hnul : encodeUtf8 text = [] ∨ (encodeUtf8 text).getLast? = some 0) :
    entry text chunk = sure (Record.entry (Std.HashMap.ofList (wordsOfText text))
      ⟨Layout.numberAt chunk 0, Layout.byteAt chunk 4, Layout.byteAt chunk 5,
        Layout.byteAt chunk 6⟩) := by
  rw [entrySize] at hchunk
  rw [entry, numberAt_eq (by omega), byteAt_eq (by omega), byteAt_eq (by omega),
    byteAt_eq (by omega), Record.entry]
  simp only [pure_bind]
  by_cases hbegins : BeginsWord (encodeUtf8 text) (Layout.numberAt chunk 0)
  · obtain ⟨word, hstands⟩ := exists_standsAt hnul hbegins
    obtain ⟨hlength, hslice⟩ := wordLength?_of_standsAt hstands
    rw [hlength, getElem?_wordsOfText.mpr hstands, pure_bind]
    dsimp only
    cases hf : Codes.features _ with
    | error fault => rfl
    | ok features =>
      have hsure : sure (.ok features) = (pure features : Indexed Features) := rfl
      rw [hsure, pure_bind, ← bind_assoc, hslice]
      rfl
  · rw [wordLength?_of_not_beginsWord hbegins, getElem?_wordsOfText_eq_none hbegins]
    rfl

theorem length_of_mem_chunks {table chunk : Bytes} (h : chunk ∈ chunks table) :
    chunk.length = entrySize := by
  obtain ⟨k, hk, rfl⟩ := List.mem_map.mp h
  have hlt := List.mem_range.mp hk
  have hle := Nat.mul_le_of_le_div _ _ _ (Nat.succ_le_of_lt hlt)
  rw [List.length_take, List.length_drop]
  rw [entrySize] at *
  omega

/-- Reading the records of a table uses no bad index. -/
theorem mapM_entry {table : Bytes} (hwhole : entrySize ∣ table.length)
    (hnul : encodeUtf8 text = [] ∨ (encodeUtf8 text).getLast? = some 0) :
    (chunks table).mapM (entry text) = sure ((Record.decodeAll table).mapM
      (Record.entry (Std.HashMap.ofList (wordsOfText text)))) := by
  have hrecords : Record.decodeAll table = (chunks table).map fun chunk =>
      ⟨Layout.numberAt chunk 0, Layout.byteAt chunk 4, Layout.byteAt chunk 5,
        Layout.byteAt chunk 6⟩ := by
    rw [decodeAll_eq_map (Nat.mul_div_cancel' hwhole).symm, chunks, List.map_map]
    refine List.map_congr_left fun k _ => ?_
    rw [Function.comp_apply, numberAt_take (by decide), byteAt_take (by decide),
      byteAt_take (by decide), byteAt_take (by decide)]
    simp only [numberAt_drop, byteAt_drop, Nat.add_zero]
  rw [hrecords, List.mapM_map]
  exact mapM_eq_sure fun chunk hchunk => entry_eq (length_of_mem_chunks hchunk) hnul

theorem test {α : Type} {c : Prop} [Decidable c] {error : Error} {x : Indexed α}
    {y : Except Error α} (h : ¬c → x = sure y) :
    (if c then throw error else x) = sure (if c then .error error else y) := by
  by_cases hc : c
  · rw [if_pos hc, if_pos hc]
    rfl
  · rw [if_neg hc, if_neg hc]
    exact h hc

/-- Reading a file uses no bad index. -/
theorem ofBytes_eq_sure (file : Bytes) : ofBytes file = sure (Dictionary.ofBytes file) := by
  rw [ofBytes, Dictionary.ofBytes_eq]
  refine test fun hheader => ?_
  have hhead : (file.take headerSize).length = headerSize := by
    rw [List.length_take]
    omega
  have hnumber : ∀ i, i + 4 ≤ headerSize →
      numberAt (file.take headerSize) i = pure (Layout.numberAt file i) := fun i hi => by
    rw [numberAt_eq (by omega), numberAt_take hi]
  have htextSize : numberAt (file.take headerSize) 4 = pure (textSize file) :=
    hnumber 4 (by decide)
  have htableSize : numberAt (file.take headerSize) 8 = pure (tableSize file) :=
    hnumber 8 (by decide)
  dsimp only
  rw [hnumber 0 (by decide), htextSize, htableSize, bytesFrom_eq (by omega)]
  simp only [pure_bind]
  refine test fun _ => test fun htext => ?_
  rw [bytesFrom_eq (Nat.not_lt.mp htext), pure_bind]
  refine test fun hentries => test fun hwhole => ?_
  have htable : entrySize ∣ (tableSection file).length := by
    rw [tableSection, List.length_take, Nat.min_eq_left (Nat.not_lt.mp hentries)]
    exact Nat.dvd_of_mod_eq_zero (not_not.mp hwhole)
  change (match decodeUtf8 (textSection file) with | .error _ => _ | .ok _ => _) = _
  cases hdecodes : decodeUtf8 (textSection file) with
  | error fault => rfl
  | ok text =>
    refine test fun hnul => ?_
    have hmap := mapM_entry htable (not_not.mp (mt getLast?_any_iff.mpr hnul))
    rw [tableSection] at hmap
    rw [hmap, Dictionary.ofParts, ← tableSection, ← sure_bind]
    congr 1
    funext entries
    by_cases hascend : wordsAscend entries = true
    · rw [if_pos hascend, if_pos hascend]
      rfl
    · rw [if_neg hascend, if_neg hascend]
      rfl

end Indexed

/-- A file is read if and only if it passes all checks, and then the dictionary is the one that the
file describes. Otherwise the error is that of the first check to fail. No bad index is used. -/
theorem Dictionary.ofBytes_checks (file : Bytes) :
    ((∃ dictionary, ofBytes file = .ok dictionary) ↔
      ∀ check ∈ Check.all file, check.Passes file) ∧
    (∀ dictionary, ofBytes file = .ok dictionary → dictionary.Describes file) ∧
    (∀ error, ofBytes file = .error error ↔ ∃ check : Check,
      check.FailsFirst file (Check.all file) ∧ check.Reports file error) ∧
    (Indexed.ofBytes file).run = some (ofBytes file) := by
  have hverdict := verdict_ofBytes file
  refine ⟨⟨?_, hverdict.ok_of_passes⟩, fun dictionary hok => (hverdict.describes hok).1,
    fun error => ⟨fun herror => ?_, ?_⟩, Indexed.ofBytes_eq_sure file⟩
  · rintro ⟨dictionary, hok⟩
    exact (hverdict.describes hok).2
  · obtain ⟨check, hreports, hfirst⟩ := hverdict.failsFirst herror
    exact ⟨check, hfirst, hreports⟩
  · rintro ⟨check, hfirst, hreports⟩
    exact hverdict.error_of_failsFirst hfirst hreports

end Concord
