import Concord.Proofs.Checks

namespace Concord

open Layout

/-- The text is empty or ends with a NUL, every word stands in it at its offset, and the words
ascend. -/
structure Dictionary.Stored (dictionary : Dictionary) : Prop where
  ends : encodeUtf8 dictionary.text = [] ∨ (encodeUtf8 dictionary.text).getLast? = some 0
  stands (entry : Entry) : entry ∈ dictionary.toList →
    StandsAt dictionary.text entry.offset entry.word
  ascend : wordsAscend dictionary.toList = true

def Entry.record (entry : Entry) : Record :=
  .ofFeatures entry.offset entry.features

section written

variable {n : Nat}

theorem numberAt_toLittleEndian (h : n < sizeBound) (rest : Bytes) :
    numberAt (toLittleEndian 4 n ++ rest) 0 = n := by
  have hlength := length_toLittleEndian 4 n
  rw [← littleEndian_take, List.take_left' hlength, littleEndian_toLittleEndian h]

variable {header : Header} (hmagic : header.magic < sizeBound)
  (htext : header.textBytes < sizeBound) (htable : header.entryBytes < sizeBound) (rest : Bytes)

theorem Header.length_encode : header.encode.length = headerSize := by
  rw [Header.encode]
  simp only [List.length_append, length_toLittleEndian]
  rfl

theorem Header.encode_append : header.encode ++ rest = toLittleEndian 4 header.magic ++
    (toLittleEndian 4 header.textBytes ++ (toLittleEndian 4 header.entryBytes ++
      ([0, 0, 0, 0] ++ rest))) := by
  simp only [Header.encode, List.append_assoc]

include hmagic in
theorem numberAt_header : numberAt (header.encode ++ rest) 0 = header.magic := by
  rw [Header.encode_append, numberAt_toLittleEndian hmagic]

include htext in
theorem textSize_header : textSize (header.encode ++ rest) = header.textBytes := by
  have hdrop : numberAt ((header.encode ++ rest).drop 4) 0 = textSize (header.encode ++ rest) :=
    numberAt_drop 4 0
  rw [← hdrop, Header.encode_append, List.drop_left' (length_toLittleEndian 4 _),
    numberAt_toLittleEndian htext]

include htable in
theorem tableSize_header : tableSize (header.encode ++ rest) = header.entryBytes := by
  have hdrop : numberAt (((header.encode ++ rest).drop 4).drop 4) 0 =
      tableSize (header.encode ++ rest) := by
    rw [List.drop_drop, numberAt_drop]
    rfl
  rw [← hdrop, Header.encode_append, List.drop_left' (length_toLittleEndian 4 _),
    List.drop_left' (length_toLittleEndian 4 _), numberAt_toLittleEndian htable]

end written

namespace Dictionary

variable {dictionary : Dictionary} {bytes : Bytes}

theorem payload_eq (dictionary : Dictionary) : dictionary.payload =
    encodeUtf8 dictionary.text ++ (dictionary.toList.map Entry.record).flatMap Record.encode := by
  rw [payload, List.flatMap_map]
  rfl

theorem length_flatMap_record (dictionary : Dictionary) :
    ((dictionary.toList.map Entry.record).flatMap Record.encode).length =
      dictionary.size * entrySize := by
  rw [Record.length_flatMap_encode, List.length_map]
  rfl

theorem take_payload (dictionary : Dictionary) :
    dictionary.payload.take (utf8Length dictionary.text) = encodeUtf8 dictionary.text := by
  rw [payload_eq, List.take_left' (length_encodeUtf8 _)]

theorem drop_payload (dictionary : Dictionary) :
    dictionary.payload.drop (utf8Length dictionary.text) =
      (dictionary.toList.map Entry.record).flatMap Record.encode := by
  rw [payload_eq, List.drop_left' (length_encodeUtf8 _)]

theorem length_payload (dictionary : Dictionary) :
    dictionary.payload.length = utf8Length dictionary.text + dictionary.size * entrySize := by
  rw [payload_eq, List.length_append, length_encodeUtf8, length_flatMap_record]

theorem toBytes_eq_ok : dictionary.toBytes = .ok bytes ↔
    (utf8Length dictionary.text < sizeBound ∧ dictionary.size * entrySize < sizeBound) ∧
      (Header.ofSizes (utf8Length dictionary.text) (dictionary.size * entrySize)).encode
        ++ dictionary.payload = bytes := by
  have hfits : (decide (utf8Length dictionary.text < sizeBound) &&
      decide (dictionary.size * entrySize < sizeBound)) = true ↔
        utf8Length dictionary.text < sizeBound ∧ dictionary.size * entrySize < sizeBound := by
    rw [Bool.and_eq_true, decide_eq_true_eq, decide_eq_true_eq]
  rw [toBytes, header, ← hfits]
  by_cases h : (decide (utf8Length dictionary.text < sizeBound) &&
      decide (dictionary.size * entrySize < sizeBound)) = true
  · rw [if_pos h]
    exact ⟨fun hok => ⟨h, Except.ok.inj hok⟩, fun hok => congrArg Except.ok hok.2⟩
  · rw [if_neg h]
    exact ⟨fun hok => (by cases hok), fun hok => absurd hok.1 h⟩

/-- The sections of a file stand in its header. -/
theorem sections_of_toBytes (h : dictionary.toBytes = .ok bytes) :
    numberAt bytes 0 = magicNumber ∧ textSize bytes = utf8Length dictionary.text ∧
      tableSize bytes = dictionary.size * entrySize ∧
      bytes.length = headerSize + textSize bytes + tableSize bytes := by
  obtain ⟨⟨htext, htable⟩, rfl⟩ := toBytes_eq_ok.mp h
  let header := Header.ofSizes (utf8Length dictionary.text) (dictionary.size * entrySize)
  have htextSize : textSize (header.encode ++ dictionary.payload) = utf8Length dictionary.text :=
    textSize_header htext dictionary.payload
  have htableSize : tableSize (header.encode ++ dictionary.payload) =
      dictionary.size * entrySize := tableSize_header htable dictionary.payload
  refine ⟨numberAt_header (show magicNumber < sizeBound by decide) _, htextSize, htableSize, ?_⟩
  rw [htextSize, htableSize, List.length_append, Header.length_encode, length_payload,
    Nat.add_assoc]

/-- What is read back is put together from the text and the records that were written. -/
theorem ofBytes_of_toBytes (hwrite : dictionary.toBytes = .ok bytes)
    (hends : encodeUtf8 dictionary.text = [] ∨ (encodeUtf8 dictionary.text).getLast? = some 0)
    (hoffset : ∀ entry ∈ dictionary.toList, entry.offset < sizeBound) :
    ofBytes bytes = ofParts dictionary.text (dictionary.toList.map Entry.record) := by
  obtain ⟨hmagic, htextSize, htableSize, hlength⟩ := sections_of_toBytes hwrite
  rw [htextSize, htableSize] at hlength
  obtain ⟨-, rfl⟩ := toBytes_eq_ok.mp hwrite
  let header := Header.ofSizes (utf8Length dictionary.text) (dictionary.size * entrySize)
  let records := dictionary.toList.map Entry.record
  have hrest : (header.encode ++ dictionary.payload).drop headerSize = dictionary.payload :=
    List.drop_left' Header.length_encode
  have htableLength : (records.flatMap Record.encode).length = dictionary.size * entrySize :=
    length_flatMap_record dictionary
  have hpayload := length_payload dictionary
  have hdecode : decodeUtf8 (encodeUtf8 dictionary.text) = .ok dictionary.text :=
    decodeUtf8_eq_ok.mpr rfl
  have hrecords : Record.decodeAll (records.flatMap Record.encode) = records := by
    refine Record.decodeAll_encode fun record hrecord => ?_
    obtain ⟨entry, hentry, rfl⟩ := List.mem_map.mp hrecord
    exact hoffset entry hentry
  change ofBytes (header.encode ++ dictionary.payload) = ofParts dictionary.text records
  rw [ofBytes_eq, hmagic, textSection, tableSection, htextSize, htableSize, hrest, hlength,
    take_payload, drop_payload]
  dsimp only
  rw [drop_payload, hpayload, htableLength, if_neg (by omega), if_neg (by simp), if_neg (by omega),
    if_neg (by omega), if_neg (by simp), hdecode]
  dsimp only
  rw [if_neg (fun h => getLast?_any_iff.mp h hends),
    List.take_of_length_le (Nat.le_of_eq htableLength), hrecords]

theorem Stored.offset_lt (h : dictionary.Stored) (hwrite : dictionary.toBytes = .ok bytes)
    {entry : Entry} (hentry : entry ∈ dictionary.toList) : entry.offset < sizeBound := by
  have hlt := (h.stands entry hentry).beginsWord.1
  have htext := (toBytes_eq_ok.mp hwrite).1.1
  rw [length_encodeUtf8] at hlt
  omega

theorem Stored.ofParts (h : dictionary.Stored) :
    ofParts dictionary.text (dictionary.toList.map Entry.record) = .ok dictionary := by
  have hentries : (dictionary.toList.map Entry.record).mapM
      (Record.entry (Std.HashMap.ofList (wordsOfText dictionary.text))) =
        .ok dictionary.toList := by
    rw [mapM_eq_ok, List.forall₂_map_left_iff, List.forall₂_same]
    intro entry hentry
    rw [Record.entry, Entry.record, Record.ofFeatures,
      getElem?_wordsOfText.mpr (h.stands entry hentry)]
    dsimp only
    rw [Codes.features_ofFeatures]
  rw [Dictionary.ofParts, hentries]
  dsimp only [bind, Except.bind]
  rw [if_pos h.ascend]
  rfl

/-- What a file can hold is read back as it was written. -/
theorem Stored.ofBytes (h : dictionary.Stored) (hwrite : dictionary.toBytes = .ok bytes) :
    ofBytes bytes = .ok dictionary := by
  rw [ofBytes_of_toBytes hwrite h.ends fun entry hentry => h.offset_lt hwrite hentry, h.ofParts]

/-- What is read from a file is what a file can hold. -/
theorem stored_of_ofBytes (h : Dictionary.ofBytes bytes = .ok dictionary) : dictionary.Stored := by
  obtain ⟨hdescribes, hchecks⟩ := (verdict_ofBytes bytes).describes h
  have hends : Check.Passes bytes .finalNul := hchecks _ (by simp [Check.all])
  have horder : Check.Passes bytes .order := hchecks _ (by simp [Check.all])
  have hoffset : ∀ k < recordCount bytes, Check.Passes bytes (.offset k) := fun k hk =>
    hchecks _ (by simp [Check.all, Check.ofRecord, hk])
  have hsize : dictionary.toList.length = recordCount bytes := hdescribes.size
  have hentry : ∀ k (hk : k < dictionary.toList.length),
      dictionary.toList[k].Describes bytes k := hdescribes.entry
  rw [Check.Passes, ← hdescribes.text] at hends
  refine ⟨hends, fun entry hmem => ?_, ?_⟩
  · obtain ⟨k, hk, rfl⟩ := List.mem_iff_getElem.mp hmem
    have hbegins := hoffset k (hsize ▸ hk)
    rw [Check.Passes, ← hdescribes.text, ← (hentry k hk).offset] at hbegins
    obtain ⟨word, hstands⟩ := exists_standsAt hends hbegins
    have hbytes := hstands.takeWhile_drop
    rw [hdescribes.text, (hentry k hk).offset] at hbytes
    have hword : word = dictionary.toList[k].word :=
      encodeUtf8_inj.mp (hbytes.symm.trans (hentry k hk).word.symm)
    exact hword ▸ hstands
  · rw [wordsAscend_iff, List.isChain_iff_getElem]
    intro k hk
    rw [(hentry k (by omega)).word, (hentry (k + 1) hk).word]
    exact horder k (by omega)

end Dictionary

end Concord
