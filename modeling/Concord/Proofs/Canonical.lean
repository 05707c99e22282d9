import Concord.Proofs.Stored

namespace Concord

namespace Layout

/-- The last four bytes of the header and the last byte of each record. -/
def IsReserved (file : Bytes) (i : Nat) : Prop :=
  (12 ≤ i ∧ i < headerSize) ∨ ∃ k < recordCount file, i = recordStart file k + 7

instance (file : Bytes) : DecidablePred (IsReserved file) :=
  fun i => inferInstanceAs (Decidable ((12 ≤ i ∧ i < headerSize) ∨
    ∃ k < recordCount file, i = recordStart file k + 7))

/-- Header, text and records of a file, with zeros in the reserved bytes. -/
def canonical (file : Bytes) : Bytes :=
  (file.take (headerSize + textSize file + tableSize file)).mapIdx fun i byte =>
    if IsReserved file i then 0 else byte

end Layout

open Layout

theorem mapIdx_eq_self {α : Type} {xs : List α} {f : Nat → α → α}
    (h : ∀ i x, i < xs.length → f i x = x) : xs.mapIdx f = xs := by
  refine List.ext_getElem List.length_mapIdx fun i hi hx => ?_
  rw [List.getElem_mapIdx, h i _ hx]

/-- The records of a table, written again. -/
theorem flatMap_encode_decodeAll {table : Bytes} {n : Nat} (h : table.length = entrySize * n) :
    (Record.decodeAll table).flatMap Record.encode =
      table.mapIdx fun i byte => if i % entrySize = 7 then 0 else byte := by
  induction n generalizing table with
  | zero =>
    rw [List.length_eq_zero_iff.mp h]
    rfl
  | succ n ih =>
    have hlength : table.length = entrySize * n + 8 := h
    match table with
    | b0 :: b1 :: b2 :: b3 :: pos :: number :: gramCase :: spare :: rest =>
      have hrest : rest.length = entrySize * n := by
        simp only [List.length_cons] at hlength
        omega
      have hoffset : toLittleEndian 4 (littleEndian [b0, b1, b2, b3]) = [b0, b1, b2, b3] :=
        toLittleEndian_littleEndian rfl
      rw [Record.decodeAll, List.flatMap_cons, ih hrest, Record.encode, hoffset]
      simp [List.mapIdx_cons, entrySize, Nat.add_assoc]
      rfl

variable {file : Bytes}

theorem not_isReserved_of_lt {i : Nat} (h : i < 12) : ¬IsReserved file i := by
  rintro (hheader | ⟨k, -, hrecord⟩)
  · omega
  · rw [recordStart, headerSize] at hrecord
    omega

theorem not_isReserved_text {i : Nat} (h : i < textSize file) :
    ¬IsReserved file (i + headerSize) := by
  rintro (hheader | ⟨k, -, hrecord⟩)
  · omega
  · rw [recordStart] at hrecord
    omega

theorem isReserved_iff {j : Nat} (h : j < entrySize * recordCount file) :
    IsReserved file (j + textSize file + headerSize) ↔ j % entrySize = 7 := by
  simp only [IsReserved, recordStart, headerSize, entrySize] at *
  constructor
  · rintro (hheader | ⟨k, -, hk⟩)
    · omega
    · omega
  · intro hlast
    exact .inr ⟨j / 8, by omega, by omega⟩

theorem toLittleEndian_numberAt {i : Nat} (h : i + 4 ≤ file.length) :
    toLittleEndian 4 (numberAt file i) = (file.drop i).take 4 := by
  have hlength : ((file.drop i).take 4).length = 4 := by
    rw [List.length_take, List.length_drop]
    omega
  have hnumber : littleEndian ((file.drop i).take 4) = numberAt file i := by
    rw [littleEndian_take, numberAt_drop, Nat.add_zero]
  rw [← hnumber, toLittleEndian_littleEndian hlength]

theorem numberAt_lt (i : Nat) : numberAt file i < sizeBound := by
  have h0 := (byteAt file i).toNat_lt
  have h1 := (byteAt file (i + 1)).toNat_lt
  have h2 := (byteAt file (i + 2)).toNat_lt
  have h3 := (byteAt file (i + 3)).toNat_lt
  have hbound : sizeBound = 0x100000000 := rfl
  rw [numberAt, hbound]
  omega

theorem Entry.Describes.record_eq {entry : Entry} {k : Nat} (h : entry.Describes file k) :
    entry.record = recordAt file k := by
  have hcode : ∀ kind, UInt8.ofNat (entry.features.code kind) = codeAt file k kind := fun kind => by
    rw [h.code, UInt8.ofNat_toNat]
  rw [Entry.record, Record.ofFeatures, recordAt, h.offset, ← hcode, ← hcode, ← hcode]
  rfl

theorem take_eq_sections (file : Bytes) : file.take (headerSize + textSize file + tableSize file) =
    file.take 12 ++ (file.drop 12).take 4 ++ (textSection file ++ tableSection file) := by
  rw [List.take_add, List.take_add, ← List.drop_drop, List.append_assoc]
  rw [show headerSize = 12 + 4 from rfl, List.take_add]
  rfl

section passed

variable (hmagic : numberAt file 0 = magicNumber)
  (hfit : headerSize + textSize file + tableSize file ≤ file.length)
  (hwhole : entrySize ∣ tableSize file)

include hmagic hfit in
/-- The header of a file, written again. -/
theorem encode_ofSizes : (Header.ofSizes (textSize file) (tableSize file)).encode =
    file.take 12 ++ [0, 0, 0, 0] := by
  have hheader : 16 ≤ file.length := Nat.le_trans (by rw [headerSize]; omega) hfit
  have hmagicBytes : toLittleEndian 4 magicNumber = (file.drop 0).take 4 := by
    rw [← hmagic, toLittleEndian_numberAt (by omega)]
  have htextBytes : toLittleEndian 4 (textSize file) = (file.drop 4).take 4 :=
    toLittleEndian_numberAt (by omega)
  have htableBytes : toLittleEndian 4 (tableSize file) = (file.drop 8).take 4 :=
    toLittleEndian_numberAt (by omega)
  have htake : file.take 12 =
      (file.drop 0).take 4 ++ (file.drop 4).take 4 ++ (file.drop 8).take 4 := by
    rw [show 12 = 4 + 4 + 4 from rfl, List.take_add, List.take_add, List.drop_zero]
  rw [htake, ← hmagicBytes, ← htextBytes, ← htableBytes]
  rfl

include hfit hwhole in
/-- The records of a file, written again. -/
theorem mapIdx_tableSection :
    ((tableSection file).mapIdx fun i byte =>
      if IsReserved file (i + textSize file + headerSize) then 0 else byte) =
      ((List.range (recordCount file)).map (recordAt file)).flatMap Record.encode := by
  have hlength : (tableSection file).length = entrySize * recordCount file :=
    (length_tableSection hfit).trans (Nat.mul_div_cancel' hwhole).symm
  rw [← decodeAll_tableSection hfit hwhole, flatMap_encode_decodeAll hlength]
  refine List.ext_getElem (by simp) fun i hi _ => ?_
  rw [List.length_mapIdx, hlength] at hi
  simp only [List.getElem_mapIdx, isReserved_iff hi]

include hfit hwhole in
theorem canonical_eq : canonical file = file.take 12 ++ [0, 0, 0, 0] ++ (textSection file ++
    ((List.range (recordCount file)).map (recordAt file)).flatMap Record.encode) := by
  let spare := (file.drop 12).take 4
  let f := fun i byte => if IsReserved file i then (0 : UInt8) else byte
  have hheader : 16 ≤ file.length := Nat.le_trans (by rw [headerSize]; omega) hfit
  have hhead : (file.take 12).length = 12 := by
    rw [List.length_take]
    omega
  have hspare : spare.length = 4 := by
    rw [List.length_take, List.length_drop]
    omega
  have hlength : (file.take 12 ++ spare).length = headerSize := by
    rw [List.length_append, hhead, hspare, headerSize]
  have hheadKept : (file.take 12).mapIdx f = file.take 12 :=
    mapIdx_eq_self fun i byte hi => if_neg (not_isReserved_of_lt (hhead ▸ hi))
  have hspareZero : spare.mapIdx (fun i => f (i + 12)) = List.replicate spare.length 0 := by
    refine List.mapIdx_eq_replicate_iff.mpr fun i hi => if_pos (.inl ?_)
    rw [headerSize]
    omega
  have htextKept : (textSection file).mapIdx (fun i => f (i + headerSize)) = textSection file :=
    mapIdx_eq_self fun i byte hi =>
      if_neg (not_isReserved_text (length_textSection hfit ▸ hi))
  rw [hspare] at hspareZero
  rw [← mapIdx_tableSection hfit hwhole, canonical, take_eq_sections, List.mapIdx_append,
    List.mapIdx_append, List.mapIdx_append, hlength, hhead, length_textSection hfit, hheadKept,
    hspareZero, htextKept]
  rfl

end passed

namespace Dictionary

variable {dictionary : Dictionary}

theorem toBytes_of_describes (h : dictionary.Describes file)
    (hpass : ∀ check ∈ Check.all file, check.Passes file) :
    dictionary.toBytes = .ok (canonical file) := by
  have hmagic : numberAt file 0 = magicNumber := hpass .magic (by simp [Check.all])
  have hfit : headerSize + textSize file + tableSize file ≤ file.length :=
    hpass .entries (by simp [Check.all])
  have hwhole : entrySize ∣ tableSize file := hpass .wholeRecords (by simp [Check.all])
  have htext : utf8Length dictionary.text = textSize file := by
    rw [← length_encodeUtf8, h.text, length_textSection hfit]
  have htable : dictionary.size * entrySize = tableSize file := by
    rw [h.size, recordCount, Nat.div_mul_cancel hwhole]
  have hrecords : dictionary.toList.map Entry.record =
      (List.range (recordCount file)).map (recordAt file) := by
    have hsize : dictionary.toList.length = recordCount file := h.size
    refine List.ext_getElem (by simp [hsize]) fun k hk _ => ?_
    rw [List.getElem_map, List.getElem_map, List.getElem_range]
    rw [List.length_map] at hk
    exact (h.entry k hk).record_eq
  rw [toBytes_eq_ok, htext, htable, encode_ofSizes hmagic hfit, payload_eq, h.text, hrecords,
    canonical_eq hfit hwhole]
  exact ⟨⟨numberAt_lt 4, numberAt_lt 8⟩, rfl⟩

/-- A dictionary that was read is written as the canonical form of its file, which is read as the
same dictionary. -/
theorem canonical_of_ofBytes (h : ofBytes file = .ok dictionary) :
    dictionary.toBytes = .ok (canonical file) ∧ ofBytes (canonical file) = .ok dictionary := by
  obtain ⟨hdescribes, hpass⟩ := (verdict_ofBytes file).describes h
  have hwrite := toBytes_of_describes hdescribes hpass
  exact ⟨hwrite, (stored_of_ofBytes h).ofBytes hwrite⟩

theorem canonical_of_ofBytes_trailing :
    let file : Bytes := [0xC8, 0x90, 0x12, 0xFC, 2, 0, 0, 0, 8, 0, 0, 0, 1, 2, 3, 4, 97, 0,
      0, 0, 0, 0, 1, 0, 0, 9, 5]
    let dictionary : Dictionary := ⟨['a', '\x00'], #[⟨0, ['a'], { pos := some .noun }⟩]⟩
    ofBytes file = .ok dictionary ∧ dictionary.toBytes = .ok (canonical file) ∧
      ofBytes (canonical file) = .ok dictionary := by
  have h : ofBytes [0xC8, 0x90, 0x12, 0xFC, 2, 0, 0, 0, 8, 0, 0, 0, 1, 2, 3, 4, 97, 0,
      0, 0, 0, 0, 1, 0, 0, 9, 5] =
      .ok ⟨['a', '\x00'], #[⟨0, ['a'], { pos := some .noun }⟩]⟩ := by decide +kernel
  exact ⟨h, canonical_of_ofBytes h⟩

end Dictionary

end Concord
