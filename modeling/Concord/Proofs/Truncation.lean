import Concord.Proofs.Stored

namespace Concord

namespace Layout

variable {file : Bytes} {n : Nat}

theorem textSize_take (h : headerSize ≤ n) : textSize (file.take n) = textSize file := by
  rw [headerSize] at h
  exact numberAt_take (by omega)

theorem tableSize_take (h : headerSize ≤ n) : tableSize (file.take n) = tableSize file := by
  rw [headerSize] at h
  exact numberAt_take (by omega)

theorem textSection_take (h : headerSize + textSize file ≤ n) :
    textSection (file.take n) = textSection file := by
  rw [textSection, textSection, textSize_take (by omega), List.drop_take, List.take_take,
    Nat.min_eq_left (by omega)]

theorem tableSection_take (h : headerSize + textSize file + tableSize file ≤ n) :
    tableSection (file.take n) = tableSection file := by
  rw [tableSection, tableSection, textSize_take (by omega), tableSize_take (by omega),
    List.drop_take, List.drop_take, List.take_take, Nat.min_eq_left (by omega)]

end Layout

open Layout

namespace Dictionary

variable {file bytes : Bytes} {n : Nat} {dictionary : Dictionary}

/-- What follows the table is not looked at. -/
theorem ofBytes_take (h : headerSize + textSize file + tableSize file ≤ n) :
    ofBytes (file.take n) = ofBytes file := by
  rcases Nat.le_total file.length n with hle | hle
  · rw [List.take_of_length_le hle]
  have hlength : (file.take n).length = n := List.length_take_of_le hle
  have hmagic : numberAt (file.take n) 0 = numberAt file 0 := by
    rw [headerSize] at h
    exact numberAt_take (by omega)
  have htext : textSection (file.take n) = textSection file := textSection_take (by omega)
  simp only [ofBytes_eq, List.length_drop, hlength, hmagic, htext, tableSection_take h,
    textSize_take (show headerSize ≤ n by omega), tableSize_take (show headerSize ≤ n by omega)]
  rw [if_neg (show ¬n < headerSize by omega), if_neg (show ¬file.length < headerSize by omega),
    if_neg (show ¬n - headerSize < textSize file by omega),
    if_neg (show ¬file.length - headerSize < textSize file by omega),
    if_neg (show ¬n - headerSize - textSize file < tableSize file by omega),
    if_neg (show ¬file.length - headerSize - textSize file < tableSize file by omega)]

/-- Writes a dictionary behind what was written before: the header, then the text, then record by
record. -/
def writeTo (dictionary : Dictionary) (written : Bytes) : Except Error Unit × Bytes :=
  match dictionary.header with
  | .error error => (.error error, written)
  | .ok header =>
    (.ok (), (dictionary.toList.map Entry.record).foldl
      (fun written record => written ++ record.encode)
      (written ++ header.encode ++ encodeUtf8 dictionary.text))

/-- Why the file of a dictionary is refused if only so many bytes of it are there. -/
def faultOfCut (dictionary : Dictionary) (length : Nat) : Error :=
  let textBytes := utf8Length dictionary.text
  if length < headerSize then
    .truncated .header headerSize length
  else if length < headerSize + textBytes then
    .truncated .text textBytes (length - headerSize)
  else
    .truncated .entries (dictionary.size * entrySize) (length - headerSize - textBytes)

theorem foldl_append_encode (records : List Record) (written : Bytes) :
    records.foldl (fun written record => written ++ record.encode) written =
      written ++ records.flatMap Record.encode := by
  induction records generalizing written with
  | nil => simp
  | cons record records ih => rw [List.foldl_cons, ih, List.flatMap_cons, List.append_assoc]

theorem writeTo_eq (dictionary : Dictionary) (written : Bytes) : dictionary.writeTo written =
    match dictionary.toBytes with
    | .ok bytes => (.ok (), written ++ bytes)
    | .error error => (.error error, written) := by
  rw [writeTo, toBytes]
  cases dictionary.header with
  | error error => rfl
  | ok header =>
    simp only [foldl_append_encode, List.append_assoc, ← payload_eq]
    rfl

theorem toBytes_of_writeTo (h : dictionary.writeTo [] = (.ok (), bytes)) :
    dictionary.toBytes = .ok bytes := by
  rw [writeTo_eq] at h
  cases hwrite : dictionary.toBytes with
  | error error =>
    rw [hwrite] at h
    cases h
  | ok bytes' =>
    rw [hwrite] at h
    cases h
    rfl

theorem toBytes_eq_error {error : Error} : dictionary.toBytes = .error error ↔
    error = .tooLarge ∧ (sizeBound ≤ utf8Length dictionary.text ∨
      sizeBound ≤ dictionary.size * entrySize) := by
  by_cases hfits : utf8Length dictionary.text < sizeBound ∧
      dictionary.size * entrySize < sizeBound
  · rw [toBytes_eq_ok.mpr ⟨hfits, rfl⟩]
    exact iff_of_false (fun h => by cases h) fun h => by omega
  · have hheader : dictionary.header = .error .tooLarge := by
      rw [header, if_neg]
      rwa [Bool.and_eq_true, decide_eq_true_eq, decide_eq_true_eq]
    rw [toBytes, hheader]
    constructor
    · intro h
      cases h
      exact ⟨rfl, by omega⟩
    · rintro ⟨rfl, -⟩
      rfl

theorem ofBytes_cut (h : dictionary.toBytes = .ok bytes) (hn : n < bytes.length) :
    ofBytes (bytes.take n) = .error (dictionary.faultOfCut n) := by
  obtain ⟨hmagic, htext, htable, hlength⟩ := sections_of_toBytes h
  have htake : (bytes.take n).length = n := List.length_take_of_le (Nat.le_of_lt hn)
  rw [ofBytes_eq, faultOfCut, htake]
  dsimp only
  split
  next => rfl
  next hheader =>
    have hmagicCut : numberAt (bytes.take n) 0 = magicNumber := by
      rw [headerSize] at hheader
      rw [numberAt_take (by omega), hmagic]
    simp only [textSize_take (Nat.not_lt.mp hheader), tableSize_take (Nat.not_lt.mp hheader),
      List.length_drop, htake, htext, htable]
    rw [if_neg (not_not_intro hmagicCut)]
    rw [htext, htable] at hlength
    by_cases hcut : n < headerSize + utf8Length dictionary.text
    · rw [if_pos hcut, if_pos (by omega)]
    · rw [if_neg hcut, if_neg (by omega), if_pos (by omega)]

/-- A file that was cut short is refused for the section in which it ends, and bytes behind it make
no difference. Writing fails exactly if a section is too long for the header, and then nothing is
written. -/
theorem writeTo_cut (dictionary : Dictionary) :
    (∀ bytes, dictionary.writeTo [] = (.ok (), bytes) →
      (∀ part, part <+: bytes → part ≠ bytes →
        ofBytes part = .error (dictionary.faultOfCut part.length)) ∧
      ∀ rest, ofBytes (bytes ++ rest) = ofBytes bytes) ∧
    ∀ written,
      if 2 ^ 32 - 1 < utf8Length dictionary.text ∨ 2 ^ 32 - 1 < dictionary.size * entrySize then
        dictionary.writeTo written = (.error .tooLarge, written)
      else ∃ bytes, dictionary.toBytes = .ok bytes ∧
        dictionary.writeTo written = (.ok (), written ++ bytes) := by
  refine ⟨fun bytes hwrite => ?_, fun written => ?_⟩
  · have hbytes := toBytes_of_writeTo hwrite
    refine ⟨fun part hpart hne => ?_, fun rest => ?_⟩
    · have hlt : part.length < bytes.length :=
        Nat.lt_of_le_of_ne hpart.length_le fun heq => hne (hpart.eq_of_length heq)
      have hcut := ofBytes_cut hbytes hlt
      rwa [← List.prefix_iff_eq_take.mp hpart] at hcut
    · obtain ⟨-, -, -, hlength⟩ := sections_of_toBytes hbytes
      have hfits : headerSize + textSize (bytes ++ rest) + tableSize (bytes ++ rest) ≤
          bytes.length := by
        have htake : (bytes ++ rest).take bytes.length = bytes := List.take_left
        have hheader : headerSize ≤ bytes.length := by omega
        rw [← textSize_take hheader, ← tableSize_take hheader, htake]
        exact Nat.le_of_eq hlength.symm
      have hread := ofBytes_take hfits
      rw [List.take_left] at hread
      exact hread.symm
  · have hbound : sizeBound = 2 ^ 32 := rfl
    split
    next hlong =>
      rw [writeTo_eq, toBytes_eq_error.mpr ⟨rfl, by omega⟩]
    next hfits =>
      have hbytes := toBytes_eq_ok.mpr
        ⟨show utf8Length dictionary.text < sizeBound ∧ dictionary.size * entrySize < sizeBound by
          omega, rfl⟩
      exact ⟨_, hbytes, by rw [writeTo_eq, hbytes]⟩

/-- The file of one word of two letters, of two bytes each, is cut within the second letter and
behind the text. -/
theorem writeTo_cut_cyrillic :
    let dictionary : Dictionary := ⟨['н', 'о', '\x00'], #[⟨0, ['н', 'о'], { pos := some .conj }⟩]⟩
    let bytes : Bytes := [0xC8, 0x90, 0x12, 0xFC, 5, 0, 0, 0, 8, 0, 0, 0, 0, 0, 0, 0,
      0xD0, 0xBD, 0xD0, 0xBE, 0, 0, 0, 0, 0, 11, 0, 0, 0]
    ofLexicon "Но\tconj".toList = .ok dictionary ∧ dictionary.writeTo [] = (.ok (), bytes) ∧
      ofBytes (bytes.take 19) = .error (.truncated .text 5 3) ∧
      ofBytes (bytes.take 21) = .error (.truncated .entries 8 0) ∧
      ofBytes (bytes ++ [0xFF]) = ofBytes bytes := by
  intro dictionary bytes
  have hwrite : dictionary.writeTo [] = (.ok (), bytes) := by decide +kernel
  obtain ⟨hcut, hmore⟩ := (writeTo_cut dictionary).1 bytes hwrite
  have hpart : ∀ n < bytes.length, bytes.take n ≠ bytes := fun n hn heq => by
    have hlength := congrArg List.length heq
    rw [List.length_take_of_le (Nat.le_of_lt hn)] at hlength
    omega
  refine ⟨ok_of_toOption (by decide +kernel), hwrite, ?_, ?_, hmore _⟩
  · exact hcut _ (List.take_prefix 19 bytes) (hpart 19 (by decide))
  · exact hcut _ (List.take_prefix 21 bytes) (hpart 21 (by decide))

end Dictionary

end Concord
