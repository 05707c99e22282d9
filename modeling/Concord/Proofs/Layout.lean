import Concord.Dictionary.File
import Concord.Proofs.Records
import Concord.Proofs.Words

namespace Concord

namespace Layout

variable (file : Bytes)

/-- Bytes beyond the end count as zero. -/
def byteAt (i : Nat) : UInt8 :=
  file.getD i 0

/-- The number in four bytes, lowest byte first. -/
def numberAt (i : Nat) : Nat :=
  (byteAt file i).toNat + 0x100 * (byteAt file (i + 1)).toNat
    + 0x10000 * (byteAt file (i + 2)).toNat + 0x1000000 * (byteAt file (i + 3)).toNat

def textSize : Nat :=
  numberAt file 4

def tableSize : Nat :=
  numberAt file 8

def textSection : Bytes :=
  (file.drop headerSize).take (textSize file)

def tableSection : Bytes :=
  ((file.drop headerSize).drop (textSize file)).take (tableSize file)

def recordCount : Nat :=
  tableSize file / entrySize

def recordStart (k : Nat) : Nat :=
  headerSize + textSize file + entrySize * k

/-- The position in the text section that a record gives for its word. -/
def offsetAt (k : Nat) : Nat :=
  numberAt file (recordStart file k)

def codeAt (k : Nat) : Attribute → UInt8
  | .pos => byteAt file (recordStart file k + 4)
  | .number => byteAt file (recordStart file k + 5)
  | .gramCase => byteAt file (recordStart file k + 6)

/-- The bytes of the text section from the position that a record gives up to the next zero. -/
def wordAt (k : Nat) : Bytes :=
  ((textSection file).drop (offsetAt file k)).takeWhile (· ≠ 0)

def recordAt (k : Nat) : Record :=
  ⟨offsetAt file k, codeAt file k .pos, codeAt file k .number, codeAt file k .gramCase⟩

variable {file}

theorem byteAt_drop (s i : Nat) : byteAt (file.drop s) i = byteAt file (s + i) := by
  simp only [byteAt, List.getD_eq_getElem?_getD, List.getElem?_drop]

theorem byteAt_take {s i : Nat} (h : i < s) : byteAt (file.take s) i = byteAt file i := by
  simp only [byteAt, List.getD_eq_getElem?_getD, List.getElem?_take_of_lt h]

theorem numberAt_drop (s i : Nat) : numberAt (file.drop s) i = numberAt file (s + i) := by
  simp only [numberAt, byteAt_drop, Nat.add_assoc]

theorem numberAt_take {s i : Nat} (h : i + 4 ≤ s) :
    numberAt (file.take s) i = numberAt file i := by
  have h1 : i + 1 < s := by omega
  have h2 : i + 2 < s := by omega
  simp only [numberAt, byteAt_take (show i < s by omega), byteAt_take h1, byteAt_take h2,
    byteAt_take (show i + 3 < s by omega)]

theorem littleEndian_take (bytes : Bytes) : littleEndian (bytes.take 4) = numberAt bytes 0 := by
  match bytes with
  | [] | [_] | [_, _] | [_, _, _] | _ :: _ :: _ :: _ :: _ =>
    simp [numberAt, byteAt, littleEndian]
    try omega

theorem header_decode (file : Bytes) :
    Header.decode file = ⟨numberAt file 0, textSize file, tableSize file⟩ := by
  simp only [Header.decode, littleEndian_take, numberAt_drop, Nat.add_zero, textSize, tableSize]

theorem decodeAll_eq_map {table : Bytes} {n : Nat} (h : table.length = entrySize * n) :
    Record.decodeAll table = (List.range n).map fun k =>
      ⟨numberAt table (entrySize * k), byteAt table (entrySize * k + 4),
        byteAt table (entrySize * k + 5), byteAt table (entrySize * k + 6)⟩ := by
  induction n generalizing table with
  | zero =>
    rw [List.length_eq_zero_iff.mp h]
    rfl
  | succ n ih =>
    have hlength : table.length = entrySize * n + 8 := h
    match table with
    | b0 :: b1 :: b2 :: b3 :: pos :: number :: gramCase :: spare :: rest =>
      have hrest : rest.length = entrySize * n := by
        simp only [List.length_cons] at hlength
        omega
      have hoffset : littleEndian [b0, b1, b2, b3] = b0.toNat + 0x100 * b1.toNat
          + 0x10000 * b2.toNat + 0x1000000 * b3.toNat := by
        simp only [littleEndian]
        omega
      rw [Record.decodeAll, ih hrest, List.range_succ_eq_map, List.map_cons, List.map_map, hoffset]
      -- A record further on stands eight bytes earlier in the rest.
      rfl

section sections

variable (hfit : headerSize + textSize file + tableSize file ≤ file.length)

include hfit

theorem length_textSection : (textSection file).length = textSize file := by
  rw [textSection, List.length_take, List.length_drop]
  omega

theorem length_tableSection : (tableSection file).length = tableSize file := by
  rw [tableSection, List.length_take, List.length_drop, List.length_drop]
  omega

theorem decodeAll_tableSection (hwhole : entrySize ∣ tableSize file) :
    Record.decodeAll (tableSection file) =
      (List.range (recordCount file)).map (recordAt file) := by
  have hsize : entrySize * recordCount file = tableSize file := Nat.mul_div_cancel' hwhole
  rw [decodeAll_eq_map ((length_tableSection hfit).trans hsize.symm)]
  refine List.map_congr_left fun k hk => ?_
  have hk := List.mem_range.mp hk
  have hend : entrySize * k + 8 ≤ tableSize file := by
    have := Nat.mul_le_mul_left entrySize (Nat.succ_le_of_lt hk)
    rw [Nat.mul_succ] at this
    rw [← hsize]
    exact this
  rw [tableSection, numberAt_take (by omega), byteAt_take (by omega), byteAt_take (by omega),
    byteAt_take (by omega)]
  simp only [numberAt_drop, byteAt_drop, recordAt, offsetAt, codeAt, recordStart, Nat.add_assoc]

end sections

end Layout

end Concord
