import Concord.Dictionary.Record
import Concord.Proofs.Outcome
import Mathlib.Algebra.Group.Nat.Defs

namespace Concord

section numbers

theorem length_toLittleEndian (count n : Nat) : (toLittleEndian count n).length = count := by
  induction count generalizing n with
  | zero => rfl
  | succ count ih => rw [toLittleEndian, List.length_cons, ih]

theorem toLittleEndian_littleEndian {count : Nat} {bytes : Bytes} (h : bytes.length = count) :
    toLittleEndian count (littleEndian bytes) = bytes := by
  induction bytes generalizing count with
  | nil =>
    rw [← h]
    rfl
  | cons b bytes ih =>
    have hb := b.toNat_lt
    have hlow : UInt8.ofNat (b.toNat + 256 * littleEndian bytes) = b := by
      rw [← UInt8.toNat_inj, UInt8.toNat_ofNat']
      omega
    have hrest : (b.toNat + 256 * littleEndian bytes) / 256 = littleEndian bytes := by omega
    rw [← h, littleEndian, List.length_cons, toLittleEndian, hlow, hrest, ih rfl]

theorem littleEndian_toLittleEndian {count n : Nat} (h : n < 256 ^ count) :
    littleEndian (toLittleEndian count n) = n := by
  induction count generalizing n with
  | zero =>
    rw [Nat.pow_zero] at h
    rw [toLittleEndian, littleEndian]
    omega
  | succ count ih =>
    rw [Nat.pow_succ] at h
    rw [toLittleEndian, littleEndian, ih (by omega), UInt8.toNat_ofNat']
    omega

end numbers

/-- A set of values that lists each of them once, and few enough for their codes to be bytes. -/
class LawfulTagset (α : Type) [DecidableEq α] [Tagset α] : Prop where
  mem_values (v : α) : v ∈ Tagset.values (α := α)
  nodup : (Tagset.values (α := α)).Nodup
  length_lt : (Tagset.values (α := α)).length < 256

instance : LawfulTagset PartOfSpeech where
  mem_values v := by cases v <;> decide
  nodup := by decide
  length_lt := by decide

instance : LawfulTagset Number where
  mem_values v := by cases v <;> decide
  nodup := by decide
  length_lt := by decide

instance : LawfulTagset Case where
  mem_values v := by cases v <;> decide
  nodup := by decide
  length_lt := by decide

section codes

variable {α : Type} [DecidableEq α] [Tagset α]

theorem valueOfCode_eq (kind : Attribute) (code : UInt8) :
    valueOfCode (α := α) kind code =
      if (Tagset.values (α := α)).length < code.toNat then
        .error (.database (.codeOutOfRange kind code.toNat))
      else .ok (Tagset.ofCode? code.toNat) := by
  unfold valueOfCode
  split
  next h0 =>
    subst h0
    rfl
  next h0 =>
    have hne : code.toNat ≠ 0 := fun h => h0 (UInt8.toNat_inj.mp h)
    obtain ⟨n, hn⟩ := Nat.exists_eq_succ_of_ne_zero hne
    rw [hn, Tagset.ofCode?]
    by_cases hlt : n < (Tagset.values (α := α)).length
    · rw [List.getElem?_eq_getElem hlt, if_neg (by omega)]
    · rw [List.getElem?_eq_none_iff.mpr (by omega), if_pos (by omega)]

variable [LawfulTagset α]

theorem codeOf_le (v : Option α) : Tagset.codeOf v ≤ (Tagset.values (α := α)).length := by
  cases v with
  | none => exact Nat.zero_le _
  | some v => exact List.idxOf_lt_length_iff.mpr (LawfulTagset.mem_values v)

theorem toNat_codeOf (v : Option α) : (UInt8.ofNat (Tagset.codeOf v)).toNat = Tagset.codeOf v := by
  have hle := codeOf_le v
  have hlt := LawfulTagset.length_lt (α := α)
  rw [UInt8.toNat_ofNat']
  omega

theorem codeOf_ofCode? {n : Nat} (h : n ≤ (Tagset.values (α := α)).length) :
    Tagset.codeOf (Tagset.ofCode? (α := α) n) = n := by
  cases n with
  | zero => rfl
  | succ n =>
    have hidx := List.Nodup.idxOf_getElem (LawfulTagset.nodup (α := α)) n h
    rw [Tagset.ofCode?, List.getElem?_eq_getElem h, Tagset.codeOf, Tagset.code, hidx]

theorem ofCode?_codeOf (v : Option α) : Tagset.ofCode? (Tagset.codeOf v) = v := by
  cases v with
  | none => rfl
  | some v =>
    have hlt := List.idxOf_lt_length_iff.mpr (LawfulTagset.mem_values v)
    rw [Tagset.codeOf, Tagset.code, Tagset.ofCode?, List.getElem?_eq_getElem hlt,
      List.getElem_idxOf]

theorem valueOfCode_codeOf (kind : Attribute) (v : Option α) :
    valueOfCode kind (UInt8.ofNat (Tagset.codeOf v)) = .ok v := by
  rw [valueOfCode_eq, toNat_codeOf, if_neg (Nat.not_lt.mpr (codeOf_le v)), ofCode?_codeOf]

end codes

/-- The number of values of an attribute. -/
def Attribute.valueCount : Attribute → Nat
  | .pos => (Tagset.values (α := PartOfSpeech)).length
  | .number => (Tagset.values (α := Number)).length
  | .gramCase => (Tagset.values (α := Case)).length

/-- The code of an attribute; zero if the attribute is absent. -/
def Features.code (features : Features) : Attribute → Nat
  | .pos => Tagset.codeOf features.pos
  | .number => Tagset.codeOf features.number
  | .gramCase => Tagset.codeOf features.gramCase

theorem Codes.features_ofFeatures (features : Features) :
    (Codes.ofFeatures features).features = .ok features := by
  simp only [Codes.features, Codes.ofFeatures, Features.codes, valueOfCode_codeOf]
  rfl

namespace Record

theorem length_encode (record : Record) : record.encode.length = entrySize := by
  rw [encode, List.length_append, length_toLittleEndian]
  rfl

theorem length_flatMap_encode (records : List Record) :
    (records.flatMap encode).length = records.length * entrySize := by
  induction records with
  | nil => rw [List.flatMap_nil, List.length_nil, List.length_nil, Nat.zero_mul]
  | cons record records ih =>
    rw [List.flatMap_cons, List.length_append, length_encode, ih, List.length_cons,
      Nat.succ_mul, Nat.add_comm]

theorem decodeAll_encode_append {record : Record} (h : record.offset < sizeBound) (rest : Bytes) :
    decodeAll (record.encode ++ rest) = record :: decodeAll rest := by
  have hoffset : littleEndian (toLittleEndian 4 record.offset) = record.offset :=
    littleEndian_toLittleEndian h
  simp only [toLittleEndian] at hoffset
  simp only [encode, toLittleEndian, List.cons_append, List.nil_append, decodeAll, hoffset]

theorem decodeAll_encode {records : List Record}
    (h : ∀ record ∈ records, record.offset < sizeBound) :
    decodeAll (records.flatMap encode) = records := by
  induction records with
  | nil => rfl
  | cons record records ih =>
    obtain ⟨hrecord, hrecords⟩ := List.forall_mem_cons.mp h
    rw [List.flatMap_cons, decodeAll_encode_append hrecord, ih hrecords]

end Record

end Concord
