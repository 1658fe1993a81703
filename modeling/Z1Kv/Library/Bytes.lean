import Mathlib.Algebra.CharZero.Defs
import Mathlib.Algebra.Ring.Nat
import Mathlib.Data.List.Basic
import Mathlib.Data.List.Lex

/-! Byte strings: their lexicographic order, fixed-width little-endian numbers,
and the effect of a positioned write on the contents of a file. -/

/-- The order on bytes is the order of the numbers they stand for. -/
instance UInt8.instLinearOrderByValue : LinearOrder UInt8 where
  le_refl _ := UInt8.le_refl _
  le_trans _ _ _ := UInt8.le_trans
  le_antisymm _ _ := UInt8.le_antisymm
  le_total := UInt8.le_total
  lt_iff_le_not_ge a b := by
    simp only [UInt8.le_iff_toNat_le, UInt8.lt_iff_toNat_lt]
    omega
  toDecidableLE := inferInstance
  toDecidableLT := inferInstance
  toDecidableEq := inferInstance
  min_def _ _ := rfl
  max_def _ _ := rfl
  compare_eq_compareOfLessAndEq _ _ := rfl

abbrev Bytes := List UInt8

namespace Bytes

/-- The `width` low-order base-256 digits of a number, least significant first. -/
def le : Nat → Nat → Bytes
  | 0, _ => []
  | width + 1, n => UInt8.ofNat n :: le width (n / 256)

/-- The number a little-endian digit string stands for. -/
def value : Bytes → Nat
  | [] => 0
  | b :: rest => b.toNat + 256 * value rest

@[simp] theorem le_length (width n : Nat) : (le width n).length = width := by
  induction width generalizing n with
  | zero => rfl
  | succ width ih => simp [le, ih]

theorem value_le (width n : Nat) : value (le width n) = n % 256 ^ width := by
  induction width generalizing n with
  | zero => simp [le, value, Nat.mod_one]
  | succ width ih =>
      simp only [le, value, ih, UInt8.toNat_ofNat', Nat.reducePow]
      rw [Nat.pow_succ', Nat.mod_mul]

theorem value_le_of_lt {width n : Nat} (h : n < 256 ^ width) : value (le width n) = n := by
  rw [value_le, Nat.mod_eq_of_lt h]

theorem value_lt (bytes : Bytes) : value bytes < 256 ^ bytes.length := by
  induction bytes with
  | nil => simp [value]
  | cons b rest ih =>
      have hByte : b.toNat < 256 := UInt8.toNat_lt b
      simp only [value, List.length_cons, Nat.pow_succ']
      omega

/-- A digit string is the digits of its number. -/
theorem le_value (bytes : Bytes) : le bytes.length (value bytes) = bytes := by
  induction bytes with
  | nil => rfl
  | cons b rest ih =>
      have hByte : b.toNat < 256 := UInt8.toNat_lt b
      have hDiv : (b.toNat + 256 * value rest) / 256 = value rest := by omega
      have hHead : UInt8.ofNat (b.toNat + 256 * value rest) = b := by
        apply UInt8.toNat_inj.mp
        simp only [UInt8.toNat_ofNat', Nat.reducePow]
        omega
      simp only [value, List.length_cons, le, hDiv, hHead, ih]

/-- Reading only the first digits gives a number no larger than reading all. -/
theorem value_le_value_append (first second : Bytes) : value first ≤ value (first ++ second) := by
  induction first with
  | nil => exact Nat.zero_le _
  | cons b rest ih =>
      simp only [List.cons_append, value]
      omega

/-- Zero padding on the high-order side does not change the number. -/
theorem value_append_zeros (bytes : Bytes) (count : Nat) :
    value (bytes ++ List.replicate count 0) = value bytes := by
  induction bytes with
  | nil =>
      induction count with
      | zero => rfl
      | succ count ih =>
          simp only [List.nil_append] at ih
          simp [List.replicate_succ, value, ih]
  | cons b rest ih => simp [value, ih]

/-- A write of `data` at offset `pos`: bytes before the offset stay, the written
range is replaced, and what lies behind it stays. -/
def overwrite (file : Bytes) (pos : Nat) (data : Bytes) : Bytes :=
  file.take pos ++ data ++ file.drop (pos + data.length)

/-- Writing at the end of a file appends. -/
@[simp] theorem overwrite_length_eq (file data : Bytes) :
    overwrite file file.length data = file ++ data := by
  simp [overwrite]

theorem overwrite_append (front back data : Bytes) :
    overwrite (front ++ back) front.length data = front ++ overwrite back 0 data := by
  simp [overwrite, ← List.drop_drop]

theorem overwrite_zero (file data : Bytes) :
    overwrite file 0 data = data ++ file.drop data.length := by
  simp [overwrite]

end Bytes
