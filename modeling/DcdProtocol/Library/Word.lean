import Mathlib

/-!
# Machine words

The unsigned words are linearly ordered, so they can be keys of ordered containers and
arguments of order statistics.  Arithmetic on them wraps; the lemmas below give the natural
number a word operation yields when it does not, which is the form `omega` works with.
-/

namespace DcdProtocol.Library

instance lawfulBEqUInt32 : LawfulBEq UInt32 := inferInstance

instance instLinearOrderUInt32 : LinearOrder UInt32 where
  le_refl := UInt32.le_refl
  le_trans _ _ _ := UInt32.le_trans
  lt_iff_le_not_ge a b := by
    simp only [UInt32.lt_iff_toNat_lt, UInt32.le_iff_toNat_le]
    omega
  le_antisymm _ _ := UInt32.le_antisymm
  le_total := UInt32.le_total
  toDecidableLE := inferInstance
  toDecidableEq := inferInstance
  toDecidableLT := inferInstance

instance instLinearOrderUInt64 : LinearOrder UInt64 where
  le_refl := UInt64.le_refl
  le_trans _ _ _ := UInt64.le_trans
  lt_iff_le_not_ge a b := by
    simp only [UInt64.lt_iff_toNat_lt, UInt64.le_iff_toNat_le]
    omega
  le_antisymm _ _ := UInt64.le_antisymm
  le_total := UInt64.le_total
  toDecidableLE := inferInstance
  toDecidableEq := inferInstance
  toDecidableLT := inferInstance

theorem toNat_add_one_of_lt {n : UInt32} (hn : n.toNat + 1 < 2 ^ 32) :
    (n + 1).toNat = n.toNat + 1 := by
  rw [UInt32.toNat_add, UInt32.toNat_one]
  omega

theorem toNat_sub_of_toNat_le {a b : UInt32} (hab : b.toNat ≤ a.toNat) :
    (a - b).toNat = a.toNat - b.toNat :=
  UInt32.toNat_sub_of_le a b (UInt32.le_iff_toNat_le.mpr hab)

end DcdProtocol.Library
