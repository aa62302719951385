import Epic.Core.Committed.Points
import Epic.Util.Bytes
import Mathlib.Algebra.BigOperators.Ring.Finset
import Mathlib.Data.ZMod.Basic

/-!
This module contains an instance of the curve library in which every sum is defined: a commitment is the
number that its bytes encode, and commitments are added as numbers with as many bytes.
-/

namespace Epic
namespace Modular

def order : Nat := 256 ^ 33

def encode (n : Nat) : Commitment := ⟨Bytes.beBytes 33 n, by simp⟩

def decode (c : Commitment) : Nat := Bytes.ofBE c.toList

def scalar (bf : BlindingFactor) : Nat := Bytes.ofBE bf.toList

def secp : Secp where
  commitSum pos neg := some (encode ((pos.map decode).sum + (neg.map fun c => order - decode c).sum))
  commitValue v := some (encode v.toNat)
  commit v k := some (encode (v.toNat + 2 ^ 64 * scalar k))
  secretKey bf := some bf
  blindSum pos neg :=
    some ⟨Bytes.beBytes 32 ((pos.map scalar).sum + (neg.map fun k => 256 ^ 32 - scalar k).sum), by simp⟩
  verifyBulletProofMulti _ _ := true
  toPubkey c := some c.toList
  verifySingle _ _ _ := true
  fromRawData data := some data

theorem decode_lt (c : Commitment)
    : decode c < order := by
  have hlt := Bytes.ofBE_lt c.toList
  rwa [c.toList_length] at hlt

theorem cast_decode_encode (n : Nat)
    : (decode (encode n) : ZMod order) = n := by
  have hval : decode (encode n) = n % order := Bytes.ofBE_beBytes 33 n
  rw [hval, ZMod.natCast_mod]

theorem cast_decode_injective
    : Function.Injective fun c : Commitment => (decode c : ZMod order) := by
  intro c d h
  have hmod := (ZMod.natCast_eq_natCast_iff _ _ _).mp h
  have hdecode : Bytes.ofBE c.toList = Bytes.ofBE d.toList :=
    hmod.eq_of_lt_of_lt (decode_lt c) (decode_lt d)
  exact List.Vector.eq c d (Bytes.ofBE_injective (by simp) hdecode)

def points : Points secp (ZMod order) where
  point c := decode c
  unit := 1
  injective := cast_decode_injective
  point_zero := by
    have hzero : decode commitToZeroValue = 0 := by decide
    rw [hzero, Nat.cast_zero]
  commitSum pos neg := by
    refine ⟨_, rfl, ?_⟩
    have hneg : (neg.map fun c => ((order - decode c : Nat) : ZMod order))
        = neg.map fun c => -(decode c : ZMod order) := by
      apply List.map_congr_left
      intro c _
      rw [Nat.cast_sub (decode_lt c).le, ZMod.natCast_self, zero_sub]
    rw [cast_decode_encode, Nat.cast_add, Nat.cast_list_sum, Nat.cast_list_sum, List.map_map, List.map_map]
    have hsum : (neg.map fun c => -(decode c : ZMod order)).sum
        = -(neg.map fun c => (decode c : ZMod order)).sum := by
      rw [List.sum_neg, List.map_map]
      rfl
    rw [sub_eq_add_neg, ← hsum, ← hneg]
    rfl
  commitValue v := ⟨_, rfl, by rw [cast_decode_encode, nsmul_eq_mul, mul_one]⟩

end Modular
end Epic
