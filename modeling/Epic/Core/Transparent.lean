import Epic.Core.Block.Feijoada
import Epic.Core.Committed.Opening
import Epic.Util.Bytes

/-!
This module contains an instance of the foreign functions that computes in the clear: a commitment
carries the pair it commits to and a digest is the digested bytes. It shows that what is assumed about
these functions can be met, and runs the model on concrete inputs.
-/

namespace Epic
namespace Transparent

def encodeInt (len : Nat) (x : ℤ) : List UInt8 :=
  (if x < 0 then 1 else 0) :: Bytes.beBytes len x.natAbs

def decodeInt (bs : List UInt8) : ℤ :=
  match bs with
  | [] => 0
  | sign :: bs => if sign = 0 then (Bytes.ofBE bs : ℤ) else -(Bytes.ofBE bs : ℤ)

def encode (p : ℤ × ℤ) : Commitment :=
  ⟨encodeInt 16 p.1 ++ encodeInt 15 p.2, by simp [encodeInt]⟩

def decode (c : Commitment) : ℤ × ℤ :=
  (decodeInt (c.toList.take 17), decodeInt (c.toList.drop 17))

def tryEncode (p : ℤ × ℤ) : Option Commitment :=
  if decode (encode p) = p then some (encode p) else none

theorem decode_of_tryEncode (h : tryEncode p = some c)
    : decode c = p := by
  unfold tryEncode at h
  split at h
  next heq =>
    injection h with h
    rw [← h, heq]
  next => contradiction

def scalar (bf : BlindingFactor) : ℤ := Bytes.ofBE bf.toList

def secp : Secp where
  commitSum pos neg := tryEncode ((pos.map decode).sum - (neg.map decode).sum)
  commitValue v := tryEncode (v.toNat, 0)
  commit v k := tryEncode (v.toNat, scalar k)
  secretKey bf := some bf
  blindSum pos neg :=
    let sum := (pos.map scalar).sum - (neg.map scalar).sum
    if 0 ≤ sum ∧ sum < 256 ^ 32 then some ⟨Bytes.beBytes 32 sum.toNat, by simp⟩ else none
  verifyBulletProofMulti commits _ :=
    commits.all fun c => 0 ≤ (decode c).1 ∧ (decode c).1 < 2 ^ 64
  toPubkey c := if (decode c).1 = 0 then some c.toList else none
  verifySingle _ _ _ := true
  fromRawData data := some data

def opening : Opening secp ℤ where
  pair := decode
  scalar := scalar
  pair_zero := by decide
  pair_commitSum h := by
    simp only [secp] at h
    exact decode_of_tryEncode h
  pair_commitValue h := by
    simp only [secp] at h
    exact decode_of_tryEncode h
  pair_commit h := by
    simp only [secp] at h
    exact decode_of_tryEncode h

def env (chainType : ChainTypes) : Env where
  chainType := chainType
  policyConfig := .default
  overflowChecks := true
  roundF32 := id
  blake2b := Hash.mk
  progpowValue _ _ _ := .replicate 32 1
  secp := secp
  foundationCommit _ := none

end Transparent
end Epic
