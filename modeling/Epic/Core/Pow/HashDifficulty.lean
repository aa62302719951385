import Epic.Core.Consensus.Difficulty
import Epic.Core.Transparent

/-!
This module contains the difficulty of a hash: the greatest number of 256 bits divided by the hash, of
which 64 bits are kept. A smaller hash has a higher difficulty as long as the quotient fits.
-/

namespace Epic

variable {ε : Type}

-- a proof of work with what its difficulty is computed from
structure Solution where
  pow : ProofOfWork
  header : List UInt8
  height : UInt64
  nonce : UInt64

namespace Solution

def toDifficulty (env : Env) (s : Solution) : Outcome ε Difficulty :=
  s.pow.toDifficulty env s.header s.height s.nonce

def hash (env : Env) (s : Solution) : Option Bytes32 :=
  match s.pow.proof with
  | .randomX hash => some hash
  | .progPow _ => some (env.progpowValue s.header s.height s.nonce)
  | .cuckoo _ _ => none
  | .md5 _ _ => none

def ofHash (hash : Bytes32) : Solution where
  pow := ⟨.zero, 0, 0, .randomX hash, .replicate 32 0⟩
  header := []
  height := 0
  nonce := 0

theorem toDifficulty_eq {s : Solution} (hhash : s.hash env = some h)
    : (s.toDifficulty env : Outcome ε Difficulty) = Difficulty.fromProofHash h := by
  unfold hash at hhash
  unfold toDifficulty ProofOfWork.toDifficulty
  split at hhash
  . next hproof =>
    rw [hproof, Option.some.inj hhash]
  . next hproof =>
    rw [hproof, Option.some.inj hhash]
  . contradiction
  . contradiction

end Solution

namespace Difficulty

def hashNumber (h : Bytes32) : Nat := Bytes.ofBE h.toList

def ofQuotient (n : Nat) : Difficulty := ⟨DifficultyNumber.number (UInt64.ofNat n)⟩

theorem fromProofHash_eq_ok (hne : hashNumber h ≠ 0)
    : (fromProofHash h : Outcome ε Difficulty) = .ok (ofQuotient ((2 ^ 256 - 1) / hashNumber h)) := by
  have hassert : (Outcome.assert (Bytes.ofBE h.toList ≠ 0) : Outcome ε Unit) = .ok () :=
    Outcome.assert_eq_ok.mpr hne
  unfold fromProofHash
  dsimp only
  rw [hassert]
  rfl

theorem total_ofQuotient (n : Nat)
    : (ofQuotient n).total = 4 * (n % 2 ^ 64) := by
  have hval : (UInt64.ofNat n).toNat = n % 2 ^ 64 := UInt64.toNat_ofNat
  have htotal : (ofQuotient n).total = (UInt64.ofNat n).toNat + ((UInt64.ofNat n).toNat
      + ((UInt64.ofNat n).toNat + ((UInt64.ofNat n).toNat + 0))) := rfl
  omega

theorem quotient_lt (h : 2 ^ 192 ≤ n)
    : (2 ^ 256 - 1) / n < 2 ^ 64 := by
  rw [Nat.div_lt_iff_lt_mul (by omega)]
  have hmul := Nat.mul_le_mul_left (2 ^ 64) h
  omega

end Difficulty

open Difficulty

theorem hash_difficulty_antitone_iff (env : Env) (least : Bytes32)
    : (∀ (s s' : Solution) (h h' : Bytes32), s.hash env = some h → s'.hash env = some h' →
          hashNumber least ≤ hashNumber h → hashNumber h ≤ hashNumber h' →
          ∃ d d', (s.toDifficulty env : Outcome ε Difficulty) = .ok d
            ∧ (s'.toDifficulty env : Outcome ε Difficulty) = .ok d'
            ∧ d'.total ≤ d.total)
        ↔
      2 ^ 192 ≤ hashNumber least := by
  constructor
  . intro h
    by_contra hlt
    -- the quotient of 2 ^ 192 - 1 is 2 ^ 64, of which nothing is left
    let low : Bytes32 := ⟨Bytes.beBytes 32 (2 ^ 192 - 1), Bytes.length_beBytes 32 _⟩
    let high : Bytes32 := ⟨Bytes.beBytes 32 (2 ^ 192), Bytes.length_beBytes 32 _⟩
    have hlow : hashNumber low = 2 ^ 192 - 1 := Bytes.ofBE_beBytes 32 (2 ^ 192 - 1)
    have hhigh : hashNumber high = 2 ^ 192 := Bytes.ofBE_beBytes 32 (2 ^ 192)
    obtain ⟨d, d', hd, hd', hle⟩ := h (.ofHash low) (.ofHash high) low high rfl rfl (by omega) (by omega)
    rw [Solution.toDifficulty_eq rfl, fromProofHash_eq_ok (by omega), Outcome.ok.injEq] at hd hd'
    rw [← hd, ← hd', total_ofQuotient, total_ofQuotient, hlow, hhigh] at hle
    exact absurd hle (by decide)
  . intro hleast s s' h h' hhash hhash' hge hle
    rw [Solution.toDifficulty_eq hhash, Solution.toDifficulty_eq hhash', fromProofHash_eq_ok (by omega),
      fromProofHash_eq_ok (by omega)]
    refine ⟨_, _, rfl, rfl, ?_⟩
    rw [total_ofQuotient, total_ofQuotient, Nat.mod_eq_of_lt (quotient_lt (by omega)),
      Nat.mod_eq_of_lt (quotient_lt (by omega))]
    exact Nat.mul_le_mul_left 4 (Nat.div_le_div_left hle (by omega))

theorem hash_difficulty_wraps
    : ((Solution.ofHash (.replicate 32 0)).toDifficulty (Transparent.env .mainnet)
          : Outcome String Difficulty) = .panic
        ∧ hashNumber ⟨Bytes.beBytes 32 (2 ^ 192 - 1), Bytes.length_beBytes 32 _⟩
            < hashNumber ⟨Bytes.beBytes 32 (2 ^ 192), Bytes.length_beBytes 32 _⟩
        ∧ ((Solution.ofHash ⟨Bytes.beBytes 32 (2 ^ 192 - 1), Bytes.length_beBytes 32 _⟩).toDifficulty
            (Transparent.env .mainnet) : Outcome String Difficulty) = .ok (ofQuotient 0)
        ∧ ((Solution.ofHash ⟨Bytes.beBytes 32 (2 ^ 192), Bytes.length_beBytes 32 _⟩).toDifficulty
            (Transparent.env .mainnet) : Outcome String Difficulty) = .ok (ofQuotient (2 ^ 64 - 1)) := by
  decide

end Epic
