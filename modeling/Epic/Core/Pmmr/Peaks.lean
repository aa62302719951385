import Epic.Core.Pmmr.Aligned

/-!
This module contains the peaks of a Merkle mountain range: as long as their hashes can be read, elements
can be pushed.
-/

namespace Epic
namespace PMMR

open Pmmr

variable {T E : Type} [PMMRable T E]

-- A peak of height k is the last of the nodes over an odd multiple of 2 ^ k leaves.
structure Growing (p : PMMR E) (n : Nat) : Prop where
  aligned : p.Aligned n
  peaks : ∀ k m r, n = 2 ^ k * (2 * m + 1) + r → r < 2 ^ k →
    ∃ hash, p.backend.getFromFile (mmrSize (2 ^ k * (2 * m + 1))) = some hash

theorem Growing.new (prunable : Bool)
    : (PMMR.new prunable : PMMR E).Growing 0 := by
  refine ⟨⟨rfl, .empty, .empty, rfl, rfl, ?_, ?_⟩, ?_⟩
  . exact fun _ hpos => absurd hpos (Finset.notMem_empty _)
  . exact fun _ hpos => absurd hpos (Finset.notMem_empty _)
  . intro k m r hzero
    have hpow : 0 < 2 ^ k * (2 * m + 1) := by positivity
    omega

theorem Growing.of_leafSet {p : PMMR E} {n : Nat} (h : p.Growing n) (leafSet : LeafSet)
    : PMMR.Growing { p with backend := { p.backend with leafSet := leafSet } } n :=
  ⟨h.aligned.of_leafSet leafSet, h.peaks⟩

theorem Growing.pushHashes_ok {p : PMMR E} (h : p.Growing n) (hones : ∀ i < height, n.testBit i = true)
    (hpos : pos = leafPos n + height)
    : ∃ r, pushHashes env p.backend.getFromFile n fuel height pos currentHash hashes = .ok r := by
  induction fuel generalizing height pos currentHash hashes with
  | zero => exact ⟨_, rfl⟩
  | succ fuel ih =>
    unfold pushHashes
    split
    . next hbit =>
      have hones' : ∀ i ≤ height, n.testBit i = true := by
        intro i hi
        rcases Nat.lt_or_eq_of_le hi with hlt | rfl
        . exact hones i hlt
        . exact hbit
      obtain ⟨m, hm⟩ := exists_of_testBit hones'
      have hpow : 0 < 2 ^ height := by positivity
      obtain ⟨leftHash, hleft⟩ := h.peaks height m _ hm (by omega)
      have hsibling : pos + 1 - 2 * 2 ^ height = mmrSize (2 ^ height * (2 * m + 1)) := by
        have hsize := mmrSize_two_pow_mul_add (k := height) (m := 2 * m + 1) (r := 2 ^ height - 1)
          (by omega)
        have hlast := mmrSize_two_pow_sub_one height
        rw [← hm] at hsize
        unfold leafPos at hpos
        omega
      rw [hsibling, hleft]
      exact ih (fun i hi => hones' i (by omega)) (by omega)
    . exact ⟨_, rfl⟩

theorem Growing.appended {env : Env} {elmt : T} {p p' : PMMR E} {n : Nat} (h : p.Growing n)
    (happended : Appended env elmt n p p')
    : p'.Growing (n + 1) := by
  refine ⟨happended.aligned, ?_⟩
  intro k m r hn hr
  rcases Nat.eq_zero_or_pos r with rfl | hpos
  . -- the last of the new nodes
    have hlast : 2 ^ k * (2 * m + 1) = n + 1 := by omega
    have hnew := mmrSize_lt_succ n
    have hlength := happended.aligned.hashes
    have hlength' := h.aligned.hashes
    rw [happended.pruneList] at hlength
    rw [hlast, happended.getFromFile_new h.aligned hnew]
    exact ⟨_, List.getElem?_eq_getElem (by omega)⟩
  . obtain ⟨hash, hhash⟩ := h.peaks k m (r - 1) (by omega) (by omega)
    exact ⟨hash, happended.getFromFile_old h.aligned hhash⟩

theorem Growing.push (env : Env) (elmt : T) {p : PMMR E} (h : p.Growing n)
    : ∃ p', PMMR.push env elmt p = (.ok (leafPos n), p') ∧ Appended env elmt n p p' := by
  have hmap : peakMapHeight (mmrSize n) = (n, 0) :=
    peakMapHeight_mmrSize_add (r := 0) (mmrSize_lt_succ _)
  let currentHash := hashWithIndex env (PMMRable.write env elmt) (mmrSize n)
  have hloop : ∃ r, pushHashes env p.backend.getFromFile n (n + 1) 0 (leafPos n) currentHash [currentHash] = .ok r :=
    h.pushHashes_ok (by simp) rfl
  obtain ⟨⟨pos, hashes⟩, hhashes⟩ := hloop
  have hpush : PMMR.push env elmt p
      = (.ok (leafPos n), ⟨p.backend.append (PMMRable.asElmt env elmt) hashes, pos⟩) := by
    unfold PMMR.push
    dsimp only
    rw [h.aligned.lastPos, Nat.add_sub_cancel, hmap]
    dsimp only
    rw [if_neg (by simp)]
    rw [show mmrSize n + 1 = leafPos n from rfl, hhashes]
  exact ⟨_, hpush, (h.aligned.push hpush).2⟩

end PMMR
end Epic
