import Epic.Core.Pmmr.Leaves
import Epic.Core.Pmmr.Peaks
import Epic.Core.Pmmr.Tree

/-!
This module contains the hashes of a Merkle mountain range that was built by pushing elements: each leaf
has the hash of its element and each parent has the hash of its children.
-/

namespace Epic
namespace PMMR

open Pmmr

variable {T E : Type} [PMMRable T E]

def LinkedAt (env : Env) (b : PMMRBackend E) (i k : Nat) : Prop :=
  ∃ left right, b.getFromFile (nodeAt (2 * i) k) = some left
    ∧ b.getFromFile (nodeAt (2 * i + 1) k) = some right
    ∧ b.getFromFile (nodeAt i (k + 1))
        = some (hashWithIndex env (left.write ++ right.write) (nodeAt i (k + 1) - 1))

structure Grown (env : Env) (p : PMMR E) (elmts : List T) : Prop where
  growing : p.Growing elmts.length
  leaf : ∀ n elmt, elmts[n]? = some elmt →
    p.backend.getFromFile (nodeAt n 0)
      = some (hashWithIndex env (PMMRable.write env elmt) (nodeAt n 0 - 1))
  parent : ∀ i k, 2 ^ (k + 1) * (i + 1) ≤ elmts.length → LinkedAt env p.backend i k

theorem Grown.new (env : Env) (prunable : Bool)
    : (PMMR.new prunable : PMMR E).Grown env ([] : List T) := by
  refine ⟨.new prunable, by simp, ?_⟩
  intro i k hle
  have : 0 < 2 ^ (k + 1) * (i + 1) := by positivity
  rw [List.length_nil] at hle
  omega

theorem Grown.congr {env : Env} {p p' : PMMR E} {elmts : List T} (h : p.Grown env elmts)
    (hgrowing : p'.Growing elmts.length) (hread : p'.backend.getFromFile = p.backend.getFromFile)
    : p'.Grown env elmts := by
  refine ⟨hgrowing, ?_, ?_⟩
  . rw [hread]
    exact h.leaf
  . unfold LinkedAt
    rw [hread]
    exact h.parent

theorem Growing.sync {p : PMMR E} (h : p.Growing n)
    : p.sync.Growing n := by
  refine ⟨h.aligned.sync, ?_⟩
  rw [getFromFile_sync h.aligned.hashTidy]
  exact h.peaks

theorem Grown.sync {env : Env} {p : PMMR E} {elmts : List T} (h : p.Grown env elmts)
    : p.sync.Grown env elmts :=
  h.congr h.growing.sync (getFromFile_sync h.growing.aligned.hashTidy)

theorem Grown.remove {env : Env} {p : PMMR E} {elmts : List T} (h : p.Grown env elmts) (pos : Nat)
    : PMMR.Grown env { p with backend := p.backend.remove pos } elmts :=
  h.congr (h.growing.of_leafSet _) rfl

theorem pushHashes_chain {env : Env} {read : Nat → Option Hash} {n fuel height pos : Nat}
    {currentHash : Hash} {hashes : List Hash} {r : Nat × List Hash}
    (h : pushHashes env read n fuel height pos currentHash hashes = .ok r)
    : ∃ parents, r.2 = hashes ++ parents
        ∧ ∀ j hash, parents[j]? = some hash →
            ∃ left right, read (pos + j + 1 - 2 * 2 ^ (height + j)) = some left
              ∧ (currentHash :: parents)[j]? = some right
              ∧ hash = hashWithIndex env (left.write ++ right.write) (pos + j) := by
  induction fuel generalizing height pos currentHash hashes with
  | zero =>
    injection h with h
    exact ⟨[], by simp [← h], by simp⟩
  | succ fuel ih =>
    unfold pushHashes at h
    split at h
    . simp only [Outcome.bind_eq_ok, Outcome.okOr_eq_ok] at h
      obtain ⟨left, hleft, h⟩ := h
      obtain ⟨parents, happend, hchain⟩ := ih h
      refine ⟨hashWithIndex env (left.write ++ currentHash.write) pos :: parents, ?_, ?_⟩
      . rw [happend, List.append_assoc]
        rfl
      . intro j hash hj
        rcases j with _ | j
        . simp only [List.getElem?_cons_zero, Option.some.injEq] at hj
          exact ⟨left, currentHash, hleft, rfl, hj.symm⟩
        . obtain ⟨left', right', hleft', hright', hhash⟩ := hchain j hash hj
          have hpos : pos + 1 + j + 1 = pos + (j + 1) + 1 := by omega
          have hheight : height + 1 + j = height + (j + 1) := by omega
          rw [hpos, hheight] at hleft'
          rw [show pos + 1 + j = pos + (j + 1) by omega] at hhash
          exact ⟨left', right', hleft', hright', hhash⟩
    . injection h with h
      exact ⟨[], by simp [← h], by simp⟩

theorem Grown.push {env : Env} {p : PMMR E} {elmts : List T} (h : p.Grown env elmts) (elmt : T)
    : ∃ p', PMMR.push env elmt p = (.ok (leafPos elmts.length), p')
        ∧ Appended env elmt elmts.length p p'
        ∧ p'.Grown env (elmts ++ [elmt]) := by
  obtain ⟨p', hpush, happended⟩ := h.growing.push env elmt
  refine ⟨p', hpush, happended, ?_⟩
  have haligned := h.growing.aligned
  have hgrowing := h.growing.appended happended
  obtain ⟨parents, hcontents, hchain⟩ : ∃ parents,
      p'.backend.hashFile.contents = p.backend.hashFile.contents
        ++ hashWithIndex env (PMMRable.write env elmt) (mmrSize elmts.length) :: parents
      ∧ ∀ j hash, parents[j]? = some hash →
          ∃ left right, p.backend.getFromFile (leafPos elmts.length + j + 1 - 2 * 2 ^ j) = some left
            ∧ (hashWithIndex env (PMMRable.write env elmt) (mmrSize elmts.length) :: parents)[j]?
                = some right
            ∧ hash = hashWithIndex env (left.write ++ right.write) (leafPos elmts.length + j) := by
    have hmap : peakMapHeight (mmrSize elmts.length) = (elmts.length, 0) :=
      peakMapHeight_mmrSize_add (r := 0) (mmrSize_lt_succ _)
    unfold PMMR.push at hpush
    simp only [haligned.lastPos, Nat.add_sub_cancel, hmap, ne_eq, not_true_eq_false, ↓reduceIte]
      at hpush
    split at hpush
    . next pos hashes hhashes =>
      obtain ⟨parents, rfl, hchain⟩ := pushHashes_chain hhashes
      simp only [Prod.mk.injEq] at hpush
      refine ⟨parents, ?_, ?_⟩
      . rw [← hpush.2]
        exact AppendOnlyFile.contents_foldl_append _ _
      . simpa only [Nat.zero_add, leafPos] using hchain
    . simp at hpush
    . simp at hpush
    . simp at hpush
  have hnew (j : Nat) : p'.backend.getFromFile (leafPos elmts.length + j)
      = (hashWithIndex env (PMMRable.write env elmt) (mmrSize elmts.length) :: parents)[j]? := by
    have hindex : leafPos elmts.length + j - mmrSize elmts.length - 1 = j := by
      unfold leafPos
      omega
    rw [happended.getFromFile_new haligned (by unfold leafPos; omega), hindex, hcontents,
      List.getElem?_append_right (by omega), Nat.add_sub_cancel_left]
  have hlength : leafPos elmts.length + parents.length = mmrSize (elmts.length + 1) := by
    have hsize := happended.aligned.hashes
    have hsize' := haligned.hashes
    rw [happended.pruneList, hcontents, List.length_append, List.length_cons] at hsize
    unfold leafPos
    omega
  refine ⟨by simpa using hgrowing, ?_, ?_⟩
  . intro n x hx
    rcases Nat.lt_or_ge n elmts.length with hlt | hge
    . rw [List.getElem?_append_left hlt] at hx
      exact happended.getFromFile_old haligned (h.leaf n x hx)
    . obtain rfl : n = elmts.length := by
        have := (List.getElem?_eq_some_iff.mp hx).1
        simp only [List.length_append, List.length_cons, List.length_nil] at this
        omega
      rw [List.getElem?_concat_length] at hx
      injection hx with hx
      rw [nodeAt_zero, ← hx]
      exact happended.getFromFile haligned
  . intro i k hle
    rw [List.length_append, List.length_cons, List.length_nil] at hle
    rcases Nat.lt_or_ge elmts.length (2 ^ (k + 1) * (i + 1)) with hgt | hge
    . -- a parent above the new leaf
      have hn : 2 ^ (k + 1) * (i + 1) = elmts.length + 1 := by omega
      have hdouble : 2 ^ k * (2 * i + 1 + 1) = 2 ^ (k + 1) * (i + 1) := by ring
      have hparent : nodeAt i (k + 1) = leafPos elmts.length + (k + 1) := by
        rw [nodeAt_eq, hn, Nat.add_sub_cancel, leafPos]
        omega
      have hright : nodeAt (2 * i + 1) k = leafPos elmts.length + k := by
        rw [nodeAt_eq, hdouble, hn, Nat.add_sub_cancel, leafPos]
        omega
      have hleft : nodeAt (2 * i) k = leafPos elmts.length + k + 1 - 2 * 2 ^ k := by
        have := nodeAt_left i k
        omega
      have hlt : k < parents.length := by
        have := nodeAt_le i (k + 1)
        rw [hn] at this
        omega
      obtain ⟨left, right, hreadLeft, hreadRight, hhash⟩ :=
        hchain k _ (List.getElem?_eq_getElem hlt)
      refine ⟨left, right, ?_, ?_, ?_⟩
      . rw [hleft]
        exact happended.getFromFile_old haligned hreadLeft
      . rw [hright, hnew]
        exact hreadRight
      . rw [hparent, hnew, List.getElem?_cons_succ, List.getElem?_eq_getElem hlt, hhash]
        rfl
    . obtain ⟨left, right, hleft, hright, hparent⟩ := h.parent i k hge
      exact ⟨left, right, happended.getFromFile_old haligned hleft,
        happended.getFromFile_old haligned hright, happended.getFromFile_old haligned hparent⟩

inductive Op (T : Type) where
  | push (elmt : T)
  | prune (position : Nat)
  | sync

def apply (env : Env) (p : PMMR E) (op : Op T) : Outcome String (PMMR E) :=
  match op with
  | .push elmt => (fun _ => (push env elmt p).2) <$> (push env elmt p).1
  | .prune position => (fun _ => (prune position p).2) <$> (prune position p).1
  | .sync => .ok p.sync

def run (env : Env) (p : PMMR E) (ops : List (Op T)) : Outcome String (PMMR E) := ops.foldlM (apply env) p

structure Leaves (T : Type) where
  elmts : List T
  removed : Bitmap

def Leaves.empty : Leaves T := ⟨[], ∅⟩

def Leaves.after (l : Leaves T) (op : Op T) : Leaves T :=
  match op with
  | .push elmt => { l with elmts := l.elmts ++ [elmt] }
  | .prune position =>
    if position ≤ mmrSize l.elmts.length then { l with removed := insert position l.removed } else l
  | .sync => l

structure HasLeaves (env : Env) (p : PMMR E) (l : Leaves T) : Prop where
  grown : p.Grown env l.elmts
  removed : ∀ pos ∈ l.removed, pos ≤ mmrSize l.elmts.length
  kept : ∀ n < l.elmts.length, leafPos n ∉ l.removed → p.has (leafPos n) = true

theorem HasLeaves.new (env : Env) (prunable : Bool)
    : (PMMR.new prunable : PMMR E).HasLeaves env (.empty : Leaves T) :=
  ⟨.new env prunable, by simp [Leaves.empty], by simp [Leaves.empty]⟩

theorem HasLeaves.push {env : Env} {p p' : PMMR E} {l : Leaves T} {elmt : T} (h : p.HasLeaves env l)
    (hgrown : p'.Grown env (l.elmts ++ [elmt])) (happended : Appended env elmt l.elmts.length p p')
    : p'.HasLeaves env (l.after (.push elmt)) := by
  refine ⟨hgrown, ?_, ?_⟩
  . intro pos hpos
    have hle := h.removed pos hpos
    have hlt := mmrSize_lt_succ l.elmts.length
    rw [Leaves.after, List.length_append, List.length_singleton]
    omega
  . intro n hn hremoved
    rw [Leaves.after] at hremoved
    rw [Leaves.after, List.length_append, List.length_singleton] at hn
    unfold has
    rw [happended.prunable, happended.leafSet]
    cases hprunable : p.backend.prunable with
    | false => rfl
    | true =>
      rcases Nat.lt_or_ge n l.elmts.length with hlt | hge
      . have hkept := h.kept n hlt hremoved
        simp only [has, hprunable, Bool.not_true, Bool.false_or] at hkept
        simpa [LeafSet.includes, LeafSet.add] using .inr (by simpa [LeafSet.includes] using hkept)
      . obtain rfl : n = l.elmts.length := by omega
        simp [LeafSet.includes, LeafSet.add]

theorem HasLeaves.prune {env : Env} {p p' : PMMR E} {l : Leaves T} {pos : Nat} {done : Bool}
    (h : p.HasLeaves env l) (hprune : PMMR.prune pos p = (.ok done, p'))
    : p'.HasLeaves env (l.after (.prune pos)) := by
  have hother (hsame : p' = p) : p'.HasLeaves env (l.after (.prune pos)) := by
    rw [hsame]
    unfold Leaves.after
    dsimp only
    split
    . refine ⟨h.grown, ?_, fun n hn hmem => h.kept n hn fun hin => hmem (Finset.mem_insert_of_mem hin)⟩
      intro x hx
      rcases Finset.mem_insert.mp hx with rfl | hin
      . assumption
      . exact h.removed x hin
    . exact h
  cases done with
  | false =>
    apply hother
    unfold PMMR.prune at hprune
    split at hprune
    . simp at hprune
    . split at hprune
      . simpa using (Prod.mk.inj hprune).2.symm
      . split at hprune <;> simp at hprune
  | true =>
    have hremoved := removed_of_prune hprune
    obtain ⟨hash, hfound⟩ := hremoved.found
    have hpos : pos ≤ mmrSize l.elmts.length := by
      by_contra hgt
      have haligned := h.grown.growing.aligned
      unfold PMMRBackend.getFromFile AppendOnlyFile.read at hfound
      rw [haligned.not_compacted (by omega), PruneList.getShift,
        PruneList.cachedShift_of_le fun x hx => (haligned.pruned x hx).trans (by omega),
        haligned.hashTidy.readAt_eq] at hfound
      have hhashes := haligned.hashes
      rw [PruneList.getTotalShift, PruneList.getShift] at hhashes
      simp only [Bool.false_eq_true, ↓reduceIte, Option.ite_none_left_eq_some] at hfound
      have := (List.getElem?_eq_some_iff.mp hfound.2).1
      omega
    rw [hremoved.state]
    simp only [Leaves.after, if_pos hpos]
    refine ⟨h.grown.remove pos, ?_, ?_⟩
    . intro x hx
      rcases Finset.mem_insert.mp hx with rfl | hin
      . exact hpos
      . exact h.removed x hin
    . intro n hn hmem
      rw [Finset.mem_insert, not_or] at hmem
      have hkept := h.kept n hn hmem.2
      simp only [has, hremoved.prunable, Bool.not_true, Bool.false_or] at hkept
      simpa [has, PMMRBackend.remove, LeafSet.includes, LeafSet.remove, hremoved.prunable] using
        ⟨hmem.1, by simpa [LeafSet.includes] using hkept⟩

theorem HasLeaves.sync {env : Env} {p : PMMR E} {l : Leaves T} (h : p.HasLeaves env l)
    : p.sync.HasLeaves env (l.after .sync) := by
  refine ⟨h.grown.sync, h.removed, ?_⟩
  intro n hn hmem
  have hkept := h.kept n hn hmem
  unfold has LeafSet.includes at hkept ⊢
  rw [bitmap_sync]
  exact hkept

theorem HasLeaves.apply {env : Env} {p p' : PMMR E} {l : Leaves T} {op : Op T} (h : p.HasLeaves env l)
    (happly : PMMR.apply env p op = .ok p')
    : p'.HasLeaves env (l.after op) := by
  cases op with
  | push elmt =>
    obtain ⟨q, hpush, happended, hgrown⟩ := h.grown.push elmt
    simp only [PMMR.apply, hpush] at happly
    cases happly
    exact h.push hgrown happended
  | prune position =>
    simp only [PMMR.apply, Outcome.map_eq_bind, Outcome.bind_eq_ok, Outcome.ok.injEq] at happly
    obtain ⟨done, hdone, rfl⟩ := happly
    exact h.prune (Prod.ext hdone rfl)
  | sync =>
    cases happly
    exact h.sync

theorem HasLeaves.run {env : Env} {p p' : PMMR E} {l : Leaves T} {ops : List (Op T)}
    (h : p.HasLeaves env l) (hrun : PMMR.run env p ops = .ok p')
    : p'.HasLeaves env (ops.foldl Leaves.after l) := by
  induction ops generalizing p l with
  | nil =>
    cases hrun
    exact h
  | cons op ops ih =>
    rw [PMMR.run, List.foldlM_cons, Outcome.bind_eq_ok] at hrun
    obtain ⟨q, happly, hrun⟩ := hrun
    exact ih (h.apply happly) hrun

end PMMR
end Epic
