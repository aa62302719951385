import Epic.Store.Backend
import Epic.Store.PruneList.Count

/-!
This module contains the compaction of a backend: the nodes that are found to be removed are those that
the new prune list compacts and the old one does not.
-/

namespace Epic

open Pmmr DyadicBlock

namespace PMMRBackend

variable {E : Type}

def New (s s' : Finset Nat) (i k : Nat) : Prop := Full s' i k ∧ ¬ Full s i k

structure Expanded (s s' : Finset Nat) (expanded : Bitmap) : Prop where
  mem_iff : ∀ pos, pos ∈ expanded
    ↔ ∃ i k, pos = nodeAt i k ∧ (New s s' i k ∨ Top s i k ∧ New s s' (siblingOf i) k)

structure Expanding (s s' : Finset Nat) (x k : Nat) (expanded : Bitmap) : Prop where
  full : Full (insert x s') (x / 2 ^ k) k
  mem_iff : ∀ pos, pos ∈ expanded
    ↔ ∃ i l, pos = nodeAt i l ∧ (New s s' i l ∨ l ≤ k ∧ i = x / 2 ^ l
        ∨ Top s i l ∧ (New s s' (siblingOf i) l ∨ l < k ∧ siblingOf i = x / 2 ^ l))

section

variable {b : PMMRBackend E} {s s' : Finset Nat} {expanded : Bitmap} {k n x : Nat}

theorem Expanded.empty (s : Finset Nat)
    : Expanded s s ∅ where
  mem_iff pos := by
    refine ⟨fun h => absurd h (Finset.notMem_empty _), ?_⟩
    rintro ⟨i, k, -, hnew | ⟨-, hnew⟩⟩
    . exact absurd hnew.1 hnew.2
    . exact absurd hnew.1 hnew.2

theorem Expanded.expanding (h : Expanded s s' expanded) (x : Nat)
    : Expanding s s' x 0 (insert (leafPos x) expanded) where
  full := full_insert_zero x
  mem_iff pos := by
    rw [Finset.mem_insert, h.mem_iff, ← nodeAt_zero]
    constructor
    . rintro (rfl | ⟨i, l, rfl, hnew | ⟨htop, hnew⟩⟩)
      . exact ⟨x, 0, rfl, .inr (.inl ⟨Nat.le_refl 0, (Nat.div_one x).symm⟩)⟩
      . exact ⟨i, l, rfl, .inl hnew⟩
      . exact ⟨i, l, rfl, .inr (.inr ⟨htop, .inl hnew⟩)⟩
    . rintro ⟨i, l, rfl, hnew | ⟨hle, rfl⟩ | ⟨htop, hnew | ⟨hlt, -⟩⟩⟩
      . exact .inr ⟨i, l, rfl, .inl hnew⟩
      . obtain rfl := Nat.le_zero.mp hle
        exact .inl (by rw [Nat.pow_zero, Nat.div_one])
      . exact .inr ⟨i, l, rfl, .inr ⟨htop, hnew⟩⟩
      . omega

theorem top_sibling (hx : x ∉ s) (h : Full s (siblingOf (x / 2 ^ k)) k)
    : Top s (siblingOf (x / 2 ^ k)) k := by
  refine ⟨h, fun habove => ?_⟩
  rw [← siblingOf_half, ← div_two_pow_succ] at habove
  exact not_full_of_notMem hx _ habove

theorem Expanding.sibling_iff (h : Expanding s s' x k expanded) (hsub : s ⊆ s') (hx : x ∉ s)
    : nodeAt (siblingOf (x / 2 ^ k)) k ∈ expanded ∨ Top s (siblingOf (x / 2 ^ k)) k
        ↔
      Full s' (siblingOf (x / 2 ^ k)) k := by
  rw [h.mem_iff]
  constructor
  . rintro (⟨i, l, heq, hnew | ⟨-, hi⟩ | ⟨htop, -⟩⟩ | htop)
    . obtain ⟨rfl, rfl⟩ := nodeAt_inj heq
      exact hnew.1
    . obtain ⟨hsibling, rfl⟩ := nodeAt_inj heq
      exact absurd (hsibling.trans hi).symm (siblingOf_ne _)
    . obtain ⟨rfl, rfl⟩ := nodeAt_inj heq
      exact htop.full.mono hsub
    . exact htop.full.mono hsub
  . intro hfull
    by_cases hold : Full s (siblingOf (x / 2 ^ k)) k
    . exact .inr (top_sibling hx hold)
    . exact .inl ⟨_, _, rfl, .inl ⟨hfull, hold⟩⟩

theorem Expanding.up (h : Expanding s s' x k expanded)
    (hsibling : Full s' (siblingOf (x / 2 ^ k)) k)
    (hwith : ∀ pos, pos ∈ withSibling
      ↔ pos ∈ expanded ∨ Top s (siblingOf (x / 2 ^ k)) k ∧ pos = nodeAt (siblingOf (x / 2 ^ k)) k)
    : Expanding s s' x (k + 1) (insert (nodeAt (x / 2 ^ (k + 1)) (k + 1)) withSibling) where
  full := by
    rw [div_two_pow_succ, full_half_iff (siblingOf_ne _) (siblingOf_half _)]
    exact ⟨h.full, hsibling.mono (Finset.subset_insert x s')⟩
  mem_iff pos := by
    rw [Finset.mem_insert, hwith, h.mem_iff]
    constructor
    . rintro (rfl | ⟨i, l, rfl, hnew | ⟨hle, rfl⟩ | ⟨htop, hnew | ⟨hlt, heq⟩⟩⟩ | ⟨htop, rfl⟩)
      . exact ⟨_, _, rfl, .inr (.inl ⟨Nat.le_refl _, rfl⟩)⟩
      . exact ⟨i, l, rfl, .inl hnew⟩
      . exact ⟨_, l, rfl, .inr (.inl ⟨by omega, rfl⟩)⟩
      . exact ⟨i, l, rfl, .inr (.inr ⟨htop, .inl hnew⟩)⟩
      . exact ⟨i, l, rfl, .inr (.inr ⟨htop, .inr ⟨by omega, heq⟩⟩)⟩
      . exact ⟨_, k, rfl, .inr (.inr ⟨htop, .inr ⟨Nat.lt_succ_self k, siblingOf_siblingOf _⟩⟩)⟩
    . rintro ⟨i, l, rfl, hnew | ⟨hle, rfl⟩ | ⟨htop, hnew | ⟨hlt, heq⟩⟩⟩
      . exact .inr (.inl ⟨i, l, rfl, .inl hnew⟩)
      . rcases Nat.lt_or_eq_of_le hle with hlt | rfl
        . exact .inr (.inl ⟨_, l, rfl, .inr (.inl ⟨by omega, rfl⟩)⟩)
        . exact .inl rfl
      . exact .inr (.inl ⟨i, l, rfl, .inr (.inr ⟨htop, .inl hnew⟩)⟩)
      . rcases Nat.lt_succ_iff_lt_or_eq.mp hlt with hlt | rfl
        . exact .inr (.inl ⟨i, l, rfl, .inr (.inr ⟨htop, .inr ⟨hlt, heq⟩⟩)⟩)
        . rw [← heq, siblingOf_siblingOf]
          exact .inr (.inr ⟨htop, rfl⟩)

theorem Expanding.done (h : Expanding s s' x k expanded) (hsub : s ⊆ s') (hx : x ∉ s')
    (hsibling : ¬ Full s' (siblingOf (x / 2 ^ k)) k)
    : Expanded s (insert x s') expanded where
  mem_iff pos := by
    have hnew {i l : Nat} : New s (insert x s') i l ↔ New s s' i l ∨ l ≤ k ∧ i = x / 2 ^ l := by
      unfold New
      rw [PruneList.full_insert_iff hx h.full hsibling]
      constructor
      . rintro ⟨hfull | hi, hold⟩
        . exact .inl ⟨hfull, hold⟩
        . exact .inr hi
      . rintro (⟨hfull, hold⟩ | ⟨hle, rfl⟩)
        . exact ⟨.inl hfull, hold⟩
        . exact ⟨.inr ⟨hle, rfl⟩, not_full_of_notMem (fun hmem => hx (hsub hmem)) l⟩
    rw [h.mem_iff]
    refine exists₂_congr fun i l => and_congr_right fun _ => ?_
    rw [hnew, hnew]
    constructor
    . rintro (hnew | hi | ⟨htop, hnew | ⟨hlt, heq⟩⟩)
      . exact .inl (.inl hnew)
      . exact .inl (.inr hi)
      . exact .inr ⟨htop, .inl hnew⟩
      . exact .inr ⟨htop, .inr ⟨hlt.le, heq⟩⟩
    . rintro ((hnew | hi) | ⟨htop, hnew | ⟨hle, heq⟩⟩)
      . exact .inl hnew
      . exact .inr (.inl hi)
      . exact .inr (.inr ⟨htop, .inl hnew⟩)
      . rcases Nat.lt_or_eq_of_le hle with hlt | rfl
        . exact .inr (.inr ⟨htop, .inr ⟨hlt, heq⟩⟩)
        . rw [← heq, siblingOf_siblingOf] at hsibling
          exact absurd (htop.full.mono hsub) hsibling

theorem Expanding.expand (h : Expanding s s' x k expanded) (hb : b.pruneList.Prunes s)
    (hsub : s ⊆ s') (hx : x ∉ s') (hs : insert x s' ⊆ Finset.range n) (hn : n < 2 ^ (k + fuel))
    : Expanded s (insert x s') (b.expand fuel (nodeAt (x / 2 ^ k) k) expanded) := by
  induction fuel generalizing k expanded with
  | zero =>
    have hle := h.full.le hs
    have hmul : 2 ^ k ≤ 2 ^ k * (x / 2 ^ k + 1) := Nat.le_mul_of_pos_right _ (Nat.succ_pos _)
    rw [Nat.add_zero] at hn
    omega
  | succ fuel ih =>
    have hx' : x ∉ s := fun hmem => hx (hsub hmem)
    have hiff := h.sibling_iff hsub hx'
    have hroot := hb.isPrunedRoot_nodeAt (i := siblingOf (x / 2 ^ k)) (k := k)
    unfold PMMRBackend.expand
    rw [family_nodeAt]
    dsimp only
    generalize hwith : (if b.pruneList.isPrunedRoot (nodeAt (siblingOf (x / 2 ^ k)) k) = true then
      insert (nodeAt (siblingOf (x / 2 ^ k)) k) expanded else expanded) = withSibling
    have hmem : ∀ pos, pos ∈ withSibling
        ↔ pos ∈ expanded ∨ Top s (siblingOf (x / 2 ^ k)) k ∧ pos = nodeAt (siblingOf (x / 2 ^ k)) k := by
      intro pos
      rw [← hwith, ← hroot]
      split
      . next htop => simp [htop, or_comm]
      . next htop => simp [htop]
    split
    . next hsibling =>
      rw [hmem] at hsibling
      have hfull := hiff.mp (hsibling.imp_right And.left)
      rw [← div_two_pow_succ]
      exact ih (h.up hfull hmem) (by rw [Nat.add_right_comm]; exact hn)
    . next hsibling =>
      rw [hmem] at hsibling
      have hnot : ¬ Full s' (siblingOf (x / 2 ^ k)) k := by
        intro hfull
        rcases hiff.mpr hfull with hin | htop
        . exact hsibling (.inl hin)
        . exact hsibling (.inr ⟨htop, rfl⟩)
      have hsame : withSibling = expanded := by
        rw [← hwith]
        refine if_neg fun htop => hnot (hiff.mp (.inr (hroot.mp htop)))
      rw [hsame]
      exact h.done hsub hx hnot

theorem Expanded.next (h : Expanded s s' expanded) (hb : b.pruneList.Prunes s)
    (hsub : s ⊆ s') (hx : x ∉ s') (hs : insert x s' ⊆ Finset.range n) (hn : n < 2 ^ 64)
    : Expanded s (insert x s') (b.expand 64 (leafPos x) (insert (leafPos x) expanded)) := by
  have hexpand : Expanded s (insert x s')
      (b.expand 64 (nodeAt (x / 2 ^ 0) 0) (insert (leafPos x) expanded)) :=
    (h.expanding x).expand hb hsub hx hs hn
  rw [Nat.pow_zero, Nat.div_one, nodeAt_zero] at hexpand
  exact hexpand

theorem Expanded.mem_removedExclRoots (h : Expanded s s' expanded)
    : pos ∈ removedExclRoots expanded
        ↔
      ∃ i k, pos = nodeAt i k ∧ New s s' (i / 2) (k + 1) := by
  unfold removedExclRoots
  rw [Finset.mem_filter, h.mem_iff, h.mem_iff]
  constructor
  . rintro ⟨⟨i, k, rfl, hpos⟩, i', k', heq, hparent⟩
    rw [family_nodeAt] at heq
    obtain ⟨rfl, rfl⟩ := nodeAt_inj heq
    refine ⟨i, k, rfl, ?_⟩
    rcases hparent with hnew | ⟨htop, -⟩
    . exact hnew
    . -- below a root there are neither new nodes nor roots
      rcases hpos with hnew | ⟨htop', -⟩
      . exact absurd htop.full.half hnew.2
      . exact absurd htop.full htop'.above
  . rintro ⟨i, k, rfl, hfull, hold⟩
    have hboth := (full_half_iff (siblingOf_ne i) (siblingOf_half i)).mp hfull
    rw [family_nodeAt]
    refine ⟨⟨i, k, rfl, ?_⟩, _, _, rfl, .inl ⟨hfull, hold⟩⟩
    by_cases hi : Full s i k
    . refine .inr ⟨⟨hi, hold⟩, hboth.2, fun hsibling => hold ?_⟩
      exact (full_half_iff (siblingOf_ne i) (siblingOf_half i)).mpr ⟨hi, hsibling⟩
    . exact .inl ⟨hboth.1, hi⟩

end

theorem foldl_insert {β : Type} {P : Finset Nat → β → Prop} {f : β → Nat → β} {s t u : Finset Nat}
    {l : List Nat} {acc : β}
    (hstep : ∀ t x acc, s ⊆ t → x ∉ t → insert x t ⊆ u → P t acc → P (insert x t) (f acc x))
    (hl : l.Nodup) (hdisjoint : ∀ x ∈ l, x ∉ t) (hst : s ⊆ t) (htu : t ∪ l.toFinset ⊆ u) (h : P t acc)
    : P (t ∪ l.toFinset) (l.foldl f acc) := by
  induction l generalizing t acc with
  | nil =>
    rw [List.toFinset_nil, Finset.union_empty]
    exact h
  | cons x l ih =>
    rw [List.nodup_cons] at hl
    rw [List.toFinset_cons, ← Finset.insert_union_comm] at htu ⊢
    have hx := hdisjoint x List.mem_cons_self
    have hinsert : insert x t ⊆ u := Finset.subset_union_left.trans htu
    apply ih hl.2 _ (hst.trans (Finset.subset_insert x t)) htu (hstep t x acc hst hx hinsert h)
    intro y hy hmem
    rcases Finset.mem_insert.mp hmem with rfl | hmem
    . exact hl.1 hy
    . exact hdisjoint y (List.mem_cons_of_mem x hy) hmem

def numbers (n : Nat) (bitmap : Bitmap) : List Nat := (List.range n).filter (leafPos · ∈ bitmap)

section

variable {b : PMMRBackend E} {s : Finset Nat} {bitmap rewindRmPos : Bitmap} {cutoffPos j n pos : Nat}

theorem mem_numbers
    : j ∈ numbers n bitmap ↔ j < n ∧ leafPos j ∈ bitmap := by
  unfold numbers
  rw [List.mem_filter, List.mem_range, decide_eq_true_eq]

theorem pairwise_numbers (n : Nat) (bitmap : Bitmap)
    : (numbers n bitmap).Pairwise (· < ·) := List.pairwise_lt_range.filter _

theorem iter_eq_map_numbers (h : ∀ pos ∈ bitmap, ∃ j < n, pos = leafPos j)
    : Bitmap.iter bitmap = (numbers n bitmap).map leafPos := by
  apply (Bitmap.pairwise_iter bitmap).eq_of_mem_iff
  . rw [List.pairwise_map]
    exact (pairwise_numbers n bitmap).imp leafPos_lt_leafPos
  . intro pos
    rw [Bitmap.mem_iter, List.mem_map]
    constructor
    . intro hpos
      obtain ⟨j, hj, rfl⟩ := h pos hpos
      exact ⟨j, mem_numbers.mpr ⟨hj, hpos⟩, rfl⟩
    . rintro ⟨j, hj, rfl⟩
      exact (mem_numbers.mp hj).2

theorem mem_removedPreCutoff {l : LeafSet} (h : pos ∈ l.removedPreCutoff cutoffPos rewindRmPos p)
    : 0 < pos ∧ pos ≤ cutoffPos ∧ isLeaf pos = true ∧ p.isPruned pos = false
        ∧ pos ∉ l.rewound cutoffPos rewindRmPos := by
  unfold LeafSet.removedPreCutoff LeafSet.unprunedPreCutoff at h
  simp only [Finset.mem_inter, Finset.mem_filter, Finset.mem_Icc, Finset.mem_symmDiff] at h
  obtain ⟨hdiff, ⟨hpos, hle⟩, hleaf, hpruned⟩ := h
  refine ⟨hpos, hle, hleaf, hpruned, ?_⟩
  rcases hdiff with ⟨-, hnot⟩ | ⟨-, hnot⟩
  . exact absurd ⟨hpos, hle⟩ hnot
  . exact hnot

def leavesRemoved (b : PMMRBackend E) (cutoffPos : Nat) (rewindRmPos : Bitmap) : Bitmap :=
  b.leafSet.removedPreCutoff cutoffPos rewindRmPos b.pruneList

structure Removes (b : PMMRBackend E) (s : Finset Nat) (n cutoffPos : Nat) (rewindRmPos : Bitmap) : Prop where
  prunes : b.pruneList.Prunes s
  pruned : s ⊆ Finset.range n
  size : n < 2 ^ 64
  cutoff : cutoffPos ≤ mmrSize n

def prunedAfter (b : PMMRBackend E) (s : Finset Nat) (n cutoffPos : Nat) (rewindRmPos : Bitmap) : Finset Nat :=
  s ∪ (numbers n (b.leavesRemoved cutoffPos rewindRmPos)).toFinset

theorem Removes.leaf (h : Removes b s n cutoffPos rewindRmPos)
    : ∀ pos ∈ b.leavesRemoved cutoffPos rewindRmPos, ∃ j < n, pos = leafPos j := by
  intro pos hmem
  obtain ⟨hpos, hle, hleaf, -⟩ := mem_removedPreCutoff hmem
  obtain ⟨j, rfl⟩ := exists_eq_leafPos hpos hleaf
  exact ⟨j, leafPos_le_mmrSize_iff.mp (hle.trans h.cutoff), rfl⟩

theorem Removes.notMem (h : Removes b s n cutoffPos rewindRmPos)
    : ∀ j ∈ numbers n (b.leavesRemoved cutoffPos rewindRmPos), j ∉ s := by
  intro j hj hs
  obtain ⟨-, -, -, hpruned, -⟩ := mem_removedPreCutoff (mem_numbers.mp hj).2
  rw [← nodeAt_zero, ← Bool.not_eq_true, h.prunes.isPruned_nodeAt, full_zero] at hpruned
  exact hpruned hs

theorem Removes.subset_range (h : Removes b s n cutoffPos rewindRmPos)
    : b.prunedAfter s n cutoffPos rewindRmPos ⊆ Finset.range n := by
  apply Finset.union_subset h.pruned
  intro j hj
  exact Finset.mem_range.mpr (mem_numbers.mp (List.mem_toFinset.mp hj)).1

theorem nodup_numbers (n : Nat) (bitmap : Bitmap)
    : (numbers n bitmap).Nodup := (pairwise_numbers n bitmap).imp fun h => Nat.ne_of_lt h

theorem Removes.prunes_checkCompact (h : Removes b s n cutoffPos rewindRmPos)
    : (b.checkCompact cutoffPos rewindRmPos).pruneList.Prunes (b.prunedAfter s n cutoffPos rewindRmPos)
        ∧
      (b.checkCompact cutoffPos rewindRmPos).pruneList.Cached := by
  have hfold : PruneList.Prunes
      ((numbers n (b.leavesRemoved cutoffPos rewindRmPos)).foldl (fun p x => p.add (leafPos x)) b.pruneList)
      (b.prunedAfter s n cutoffPos rewindRmPos) :=
    foldl_insert (P := fun t p => PruneList.Prunes p t)
      (fun t x p _ hx ht hp => hp.add hx ht h.size) (nodup_numbers n _) h.notMem (Finset.Subset.refl s)
      h.subset_range h.prunes
  have hpruneList : (b.checkCompact cutoffPos rewindRmPos).pruneList
      = ((Bitmap.iter (b.leavesRemoved cutoffPos rewindRmPos)).foldl PruneList.add b.pruneList).flush := by
    simp only [checkCompact, posToRm, leavesRemoved]
  rw [hpruneList, iter_eq_map_numbers h.leaf, List.foldl_map]
  exact ⟨hfold.flush, .flush hfold.zero_notMem⟩

theorem Removes.expanded (h : Removes b s n cutoffPos rewindRmPos)
    : ∃ expanded, Expanded s (b.prunedAfter s n cutoffPos rewindRmPos) expanded
        ∧ (b.posToRm cutoffPos rewindRmPos).2 = removedExclRoots expanded := by
  refine ⟨(Bitmap.iter (b.leavesRemoved cutoffPos rewindRmPos)).foldl
    (fun expanded x => b.expand 64 x (insert x expanded)) ∅, ?_, rfl⟩
  rw [iter_eq_map_numbers h.leaf, List.foldl_map]
  exact foldl_insert (P := fun t expanded => Expanded s t expanded)
    (fun t x expanded hst hx ht hexpanded => hexpanded.next h.prunes hst hx ht h.size)
    (nodup_numbers n _) h.notMem (Finset.Subset.refl s) h.subset_range (.empty s)

theorem Removes.mem_posToRm (h : Removes b s n cutoffPos rewindRmPos)
    : pos ∈ (b.posToRm cutoffPos rewindRmPos).2
        ↔
      (b.checkCompact cutoffPos rewindRmPos).pruneList.compacts pos = true
        ∧ b.pruneList.compacts pos = false := by
  obtain ⟨expanded, hexpanded, hpos⟩ := h.expanded
  obtain ⟨hprunes, -⟩ := h.prunes_checkCompact
  rw [hpos, hexpanded.mem_removedExclRoots]
  constructor
  . rintro ⟨i, k, rfl, hfull, hold⟩
    rw [hprunes.compacts_nodeAt, ← Bool.not_eq_true, h.prunes.compacts_nodeAt]
    exact ⟨hfull, hold⟩
  . rintro ⟨hcompacts, hold⟩
    obtain ⟨i, k, rfl, hfull⟩ := hprunes.compacts_eq_true.mp hcompacts
    rw [← Bool.not_eq_true, h.prunes.compacts_nodeAt] at hold
    exact ⟨i, k, rfl, hfull, hold⟩

end

end PMMRBackend
end Epic
