import Epic.Store.PruneList.Word

/-!
This module contains the prune lists that are reached by adding leaves in any order, with repetitions and
with any number of flushes between them: what they hold depends on the set of the leaves only.
-/

namespace Epic
namespace PruneList

open Pmmr DyadicBlock

section

variable {p : PruneList} {s : Finset Nat} {i k n x : Nat}

theorem add32_go_succ (hle : 2 ^ k * (i + 1) ≤ n) (hn : n < 2 ^ 31)
    : add32.go (fuel + 1) (nodeAt i k) p
        =
      if nodeAt (siblingOf i) k ∈ p.bitmap ∨ nodeAt (siblingOf i) k ∈ p.prunedCache then
        add32.go fuel (nodeAt (i / 2) (k + 1)) { p with
          prunedCache := insert (nodeAt i k) p.prunedCache
          bitmap := p.bitmap.erase (nodeAt (siblingOf i) k) }
      else
        { p with
          prunedCache := insert (nodeAt i k) p.prunedCache
          bitmap := insert (nodeAt i k) p.bitmap } := by
  obtain ⟨hself, hsibling⟩ := asU32_nodeAt hle hn
  conv_lhs => unfold add32.go
  rw [family_nodeAt]
  dsimp only
  rw [hself, hsibling]

theorem Adding.go32_eq (h : Adding s x k p) (hx : x ∉ s) (hs : insert x s ⊆ Finset.range n)
    (hn : n < 2 ^ 31)
    : add32.go fuel (nodeAt (x / 2 ^ k) k) p = add.go fuel (nodeAt (x / 2 ^ k) k) p := by
  induction fuel generalizing k p with
  | zero => rfl
  | succ fuel ih =>
    rw [add32_go_succ (h.full.le hs) hn, add.go, family_nodeAt]
    dsimp only
    split
    . next hpruned =>
      rw [← div_two_pow_succ]
      exact ih (h.up hx (h.sibling_iff.mp hpruned))
    . rfl

theorem Prunes.add32_go_of_full (h : Prunes p s) (hfull : Full s (x / 2 ^ k) k)
    (hs : s ⊆ Finset.range n) (hn : n < 2 ^ 31)
    : add32.go fuel (nodeAt (x / 2 ^ k) k) p = p := by
  induction fuel generalizing k with
  | zero => rfl
  | succ fuel ih =>
    have hcached : nodeAt (x / 2 ^ k) k ∈ p.prunedCache := (h.mem_cache _).mpr ⟨_, _, rfl, hfull⟩
    have hparent : Full s (x / 2 ^ k / 2) (k + 1) ↔ Full s (siblingOf (x / 2 ^ k)) k := by
      rw [full_half_iff (siblingOf_ne _) (siblingOf_half _)]
      exact and_iff_right hfull
    rw [add32_go_succ (hfull.le hs) hn, Finset.insert_eq_of_mem hcached]
    split
    . next hpruned =>
      have hsibling : Full s (siblingOf (x / 2 ^ k)) k := by
        rcases hpruned with hmem | hmem
        . exact (h.isPrunedRoot_nodeAt.mp (decide_eq_true hmem)).full
        . exact h.isPruned_nodeAt.mp (decide_eq_true hmem)
      have hnot : nodeAt (siblingOf (x / 2 ^ k)) k ∉ p.bitmap := by
        intro hmem
        have htop := h.isPrunedRoot_nodeAt.mp (decide_eq_true hmem)
        apply htop.above
        rw [← siblingOf_half]
        exact hparent.mpr hsibling
      rw [Finset.erase_eq_of_notMem hnot, ← div_two_pow_succ]
      apply ih
      rw [div_two_pow_succ]
      exact hparent.mpr hsibling
    . next hpruned =>
      have hroot : nodeAt (x / 2 ^ k) k ∈ p.bitmap := by
        refine (h.mem_bitmap _).mpr ⟨_, _, rfl, hfull, fun habove => hpruned (.inr ?_)⟩
        exact (h.mem_cache _).mpr ⟨_, _, rfl, hparent.mp habove⟩
      rw [Finset.insert_eq_of_mem hroot]

theorem Prunes.add32 (h : Prunes p s) (hs : insert x s ⊆ Finset.range n) (hn : n < 2 ^ 31)
    : Prunes (p.add32 (leafPos x)) (insert x s) := by
  have hleaf : leafPos x = nodeAt (x / 2 ^ 0) 0 := by rw [Nat.pow_zero, Nat.div_one, nodeAt_zero]
  by_cases hx : x ∈ s
  . rw [Finset.insert_eq_of_mem hx] at hs ⊢
    have hfull : Full s (x / 2 ^ 0) 0 := by rwa [Nat.pow_zero, Nat.div_one, full_zero]
    rw [PruneList.add32, hleaf, h.add32_go_of_full hfull hs hn]
    exact h
  . rw [PruneList.add32, hleaf, (h.adding hx).go32_eq hx hs hn]
    exact (h.adding hx).go hx hs (by omega)

theorem Prunes.flush32 (h : Prunes p s) (hs : s ⊆ Finset.range n) (hn : n < 2 ^ 31)
    : Prunes p.flush32 s := by
  rw [flush32_eq (h.lt_of_mem hs hn)]
  exact h.flush

theorem Prunes.mem_cache_iff (h : Prunes p s) (pos : Nat)
    : pos ∈ p.prunedCache ↔ ∃ root ∈ p.bitmap, pos = root ∨ pos ∈ below root := by
  rw [h.mem_cache]
  constructor
  . rintro ⟨i, k, rfl, hfull⟩
    obtain ⟨t, htop⟩ := hfull.exists_top
    refine ⟨_, (h.mem_bitmap _).mpr ⟨_, _, rfl, htop⟩, ?_⟩
    rcases t with _ | t
    . left
      rw [Nat.pow_zero, Nat.div_one, Nat.add_zero]
    . exact .inr (mem_below.mpr ⟨i, k, t, rfl, rfl, rfl⟩)
  . rintro ⟨root, hroot, hpos⟩
    obtain ⟨i, k, rfl, htop⟩ := (h.mem_bitmap root).mp hroot
    rcases hpos with rfl | hbelow
    . exact ⟨i, k, rfl, htop.full⟩
    . obtain ⟨j, l, t, rfl, rfl, rfl⟩ := mem_below.mp hbelow
      exact ⟨j, l, rfl, htop.full.below⟩

theorem Prunes.prunedCache_reopen32 (h : Prunes p s) (hs : s ⊆ Finset.range n) (hn : n < 2 ^ 31)
    : p.reopen32.prunedCache = p.prunedCache := by
  have hlt : ∀ root ∈ (⟨p.bitmap, ∅, [], []⟩ : PruneList).bitmap, root < 2 ^ 32 := h.lt_of_mem hs hn
  ext pos
  rw [reopen32, flush32_eq hlt]
  by_cases hempty : p.bitmap = ∅
  . rw [flush_of_empty (p := ⟨p.bitmap, ∅, [], []⟩) hempty, h.mem_cache_iff, hempty]
    simp
  . rw [flush_of_ne_empty (p := ⟨p.bitmap, ∅, [], []⟩) hempty, h.mem_cache, ← h.flush.mem_cache,
      flush_of_ne_empty hempty]

end

-- the leaves are given by their numbers
inductive Op where
  | add (leaf : Nat)
  | flush

namespace Op

def apply (p : PruneList) (op : Op) : PruneList :=
  match op with
  | .add leaf => p.add32 (leafPos leaf)
  | .flush => p.flush32

def leaves (op : Op) : Finset Nat :=
  match op with
  | .add leaf => {leaf}
  | .flush => ∅

end Op

def run (ops : List Op) : PruneList := ops.foldl Op.apply new

def added (ops : List Op) : Finset Nat := ops.foldl (fun s op => op.leaves ∪ s) ∅

theorem Prunes.apply {op : Op} (h : Prunes p s)
    (hs : op.leaves ∪ s ⊆ Finset.range n) (hn : n < 2 ^ 31)
    : Prunes (op.apply p) (op.leaves ∪ s) := by
  cases op with
  | add leaf => exact h.add32 hs hn
  | flush =>
    rw [Op.leaves, Finset.empty_union] at hs ⊢
    exact h.flush32 hs hn

theorem prunes_run (hs : added ops ⊆ Finset.range n) (hn : n < 2 ^ 31)
    : Prunes (run ops) (added ops) := by
  induction ops using List.reverseRecOn with
  | nil => exact .new
  | append_singleton ops op ih =>
    simp only [run, added, List.foldl_append, List.foldl_cons, List.foldl_nil] at hs ih ⊢
    exact (ih (Finset.union_subset_right hs)).apply hs hn

theorem run_canonical {ops : List Op} {n : Nat} (hs : added ops ⊆ Finset.range n) (hn : n < 2 ^ 31)
    : (∀ pos, pos ∈ (run ops).bitmap ↔ ∃ i k, pos = nodeAt i k ∧ Top (added ops) i k)
        ∧
      (∀ pos, pos ∈ (run ops).prunedCache ↔ ∃ root ∈ (run ops).bitmap, pos = root ∨ pos ∈ below root)
        ∧
      (run ops).reopen32.prunedCache = (run ops).prunedCache := by
  have hprunes := prunes_run hs hn
  exact ⟨hprunes.mem_bitmap, hprunes.mem_cache_iff, hprunes.prunedCache_reopen32 hs hn⟩

theorem run_canonical_three
    : (run [.add 1, .add 0, .flush, .add 1, .add 4]).bitmap = {3, 8}
        ∧
      ∀ pos, pos ∈ (run [.add 1, .add 0, .flush, .add 1, .add 4]).prunedCache
        ↔ ∃ root ∈ ({3, 8} : Finset Nat), pos = root ∨ pos ∈ below root := by
  have hbitmap : (run [.add 1, .add 0, .flush, .add 1, .add 4]).bitmap = {3, 8} := by decide
  refine ⟨hbitmap, ?_⟩
  rw [← hbitmap]
  exact (run_canonical (n := 5) (by decide) (by decide)).2.1

-- The sibling of the leaf at 2 ^ 32 is taken for the one at 1, which is not a root any more.
theorem run_loses_root
    : (run [.add 0, .add (2 ^ 31)]).bitmap = {2}
        ∧ nodeAt 0 0 = 1
        ∧ Top (added [.add 0, .add (2 ^ 31)]) 0 0 := by
  refine ⟨by decide, by decide, ?_, fun habove => ?_⟩
  . rw [full_zero]
    decide
  . have hone := habove 1 (by decide)
    revert hone
    decide

end PruneList
end Epic
