import Epic.Chain.Orphans

/-!
This module contains what the pool of orphans keeps through every sequence of calls: it is bounded, and the
index by height lists every orphan that is held.
-/

namespace Epic
namespace OrphanBlockPool

section

variable {α β : Type} [DecidableEq α]

theorem length_erase_le (t : AList fun _ : α => β) (a : α)
    : (t.erase a).entries.length ≤ t.entries.length := (List.kerase_sublist a t.entries).length_le

theorem lookup_foldl_erase (l : List α) (t : AList fun _ : α => β) (a : α)
    : (l.foldl (fun t b => t.erase b) t).lookup a = if a ∈ l then none else t.lookup a := by
  induction l generalizing t with
  | nil => rfl
  | cons b l ih =>
    rw [List.foldl_cons, ih]
    by_cases hab : a = b
    . subst hab
      rw [AList.lookup_erase, ite_self, if_pos List.mem_cons_self]
    . rw [AList.lookup_erase_ne hab]
      simp only [List.mem_cons, hab, false_or]

theorem length_foldl_erase_le (l : List α) (t : AList fun _ : α => β)
    : (l.foldl (fun t b => t.erase b) t).entries.length ≤ t.entries.length := by
  induction l generalizing t with
  | nil => exact Nat.le_refl _
  | cons b l ih => exact (ih (t.erase b)).trans (length_erase_le t b)

theorem retain_eq (p : α → β → Bool) (t : AList fun _ : α => β)
    : retain p t = ((t.entries.filter fun s => !(p s.1 s.2)).map (·.1)).foldl (fun t b => t.erase b) t := by
  unfold retain
  generalize t.entries = l
  induction l generalizing t with
  | nil => rfl
  | cons s l ih =>
    rw [List.foldl_cons, ih]
    cases hp : p s.1 s.2 with
    | true => rw [List.filter_cons_of_neg (by simp [hp]), if_pos rfl]
    | false =>
      rw [List.filter_cons_of_pos (by simp [hp]), if_neg Bool.false_ne_true, List.map_cons, List.foldl_cons]

theorem lookup_retain {p : α → β → Bool} {t : AList fun _ : α => β} {a : α} {x : β}
    : (retain p t).lookup a = some x ↔ t.lookup a = some x ∧ p a x = true := by
  have hmem : a ∈ (t.entries.filter fun s => !(p s.1 s.2)).map (·.1)
      ↔ ∃ y, t.lookup a = some y ∧ p a y = false := by
    simp only [List.mem_map, List.mem_filter, Bool.not_eq_true']
    constructor
    . rintro ⟨⟨b, y⟩, ⟨hs, hp⟩, rfl⟩
      exact ⟨y, AList.mem_lookup_iff.mpr hs, hp⟩
    . rintro ⟨y, hy, hp⟩
      exact ⟨⟨a, y⟩, ⟨AList.mem_lookup_iff.mp hy, hp⟩, rfl⟩
  rw [retain_eq, lookup_foldl_erase]
  split
  . next hgone =>
    obtain ⟨y, hy, hp⟩ := hmem.mp hgone
    refine ⟨fun h => (nomatch h), fun ⟨hx, htrue⟩ => ?_⟩
    obtain rfl := Option.some.inj (hx.symm.trans hy)
    exact absurd htrue (by simp [hp])
  . next hkept =>
    refine ⟨fun hx => ⟨hx, ?_⟩, fun h => h.1⟩
    by_contra hfalse
    exact hkept (hmem.mpr ⟨x, hx, Bool.not_eq_true _ ▸ hfalse⟩)

theorem length_retain_le (p : α → β → Bool) (t : AList fun _ : α => β)
    : (retain p t).entries.length ≤ t.entries.length := by
  rw [retain_eq]
  exact length_foldl_erase_le _ t

end

section

variable {env : Env} {pool : OrphanBlockPool}

-- the orphans are stored by their hashes, and listed under their heights
structure Indexed (env : Env) (pool : OrphanBlockPool) : Prop where
  hash : ∀ h o, pool.orphans.lookup h = some o → o.block.hash env = h
  listed : ∀ h o, pool.orphans.lookup h = some o →
    ∃ hs, pool.heightIdx.lookup o.block.header.height = some hs ∧ h ∈ hs

theorem Indexed.new
    : Indexed env .new where
  hash h o ho := by simp [OrphanBlockPool.new] at ho
  listed h o ho := by simp [OrphanBlockPool.new] at ho

theorem Indexed.retain_orphans (h : Indexed env pool) (p : Hash → Orphan → Bool)
    : Indexed env { pool with orphans := retain p pool.orphans } where
  hash hash o ho := h.hash hash o (lookup_retain.mp ho).1
  listed hash o ho := h.listed hash o (lookup_retain.mp ho).1

theorem Indexed.eraseHeight (h : Indexed env pool) {height : UInt64} {orphans : AList fun _ : Hash => Orphan}
    (horphans : ∀ hash o, orphans.lookup hash = some o →
      pool.orphans.lookup hash = some o ∧ hash ∉ (pool.heightIdx.lookup height).getD [])
    : Indexed env { pool with orphans := orphans, heightIdx := pool.heightIdx.erase height } := by
  refine ⟨fun hash o ho => h.hash hash o (horphans hash o ho).1, fun hash o ho => ?_⟩
  obtain ⟨ho, hgone⟩ := horphans hash o ho
  obtain ⟨hs, hhs, hmem⟩ := h.listed hash o ho
  have hne : o.block.header.height ≠ height := by
    intro heq
    rw [← heq, hhs] at hgone
    exact hgone hmem
  exact ⟨hs, (AList.lookup_erase_ne hne).trans hhs, hmem⟩

theorem lookup_dropHeight (hash : Hash) (o : Orphan)
    (h : (((pool.heightIdx.lookup height).getD []).foldl (fun t hash => t.erase hash)
      pool.orphans).lookup hash = some o)
    : pool.orphans.lookup hash = some o ∧ hash ∉ (pool.heightIdx.lookup height).getD [] := by
  rw [lookup_foldl_erase] at h
  split at h
  . contradiction
  . next hnot => exact ⟨h, hnot⟩

theorem Indexed.evictHeights (h : Indexed env pool)
    (hkeys : ∀ height hs, pool.heightIdx.lookup height = some hs → height ∈ heights)
    : Indexed env (evictHeights heights pool)
        ∧ (OrphanBlockPool.evictHeights heights pool).len < maxOrphanSize
        ∧ (OrphanBlockPool.evictHeights heights pool).len ≤ pool.len
        ∧ (OrphanBlockPool.evictHeights heights pool).evicted = pool.evicted := by
  induction heights generalizing pool with
  | nil =>
    have hlen : pool.len = 0 := by
      rw [len, List.length_eq_zero_iff, List.eq_nil_iff_forall_not_mem]
      rintro ⟨hash, o⟩ hmem
      obtain ⟨hs, hhs, -⟩ := h.listed hash o (AList.mem_lookup_iff.mpr hmem)
      exact absurd (hkeys _ hs hhs) List.not_mem_nil
    refine ⟨h, ?_, Nat.le_refl _, rfl⟩
    rw [OrphanBlockPool.evictHeights, hlen]
    decide
  | cons height heights ih =>
    have hdrop := h.eraseHeight (@lookup_dropHeight pool height)
    have hle := length_foldl_erase_le ((pool.heightIdx.lookup height).getD []) pool.orphans
    unfold OrphanBlockPool.evictHeights
    dsimp only
    split
    . next hlt => exact ⟨hdrop, hlt, hle, rfl⟩
    . obtain ⟨hindexed, hlt, hle', hevicted⟩ := ih hdrop (by
        intro height' hs hhs
        have hne : height' ≠ height := by
          rintro rfl
          rw [AList.lookup_erase] at hhs
          contradiction
        rw [AList.lookup_erase_ne hne] at hhs
        exact (List.mem_cons.mp (hkeys height' hs hhs)).resolve_left hne)
      exact ⟨hindexed, hlt, hle'.trans hle, hevicted⟩

theorem Indexed.evict (h : Indexed env pool) (now : Nat)
    : Indexed env (pool.evict now)
        ∧ (pool.evict now).len < maxOrphanSize
        ∧ (pool.evict now).evicted + (pool.evict now).len = pool.evicted + pool.len := by
  let young : Hash → Orphan → Bool := fun _ x => decide (now - x.added < maxOrphanAgeSecs)
  have hkeys : ∀ height hs, pool.heightIdx.lookup height = some hs →
      height ∈ pool.heightIdx.keys.insertionSort (· ≥ ·) := by
    intro height hs hhs
    rw [List.mem_insertionSort]
    exact AList.mem_keys.mp (AList.lookup_isSome.mp (by rw [hhs]; rfl))
  obtain ⟨hindexed, hlt, hle, hevicted⟩ := (h.retain_orphans young).evictHeights hkeys
  have hyoung := length_retain_le young pool.orphans
  have hlen : (OrphanBlockPool.evictHeights (pool.heightIdx.keys.insertionSort (· ≥ ·))
      { pool with orphans := retain young pool.orphans }).len ≤ pool.len := hle.trans hyoung
  refine ⟨⟨hindexed.hash, fun hash o ho => ?_⟩, hlt, ?_⟩
  . -- the entry that lists an orphan is not cleaned up
    obtain ⟨hs, hhs, hmem⟩ := hindexed.listed hash o ho
    refine ⟨hs, lookup_retain.mpr ⟨hhs, List.any_eq_true.mpr ⟨hash, hmem, ?_⟩⟩, hmem⟩
    exact Option.isSome_of_eq_some ho
  . have hcount : (pool.evict now).evicted = pool.evicted + (pool.len - (pool.evict now).len) := by
      unfold OrphanBlockPool.evict
      dsimp only
      rw [hevicted]
      rfl
    have hless : (pool.evict now).len ≤ pool.len := hlen
    omega

theorem Indexed.insert (h : Indexed env pool) (orphan : Orphan)
    : Indexed env { pool with
        heightIdx := pool.heightIdx.insert orphan.block.header.height
          ((pool.heightIdx.lookup orphan.block.header.height).getD [] ++ [orphan.block.hash env])
        orphans := pool.orphans.insert (orphan.block.hash env) orphan } := by
  refine ⟨fun hash o ho => ?_, fun hash o ho => ?_⟩
  . by_cases heq : hash = orphan.block.hash env
    . rw [heq, AList.lookup_insert, Option.some.injEq] at ho
      rw [heq, ← ho]
    . rw [AList.lookup_insert_ne heq] at ho
      exact h.hash hash o ho
  . by_cases heq : hash = orphan.block.hash env
    . rw [heq, AList.lookup_insert, Option.some.injEq] at ho
      rw [← ho]
      exact ⟨_, AList.lookup_insert _, by simp [heq]⟩
    . rw [AList.lookup_insert_ne heq] at ho
      obtain ⟨hs, hhs, hmem⟩ := h.listed hash o ho
      by_cases hheight : o.block.header.height = orphan.block.header.height
      . refine ⟨hs ++ [orphan.block.hash env], ?_, List.mem_append_left _ hmem⟩
        dsimp only
        rw [hheight, AList.lookup_insert, ← hheight, hhs]
        rfl
      . exact ⟨hs, (AList.lookup_insert_ne hheight).trans hhs, hmem⟩

theorem Indexed.add (h : Indexed env pool) (now : Nat) (orphan : Orphan)
    : Indexed env (pool.add env now orphan)
        ∧ (pool.add env now orphan).len ≤ maxOrphanSize
        ∧ pool.evicted ≤ (pool.add env now orphan).evicted := by
  have hinsert := h.insert orphan
  unfold OrphanBlockPool.add
  dsimp only
  split
  . next hfull =>
    obtain ⟨hindexed, hlt, hcount⟩ := hinsert.evict now
    dsimp only at hcount
    exact ⟨hindexed, hlt.le, by omega⟩
  . next hroom => exact ⟨hinsert, Nat.le_of_not_lt hroom, Nat.le_refl _⟩

theorem removeAll_eq (hs : List Hash) (pool : OrphanBlockPool)
    : (removeAll hs pool).2
        = { pool with orphans := hs.foldl (fun t hash => t.erase hash) pool.orphans } := by
  induction hs generalizing pool with
  | nil => rfl
  | cons h hs ih =>
    unfold removeAll
    dsimp only
    split <;> exact ih _

theorem mem_removeAll {hs : List Hash} {hash : Hash} {o : Orphan} (hmem : hash ∈ hs)
    (ho : pool.orphans.lookup hash = some o)
    : o ∈ (removeAll hs pool).1 := by
  induction hs generalizing pool with
  | nil => exact absurd hmem List.not_mem_nil
  | cons h hs ih =>
    unfold removeAll
    dsimp only
    by_cases heq : hash = h
    . rw [← heq, ho]
      exact List.mem_cons_self
    . have hrest := @ih { pool with orphans := pool.orphans.erase h }
        ((List.mem_cons.mp hmem).resolve_left heq) ((AList.lookup_erase_ne heq).trans ho)
      split
      . exact List.mem_cons_of_mem _ hrest
      . exact hrest

theorem Indexed.removeByHeight (h : Indexed env pool) (height : UInt64)
    : Indexed env (pool.removeByHeight height).2
        ∧ (pool.removeByHeight height).2.len ≤ pool.len
        ∧ (pool.removeByHeight height).2.evicted = pool.evicted := by
  unfold OrphanBlockPool.removeByHeight
  split
  . next hs hhs =>
    dsimp only
    rw [removeAll_eq]
    refine ⟨h.eraseHeight fun hash o ho => ?_, length_foldl_erase_le hs pool.orphans, rfl⟩
    apply lookup_dropHeight hash o
    rw [hhs]
    exact ho
  . exact ⟨h, Nat.le_refl _, rfl⟩

theorem Indexed.mem_removeByHeight {hash : Hash} {o : Orphan} (h : Indexed env pool)
    (ho : pool.orphans.lookup hash = some o)
    : ∃ orphans, (pool.removeByHeight o.block.header.height).1 = some orphans ∧ o ∈ orphans := by
  obtain ⟨hs, hhs, hmem⟩ := h.listed hash o ho
  let pool' := { pool with heightIdx := pool.heightIdx.erase o.block.header.height }
  have hfound : o ∈ (removeAll hs pool').1 := mem_removeAll hmem ho
  refine ⟨(removeAll hs pool').1, ?_, hfound⟩
  unfold OrphanBlockPool.removeByHeight
  rw [hhs]

end

inductive Call where
  | add (now : Nat) (orphan : Orphan)
  | removeByHeight (height : UInt64)

def Call.apply (env : Env) (pool : OrphanBlockPool) (call : Call) : OrphanBlockPool :=
  match call with
  | .add now orphan => pool.add env now orphan
  | .removeByHeight height => (pool.removeByHeight height).2

def run (env : Env) (calls : List Call) : OrphanBlockPool := calls.foldl (Call.apply env) .new

structure Bounded (env : Env) (pool : OrphanBlockPool) : Prop extends Indexed env pool where
  len : pool.len ≤ maxOrphanSize

theorem Bounded.apply (h : Bounded env pool) (call : Call)
    : Bounded env (call.apply env pool) ∧ pool.evicted ≤ (call.apply env pool).evicted := by
  cases call with
  | add now orphan =>
    obtain ⟨hindexed, hlen, hevicted⟩ := h.toIndexed.add now orphan
    exact ⟨⟨hindexed, hlen⟩, hevicted⟩
  | removeByHeight height =>
    obtain ⟨hindexed, hlen, hevicted⟩ := h.toIndexed.removeByHeight height
    exact ⟨⟨hindexed, hlen.trans h.len⟩, hevicted.ge⟩

theorem Bounded.run (env : Env) (calls : List Call)
    : Bounded env (run env calls) := by
  induction calls using List.reverseRecOn with
  | nil => exact ⟨.new, Nat.zero_le _⟩
  | append_singleton calls call ih =>
    rw [OrphanBlockPool.run, List.foldl_concat]
    exact (ih.apply call).1

theorem orphan_pool_bounded_and_indexed (env : Env) (calls : List Call)
    : (run env calls).len ≤ maxOrphanSize
        ∧
      (∀ hash o, (run env calls).orphans.lookup hash = some o →
        o.block.hash env = hash
          ∧ (∃ hs, (run env calls).heightIdx.lookup o.block.header.height = some hs ∧ hash ∈ hs)
          ∧ ∃ orphans, ((run env calls).removeByHeight o.block.header.height).1 = some orphans
            ∧ o ∈ orphans)
        ∧
      ∀ call : Call, (run env calls).evicted ≤ (call.apply env (run env calls)).evicted := by
  have h := Bounded.run env calls
  exact ⟨h.len, fun hash o ho => ⟨h.hash hash o ho, h.listed hash o ho, h.mem_removeByHeight ho⟩,
    fun call => (h.apply call).2⟩

end OrphanBlockPool
end Epic
