import Epic.Core.Pmmr

/-!
This module contains the sizes of a Merkle mountain range that may be compacted: the files hold all nodes
but the pruned ones. A mountain range that only grew is taken back by a rewind to its former size.
-/

namespace Epic

theorem Bitmap.rank_eq_card (h : ∀ x ∈ b, x ≤ pos)
    : rank b pos = b.card := by
  unfold rank
  rw [Finset.filter_true_of_mem h]

theorem PruneList.cachedShift_of_le {bitmap : Bitmap} {cache : List Nat} {pos : Nat}
    (h : ∀ x ∈ bitmap, x ≤ pos)
    : cachedShift bitmap cache pos = cachedShift bitmap cache (Bitmap.maximum bitmap) := by
  have hmax : ∀ x ∈ bitmap, x ≤ Bitmap.maximum bitmap := fun x hx => Finset.le_sup (f := id) hx
  unfold cachedShift
  rw [Bitmap.rank_eq_card h, Bitmap.rank_eq_card hmax]

namespace PMMR

open Pmmr

variable {T E : Type} [PMMRable T E]

structure Aligned (p : PMMR E) (n : Nat) : Prop where
  lastPos : p.lastPos = mmrSize n
  hashTidy : p.backend.hashFile.Tidy
  dataTidy : p.backend.dataFile.Tidy
  hashes : p.backend.hashFile.contents.length + p.backend.pruneList.getTotalShift = mmrSize n
  data : p.backend.dataFile.contents.length + p.backend.pruneList.getTotalLeafShift = n
  pruned : ∀ pos ∈ p.backend.pruneList.bitmap, pos ≤ mmrSize n
  cached : ∀ pos ∈ p.backend.pruneList.prunedCache, pos ≤ mmrSize n

theorem Aligned.getShift {p : PMMR E} (h : p.Aligned n)
    : p.backend.pruneList.getShift (mmrSize n) = p.backend.pruneList.getTotalShift :=
  PruneList.cachedShift_of_le h.pruned

theorem Aligned.getLeafShift {p : PMMR E} (h : p.Aligned n)
    : p.backend.pruneList.getLeafShift (mmrSize n) = p.backend.pruneList.getTotalLeafShift :=
  PruneList.cachedShift_of_le h.pruned

theorem Aligned.of_leafSet {p : PMMR E} {n : Nat} (h : p.Aligned n) (leafSet : LeafSet)
    : PMMR.Aligned { p with backend := { p.backend with leafSet := leafSet } } n :=
  ⟨h.lastPos, h.hashTidy, h.dataTidy, h.hashes, h.data, h.pruned, h.cached⟩

theorem pushHashes_eq_ok {env : Env} {read : Nat → Option Hash} {n fuel height pos : Nat}
    {currentHash : Hash} {hashes : List Hash} {r : Nat × List Hash}
    (hones : ∀ i < height, n.testBit i = true) (hfuel : n < fuel + height)
    (hpos : pos = leafPos n + height)
    (h : pushHashes env read n fuel height pos currentHash hashes = .ok r)
    : r.1 = mmrSize (n + 1) ∧ ∃ parents, r.2 = hashes ++ parents ∧ pos + parents.length = r.1 := by
  induction fuel generalizing height pos currentHash hashes with
  | zero =>
    have := le_of_testBit_lt hones
    omega
  | succ fuel ih =>
    unfold pushHashes at h
    split at h
    . next hbit =>
      simp only [Outcome.bind_eq_ok, Outcome.okOr_eq_ok] at h
      obtain ⟨leftHash, -, h⟩ := h
      have hones' : ∀ i < height + 1, n.testBit i = true := by
        intro i hi
        rcases Nat.lt_or_ge i height with hlt | hge
        . exact hones i hlt
        . have : i = height := by omega
          rw [this]
          exact hbit
      obtain ⟨hsize, parents, happend, hlength⟩ := ih hones' (by omega) (by omega) h
      refine ⟨hsize, hashWithIndex env (leftHash.write ++ currentHash.write) pos :: parents, ?_, ?_⟩
      . rw [happend, List.append_assoc]
        rfl
      . simp only [List.length_cons]
        omega
    . next hbit =>
      injection h with h
      rw [← h]
      dsimp only
      refine ⟨?_, [], by simp, by simp⟩
      rw [hpos]
      exact (mmrSize_succ_of_testBit hones (by simpa using hbit)).symm

structure Appended (env : Env) (elmt : T) (n : Nat) (p p' : PMMR E) : Prop where
  aligned : p'.Aligned (n + 1)
  hashes : ∃ parents,
    p'.backend.hashFile.contents
      =
    p.backend.hashFile.contents ++ hashWithIndex env (PMMRable.write env elmt) (mmrSize n) :: parents
  data : p'.backend.dataFile.contents = p.backend.dataFile.contents ++ [PMMRable.asElmt env elmt]
  prunable : p'.backend.prunable = p.backend.prunable
  pruneList : p'.backend.pruneList = p.backend.pruneList
  leafSet : p'.backend.leafSet =
    if p.backend.prunable then p.backend.leafSet.add (leafPos n) else p.backend.leafSet

theorem Aligned.append {env : Env} {elmt : T} {p : PMMR E} {n : Nat} (h : p.Aligned n)
    {parents : List Hash} {pos : Nat} (hpos : pos = mmrSize (n + 1))
    (hparents : leafPos n + parents.length = pos)
    : Appended env elmt n p
        ⟨p.backend.append (PMMRable.asElmt env elmt)
          (hashWithIndex env (PMMRable.write env elmt) (mmrSize n) :: parents), pos⟩ := by
  have hhash := AppendOnlyFile.contents_foldl_append p.backend.hashFile
    (hashWithIndex env (PMMRable.write env elmt) (mmrSize n) :: parents)
  have hdata := AppendOnlyFile.contents_append p.backend.dataFile (PMMRable.asElmt env elmt : E)
  have hhashes := h.hashes
  have hdatas := h.data
  refine ⟨⟨hpos, h.hashTidy.foldl_append _, h.dataTidy.append _, ?_, ?_, ?_, ?_⟩, ⟨parents, hhash⟩,
    hdata, rfl, rfl, ?_⟩
  . simp only [PMMRBackend.append, hhash, List.length_append, List.length_cons]
    unfold leafPos at hparents
    omega
  . simp only [PMMRBackend.append, hdata, List.length_append, List.length_cons, List.length_nil]
    omega
  . intro x hx
    exact (h.pruned x hx).trans (mmrSize_lt_succ n).le
  . intro x hx
    exact (h.cached x hx).trans (mmrSize_lt_succ n).le
  . have hsize : (p.backend.dataFile.append (PMMRable.asElmt env elmt)).sizeUnsync
          + p.backend.pruneList.getTotalLeafShift
        = n + 1 := by
      rw [(h.dataTidy.append _).sizeUnsync_eq, hdata, List.length_append]
      simp only [List.length_cons, List.length_nil]
      omega
    simp only [PMMRBackend.append]
    rw [hsize, insertionToPmmrIndex_succ]

theorem Aligned.push {env : Env} {elmt : T} {p p' : PMMR E} {n pos : Nat} (h : p.Aligned n)
    (hpush : PMMR.push env elmt p = (.ok pos, p'))
    : pos = leafPos n ∧ Appended env elmt n p p' := by
  unfold PMMR.push at hpush
  have hmap : peakMapHeight (mmrSize n) = (n, 0) :=
    peakMapHeight_mmrSize_add (r := 0) (mmrSize_lt_succ _)
  simp only [h.lastPos, Nat.add_sub_cancel, hmap, ne_eq, not_true_eq_false, ↓reduceIte] at hpush
  split at hpush
  . next pos' hashes hhashes =>
    simp only [Prod.mk.injEq, Outcome.ok.injEq] at hpush
    obtain ⟨rfl, rfl⟩ := hpush
    obtain ⟨hpos', parents, rfl, hparents⟩ :=
      pushHashes_eq_ok (n := n) (by simp) (by omega) rfl hhashes
    exact ⟨rfl, h.append hpos' hparents⟩
  . simp at hpush
  . simp at hpush
  . simp at hpush

theorem getFromFile_of_prefix {b b' : PMMRBackend E} {pos : Nat} {hash : Hash} (hb : b.hashFile.Tidy)
    (hb' : b'.hashFile.Tidy) (hpruneList : b'.pruneList = b.pruneList)
    (hinitial : b.hashFile.contents <+: b'.hashFile.contents) (hhash : b.getFromFile pos = some hash)
    : b'.getFromFile pos = some hash := by
  unfold PMMRBackend.getFromFile PMMRBackend.isCompacted AppendOnlyFile.read at hhash ⊢
  rw [hpruneList, hb'.readAt_eq]
  rw [hb.readAt_eq] at hhash
  split at hhash
  . contradiction
  next hcompacted =>
  split at hhash
  . contradiction
  next hzero =>
  rw [if_neg hcompacted, if_neg hzero]
  obtain ⟨hlt, rfl⟩ := List.getElem?_eq_some_iff.mp hhash
  exact List.prefix_iff_getElem?.mp hinitial _ hlt

theorem getDataFromFile_of_prefix {b b' : PMMRBackend E} (hb : b.dataFile.Tidy)
    (hb' : b'.dataFile.Tidy) (hpruneList : b'.pruneList = b.pruneList)
    (hinitial : b.dataFile.contents <+: b'.dataFile.contents) (hx : b.getDataFromFile pos = some x)
    : b'.getDataFromFile pos = some x := by
  unfold PMMRBackend.getDataFromFile PMMRBackend.isCompacted AppendOnlyFile.read at hx ⊢
  rw [hpruneList, hb'.readAt_eq]
  rw [hb.readAt_eq] at hx
  split at hx
  . contradiction
  next hleaf =>
  split at hx
  . contradiction
  next hcompacted =>
  split at hx
  . contradiction
  next hzero =>
  rw [if_neg hleaf, if_neg hcompacted, if_neg hzero]
  obtain ⟨hlt, rfl⟩ := List.getElem?_eq_some_iff.mp hx
  exact List.prefix_iff_getElem?.mp hinitial _ hlt

theorem Aligned.not_compacted {p : PMMR E} (h : p.Aligned n) (hpos : mmrSize n < pos)
    : p.backend.isCompacted pos = false := by
  have hcached : pos ∉ p.backend.pruneList.prunedCache := fun hmem => by
    have := h.cached _ hmem
    omega
  simp [PMMRBackend.isCompacted, PruneList.isPruned, hcached]

theorem Aligned.le_of_getFromFile {p : PMMR E} {hash : Hash} (h : p.Aligned n)
    (hhash : p.backend.getFromFile pos = some hash)
    : pos ≤ mmrSize n := by
  by_contra hlt
  have hshift : p.backend.pruneList.getShift pos = p.backend.pruneList.getTotalShift :=
    PruneList.cachedShift_of_le fun x hx => by
      have := h.pruned x hx
      omega
  have hhashes := h.hashes
  unfold PMMRBackend.getFromFile AppendOnlyFile.read at hhash
  rw [h.not_compacted (Nat.lt_of_not_le hlt), hshift, if_neg (by simp), if_neg (by omega),
    h.hashTidy.readAt_eq, List.getElem?_eq_none (by omega)] at hhash
  contradiction

theorem Appended.getFromFile_new {env : Env} {elmt : T} {p p' : PMMR E} {n pos : Nat}
    (hp : p.Aligned n) (h : Appended env elmt n p p') (hpos : mmrSize n < pos)
    : p'.backend.getFromFile pos
        =
      p'.backend.hashFile.contents[p.backend.hashFile.contents.length + (pos - mmrSize n - 1)]? := by
  have hcompacted : p'.backend.isCompacted pos = false := by
    unfold PMMRBackend.isCompacted
    rw [h.pruneList]
    exact hp.not_compacted hpos
  have hshift : p.backend.pruneList.getShift pos = p.backend.pruneList.getTotalShift :=
    PruneList.cachedShift_of_le fun x hx => (hp.pruned x hx).trans hpos.le
  have hhashes := hp.hashes
  unfold PMMRBackend.getFromFile AppendOnlyFile.read
  rw [hcompacted, h.pruneList, hshift, h.aligned.hashTidy.readAt_eq]
  rw [if_neg (by simp), if_neg (by omega)]
  congr 1
  omega

theorem Appended.getFromFile {env : Env} {elmt : T} {p p' : PMMR E} {n : Nat} (hp : p.Aligned n)
    (h : Appended env elmt n p p')
    : p'.backend.getFromFile (leafPos n)
        =
      some (hashWithIndex env (PMMRable.write env elmt) (leafPos n - 1)) := by
  obtain ⟨parents, hcontents⟩ := h.hashes
  have hnew : mmrSize n < leafPos n := Nat.lt_succ_self _
  rw [h.getFromFile_new hp hnew, hcontents, List.getElem?_append_right (by omega)]
  simp [leafPos]

theorem Appended.getDataFromFile {env : Env} {elmt : T} {p p' : PMMR E} {n : Nat} (hp : p.Aligned n)
    (h : Appended env elmt n p p')
    : p'.backend.getDataFromFile (leafPos n) = some (PMMRable.asElmt env elmt) := by
  have hnew : mmrSize n < leafPos n := Nat.lt_succ_self _
  have hcompacted : p'.backend.isCompacted (leafPos n) = false := by
    unfold PMMRBackend.isCompacted
    rw [h.pruneList]
    exact hp.not_compacted hnew
  have hshift : p.backend.pruneList.getLeafShift (leafPos n)
      = p.backend.pruneList.getTotalLeafShift :=
    PruneList.cachedShift_of_le fun x hx => (hp.pruned x hx).trans hnew.le
  have hdata := hp.data
  have hindex : n + 1 - p.backend.pruneList.getTotalLeafShift - 1
      = p.backend.dataFile.contents.length := by
    omega
  unfold PMMRBackend.getDataFromFile AppendOnlyFile.read
  rw [isLeaf_leafPos, hcompacted, nLeaves_leafPos, h.pruneList, hshift, h.aligned.dataTidy.readAt_eq,
    hindex, h.data, List.getElem?_append_right (Nat.le_refl _)]
  rw [if_neg (by simp), if_neg (by simp), if_neg (by omega)]
  simp

theorem Appended.getFromFile_old {env : Env} {elmt : T} {p p' : PMMR E} {n pos : Nat} {hash : Hash}
    (hp : p.Aligned n) (h : Appended env elmt n p p') (hhash : p.backend.getFromFile pos = some hash)
    : p'.backend.getFromFile pos = some hash := by
  obtain ⟨parents, hcontents⟩ := h.hashes
  exact getFromFile_of_prefix hp.hashTidy h.aligned.hashTidy h.pruneList
    ⟨_, hcontents.symm⟩ hhash

theorem Appended.getDataFromFile_old {env : Env} {elmt : T} {p p' : PMMR E} {n pos : Nat} {x : E}
    (hp : p.Aligned n) (h : Appended env elmt n p p') (hx : p.backend.getDataFromFile pos = some x)
    : p'.backend.getDataFromFile pos = some x :=
  getDataFromFile_of_prefix hp.dataTidy h.aligned.dataTidy h.pruneList ⟨_, h.data.symm⟩ hx

structure Removed (pos : Nat) (p p' : PMMR E) : Prop where
  leaf : isLeaf pos = true
  unspent : pos ∈ p.backend.leafSet.bitmap
  found : ∃ hash, p.backend.getFromFile pos = some hash
  prunable : p.backend.prunable = true
  state : p' = { p with backend := p.backend.remove pos }

theorem removed_of_prune (h : PMMR.prune pos p = (.ok true, p'))
    : Removed pos p p' := by
  unfold PMMR.prune at h
  split at h
  . simp at h
  next hleaf =>
  split at h
  . simp at h
  next hhash =>
  split at h
  . simp at h
  next hprunable =>
  simp only [Bool.not_eq_eq_eq_not, Bool.not_true, Bool.not_eq_false] at hleaf hprunable
  obtain ⟨hash, hhash⟩ := Option.ne_none_iff_exists'.mp (by simpa using hhash)
  unfold PMMRBackend.getHash at hhash
  rw [hprunable, hleaf] at hhash
  simp only [Bool.true_and, Bool.not_eq_eq_eq_not, Bool.not_true, Option.ite_none_left_eq_some,
    Bool.not_eq_false] at hhash
  refine ⟨hleaf, by simpa [LeafSet.includes] using hhash.1, ⟨hash, hhash.2⟩, hprunable, ?_⟩
  simp only [Prod.mk.injEq] at h
  exact h.2.symm

theorem Removed.getHash (h : Removed pos p p') (hpos : pos ≤ p.lastPos)
    : p.getHash pos = p.backend.getFromFile pos := by
  have hincludes : p.backend.leafSet.includes pos = true := by
    simpa [LeafSet.includes] using h.unspent
  unfold PMMR.getHash PMMRBackend.getHash
  rw [if_neg (by omega), h.leaf, hincludes]
  simp

theorem bitmap_sync (p : PMMR E)
    : p.sync.backend.leafSet.bitmap = p.backend.leafSet.bitmap := by
  unfold PMMR.sync PMMRBackend.sync
  dsimp only
  split <;> rfl

theorem Aligned.sync {p : PMMR E} (h : p.Aligned n)
    : p.sync.Aligned n where
  lastPos := h.lastPos
  hashTidy := .flush _
  dataTidy := .flush _
  hashes := by
    have hcontents : p.sync.backend.hashFile.contents = p.backend.hashFile.contents :=
      h.hashTidy.contents_flush
    rw [hcontents]
    exact h.hashes
  data := by
    have hcontents : p.sync.backend.dataFile.contents = p.backend.dataFile.contents :=
      h.dataTidy.contents_flush
    rw [hcontents]
    exact h.data
  pruned := h.pruned
  cached := h.cached

theorem getFromFile_sync {p : PMMR E} (h : p.backend.hashFile.Tidy)
    : p.sync.backend.getFromFile = p.backend.getFromFile := by
  have htidy : p.sync.backend.hashFile.Tidy := .flush _
  have hcontents : p.sync.backend.hashFile.contents = p.backend.hashFile.contents :=
    h.contents_flush
  funext pos
  unfold PMMRBackend.getFromFile AppendOnlyFile.read
  rw [htidy.readAt_eq, h.readAt_eq, hcontents]
  rfl

theorem root_sync {p : PMMR E} (h : p.backend.hashFile.Tidy) (env : Env)
    : (p.sync.root env : Outcome ε Hash) = p.root env := by
  unfold PMMR.root PMMR.peaks
  rw [getFromFile_sync h]
  rfl

theorem Aligned.sync_eq {p : PMMR E} (h : p.Aligned n) (hsettled : p.backend.Settled)
    : p.backend.sync = p.backend := by
  have hleafSet : (if p.backend.prunable then p.backend.leafSet.flush else p.backend.leafSet)
      = p.backend.leafSet := by
    split
    . exact LeafSet.flush_eq hsettled.leafSet
    . rfl
  unfold PMMRBackend.sync
  rw [hsettled.hashFile.flush_eq h.hashTidy, hsettled.dataFile.flush_eq h.dataTidy, hleafSet]

theorem Aligned.reopen_eq {p : PMMR E} (h : p.Aligned n) (hsettled : p.backend.Settled)
    (hpruneList : p.backend.pruneList.reopen = p.backend.pruneList)
    : p.reopen = p := by
  have hbackend : p.backend.reopen = p.backend := by
    unfold PMMRBackend.reopen
    rw [hsettled.hashFile.reopen_eq h.hashTidy, hsettled.dataFile.reopen_eq h.dataTidy, hpruneList]
    have hleafSet : p.backend.leafSet.reopen = p.backend.leafSet :=
      LeafSet.discard_eq hsettled.leafSet rfl
    rw [hleafSet]
  have hsize : p.backend.unprunedSize = p.lastPos := by
    rw [h.lastPos, ← h.hashes, hsettled.hashFile.contents_eq h.hashTidy]
    rfl
  unfold PMMR.reopen
  rw [hbackend, hsize]

theorem lastParent_mmrSize_add (hr : mmrSize n + r < mmrSize (n + 1))
    (hfuel : mmrSize (n + 1) ≤ mmrSize n + r + 1 + fuel)
    : lastParent fuel (mmrSize n + r + 1) = mmrSize (n + 1) := by
  induction fuel generalizing r with
  | zero =>
    unfold lastParent
    omega
  | succ fuel ih =>
    unfold lastParent
    rcases Nat.lt_or_ge (mmrSize n + (r + 1)) (mmrSize (n + 1)) with hlt | hge
    . have hheight : bintreePostorderHeight (mmrSize n + r + 1 + 1) = r + 1 :=
        bintreePostorderHeight_mmrSize_add hlt
      rw [if_pos (by omega)]
      exact ih hlt (by omega)
    . have heq : mmrSize n + r + 1 = mmrSize (n + 1) := by omega
      have hheight := bintreePostorderHeight_mmrSize_add (n := n + 1) (r := 0) (mmrSize_lt_succ _)
      rw [heq, if_neg]
      simpa using hheight

theorem lastParent_leafPos (n : Nat)
    : lastParent (leafPos n + 1) (leafPos n) = mmrSize (n + 1) := by
  apply lastParent_mmrSize_add (r := 0) (mmrSize_lt_succ n)
  have hle : mmrSize (n + 1) ≤ 2 * (n + 1) := Nat.sub_le _ _
  have hge := le_mmrSize n
  unfold leafPos
  omega

theorem lastParent_mmrSize (n : Nat)
    : lastParent (mmrSize n + 1) (mmrSize n) = mmrSize n := by
  have hheight := bintreePostorderHeight_mmrSize_add (n := n) (r := 0) (mmrSize_lt_succ _)
  unfold lastParent
  rw [if_neg]
  simpa using hheight

structure Ahead (base p : PMMR E) : Prop where
  aligned : ∃ m, p.Aligned m
  hashes : base.backend.hashFile.contents <+: p.backend.hashFile.contents
  data : base.backend.dataFile.contents <+: p.backend.dataFile.contents
  prunable : p.backend.prunable = base.backend.prunable
  pruneList : p.backend.pruneList = base.backend.pruneList
  leafSet : base.backend.prunable = false → p.backend.leafSet = base.backend.leafSet
  unspent : ∀ pos ∈ p.backend.leafSet.bitmap, pos ≤ base.lastPos → pos ∈ base.backend.leafSet.bitmap

theorem Ahead.refl (h : base.Aligned n)
    : Ahead base base where
  aligned := ⟨n, h⟩
  hashes := List.prefix_rfl
  data := List.prefix_rfl
  prunable := rfl
  pruneList := rfl
  leafSet _ := rfl
  unspent _ hpos _ := hpos

theorem Ahead.lastPos_le (hbase : base.Aligned n) (h : Ahead base p)
    (hp : p.Aligned m)
    : mmrSize n ≤ mmrSize m := by
  have hhashes := hbase.hashes
  have hhashes' := hp.hashes
  have hle := h.hashes.length_le
  rw [h.pruneList] at hhashes'
  omega

theorem Ahead.push {env : Env} {elmt : T} {base p p' : PMMR E} {n pos : Nat} (hbase : base.Aligned n)
    (h : Ahead base p) (hpush : PMMR.push env elmt p = (.ok pos, p'))
    : Ahead base p' := by
  obtain ⟨m, hp⟩ := h.aligned
  have hle := h.lastPos_le hbase hp
  obtain ⟨-, happended⟩ := hp.push hpush
  obtain ⟨parents, hhashes⟩ := happended.hashes
  have hleafSet := happended.leafSet
  refine ⟨⟨m + 1, happended.aligned⟩, ?_, ?_, happended.prunable.trans h.prunable,
    happended.pruneList.trans h.pruneList, ?_, ?_⟩
  . rw [hhashes]
    exact h.hashes.trans (List.prefix_append _ _)
  . rw [happended.data]
    exact h.data.trans (List.prefix_append _ _)
  . intro hfalse
    rw [hleafSet, h.prunable, hfalse, if_neg (by simp), h.leafSet hfalse]
  . intro x hx hlt
    rw [hleafSet] at hx
    split at hx
    . rcases Finset.mem_insert.mp hx with rfl | hmem
      . -- the new leaf is behind the end
        rw [hbase.lastPos] at hlt
        unfold leafPos at hlt
        omega
      . exact h.unspent x hmem hlt
    . exact h.unspent x hx hlt

theorem Ahead.remove (h : Ahead base p) (hprunable : p.backend.prunable = true)
    (pos : Nat)
    : Ahead base { p with backend := p.backend.remove pos } := by
  obtain ⟨m, hp⟩ := h.aligned
  refine ⟨⟨m, hp.of_leafSet _⟩, h.hashes, h.data, h.prunable, h.pruneList, ?_, ?_⟩
  . intro hfalse
    rw [← h.prunable, hprunable] at hfalse
    contradiction
  . intro x hx
    exact h.unspent x (Finset.mem_of_mem_erase hx)

theorem Ahead.sync (h : Ahead base p)
    : Ahead base p.sync := by
  obtain ⟨m, hp⟩ := h.aligned
  have hhashes : p.sync.backend.hashFile.contents = p.backend.hashFile.contents :=
    hp.hashTidy.contents_flush
  have hdata : p.sync.backend.dataFile.contents = p.backend.dataFile.contents :=
    hp.dataTidy.contents_flush
  refine ⟨⟨m, hp.sync⟩, ?_, ?_, h.prunable, h.pruneList, ?_, ?_⟩
  . rw [hhashes]
    exact h.hashes
  . rw [hdata]
    exact h.data
  . intro hfalse
    rw [← h.leafSet hfalse]
    simp [PMMR.sync, PMMRBackend.sync, h.prunable, hfalse]
  . rw [bitmap_sync]
    exact h.unspent

theorem Ahead.getDataFromFile {base p : PMMR E} (hbase : base.Aligned n)
    (h : Ahead base p) (hx : base.backend.getDataFromFile pos = some x)
    : p.backend.getDataFromFile pos = some x := by
  obtain ⟨m, hp⟩ := h.aligned
  exact getDataFromFile_of_prefix hbase.dataTidy hp.dataTidy h.pruneList h.data hx

def unspentUpTo (p : PMMR E) (pos : Nat) : Bitmap := p.backend.leafSet.rewound pos ∅

-- what a rewind to the former size makes of the mountain range, once it is written
def takenBack (base p : PMMR E) : PMMR E :=
  let leafSet : LeafSet := ⟨p.unspentUpTo base.lastPos, p.unspentUpTo base.lastPos⟩
  { base with backend := { base.backend with
    leafSet := if base.backend.prunable then leafSet else base.backend.leafSet } }

theorem Ahead.flush_rewind {base p : PMMR E} (hbase : base.Aligned n)
    (hsettled : base.backend.Settled) (h : Ahead base p) (hhash : p.backend.hashFile.buffer = [])
    (hdata : p.backend.dataFile.buffer = [])
    (hposition : lastParent (position + 1) position = mmrSize n) (rewindRmPos : Bitmap)
    : (p.rewind position rewindRmPos).backend.hashFile.flush = base.backend.hashFile
        ∧
      (p.rewind position rewindRmPos).backend.dataFile.flush = base.backend.dataFile
        ∧
      (p.rewind position rewindRmPos).backend.hashFile.Tidy := by
  obtain ⟨m, hp⟩ := h.aligned
  have hshift : mmrSize n - p.backend.pruneList.getShift (mmrSize n)
      = base.backend.hashFile.contents.length := by
    rw [h.pruneList, hbase.getShift, ← hbase.hashes, Nat.add_sub_cancel]
  have hleafShift : nLeaves (mmrSize n) - p.backend.pruneList.getLeafShift (mmrSize n)
      = base.backend.dataFile.contents.length := by
    rw [h.pruneList, hbase.getLeafShift, nLeaves_mmrSize]
    have := hbase.data
    omega
  have hhashFile : (p.rewind position rewindRmPos).backend.hashFile
      = p.backend.hashFile.rewind base.backend.hashFile.contents.length := by
    simp only [PMMR.rewind, PMMRBackend.rewind, hposition, hshift]
  have hdataFile : (p.rewind position rewindRmPos).backend.dataFile
      = p.backend.dataFile.rewind base.backend.dataFile.contents.length := by
    simp only [PMMR.rewind, PMMRBackend.rewind, hposition, hleafShift]
  rw [hhashFile, hdataFile]
  refine ⟨hsettled.hashFile.flush_rewind hbase.hashTidy hp.hashTidy hhash h.hashes,
    hsettled.dataFile.flush_rewind hbase.dataTidy hp.dataTidy hdata h.data, ?_⟩
  apply hp.hashTidy.rewind
  rw [hp.hashTidy.start_eq hhash]
  exact h.hashes.length_le

theorem Ahead.sync_rewind (hbase : base.Aligned n)
    (hsettled : base.backend.Settled) (h : Ahead base p) (hhash : p.backend.hashFile.buffer = [])
    (hdata : p.backend.dataFile.buffer = [])
    (hposition : lastParent (position + 1) position = mmrSize n)
    : (p.rewind position ∅).sync = takenBack base p ∧ (p.rewind position ∅).backend.hashFile.Tidy := by
  obtain ⟨hflushHash, hflushData, htidy⟩ := h.flush_rewind hbase hsettled hhash hdata hposition ∅
  refine ⟨?_, htidy⟩
  unfold PMMR.sync PMMRBackend.sync takenBack unspentUpTo
  rw [hflushHash, hflushData]
  unfold PMMR.rewind PMMRBackend.rewind
  dsimp only
  rw [hposition, h.prunable, h.pruneList, hbase.lastPos]
  cases hprunable : base.backend.prunable with
  | true => simp [LeafSet.flush, LeafSet.rewind]
  | false => simp [h.leafSet hprunable]

end PMMR
end Epic
