import Epic.Chain.Bitmaps
import Epic.Chain.HeadState

/-!
This module contains the search for the header of the block that created an unspent output. The position
of the output lies between the sizes that two headers in a row give for the output mountain range.
-/

namespace Epic

open Pmmr

namespace Chain

def isUnspent (env : Env) (c : Chain) (outputId : OutputIdentifier)
    : Outcome ErrorKind (Hash × Nat) :=
  match c.store.batch.getOutputPos outputId.commit with
  | some pos =>
    match c.txhashset.outputPmmr.getHash pos with
    | some hash =>
      if hash = hashWithIndex env outputId.write (pos - 1) then
        .ok (hash, pos)
      else
        .err (.txHashSetErr "txhashset hash mismatch")
    | none => .err .outputNotFound
  | none => .err .outputNotFound

def getHeaderByHeight (c : Chain) (height : UInt64) : Outcome ErrorKind BlockHeader := do
  let hash ← getHeaderHashByHeight c.txhashset height
  c.store.batch.getBlockHeader hash

-- A round that leaves both bounds as they are is repeated forever. Any other brings them closer, so that
-- more rounds than they are apart never end.
def getHeaderForOutput.go (c : Chain) (pos : Nat) (fuel : Nat) (min max : UInt64)
    : Outcome ErrorKind BlockHeader :=
  match fuel with
  | 0 => .hang
  | fuel + 1 => do
    let searchHeight := max - (max - min) / 2
    let h ← c.getHeaderByHeight searchHeight
    if searchHeight = 0 then
      .ok h
    else do
      let hPrev ← c.getHeaderByHeight (searchHeight - 1)
      if pos > h.outputMmrSize.toNat then
        go c pos fuel searchHeight max
      else if pos < hPrev.outputMmrSize.toNat then
        go c pos fuel min searchHeight
      else if pos = hPrev.outputMmrSize.toNat then
        .ok hPrev
      else
        .ok h

def getHeaderForOutput (env : Env) (c : Chain) (outputRef : OutputIdentifier)
    : Outcome ErrorKind BlockHeader := do
  let (_, pos) ← c.isUnspent env outputRef
  let head ← .okOr c.store.head (.storeErr (.notFoundErr "HEAD" []) "chain head")
  getHeaderForOutput.go c pos (head.height.toNat + 1) 0 head.height

structure Creates (branch : List BlockHeader) (pos n : Nat) (header : BlockHeader) : Prop where
  isHeader : branch[n + 1]? = some header
  above : ∃ prev, branch[n]? = some prev ∧ prev.outputMmrSize.toNat < pos
  within : pos ≤ header.outputMmrSize.toNat

-- every block after the genesis block adds an output
def Increasing (branch : List BlockHeader) : Prop :=
  ∀ n header next, 1 ≤ n → branch[n]? = some header → branch[n + 1]? = some next →
    header.outputMmrSize < next.outputMmrSize

section

variable {env : Env} {c : Chain} {branch : List BlockHeader} {head header : BlockHeader} {pos : Nat}

theorem isUnspent_le {outputId : OutputIdentifier} {hash : Hash}
    (h : c.isUnspent env outputId = .ok (hash, pos))
    : pos ≤ c.txhashset.outputPmmr.unprunedSize := by
  unfold isUnspent at h
  split at h
  . split at h
    . next hhash =>
      split at h
      . cases h
        unfold PMMR.getHash at hhash
        split at hhash
        . contradiction
        . next hle => exact Nat.le_of_not_lt hle
      . contradiction
    . contradiction
  . contradiction

theorem AtHead.getHeaderByHeight (h : AtHead env c branch head)
    (hheader : branch[height.toNat]? = some header)
    : c.getHeaderByHeight height = .ok header := by
  refine Outcome.bind_eq_ok.mpr ⟨header.hash env, ?_, ?_⟩
  . unfold getHeaderHashByHeight
    rw [Outcome.okOr_eq_ok, insertionToPmmrIndex_succ, h.headerHash, hheader]
    rfl
  . exact Outcome.okOr_eq_ok.mpr (h.ancestors.stored header (List.mem_of_getElem? hheader))

theorem Increasing.le (h : Increasing branch) (hn : 1 ≤ n)
    (hnm : n ≤ m) (hheader : branch[n]? = some header) (hnext : branch[m]? = some next)
    : header.outputMmrSize.toNat ≤ next.outputMmrSize.toNat := by
  refine outputMmrSize_le_of_steps (fun i header next hi hheader hnext => ?_) hnm hheader hnext
  have hlt := h i header next (by omega) hheader hnext
  rw [UInt64.lt_iff_toNat_lt] at hlt
  exact hlt.le

theorem Creates.unique (hsizes : Increasing branch)
    (h : Creates branch pos n header) (h' : Creates branch pos m header')
    : n = m := by
  have hnot {n m : Nat} {header header' : BlockHeader} (h : Creates branch pos n header)
      (h' : Creates branch pos m header') (hlt : n < m) : False := by
    obtain ⟨prev, hprev, habove⟩ := h'.above
    have hle := hsizes.le (by omega) (by omega : n + 1 ≤ m) h.isHeader hprev
    have hwithin := h.within
    omega
  rcases Nat.lt_trichotomy n m with hlt | heq | hgt
  . exact (hnot h h' hlt).elim
  . exact heq
  . exact (hnot h' h hgt).elim

-- the output was created above the lower bound and not above the upper one
structure Between (branch : List BlockHeader) (pos : Nat) (min max : UInt64) : Prop where
  lt : min.toNat < max.toNat
  lower : ∃ low, branch[min.toNat]? = some low ∧ low.outputMmrSize.toNat < pos
  upper : ∃ high, branch[max.toNat]? = some high ∧ pos ≤ high.outputMmrSize.toNat

theorem Between.creates {min max : UInt64} {n : Nat} (h : Between branch pos min max)
    (hsizes : Increasing branch) (hn : min.toNat < n) (hheader : branch[n]? = some header)
    (hsize : pos = header.outputMmrSize.toNat)
    : Creates branch pos (n - 1) header := by
  obtain ⟨m, rfl⟩ : ∃ m, n = m + 1 := ⟨n - 1, by omega⟩
  obtain ⟨hlength, -⟩ := List.getElem?_eq_some_iff.mp hheader
  have hprev : branch[m]? = some branch[m] := List.getElem?_eq_getElem (by omega)
  refine ⟨hheader, ⟨branch[m], hprev, ?_⟩, hsize.le⟩
  rcases Nat.eq_or_lt_of_le (Nat.le_of_lt_succ hn) with hmin | hmin
  . obtain ⟨low, hlow, hlower⟩ := h.lower
    rw [hmin, hprev, Option.some.injEq] at hlow
    rw [hlow]
    exact hlower
  . rw [hsize, ← UInt64.lt_iff_toNat_lt]
    exact hsizes m branch[m] header (by omega) hprev hheader

theorem searchHeight_toNat {min max : UInt64} (h : min.toNat < max.toNat)
    : (max - (max - min) / 2).toNat = max.toNat - (max.toNat - min.toNat) / 2 := by
  have hsub : (max - min).toNat = max.toNat - min.toNat :=
    UInt64.toNat_sub_of_le _ _ (UInt64.le_iff_toNat_le.mpr h.le)
  have hhalf : ((max - min) / 2).toNat = (max.toNat - min.toNat) / 2 := by
    rw [UInt64.toNat_div, hsub]
    rfl
  rw [UInt64.toNat_sub_of_le _ _ (UInt64.le_iff_toNat_le.mpr (by omega)), hhalf]

theorem AtHead.go_eq_ok (h : AtHead env c branch head) (hsizes : Increasing branch)
    {fuel : Nat} {min max : UInt64} (hbetween : Between branch pos min max)
    (hfuel : max.toNat - min.toNat ≤ fuel)
    : ∃ n header, Creates branch pos n header ∧ getHeaderForOutput.go c pos fuel min max = .ok header := by
  induction fuel generalizing min max with
  | zero =>
    have hlt := hbetween.lt
    omega
  | succ fuel ih =>
    obtain ⟨hlt, ⟨low, hlow, hlower⟩, high, hhigh, hupper⟩ := hbetween
    have hsearch := searchHeight_toNat hlt
    unfold getHeaderForOutput.go
    dsimp only
    generalize max - (max - min) / 2 = searchHeight at hsearch ⊢
    obtain ⟨hlength, -⟩ := List.getElem?_eq_some_iff.mp hhigh
    have hone : (searchHeight - 1).toNat = searchHeight.toNat - 1 :=
      UInt64.toNat_sub_of_le _ _ (UInt64.le_iff_toNat_le.mpr (by simp; omega))
    have hzero : searchHeight ≠ 0 := by
      rintro rfl
      rw [UInt64.toNat_zero] at hsearch
      omega
    obtain ⟨prev, hprev⟩ : ∃ prev, branch[searchHeight.toNat - 1]? = some prev :=
      ⟨_, List.getElem?_eq_getElem (by omega)⟩
    obtain ⟨found, hfound⟩ : ∃ found, branch[searchHeight.toNat]? = some found :=
      ⟨_, List.getElem?_eq_getElem (by omega)⟩
    have hnext : branch[searchHeight.toNat - 1 + 1]? = some found := by
      rw [Nat.sub_add_cancel (by omega)]
      exact hfound
    rw [h.getHeaderByHeight hfound, Outcome.ok_bind, if_neg hzero,
      h.getHeaderByHeight (hone ▸ hprev), Outcome.ok_bind]
    -- the header before the one that is looked at is the lower bound or above it
    have habove : pos ≤ prev.outputMmrSize.toNat → min.toNat < searchHeight.toNat - 1 := by
      intro hle
      refine Nat.lt_of_le_of_ne (by omega) ?_
      intro heq
      rw [← heq, hlow, Option.some.injEq] at hprev
      rw [← hprev] at hle
      omega
    split
    . next hgt =>
      -- the position is not above the upper bound, so that it was not looked at
      have hne : searchHeight.toNat ≠ max.toNat := by
        intro heq
        rw [heq, hhigh, Option.some.injEq] at hfound
        rw [hfound] at hupper
        omega
      exact ih ⟨by omega, ⟨found, hfound, hgt⟩, high, hhigh, hupper⟩ (by omega)
    . next hle =>
      split
      . next hlt' =>
        have hmin := habove hlt'.le
        exact ih ⟨by omega, ⟨low, hlow, hlower⟩, found, hfound, by omega⟩ (by omega)
      . next hge =>
        split
        . next heq =>
          have hmin := habove heq.le
          exact ⟨_, prev, Between.creates ⟨hlt, ⟨low, hlow, hlower⟩, high, hhigh, hupper⟩ hsizes hmin
            hprev heq, rfl⟩
        . next hne => exact ⟨_, found, ⟨hnext, ⟨prev, hprev, by omega⟩, by omega⟩, rfl⟩

theorem header_for_output_is_creator {outputRef : OutputIdentifier} {hash : Hash} {first : BlockHeader}
    (h : AtHead env c branch head) (hsizes : Increasing branch)
    (hunspent : c.isUnspent env outputRef = .ok (hash, pos))
    (hfirst : branch.head? = some first) (hpos : first.outputMmrSize.toNat < pos)
    : ∃ n header,
        c.getHeaderForOutput env outputRef = .ok header
          ∧
        Creates branch pos n header
          ∧
        ∀ m other, Creates branch pos m other → m = n ∧ other = header := by
  have hlast := h.isLast
  have hheight := h.ancestors.height_getLast hlast
  rw [List.getLast?_eq_getElem?, ← hheight, Nat.add_sub_cancel] at hlast
  rw [List.head?_eq_getElem?] at hfirst
  have hupper : pos ≤ head.outputMmrSize.toNat := h.outputSize ▸ isUnspent_le hunspent
  have hlt : 0 < head.height.toNat := by
    rw [Nat.pos_iff_ne_zero]
    intro hzero
    rw [hzero, hfirst, Option.some.injEq] at hlast
    rw [hlast] at hpos
    omega
  have hbetween : Between branch pos 0 head.height :=
    ⟨hlt, ⟨first, hfirst, hpos⟩, head, hlast, hupper⟩
  have hfuel : head.height.toNat - UInt64.toNat 0 ≤ head.height.toNat + 1 :=
    Nat.le_succ_of_le (Nat.sub_le _ _)
  obtain ⟨n, header, hcreates, hgo⟩ := h.go_eq_ok hsizes hbetween hfuel
  refine ⟨n, header, ?_, hcreates, ?_⟩
  . unfold getHeaderForOutput
    rw [hunspent, Outcome.ok_bind, h.isHead]
    exact hgo
  . intro m other hother
    obtain rfl := hother.unique hsizes hcreates
    refine ⟨rfl, ?_⟩
    have hsame := hother.isHeader
    rw [hcreates.isHeader, Option.some.injEq] at hsame
    exact hsame.symm

end

namespace Sample

def submissions : List Submission := [⟨clock, main₁, .none⟩, ⟨clock, main₂, .none⟩]

def twice : Chain := ((start.submit env ⟨clock, main₁, .none⟩).2.submit env ⟨clock, main₂, .none⟩).2

theorem facts_twice
    : (start.submit env ⟨clock, main₁, .none⟩).1.Returns
        ∧ ((start.submit env ⟨clock, main₁, .none⟩).2.submit env ⟨clock, main₂, .none⟩).1.Returns
        ∧ twice.store.Branch env genesis [genesis, main₁, main₂]
        ∧ twice.store.head = some (.fromHeader env main₂.header)
        ∧ twice.isUnspent env (.fromOutput (reward 1))
          = .ok (hashWithIndex env (OutputIdentifier.fromOutput (reward 1)).write 0, 1)
        ∧ genesis.header.outputMmrSize = 0
        ∧ main₁.header.outputMmrSize = 1
        ∧ main₂.header.outputMmrSize = 3 := by
  decide +kernel

theorem atHead_twice
    : AtHead env twice [genesis.header, main₁.header, main₂.header] main₂.header := by
  obtain ⟨h₁, h₂, hbranch, hhead, -⟩ := facts_twice
  have hsubmit : start.submitAll env submissions = some twice := by
    rw [submissions, submitAll, if_pos h₁, submitAll, if_pos h₂]
    rfl
  obtain ⟨branch, hrun⟩ := exists_run init_start rfl rfl rfl (.inr (by decide)) hsubmit
  have heq := hrun.onBranch.current.eq_of_head hbranch rfl hhead
  have hon := hrun.onBranch
  rw [← heq] at hon
  exact hon.atHead rfl

end Sample

open Sample in
theorem header_for_output_is_creator_main₁
    : twice.getHeaderForOutput env (.fromOutput (reward 1)) = .ok main₁.header
        ∧
      Creates [Sample.genesis.header, main₁.header, main₂.header] 1 0 main₁.header := by
  obtain ⟨-, -, -, -, hunspent, hsize₀, hsize₁, hsize₂⟩ := facts_twice
  have hsizes : Increasing [Sample.genesis.header, main₁.header, main₂.header] := by
    intro n header next hn hheader hnext
    match n with
    | 1 =>
      cases hheader
      cases hnext
      rw [hsize₁, hsize₂]
      decide
    | n + 2 => contradiction
  have hcreates : Creates [Sample.genesis.header, main₁.header, main₂.header] 1 0 main₁.header :=
    ⟨rfl, ⟨_, rfl, by rw [hsize₀]; decide⟩, by rw [hsize₁]; decide⟩
  obtain ⟨n, header, hheader, -, hunique⟩ := header_for_output_is_creator atHead_twice hsizes
    hunspent rfl (by rw [hsize₀]; decide)
  obtain ⟨-, rfl⟩ := hunique 0 _ hcreates
  exact ⟨hheader, hcreates⟩

end Chain
end Epic
