import Epic.Util.MachineInt

/-!
This module contains the epochs of RandomX. The seed of an epoch is the hash of the first block of a
thousand, and is used after a lag of an hour. The limits of an epoch and the seed of a height disagree
about the block at the end of the lag.
-/

namespace Epic
namespace RandomX

open MachineInt

variable {ε : Type}

def seedhashEpochBlocks : UInt64 := 1000
def seedhashEpochLag : UInt64 := 60

def rxEpochStart (checks : Bool) (epochHeight : UInt64) : Outcome ε UInt64 :=
  if epochHeight = 0 then
    .ok 0
  else
    add checks epochHeight seedhashEpochLag

def rxEpochEnd (checks : Bool) (epochHeight : UInt64) : Outcome ε UInt64 :=
  if epochHeight = 0 then
    .ok (seedhashEpochBlocks + seedhashEpochLag)
  else do
    let start ← add checks epochHeight seedhashEpochLag
    add checks start seedhashEpochBlocks

def rxNextSeedHeight (checks : Bool) (height : UInt64) : Outcome ε (Option UInt64) := do
  let nextHeight ← sub checks height (height % seedhashEpochBlocks)
  if height ≤ seedhashEpochBlocks then
    return none
  else
    let prev ← sub checks height 1
    return if prev % seedhashEpochBlocks ≤ seedhashEpochLag then some nextHeight else none

def rxCurrentSeedHeight {ε : Type} (checks : Bool) (height : UInt64) : Outcome ε UInt64 :=
  if height ≤ seedhashEpochLag + seedhashEpochBlocks then
    .ok 0
  else if height % seedhashEpochBlocks ≤ seedhashEpochLag then do
    let start ← sub checks height (height % seedhashEpochBlocks)
    sub checks start seedhashEpochBlocks
  else
    sub checks height (height % seedhashEpochBlocks)

def currentSeed (height : Nat) : Nat :=
  if height ≤ 1060 then
    0
  else if height % 1000 ≤ 60 then
    height - height % 1000 - 1000
  else
    height - height % 1000

def epochStart (seed : Nat) : Nat := if seed = 0 then 0 else seed + 60

def epochEnd (seed : Nat) : Nat := if seed = 0 then 1060 else seed + 1060

def nextSeed (height : Nat) : Option Nat :=
  if height ≤ 1000 then
    none
  else if (height - 1) % 1000 ≤ 60 then
    some (height - height % 1000)
  else
    none

theorem toNat_epochBlocks : seedhashEpochBlocks.toNat = 1000 := rfl

theorem toNat_epochLag : seedhashEpochLag.toNat = 60 := rfl

theorem toNat_mod_epochBlocks (height : UInt64)
    : (height % seedhashEpochBlocks).toNat = height.toNat % 1000 := by
  rw [UInt64.toNat_mod, toNat_epochBlocks]

theorem rxCurrentSeedHeight_ok (checks : Bool) (height : UInt64)
    : ∃ s, (rxCurrentSeedHeight checks height : Outcome ε UInt64) = .ok s
        ∧ s.toNat = currentSeed height.toNat := by
  have hmod := toNat_mod_epochBlocks height
  have hblocks := toNat_epochBlocks
  have hfirst : (seedhashEpochLag + seedhashEpochBlocks).toNat = 1060 := rfl
  have hle : (height % seedhashEpochBlocks).toNat ≤ height.toNat := by
    rw [hmod]
    exact Nat.mod_le _ _
  have hstart : (height - height % seedhashEpochBlocks).toNat = height.toNat - height.toNat % 1000 := by
    rw [UInt64.toNat_sub_of_le _ _ (UInt64.le_iff_toNat_le.mpr hle), hmod]
  unfold rxCurrentSeedHeight currentSeed
  simp only [UInt64.le_iff_toNat_le, hfirst, hmod, toNat_epochLag]
  split
  . exact ⟨0, rfl, rfl⟩
  split
  . have hprev : seedhashEpochBlocks.toNat ≤ (height - height % seedhashEpochBlocks).toNat := by omega
    rw [sub_eq_ok hle, Outcome.ok_bind, sub_eq_ok hprev]
    refine ⟨_, rfl, ?_⟩
    rw [UInt64.toNat_sub_of_le _ _ (UInt64.le_iff_toNat_le.mpr hprev), hstart, hblocks]
  . rw [sub_eq_ok hle]
    exact ⟨_, rfl, hstart⟩

theorem rxNextSeedHeight_ok (checks : Bool) (height : UInt64)
    : ∃ next, (rxNextSeedHeight checks height : Outcome ε (Option UInt64)) = .ok next
        ∧ next.map UInt64.toNat = nextSeed height.toNat := by
  have hmod := toNat_mod_epochBlocks height
  have hle : (height % seedhashEpochBlocks).toNat ≤ height.toNat := by
    rw [hmod]
    exact Nat.mod_le _ _
  have hone : (1 : UInt64).toNat = 1 := rfl
  unfold rxNextSeedHeight nextSeed
  rw [sub_eq_ok hle, Outcome.ok_bind]
  simp only [UInt64.le_iff_toNat_le, toNat_epochBlocks]
  split
  . exact ⟨none, rfl, rfl⟩
  . next hgt =>
    have hpos : (1 : UInt64).toNat ≤ height.toNat := by omega
    rw [sub_eq_ok hpos, Outcome.ok_bind, toNat_mod_epochBlocks, toNat_epochLag,
      UInt64.toNat_sub_of_le _ _ (UInt64.le_iff_toNat_le.mpr hpos), hone]
    refine ⟨_, rfl, ?_⟩
    split
    . rw [Option.map_some, UInt64.toNat_sub_of_le _ _ (UInt64.le_iff_toNat_le.mpr hle), hmod]
    . rfl

theorem eq_zero_iff (s : UInt64)
    : s = 0 ↔ s.toNat = 0 := by
  rw [← UInt64.toNat_inj]
  rfl

theorem rxEpochStart_ok (checks : Bool) (h : s.toNat + 60 < 2 ^ 64)
    : ∃ start, (rxEpochStart checks s : Outcome ε UInt64) = .ok start ∧ start.toNat = epochStart s.toNat := by
  unfold rxEpochStart epochStart
  simp only [eq_zero_iff]
  split
  . exact ⟨0, rfl, rfl⟩
  . rw [add_eq_ok (by rw [toNat_epochLag]; exact h)]
    refine ⟨_, rfl, ?_⟩
    rw [UInt64.toNat_add, toNat_epochLag, Nat.mod_eq_of_lt h]

theorem rxEpochEnd_ok (checks : Bool) (h : s.toNat + 60 < 2 ^ 64)
    : (rxEpochEnd checks s : Outcome ε UInt64)
        = if s = 0 then .ok 1060 else add checks (s + seedhashEpochLag) seedhashEpochBlocks := by
  have hfirst : seedhashEpochBlocks + seedhashEpochLag = 1060 := by decide
  unfold rxEpochEnd
  rw [hfirst, add_eq_ok (by rw [toNat_epochLag]; exact h), Outcome.ok_bind]

theorem toNat_of_rxEpochEnd (h : s.toNat + 60 < 2 ^ 64)
    (hstop : (rxEpochEnd checks s : Outcome ε UInt64) = .ok stop)
    : stop.toNat = epochEnd s.toNat % 2 ^ 64 := by
  have hlag := toNat_epochLag
  have hblocks := toNat_epochBlocks
  rw [rxEpochEnd_ok checks h] at hstop
  unfold epochEnd
  split at hstop
  . next hzero =>
    rw [if_pos ((eq_zero_iff s).mp hzero), ← Outcome.ok.inj hstop]
    rfl
  . next hne =>
    rw [if_neg (mt (eq_zero_iff s).mpr hne), eq_add_of_add hstop, UInt64.toNat_add, UInt64.toNat_add,
      hlag, hblocks]
    omega

theorem rxEpochEnd_eq_ok (checks : Bool) (h : epochEnd s.toNat < 2 ^ 64)
    : ∃ stop, (rxEpochEnd checks s : Outcome ε UInt64) = .ok stop ∧ stop.toNat = epochEnd s.toNat := by
  have hlag := toNat_epochLag
  have hblocks := toNat_epochBlocks
  have hstart : s.toNat + 60 < 2 ^ 64 := by
    unfold epochEnd at h
    split at h <;> omega
  have hstop : ∃ stop, (rxEpochEnd checks s : Outcome ε UInt64) = .ok stop := by
    rw [rxEpochEnd_ok checks hstart]
    split
    . exact ⟨_, rfl⟩
    . next hne =>
      rw [epochEnd, if_neg (mt (eq_zero_iff s).mpr hne)] at h
      rw [add_eq_ok (by rw [UInt64.toNat_add, hlag, hblocks]; omega)]
      exact ⟨_, rfl⟩
  obtain ⟨stop, hstop⟩ := hstop
  exact ⟨stop, hstop, by rw [toNat_of_rxEpochEnd hstart hstop, Nat.mod_eq_of_lt h]⟩

/-!
A height is in the epoch of its seed but for the last block of the lag, and the next seed is announced
until one block after it.
-/

def SeedHeight (s : UInt64) : Prop := s.toNat % 1000 = 0

structure InEpoch (ε : Type) (checks : Bool) (seed height : UInt64) : Prop where
  exists_limits : ∃ start stop,
    (rxEpochStart checks seed : Outcome ε UInt64) = .ok start
      ∧ (rxEpochEnd checks seed : Outcome ε UInt64) = .ok stop
      ∧ start ≤ height
      ∧ height < stop

structure OwnEpoch (ε : Type) (checks : Bool) (height : UInt64) : Prop where
  exists_seed : ∃ s,
    (rxCurrentSeedHeight checks height : Outcome ε UInt64) = .ok s
      ∧ InEpoch ε checks s height
      ∧ ∀ s', SeedHeight s' → s' ≠ s → ¬ InEpoch ε checks s' height

structure NextSeed (ε : Type) (checks : Bool) (height : UInt64) : Prop where
  spec : ∀ s n,
    (rxCurrentSeedHeight checks height : Outcome ε UInt64) = .ok s →
    (rxNextSeedHeight checks height : Outcome ε (Option UInt64)) = .ok (some n) →
    s < n
      ∧ SeedHeight n
      ∧ (∀ s', SeedHeight s' → s < s' → n ≤ s')
      ∧ (∃ stop, (rxEpochEnd checks s : Outcome ε UInt64) = .ok stop
          ∧ (rxCurrentSeedHeight checks stop : Outcome ε UInt64) = .ok n)
      ∧ n ≤ height

theorem seedHeight_add_lt (h : SeedHeight s)
    : s.toNat + 60 < 2 ^ 64 := by
  have := s.toNat_lt
  unfold SeedHeight at h
  omega

theorem currentSeed_mod (height : Nat)
    : currentSeed height % 1000 = 0 := by
  unfold currentSeed
  split
  . rfl
  split <;> omega

theorem inEpoch_iff (hs : SeedHeight s)
    : InEpoch ε checks s height
        ↔
      epochStart s.toNat ≤ height.toNat ∧ height.toNat < epochEnd s.toNat ∧ epochEnd s.toNat < 2 ^ 64 := by
  have hfits := seedHeight_add_lt hs
  have hlt := s.toNat_lt
  constructor
  . rintro ⟨start, stop, hstart, hstop, hge, hbefore⟩
    obtain ⟨start', hstart', hval⟩ := rxEpochStart_ok (ε := ε) checks hfits
    obtain rfl := Outcome.ok.inj (hstart.symm.trans hstart')
    rw [UInt64.le_iff_toNat_le, hval] at hge
    rw [UInt64.lt_iff_toNat_lt, toNat_of_rxEpochEnd hfits hstop] at hbefore
    -- a limit that wraps around is below the start of the epoch
    unfold epochStart epochEnd at *
    split_ifs at hge hbefore ⊢ <;> omega
  . rintro ⟨hge, hlt, hend⟩
    obtain ⟨start, hstart, hstartVal⟩ := rxEpochStart_ok (ε := ε) checks hfits
    obtain ⟨stop, hstop, hstopVal⟩ := rxEpochEnd_eq_ok (ε := ε) checks hend
    refine ⟨start, stop, hstart, hstop, ?_, ?_⟩
    . rwa [UInt64.le_iff_toNat_le, hstartVal]
    . rwa [UInt64.lt_iff_toNat_lt, hstopVal]

theorem ownEpoch_iff
    : OwnEpoch ε checks height
        ↔
      (height < 1060 ∨ height.toNat % 1000 ≠ 60) ∧ height < 18446744073709551061 := by
  obtain ⟨s, hs, hval⟩ := rxCurrentSeedHeight_ok (ε := ε) checks height
  have hseed : SeedHeight s := by
    rw [SeedHeight, hval]
    exact currentSeed_mod _
  have hfirst : (1060 : UInt64).toNat = 1060 := rfl
  have hlast : (18446744073709551061 : UInt64).toNat = 18446744073709551061 := rfl
  have hheight := height.toNat_lt
  rw [UInt64.lt_iff_toNat_lt, UInt64.lt_iff_toNat_lt, hfirst, hlast]
  constructor
  . rintro ⟨s', hs', hin, -⟩
    obtain rfl := Outcome.ok.inj (hs.symm.trans hs')
    rw [inEpoch_iff hseed, hval] at hin
    unfold epochStart epochEnd currentSeed at hin
    split_ifs at hin <;> omega
  . intro hcond
    refine ⟨s, hs, ?_, ?_⟩
    . rw [inEpoch_iff hseed, hval]
      unfold epochStart epochEnd currentSeed
      split_ifs <;> omega
    . intro s' hseed' hne hin
      rw [inEpoch_iff hseed'] at hin
      have hne : s'.toNat ≠ currentSeed height.toNat := fun heq =>
        hne (UInt64.toNat_inj.mp (heq.trans hval.symm))
      unfold SeedHeight at hseed'
      unfold epochStart epochEnd at hin
      unfold currentSeed at hne
      split_ifs at hin hne <;> omega

theorem nextSeed_iff
    : NextSeed ε checks height
        ↔
      height ≤ 1000 ∨ height.toNat % 1000 = 0 ∨ 62 ≤ height.toNat % 1000 := by
  obtain ⟨s, hs, hval⟩ := rxCurrentSeedHeight_ok (ε := ε) checks height
  obtain ⟨next, hnext, hnextVal⟩ := rxNextSeedHeight_ok (ε := ε) checks height
  have hseed : SeedHeight s := by
    rw [SeedHeight, hval]
    exact currentSeed_mod _
  have hblocks : (1000 : UInt64).toNat = 1000 := rfl
  rw [UInt64.le_iff_toNat_le, hblocks]
  constructor
  . rintro ⟨hspec⟩
    by_contra hcond
    have hsome : nextSeed height.toNat = some (height.toNat - height.toNat % 1000) := by
      unfold nextSeed
      rw [if_neg (by omega), if_pos (by omega)]
    rw [hsome, Option.map_eq_some_iff] at hnextVal
    obtain ⟨n, rfl, hn⟩ := hnextVal
    obtain ⟨hlt, -, -, ⟨stop, hstop, hafter⟩, -⟩ := hspec s n hs hnext
    obtain ⟨n', hn', hval'⟩ := rxCurrentSeedHeight_ok (ε := ε) checks stop
    obtain rfl := Outcome.ok.inj (hafter.symm.trans hn')
    rw [UInt64.lt_iff_toNat_lt, hn, hval] at hlt
    rw [hn, toNat_of_rxEpochEnd (seedHeight_add_lt hseed) hstop, hval] at hval'
    -- one block later the seed is the current one, before the limit still has the old seed
    have hheight := height.toNat_lt
    unfold currentSeed at hlt
    unfold epochEnd currentSeed at hval'
    split_ifs at hlt hval' <;> omega
  . intro hcond
    have hnone : nextSeed height.toNat = none := by
      unfold nextSeed
      split_ifs <;> first | rfl | omega
    rw [hnone, Option.map_eq_none_iff] at hnextVal
    refine ⟨fun s n _ hsome => ?_⟩
    rw [hnext, hnextVal] at hsome
    exact absurd (Outcome.ok.inj hsome) (Option.some_ne_none n).symm

theorem epochs_partition_iff (checks : Bool) (height : UInt64)
    : OwnEpoch ε checks height ∧ NextSeed ε checks height
        ↔
      (height ≤ 1000 ∨ height.toNat % 1000 = 0 ∨ 62 ≤ height.toNat % 1000)
        ∧ height < 18446744073709551061 := by
  have hfirst : (1060 : UInt64).toNat = 1060 := rfl
  have hblocks : (1000 : UInt64).toNat = 1000 := rfl
  have hlast : (18446744073709551061 : UInt64).toNat = 18446744073709551061 := rfl
  rw [ownEpoch_iff, nextSeed_iff]
  simp only [UInt64.lt_iff_toNat_lt, UInt64.le_iff_toNat_le, hfirst, hblocks, hlast]
  omega

theorem epochs_disagree_after_lag
    : (rxCurrentSeedHeight true 1060 : Outcome String UInt64) = .ok 0
        ∧ (rxEpochEnd true 0 : Outcome String UInt64) = .ok 1060
        ∧ (rxCurrentSeedHeight true 1061 : Outcome String UInt64) = .ok 1000
        ∧ (rxNextSeedHeight true 1061 : Outcome String (Option UInt64)) = .ok (some 1000) := by
  decide

end RandomX
end Epic
