import Epic.Core.Consensus.Overage
import Mathlib.Order.Interval.Set.Defs
import Mathlib.Data.Set.Function

/-!
This module contains the file of the foundation: a record of a fixed size for every height that pays the
levy, in the order of the heights.
-/

namespace Epic
namespace Foundation

open MachineInt Consensus

variable {ε α : Type}

def foundationCoinbaseSize : UInt64 := 1803

def recordOffset (checks windows : Bool) (fileLen height : UInt64) : Outcome ε UInt64 :=
  if windows then do
    let offset ← mul checks height foundationCoinbaseSize
    add checks offset height
  else do
    .assert (fileLen % foundationCoinbaseSize = 0)
    mul checks height foundationCoinbaseSize

-- the file is absent if there is no path to it or if it cannot be opened
def loadFoundationOutput (env : Env) (windows : Bool) (file : Option (List UInt8))
    (parse : List UInt8 → Option α) (height : UInt64)
    : Outcome ε α := do
  let height ← foundationIndex env height
  let file ← .unwrap file
  let fileLen := UInt64.ofNat file.length
  let offset ← recordOffset env.overflowChecks windows fileLen height
  .assert (offset < fileLen)
  let buffer := (file.drop offset.toNat).take foundationCoinbaseSize.toNat
  .assert (buffer.length = foundationCoinbaseSize.toNat)
  .unwrap (parse buffer)

-- a line break has one more byte on windows
def recordSize (windows : Bool) : Nat := if windows then 1804 else 1803

def foundationHeights (ε : Type) (env : Env) : Set UInt64 :=
  { height | (isFoundationHeight env height : Outcome ε Bool) = .ok true }

def recordOf (height : UInt64) : Nat := height.toNat / 1440 - 1

theorem levy_eq_zero_of_late (hlate : 4377600 < height.toNat)
    (h : (rewardFoundationAtHeight env height : Outcome ε UInt64) = .ok levy)
    : levy = 0 := by
  have hera : foundationLevyEra1.toNat = 172800 := by decide
  have hyear : foundationLevyEra2Onwards.toNat = 525600 := by decide
  have hone : (1 : UInt64).toNat = 1 := rfl
  have hzero : (0 : UInt64).toNat = 0 := rfl
  have hlt := height.toNat_lt
  unfold rewardFoundationAtHeight at h
  simp only [UInt64.le_iff_toNat_le, hera, hzero] at h
  rw [if_neg (by omega), if_neg (by omega)] at h
  simp only [Outcome.bind_eq_ok] at h
  obtain ⟨offset, hoffset, withOffset, hwithOffset, index, hindex, -, -, h⟩ := h
  have hoffset := toNat_of_sub hoffset (by omega)
  have hwithOffset := toNat_of_sub hwithOffset (by omega)
  have hdiv : (withOffset / foundationLevyEra2Onwards).toNat = withOffset.toNat / 525600 := by
    rw [UInt64.toNat_div, hyear]
  have hindex := toNat_of_add hindex (by omega)
  rw [if_neg (by change ¬ _ < 9; omega)] at h
  exact (Outcome.ok.inj h).symm

section

variable {env : Env} (hct : env.chainType = .mainnet)
include hct

theorem foundationIndex_ok (h : 1440 ≤ height.toNat)
    : (foundationIndex env height : Outcome ε UInt64) = .ok (UInt64.ofNat (recordOf height)) := by
  have hday : (foundationHeight env.chainType).toNat = 1440 := by rw [hct]; rfl
  have hone : (1 : UInt64).toNat = 1 := rfl
  have hzero : (0 : UInt64).toNat = 0 := rfl
  have hdiv : (height / foundationHeight env.chainType).toNat = height.toNat / 1440 := by
    rw [UInt64.toNat_div, hday]
  have hpos : (1 : UInt64).toNat ≤ (height / foundationHeight env.chainType).toNat := by
    rw [hdiv, hone]
    omega
  have hlt := height.toNat_lt
  unfold foundationIndex
  rw [if_pos (UInt64.lt_iff_toNat_lt.mpr (by omega)), sub_eq_ok hpos]
  apply congrArg Outcome.ok
  apply UInt64.toNat_inj.mp
  rw [UInt64.toNat_sub_of_le _ _ (UInt64.le_iff_toNat_le.mpr hpos), hdiv, hone,
    UInt64.toNat_ofNat_of_lt' (by unfold recordOf UInt64.size; omega), recordOf]

theorem mem_foundationHeights_iff
    (height : UInt64)
    : height ∈ foundationHeights ε env
        ↔
      0 < height.toNat ∧ height.toNat ≤ 4377600 ∧ height.toNat % 1440 = 0 := by
  have hzero : (0 : UInt64).toNat = 0 := rfl
  have hmod : height % foundationHeight env.chainType = 0 ↔ height.toNat % 1440 = 0 := by
    rw [← UInt64.toNat_inj, UInt64.toNat_mod, hct]
    rfl
  change (isFoundationHeight env height : Outcome ε Bool) = .ok true ↔ _
  unfold isFoundationHeight
  simp only [gt_iff_lt, UInt64.lt_iff_toNat_lt, hzero, hmod]
  split
  . next hmultiple =>
    simp only [Outcome.bind_eq_ok, Outcome.pure_eq_ok, Outcome.ok.injEq, bne_iff_ne]
    constructor
    . rintro ⟨levy, hlevy, hne⟩
      refine ⟨hmultiple.1, ?_, hmultiple.2⟩
      by_contra hgt
      exact hne (levy_eq_zero_of_late (by omega) hlevy)
    . rintro ⟨hpos, hle, -⟩
      have hlast : height ≤ lastLevyHeight := by
        rw [UInt64.le_iff_toNat_le, toNat_lastLevyHeight]
        exact hle
      have hhalving : height ≤ lastHalvingHeight := by
        rw [UInt64.le_iff_toNat_le, toNat_lastHalvingHeight]
        omega
      obtain ⟨levy, hok, -⟩ := rewardFoundation_ok (ε := ε) env hhalving
      refine ⟨levy, hok, ?_⟩
      rintro rfl
      exact rewardFoundation_ne_zero env (UInt64.lt_iff_toNat_lt.mpr hpos) hlast hok
  . next hnot =>
    constructor
    . intro h
      exact absurd (Outcome.ok.inj h) (by decide)
    . rintro ⟨hpos, -, hdvd⟩
      exact absurd ⟨hpos, hdvd⟩ hnot

end

theorem drop_flatten {records : List (List UInt8)} {size i : Nat} {record : List UInt8}
    (hsize : ∀ r ∈ records, r.length = size) (h : records[i]? = some record)
    : ∃ rest, records.flatten.drop (i * size) = record ++ rest := by
  induction records generalizing i with
  | nil => contradiction
  | cons r records ih =>
    cases i with
    | zero =>
      rw [List.getElem?_cons_zero, Option.some.injEq] at h
      rw [Nat.zero_mul, List.drop_zero, h]
      exact ⟨_, List.flatten_cons⟩
    | succ i =>
      have hr : r.length = size := hsize r List.mem_cons_self
      obtain ⟨rest, hrest⟩ := ih (fun r hr => hsize r (List.mem_cons_of_mem _ hr)) h
      refine ⟨rest, ?_⟩
      rw [List.flatten_cons, Nat.succ_mul, Nat.add_comm, ← List.drop_drop, List.drop_left' hr, hrest]

theorem recordOffset_ok (checks windows : Bool)
    (hfile : fileLen.toNat = 3040 * recordSize windows) (hheight : height.toNat < 3040)
    : ∃ offset, (recordOffset checks windows fileLen height : Outcome ε UInt64) = .ok offset
        ∧ offset.toNat = height.toNat * recordSize windows := by
  have hcoinbase : foundationCoinbaseSize.toNat = 1803 := rfl
  have hmul : height.toNat * foundationCoinbaseSize.toNat < 2 ^ 64 := by
    rw [hcoinbase]
    omega
  have hprod : (height * foundationCoinbaseSize).toNat = height.toNat * 1803 := by
    rw [UInt64.toNat_mul, Nat.mod_eq_of_lt hmul, hcoinbase]
  unfold recordOffset
  rw [mul_eq_ok hmul]
  cases windows with
  | true =>
    have hadd : (height * foundationCoinbaseSize).toNat + height.toNat < 2 ^ 64 := by
      rw [hprod]
      omega
    rw [if_pos rfl, Outcome.ok_bind, add_eq_ok hadd]
    refine ⟨_, rfl, ?_⟩
    rw [UInt64.toNat_add, Nat.mod_eq_of_lt hadd, hprod, recordSize, if_pos rfl]
    omega
  | false =>
    have hassert : (Outcome.assert (fileLen % foundationCoinbaseSize = 0) : Outcome ε Unit) = .ok () := by
      rw [Outcome.assert_eq_ok, ← UInt64.toNat_inj, UInt64.toNat_mod, hfile, hcoinbase]
      rfl
    rw [if_neg (by decide), hassert]
    exact ⟨_, rfl, hprod⟩

theorem loadFoundationOutput_eq {env : Env} (hct : env.chainType = .mainnet) (windows : Bool)
    {records : List (List UInt8)} {parse : List UInt8 → Option α} {height : UInt64} {record : List UInt8}
    (hcount : records.length = 3040) (hsize : ∀ r ∈ records, r.length = recordSize windows)
    (hheight : 1440 ≤ height.toNat) (hrecord : records[recordOf height]? = some record)
    : (loadFoundationOutput env windows (some records.flatten) parse height : Outcome ε α)
        = .unwrap (parse (record.take 1803)) := by
  have hlength : records.flatten.length = 3040 * recordSize windows := by
    rw [List.length_flatten, List.map_congr_left hsize, List.map_const', List.sum_replicate_nat, hcount]
  have hfile : (UInt64.ofNat records.flatten.length).toNat = 3040 * recordSize windows := by
    rw [hlength, UInt64.toNat_ofNat_of_lt' (by cases windows <;> decide)]
  have hindex : recordOf height < 3040 := hcount ▸ (List.getElem?_eq_some_iff.mp hrecord).1
  have hval : (UInt64.ofNat (recordOf height)).toNat = recordOf height :=
    UInt64.toNat_ofNat_of_lt' (by unfold UInt64.size; omega)
  have hcoinbase : foundationCoinbaseSize.toNat = 1803 := rfl
  obtain ⟨offset, hoffset, hoffsetVal⟩ := recordOffset_ok (ε := ε) env.overflowChecks windows hfile
    (hval.symm ▸ hindex : (UInt64.ofNat (recordOf height)).toNat < 3040)
  rw [hval] at hoffsetVal
  obtain ⟨rest, hrest⟩ := drop_flatten hsize hrecord
  have hle : 1803 ≤ record.length := by
    rw [hsize record (List.mem_of_getElem? hrecord)]
    cases windows <;> decide
  have hbefore : (Outcome.assert (offset < UInt64.ofNat records.flatten.length) : Outcome ε Unit) = .ok () := by
    rw [Outcome.assert_eq_ok, UInt64.lt_iff_toNat_lt, hoffsetVal, hfile]
    exact Nat.mul_lt_mul_of_pos_right hindex (by cases windows <;> decide)
  have hbuffer : (records.flatten.drop offset.toNat).take foundationCoinbaseSize.toNat = record.take 1803 := by
    rw [hoffsetVal, hrest, hcoinbase, List.take_append_of_le_length hle]
  have hexact : (Outcome.assert ((record.take 1803).length = foundationCoinbaseSize.toNat) : Outcome ε Unit)
      = .ok () := by
    rw [Outcome.assert_eq_ok, List.length_take, Nat.min_eq_left hle, hcoinbase]
  have hopen : (Outcome.unwrap (some records.flatten) : Outcome ε _) = .ok records.flatten := rfl
  unfold loadFoundationOutput
  rw [foundationIndex_ok hct hheight, Outcome.ok_bind, hopen, Outcome.ok_bind]
  dsimp only
  rw [hoffset, Outcome.ok_bind, hbefore, Outcome.ok_bind, hbuffer, hexact, Outcome.ok_bind]

theorem foundation_records_match_heights (env : Env) (hct : env.chainType = .mainnet)
    : ∃ index : UInt64 → Nat,
        (∀ height ∈ foundationHeights ε env,
            (foundationIndex env height : Outcome ε UInt64) = .ok (UInt64.ofNat (index height)))
          ∧ Set.BijOn index (foundationHeights ε env) (Set.Iio 3040)
          ∧ (∀ height ∈ foundationHeights ε env, ∀ height' ∈ foundationHeights ε env,
              height < height' → index height < index height')
          ∧ ∀ (windows : Bool) (records : List (List UInt8)) (parse : List UInt8 → Option α),
              records.length = 3040 →
              (∀ r ∈ records, r.length = recordSize windows) →
              ∀ height ∈ foundationHeights ε env, ∃ record,
                records[index height]? = some record
                  ∧ (loadFoundationOutput env windows (some records.flatten) parse height : Outcome ε α)
                      = .unwrap (parse (record.take 1803)) := by
  have hmem := mem_foundationHeights_iff (ε := ε) hct
  have hmono : ∀ height ∈ foundationHeights ε env, ∀ height' ∈ foundationHeights ε env,
      height < height' → recordOf height < recordOf height' := by
    intro h hh h' hh' hlt
    rw [hmem] at hh hh'
    rw [UInt64.lt_iff_toNat_lt] at hlt
    unfold recordOf
    omega
  have hinj : Set.InjOn recordOf (foundationHeights ε env) := by
    intro h hh h' hh' heq
    rw [hmem] at hh hh'
    apply UInt64.toNat_inj.mp
    unfold recordOf at heq
    omega
  have hbound : ∀ height ∈ foundationHeights ε env, recordOf height < 3040 := by
    intro height hheight
    rw [hmem] at hheight
    unfold recordOf
    omega
  refine ⟨recordOf, ?_, ⟨hbound, hinj, ?_⟩, hmono, ?_⟩
  . intro height hheight
    rw [hmem] at hheight
    exact foundationIndex_ok hct (by omega)
  . intro i hi
    have hi : i < 3040 := hi
    have hval : (UInt64.ofNat ((i + 1) * 1440)).toNat = (i + 1) * 1440 :=
      UInt64.toNat_ofNat_of_lt' (by unfold UInt64.size; omega)
    refine ⟨UInt64.ofNat ((i + 1) * 1440), ?_, ?_⟩
    . rw [hmem, hval]
      omega
    . rw [recordOf, hval]
      omega
  . intro windows records parse hcount hsize height hheight
    have hlt : recordOf height < records.length := by
      rw [hcount]
      exact hbound height hheight
    rw [hmem] at hheight
    refine ⟨records[recordOf height], List.getElem?_eq_getElem hlt, ?_⟩
    exact loadFoundationOutput_eq hct windows hcount hsize (by omega) (List.getElem?_eq_getElem hlt)

theorem foundation_records_match_heights_first
    : ∃ index : UInt64 → Nat,
        Set.BijOn index (foundationHeights String (Transparent.env .mainnet)) (Set.Iio 3040) := by
  obtain ⟨index, -, hbij, -⟩ := foundation_records_match_heights (ε := String) (α := Unit)
    (Transparent.env .mainnet) rfl
  exact ⟨index, hbij⟩

end Foundation
end Epic
