import Epic.Core.Consensus.Window
import Mathlib.Tactic.Ring

/-!
This module contains the retarget rules as functions of numbers. In the first era the work of the newest
blocks is divided by the time of the blocks before the newest one. Later the difficulty of a hash moves by
a fraction of itself that depends on the time of the last block.
-/

namespace Epic

open MachineInt

variable {ε : Type}

namespace HeaderInfo

-- the time a block took, as far as it is after the epoch
def timespan (info : HeaderInfo) : UInt64 :=
  info.timestamp - saturatingSub info.timestamp info.prevTimespan

def timespans (l : List HeaderInfo) : Nat := (l.map (·.timespan.toNat)).sum

def difficultySum (pow : PoWType) (l : List HeaderInfo) : Nat :=
  (l.map fun info => (info.difficulty.toNum pow).toNat).sum

def times (info : HeaderInfo) : UInt64 × UInt64 := (info.timestamp, info.prevTimespan)

def SameTimes (l l' : List HeaderInfo) : Prop := l.map times = l'.map times

theorem SameTimes.timespans_eq (h : SameTimes l l')
    : timespans l = timespans l' := by
  have hmap (l : List HeaderInfo) : timespans l
      = ((l.map times).map fun t => (t.1 - saturatingSub t.1 t.2).toNat).sum := by
    rw [List.map_map]
    rfl
  rw [hmap, hmap, h]

theorem SameTimes.drop (h : SameTimes l l') (n : Nat)
    : SameTimes (l.drop n) (l'.drop n) := by
  rw [SameTimes, List.map_drop, List.map_drop, h]

theorem SameTimes.dropLast (h : SameTimes l l')
    : SameTimes l.dropLast l'.dropLast := by
  rw [SameTimes, List.map_dropLast, List.map_dropLast, h]

theorem SameTimes.reverse (h : SameTimes l l')
    : SameTimes l.reverse l'.reverse := by
  rw [SameTimes, List.map_reverse, List.map_reverse, h]

theorem SameTimes.alignTimestamps_go
    (hprev : prev.times = prev'.times) (h : SameTimes l l')
    : SameTimes (Global.alignTimestamps.go prev l) (Global.alignTimestamps.go prev' l') := by
  induction l generalizing l' prev prev' with
  | nil =>
    rw [List.map_eq_nil_iff.mp (Eq.symm h)]
    rfl
  | cons info l ih =>
    cases l' with
    | nil => exact absurd h (List.cons_ne_nil _ _)
    | cons info' l' =>
      obtain ⟨hinfo, hrest⟩ := List.cons.inj h
      obtain ⟨hts, hspan⟩ := Prod.mk.inj hprev
      have hnext : times { info with timestamp := saturatingSub prev.timestamp prev.prevTimespan }
          = times { info' with timestamp := saturatingSub prev'.timestamp prev'.prevTimespan } := by
        simp only [times, hts, hspan, (Prod.mk.inj hinfo).2]
      simp only [Global.alignTimestamps.go, SameTimes, List.map_cons]
      rw [hnext, ih hnext hrest]

theorem SameTimes.alignTimestamps (h : SameTimes l l')
    : SameTimes (Global.alignTimestamps l) (Global.alignTimestamps l') := by
  cases l with
  | nil =>
    rw [List.map_eq_nil_iff.mp (Eq.symm h)]
    rfl
  | cons info l =>
    cases l' with
    | nil => exact absurd h (List.cons_ne_nil _ _)
    | cons info' l' =>
      obtain ⟨hinfo, hrest⟩ := List.cons.inj h
      simp only [Global.alignTimestamps, SameTimes, List.map_cons]
      rw [hinfo, SameTimes.alignTimestamps_go hinfo hrest]

end HeaderInfo

open HeaderInfo

namespace Global

open Consensus

theorem difficultyDataToVector_full (env : Env) (cursor : List HeaderInfo)
    (hn : n.toNat + 1 < 2 ^ 64) (hlen : n.toNat + 1 ≤ cursor.length)
    : (difficultyDataToVector env (fun k => .ok (cursor.take k)) n : Outcome ε _)
        = .ok (alignTimestamps (cursor.take (n.toNat + 1))).reverse := by
  have hpos : 0 < cursor.length := by omega
  obtain ⟨simulated, hok, hlength, -⟩ := difficultyDataToVector_ok (ε := ε) env (List.length_pos_iff.mp hpos)
    hn
  rw [List.length_append, length_alignTimestamps, List.length_take, Nat.min_eq_left hlen] at hlength
  obtain rfl := List.eq_nil_of_length_eq_zero (by omega : simulated.length = 0)
  rw [hok, List.append_nil]

end Global

namespace Consensus

def adjustedTime (t : Nat) : Nat := max 1800 (min ((t + 7200) / 3) 7200)

theorem adjustedTime_bounds (t : Nat)
    : 2400 ≤ adjustedTime t ∧ adjustedTime t ≤ 7200 := by
  unfold adjustedTime
  omega

section

variable {pow : PoWType} {minDifficulty tsDelta : UInt64} {diffData : List HeaderInfo}

theorem retarget_ok (checks : Bool) (htime : tsDelta.toNat + 7200 < 2 ^ 64)
    (hwork : difficultySum pow (diffData.drop 1) * 60 < 2 ^ 64)
    : (retarget checks 3 2 minDifficulty pow tsDelta diffData : Outcome ε UInt64)
        = .ok (UInt64.ofNat (max minDifficulty.toNat
            (difficultySum pow (diffData.drop 1) * 60 / adjustedTime tsDelta.toNat))) := by
  obtain ⟨damped, hdamp, hdamped⟩ := damp_ok (ε := ε) checks tsDelta blockTimeWindow
    (by decide : 1 ≤ (3 : UInt64).toNat) htime
  obtain ⟨adj, hclamp, hadj⟩ := clamp_ok (ε := ε) checks damped blockTimeWindow
    (by decide : (2 : UInt64).toNat ≠ 0) (by decide)
  have hadj : adj.toNat = adjustedTime tsDelta.toNat := by
    rw [hadj, hdamped]
    rfl
  have hbounds := adjustedTime_bounds tsDelta.toNat
  have hsum : (((diffData.drop 1).map (·.difficulty.toNum pow)).map UInt64.toNat).sum
      = difficultySum pow (diffData.drop 1) := by
    rw [List.map_map]
    rfl
  have hminute : blockTimeSec.toNat = 60 := rfl
  unfold retarget
  rw [sum_eq_ok checks (by rw [hsum]; omega), hsum, Outcome.ok_bind, hdamp, Outcome.ok_bind, hclamp,
    Outcome.ok_bind]
  have hval : (UInt64.ofNat (difficultySum pow (diffData.drop 1))).toNat
      = difficultySum pow (diffData.drop 1) := UInt64.toNat_ofNat_of_lt' (by unfold UInt64.size; omega)
  rw [mul_eq_ok (by rw [hval, hminute]; exact hwork), Outcome.ok_bind, div_eq_ok (by omega), Outcome.ok_bind]
  apply congrArg Outcome.ok
  apply UInt64.toNat_inj.mp
  have hmin := minDifficulty.toNat_lt
  have hquot := Nat.div_le_self (difficultySum pow (diffData.drop 1) * 60) (adjustedTime tsDelta.toNat)
  rw [toNat_max, UInt64.toNat_div, UInt64.toNat_mul, hval, hminute, hadj, Nat.mod_eq_of_lt hwork,
    UInt64.toNat_ofNat_of_lt' (by unfold UInt64.size; omega)]

theorem windowTimespan_ok (checks : Bool) (h : timespans diffData.dropLast < 2 ^ 64)
    : (windowTimespan checks diffData : Outcome ε UInt64)
        = .ok (UInt64.ofNat (timespans diffData.dropLast)) := by
  have hsum : ((diffData.dropLast.map timespan).map UInt64.toNat).sum = timespans diffData.dropLast := by
    rw [List.map_map]
    rfl
  have hfold : (windowTimespan checks diffData : Outcome ε UInt64)
      = sum checks (diffData.dropLast.map timespan) := by
    have hstep (tsDelta : UInt64) (info : HeaderInfo)
        : (sub checks info.timestamp (saturatingSub info.timestamp info.prevTimespan) >>= fun span =>
            add checks tsDelta span : Outcome ε UInt64) = add checks tsDelta info.timespan := by
      rw [sub_eq_ok (UInt64.le_iff_toNat_le.mp (Global.saturatingSub_le _ _)), Outcome.ok_bind]
      rfl
    have hzero : (ofInt 0 : UInt64) = 0 := by decide
    unfold windowTimespan sum
    rw [List.foldlM_map, hzero]
    simp only [hstep]
  rw [hfold, sum_eq_ok checks (by rw [hsum]; exact h), hsum]

end

/-!
The three retarget functions of the first era differ in the least difficulty only.
-/

inductive Era1 where
  | cuckoo
  | randomX
  | progPow

def Era1.next (era : Era1) (checks : Bool) (pow : PoWType) (diffData : List HeaderInfo) : Outcome ε UInt64 :=
  match era with
  | .cuckoo => nextCuckooDifficultyEra1 checks pow diffData
  | .randomX => nextRandomXDifficultyEra1 checks pow diffData
  | .progPow => nextProgPowDifficultyEra1 checks pow diffData

def Era1.minimum (era : Era1) : UInt64 :=
  match era with
  | .cuckoo => minDifficulty
  | .randomX => minDifficultyRandomX
  | .progPow => minDifficultyProgPow

theorem Era1.next_eq (era : Era1) (checks : Bool) (pow : PoWType) (diffData : List HeaderInfo)
    : (era.next checks pow diffData : Outcome ε UInt64)
        = windowTimespan checks diffData >>= fun tsDelta =>
            retarget checks 3 2 era.minimum pow tsDelta diffData := by
  cases era <;> rfl

-- the work of the newest blocks over the time of the same blocks
def Era1.expected (era : Era1) (pow : PoWType) (diffData : List HeaderInfo) : Nat :=
  max era.minimum.toNat
    (difficultySum pow (diffData.drop 1) * 60 / adjustedTime (timespans (diffData.drop 1)))

variable {diffData : List HeaderInfo}

theorem Era1.next_ok (era : Era1) (checks : Bool)
    (htime : timespans diffData.dropLast + 7200 < 2 ^ 64)
    (hwork : difficultySum pow (diffData.drop 1) * 60 < 2 ^ 64)
    : (era.next checks pow diffData : Outcome ε UInt64)
        = .ok (UInt64.ofNat (max era.minimum.toNat
            (difficultySum pow (diffData.drop 1) * 60 / adjustedTime (timespans diffData.dropLast)))) := by
  have hval : (UInt64.ofNat (timespans diffData.dropLast)).toNat = timespans diffData.dropLast :=
    UInt64.toNat_ofNat_of_lt' (by unfold UInt64.size; omega)
  rw [era.next_eq, windowTimespan_ok checks (by omega), Outcome.ok_bind,
    retarget_ok checks (by rw [hval]; exact htime) hwork, hval]

theorem difficultySum_const
    (h : ∀ info ∈ l, info.difficulty = ⟨DifficultyNumber.number d⟩)
    : difficultySum pow l = l.length * d.toNat := by
  have hmap : l.map (fun info => (info.difficulty.toNum pow).toNat) = l.map fun _ => d.toNat := by
    apply List.map_congr_left
    intro info hinfo
    rw [h info hinfo, Difficulty.toNum, DifficultyNumber.get_number]
    rfl
  rw [difficultySum, hmap, List.map_const', List.sum_replicate, smul_eq_mul]

def withWork (d : UInt64) (info : HeaderInfo) : HeaderInfo :=
  { info with difficulty := ⟨DifficultyNumber.number d⟩ }

theorem sameTimes_map_withWork (d : UInt64) (l : List HeaderInfo)
    : SameTimes l (l.map (withWork d)) := by
  rw [SameTimes, List.map_map]
  rfl

theorem difficulty_of_mem_alignTimestamps {l : List HeaderInfo}
    (h : info ∈ Global.alignTimestamps (l.map (withWork d)))
    : info.difficulty = ⟨DifficultyNumber.number d⟩ := by
  have hmem : info.difficulty ∈ (Global.alignTimestamps (l.map (withWork d))).map (·.difficulty) :=
    List.mem_map_of_mem h
  rw [Global.map_alignTimestamps (fun _ _ => rfl), List.map_map] at hmem
  obtain ⟨info', -, hdifficulty⟩ := List.mem_map.mp hmem
  exact hdifficulty.symm

theorem eq_of_expected_eq (hmin : minimum ≤ 200000) (ha : 2400 ≤ a) (hb : 2400 ≤ b)
    (h : max minimum (60 * (a * b) * 60 / a) = max minimum (60 * (a * b) * 60 / b))
    : a = b := by
  have hleft : 60 * (a * b) * 60 / a = 3600 * b := by
    rw [show 60 * (a * b) * 60 = a * (3600 * b) by ring]
    exact Nat.mul_div_cancel_left _ (by omega)
  have hright : 60 * (a * b) * 60 / b = 3600 * a := by
    rw [show 60 * (a * b) * 60 = b * (3600 * a) by ring]
    exact Nat.mul_div_cancel_left _ (by omega)
  rw [hleft, hright] at h
  omega

theorem era1_measures_same_blocks_iff (env : Env) (era : Era1) (checks : Bool) (pow : PoWType)
    (cursor diffData : List HeaderInfo) (hlen : difficultyAdjustWindow.toNat + 1 ≤ cursor.length)
    (hv : (Global.difficultyDataToVector env (fun k => .ok (cursor.take k)) difficultyAdjustWindow
      : Outcome ε _) = .ok diffData)
    (htime : timespans diffData.dropLast + 7200 < 2 ^ 64)
    : (∀ cursor' diffData', SameTimes cursor cursor' →
          (Global.difficultyDataToVector env (fun k => .ok (cursor'.take k)) difficultyAdjustWindow
            : Outcome ε _) = .ok diffData' →
          difficultySum pow (diffData'.drop 1) * 60 < 2 ^ 64 →
          (era.next checks pow diffData' : Outcome ε UInt64) = .ok (UInt64.ofNat (era.expected pow diffData')))
        ↔
      adjustedTime (timespans diffData.dropLast) = adjustedTime (timespans (diffData.drop 1)) := by
  rw [Global.difficultyDataToVector_full env _ (by decide) hlen] at hv
  obtain rfl := Outcome.ok.inj hv
  have hother {cursor' diffData' : List HeaderInfo} (hsame : SameTimes cursor cursor')
      (hv' : (Global.difficultyDataToVector env (fun k => .ok (cursor'.take k)) difficultyAdjustWindow
        : Outcome ε _) = .ok diffData')
      : diffData' = (Global.alignTimestamps (cursor'.take (difficultyAdjustWindow.toNat + 1))).reverse
          ∧ SameTimes
              (Global.alignTimestamps (cursor.take (difficultyAdjustWindow.toNat + 1))).reverse diffData' := by
    have hlength := congrArg List.length hsame
    rw [List.length_map, List.length_map] at hlength
    rw [Global.difficultyDataToVector_full env _ (by decide) (by omega)] at hv'
    obtain rfl := Outcome.ok.inj hv'
    have htake : SameTimes (cursor.take (difficultyAdjustWindow.toNat + 1))
        (cursor'.take (difficultyAdjustWindow.toNat + 1)) := by
      rw [SameTimes, List.map_take, List.map_take, hsame]
    exact ⟨rfl, htake.alignTimestamps.reverse⟩
  have hspans {v v' : List HeaderInfo} (hsame : SameTimes v v')
      : timespans v.dropLast = timespans v'.dropLast ∧ timespans (v.drop 1) = timespans (v'.drop 1) :=
    ⟨hsame.dropLast.timespans_eq, (hsame.drop 1).timespans_eq⟩
  generalize hdata : (Global.alignTimestamps (cursor.take (difficultyAdjustWindow.toNat + 1))).reverse = diffData
    at hother htime ⊢
  have hold := adjustedTime_bounds (timespans diffData.dropLast)
  have hnew := adjustedTime_bounds (timespans (diffData.drop 1))
  constructor
  . intro h
    -- the same times with so much work in every block that the quotients are exact
    let d := UInt64.ofNat
      (adjustedTime (timespans diffData.dropLast) * adjustedTime (timespans (diffData.drop 1)))
    have hprod := Nat.mul_le_mul hold.2 hnew.2
    have hd : d.toNat
        = adjustedTime (timespans diffData.dropLast) * adjustedTime (timespans (diffData.drop 1)) :=
      UInt64.toNat_ofNat_of_lt' (by unfold UInt64.size; omega)
    have hv' := Global.difficultyDataToVector_full (ε := ε) env (cursor.map (withWork d))
      (n := difficultyAdjustWindow) (by decide) (by rwa [List.length_map])
    obtain ⟨-, hsame⟩ := hother (sameTimes_map_withWork d cursor) hv'
    obtain ⟨hdropLast, hdrop⟩ := hspans hsame
    have hlength := congrArg List.length hsame
    have hfull : diffData.length = 61 := by
      rw [← hdata, List.length_reverse, Global.length_alignTimestamps, List.length_take,
        Nat.min_eq_left hlen]
      rfl
    rw [List.length_map, List.length_map, hfull] at hlength
    rw [← List.map_take] at hv' hdropLast hdrop hlength
    generalize hdata' : (Global.alignTimestamps ((cursor.take (difficultyAdjustWindow.toNat + 1)).map
      (withWork d))).reverse = diffData' at hv' hdropLast hdrop hlength
    have hsum : difficultySum pow (diffData'.drop 1) = 60 * d.toNat := by
      rw [difficultySum_const fun info hinfo => difficulty_of_mem_alignTimestamps
        (List.mem_reverse.mp (hdata' ▸ List.mem_of_mem_drop hinfo)), List.length_drop, ← hlength]
    have hwork : difficultySum pow (diffData'.drop 1) * 60 < 2 ^ 64 := by
      rw [hsum, hd]
      omega
    have hresult := h (cursor.map (withWork d)) diffData' (sameTimes_map_withWork d cursor) hv' hwork
    rw [era.next_ok checks (by omega) hwork, Outcome.ok.injEq] at hresult
    have hresult := congrArg UInt64.toNat hresult
    have hmin : era.minimum.toNat ≤ 200000 := by cases era <;> decide
    have hfits (t : Nat) : max era.minimum.toNat (difficultySum pow (diffData'.drop 1) * 60 / t) < 2 ^ 64 := by
      have := Nat.div_le_self (difficultySum pow (diffData'.drop 1) * 60) t
      omega
    rw [Era1.expected, UInt64.toNat_ofNat_of_lt' (hfits _), UInt64.toNat_ofNat_of_lt' (hfits _), hsum, hd,
      ← hdropLast, ← hdrop] at hresult
    exact eq_of_expected_eq hmin hold.1 hnew.1 hresult
  . intro heq cursor' diffData' hsame hv' hwork
    obtain ⟨hdropLast, hdrop⟩ := hspans (hother hsame hv').2
    rw [era.next_ok checks (by omega) hwork, Era1.expected, ← hdropLast, ← hdrop, heq]

namespace Sample

def info (prevTimespan : UInt64) : HeaderInfo :=
  ⟨1000000, ⟨DifficultyNumber.number 10000⟩, 13, false, prevTimespan⟩

-- the newest block took the given time, the others a minute
def cursor (newest : UInt64) : List HeaderInfo := info newest :: List.replicate 60 (info 60)

def window (newest : UInt64) : List HeaderInfo := (Global.alignTimestamps (cursor newest)).reverse

end Sample

theorem era1_measures_same_blocks_iff_steady
    : (Era1.randomX.next true .randomX (Sample.window 60) : Outcome String UInt64)
        = .ok (UInt64.ofNat (Era1.randomX.expected .randomX (Sample.window 60))) :=
  (era1_measures_same_blocks_iff (Transparent.env .mainnet) .randomX true .randomX (Sample.cursor 60)
    (Sample.window 60) (by decide) (Global.difficultyDataToVector_full _ _ (by decide) (by decide))
    (by decide +kernel)).mpr
    (by decide +kernel) (Sample.cursor 60) (Sample.window 60) rfl
    (Global.difficultyDataToVector_full _ _ (by decide) (by decide)) (by decide +kernel)

theorem era1_misses_newest_timespan
    : (Global.difficultyDataToVector (Transparent.env .mainnet)
          (fun k => .ok ((Sample.cursor 6000).take k)) difficultyAdjustWindow : Outcome String _)
        = .ok (Sample.window 6000)
      ∧ (Era1.randomX.next true .randomX (Sample.window 6000) : Outcome String UInt64) = .ok 10000
      ∧ Era1.randomX.expected .randomX (Sample.window 6000) = 6451 := by
  refine ⟨Global.difficultyDataToVector_full _ _ (by decide) (by decide), ?_, by decide +kernel⟩
  decide +kernel

-- the factor that a hash difficulty moves by, from 1 for a block in time down to -99
def hashSign (delta : Nat) : Int := max (1 - 2 * (delta / 60 : Nat)) (-99)

def hashNext (difficulty minDiff delta : Nat) : Nat :=
  max (max (difficulty + (difficulty / 64 : Nat) * hashSign delta) 1).toNat (min difficulty minDiff)

def oldMinimum (pow : PoWType) : UInt64 :=
  match pow with
  | .randomX => oldMinDifficultyRandomX
  | _ => oldMinDifficultyProgPow

theorem hashSign_bounds (delta : Nat)
    : -99 ≤ hashSign delta ∧ hashSign delta ≤ 1 := by
  unfold hashSign
  omega

theorem hashSign_anti (h : delta ≤ delta')
    : hashSign delta' ≤ hashSign delta := by
  have := Nat.div_le_div_right (c := 60) h
  unfold hashSign
  omega

theorem hashNext_bounds (difficulty minDiff delta : Nat)
    : max 1 (min difficulty minDiff) ≤ hashNext difficulty minDiff delta
        ∧ hashNext difficulty minDiff delta ≤ max 1 (difficulty + difficulty / 64) := by
  have hmul : (difficulty / 64 : Nat) * hashSign delta ≤ ((difficulty / 64 : Nat) : Int) * 1 :=
    Int.mul_le_mul_of_nonneg_left (hashSign_bounds delta).2 (Int.natCast_nonneg _)
  unfold hashNext
  omega

theorem hashNext_anti (difficulty minDiff : Nat) (h : delta ≤ delta')
    : hashNext difficulty minDiff delta' ≤ hashNext difficulty minDiff delta := by
  have hmul : (difficulty / 64 : Nat) * hashSign delta' ≤ ((difficulty / 64 : Nat) : Int) * hashSign delta :=
    Int.mul_le_mul_of_nonneg_left (hashSign_anti h) (Int.natCast_nonneg _)
  unfold hashNext
  omega

section

variable {pow : PoWType} {prev current : HeaderInfo}

theorem nextHashDifficulty_eq_ok (checks : Bool) (hpow : pow = .randomX ∨ pow = .progPow)
    (hdiff : (current.difficulty.toNum pow).toNat < 2 ^ 56) (hle : prev.timestamp ≤ current.timestamp)
    (hmax : current.timestamp.toNat < 2 ^ 62) (rest : List HeaderInfo)
    : (nextHashDifficulty checks pow (prev :: current :: rest) : Outcome ε UInt64)
        = .ok (UInt64.ofNat (hashNext (current.difficulty.toNum pow).toNat (oldMinimum pow).toNat
            (current.timestamp.toNat - prev.timestamp.toNat))) := by
  have hparams : (hashDifficultyParams pow : Outcome ε _) = .ok (64, oldMinimum pow) := by
    rcases hpow with rfl | rfl <;> rfl
  rw [UInt64.le_iff_toNat_le] at hle
  have hdelta := UInt64.toNat_sub_of_le _ _ (UInt64.le_iff_toNat_le.mpr hle)
  have hfactor : (64 : UInt64).toNat = 64 := rfl
  have hsixty : (60 : Int64).toInt = 60 := rfl
  have htwo : (2 : Int64).toInt = 2 := rfl
  have hone : (1 : Int64).toInt = 1 := rfl
  have hleast : (-99 : Int64).toInt = -99 := rfl
  generalize hc : current.difficulty.toNum pow = c at *
  generalize hd : current.timestamp.toNat - prev.timestamp.toNat = delta at *
  have hoffset : (c / 64).toInt64.toInt = (c.toNat / 64 : Nat) := by
    rw [toInt_toInt64, UInt64.toNat_div, hfactor, if_pos (by omega)]
  have htime : (current.timestamp - prev.timestamp).toInt64.toInt = delta := by
    rw [toInt_toInt64, hdelta, if_pos (by omega)]
  have hcurrent : c.toInt64.toInt = c.toNat := by
    rw [toInt_toInt64, if_pos (by omega)]
  have hminutes : (delta : Int).tdiv 60 = (delta / 60 : Nat) := (Int.ofNat_tdiv _ _).symm
  obtain ⟨late, hlate, hlateVal⟩ := div_ok (ε := ε) (a := (current.timestamp - prev.timestamp).toInt64)
    (b := 60) (by simp only [toInt, hsixty]; decide)
    (by simp only [Fits, lo, hi, toInt, htime, hsixty, hminutes]; omega)
  simp only [toInt, htime, hsixty, hminutes] at hlateVal
  obtain ⟨twice, htwice, htwiceVal⟩ := mul_ok (ε := ε) checks (a := (2 : Int64)) (b := late)
    (by simp only [Fits, lo, hi, toInt, htwo, hlateVal]; omega)
  simp only [toInt, htwo, hlateVal] at htwiceVal
  obtain ⟨signed, hsigned, hsignedVal⟩ := sub_ok (ε := ε) checks (a := (1 : Int64)) (b := twice)
    (by simp only [Fits, lo, hi, toInt, hone, htwiceVal]; omega)
  simp only [toInt, hone, htwiceVal] at hsignedVal
  have hsign : (max signed (-99)).toInt = hashSign delta := by
    rw [toInt_max, hsignedVal, hleast]
    rfl
  have hbounds := hashSign_bounds delta
  have hupper : (c.toNat / 64 : Nat) * hashSign delta ≤ ((c.toNat / 64 : Nat) : Int) * 1 :=
    Int.mul_le_mul_of_nonneg_left hbounds.2 (Int.natCast_nonneg _)
  have hlower : ((c.toNat / 64 : Nat) : Int) * (-99) ≤ (c.toNat / 64 : Nat) * hashSign delta :=
    Int.mul_le_mul_of_nonneg_left hbounds.1 (Int.natCast_nonneg _)
  obtain ⟨change, hchange, hchangeVal⟩ := mul_ok (ε := ε) checks (a := (c / 64).toInt64)
    (b := max signed (-99)) (by simp only [Fits, lo, hi, toInt, hoffset, hsign]; omega)
  simp only [toInt, hoffset, hsign] at hchangeVal
  obtain ⟨next, hnext, hnextVal⟩ := add_ok (ε := ε) checks (a := c.toInt64) (b := change)
    (by simp only [Fits, lo, hi, toInt, hcurrent, hchangeVal]; omega)
  simp only [toInt, hcurrent, hchangeVal] at hnextVal
  unfold nextHashDifficulty
  rw [hparams, Outcome.ok_bind]
  simp only [List.getElem?_cons_zero, List.getElem?_cons_succ, Outcome.unwrap, Outcome.ok_bind, hc]
  rw [sub_eq_ok hle, Outcome.ok_bind, div_eq_ok (by decide), Outcome.ok_bind, hlate, Outcome.ok_bind,
    htwice, Outcome.ok_bind, hsigned, Outcome.ok_bind, hchange, Outcome.ok_bind, hnext, Outcome.ok_bind]
  apply congrArg Outcome.ok
  apply UInt64.toNat_inj.mp
  have hpos := toInt_pos_max_one next
  have hval := toNat_toUInt64 hpos.le
  rw [toInt_max, hnextVal, hone] at hval
  have hmost := (hashNext_bounds c.toNat (oldMinimum pow).toNat delta).2
  rw [UInt64.toNat_ofNat_of_lt' (by unfold UInt64.size; omega), toNat_max, toNat_min, hashNext]
  omega

theorem hash_retarget_bounded_antitone (pow : PoWType) (hpow : pow = .randomX ∨ pow = .progPow)
    (prev current : HeaderInfo) (rest : List HeaderInfo)
    (hdiff : (current.difficulty.toNum pow).toNat < 2 ^ 56) (hle : prev.timestamp ≤ current.timestamp)
    (hmax : current.timestamp.toNat < 2 ^ 62)
    : ∃ d : UInt64,
        (∀ checks, (nextHashDifficulty checks pow (prev :: current :: rest) : Outcome ε UInt64) = .ok d)
          ∧ max 1 (min (current.difficulty.toNum pow).toNat (oldMinimum pow).toNat) ≤ d.toNat
          ∧ d.toNat
              ≤ max 1 ((current.difficulty.toNum pow).toNat + (current.difficulty.toNum pow).toNat / 64)
          ∧ ∀ prev' current' rest',
              current'.difficulty.toNum pow = current.difficulty.toNum pow →
              prev'.timestamp ≤ current'.timestamp →
              current'.timestamp.toNat < 2 ^ 62 →
              current.timestamp.toNat - prev.timestamp.toNat
                ≤ current'.timestamp.toNat - prev'.timestamp.toNat →
              ∃ d' : UInt64,
                (∀ checks, (nextHashDifficulty checks pow (prev' :: current' :: rest') : Outcome ε UInt64)
                    = .ok d')
                  ∧ d'.toNat ≤ d.toNat := by
  have hfits (delta : Nat) : (UInt64.ofNat (hashNext (current.difficulty.toNum pow).toNat
      (oldMinimum pow).toNat delta)).toNat
        = hashNext (current.difficulty.toNum pow).toNat (oldMinimum pow).toNat delta := by
    have hmost := (hashNext_bounds (current.difficulty.toNum pow).toNat (oldMinimum pow).toNat delta).2
    exact UInt64.toNat_ofNat_of_lt' (by unfold UInt64.size; omega)
  obtain ⟨hleast, hmost⟩ := hashNext_bounds (current.difficulty.toNum pow).toNat (oldMinimum pow).toNat
    (current.timestamp.toNat - prev.timestamp.toNat)
  refine ⟨_, fun checks => nextHashDifficulty_eq_ok checks hpow hdiff hle hmax rest, ?_, ?_, ?_⟩
  . rw [hfits]
    exact hleast
  . rw [hfits]
    exact hmost
  . intro prev' current' rest' hsame hle' hmax' hlater
    refine ⟨_, fun checks => nextHashDifficulty_eq_ok checks hpow (hsame ▸ hdiff) hle' hmax' rest', ?_⟩
    rw [hsame, hfits, hfits]
    exact hashNext_anti _ _ hlater

theorem hash_retarget_bounded_antitone_same_time
    : ∃ d : UInt64,
        (nextHashDifficulty true .randomX [Sample.info 60, Sample.info 60] : Outcome String UInt64) = .ok d
          ∧ d.toNat ≤ max 1 (10000 + 10000 / 64) := by
  obtain ⟨d, hd, -, hmost, -⟩ := hash_retarget_bounded_antitone (ε := String) .randomX (.inl rfl)
    (Sample.info 60) (Sample.info 60) [] (by decide) (by decide) (by decide)
  exact ⟨d, hd true, hmost⟩

end

end Consensus
end Epic
