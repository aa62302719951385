import Epic.Core.Block.Feijoada
import Epic.Util.Apportion

/-!
This module contains the quotas of the feijoada schedule: in a round of a hundred blocks each algorithm
gets its proportion of the policy.
-/

namespace Epic

section

variable {α β : Type} [LinearOrder β] {key : α → β}

theorem lastMaxBy_append (l : List α) (y : α)
    : lastMaxBy key (l ++ [y])
        =
      match lastMaxBy key l with
      | none => some y
      | some x => if key x ≤ key y then some y else some x := by
  rw [lastMaxBy, List.foldl_append]
  rfl

theorem lastMaxBy_spec (key : α → β) (hne : l ≠ [])
    : ∃ x, lastMaxBy key l = some x ∧ x ∈ l ∧ ∀ y ∈ l, key y ≤ key x := by
  induction l using List.reverseRecOn with
  | nil => contradiction
  | append_singleton l y ih =>
    rw [lastMaxBy_append]
    by_cases hl : l = []
    . subst hl
      exact ⟨y, rfl, by simp, by simp⟩
    . obtain ⟨x, hx, hmem, hmax⟩ := ih hl
      rw [hx]
      dsimp only
      split
      . next hle =>
        refine ⟨y, rfl, by simp, ?_⟩
        intro z hz
        rcases List.mem_append.mp hz with hz | hz
        . exact (hmax z hz).trans hle
        . rw [List.mem_singleton.mp hz]
      . next hgt =>
        refine ⟨x, rfl, List.mem_append_left _ hmem, ?_⟩
        intro z hz
        rcases List.mem_append.mp hz with hz | hz
        . exact hmax z hz
        . rw [List.mem_singleton.mp hz]
          exact (not_le.mp hgt).le

end

instance : Fintype PoWType := ⟨⟨PoWType.all, PoWType.nodup_all⟩, PoWType.mem_all⟩

namespace PoWMap

def ofFn {α : Type} (f : PoWType → α) : PoWMap α :=
  ⟨some (f .cuckaroo), some (f .cuckatoo), some (f .randomX), some (f .progPow)⟩

@[simp]
theorem get_ofFn (f : PoWType → α) (a : PoWType)
    : (ofFn f).get a = some (f a) := by
  cases a <;> rfl

theorem insert_ofFn (f : PoWType → α) (a : PoWType) (v : α)
    : (ofFn f).insert a v = ofFn (fun b => if b = a then v else f b) := by
  apply ext
  intro b
  rw [get_insert, get_ofFn, get_ofFn]
  split <;> rfl

theorem entries_ofFn (f : PoWType → α)
    : (ofFn f).entries = PoWType.all.map fun a => (a, f a) := rfl

end PoWMap

namespace Feijoada

open Apportion MachineInt

variable {ε : Type} {share count : PoWType → UInt32} {n : Nat}

def run (round : ℚ → ℚ) (checks : Bool) (policy start : Policy) (n : Nat)
    : Outcome ε (List PoWType × Policy) :=
  match n with
  | 0 => .ok ([], start)
  | n + 1 => do
    let (chosen, bottles) ← run round checks policy start n
    let algo ← chooseAlgo round checks policy bottles
    let bottles ← nextBlockBottles checks algo bottles
    return (chosen ++ [algo], bottles)

theorem countBeans_ofFn (checks : Bool) (hsum : ∑ a, (count a).toNat ≤ 100)
    : ∃ beans, (countBeans checks (.ofFn count) : Outcome ε UInt32) = .ok beans
        ∧ beans.toNat = max (∑ a, (count a).toNat) 1 := by
  have hvalues : ((PoWMap.ofFn count).values.map toInt).sum = (∑ a, (count a).toNat : ℕ) := by
    push_cast
    rfl
  obtain ⟨sum, hsum', hval⟩ := sum_ok (ε := ε) (l := (PoWMap.ofFn count).values) checks (le_refl _)
    (fun a _ => Int.natCast_nonneg _) (by rw [hvalues]; simp only [hi]; omega)
  rw [hvalues] at hval
  refine ⟨max sum 1, by rw [countBeans, hsum']; rfl, ?_⟩
  have hnat : sum.toNat = ∑ a, (count a).toNat := Int.ofNat_inj.mp hval
  have hone : (1 : UInt32).toNat = 1 := rfl
  have hmax : max sum 1 = if sum ≤ 1 then 1 else sum := rfl
  rw [hmax, ← hnat]
  split
  . next hle =>
    rw [UInt32.le_iff_toNat_le, hone] at hle
    omega
  . next hgt =>
    rw [UInt32.le_iff_toNat_le, hone] at hgt
    omega

theorem chooseAlgo_ofFn (share count : PoWType → UInt32) (checks : Bool)
    (hsum : ∑ a, (count a).toNat ≤ 100)
    (hshare : ∃ a, 0 < (share a).toNat)
    : ∃ a, (chooseAlgo id checks (.ofFn share) (.ofFn count) : Outcome ε PoWType) = .ok a
        ∧ 0 < (share a).toNat
        ∧ ∀ b, 0 < (share b).toNat →
            ((share b).toNat : ℚ) - 100 * (count b).toNat / (max (∑ a, (count a).toNat) 1 : ℕ)
              ≤ (share a).toNat - 100 * (count a).toNat / (max (∑ a, (count a).toNat) 1 : ℕ) := by
  obtain ⟨beans, hbeans, hval⟩ := countBeans_ofFn (ε := ε) checks hsum
  let rank := fun a => (a, score id beans (share a) (count a))
  let candidates := PoWType.all.filter fun a => 0 < share a
  have hvec : ((PoWMap.ofFn share).entries.filter fun x => 0 < x.2)
      = candidates.map fun a => (a, share a) := by
    rw [PoWMap.entries_ofFn, List.filter_map]
    rfl
  have hranked : ((candidates.map fun a => (a, share a)).mapM fun x =>
        Outcome.unwrap ((PoWMap.ofFn count).get x.1) >>= fun beans' =>
          pure (x.1, score id beans x.2 beans') : Outcome ε (List (PoWType × ℚ)))
      = .ok (candidates.map rank) := by
    rw [List.mapM_map]
    apply Outcome.mapM_ok
    intro a _
    simp only [PoWMap.get_ofFn]
    rfl
  have hmem : ∀ a, a ∈ candidates ↔ 0 < (share a).toNat := by
    intro a
    simp only [candidates, List.mem_filter, PoWType.mem_all, true_and, decide_eq_true_eq,
      UInt32.lt_iff_toNat_lt]
    rfl
  obtain ⟨a₀, ha₀⟩ := hshare
  obtain ⟨best, hbest, hin, hmax⟩ := lastMaxBy_spec (fun x : PoWType × ℚ => x.2)
    (l := candidates.map rank) (List.ne_nil_of_mem (List.mem_map_of_mem ((hmem a₀).mpr ha₀)))
  obtain ⟨a, ha, rfl⟩ := List.mem_map.mp hin
  refine ⟨a, ?_, (hmem a).mp ha, ?_⟩
  . rw [chooseAlgo_eq, hbeans, Outcome.ok_bind, hvec, hranked, Outcome.ok_bind, hbest]
    rfl
  . intro b hb
    have := hmax (rank b) (List.mem_map_of_mem ((hmem b).mpr hb))
    simpa only [rank, score, id, hval] using this

theorem deficit_le (hpos : 0 < n) (hshare : total (fun a => (share a).toNat) = 100)
    (h : ((share b).toNat : ℚ) - 100 * (count b).toNat / n
      ≤ (share a).toNat - 100 * (count a).toNat / n)
    : deficit (fun a => (share a).toNat) (fun a => (count a).toNat) n b
        ≤ deficit (fun a => (share a).toNat) (fun a => (count a).toNat) n a := by
  have hn : (0 : ℚ) < n := by exact_mod_cast hpos
  have hscaled := mul_le_mul_of_nonneg_right h hn.le
  rw [sub_mul, sub_mul, div_mul_cancel₀ _ hn.ne', div_mul_cancel₀ _ hn.ne'] at hscaled
  simp only [deficit, hshare]
  exact_mod_cast hscaled

theorem nextShouldReset_ofFn (checks : Bool) (hsum : ∑ a, (count a).toNat ≤ 100)
    : (nextShouldReset checks (.ofFn count) : Outcome ε Bool)
        = .ok (decide (∑ a, (count a).toNat = 100)) := by
  obtain ⟨beans, hbeans, hval⟩ := countBeans_ofFn (ε := ε) checks hsum
  rw [nextShouldReset, hbeans, Outcome.ok_bind, Outcome.pure_eq_ok]
  apply congrArg Outcome.ok
  have hhundred : (100 : UInt32).toNat = 100 := rfl
  rw [Bool.eq_iff_iff, beq_iff_eq, decide_eq_true_iff, ← UInt32.toNat_inj, hval, hhundred]
  omega

theorem add_one_eq_ok (checks : Bool) (hx : x.toNat ≤ 100)
    : (add checks x 1 : Outcome ε UInt32) = .ok (x + 1) := by
  have hone : (1 : UInt32).toNat = 1 := rfl
  obtain ⟨c, hc, hval⟩ := add_ok (ε := ε) (a := x) (b := 1) checks
    (by simp only [Fits, toInt, lo, hi]; omega)
  simp only [toInt] at hval
  rw [hc]
  apply congrArg Outcome.ok
  apply UInt32.toNat_inj.mp
  rw [UInt32.toNat_add, Nat.mod_eq_of_lt (by omega)]
  omega

theorem nextBlockBottles_ofFn (checks : Bool) (a : PoWType) (hsum : ∑ a, (count a).toNat ≤ 100)
    : (nextBlockBottles checks a (.ofFn count) : Outcome ε Policy)
        =
      if ∑ a, (count a).toNat = 100 then
        .ok (.ofFn fun b => if b = a then 1 else 0)
      else
        .ok (.ofFn fun b => if b = a then count b + 1 else count b) := by
  have hdefault : getBottlesDefault = .ofFn fun _ => 0 := rfl
  rw [nextBlockBottles, nextShouldReset_ofFn checks hsum, Outcome.ok_bind]
  simp only [decide_eq_true_eq]
  split
  . rw [hdefault, PoWMap.get_ofFn, Option.getD_some, add_one_eq_ok checks (by decide), Outcome.ok_bind,
      PoWMap.insert_ofFn]
    rfl
  . have hle : (count a).toNat ≤ 100 :=
      (Finset.single_le_sum (f := fun a => (count a).toNat) (fun _ _ => Nat.zero_le _)
        (Finset.mem_univ a)).trans hsum
    rw [PoWMap.get_ofFn, Option.getD_some, add_one_eq_ok checks hle, Outcome.ok_bind,
      PoWMap.insert_ofFn, Outcome.pure_eq_ok]
    congr 2
    funext b
    split
    . next heq => rw [heq]
    . rfl

section

variable (hshare : total (fun a => (share a).toNat) = 100)
include hshare

theorem exists_share_pos
    : ∃ a, 0 < (share a).toNat := by
  by_contra hnone
  have hzero : total (fun a => (share a).toNat) = 0 := by
    apply Finset.sum_eq_zero
    intro a _
    by_contra hne
    exact hnone ⟨a, Nat.pos_of_ne_zero hne⟩
  omega

theorem step_fair (count : PoWType → UInt32) (checks : Bool) (hn : n < 100)
    (h : Fair (fun a => (share a).toNat) (fun a => (count a).toNat) n)
    : ∃ a count',
        (chooseAlgo id checks (.ofFn share) (.ofFn count) : Outcome ε PoWType) = .ok a
          ∧
        (nextBlockBottles checks a (.ofFn count) : Outcome ε Policy) = .ok (.ofFn count')
          ∧
        0 < (share a).toNat
          ∧
        Fair (fun a => (share a).toNat) (fun a => (count' a).toNat) (n + 1) := by
  have hsum := h.sum
  obtain ⟨a, hchoose, hpos, hmax⟩ := chooseAlgo_ofFn (ε := ε) share count checks
    (by omega) (exists_share_pos hshare)
  have hle : ∀ b, (count b).toNat ≤ n := by
    intro b
    rw [← hsum]
    exact Finset.single_le_sum (f := fun a => (count a).toNat) (fun _ _ => Nat.zero_le _)
      (Finset.mem_univ b)
  refine ⟨a, fun b => if b = a then count b + 1 else count b, hchoose, ?_, hpos, ?_⟩
  . rw [nextBlockBottles_ofFn checks a (by omega), if_neg (by omega)]
  . have hturn := h.turn hpos (by
      intro b hb
      rcases Nat.eq_zero_or_pos n with hzero | hpos
      . have hempty : ∀ b, (count b).toNat = 0 := fun b => by
          have := hle b
          omega
        simp [deficit, hempty, hzero]
      . have hbest := hmax b hb
        rw [hsum, Nat.max_eq_left hpos] at hbest
        exact deficit_le hpos hshare hbest)
    convert hturn using 3 with b
    have := hle b
    dsimp only
    split
    . rw [UInt32.toNat_add, Nat.mod_eq_of_lt (by have : (1 : UInt32).toNat = 1 := rfl; omega)]
      rfl
    . rfl

theorem step_full (checks : Bool)
    : ∃ a count',
        (chooseAlgo id checks (.ofFn share) (.ofFn share) : Outcome ε PoWType) = .ok a
          ∧
        (nextBlockBottles checks a (.ofFn share) : Outcome ε Policy) = .ok (.ofFn count')
          ∧
        0 < (share a).toNat
          ∧
        Fair (fun a => (share a).toNat) (fun a => (count' a).toNat) 1 := by
  have hsum : ∑ a, (share a).toNat = 100 := hshare
  obtain ⟨a, hchoose, hpos, -⟩ := chooseAlgo_ofFn (ε := ε) share share checks
    hsum.le (exists_share_pos hshare)
  refine ⟨a, fun b => if b = a then 1 else 0, hchoose, ?_, hpos, ?_⟩
  . rw [nextBlockBottles_ofFn checks a hsum.le, if_pos hsum]
  . have hzero : Fair (fun a => (share a).toNat) (fun _ => 0) 0 := Fair.zero (by omega)
    have hturn := hzero.turn hpos (by
      intro b _
      simp [deficit])
    convert hturn using 3 with b
    dsimp only
    split <;> rfl

theorem run_fair (checks : Bool) (hstart : start = getBottlesDefault ∨ start = .ofFn share)
    (hpos : 0 < n) (hn : n ≤ 100)
    : ∃ chosen count,
        (run id checks (.ofFn share) start n : Outcome ε (List PoWType × Policy))
          = .ok (chosen, .ofFn count)
          ∧
        (∀ a ∈ chosen, 0 < (share a).toNat)
          ∧
        Fair (fun a => (share a).toNat) (fun a => (count a).toNat) n := by
  induction n with
  | zero => contradiction
  | succ n ih =>
    rcases Nat.eq_zero_or_pos n with rfl | hpos
    . have hstep : ∃ a count',
          (chooseAlgo id checks (.ofFn share) start : Outcome ε PoWType) = .ok a
            ∧ (nextBlockBottles checks a start : Outcome ε Policy) = .ok (.ofFn count')
            ∧ 0 < (share a).toNat
            ∧ Fair (fun a => (share a).toNat) (fun a => (count' a).toNat) 1 := by
        rcases hstart with rfl | rfl
        . exact step_fair hshare (fun _ => 0) checks (by omega) (Fair.zero (by omega))
        . exact step_full hshare checks
      obtain ⟨a, count', hchoose, hbottles, ha, hfair⟩ := hstep
      refine ⟨[a], count', ?_, by simpa using ha, hfair⟩
      simp only [run, Outcome.ok_bind, hchoose, hbottles]
      rfl
    . obtain ⟨chosen, count, hrun, hchosen, hfair⟩ := ih hpos (by omega)
      obtain ⟨a, count', hchoose, hbottles, ha, hfair'⟩ := step_fair (ε := ε) hshare count checks (by omega) hfair
      refine ⟨chosen ++ [a], count', ?_, ?_, hfair'⟩
      . rw [run, hrun, Outcome.ok_bind]
        dsimp only
        rw [hchoose, Outcome.ok_bind, hbottles]
        rfl
      . intro b hb
        rcases List.mem_append.mp hb with hb | hb
        . exact hchosen b hb
        . rw [List.mem_singleton.mp hb]
          exact ha

end

theorem run_meets_quotas (checks : Bool) (policy : Policy) (share : PoWType → UInt32)
    (hpolicy : ∀ a, policy.get a = some (share a)) (hshare : ∑ a, (share a).toNat = 100)
    {start : Policy} (hstart : start = getBottlesDefault ∨ start = policy)
    : (∃ chosen, (run id checks policy start 100 : Outcome ε (List PoWType × Policy))
        = .ok (chosen, policy))
        ∧
      ∀ n, 0 < n → n ≤ 100 →
        ∃ chosen bottles, ∃ count : PoWType → UInt32,
          (run id checks policy start n : Outcome ε (List PoWType × Policy)) = .ok (chosen, bottles)
            ∧
          (∀ a ∈ chosen, share a ≠ 0)
            ∧
          (∀ a, bottles.get a = some (count a))
            ∧
          ∑ a, (count a).toNat ≤ 100
            ∧
          ∀ a, ((count a).toNat : ℚ) < (share a).toNat * n / 100 + 1 := by
  have hof : policy = .ofFn share := PoWMap.ext fun a => by rw [hpolicy, PoWMap.get_ofFn]
  subst hof
  have htotal : total (fun a => (share a).toNat) = 100 := hshare
  constructor
  . obtain ⟨chosen, count, hrun, -, hfair⟩ := run_fair (ε := ε) hshare checks hstart (n := 100)
      (by omega) (le_refl _)
    rw [← htotal] at hfair
    have hcount : count = share := funext fun a => UInt32.toNat_inj.mp (congrFun hfair.complete a)
    rw [hcount] at hrun
    exact ⟨chosen, hrun⟩
  . intro n hpos hn
    obtain ⟨chosen, count, hrun, hchosen, hfair⟩ := run_fair (ε := ε) hshare checks hstart hpos hn
    refine ⟨chosen, _, count, hrun, ?_, PoWMap.get_ofFn count, ?_, ?_⟩
    . intro a ha hzero
      have := hchosen a ha
      rw [hzero] at this
      exact absurd this (by decide)
    . rw [hfair.sum]
      exact hn
    . intro a
      have hahead := hfair.ahead a
      rw [deficit, htotal] at hahead
      push_cast at hahead
      have hlt : (100 : ℚ) * (count a).toNat < (share a).toNat * n + 100 := by
        have : (100 : ℤ) * (count a).toNat < (share a).toNat * n + 100 := by linarith
        exact_mod_cast this
      linarith

-- the first policy of the main network
theorem run_meets_quotas_default
    : ∃ policy ∈ PolicyConfig.default.policies,
        (∃ chosen, (run id true policy getBottlesDefault 100 : Outcome String _) = .ok (chosen, policy))
          ∧
        ∃ chosen, (run id true policy policy 100 : Outcome String _) = .ok (chosen, policy) := by
  have hshare : ∑ a, ((⟨some 0, some 2, some 60, some 38⟩ : Policy).get a |>.getD 0).toNat = 100 := by
    decide
  have hpolicy : ∀ a, (⟨some 0, some 2, some 60, some 38⟩ : Policy).get a
      = some ((⟨some 0, some 2, some 60, some 38⟩ : Policy).get a |>.getD 0) := by
    decide
  exact ⟨⟨some 0, some 2, some 60, some 38⟩, by decide,
    (run_meets_quotas true _ _ hpolicy hshare (.inl rfl)).1,
    (run_meets_quotas true _ _ hpolicy hshare (.inr rfl)).1⟩

end Feijoada
end Epic
