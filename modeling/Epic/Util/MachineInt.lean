import Epic.Util.Outcome
import Mathlib.Tactic.Common
import Mathlib.Algebra.Order.BigOperators.Group.List
import Mathlib.Algebra.Ring.Int.Defs
import Mathlib.Algebra.Ring.Nat

/-!
This module contains the arithmetic of fixed width integers as a Rust build performs it: an operation
whose exact result does not fit either panics or wraps around, depending on whether the build checks
for overflow.
-/

class MachineInt (α : Type) where
  lo : Int
  hi : Int
  toInt : α → Int
  ofInt : Int → α
  lo_le_toInt : ∀ a, lo ≤ toInt a
  toInt_lt_hi : ∀ a, toInt a < hi
  toInt_ofInt : ∀ x, lo ≤ x → x < hi → toInt (ofInt x) = x
  ofInt_toInt : ∀ a, ofInt (toInt a) = a

namespace MachineInt

instance : MachineInt UInt8 where
  lo := 0
  hi := 2 ^ 8
  toInt a := a.toNat
  ofInt x := UInt8.ofNat (x % 2 ^ 8).toNat
  lo_le_toInt a := by omega
  toInt_lt_hi a := by have := a.toNat_lt; omega
  toInt_ofInt x h1 h2 := by
    have hx : (x % 2 ^ 8).toNat < UInt8.size := by unfold UInt8.size; omega
    rw [UInt8.toNat_ofNat_of_lt' hx]
    omega
  ofInt_toInt a := by
    have : ((a.toNat : Int) % 2 ^ 8).toNat = a.toNat := by have := a.toNat_lt; omega
    rw [this]
    exact UInt8.ofNat_toNat

instance : MachineInt UInt32 where
  lo := 0
  hi := 2 ^ 32
  toInt a := a.toNat
  ofInt x := UInt32.ofNat (x % 2 ^ 32).toNat
  lo_le_toInt a := by omega
  toInt_lt_hi a := by have := a.toNat_lt; omega
  toInt_ofInt x h1 h2 := by
    have hx : (x % 2 ^ 32).toNat < UInt32.size := by unfold UInt32.size; omega
    rw [UInt32.toNat_ofNat_of_lt' hx]
    omega
  ofInt_toInt a := by
    have : ((a.toNat : Int) % 2 ^ 32).toNat = a.toNat := by have := a.toNat_lt; omega
    rw [this]
    exact UInt32.ofNat_toNat

instance : MachineInt UInt64 where
  lo := 0
  hi := 2 ^ 64
  toInt a := a.toNat
  ofInt x := UInt64.ofNat (x % 2 ^ 64).toNat
  lo_le_toInt a := by omega
  toInt_lt_hi a := by have := a.toNat_lt; omega
  toInt_ofInt x h1 h2 := by
    have hx : (x % 2 ^ 64).toNat < UInt64.size := by unfold UInt64.size; omega
    rw [UInt64.toNat_ofNat_of_lt' hx]
    omega
  ofInt_toInt a := by
    have : ((a.toNat : Int) % 2 ^ 64).toNat = a.toNat := by have := a.toNat_lt; omega
    rw [this]
    exact UInt64.ofNat_toNat

instance : MachineInt Int64 where
  lo := -2 ^ 63
  hi := 2 ^ 63
  toInt a := a.toInt
  ofInt x := Int64.ofInt x
  lo_le_toInt a := a.le_toInt
  toInt_lt_hi a := a.toInt_lt
  toInt_ofInt _ h1 h2 := Int64.toInt_ofInt_of_le h1 h2
  ofInt_toInt a := Int64.ofInt_toInt a

theorem toInt_toInt64 (a : UInt64)
    : a.toInt64.toInt = if a.toNat < 2 ^ 63 then (a.toNat : Int) else a.toNat - 2 ^ 64 := by
  have := a.toNat_lt
  unfold Int64.toInt
  rw [UInt64.toBitVec_toInt64, BitVec.toInt_eq_toNat_bmod, UInt64.toNat_toBitVec, Int.bmod_def]
  split <;> split <;> omega

theorem toNat_le_max_left (a b : UInt64)
    : a.toNat ≤ (max a b).toNat := by
  have hmax : max a b = if a ≤ b then b else a := rfl
  rw [hmax]
  split
  . next hle => exact UInt64.le_iff_toNat_le.mp hle
  . exact Nat.le_refl _

theorem toNat_toUInt64 {a : Int64} (h : 0 ≤ a.toInt)
    : (a.toUInt64.toNat : Int) = a.toInt := by
  have hval := toInt_toInt64 a.toUInt64
  have hlt := a.toUInt64.toNat_lt
  rw [Int64.toInt64_toUInt64] at hval
  split at hval
  . exact hval.symm
  . omega

theorem toInt_max (a b : Int64)
    : (max a b).toInt = max a.toInt b.toInt := by
  have hmax : max a b = if a ≤ b then b else a := rfl
  rw [hmax]
  split
  . next hle =>
    rw [Int64.le_iff_toInt_le] at hle
    omega
  . next hgt =>
    rw [Int64.le_iff_toInt_le] at hgt
    omega

theorem toNat_pos_toUInt64 {a : Int64} (h : 0 < a.toInt)
    : 0 < a.toUInt64.toNat := by
  rw [Nat.pos_iff_ne_zero]
  intro hzero
  have ha : a.toUInt64 = 0 := UInt64.toNat_inj.mp hzero
  have ha : a = 0 := by simpa using congrArg UInt64.toInt64 ha
  subst ha
  simp at h

theorem toInt_pos_max_one (a : Int64)
    : 0 < (max a 1).toInt := by
  have hmax : max a 1 = if a ≤ 1 then 1 else a := rfl
  have hone : (1 : Int64).toInt = 1 := rfl
  rw [hmax]
  split
  . omega
  . next hgt =>
    rw [Int64.le_iff_toInt_le, hone] at hgt
    omega

variable {ε α : Type} [MachineInt α]

def Fits (α : Type) [MachineInt α] (x : Int) : Prop :=
  lo α ≤ x ∧ x < hi α

instance (x : Int) : Decidable (Fits α x) :=
  inferInstanceAs (Decidable (_ ∧ _))

def result (checks : Bool) (x : Int) : Outcome ε α :=
  if Fits α x ∨ checks = false then .ok (ofInt x) else .panic

def add (checks : Bool) (a b : α) : Outcome ε α := result checks (toInt a + toInt b)

def sub (checks : Bool) (a b : α) : Outcome ε α := result checks (toInt a - toInt b)

def mul (checks : Bool) (a b : α) : Outcome ε α := result checks (toInt a * toInt b)

def shl (checks : Bool) (width : Nat) (a : α) (n : Nat) : Outcome ε α :=
  if n < width ∨ checks = false then .ok (ofInt (toInt a * 2 ^ (n % width))) else .panic

def div (a b : α) : Outcome ε α :=
  if toInt b = 0 then .panic else .ok (ofInt ((toInt a).tdiv (toInt b)))

def saturate (x : Int) : α := ofInt (max (lo α) (min x (hi α - 1)))

def saturatingAdd (a b : α) : α := saturate (toInt a + toInt b)

def saturatingSub (a b : α) : α := saturate (toInt a - toInt b)

def sum (checks : Bool) (l : List α) : Outcome ε α :=
  l.foldlM (fun acc a => add checks acc a) (ofInt 0)

theorem toNat_saturatingAdd (a b : UInt64)
    : (saturatingAdd a b).toNat = min (a.toNat + b.toNat) (2 ^ 64 - 1) := by
  have ha := a.toNat_lt
  have hb := b.toNat_lt
  unfold saturatingAdd saturate
  have hfit := toInt_ofInt (α := UInt64)
    (max 0 (min (a.toNat + b.toNat) (2 ^ 64 - 1))) (by simp only [lo]; omega)
    (by simp only [hi]; omega)
  simp only [toInt, lo, hi] at hfit ⊢
  omega

theorem toNat_saturatingSub (a b : UInt64)
    : (saturatingSub a b).toNat = a.toNat - b.toNat := by
  have ha := a.toNat_lt
  unfold saturatingSub saturate
  have hfit := toInt_ofInt (α := UInt64)
    (max 0 (min (a.toNat - b.toNat) (2 ^ 64 - 1))) (by simp only [lo]; omega)
    (by simp only [hi]; omega)
  simp only [toInt, lo, hi] at hfit ⊢
  omega

theorem toNat_saturatingSub8 (a b : UInt8)
    : (saturatingSub a b).toNat = a.toNat - b.toNat := by
  have ha := a.toNat_lt
  unfold saturatingSub saturate
  have hfit := toInt_ofInt (α := UInt8)
    (max 0 (min (a.toNat - b.toNat) (2 ^ 8 - 1))) (by simp only [lo]; omega)
    (by simp only [hi]; omega)
  simp only [toInt, lo, hi] at hfit ⊢
  omega

/-!
An operation is exact if the result fits, whether or not the build checks for overflow.
-/

theorem result_ok (checks : Bool) (h : Fits α x)
    : ∃ c, (result checks x : Outcome ε α) = .ok c ∧ toInt c = x :=
  ⟨ofInt x, if_pos (.inl h), toInt_ofInt x h.1 h.2⟩

theorem add_ok (checks : Bool) (h : Fits α (toInt a + toInt b))
    : ∃ c, (add checks a b : Outcome ε α) = .ok c ∧ toInt c = toInt a + toInt b := result_ok checks h

theorem sub_ok (checks : Bool) (h : Fits α (toInt a - toInt b))
    : ∃ c, (sub checks a b : Outcome ε α) = .ok c ∧ toInt c = toInt a - toInt b := result_ok checks h

theorem mul_ok (checks : Bool) (h : Fits α (toInt a * toInt b))
    : ∃ c, (mul checks a b : Outcome ε α) = .ok c ∧ toInt c = toInt a * toInt b := result_ok checks h

theorem div_ok (hb : toInt b ≠ 0) (h : Fits α ((toInt a).tdiv (toInt b)))
    : ∃ c, (div a b : Outcome ε α) = .ok c ∧ toInt c = (toInt a).tdiv (toInt b) :=
  ⟨_, if_neg hb, toInt_ofInt _ h.1 h.2⟩

theorem sum_toInt_nonneg {l : List α} (h : ∀ a ∈ l, 0 ≤ toInt a)
    : 0 ≤ (l.map toInt).sum := by
  apply List.sum_nonneg
  intro x hx
  obtain ⟨a, ha, rfl⟩ := List.mem_map.mp hx
  exact h a ha

theorem foldlM_add_ok (checks : Bool) (hlo : lo α ≤ 0) {l : List α} (hnonneg : ∀ a ∈ l, 0 ≤ toInt a)
    {acc : α} (hacc : 0 ≤ toInt acc) (hfits : toInt acc + (l.map toInt).sum < hi α)
    : ∃ c, (l.foldlM (fun acc a => add checks acc a) acc : Outcome ε α) = .ok c
        ∧ toInt c = toInt acc + (l.map toInt).sum := by
  induction l generalizing acc with
  | nil => exact ⟨acc, rfl, by simp⟩
  | cons a l ih =>
    rw [List.map_cons, List.sum_cons] at hfits ⊢
    have hrest : ∀ b ∈ l, 0 ≤ toInt b := fun b hb => hnonneg b (List.mem_cons_of_mem _ hb)
    have ha := hnonneg a List.mem_cons_self
    have hsum := sum_toInt_nonneg hrest
    obtain ⟨acc', hadd, hval⟩ := add_ok (ε := ε) (a := acc) (b := a) checks ⟨by omega, by omega⟩
    have hacc' : 0 ≤ toInt acc' := by omega
    obtain ⟨c, hc, hval'⟩ := ih hrest hacc' (by omega)
    refine ⟨c, ?_, by omega⟩
    rw [List.foldlM_cons, hadd]
    exact hc

theorem sum_ok (checks : Bool) (hlo : lo α ≤ 0) {l : List α} (hnonneg : ∀ a ∈ l, 0 ≤ toInt a)
    (hfits : (l.map toInt).sum < hi α)
    : ∃ c, (sum checks l : Outcome ε α) = .ok c ∧ toInt c = (l.map toInt).sum := by
  have hsum := sum_toInt_nonneg hnonneg
  have hzero : toInt (ofInt 0 : α) = 0 := toInt_ofInt 0 hlo (by omega)
  obtain ⟨c, hc, hval⟩ := foldlM_add_ok (ε := ε) checks hlo hnonneg hzero.ge (by omega)
  exact ⟨c, hc, by omega⟩

theorem returns_result_iff
    : (result true x : Outcome ε α).Returns ↔ Fits α x := by
  unfold result
  split
  . next hfits => simpa using hfits
  . next hnot =>
    simp only [Outcome.not_returns_panic, false_iff]
    exact fun hfits => hnot (.inl hfits)

theorem returns_shl_iff
    : (shl true width a n : Outcome ε α).Returns ↔ n < width := by
  unfold shl
  split
  . next hlt => simpa using hlt
  . next hnot =>
    simp only [Outcome.not_returns_panic, false_iff]
    exact fun hlt => hnot (.inl hlt)

theorem add_eq_ok (h : a.toNat + b.toNat < 2 ^ 64)
    : (add checks a b : Outcome ε UInt64) = .ok (a + b) := by
  have hfits : Fits UInt64 (toInt a + toInt b) := by
    simp only [Fits, lo, hi, toInt]
    omega
  unfold add result
  rw [if_pos (.inl hfits)]
  congr 1
  apply UInt64.toNat_inj.mp
  have := toInt_ofInt (α := UInt64) (toInt a + toInt b) hfits.1 hfits.2
  simp only [toInt] at this ⊢
  rw [UInt64.toNat_add, Nat.mod_eq_of_lt h]
  omega

theorem sub_eq_ok (h : b.toNat ≤ a.toNat)
    : (sub checks a b : Outcome ε UInt64) = .ok (a - b) := by
  have ha := a.toNat_lt
  have hfits : Fits UInt64 (toInt a - toInt b) := by
    simp only [Fits, lo, hi, toInt]
    omega
  unfold sub result
  rw [if_pos (.inl hfits)]
  congr 1
  apply UInt64.toNat_inj.mp
  have := toInt_ofInt (α := UInt64) (toInt a - toInt b) hfits.1 hfits.2
  simp only [toInt] at this ⊢
  rw [UInt64.toNat_sub_of_le _ _ (UInt64.le_iff_toNat_le.mpr h)]
  omega

theorem mul_eq_ok (h : a.toNat * b.toNat < 2 ^ 64)
    : (mul checks a b : Outcome ε UInt64) = .ok (a * b) := by
  have hprod : (a.toNat : Int) * b.toNat = (a.toNat * b.toNat : Nat) := by push_cast; rfl
  obtain ⟨c, hc, hval⟩ := result_ok (ε := ε) (α := UInt64) checks (x := toInt a * toInt b)
    (by simp only [Fits, lo, hi, toInt]; omega)
  simp only [toInt] at hval
  unfold mul
  rw [hc]
  apply congrArg Outcome.ok
  apply UInt64.toNat_inj.mp
  rw [UInt64.toNat_mul, Nat.mod_eq_of_lt h]
  omega

theorem shl_eq_ok (h : n < 64) (hfits : a.toNat * 2 ^ n < 2 ^ 64)
    : (shl checks 64 a n : Outcome ε UInt64) = .ok (UInt64.ofNat (a.toNat * 2 ^ n)) := by
  have hint : (toInt a) * 2 ^ n = ((a.toNat * 2 ^ n : Nat) : Int) := by
    simp [toInt]
  unfold shl
  rw [if_pos (.inl h), Nat.mod_eq_of_lt h, hint]
  congr 1
  apply UInt64.toNat_inj.mp
  have := toInt_ofInt (α := UInt64) (a.toNat * 2 ^ n : Nat) (Int.natCast_nonneg _)
    (by simp only [hi]; omega)
  simp only [toInt] at this
  rw [UInt64.toNat_ofNat_of_lt' hfits]
  exact Int.ofNat_inj.mp this

theorem shl_one_eq_ok (h : n < 64)
    : (shl checks 64 1 n : Outcome ε UInt64) = .ok (UInt64.ofNat (2 ^ n)) := by
  have hpow : 2 ^ n < 2 ^ 64 := Nat.pow_lt_pow_right (by omega) h
  rw [shl_eq_ok h (by rwa [UInt64.toNat_one, Nat.one_mul]), UInt64.toNat_one, Nat.one_mul]

theorem sum_eq_ok (checks : Bool) (h : (l.map UInt64.toNat).sum < 2 ^ 64)
    : (sum checks l : Outcome ε UInt64) = .ok (UInt64.ofNat (l.map UInt64.toNat).sum) := by
  have hval : (l.map toInt).sum = ((l.map UInt64.toNat).sum : Int) := by
    induction l with
    | nil => rfl
    | cons a l ih =>
      rw [List.map_cons, List.sum_cons] at h ⊢
      rw [List.map_cons, List.sum_cons, ih (by omega), Nat.cast_add]
      rfl
  obtain ⟨c, hc, hsum⟩ := sum_ok (ε := ε) checks (le_refl _) (l := l) (fun a _ => Int.natCast_nonneg _)
    (by rw [hval]; simp only [hi]; omega)
  rw [hc]
  apply congrArg Outcome.ok
  apply UInt64.toNat_inj.mp
  rw [UInt64.toNat_ofNat_of_lt' h]
  rw [hval] at hsum
  exact Int.ofNat_inj.mp hsum

theorem eq_add_of_add
    (h : (add checks a b : Outcome ε UInt64) = .ok c)
    : c = a + b := by
  unfold add result at h
  split at h
  . injection h with h
    rw [← h]
    apply UInt64.toNat_inj.mp
    rw [UInt64.toNat_add]
    simp only [toInt, ofInt]
    rw [UInt64.toNat_ofNat_of_lt' (by unfold UInt64.size; omega)]
    omega
  . contradiction

theorem eq_sub_of_sub
    (h : (sub checks a b : Outcome ε UInt64) = .ok c)
    : c = a - b := by
  have ha := a.toNat_lt
  have hb := b.toNat_lt
  unfold sub result at h
  split at h
  . injection h with h
    rw [← h]
    apply UInt64.toNat_inj.mp
    rw [UInt64.toNat_sub]
    simp only [toInt, ofInt]
    rw [UInt64.toNat_ofNat_of_lt' (by unfold UInt64.size; omega)]
    omega
  . contradiction

theorem toNat_le_of_sum
    (h : (sum checks l : Outcome ε UInt64) = .ok a)
    : a.toNat ≤ (l.map UInt64.toNat).sum := by
  have hgo (l : List UInt64) (acc : UInt64)
      (h : l.foldlM (fun acc a => (add checks acc a : Outcome ε UInt64)) acc = .ok a)
      : a.toNat ≤ acc.toNat + (l.map UInt64.toNat).sum := by
    induction l generalizing acc with
    | nil =>
      injection h with h
      rw [h]
      exact Nat.le_add_right _ _
    | cons b l ih =>
      rw [List.foldlM_cons] at h
      obtain ⟨acc', hacc', h⟩ := Outcome.bind_eq_ok.mp h
      have hle := ih acc' h
      rw [eq_add_of_add hacc', UInt64.toNat_add] at hle
      rw [List.map_cons, List.sum_cons]
      omega
  have hzero : (ofInt 0 : UInt64).toNat = 0 := by decide
  have hle := hgo l _ h
  rwa [hzero, Nat.zero_add] at hle

theorem add_congr
    (h : (add checks a b : Outcome ε UInt64) = .ok c)
    : (add checks a b : Outcome ε' UInt64) = .ok c := by
  unfold add result at h ⊢
  split at h
  . next hfits =>
    rw [if_pos hfits, Outcome.ok.inj h]
  . contradiction

theorem toNat_of_add (h : (add checks a b : Outcome ε UInt64) = .ok c)
    (hfits : a.toNat + b.toNat < 2 ^ 64)
    : c.toNat = a.toNat + b.toNat := by
  unfold add result at h
  split at h
  . injection h with h
    have := toInt_ofInt (α := UInt64) (a.toNat + b.toNat) (by simp only [lo]; omega)
      (by simp only [hi]; omega)
    rw [← h]
    simp only [toInt] at this ⊢
    omega
  . contradiction

theorem returns_mul_iff
    : (mul true a b : Outcome ε UInt64).Returns ↔ a.toNat * b.toNat < 2 ^ 64 := by
  have hprod : (a.toNat : Int) * b.toNat = (a.toNat * b.toNat : Nat) := by push_cast; rfl
  rw [mul, returns_result_iff]
  simp only [Fits, lo, hi, toInt]
  omega

theorem returns_add_iff
    : (add true a b : Outcome ε UInt64).Returns ↔ a.toNat + b.toNat < 2 ^ 64 := by
  rw [add, returns_result_iff]
  simp only [Fits, lo, hi, toInt]
  omega

theorem fits_of_mul (h : (mul true a b : Outcome ε UInt64) = .ok c)
    : a.toNat * b.toNat < 2 ^ 64 := by
  rw [← returns_mul_iff (ε := ε), h]
  trivial

theorem fits_of_add (h : (add true a b : Outcome ε UInt64) = .ok c)
    : a.toNat + b.toNat < 2 ^ 64 := by
  rw [← returns_add_iff (ε := ε), h]
  trivial

theorem sub_of_add
    (h : (add checks a b : Outcome ε UInt64) = .ok c)
    : (sub checks c b : Outcome ε' UInt64) = .ok a := by
  have hc := eq_add_of_add h
  cases checks with
  | true =>
    have hfits := fits_of_add h
    have hsum := toNat_of_add h hfits
    rw [sub_eq_ok (by omega), hc, UInt64.add_sub_cancel]
  | false =>
    have hok : (sub false c b : Outcome ε' UInt64) = .ok (ofInt (toInt c - toInt b)) := by
      unfold sub result
      rw [if_pos (.inr rfl)]
    rw [hok, eq_sub_of_sub hok, hc, UInt64.add_sub_cancel]

theorem toNat_of_add_one
    (h : (add checks a 1 : Outcome ε UInt64) = .ok b) (hb : b ≠ 0)
    : b.toNat = a.toNat + 1 := by
  have ha := a.toNat_lt
  have hb : b.toNat ≠ 0 := fun hzero => hb (UInt64.toNat_inj.mp hzero)
  rw [eq_add_of_add h, UInt64.toNat_add] at hb ⊢
  rw [UInt64.toNat_one] at hb ⊢
  omega

theorem toNat_of_sub (h : (sub checks a b : Outcome ε UInt64) = .ok c)
    (hfits : b.toNat ≤ a.toNat)
    : c.toNat = a.toNat - b.toNat := by
  have ha := a.toNat_lt
  unfold sub result at h
  split at h
  . injection h with h
    have := toInt_ofInt (α := UInt64) (a.toNat - b.toNat) (by simp only [lo]; omega)
      (by simp only [hi]; omega)
    rw [← h]
    simp only [toInt] at this ⊢
    omega
  . contradiction

theorem toNat_of_div (h : (div a b : Outcome ε UInt64) = .ok c)
    : c.toNat = a.toNat / b.toNat := by
  have ha := a.toNat_lt
  have hle := Nat.div_le_self a.toNat b.toNat
  unfold div at h
  split at h
  . contradiction
  . injection h with h
    have := toInt_ofInt (α := UInt64) (a.toNat / b.toNat : Nat)
      (by simp only [lo]; exact Int.natCast_nonneg _)
      (by simp only [hi]; omega)
    rw [← h]
    simp only [toInt] at this ⊢
    rw [← Int.ofNat_tdiv]
    omega

theorem div_eq_ok (h : b.toNat ≠ 0)
    : (div a b : Outcome ε UInt64) = .ok (a / b) := by
  have hne : toInt b ≠ 0 := by
    simp only [toInt]
    omega
  have hdiv : (div a b : Outcome ε UInt64) = .ok (ofInt ((toInt a).tdiv (toInt b))) := if_neg hne
  rw [hdiv]
  congr 1
  apply UInt64.toNat_inj.mp
  rw [toNat_of_div hdiv, UInt64.toNat_div]

@[simp]
theorem result_ne_err
    : (result checks x : Outcome ε α) ≠ .err e := by
  unfold result
  split <;> simp

@[simp]
theorem add_ne_err {checks : Bool} {a b : α} {e : ε}
    : add checks a b ≠ .err e := result_ne_err

@[simp]
theorem sub_ne_err {checks : Bool} {a b : α} {e : ε}
    : sub checks a b ≠ .err e := result_ne_err

@[simp]
theorem mul_ne_err {checks : Bool} {a b : α} {e : ε}
    : mul checks a b ≠ .err e := result_ne_err

@[simp]
theorem shl_ne_err {checks : Bool} {width n : Nat} {a : α} {e : ε}
    : shl checks width a n ≠ .err e := by
  unfold shl
  split <;> simp

@[simp]
theorem div_ne_err {a b : α} {e : ε}
    : div a b ≠ .err e := by
  unfold div
  split <;> simp

@[simp]
theorem sum_ne_err {checks : Bool} {l : List α} {e : ε}
    : sum checks l ≠ .err e := Outcome.foldlM_ne_err (fun _ _ => add_ne_err) l _

end MachineInt
