import Epic.Core.Transaction.FeeToWeight
import Epic.Pool.TransactionPool

/-!
This module contains the least fee of the transactions that are added to the pool. It is not asked for
if the pool is over its capacity.
-/

namespace Epic
namespace TransactionPool

open Routine

def withFeeBase (base : UInt64) (tp : TransactionPool) : TransactionPool :=
  { tp with config := { tp.config with acceptFeeBase := base } }

def Accepts (env : Env) (chain : BlockChain) (stemTxAccepted : Transaction → Outcome PoolError Unit)
    (tx : Transaction) (stem : Bool) (header : BlockHeader) (tp : TransactionPool)
    : Prop :=
  (addToPool env chain stemTxAccepted tx stem header tp).1 = .ok ()

section

variable {env : Env} {chain : BlockChain} {stemTxAccepted : Transaction → Outcome PoolError Unit}
  {tx : Transaction} {stem : Bool} {header : BlockHeader} {base : UInt64}

theorem commutes_addToTxpool
    : Commutes (withFeeBase base) (addToTxpool env chain tx header) := by
  refine .bind (.query fun s => rfl) fun tx' => ?_
  refine .bind (.query fun s => rfl) fun txpool => ?_
  refine .bind (.modify fun s => rfl) fun _ => ?_
  refine .bind (.query fun s => rfl) fun txpoolTx => ?_
  refine .bind (.query fun s => rfl) fun stempool => ?_
  exact .modify fun s => rfl

theorem commutes_fluffs
    : Commutes (withFeeBase base) (fluffs env chain stemTxAccepted tx stem header) := by
  unfold fluffs
  split
  . refine .isErr (.bind (.bind (.query fun s => rfl) fun stempool => ?_) fun _ => .lift _)
    exact .modify fun s => rfl
  . exact .pure _

theorem commutes_evictFromTxpool
    : Commutes (withFeeBase base) (evictFromTxpool env chain) := by
  refine .bind (.query fun s => rfl) fun txs => ?_
  split
  . exact .modify fun s => rfl
  . exact .pure _

theorem commutes_addChecked
    : Commutes (withFeeBase base) (addChecked env chain stemTxAccepted tx stem evict header) := by
  refine .bind (.lift _) fun _ => .bind (.lift _) fun _ => .bind (.lift _) fun _ => ?_
  refine .bind commutes_fluffs fun fluff => .bind (.onlyIf ?_) fun _ => .onlyIf commutes_evictFromTxpool
  exact .bind commutes_addToTxpool fun _ => .modify fun s => rfl

theorem accepts_iff
    : Accepts env chain stemTxAccepted tx stem header tp
        ↔
      ¬ (stem = false ∧ Pool.containsTx env ⟨tp.txpool, chain⟩ (tx.hash env) = true)
        ∧ ∃ evict, evictFor env tx stem tp = .ok evict
          ∧ (addChecked env chain stemTxAccepted tx stem evict header tp).1 = .ok () := by
  have hsteps : addToPool env chain stemTxAccepted tx stem header
      = (.query fun tp => .require
          (¬ (stem = false ∧ Pool.containsTx env ⟨tp.txpool, chain⟩ (tx.hash env) = true)) .duplicateTx)
        >>= fun _ => .query (evictFor env tx stem)
        >>= fun evict => addChecked env chain stemTxAccepted tx stem evict header := rfl
  unfold Accepts
  rw [hsteps]
  constructor
  . intro h
    obtain ⟨⟨⟩, hnew, h⟩ := query_bind_eq_ok.mp (Prod.ext h rfl)
    obtain ⟨evict, hevict, h⟩ := query_bind_eq_ok.mp h
    exact ⟨Outcome.require_eq_ok.mp hnew, evict, hevict, congrArg Prod.fst h⟩
  . rintro ⟨hnew, evict, hevict, h⟩
    rw [bind_apply, query_apply, (Outcome.require_eq_ok (u := ())).mpr hnew]
    dsimp only
    rw [bind_apply, query_apply, hevict]
    exact h

theorem floor_le_fee (hbase : 0 < tp.config.acceptFeeBase)
    (hweight : tx.txWeight < 2 ^ 64)
    (hfits : env.overflowChecks = true ∨ tx.txWeight * tp.config.acceptFeeBase.toNat < 2 ^ 64)
    (hok : isAcceptable env tx stem tp = .ok ())
    : tx.txWeight * tp.config.acceptFeeBase.toNat ≤ tx.fee.toNat := by
  unfold isAcceptable at hok
  split at hok
  . contradiction
  split at hok
  . contradiction
  obtain ⟨threshold, hthreshold, hok⟩ := Outcome.bind_eq_ok.mp hok
  rw [Outcome.require_eq_ok, UInt64.not_lt, UInt64.le_iff_toNat_le] at hok
  have hnat : (UInt64.ofNat tx.txWeight).toNat = tx.txWeight := UInt64.toNat_ofNat_of_lt' hweight
  have hlt : (UInt64.ofNat tx.txWeight).toNat * tp.config.acceptFeeBase.toNat < 2 ^ 64 := by
    rw [hnat]
    rcases hfits with hchecks | hlt
    . rw [hchecks] at hthreshold
      have hfits := MachineInt.fits_of_mul hthreshold
      exact hnat ▸ hfits
    . exact hlt
  rw [MachineInt.mul_eq_ok hlt, Outcome.ok.injEq] at hthreshold
  rwa [← hthreshold, UInt64.toNat_mul, Nat.mod_eq_of_lt hlt, hnat] at hok

theorem evictFor_of_over (hover : tp.config.maxPoolSize < tp.txpool.length)
    : evictFor env tx false tp = .ok true := by
  have hacceptable : isAcceptable env tx false tp = .err .overCapacity := if_pos hover
  rw [evictFor, hacceptable]
  rfl

theorem isAcceptable_of_room (hevict : evictFor env tx stem tp = .ok evict)
    (hroom : stem = true ∨ tp.txpool.length ≤ tp.config.maxPoolSize)
    : isAcceptable env tx stem tp = .ok () := by
  rcases evictFor_eq_ok hevict with ⟨rfl, -⟩ | ⟨-, hstem, hover⟩
  . unfold evictFor at hevict
    split at hevict
    . assumption
    . split at hevict <;> simp at hevict
    . contradiction
    . contradiction
  . rcases hroom with hstem' | hle
    . exact Bool.noConfusion (hstem.symm.trans hstem')
    . omega

end

def FeeFloor (env : Env) (chain : BlockChain) (stemTxAccepted : Transaction → Outcome PoolError Unit)
    (tx : Transaction) (stem : Bool) (header : BlockHeader) (tp : TransactionPool)
    : Prop :=
  ∀ base, 0 < base → (env.overflowChecks = true ∨ tx.txWeight * base.toNat < 2 ^ 64) →
    Accepts env chain stemTxAccepted tx stem header (tp.withFeeBase base) →
    tx.txWeight * base.toNat ≤ tx.fee.toNat

theorem fee_floor_iff (env : Env) (chain : BlockChain)
    (stemTxAccepted : Transaction → Outcome PoolError Unit) (tx : Transaction) (stem : Bool)
    (header : BlockHeader) (tp : TransactionPool)
    : (stem = true ∨ tp.txpool.length ≤ tp.config.maxPoolSize →
        FeeFloor env chain stemTxAccepted tx stem header tp)
        ∧
      (tx.fee.toNat + tx.txWeight < 2 ^ 64 →
        (∃ base, 0 < base ∧ Accepts env chain stemTxAccepted tx stem header (tp.withFeeBase base)) →
        FeeFloor env chain stemTxAccepted tx stem header tp →
        stem = true ∨ tp.txpool.length ≤ tp.config.maxPoolSize) := by
  constructor
  . intro hroom base hbase hfits haccepts
    obtain ⟨-, evict, hevict, -⟩ := accepts_iff.mp haccepts
    exact floor_le_fee hbase tx.txWeight_lt hfits (isAcceptable_of_room hevict hroom)
  . intro hfee haccepted hfloor
    by_contra hroom
    obtain ⟨hstem, hover⟩ := not_or.mp hroom
    rw [Bool.not_eq_true] at hstem
    subst hstem
    rw [Nat.not_le] at hover
    -- the call is accepted with every base, also with one that asks for more than the fee
    have hall (base : UInt64) : Accepts env chain stemTxAccepted tx false header (tp.withFeeBase base) := by
      obtain ⟨base', -, haccepts⟩ := haccepted
      obtain ⟨hnew, evict, hevict, hok⟩ := accepts_iff.mp haccepts
      have htrue : evictFor env tx false (tp.withFeeBase base') = .ok true := evictFor_of_over hover
      rw [htrue, Outcome.ok.injEq] at hevict
      subst hevict
      rw [commutes_addChecked tp] at hok
      refine accepts_iff.mpr ⟨hnew, true, evictFor_of_over hover, ?_⟩
      rw [commutes_addChecked tp]
      exact hok
    have hpos := tx.txWeight_pos
    have hmod := Nat.div_add_mod tx.fee.toNat tx.txWeight
    have hmodlt := Nat.mod_lt tx.fee.toNat hpos
    have hdiv := Nat.div_le_self tx.fee.toNat tx.txWeight
    have hbase : (UInt64.ofNat (tx.fee.toNat / tx.txWeight + 1)).toNat = tx.fee.toNat / tx.txWeight + 1 :=
      UInt64.toNat_ofNat_of_lt' (by unfold UInt64.size; omega)
    have hfloor := hfloor (UInt64.ofNat (tx.fee.toNat / tx.txWeight + 1))
      (UInt64.lt_iff_toNat_lt.mpr (by rw [hbase]; exact Nat.succ_pos _))
      (.inr (by rw [hbase, Nat.mul_add, Nat.mul_one]; omega)) (hall _)
    rw [hbase, Nat.mul_add, Nat.mul_one] at hfloor
    omega

namespace Sample

-- a transaction without a fee
def free : Transaction := spend 40 0

-- one transaction more than the capacity
def overfull : TransactionPool := ⟨config, [spend 10 3, spend 20 2], [], []⟩

end Sample

theorem fee_floor_iff_sample
    : FeeFloor Sample.env Sample.chain (fun _ => .ok ()) (Sample.spend 10 5) false Sample.header
          (new Sample.config)
        ∧
      ¬ FeeFloor Sample.env Sample.chain (fun _ => .ok ()) Sample.free false Sample.header Sample.overfull := by
  constructor
  . exact (fee_floor_iff Sample.env Sample.chain (fun _ => .ok ()) (Sample.spend 10 5) false Sample.header
      (new Sample.config)).1 (.inr (by decide))
  . intro hfloor
    have haccepts : Accepts Sample.env Sample.chain (fun _ => .ok ()) Sample.free false Sample.header
        (Sample.overfull.withFeeBase 1) := by
      unfold Accepts
      decide
    have hroom := (fee_floor_iff Sample.env Sample.chain (fun _ => .ok ()) Sample.free false Sample.header
      Sample.overfull).2 (by decide) ⟨1, by decide, haccepts⟩ hfloor
    revert hroom
    decide

theorem free_transaction_accepted
    : Accepts Sample.env Sample.chain (fun _ => .ok ()) Sample.free false Sample.header
          (Sample.overfull.withFeeBase 1)
        ∧ Sample.free.txWeight * (1 : UInt64).toNat = 4 ∧ Sample.free.fee.toNat = 0 := by
  unfold Accepts
  decide

end TransactionPool
end Epic
