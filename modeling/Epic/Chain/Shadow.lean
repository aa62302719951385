import Epic.Chain.Rejected
import Epic.Chain.Submissions
import Epic.Chain.Pipe.Orphan

/-!
This module contains what the orphan pool does to blocks that are submitted later: a block is not
accepted as long as the pool holds one with the same header hash.
-/

namespace Epic

open Routine

namespace Pipe

theorem validateHeader_later
    (hopts : ctx'.opts = ctx.opts) (hpow : ctx'.powVerifier = ctx.powVerifier)
    (hnow : ctx.now ≤ ctx'.now) (h : validateHeader env ctx db header = .ok ())
    : validateHeader env ctx' db header = .ok () := by
  obtain ⟨hbad, prev, hchecked⟩ := validateHeader_eq_ok.mp h
  refine validateHeader_eq_ok.mpr ⟨hbad, prev, ?_⟩
  refine { hchecked with notAhead := ?_, proof := ?_, difficulty := ?_ }
  . rintro ⟨hlater, htesting⟩
    exact hchecked.notAhead ⟨by omega, htesting⟩
  . unfold validateProof
    rw [hopts, hpow]
    exact hchecked.proof
  . unfold validateDifficulty
    rw [hopts]
    exact hchecked.difficulty

theorem processHeaderForBlock_later
    (hopts : ctx'.opts = ctx.opts) (hpow : ctx'.powVerifier = ctx.powVerifier)
    (hnow : ctx.now ≤ ctx'.now)
    (h : processHeaderForBlock env ctx header isFork st = (.ok u, st'))
    : processHeaderForBlock env ctx' header isFork st = (.ok u, st') := by
  obtain ⟨⟨⟩, mid, hextending, h⟩ := bind_eq_ok.mp h
  obtain ⟨⟨⟩, mid', hvalid, h⟩ := bind_eq_ok.mp h
  refine bind_eq_ok.mpr ⟨(), mid, hextending, ?_⟩
  refine bind_eq_ok.mpr ⟨(), mid', ?_, h⟩
  unfold validateHeaderIn at hvalid ⊢
  rw [query_eq_ok] at hvalid ⊢
  exact ⟨validateHeader_later hopts hpow hnow hvalid.1, hvalid.2⟩

theorem processBlock_later (h : processBlock env ctx pool b st = (.ok head, st'))
    (hopts : ctx'.opts = ctx.opts) (hpow : ctx'.powVerifier = ctx.powVerifier)
    (hnow : ctx.now ≤ ctx'.now)
    : processBlock env ctx' pool' b st
        =
      if pool'.contains (b.hash env) = false then
        (.ok head, st')
      else
        (.err (.unfit "already known in orphans"), st) := by
  obtain ⟨⟨⟩, st₁, hknown, h⟩ := bind_eq_ok.mp h
  rw [query_eq_ok] at hknown
  obtain ⟨hknown, rfl⟩ := hknown
  obtain ⟨⟨⟩, hhead, hknown⟩ := Outcome.bind_eq_ok.mp hknown
  obtain ⟨⟨⟩, -, hstore⟩ := Outcome.bind_eq_ok.mp hknown
  obtain ⟨isFork, st₁, horphan, h⟩ := bind_eq_ok.mp h
  obtain ⟨⟨⟩, st₂, hheader, h⟩ := bind_eq_ok.mp h
  have hheader' := processHeaderForBlock_later hopts hpow hnow hheader
  have hpool : checkKnown env pool' st.batch b = checkKnownOrphans env pool' b.header := by
    unfold checkKnown
    rw [hhead, hstore]
    unfold checkKnownOrphans Outcome.require
    split <;> rfl
  by_cases hcontains : pool'.contains (b.hash env) = false
  . rw [if_pos hcontains]
    refine bind_eq_ok.mpr ⟨(), st, ?_, ?_⟩
    . rw [query_eq_ok]
      exact ⟨hpool.trans (if_pos hcontains), rfl⟩
    . exact bind_eq_ok.mpr ⟨isFork, st₁, horphan, bind_eq_ok.mpr ⟨(), st₂, hheader', h⟩⟩
  . rw [if_neg hcontains]
    refine bind_eq_err.mpr (.inl ?_)
    exact Prod.ext (hpool.trans (if_neg hcontains)) rfl

end Pipe

namespace Chain

theorem processBlockSingle_orphan {c c' : Chain} (hc : c.Settled)
    (h : c.processBlockSingle env clock b opts = (.err .orphan, c'))
    : c' = { c with orphans := c.orphans.add env clock.instant ⟨b, opts, clock.instant⟩ } := by
  unfold processBlockSingle at h
  split at h
  . split at h
    . simp at h
    . next e st hres =>
      unfold rejectBlock at h
      split at h
      . have hst : st = c.state := Pipe.processBlock_orphan hc hres
        simp only [Prod.mk.injEq, true_and] at h
        rw [← h, hst]
        rfl
      . simp at h
      . simp at h
    . simp at h
    . simp at h
  . next e hhead =>
    simp only [Prod.mk.injEq, Outcome.err.injEq] at h
    rw [h.1] at hhead
    exact absurd hhead Batch.head_ne_orphan
  . simp at h
  . simp at h

inductive OrphansOnly (env : Env) : Chain → List Submission → Chain → Prop where
  | nil (c : Chain) : OrphansOnly env c [] c
  | cons {c c₁ c₂ : Chain} {s : Submission} {rest : List Submission}
    (h : c.processBlock env s.clock s.block s.opts = (.err .orphan, c₁))
    (hrest : OrphansOnly env c₁ rest c₂) : OrphansOnly env c (s :: rest) c₂

theorem OrphansOnly.eq_setOrphans {c c' : Chain}
    (hc : c.Settled) (h : OrphansOnly env c strays c')
    : c' = { c with orphans := c'.orphans } := by
  induction h with
  | nil c => rfl
  | @cons c c₁ c₂ s rest h hrest ih =>
    have hc₁ := processBlockSingle_orphan hc (processBlock_eq_err.mp h)
    have hsettled : c₁.Settled := by
      rw [hc₁]
      exact hc
    rw [ih hsettled, hc₁]

theorem processBlockSingle_setOrphans {env : Env} {c c₀ c₁ : Chain} {clock clock' : Clock} {b : Block}
    {opts : Options} {head : Option Tip} (hc₁ : c₁ = { c with orphans := c₁.orphans })
    (hok : c.processBlockSingle env clock b opts = (.ok head, c₀))
    (hclock : clock.utc ≤ clock'.utc)
    : (c₁.processBlockSingle env clock' b opts).1
        =
      if c₁.orphans.contains (b.hash env) = false then
        .ok head
      else
        .err (.unfit "already known in orphans") := by
  obtain ⟨old, st, hhead, hpipe, -⟩ := processBlockSingle_eq_ok hok
  have hhead₁ : c₁.store.head = some old := by rw [hc₁, hhead]
  have hpow : c₁.powVerifier = c.powVerifier := by rw [hc₁]
  have hstate : c₁.state = c.state := by
    rw [hc₁]
    rfl
  have hlater : Pipe.processBlock env (c₁.newCtx clock' opts) c₁.orphans b c.state = _ :=
    Pipe.processBlock_later hpipe rfl hpow hclock
  rw [← hstate] at hlater
  split at hlater
  . next hcontains =>
    rw [if_pos hcontains]
    rw [processBlockSingle_of_ok hhead₁ hlater]
  . next hcontains =>
    rw [if_neg hcontains]
    rw [processBlockSingle_of_err hhead₁ hlater]
    rfl

theorem accepted_after_orphans_iff {env : Env} {c c₀ c₁ : Chain} {strays : List Submission}
    {clock clock' : Clock} {b : Block} {opts : Options} {head : Option Tip} (hc : c.Settled)
    (hok : c.processBlock env clock b opts = (.ok head, c₀))
    (hstrays : OrphansOnly env c strays c₁) (hclock : clock.utc ≤ clock'.utc)
    : ((c₁.processBlockSingle env clock' b opts).1 = .ok head
          ↔ c₁.orphans.contains (b.hash env) = false)
        ∧
      ((c₁.processBlock env clock' b opts).1.Returns
        → ((c₁.processBlock env clock' b opts).1 = .ok head
          ↔ c₁.orphans.contains (b.hash env) = false)) := by
  obtain ⟨c₂, hsingle⟩ := processBlock_eq_ok hok
  have hres := processBlockSingle_setOrphans (hstrays.eq_setOrphans hc) hsingle hclock
  have hiff : (c₁.processBlockSingle env clock' b opts).1 = .ok head
      ↔ c₁.orphans.contains (b.hash env) = false := by
    rw [hres]
    split <;> simp_all
  refine ⟨hiff, ?_⟩
  intro hreturns
  rw [← hiff]
  rcases hr : c₁.processBlockSingle env clock' b opts with ⟨(head' | e | _ | _), c₃⟩
  . rcases hp : c₁.processBlock env clock' b opts with ⟨(head'' | e | _ | _), c₄⟩
    . obtain ⟨c₅, hr'⟩ := processBlock_eq_ok hp
      rw [hr] at hr'
      simp only [Prod.mk.injEq] at hr'
      rw [hr'.1]
    . rw [processBlock_eq_err, hr] at hp
      simp at hp
    . rw [hp] at hreturns
      simp at hreturns
    . rw [hp] at hreturns
      simp at hreturns
  . rw [processBlock_eq_err.mpr hr]
  . rw [hr] at hres
    split at hres <;> simp at hres
  . rw [hr] at hres
    split at hres <;> simp at hres

namespace Sample

-- a block with the same header hash, which does not cover the hash of the predecessor
def shadow : Block :=
  { firstBlock with header := { firstBlock.header with prevHash := ⟨[1]⟩ } }

end Sample

open Sample in
theorem accepted_after_stray
    : ∃ c₀ c₁,
        start.processBlock env clock firstBlock .none
          = (.ok (some (.fromHeader env firstBlock.header)), c₀)
          ∧
        OrphansOnly env start [⟨clock, stray 0, .none⟩] c₁
          ∧
        (c₁.processBlockSingle env clock firstBlock .none).1
          = .ok (some (.fromHeader env firstBlock.header)) := by
  have hok : start.processBlock env clock firstBlock .none
      = (.ok (some (.fromHeader env firstBlock.header)),
          (start.processBlock env clock firstBlock .none).2) := by
    apply Prod.ext
    . decide +kernel
    . rfl
  have hstray : start.processBlock env clock (stray 0) .none
      = (.err .orphan, (start.processBlock env clock (stray 0) .none).2) := by
    apply Prod.ext
    . decide
    . rfl
  have hstrays := OrphansOnly.cons (s := ⟨clock, stray 0, .none⟩) hstray (.nil _)
  refine ⟨_, _, hok, hstrays, ?_⟩
  refine (accepted_after_orphans_iff settled_start hok hstrays (le_refl _)).1.mpr ?_
  decide

open Sample in
theorem shadowed_by_orphan
    : start.orphans.len = 0
        ∧
      (start.processBlock env clock firstBlock .none).1
        = .ok (some (.fromHeader env firstBlock.header))
        ∧
      (start.processBlock env clock shadow .none).1 = .err .orphan
        ∧
      ((start.processBlock env clock shadow .none).2.processBlock env clock firstBlock .none).1
        = .err (.unfit "already known in orphans") := by
  decide +kernel

end Chain
end Epic
