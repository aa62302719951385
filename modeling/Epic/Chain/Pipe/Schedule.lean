import Epic.Chain.Pipe.ValidateHeader
import Epic.Core.Transparent
import Mathlib.Data.List.Perm.Subperm
import Mathlib.Logic.Equiv.Basic

/-!
This module contains what the validation of a header guarantees about the feijoada schedule: which
algorithm an accepted header was mined with, and which bottles it may carry.
-/

namespace Epic
namespace Pipe

def scheduled (env : Env) (db : HeaderDb) (header : BlockHeader)
    : Outcome ErrorKind (PoWType × Policy) := do
  let prev ← .okOr (db.getPreviousHeader header) .orphan
  Consensus.nextPolicy env header.policy (BottleIter.first db (prev.hash env) header.policy)

theorem Checked.scheduled
    (h : Checked env ctx db prev header)
    : ∃ algo bottles,
        scheduled env db header = .ok (algo, bottles) ∧ isCorrect header.pow.proof algo = true := by
  obtain ⟨-, algo, bottles, hnext, hcorrect⟩ := validateAlgo_eq_ok.mp h.algo
  refine ⟨algo, bottles, ?_, hcorrect⟩
  unfold Pipe.scheduled
  rw [h.parent]
  exact hnext

def scheduledEdgeBits (proof : Proof) : Prop :=
  match proof with
  | .cuckoo edgeBits _ => edgeBits = 19 ∨ edgeBits = 29 ∨ edgeBits = 31
  | _ => True

theorem fromProof_eq_iff_of_isCorrect
    (h : isCorrect proof algo = true)
    : algo = .fromProof proof ↔ scheduledEdgeBits proof := by
  cases proof with
  | cuckoo edgeBits nonces =>
    unfold isCorrect at h
    unfold scheduledEdgeBits PoWType.fromProof
    dsimp at h ⊢
    by_cases h29 : edgeBits = 29
    . subst h29
      simp_all
    . simp only [h29, ↓reduceIte, beq_iff_eq, false_or] at h ⊢
      rw [h]
      split <;> simp_all
  | md5 proof edgeBits => simp [isCorrect] at h
  | randomX hash => simpa [isCorrect, scheduledEdgeBits, PoWType.fromProof] using h
  | progPow mix => simpa [isCorrect, scheduledEdgeBits, PoWType.fromProof] using h

theorem scheduled_eq_measured_iff {env : Env} {ctx : Ctx} {db : HeaderDb} {header : BlockHeader}
    (h : validateHeader env ctx db header = .ok ())
    : (∃ bottles, scheduled env db header = .ok (.fromProof header.pow.proof, bottles))
        ↔
      scheduledEdgeBits header.pow.proof := by
  obtain ⟨-, prev, hchecked⟩ := validateHeader_eq_ok.mp h
  obtain ⟨algo, bottles, hscheduled, hcorrect⟩ := hchecked.scheduled
  rw [← fromProof_eq_iff_of_isCorrect hcorrect]
  rw [hscheduled]
  simp only [Outcome.ok.injEq, Prod.mk.injEq, exists_and_left, exists_eq', and_true]

theorem exists_mem_not_mem_of_length_lt {α : Type} [DecidableEq α] {l k : List α} (hl : l.Nodup)
    (hlt : k.length < l.length)
    : ∃ x ∈ l, x ∉ k := by
  by_contra hcon
  have hsub : l ⊆ k := by
    intro x hx
    by_contra hk
    exact hcon ⟨x, hx, hk⟩
  have := (hl.subperm hsub).length_le
  omega

-- the digest covers the bottles last, after everything else it covers
def digestedBeforeBottles (ct : ChainTypes) (h : BlockHeader) : List UInt8 :=
  Ser.writeU16 h.version ++ [] ++ h.pow.write ct .hash ++ Ser.writeU8 h.policy

theorem hash_with_bottles (env : Env) (h : BlockHeader) (b : Policy)
    : ({ h with bottles := b } : BlockHeader).hash env
        =
      env.blake2b (digestedBeforeBottles env.chainType h ++ b.write) := by
  rfl

def otherBottles : List Policy := (List.range 4).map fun n => ⟨some (UInt32.ofNat n), none, none, none⟩

theorem nodup_otherBottles_write
    : (otherBottles.map Policy.write).Nodup := by
  decide

theorem exists_other_bottles {env : Env} (hinj : Function.Injective env.blake2b) (h : BlockHeader)
    (expected : Policy)
    : ∃ b, b ≠ expected ∧ ({ h with bottles := b } : BlockHeader).hash env ∉ badHashes := by
  have hdigest : Function.Injective fun w : List UInt8 =>
      env.blake2b (digestedBeforeBottles env.chainType h ++ w) := by
    intro w w' heq
    exact List.append_cancel_left (hinj heq)
  have hnodup := nodup_otherBottles_write.map hdigest
  have hlt : (({ h with bottles := expected } : BlockHeader).hash env :: badHashes).length
      < ((otherBottles.map Policy.write).map fun w =>
          env.blake2b (digestedBeforeBottles env.chainType h ++ w)).length := by
    simp [badHashes, otherBottles]
  obtain ⟨x, hx, hnot⟩ := exists_mem_not_mem_of_length_lt hnodup hlt
  rw [List.map_map] at hx
  obtain ⟨b, -, rfl⟩ := List.mem_map.mp hx
  simp only [List.mem_cons, not_or, Function.comp_apply, ← hash_with_bottles] at hnot
  refine ⟨b, ?_, hnot.2⟩
  intro heq
  apply hnot.1
  rw [heq]

theorem Checked.with_bottles (hpow : ctx.powVerifier = Pow.verifySize v env.chainType)
    (hchecked : Checked env ctx db prev h) (b : Policy)
    : Checked env ctx db prev { h with bottles := b } where
  version := hchecked.version
  notAhead := hchecked.notAhead
  proof := by
    have := hchecked.proof
    unfold validateProof at this ⊢
    rw [hpow] at this ⊢
    exact this
  parent := hchecked.parent
  seed := hchecked.seed
  algo := hchecked.algo
  height := hchecked.height
  later := hchecked.later
  difficulty := hchecked.difficulty

theorem only_scheduled_bottles_iff {env : Env} {ctx : Ctx} {db : HeaderDb} {v : Pow.Verifiers}
    (hinj : Function.Injective env.blake2b)
    (hpow : ctx.powVerifier = Pow.verifySize v env.chainType) (h : BlockHeader)
    : (∀ b, validateHeader env ctx db { h with bottles := b } = .ok ()
          → ∃ algo, scheduled env db h = .ok (algo, b))
        ↔
      ¬ ∃ prev, Checked env ctx db prev h := by
  constructor
  . rintro honly ⟨prev, hchecked⟩
    obtain ⟨algo, expected, hscheduled, -⟩ := hchecked.scheduled
    obtain ⟨b, hne, hbad⟩ := exists_other_bottles hinj h expected
    have hok : validateHeader env ctx db { h with bottles := b } = .ok () :=
      validateHeader_eq_ok.mpr ⟨hbad, prev, hchecked.with_bottles hpow b⟩
    obtain ⟨algo', hscheduled'⟩ := honly b hok
    rw [hscheduled] at hscheduled'
    injection hscheduled' with heq
    injection heq with _ heq
    exact hne heq.symm
  . intro hnone b hok
    obtain ⟨-, prev, hchecked⟩ := validateHeader_eq_ok.mp hok
    exact absurd ⟨prev, hchecked.with_bottles hpow h.bottles⟩ hnone

-- A mainnet chain whose only header is a genesis with the given bottles. The seed of a child is 32
-- zero bytes, so the digest of the genesis has to be these.
namespace Sample

def zeroSeed : Bytes32 := .replicate 32 0

def minute : DateTime := .whole 60 (by decide) (by decide)

def randomXProof : Proof := .randomX ⟨List.replicate 31 0 ++ [1], by decide⟩

def cuckooProof (edgeBits : UInt8) : Proof := .cuckoo edgeBits (List.replicate 42 0)

def genesis (bottles : Policy) : BlockHeader where
  version := Global.currentHeaderVersion
  height := 0
  prevHash := ⟨[]⟩
  prevRoot := ⟨[]⟩
  timestamp := .epoch
  outputRoot := ⟨[]⟩
  rangeProofRoot := ⟨[]⟩
  kernelRoot := ⟨[]⟩
  totalKernelOffset := .zero
  outputMmrSize := 0
  kernelMmrSize := 0
  pow := ⟨.fromNum 1, 1, 0, randomXProof, zeroSeed⟩
  policy := 0
  bottles := bottles

def env (bottles : Policy) : Env where
  __ := Transparent.env .mainnet
  blake2b bs := ⟨Equiv.swap ((genesis bottles).write .mainnet .hash) zeroSeed.toList bs⟩

def ctx (v : Pow.Verifiers) : Ctx where
  opts := .none
  powVerifier := Pow.verifySize v .mainnet
  now := 1000 * 10 ^ 9

def verifiers : Pow.Verifiers where
  progPow _ _ _ _ := true
  randomX _ _ _ _ _ := true
  md5 _ _ _ _ _ _ := true
  cuckatoo _ _ _ _ _ := true

def db (bottles : Policy) : HeaderDb := HeaderDb.saveBlockHeader (env bottles) ∅ (genesis bottles)

def child (bottles : Policy) (proof : Proof) (childBottles : Policy) : BlockHeader :=
  { genesis bottles with
    height := 1
    prevHash := (genesis bottles).hash (env bottles)
    timestamp := minute
    pow := ⟨.fromNum 2, 13, 0, proof, zeroSeed⟩
    bottles := childBottles }

def emptyBottles : Policy := Feijoada.getBottlesDefault

def filledBottles : Policy := ⟨some 0, some 1, some 60, some 38⟩

theorem injective_blake2b (bottles : Policy)
    : Function.Injective (env bottles).blake2b := by
  intro x y h
  injection h with h
  exact Equiv.injective _ h

end Sample

open Sample in
theorem scheduled_eq_measured_randomX
    : validateHeader (env emptyBottles) (ctx verifiers) (db emptyBottles)
        (child emptyBottles randomXProof emptyBottles) = .ok ()
        ∧
      ((∃ bottles,
          scheduled (env emptyBottles) (db emptyBottles)
            (child emptyBottles randomXProof emptyBottles)
          = .ok (.fromProof randomXProof, bottles))
        ↔
        scheduledEdgeBits randomXProof) := by
  have hok : validateHeader (env emptyBottles) (ctx verifiers) (db emptyBottles)
      (child emptyBottles randomXProof emptyBottles) = .ok () := by
    decide +kernel
  exact ⟨hok, scheduled_eq_measured_iff hok⟩

-- with 30 edge bits the schedule counts a proof as cuckatoo, the difficulty as cuckaroo
open Sample in
theorem scheduled_ne_measured_cuckoo30
    : validateHeader (env filledBottles) (ctx verifiers) (db filledBottles)
        (child filledBottles (cuckooProof 30) emptyBottles) = .ok ()
        ∧
      scheduled (env filledBottles) (db filledBottles)
        (child filledBottles (cuckooProof 30) emptyBottles)
        = .ok (.cuckatoo, ⟨some 0, some 2, some 60, some 38⟩)
        ∧
      PoWType.fromProof (cuckooProof 30) = .cuckaroo := by
  decide +kernel

open Sample in
theorem only_scheduled_bottles_sample
    : ¬ ∀ b, validateHeader (env emptyBottles) (ctx verifiers) (db emptyBottles)
        { child emptyBottles randomXProof emptyBottles with bottles := b } = .ok ()
          → ∃ algo, scheduled (env emptyBottles) (db emptyBottles)
              (child emptyBottles randomXProof emptyBottles) = .ok (algo, b) := by
  rw [only_scheduled_bottles_iff (injective_blake2b emptyBottles) rfl
    (child emptyBottles randomXProof emptyBottles), not_not]
  exact (validateHeader_eq_ok.mp (by decide +kernel)).2

-- the child keeps the bottles of its parent, where the schedule counts its own algorithm
open Sample in
theorem other_bottles_accepted
    : validateHeader (env emptyBottles) (ctx verifiers) (db emptyBottles)
        (child emptyBottles randomXProof emptyBottles) = .ok ()
        ∧
      (ctx verifiers).opts.skipPow = false
        ∧
      scheduled (env emptyBottles) (db emptyBottles) (child emptyBottles randomXProof emptyBottles)
        = .ok (.randomX, ⟨some 0, some 0, some 1, some 0⟩)
        ∧
      (child emptyBottles randomXProof emptyBottles).bottles
        ≠ ⟨some 0, some 0, some 1, some 0⟩ := by
  decide +kernel

end Pipe
end Epic
