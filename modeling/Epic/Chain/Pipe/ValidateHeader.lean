import Epic.Chain.Error
import Epic.Chain.Store.HeaderDb
import Epic.Core.Block.Feijoada
import Epic.Core.Pow.RandomX

/-!
This module contains the validation of a block header against the headers of the chain store.
-/

namespace Epic

open MachineInt

structure Options where
  skipPow : Bool
  sync : Bool
  mine : Bool
deriving DecidableEq, Repr

def Options.none : Options := ⟨false, false, false⟩

namespace Pipe

-- what the functions of the pipeline read of a BlockContext besides the chain state, and the clock in
-- nanoseconds
structure Ctx where
  opts : Options
  powVerifier : BlockHeader → Bool
  now : Int

def badHashes : List Hash := [
  ⟨[0x84, 0x0c, 0xdf, 0x3a, 0xd9, 0x68, 0xbd, 0x68, 0x95, 0xb0, 0x7e, 0x4e, 0x32, 0x35, 0xee, 0x70,
    0x42, 0x26, 0xf8, 0x5c, 0x31, 0x63, 0xd2, 0xda, 0x2e, 0x67, 0x64, 0xc7, 0xe2, 0xb8, 0x1e, 0xa2]⟩,
  ⟨[0xa9, 0x8b, 0xbc, 0x89, 0x98, 0x92, 0xd2, 0x55, 0x3c, 0x52, 0xef, 0x17, 0xca, 0xb6, 0xd7, 0x08,
    0xf9, 0xea, 0xf7, 0xd5, 0x75, 0xb3, 0xd6, 0x2c, 0xa4, 0x9b, 0xbf, 0x9d, 0x50, 0xae, 0x55, 0xa7]⟩]

def checkBadHeader (env : Env) (header : BlockHeader) : Outcome ErrorKind Unit :=
  .require (header.hash env ∉ badHashes) (.invalidBlockProof (.other "explicit bad header"))

def validateProof (env : Env) (ctx : Ctx) (header : BlockHeader) : Outcome ErrorKind Unit :=
  if ctx.opts.skipPow then
    .ok ()
  else do
    .require (header.pow.isPrimary env.chainType ∨ header.pow.isSecondary) .lowEdgebits
    .require (ctx.powVerifier header = true) .invalidPow

def validateSeed (env : Env) (db : HeaderDb) (header : BlockHeader) : Outcome ErrorKind Unit := do
  let headerSeed ← .okOr (db.getBlockHeader (.fromVec header.pow.seed)) .invalidSeed
  let seedHeight ← RandomX.rxCurrentSeedHeight env.overflowChecks header.height
  .require (headerSeed.height = seedHeight) .invalidSeed

def isCorrect (proof : Proof) (algo : PoWType) : Bool :=
  match proof with
  | .cuckoo edgeBits _ => if edgeBits = 29 then algo == .cuckaroo else algo == .cuckatoo
  | .randomX _ => algo == .randomX
  | .progPow _ => algo == .progPow
  | .md5 _ _ => false

-- The bottles next_policy returns are dropped.
def validateAlgo (env : Env) (db : HeaderDb) (prev header : BlockHeader) : Outcome ErrorKind Unit := do
  let allowed ← Feijoada.isAllowedPolicy env.overflowChecks env.policyConfig.allowedPolicies
    header.height header.policy
  .require (allowed = true) .policyIsNotAllowed
  match Global.getPolicies env.policyConfig header.policy with
  | some _ =>
    let cursor := BottleIter.first db (prev.hash env) header.policy
    let (algo, _) ← Consensus.nextPolicy env header.policy cursor
    .require (isCorrect header.pow.proof algo = true) .invalidSortAlgo
  | none => .err .thereIsNotPolicy

def nextHeaderInfo (env : Env) (db : HeaderDb) (prev : BlockHeader) (height : UInt64)
    : Outcome ErrorKind HeaderInfo :=
  let diffIter := DifficultyIter.take env db (prev.hash env)
  if height < Consensus.difficultyfixHeight env.chainType then
    Consensus.nextDifficulty env height (.fromProof prev.pow.proof) diffIter
  else
    Consensus.nextDifficultyEra1 env height (.fromProof prev.pow.proof) diffIter

def isCuckoo (proof : Proof) : Bool :=
  match proof with
  | .cuckoo _ _ => true
  | _ => false

def validateDifficulty (env : Env) (ctx : Ctx) (db : HeaderDb) (prev header : BlockHeader)
    : Outcome ErrorKind Unit :=
  if ctx.opts.skipPow then
    .ok ()
  else do
    let powType := PoWType.fromProof header.pow.proof
    let targetDifficulty ← header.totalDifficulty.sub env.overflowChecks prev.totalDifficulty
    let diff ← header.pow.toDifficulty env header.prePow header.height header.pow.nonce
    .require (targetDifficulty.toNum powType ≤ diff.toNum powType) .difficultyTooLow
    let nextInfo ← nextHeaderInfo env db prev header.height
    .require (targetDifficulty = nextInfo.difficulty) .wrongTotalDifficulty
    .require (isCuckoo header.pow.proof → header.pow.secondaryScaling = nextInfo.secondaryScaling)
      .invalidScaling

def validateHeader (env : Env) (ctx : Ctx) (db : HeaderDb) (header : BlockHeader)
    : Outcome ErrorKind Unit := do
  .require (header.version = Global.currentHeaderVersion) (.invalidBlockVersion header.version)
  .require
    (¬ (header.timestamp.timestampNanos > ctx.now + 6 * 60 * 10 ^ 9 ∧ env.chainType ≠ .automatedTesting))
    .invalidBlockTime
  checkBadHeader env header
  validateProof env ctx header
  let prev ← .okOr (db.getPreviousHeader header) .orphan
  validateSeed env db header
  validateAlgo env db prev header
  let nextHeight ← add env.overflowChecks prev.height 1
  .require (header.height = nextHeight) .invalidBlockHeight
  .require
    (¬ (header.timestamp.timestampNanos ≤ prev.timestamp.timestampNanos ∧ env.chainType ≠ .automatedTesting))
    .invalidBlockTime
  validateDifficulty env ctx db prev header

theorem validateAlgo_eq_ok
    : validateAlgo env db prev header = .ok ()
        ↔
      (Feijoada.isAllowedPolicy env.overflowChecks env.policyConfig.allowedPolicies header.height
        header.policy : Outcome ErrorKind Bool) = .ok true
        ∧
      ∃ algo bottles,
        (Consensus.nextPolicy env header.policy (BottleIter.first db (prev.hash env) header.policy)
          : Outcome ErrorKind (PoWType × Policy)) = .ok (algo, bottles)
          ∧
        isCorrect header.pow.proof algo = true := by
  unfold validateAlgo
  simp only [Outcome.bind_eq_ok, Outcome.require_eq_ok]
  constructor
  . rintro ⟨allowed, hallowed, -, rfl, h⟩
    refine ⟨hallowed, ?_⟩
    split at h
    . simp only [Outcome.bind_eq_ok, Outcome.require_eq_ok] at h
      obtain ⟨⟨algo, bottles⟩, hnext, hcorrect⟩ := h
      exact ⟨algo, bottles, hnext, hcorrect⟩
    . contradiction
  . rintro ⟨hallowed, algo, bottles, hnext, hcorrect⟩
    refine ⟨true, hallowed, (), rfl, ?_⟩
    split
    . simp only [Outcome.bind_eq_ok, Outcome.require_eq_ok]
      exact ⟨(algo, bottles), hnext, hcorrect⟩
    . next hnone => simp [Consensus.nextPolicy, hnone, Outcome.unwrap] at hnext

-- the checks of validateHeader but the one on the header hash, none of which reads the bottles
structure Checked (env : Env) (ctx : Ctx) (db : HeaderDb) (prev header : BlockHeader) : Prop where
  version : header.version = Global.currentHeaderVersion
  notAhead : ¬ (header.timestamp.timestampNanos > ctx.now + 6 * 60 * 10 ^ 9
    ∧ env.chainType ≠ .automatedTesting)
  proof : validateProof env ctx header = .ok ()
  parent : db.getPreviousHeader header = some prev
  seed : validateSeed env db header = .ok ()
  algo : validateAlgo env db prev header = .ok ()
  height : (add env.overflowChecks prev.height 1 : Outcome ErrorKind UInt64) = .ok header.height
  later : ¬ (header.timestamp.timestampNanos ≤ prev.timestamp.timestampNanos
    ∧ env.chainType ≠ .automatedTesting)
  difficulty : validateDifficulty env ctx db prev header = .ok ()

theorem validateHeader_eq_ok
    : validateHeader env ctx db header = .ok ()
        ↔
      header.hash env ∉ badHashes ∧ ∃ prev, Checked env ctx db prev header := by
  unfold validateHeader checkBadHeader
  simp only [Outcome.bind_eq_ok, Outcome.require_eq_ok, Outcome.okOr_eq_ok]
  constructor
  . rintro ⟨-, hversion, -, hahead, -, hbad, ⟨⟩, hproof, prev, hparent, ⟨⟩, hseed, ⟨⟩, halgo, next,
      hnext, -, hheight, -, hlater, hdifficulty⟩
    exact ⟨hbad, prev, hversion, hahead, hproof, hparent, hseed, halgo, hheight ▸ hnext, hlater,
      hdifficulty⟩
  . rintro ⟨hbad, prev, h⟩
    exact ⟨(), h.version, (), h.notAhead, (), hbad, (), h.proof, prev, h.parent, (), h.seed, (),
      h.algo, header.height, h.height, (), rfl, (), h.later, h.difficulty⟩

end Pipe
end Epic
