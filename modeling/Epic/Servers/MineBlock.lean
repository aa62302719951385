import Epic.Chain.HeadState
import Epic.Chain.Pipe.Seed
import Epic.Chain.Pipe.TotalDifficulty
import Epic.Core.Block.Assemble
import Epic.Pool.Pool

/-!
This module contains how a miner builds the next block on the head of the chain, and that the header it
builds is the one the pipeline expects.
-/

namespace Epic

open MachineInt

abbrev Identifier := List.Vector UInt8 17

structure BlockFees where
  fees : UInt64
  keyId : Option Identifier
  height : UInt64
deriving DecidableEq

inductive ServersError where
  | core (e : BlockError)
  | chain (e : ErrorKind)
  | walletComm (msg : String)
deriving DecidableEq

structure TxHashSetRoots where
  headerRoot : Hash
  outputRoot : Hash
  rproofRoot : Hash
  kernelRoot : Hash

structure TxHashSetSizes where
  header : UInt64
  output : UInt64
  rproof : UInt64
  kernel : UInt64

namespace Extension

def headerRoot (env : Env) (ext : Extension) : Outcome ErrorKind Hash := ext.headerPmmr.root env

def roots (env : Env) (ext : Extension) : Outcome ErrorKind TxHashSetRoots := do
  let headerRoot ← ext.headerPmmr.root env
  let outputRoot ← ext.outputPmmr.root env
  let rproofRoot ← ext.rproofPmmr.root env
  let kernelRoot ← ext.kernelPmmr.root env
  return ⟨headerRoot, outputRoot, rproofRoot, kernelRoot⟩

def sizes (ext : Extension) : TxHashSetSizes where
  header := .ofNat ext.headerPmmr.unprunedSize
  output := .ofNat ext.outputPmmr.unprunedSize
  rproof := .ofNat ext.rproofPmmr.unprunedSize
  kernel := .ofNat ext.kernelPmmr.unprunedSize

def rootsOf (env : Env) (b : Block)
    : Routine Extension ErrorKind (Hash × TxHashSetRoots × TxHashSetSizes) := do
  let prevRoot ← .query (headerRoot env)
  applyBlock env b
  let roots ← .query (roots env)
  let sizes ← .gets sizes
  return (prevRoot, roots, sizes)

end Extension

namespace Chain

def setTxhashsetRoots (env : Env) (b : Block) : Routine Chain ErrorKind Block := do
  let (prevRoot, roots, sizes) ← fun c =>
    let (res, st) := extendingReadonly (Extension.rootsOf env b) c.state
    (res, c.drop st)
  return { b with header := { b.header with
    prevRoot := prevRoot
    outputRoot := roots.outputRoot
    rangeProofRoot := roots.rproofRoot
    kernelRoot := roots.kernelRoot
    outputMmrSize := sizes.output
    kernelMmrSize := sizes.kernel } }

end Chain

namespace MineBlock

-- what the miner gets from its clock, its random numbers, the transaction pool and the wallets
structure Sources where
  now : DateTime
  nonce : UInt64
  mineable : Outcome PoolError (List Transaction)
  getCoinbase : BlockFees → UInt64 → Outcome ServersError (Output × TxKernel × BlockFees)
  loadFoundationOutput : UInt64 → Outcome ServersError (Output × TxKernel)

-- a block without transactions is mined if the pool fails
def transactions (src : Sources) : Outcome ServersError (List Transaction) :=
  match src.mineable with
  | .ok txs => .ok txs
  | .err _ => .ok []
  | .panic => .panic
  | .hang => .hang

def seedHash (env : Env) (trees : TxHashSet) (height : UInt64) : Outcome ErrorKind Hash := do
  let seedHeight ← RandomX.rxCurrentSeedHeight env.overflowChecks height
  Chain.getHeaderHashByHeight trees seedHeight

def seconds (now : DateTime) (head : BlockHeader) : Int :=
  if now.timestamp ≤ head.timestamp.timestamp then head.timestamp.timestamp + 1 else now.timestamp

def networkDifficulty (env : Env) (store : ChainStore) (head : BlockHeader) (height : UInt64)
    : Outcome ErrorKind HeaderInfo := do
  let last ← sub env.overflowChecks (Consensus.difficultyfixHeight env.chainType) 1
  let tip ← store.batch.head
  let diffIter := DifficultyIter.take env store.headers tip.lastBlockH
  if head.height < last then
    Consensus.nextDifficulty env height (.fromProof head.pow.proof) diffIter
  else
    Consensus.nextDifficultyEra1 env height (.fromProof head.pow.proof) diffIter

def nextPolicy (env : Env) (store : ChainStore) (policy : UInt8)
    : Outcome ErrorKind (PoWType × Policy) := do
  let tip ← store.batch.head
  Consensus.nextPolicy env policy (BottleIter.first store.headers tip.lastBlockH policy)

def assemble (env : Env) (src : Sources) (head : BlockHeader) (txs : List Transaction)
    (coinbase : Output × TxKernel) (difficulty : Difficulty) (height : UInt64)
    : Outcome ServersError Block := do
  let isFoundation ← Consensus.isFoundationHeight env height
  if isFoundation then
    let cbData ← src.loadFoundationOutput height
    (Block.fromCoinbases env src.now head txs coinbase cbData difficulty).mapErr .core
  else
    (Block.fromReward env src.now head txs coinbase.1 coinbase.2 difficulty).mapErr .core

def rootsError (e : ErrorKind) : ServersError :=
  match e with
  | .duplicateCommitment commit => .chain (.duplicateCommitment commit)
  | e => .chain (.other e)

def buildBlock (env : Env) (src : Sources) (keyId : Option Identifier)
    : Routine Chain ServersError (Block × BlockFees × PoWType) := do
  let head ← .query fun c => c.store.batch.headHeader.mapErr .chain
  let height ← .lift (add env.overflowChecks head.height 1)
  let seed ← .query fun c => (seedHash env c.txhashset height).mapErr .chain
  let difficulty ← .query fun c => (networkDifficulty env c.store head height).mapErr .chain
  let txs ← .lift (transactions src)
  let fees ← .lift (sum env.overflowChecks (txs.map (·.fee)))
  let (output, kernel, blockFees) ← .lift (src.getCoinbase ⟨fees, keyId, height⟩ height)
  let b ← .lift (assemble env src head txs (output, kernel) difficulty.difficulty height)
  let _ ← .lift ((b.validate env head.totalKernelOffset).mapErr .core)
  let seed ← .lift (.unwrap seed.toVec)
  let timestamp ← .lift (.unwrap (DateTime.ofSeconds (seconds src.now head)))
  let policy := Global.getEmittedPolicy height
  let (powType, bottles) ← .query fun c => (nextPolicy env c.store policy).mapErr .chain
  let pow := { b.header.pow with
    seed := seed
    nonce := src.nonce
    secondaryScaling := difficulty.secondaryScaling }
  let b := { b with header := { b.header with
    pow := pow
    timestamp := timestamp
    policy := policy
    bottles := bottles } }
  let b ← .mapErr rootsError (Chain.setTxhashsetRoots env b)
  return (b, blockFees, powType)

variable {env : Env} {src : Sources} {c c' : Chain} {head : BlockHeader} {powType : PoWType}

structure Built (env : Env) (c : Chain) (head : BlockHeader) (powType : PoWType) (info : HeaderInfo)
    (header : BlockHeader) : Prop where
  isHead : c.store.batch.headHeader = .ok head
  version : header.version = Global.currentHeaderVersion
  height : (add env.overflowChecks head.height 1 : Outcome ErrorKind UInt64) = .ok header.height
  prevHash : header.prevHash = head.hash env
  seed : seedHash env c.txhashset header.height = .ok (.fromVec header.pow.seed)
  later : head.timestamp.timestamp < header.timestamp.timestamp
  policy : header.policy = Global.getEmittedPolicy header.height
  bottles : nextPolicy env c.store header.policy = .ok (powType, header.bottles)
  isNext : networkDifficulty env c.store head header.height = .ok info
  totalDifficulty : (info.difficulty.add env.overflowChecks head.totalDifficulty
    : Outcome BlockError Difficulty) = .ok header.totalDifficulty
  scaling : header.pow.secondaryScaling = info.secondaryScaling

theorem extends_assemble {txs : List Transaction} {coinbase : Output × TxKernel}
    {difficulty : Difficulty} {height : UInt64} {b : Block}
    (h : assemble env src head txs coinbase difficulty height = .ok b)
    : Block.Extends env head difficulty b.header := by
  obtain ⟨isFoundation, -, h⟩ := Outcome.bind_eq_ok.mp h
  split at h
  . obtain ⟨cbData, -, h⟩ := Outcome.bind_eq_ok.mp h
    exact Block.extends_fromCoinbases (Outcome.mapErr_eq_ok.mp h)
  . exact Block.extends_fromReward (Outcome.mapErr_eq_ok.mp h)

theorem lt_seconds (now : DateTime) (head : BlockHeader)
    : head.timestamp.timestamp < seconds now head := by
  unfold seconds
  split <;> omega

theorem timestamp_ofSeconds {secs : Int} {t : DateTime} (h : DateTime.ofSeconds secs = some t)
    : t.timestamp = secs := by
  unfold DateTime.ofSeconds at h
  split at h
  . rw [← Option.some.inj h]
    rfl
  . contradiction

theorem fromVec_of_toVec {hash : Hash} {v : Bytes32} (h : hash.toVec = some v)
    : Hash.fromVec v = hash := by
  unfold Hash.toVec at h
  split at h
  . rw [← Option.some.inj h]
    rfl
  . contradiction

theorem setTxhashsetRoots_eq_ok {b b' : Block}
    (h : Chain.setTxhashsetRoots env b c = (.ok b', c'))
    : ∃ prevRoot, ∃ roots : TxHashSetRoots, ∃ sizes : TxHashSetSizes,
        b' = { b with header := { b.header with
          prevRoot := prevRoot
          outputRoot := roots.outputRoot
          rangeProofRoot := roots.rproofRoot
          kernelRoot := roots.kernelRoot
          outputMmrSize := sizes.output
          kernelMmrSize := sizes.kernel } } := by
  obtain ⟨⟨prevRoot, roots, sizes⟩, _, -, h⟩ := Routine.bind_eq_ok.mp h
  dsimp only at h
  rw [Routine.pure_apply, Prod.mk.injEq, Outcome.ok.injEq] at h
  exact ⟨prevRoot, roots, sizes, h.1.symm⟩

theorem buildBlock_eq_ok {keyId : Option Identifier} {b : Block} {blockFees : BlockFees}
    (h : buildBlock env src keyId c = (.ok (b, blockFees, powType), c'))
    : ∃ head info, Built env c head powType info b.header := by
  unfold buildBlock at h
  simp only [Routine.query_bind_eq_ok, Routine.lift_bind_eq_ok, Outcome.mapErr_eq_ok,
    Outcome.unwrap_eq_ok] at h
  obtain ⟨head, hhead, height, hheight, hash, hhash, info, hinfo, txs, -, fees, -,
    ⟨output, kernel, fees'⟩, -, b₀, hassemble, -, -, seed, hseed, timestamp, htime,
    ⟨algo, bottles⟩, hpolicy, h⟩ := h
  obtain ⟨b₁, c₁, hroots, h⟩ := Routine.bind_eq_ok.mp h
  rw [Routine.pure_apply, Prod.mk.injEq, Outcome.ok.injEq, Prod.mk.injEq, Prod.mk.injEq] at h
  obtain ⟨⟨rfl, -, rfl⟩, -⟩ := h
  obtain ⟨prevRoot, roots, sizes, rfl⟩ := setTxhashsetRoots_eq_ok (Routine.mapErr_eq_ok.mp hroots)
  have hextends := extends_assemble hassemble
  obtain rfl : height = b₀.header.height :=
    (eq_add_of_add hheight).trans (eq_add_of_add hextends.height).symm
  refine ⟨head, info, hhead, hextends.version, add_congr hheight, hextends.prevHash, ?_, ?_, rfl,
    hpolicy, hinfo, hextends.totalDifficulty, rfl⟩
  . rw [fromVec_of_toVec hseed]
    exact hhash
  . have hlater := lt_seconds src.now head
    rw [← timestamp_ofSeconds htime] at hlater
    exact hlater

end MineBlock

namespace Chain.HeadersAt

variable {env : Env} {c : Chain} {branch : List BlockHeader} {head : BlockHeader}

theorem stored (h : HeadersAt env c branch head)
    : c.store.headers.getBlockHeader (head.hash env) = some head :=
  h.ancestors.stored head (List.mem_of_getLast? h.isLast)

theorem headHeader (h : HeadersAt env c branch head)
    : c.store.batch.headHeader = .ok head := by
  refine Outcome.bind_eq_ok.mpr ⟨.fromHeader env head, ?_, ?_⟩
  . exact Outcome.okOr_eq_ok.mpr h.isHead
  . exact Outcome.okOr_eq_ok.mpr h.stored

theorem getHeaderHashByHeight (h : HeadersAt env c branch head) {height : UInt64} {hash : Hash}
    (hhash : Chain.getHeaderHashByHeight c.txhashset height = .ok hash)
    : ∃ header, c.store.headers.getBlockHeader hash = some header ∧ header.height = height := by
  unfold Chain.getHeaderHashByHeight at hhash
  rw [Outcome.okOr_eq_ok, Pmmr.insertionToPmmrIndex_succ, h.headerHash, Option.map_eq_some_iff] at hhash
  obtain ⟨header, hheader, rfl⟩ := hhash
  refine ⟨header, h.ancestors.stored header (List.mem_of_getElem? hheader), ?_⟩
  exact UInt64.toNat_inj.mp (h.ancestors.height _ header hheader)

end Chain.HeadersAt

theorem Chain.exists_headersAt {env : Env} {genesis : Block} {c c' : Chain}
    {powVerifier : BlockHeader → Bool} {archiveMode : Bool} {submissions : List Submission}
    (hstart : init env powVerifier archiveMode genesis = .ok c)
    (hheight : genesis.header.height = 0)
    (houtputs : genesis.header.outputMmrSize.toNat = Pmmr.mmrSize genesis.body.outputs.length)
    (hkernels : genesis.header.kernelMmrSize.toNat = Pmmr.mmrSize genesis.body.kernels.length)
    (hcalls : env.overflowChecks = true ∨ submissions.length < 2 ^ 64 - 1)
    (h : c.submitAll env submissions = some c')
    : ∃ branch head, c'.HeadersAt env branch head ∧ branch.head? = some genesis.header := by
  obtain ⟨branch, hrun⟩ := exists_run hstart hheight houtputs hkernels hcalls h
  obtain ⟨last, hlast⟩ := hrun.onBranch.exists_getLast
  refine ⟨headersOf branch, last.header, (hrun.onBranch.atHead hlast).toHeadersAt, ?_⟩
  simp [headersOf, hrun.onBranch.main.isFirst]

def BlockHeader.complete (h : BlockHeader) (nonce : UInt64) (proof : Proof) : BlockHeader :=
  { h with pow := { h.pow with nonce := nonce, proof := proof } }

-- a proof of the algorithm, with the edge bits that are used for it
def Proof.UsedFor (ct : ChainTypes) (powType : PoWType) (proof : Proof) : Prop :=
  match proof with
  | .cuckoo edgeBits _ =>
    powType = .cuckaroo ∧ edgeBits = 29
      ∨ powType = .cuckatoo ∧ edgeBits ≠ 29 ∧ Global.minEdgeBits ct ≤ edgeBits
  | .randomX _ => powType = .randomX
  | .progPow _ => powType = .progPow
  | .md5 _ _ => False

namespace Pipe

structure Worked (env : Env) (ctx : Ctx) (prev header : BlockHeader) : Prop where
  verified : ctx.powVerifier header = true
  reached : ∃ target diff,
    header.totalDifficulty.sub env.overflowChecks prev.totalDifficulty
        = (.ok target : Outcome ErrorKind Difficulty)
      ∧
    header.pow.toDifficulty env header.prePow header.height header.pow.nonce
        = (.ok diff : Outcome ErrorKind Difficulty)
      ∧
    target.toNum (.fromProof header.pow.proof) ≤ diff.toNum (.fromProof header.pow.proof)

end Pipe

namespace MineBlock

open Pipe

section

variable {env : Env} {c : Chain} {head header : BlockHeader} {branch : List BlockHeader}
  {powType : PoWType} {info : HeaderInfo} {proof : Proof}

theorem isCorrect_of_usedFor {ct : ChainTypes} (h : proof.UsedFor ct powType)
    : isCorrect proof powType = true := by
  cases proof with
  | cuckoo edgeBits nonces =>
    rcases h with ⟨rfl, rfl⟩ | ⟨rfl, hne, -⟩
    . rfl
    . simp [isCorrect, hne]
  | md5 proof edgeBits => exact h.elim
  | randomX hash => exact h ▸ rfl
  | progPow mix => exact h ▸ rfl

theorem edgeBits_of_usedFor {ct : ChainTypes} {pow : ProofOfWork} (h : pow.proof.UsedFor ct powType)
    : pow.isPrimary ct ∨ pow.isSecondary := by
  unfold ProofOfWork.isPrimary ProofOfWork.isSecondary
  cases hproof : pow.proof with
  | cuckoo edgeBits nonces =>
    rw [hproof] at h
    rcases h with ⟨-, rfl⟩ | ⟨-, -, hmin⟩
    . left
      cases ct <;> rfl
    . by_cases hsecond : edgeBits = Consensus.secondPowEdgeBits
      . right
        simp [hsecond]
      . left
        simp [hsecond, hmin]
  | md5 proof edgeBits =>
    rw [hproof] at h
    exact h.elim
  | randomX hash => exact .inl rfl
  | progPow mix => exact .inl rfl

theorem Built.nextHeaderInfo (h : Built env c head powType info header)
    (hhead : c.HeadersAt env branch head)
    (hheight : env.overflowChecks = true ∨ head.height.toNat + 1 < 2 ^ 64)
    : Pipe.nextHeaderInfo env c.store.headers head header.height = .ok info := by
  have hnext : header.height.toNat = head.height.toNat + 1 := by
    have hadd := h.height
    rcases hheight with hchecks | hlt
    . rw [hchecks] at hadd
      exact toNat_of_add hadd (fits_of_add hadd)
    . exact toNat_of_add hadd hlt
  obtain ⟨last, hlast, hinfo⟩ := Outcome.bind_eq_ok.mp h.isNext
  obtain ⟨tip, htip, hinfo⟩ := Outcome.bind_eq_ok.mp hinfo
  have htip : c.store.head = some tip := Outcome.okOr_eq_ok.mp htip
  obtain rfl : _ = tip := Option.some.inj (hhead.isHead.symm.trans htip)
  have hera : header.height < Consensus.difficultyfixHeight env.chainType ↔ head.height < last := by
    have hlast := toNat_of_sub hlast (by cases env.chainType <;> decide)
    have hpos : 1 ≤ (Consensus.difficultyfixHeight env.chainType).toNat := by
      cases env.chainType <;> decide
    rw [UInt64.lt_iff_toNat_lt, UInt64.lt_iff_toNat_lt, hlast, hnext, UInt64.toNat_one]
    omega
  unfold Pipe.nextHeaderInfo
  by_cases hlt : head.height < last
  . rw [if_pos hlt] at hinfo
    rw [if_pos (hera.mpr hlt)]
    exact hinfo
  . rw [if_neg hlt] at hinfo
    rw [if_neg (hera.not.mpr hlt)]
    exact hinfo

theorem Built.target (h : Built env c head powType info header) (hhead : c.HeadersAt env branch head)
    (hgenesis : ∀ first, branch.head? = some first → first.totalDifficulty.Complete)
    (hnext : Pipe.nextHeaderInfo env c.store.headers head header.height = .ok info)
    : (header.totalDifficulty.sub env.overflowChecks head.totalDifficulty
        : Outcome ErrorKind Difficulty) = .ok info.difficulty := by
  obtain ⟨last, span, hfirst, hfollows⟩ := follows_nextHeaderInfo hhead.stored hnext
  have hlast : last.difficulty.Complete := by
    unfold DifficultyIter.firstStep at hfirst
    split at hfirst
    . next prev hprev =>
      obtain ⟨d, hsub, hd⟩ := Outcome.bind_eq_ok.mp hfirst
      rw [Outcome.pure_eq_ok, Outcome.ok.injEq, Prod.mk.injEq] at hd
      intro a
      rw [← hd.1, Difficulty.get_sub hsub]
      rfl
    . next hroot =>
      rw [Outcome.ok.injEq, Prod.mk.injEq] at hfirst
      rw [← hfirst.1]
      apply hgenesis
      have hlength := hhead.ancestors.height_getLast hhead.isLast
      have hlast := hhead.isLast
      rw [List.getLast?_eq_getElem?, ← hlength, Nat.add_sub_cancel] at hlast
      cases hn : head.height.toNat with
      | zero =>
        rw [hn] at hlast
        rw [List.head?_eq_getElem?]
        exact hlast
      | succ n =>
        rw [hn] at hlast
        obtain ⟨hlt, -⟩ := List.getElem?_eq_some_iff.mp hlast
        rw [hhead.ancestors.getPreviousHeader hlast, List.getElem?_eq_getElem (by omega)] at hroot
        contradiction
  have hcomplete : info.difficulty.Complete := by
    intro a
    by_cases ha : a = .fromProof head.pow.proof
    . obtain ⟨v, hv, -⟩ := hfollows.pos
      rw [ha, hv]
      rfl
    . rw [hfollows.same a ha]
      exact hlast a
  exact hcomplete.sub_of_add h.totalDifficulty

theorem Built.validateSeed (h : Built env c head powType info header)
    (hhead : c.HeadersAt env branch head)
    : Pipe.validateSeed env c.store.headers header = .ok () := by
  obtain ⟨seedHeight, hseedHeight, hhash⟩ := Outcome.bind_eq_ok.mp h.seed
  obtain ⟨seedHeader, hstored, hheight⟩ := hhead.getHeaderHashByHeight hhash
  exact validateSeed_eq_ok.mpr ⟨seedHeader, seedHeight, hstored, hseedHeight, hheight⟩

theorem Built.validateAlgo (h : Built env c head powType info header)
    (hhead : c.HeadersAt env branch head)
    (hallowed : (Feijoada.isAllowedPolicy env.overflowChecks env.policyConfig.allowedPolicies
      header.height (Global.getEmittedPolicy header.height) : Outcome ErrorKind Bool) = .ok true)
    (hproof : header.pow.proof.UsedFor env.chainType powType)
    : Pipe.validateAlgo env c.store.headers head header = .ok () := by
  obtain ⟨tip, htip, hnext⟩ := Outcome.bind_eq_ok.mp h.bottles
  have htip : c.store.head = some tip := Outcome.okOr_eq_ok.mp htip
  obtain rfl : _ = tip := Option.some.inj (hhead.isHead.symm.trans htip)
  refine validateAlgo_eq_ok.mpr ⟨?_, powType, header.bottles, hnext, isCorrect_of_usedFor hproof⟩
  rw [h.policy]
  exact hallowed

theorem Built.complete (h : Built env c head powType info header) (nonce : UInt64) (proof : Proof)
    : Built env c head powType info (header.complete nonce proof) :=
  ⟨h.isHead, h.version, h.height, h.prevHash, h.seed, h.later, h.policy, h.bottles, h.isNext,
    h.totalDifficulty, h.scaling⟩

theorem Built.validateHeader_iff (h : Built env c head powType info header)
    (hhead : c.HeadersAt env branch head)
    (hgenesis : ∀ first, branch.head? = some first → first.totalDifficulty.Complete)
    (hheight : env.overflowChecks = true ∨ head.height.toNat + 1 < 2 ^ 64)
    (hallowed : (Feijoada.isAllowedPolicy env.overflowChecks env.policyConfig.allowedPolicies
      header.height (Global.getEmittedPolicy header.height) : Outcome ErrorKind Bool) = .ok true)
    (hproof : header.pow.proof.UsedFor env.chainType powType) (ctx : Ctx)
    : validateHeader env ctx c.store.headers header = .ok ()
        ↔
      header.hash env ∉ badHashes
        ∧
      ¬ (header.timestamp.timestampNanos > ctx.now + 6 * 60 * 10 ^ 9 ∧ env.chainType ≠ .automatedTesting)
        ∧
      (ctx.opts.skipPow = false → Worked env ctx head header) := by
  have hnext := h.nextHeaderInfo hhead hheight
  have htarget := h.target hhead hgenesis hnext
  have hparent : c.store.headers.getPreviousHeader header = some head := by
    unfold HeaderDb.getPreviousHeader
    rw [h.prevHash]
    exact hhead.stored
  rw [validateHeader_eq_ok]
  constructor
  . rintro ⟨hbad, prev, hchecked⟩
    obtain rfl : head = prev := Option.some.inj (hparent.symm.trans hchecked.parent)
    refine ⟨hbad, hchecked.notAhead, fun hskip => ?_⟩
    have hproof := hchecked.proof
    have hdifficulty := hchecked.difficulty
    simp only [validateProof, hskip, Bool.false_eq_true, if_false, Outcome.bind_eq_ok,
      Outcome.require_eq_ok] at hproof
    simp only [validateDifficulty, hskip, Bool.false_eq_true, if_false, Outcome.bind_eq_ok,
      Outcome.require_eq_ok] at hdifficulty
    obtain ⟨-, -, hverified⟩ := hproof
    obtain ⟨target, htarget, diff, hdiff, -, hle, -⟩ := hdifficulty
    exact ⟨hverified, target, diff, htarget, hdiff, hle⟩
  . rintro ⟨hbad, hahead, hworked⟩
    refine ⟨hbad, head, h.version, hahead, ?_, hparent, h.validateSeed hhead,
      h.validateAlgo hhead hallowed hproof, h.height, fun hle => ?_, ?_⟩
    . unfold validateProof
      split
      . rfl
      . next hskip =>
        have hworked := hworked (by simpa using hskip)
        simp only [Outcome.bind_eq_ok, Outcome.require_eq_ok]
        exact ⟨(), edgeBits_of_usedFor hproof, hworked.verified⟩
    . have := DateTime.timestampNanos_lt_of_lt h.later
      omega
    . unfold validateDifficulty
      split
      . rfl
      . next hskip =>
        obtain ⟨target, diff, hsub, hdiff, hle⟩ := (hworked (by simpa using hskip)).reached
        simp only [Outcome.bind_eq_ok, Outcome.require_eq_ok]
        refine ⟨target, hsub, diff, hdiff, (), hle, info, hnext, (), ?_, fun _ => h.scaling⟩
        exact Outcome.ok.inj (hsub.symm.trans htarget)

theorem built_header_passes_iff {src : Sources} {keyId : Option Identifier} {b : Block} {c' : Chain}
    {blockFees : BlockFees} (hhead : c.HeadersAt env branch head)
    (hgenesis : ∀ first, branch.head? = some first → first.totalDifficulty.Complete)
    (hheight : env.overflowChecks = true ∨ head.height.toNat + 1 < 2 ^ 64)
    (hallowed : ∀ height, (Feijoada.isAllowedPolicy env.overflowChecks
      env.policyConfig.allowedPolicies height (Global.getEmittedPolicy height)
        : Outcome ErrorKind Bool) = .ok true)
    (hbuilt : buildBlock env src keyId c = (.ok (b, blockFees, powType), c'))
    (hproof : proof.UsedFor env.chainType powType) (nonce : UInt64) (ctx : Ctx)
    : validateHeader env ctx c.store.headers (b.header.complete nonce proof) = .ok ()
        ↔
      (b.header.complete nonce proof).hash env ∉ badHashes
        ∧
      ¬ (b.header.timestamp.timestampNanos > ctx.now + 6 * 60 * 10 ^ 9 ∧ env.chainType ≠ .automatedTesting)
        ∧
      (ctx.opts.skipPow = false → Worked env ctx head (b.header.complete nonce proof)) := by
  obtain ⟨head', info, h⟩ := buildBlock_eq_ok hbuilt
  obtain rfl : head' = head := Outcome.ok.inj (h.isHead.symm.trans hhead.headHeader)
  exact (h.complete nonce proof).validateHeader_iff hhead hgenesis hheight (hallowed _) hproof ctx

end

-- a chain that holds a genesis block, and a miner without transactions
namespace Sample

open Chain.Sample

def sources : Sources where
  now := Pipe.Sample.minute
  nonce := 0
  mineable := .ok []
  getCoinbase fees _ := .ok (coinbase, coinbaseKernel, fees)
  loadFoundationOutput _ := .panic

def solution : Proof := Chain.Sample.minedProof

def ctx : Ctx := ⟨.none, fun _ => true, 1000 * 10 ^ 9⟩

theorem headersAt_start
    : start.HeadersAt env [genesis.header] genesis.header := by
  have hon := Chain.onBranch_init rfl (.singleton rfl rfl) init_start
  exact (hon.atHead rfl).toHeadersAt

theorem complete_genesis
    : ∀ first, [genesis.header].head? = some first → first.totalDifficulty.Complete := by
  intro first hfirst
  obtain rfl : genesis.header = first := Option.some.inj hfirst
  intro a
  cases a <;> rfl

-- the digest of the solved header is one of the bad hashes
def badEnv : Env where
  __ := env
  blake2b bs :=
    let solved := { genesis.header with
      pow := { genesis.header.pow with proof := solution }
      bottles := ⟨some 0, some 0, some 1, some 0⟩ }
    ⟨Equiv.swap (solved.write .mainnet .hash) ((badHashes.map (·.bytes)).headD [])
      (env.blake2b bs).bytes⟩

def returned (p : Block → PoWType → Bool) (res : Outcome ServersError (Block × BlockFees × PoWType))
    : Bool :=
  match res with
  | .ok (b, _, powType) => p b powType
  | _ => false

theorem exists_of_returned {env : Env} {c : Chain} {p : Block → PoWType → Bool}
    (h : returned p (buildBlock env sources none c).1 = true)
    : ∃ b blockFees powType c',
        buildBlock env sources none c = (.ok (b, blockFees, powType), c') ∧ p b powType = true := by
  rcases hres : buildBlock env sources none c with ⟨(⟨b, blockFees, powType⟩ | e | _ | _), c'⟩ <;>
    rw [hres] at h
  . exact ⟨b, blockFees, powType, c', rfl, h⟩
  . contradiction
  . contradiction
  . contradiction

def badStart : Chain :=
  match Chain.init badEnv empty.powVerifier empty.archiveMode genesis with
  | .ok c => c
  | _ => empty

theorem init_badStart
    : Chain.init badEnv empty.powVerifier empty.archiveMode genesis = .ok badStart := by
  have hok : (Chain.init badEnv empty.powVerifier empty.archiveMode genesis).isOk = true := by
    decide
  obtain ⟨c, hc⟩ := Outcome.isOk_eq_true.mp hok
  unfold badStart
  rw [hc]

end Sample

open Sample Chain.Sample in
theorem built_header_passes_randomX
    : ∃ b blockFees c',
        buildBlock env sources none start = (.ok (b, blockFees, .randomX), c')
          ∧
        validateHeader env ctx start.store.headers (b.header.complete 7 solution) = .ok ()
          ∧
        (b.header.complete 7 solution).hash env ∉ badHashes
          ∧
        Worked env ctx genesis.header (b.header.complete 7 solution) := by
  let p (b : Block) (powType : PoWType) : Bool := powType = .randomX
    ∧ validateHeader env ctx start.store.headers (b.header.complete 7 solution) = .ok ()
  have hp : returned p (buildBlock env sources none start).1 = true := by decide +kernel
  obtain ⟨b, blockFees, powType, c', hbuilt, h⟩ := exists_of_returned hp
  obtain ⟨rfl, hok⟩ := decide_eq_true_eq.mp h
  have hproof : solution.UsedFor env.chainType .randomX := rfl
  have hpasses := built_header_passes_iff headersAt_start complete_genesis (.inl rfl)
    (PolicyConfig.isAllowedPolicy_default true) hbuilt hproof 7 ctx
  obtain ⟨hbad, -, hworked⟩ := hpasses.mp hok
  exact ⟨b, blockFees, c', hbuilt, hok, hbad, hworked rfl⟩

open Sample Chain.Sample in
theorem built_header_is_bad
    : ∃ b blockFees c',
        Chain.init badEnv empty.powVerifier empty.archiveMode genesis = .ok badStart
          ∧
        badEnv.policyConfig = .default
          ∧
        buildBlock badEnv sources none badStart = (.ok (b, blockFees, .randomX), c')
          ∧
        solution.UsedFor .mainnet .randomX
          ∧
        validateHeader badEnv ctx badStart.store.headers (b.header.complete 7 solution)
          = .err (.invalidBlockProof (.other "explicit bad header")) := by
  let p (b : Block) (powType : PoWType) : Bool := powType = .randomX
    ∧ validateHeader badEnv ctx badStart.store.headers (b.header.complete 7 solution)
      = .err (.invalidBlockProof (.other "explicit bad header"))
  have hp : returned p (buildBlock badEnv sources none badStart).1 = true := by decide +kernel
  obtain ⟨b, blockFees, powType, c', hbuilt, h⟩ := exists_of_returned hp
  obtain ⟨rfl, hbad⟩ := decide_eq_true_eq.mp h
  exact ⟨b, blockFees, c', init_badStart, rfl, hbuilt, rfl, hbad⟩

end MineBlock
end Epic
