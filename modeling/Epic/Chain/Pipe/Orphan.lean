import Epic.Chain.Pipe.ProcessBlock

/-!
This module contains that a block is rejected as an orphan before anything is touched: no later step
of the pipeline fails with that error.
-/

namespace Epic

open Outcome MachineInt

/-!
The arithmetic of the consensus rules has no errors, it returns a value or panics.
-/

section

variable {ε : Type} {e : ε}

@[simp]
theorem RandomX.rxCurrentSeedHeight_ne_err {checks : Bool} {height : UInt64}
    : rxCurrentSeedHeight checks height ≠ .err e := by
  unfold rxCurrentSeedHeight
  split
  . simp
  . split <;> simp [bind_eq_err]

@[simp]
theorem Difficulty.sub_ne_err {checks : Bool} {d other : Difficulty}
    : d.sub checks other ≠ .err e := by
  unfold Difficulty.sub
  rw [ne_eq, bind_eq_err, not_or]
  constructor
  . apply foldlM_ne_err
    simp [bind_eq_err]
  . simp

@[simp]
theorem Feijoada.isAllowedPolicy_ne_err {checks : Bool} {allowed : List AllowPolicy}
    {height : UInt64} {policy : UInt8}
    : isAllowedPolicy checks allowed height policy ≠ .err e := by
  have hsearch : AllowPolicy.search allowed height ≠ .err e := by
    unfold AllowPolicy.search
    dsimp only
    split <;> simp [bind_eq_err]
  simp [isAllowedPolicy, bind_eq_err, hsearch]

@[simp]
theorem Feijoada.countBeans_ne_err {checks : Bool} {bottles : Policy}
    : countBeans checks bottles ≠ .err e := by
  simp [countBeans, bind_eq_err]

@[simp]
theorem Feijoada.chooseAlgo_ne_err {round : ℚ → ℚ} {checks : Bool} {policy bottles : Policy}
    : chooseAlgo round checks policy bottles ≠ .err e := by
  have hranked := fun total => mapM_ne_err (e := e)
    (f := fun (x : PoWType × UInt32) => do
      let beans ← .unwrap (bottles.get x.1)
      return (x.1, score round total x.2 beans))
    (by simp [bind_eq_err]) (policy.entries.filter fun x => 0 < x.2)
  simp only [pure_eq_ok] at hranked
  simp [chooseAlgo_eq, bind_eq_err, hranked]

@[simp]
theorem Consensus.nextPolicy_ne_err {env : Env} {policy : UInt8} {cursor : Option Policy}
    : nextPolicy env policy cursor ≠ .err e := by
  have hreset : ∀ bottles, Feijoada.nextShouldReset env.overflowChecks bottles ≠ .err e := by
    simp [Feijoada.nextShouldReset, bind_eq_err]
  have hbottles : ∀ algo bottles,
      Feijoada.nextBlockBottles env.overflowChecks algo bottles ≠ .err e := by
    simp [Feijoada.nextBlockBottles, bind_eq_err, hreset]
  simp [nextPolicy, bind_eq_err, hbottles]

namespace Consensus

@[simp]
theorem graphWeight_ne_err {env : Env} {height : UInt64} {edgeBits : UInt8}
    : graphWeight env height edgeBits ≠ .err e := by
  have hexpired : ∀ checks eh, expiredEdgeBits checks height edgeBits eh ≠ .err e := by
    intro checks eh
    unfold expiredEdgeBits
    split <;> simp [bind_eq_err]
  simp [graphWeight, bind_eq_err, hexpired]

end Consensus

@[simp]
theorem Difficulty.fromProofHash_ne_err {hash : Bytes32}
    : fromProofHash hash ≠ .err e := by
  intro h
  rcases bind_eq_err.mp h with h | ⟨_, -, h⟩
  . exact assert_ne_err h
  . exact ok_ne_err h

@[simp]
theorem Difficulty.fromProofAdjusted_ne_err {env : Env} {height : UInt64} {proof : Proof}
    : fromProofAdjusted env height proof ≠ .err e := by
  intro h
  rcases bind_eq_err.mp h with h | ⟨_, -, h⟩
  . exact Consensus.graphWeight_ne_err h
  . exact ok_ne_err h

@[simp]
theorem ProofOfWork.toDifficulty_ne_err {env : Env} {pow : ProofOfWork} {header : List UInt8}
    {height nonce : UInt64}
    : pow.toDifficulty env header height nonce ≠ .err e := by
  unfold toDifficulty
  split
  . split
    . exact ok_ne_err
    . exact Difficulty.fromProofAdjusted_ne_err
  . split
    . exact ok_ne_err
    . exact Difficulty.fromProofAdjusted_ne_err
  . exact Difficulty.fromProofHash_ne_err
  . exact Difficulty.fromProofHash_ne_err

namespace DifficultyIter

theorem search_ne_err {db : HeaderDb} {powType : PoWType} {difficulty : Difficulty}
    {prevTimespan : Int} {fuel : Nat} {head : BlockHeader}
    : search db powType difficulty prevTimespan fuel head ≠ .err e := by
  induction fuel generalizing head with
  | zero => simp [search]
  | succ fuel ih =>
    unfold search
    split
    . split
      . exact ok_ne_err
      . exact ih
    . exact ok_ne_err

theorem loop_ne_err {env : Env} {db : HeaderDb} {header : BlockHeader}
    : loop env db header ≠ .err e := by
  have hfirst : firstStep env db header ≠ .err e := by
    unfold firstStep
    split <;> simp [bind_eq_err]
  simp [loop, bind_eq_err, hfirst, search_ne_err]

@[simp]
theorem take_ne_err {env : Env} {db : HeaderDb} {start : Hash} {count : Nat}
    : take env db start count ≠ .err e := by
  unfold take
  generalize db.getBlockHeader start = current
  induction count generalizing current with
  | zero => simp [go]
  | succ count ih =>
    cases current with
    | none => simp [go]
    | some header => simp [go, bind_eq_err, loop_ne_err, ih]

end DifficultyIter

namespace Global

theorem simulatedBlocks_ne_err {env : Env} {lastTsDelta lastTs : UInt64} {lastDiff : Difficulty}
    {count : Nat}
    : simulatedBlocks env lastTsDelta lastDiff count lastTs ≠ .err e := by
  have hweight : initialGraphWeight env ≠ .err e := by
    unfold initialGraphWeight
    split <;> simp [bind_eq_err]
  induction count generalizing lastTs with
  | zero => simp [simulatedBlocks]
  | succ count ih => simp [simulatedBlocks, HeaderInfo.fromTsDiff, bind_eq_err, hweight, ih]

theorem difficultyDataToVector_ne_err {env : Env} {cursor : Nat → Outcome ε (List HeaderInfo)}
    {neededBlockCount : UInt64} (hcursor : ∀ n, cursor n ≠ .err e)
    : difficultyDataToVector env cursor neededBlockCount ≠ .err e := by
  have hdelta : ∀ checks first second, lastTsDelta checks first second ≠ .err e := by
    intro checks first second
    unfold lastTsDelta
    split <;> simp
  have hpad : ∀ taken needed, padToVector env taken needed ≠ .err e := by
    intro taken needed h
    unfold padToVector at h
    dsimp only at h
    split at h
    . simp [bind_eq_err, hdelta, simulatedBlocks_ne_err] at h
    . exact ok_ne_err h
  simp [difficultyDataToVector, bind_eq_err, hcursor, hpad]

end Global

namespace Consensus

@[simp]
theorem damp_ne_err {checks : Bool} {actual goal dampFactor : UInt64}
    : damp checks actual goal dampFactor ≠ .err e := by
  simp [damp, bind_eq_err]

@[simp]
theorem clamp_ne_err {checks : Bool} {actual goal clampFactor : UInt64}
    : clamp checks actual goal clampFactor ≠ .err e := by
  simp [clamp, bind_eq_err]

theorem secondaryPowScaling_ne_err {checks : Bool} {height : UInt64} {diffData : List HeaderInfo}
    : secondaryPowScaling checks height diffData ≠ .err e := by
  simp [secondaryPowScaling, arCount, bind_eq_err]

theorem retarget_ne_err {checks : Bool} {dampFactor clampFactor minDifficulty tsDelta : UInt64}
    {pow : PoWType} {diffData : List HeaderInfo}
    : retarget checks dampFactor clampFactor minDifficulty pow tsDelta diffData ≠ .err e := by
  simp [retarget, bind_eq_err]

theorem nextAlgoDifficulty_ne_err {checks : Bool} {prevAlgo : PoWType} {diffData : List HeaderInfo}
    : nextAlgoDifficulty checks prevAlgo diffData ≠ .err e := by
  have hcuckoo : ∀ pow, nextCuckooDifficulty checks pow diffData ≠ .err e := by
    simp [nextCuckooDifficulty, bind_eq_err, retarget_ne_err]
  have hhash : ∀ pow, nextHashDifficulty checks pow diffData ≠ .err e := by
    have hparams : ∀ pow, hashDifficultyParams pow ≠ .err e := by
      intro pow
      cases pow <;> simp [hashDifficultyParams]
    simp [nextHashDifficulty, bind_eq_err, hparams]
  cases prevAlgo with
  | cuckatoo => exact hcuckoo _
  | cuckaroo => exact hcuckoo _
  | randomX => exact hhash _
  | progPow => exact hhash _

theorem nextAlgoDifficultyEra1_ne_err {checks : Bool} {prevAlgo : PoWType}
    {diffData : List HeaderInfo}
    : nextAlgoDifficultyEra1 checks prevAlgo diffData ≠ .err e := by
  have hwindow : windowTimespan checks diffData ≠ .err e := by
    apply foldlM_ne_err
    simp [bind_eq_err]
  cases prevAlgo <;>
    simp [nextAlgoDifficultyEra1, nextCuckooDifficultyEra1, nextRandomXDifficultyEra1,
      nextProgPowDifficultyEra1, bind_eq_err, hwindow, retarget_ne_err]

theorem nextDifficultyBy_ne_err {nextAlgo : Bool → PoWType → List HeaderInfo → Outcome ε UInt64}
    {window height : UInt64} {env : Env} {prevAlgo : PoWType} {cursor : Nat → Outcome ε (List HeaderInfo)}
    (hnext : ∀ checks data, nextAlgo checks prevAlgo data ≠ .err e) (hcursor : ∀ n, cursor n ≠ .err e)
    : nextDifficultyBy nextAlgo window env height prevAlgo cursor ≠ .err e := by
  simp [nextDifficultyBy, bind_eq_err, Global.difficultyDataToVector_ne_err hcursor,
    secondaryPowScaling_ne_err, hnext]

@[simp]
theorem blockTotalRewardAtHeight_ne_err {checks : Bool} {height : UInt64}
    : blockTotalRewardAtHeight checks height ≠ .err e := by
  unfold blockTotalRewardAtHeight
  repeat' split
  all_goals simp [bind_eq_err]

@[simp]
theorem rewardFoundationAtHeight_ne_err {env : Env} {height : UInt64}
    : rewardFoundationAtHeight env height ≠ .err e := by
  unfold rewardFoundationAtHeight
  split
  . exact ok_ne_err
  . split
    . simp [bind_eq_err]
    . intro h
      simp only [bind_eq_err, sub_ne_err, add_ne_err, assert_ne_err, false_or] at h
      obtain ⟨_, -, _, -, _, -, _, -, h⟩ := h
      split at h
      . simp [bind_eq_err] at h
      . exact ok_ne_err h

@[simp]
theorem isFoundationHeight_ne_err {env : Env} {height : UInt64}
    : isFoundationHeight env height ≠ .err e := by
  unfold isFoundationHeight
  split
  . simp [bind_eq_err]
  . exact ok_ne_err

theorem addRewardFoundation_ne_err {env : Env} {height : UInt64}
    : addRewardFoundation env height ≠ .err e := by
  have hsum : ∀ height count, sumRewardFoundation env height count ≠ .err e := by
    intro height count
    induction count generalizing height with
    | zero => simp [sumRewardFoundation]
    | succ count ih => simp [sumRewardFoundation, bind_eq_err, ih]
  intro h
  rcases bind_eq_err.mp h with h | ⟨isFoundation, -, h⟩
  . exact isFoundationHeight_ne_err h
  . split at h
    . simp [cumulativeRewardFoundation, bind_eq_err, hsum] at h
    . exact ok_ne_err h

@[simp]
theorem overageAtHeight_ne_err {env : Env} {height : UInt64}
    : overageAtHeight env height ≠ .err e := by
  have hreward : rewardAtHeight env height ≠ .err e := by
    simp [rewardAtHeight, bind_eq_err]
  simp [overageAtHeight, bind_eq_err, hreward, addRewardFoundation_ne_err]

end Consensus

end

open Routine (Avoids)

@[simp]
theorem PMMR.root_ne_err {ε E : Type} {env : Env} {p : PMMR E} {e : ε}
    : p.root env ≠ .err e := by
  unfold root
  split <;> simp

@[simp]
theorem Batch.head_ne_orphan {batch : Batch}
    : batch.head ≠ .err .orphan := by
  simp [head, notFound]

@[simp]
theorem Batch.getBlockHeader_ne_orphan {batch : Batch} {h : Hash}
    : batch.getBlockHeader h ≠ .err .orphan := by
  simp [getBlockHeader, notFound]

@[simp]
theorem Batch.getPreviousHeader_ne_orphan {batch : Batch} {header : BlockHeader}
    : batch.getPreviousHeader header ≠ .err .orphan := by
  simp [getPreviousHeader]

theorem forkPoint_ne_orphan {env : Env} {pmmr : PMMR HeaderEntry} {batch : Batch}
    {header : BlockHeader}
    : forkPoint env pmmr batch header ≠ .err .orphan := by
  have hfork : ∀ fuel current hashes,
      forkHashes env pmmr batch fuel current hashes ≠ .err .orphan := by
    intro fuel
    induction fuel with
    | zero => simp [forkHashes]
    | succ fuel ih =>
      intro current hashes
      unfold forkHashes
      split
      . simp [bind_eq_err, ih]
      . exact ok_ne_err
  simp [forkPoint, bind_eq_err, hfork]

theorem getHeaderByHeight_ne_orphan {pmmr : PMMR HeaderEntry} {batch : Batch} {height : UInt64}
    : getHeaderByHeight pmmr batch height ≠ .err .orphan := by
  simp [getHeaderByHeight, bind_eq_err]

theorem HeaderExtension.avoids_applyHeader (env : Env) (header : BlockHeader)
    : Avoids .orphan (applyHeader env header) := by
  refine .bind (.mapErr (by simp)) fun _ => ?_
  refine .bind (.modify _) fun _ => ?_
  exact .query fun _ => PMMR.root_ne_err

theorem HeaderExtension.avoids_validateRoot (env : Env) (header : BlockHeader)
    : Avoids .orphan (validateRoot env header) := by
  unfold validateRoot
  split
  . exact .pure _
  . refine .bind (.query fun _ => PMMR.root_ne_err) fun _ => ?_
    exact .lift (by simp)

namespace Extension

theorem avoids_applyAndIndexOutput (env : Env) (out : Output)
    : Avoids .orphan (applyAndIndexOutput env out) := by
  apply Avoids.bind
  . apply Avoids.bind
    . apply Avoids.query
      intro ext
      unfold UTXOView.validateOutput
      split <;> simp
    . intro _
      refine .bind (.mapErr (by simp)) fun _ => ?_
      refine .bind (.mapErr (by simp)) fun _ => ?_
      refine .bind (.gets _) fun _ => ?_
      refine .bind (.lift (by simp)) fun _ => ?_
      refine .bind (.lift (by simp)) fun _ => ?_
      exact .pure _
  . intro _
    exact .modify _

theorem avoids_applyInput (env : Env) (input : Input)
    : Avoids .orphan (applyInput env input) := by
  refine .bind (.query (by simp)) fun pos => ?_
  apply Avoids.bind
  . apply Avoids.query
    intro ext
    split <;> simp
  . intro _
    refine .bind (.mapErr (by simp)) fun _ => ?_
    refine .bind (.lift (by simp)) fun _ => ?_
    refine .bind (.mapErr (by simp)) fun _ => ?_
    exact .pure _

theorem avoids_applyBlock (env : Env) (b : Block)
    : Avoids .orphan (applyBlock env b) := by
  refine .bind (.bind (.mapErr (by simp)) fun _ => .pure _) fun _ => ?_
  refine .bind (.forEach fun out => avoids_applyAndIndexOutput env out) fun _ => ?_
  refine .bind (.forEach fun input => avoids_applyInput env input) fun _ => ?_
  refine .bind (.forEach fun kernel => .bind (.mapErr (by simp)) fun _ => .pure _) fun _ => ?_
  exact .modify _

theorem avoids_rewind (env : Env) (header : BlockHeader)
    : Avoids .orphan (rewind env header) := by
  have hgo : ∀ fuel current bitmap,
      Avoids .orphan (inputPosToRewind.go env header fuel current bitmap) := by
    intro fuel
    induction fuel with
    | zero =>
      intro current bitmap
      exact .lift (by simp)
    | succ fuel ih =>
      intro current bitmap
      unfold inputPosToRewind.go
      split
      . exact .pure _
      . refine .bind (fun _ => ok_ne_err) fun _ => ?_
        refine .bind (.query (by simp)) fun prev => ?_
        exact ih prev _
  refine .bind (.gets _) fun head => ?_
  apply Avoids.bind
  . apply Avoids.zoom
    intro batch
    unfold inputPosToRewind
    split
    . exact ok_ne_err
    . exact hgo _ _ _ batch
  . intro rewindRmPos
    exact .bind (.modify _) fun _ => .modify _

end Extension

theorem UTXOView.validateBlock_ne_orphan {env : Env} {outputPmmr : PMMR OutputIdentifier}
    {batch : Batch} {block : Block}
    : validateBlock env outputPmmr batch block ≠ .err .orphan := by
  have houtput : ∀ output, validateOutput outputPmmr batch output ≠ .err .orphan := by
    intro output
    unfold validateOutput
    split <;> simp
  have hinput : ∀ input, validateInput env outputPmmr batch input ≠ .err .orphan := by
    intro input
    unfold validateInput
    split <;> simp
  have houtputs : ∀ outputs, validateOutputs outputPmmr batch outputs ≠ .err .orphan := by
    intro outputs
    induction outputs with
    | nil => simp [validateOutputs]
    | cons output outputs ih => simp [validateOutputs, bind_eq_err, houtput, ih]
  have hinputs : ∀ inputs, validateInputs env outputPmmr batch inputs ≠ .err .orphan := by
    intro inputs
    induction inputs with
    | nil => simp [validateInputs]
    | cons input inputs ih => simp [validateInputs, bind_eq_err, hinput, ih]
  simp [validateBlock, bind_eq_err, houtputs, hinputs]

theorem UTXOView.verifyCoinbaseMaturity_ne_orphan {env : Env} {headerPmmr : PMMR HeaderEntry}
    {batch : Batch} {inputs : List Input} {height : UInt64}
    : verifyCoinbaseMaturity env headerPmmr batch inputs height ≠ .err .orphan := by
  unfold verifyCoinbaseMaturity
  dsimp only
  split
  . simp [bind_eq_err, getHeaderByHeight_ne_orphan]
  . exact ok_ne_err

namespace Pipe

theorem getPreviousHeader_of_validateHeader_orphan {env : Env} {ctx : Ctx} {db : HeaderDb}
    {header : BlockHeader} (h : validateHeader env ctx db header = .err .orphan)
    : db.getPreviousHeader header = none := by
  have hproof : validateProof env ctx header ≠ .err .orphan := by
    unfold validateProof
    split <;> simp [bind_eq_err]
  have hseed : validateSeed env db header ≠ .err .orphan := by
    simp [validateSeed, bind_eq_err]
  have halgo : ∀ prev, validateAlgo env db prev header ≠ .err .orphan := by
    intro prev
    unfold validateAlgo
    split <;> simp [bind_eq_err]
  have hnext : ∀ prev, nextHeaderInfo env db prev header.height ≠ .err .orphan := by
    intro prev
    unfold nextHeaderInfo
    dsimp only
    split
    . exact Consensus.nextDifficultyBy_ne_err (fun _ _ => Consensus.nextAlgoDifficulty_ne_err)
        fun _ => DifficultyIter.take_ne_err
    . exact Consensus.nextDifficultyBy_ne_err (fun _ _ => Consensus.nextAlgoDifficultyEra1_ne_err)
        fun _ => DifficultyIter.take_ne_err
  have hdifficulty : ∀ prev, validateDifficulty env ctx db prev header ≠ .err .orphan := by
    intro prev
    unfold validateDifficulty
    split <;> simp [bind_eq_err, hnext]
  cases hparent : db.getPreviousHeader header with
  | none => rfl
  | some prev =>
    simp [validateHeader, checkBadHeader, bind_eq_err, hproof, hseed, halgo, hdifficulty, hparent] at h

theorem newBlockSums_ne_orphan {env : Env} {batch : Batch} {b : Block}
    : newBlockSums env batch b ≠ .err .orphan := by
  have hsums : ∀ h, batch.getBlockSums h ≠ .err .orphan := by
    simp [Batch.getBlockSums, Batch.notFound]
  simp [newBlockSums, bind_eq_err, hsums, mapErr_eq_err]

theorem avoids_applyInExtension (env : Env) (b : Block)
    : Avoids .orphan (applyInExtension env b) := by
  refine .bind (.query fun _ => UTXOView.verifyCoinbaseMaturity_ne_orphan) fun _ => ?_
  refine .bind (.query fun _ => UTXOView.validateBlock_ne_orphan) fun _ => ?_
  refine .bind (.bind (.query fun _ => newBlockSums_ne_orphan) fun _ => .modify _) fun _ => ?_
  apply Avoids.bind
  . apply Avoids.query
    intro ext
    split <;> simp [bind_eq_err]
  . intro _
    refine .bind (Extension.avoids_applyBlock env b) fun _ => ?_
    apply Avoids.bind
    . apply Avoids.query
      intro ext
      split <;> simp [bind_eq_err]
    . intro _
      apply Avoids.query
      intro ext
      split <;> simp

theorem avoids_extendBlock (env : Env) (b : Block) (isFork : Bool)
    : Avoids .orphan (extendBlock env b isFork) := by
  apply Avoids.bind
  . apply Avoids.onlyIf
    refine .bind (.query fun _ => forkPoint_ne_orphan) fun fork => ?_
    refine .bind (Extension.avoids_rewind env fork.1) fun _ => ?_
    apply Avoids.forEach
    intro h
    exact .bind (.query (by simp)) fun fb => avoids_applyInExtension env fb
  . intro _
    refine .bind (avoids_applyInExtension env b) fun _ => ?_
    refine .bind (.query (by simp)) fun head => ?_
    exact .onlyIf (.modify _)

theorem avoids_extendHeader (env : Env) (header : BlockHeader) (isFork : Bool)
    : Avoids .orphan (extendHeader env header isFork) := by
  refine .bind (.modify _) fun _ => ?_
  apply Avoids.bind
  . apply Avoids.onlyIf
    refine .bind (.query fun _ => forkPoint_ne_orphan) fun fork => ?_
    refine .bind (.modify _) fun _ => ?_
    apply Avoids.forEach
    intro h
    refine .bind (.query (by simp)) fun header => ?_
    exact .bind (HeaderExtension.avoids_applyHeader env header) fun _ => .pure _
  . intro _
    refine .bind (HeaderExtension.avoids_validateRoot env header) fun _ => ?_
    exact .bind (HeaderExtension.avoids_applyHeader env header) fun _ => .pure _

theorem avoids_extending {α : Type} {inner : Routine Extension ErrorKind α}
    (hinner : Avoids .orphan inner)
    : Avoids .orphan (extending inner) := by
  refine .bind (.query fun _ => by simp [Batch.headHeader, bind_eq_err]) fun header => ?_
  intro st
  have hres := hinner (.new st header)
  unfold runExtension Extension.close
  dsimp only
  split
  . split <;> simp
  . next e he => simpa [he] using hres
  . simp
  . simp

theorem avoids_headerExtending {α : Type} {inner : Routine HeaderExtension ErrorKind α}
    (hinner : Avoids .orphan inner)
    : Avoids .orphan (headerExtending inner) := by
  refine .bind (.query fun _ => by simp [bind_eq_err]) fun header => ?_
  intro st
  have hres := hinner ⟨header, st.trees.headerPmmr, false, st.batch⟩
  unfold runHeaderExtension HeaderExtension.close
  dsimp only
  split
  . split <;> simp
  . next e he => simpa [he] using hres
  . simp
  . simp

theorem avoids_saveHeader (env : Env) (header : BlockHeader)
    : Avoids .orphan (do
        addBlockHeader env header
        let _ ← updateHeaderHead env header) := by
  refine .bind (.modify _) fun _ => ?_
  apply Avoids.bind
  . refine .bind (.query (by simp [Batch.headerHead, Batch.notFound])) fun headerHead => ?_
    split
    . exact .bind (.modify _) fun _ => .pure _
    . exact .pure _
  . intro _
    exact .pure _

theorem avoids_validateAndExtend (env : Env) (b : Block) (isFork : Bool)
    : Avoids .orphan (do
        validateBlock env b
        extending (extendBlock env b isFork)
        finishBlock env b) := by
  refine .bind (.query fun st => by simp [bind_eq_err, mapErr_eq_err]) fun _ => ?_
  refine .bind (avoids_extending (avoids_extendBlock env b isFork)) fun _ => ?_
  refine .bind (.modify _) fun _ => ?_
  refine .bind (.modify _) fun _ => ?_
  refine .bind (.query (by simp)) fun head => ?_
  split
  . exact .bind (.modify _) fun _ => .pure _
  . exact .pure _

theorem processHeaderForBlock_ne_orphan {env : Env} {ctx : Ctx} {header prev : BlockHeader}
    {isFork : Bool} {st st' : ChainState} (hst : st.trees.Settled)
    (hprev : st.batch.db.headers.getPreviousHeader header = some prev)
    : processHeaderForBlock env ctx header isFork st ≠ (.err .orphan, st') := by
  intro h
  rcases Routine.bind_eq_err.mp h with hextending | ⟨⟨⟩, mid, hextending, h⟩
  . exact (avoids_headerExtending (avoids_extendHeader env header isFork)).elim hextending
  . have hunseen := headerUnseen_headerExtending hst env header isFork
    rw [hextending] at hunseen
    rcases Routine.bind_eq_err.mp h with hvalid | ⟨⟨⟩, st₁, -, h⟩
    . simp only [validateHeaderIn, Routine.query_apply, Prod.mk.injEq] at hvalid
      have hnone := getPreviousHeader_of_validateHeader_orphan hvalid.1
      rw [hunseen.batch, hprev] at hnone
      contradiction
    . exact (avoids_saveHeader env header).elim h

theorem processBlock_orphan {env : Env} {ctx : Ctx} {orphans : OrphanBlockPool} {b : Block}
    {st st' : ChainState} (hst : st.trees.Settled)
    (h : processBlock env ctx orphans b st = (.err .orphan, st'))
    : st' = st := by
  rcases Routine.bind_eq_err.mp h with hknown | ⟨⟨⟩, st₁, hknown, h⟩
  . simp only [Routine.query_apply, Prod.mk.injEq] at hknown
    exact hknown.2.symm
  rw [Routine.query_eq_ok] at hknown
  obtain ⟨-, rfl⟩ := hknown
  rcases Routine.bind_eq_err.mp h with horphan | ⟨isFork, st₁, horphan, h⟩
  . simp only [Routine.query_apply, Prod.mk.injEq] at horphan
    exact horphan.2.symm
  rw [Routine.query_eq_ok] at horphan
  obtain ⟨horphan, rfl⟩ := horphan
  obtain ⟨prev, hprev⟩ : ∃ prev, st.batch.db.headers.getPreviousHeader b.header = some prev := by
    obtain ⟨_, -, hrest⟩ := bind_eq_ok.mp horphan
    obtain ⟨prev, hprev, -⟩ := bind_eq_ok.mp hrest
    exact ⟨prev, okOr_eq_ok.mp hprev⟩
  rcases Routine.bind_eq_err.mp h with hheader | ⟨⟨⟩, st₁, -, h⟩
  . exact absurd hheader (processHeaderForBlock_ne_orphan hst hprev)
  . exact ((avoids_validateAndExtend env b isFork).elim h).elim

end Pipe

end Epic
