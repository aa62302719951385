import Epic.Chain.Pipe.ValidateHeader
import Epic.Chain.Store.Bottles

/-!
This module contains the seed of a block header. It is looked up among all stored headers, and only its
height is compared with the one the seed has to come from.
-/

namespace Epic

namespace HeaderDb

theorem ancestors_prefix (db : HeaderDb) (h : n ≤ m) (header : BlockHeader)
    : db.ancestors n header <+: db.ancestors m header := by
  induction n generalizing m header with
  | zero => exact List.nil_prefix
  | succ n ih =>
    obtain ⟨m, rfl⟩ : ∃ m', m = m' + 1 := Nat.exists_eq_add_one.mpr (by omega)
    unfold ancestors
    split
    . next prev _ => exact (List.prefix_cons_inj prev).mpr (ih (by omega) prev)
    . exact List.prefix_refl _

def AncestorAt (db : HeaderDb) (header : BlockHeader) (height : UInt64) (a : BlockHeader) : Prop :=
  ∃ n, (db.ancestors n header).find? (fun h => h.height = height) = some a

variable {db : HeaderDb} {header header' a a' : BlockHeader} {height : UInt64}

theorem AncestorAt.unique (h : db.AncestorAt header height a) (h' : db.AncestorAt header height a')
    : a = a' := by
  obtain ⟨n, hn⟩ := h
  obtain ⟨m, hm⟩ := h'
  have hn := (db.ancestors_prefix (Nat.le_max_left n m) header).find?_eq_some hn
  have hm := (db.ancestors_prefix (Nat.le_max_right n m) header).find?_eq_some hm
  exact Option.some.inj (hn.symm.trans hm)

theorem AncestorAt.congr (hprev : header.prevHash = header'.prevHash)
    (h : db.AncestorAt header height a)
    : db.AncestorAt header' height a := by
  obtain ⟨n, hn⟩ := h
  rw [db.ancestors_congr n hprev] at hn
  exact ⟨n, hn⟩

theorem exists_of_mem_ancestors (h : a ∈ db.ancestors n header)
    : ∃ key, db.getBlockHeader key = some a := by
  induction n generalizing header with
  | zero => contradiction
  | succ n ih =>
    unfold ancestors at h
    split at h
    . next prev hprev =>
      rcases List.mem_cons.mp h with rfl | h
      . exact ⟨_, hprev⟩
      . exact ih h
    . contradiction

theorem AncestorAt.exists_key (h : db.AncestorAt header height a)
    : ∃ key, db.getBlockHeader key = some a := by
  obtain ⟨n, hn⟩ := h
  exact exists_of_mem_ancestors (List.mem_of_find?_eq_some hn)

end HeaderDb

def BlockHeader.withSeed (h : BlockHeader) (seed : Bytes32) : BlockHeader :=
  { h with pow := { h.pow with seed := seed } }

theorem HeaderDb.ancestorAt_withSeed {db : HeaderDb} {header a : BlockHeader}
    : db.AncestorAt (header.withSeed seed) height a ↔ db.AncestorAt header height a := by
  have hprev : (header.withSeed seed).prevHash = header.prevHash := rfl
  exact ⟨.congr hprev, .congr hprev.symm⟩

theorem Hash.fromVec_injective
    : Function.Injective Hash.fromVec := by
  intro v v' h
  exact List.Vector.toList_injective (Hash.mk.inj h)

namespace Pipe

open MachineInt

section

variable {env : Env} {ctx : Ctx} {db : HeaderDb} {prev header : BlockHeader}

-- the checks of validateHeader but the one on the seed
structure CheckedButSeed (env : Env) (ctx : Ctx) (db : HeaderDb) (prev header : BlockHeader) : Prop where
  notBad : header.hash env ∉ badHashes
  version : header.version = Global.currentHeaderVersion
  notAhead : ¬ (header.timestamp.timestampNanos > ctx.now + 6 * 60 * 10 ^ 9
    ∧ env.chainType ≠ .automatedTesting)
  proof : validateProof env ctx header = .ok ()
  parent : db.getPreviousHeader header = some prev
  algo : validateAlgo env db prev header = .ok ()
  height : (add env.overflowChecks prev.height 1 : Outcome ErrorKind UInt64) = .ok header.height
  later : ¬ (header.timestamp.timestampNanos ≤ prev.timestamp.timestampNanos
    ∧ env.chainType ≠ .automatedTesting)
  difficulty : validateDifficulty env ctx db prev header = .ok ()

theorem validateSeed_eq_ok
    : validateSeed env db header = .ok ()
        ↔
      ∃ seedHeader seedHeight,
        db.getBlockHeader (.fromVec header.pow.seed) = some seedHeader
          ∧
        (RandomX.rxCurrentSeedHeight env.overflowChecks header.height : Outcome ErrorKind UInt64)
          = .ok seedHeight
          ∧
        seedHeader.height = seedHeight := by
  unfold validateSeed
  simp only [Outcome.bind_eq_ok, Outcome.okOr_eq_ok, Outcome.require_eq_ok]
  constructor
  . rintro ⟨seedHeader, hstored, seedHeight, hheight, heq⟩
    exact ⟨seedHeader, seedHeight, hstored, hheight, heq⟩
  . rintro ⟨seedHeader, seedHeight, hstored, hheight, heq⟩
    exact ⟨seedHeader, hstored, seedHeight, hheight, heq⟩

theorem validateHeader_eq_ok_iff_seed
    : validateHeader env ctx db header = .ok ()
        ↔
      validateSeed env db header = .ok () ∧ ∃ prev, CheckedButSeed env ctx db prev header := by
  rw [validateHeader_eq_ok]
  constructor
  . rintro ⟨hbad, prev, h⟩
    exact ⟨h.seed, prev, hbad, h.version, h.notAhead, h.proof, h.parent, h.algo, h.height, h.later,
      h.difficulty⟩
  . rintro ⟨hseed, prev, h⟩
    exact ⟨h.notBad, prev, h.version, h.notAhead, h.proof, h.parent, hseed, h.algo, h.height, h.later,
      h.difficulty⟩

def SeedLaw (env : Env) (db : HeaderDb) (header : BlockHeader) : Prop :=
  ∃ seedHeight seedHeader,
    (RandomX.rxCurrentSeedHeight env.overflowChecks header.height : Outcome ErrorKind UInt64)
      = .ok seedHeight
      ∧
    db.AncestorAt header seedHeight seedHeader
      ∧
    seedHeader.hash env = .fromVec header.pow.seed

-- The headers that are stored at the height of the seed and would do as the seed are on the way back.
def NoForeignSeed (env : Env) (ctx : Ctx) (db : HeaderDb) (header : BlockHeader) : Prop :=
  ∀ seedHeight seed seedHeader prev,
    (RandomX.rxCurrentSeedHeight env.overflowChecks header.height : Outcome ErrorKind UInt64)
      = .ok seedHeight →
    db.getBlockHeader (.fromVec seed) = some seedHeader →
    seedHeader.height = seedHeight →
    CheckedButSeed env ctx db prev (header.withSeed seed) →
    db.AncestorAt header seedHeight seedHeader

theorem NoForeignSeed.seedLaw (hkeys : ∀ key h, db.getBlockHeader key = some h → h.hash env = key)
    (h : NoForeignSeed env ctx db header)
    (hok : validateHeader env ctx db (header.withSeed seed) = .ok ())
    : SeedLaw env db (header.withSeed seed) := by
  obtain ⟨hseed, prev, hchecked⟩ := validateHeader_eq_ok_iff_seed.mp hok
  obtain ⟨seedHeader, seedHeight, hstored, hheight, heq⟩ := validateSeed_eq_ok.mp hseed
  exact ⟨seedHeight, seedHeader, hheight,
    HeaderDb.ancestorAt_withSeed.mpr (h _ _ _ prev hheight hstored heq hchecked), hkeys _ _ hstored⟩

theorem seed_law_iff (hkeys : ∀ key h, db.getBlockHeader key = some h → h.hash env = key)
    : ((∀ seed, validateHeader env ctx db (header.withSeed seed) = .ok ()
          → SeedLaw env db (header.withSeed seed))
        ↔
      NoForeignSeed env ctx db header)
        ∧
      ∀ header', header'.prevHash = header.prevHash
        → NoForeignSeed env ctx db header → NoForeignSeed env ctx db header'
        → validateHeader env ctx db header = .ok () → validateHeader env ctx db header' = .ok ()
        → header.pow.seed = header'.pow.seed := by
  refine ⟨⟨?_, fun h seed hok => h.seedLaw hkeys hok⟩, ?_⟩
  . intro hlaw seedHeight seed seedHeader prev hheight hstored heq hchecked
    have hseed : validateSeed env db (header.withSeed seed) = .ok () :=
      validateSeed_eq_ok.mpr ⟨seedHeader, seedHeight, hstored, hheight, heq⟩
    obtain ⟨seedHeight', a, hheight', hancestor, hhash⟩ :=
      hlaw seed (validateHeader_eq_ok_iff_seed.mpr ⟨hseed, prev, hchecked⟩)
    obtain rfl := Outcome.ok.inj (hheight.symm.trans hheight')
    -- a header is stored under its own hash, so the one the seed names is the ancestor
    obtain ⟨key, hkey⟩ := hancestor.exists_key
    have hfound : db.getBlockHeader (.fromVec seed) = some a := by
      have hown := hkeys key a hkey
      rw [hhash] at hown
      exact hown.symm ▸ hkey
    obtain rfl := Option.some.inj (hstored.symm.trans hfound)
    exact HeaderDb.ancestorAt_withSeed.mp hancestor
  . intro header' hprev h h' hok hok'
    obtain ⟨seedHeight, a, hheight, hancestor, hhash⟩ : SeedLaw env db header := h.seedLaw hkeys hok
    obtain ⟨seedHeight', a', hheight', hancestor', hhash'⟩ : SeedLaw env db header' :=
      h'.seedLaw hkeys hok'
    obtain ⟨-, prev, hchecked⟩ := validateHeader_eq_ok_iff_seed.mp hok
    obtain ⟨-, prev', hchecked'⟩ := validateHeader_eq_ok_iff_seed.mp hok'
    have hparent : prev' = prev := by
      have hsame := hchecked'.parent
      rw [HeaderDb.getPreviousHeader, hprev] at hsame
      exact Option.some.inj (hsame.symm.trans hchecked.parent)
    have hsame : header'.height = header.height := by
      have := hchecked'.height
      rw [hparent, hchecked.height] at this
      exact (Outcome.ok.inj this).symm
    rw [hsame, hheight] at hheight'
    obtain rfl := Outcome.ok.inj hheight'
    obtain rfl := hancestor.unique (hancestor'.congr hprev)
    exact Hash.fromVec_injective (hhash.symm.trans hhash')

end

/-!
A store with a fork at the height of the seed: the main chain up to height 1060 and another block at
height 1000. The seed of the next block is the hash of the other one.
-/

namespace SeedSample

open HeaderDb.Sample

def forkPow : ProofOfWork := { (header 1000).pow with proof := proof 2000 }

def forkSeed : Bytes32 := .replicate 32 7

def env : Env where
  __ := Transparent.env .mainnet
  blake2b bs :=
    ⟨Equiv.swap (BlockHeader.write .mainnet .hash { header 1000 with pow := forkPow }) forkSeed.toList bs⟩

def ctx : Ctx := ⟨.none, fun _ => true, 1000000 * 10 ^ 9⟩

def fork : BlockHeader := { child env 999 with pow := forkPow }

def store : HeaderDb := (db env 1060).saveBlockHeader env fork

def forked : BlockHeader := (child env 1060).withSeed forkSeed

theorem injective_env
    : Function.Injective env.blake2b := by
  intro x y h
  exact Equiv.injective _ (Hash.mk.inj h)

theorem hash_fork
    : fork.hash env = .fromVec forkSeed := by
  apply congrArg Hash.mk
  exact Equiv.swap_apply_left _ _

theorem lookup_store (hi : i ≤ 1060)
    : store.getBlockHeader ((header i).hash env) = some (link env i) := by
  rw [← lookup_db injective_env (by omega) hi]
  apply AList.lookup_insert_ne
  exact (numbered_header (by omega)).hash_ne injective_env (j := 2000) ⟨by omega, rfl, rfl⟩ (by omega)

theorem lookup_fork
    : store.getBlockHeader (.fromVec forkSeed) = some fork := by
  rw [← hash_fork]
  exact AList.lookup_insert _

section

-- all that matters of the store are the headers of the main chain in it
variable {db : HeaderDb}
  (hdb : ∀ i ≤ 1060, db.getBlockHeader ((header i).hash env) = some (link env i))
include hdb

theorem getPreviousHeader_link (hi : i < 1060)
    : db.getPreviousHeader (link env (i + 1)) = some (link env i) := hdb i (by omega)

theorem first_link (hi : i < 1060)
    : BottleIter.first db ((header (i + 1)).hash env) 0 = some Feijoada.getBottlesDefault := by
  rw [BottleIter.first_eq (hdb (i + 1) (by omega))]
  have hsearch : BottleIter.search db 0 BottleIter.limitSearch (link env (i + 1))
      = some (some (link env i)) := by
    rw [BottleIter.limitSearch, BottleIter.search, getPreviousHeader_link hdb hi]
    dsimp only
    rw [policy_link, if_pos rfl]
  rw [hsearch]
  rfl

theorem loop_link (hi : i < 1060)
    (hsub : ((link env (i + 1)).totalDifficulty.sub true (link env i).totalDifficulty
      : Outcome ErrorKind Difficulty) = .ok d)
    : (DifficultyIter.loop env db (link env (i + 1)) : Outcome ErrorKind _)
        = .ok ⟨some (link env i), d,
            (link env (i + 1)).timestamp.timestamp - (link env i).timestamp.timestamp, 13⟩ := by
  have hproof (i : Nat) : PoWType.fromProof (link env i).pow.proof = .randomX := by
    cases i <;> rfl
  have hscaling : (link env (i + 1)).pow.secondaryScaling = 13 := rfl
  have hchecks : env.overflowChecks = true := rfl
  rw [DifficultyIter.loop, DifficultyIter.firstStep, getPreviousHeader_link hdb hi]
  dsimp only
  rw [hchecks, hsub, Outcome.ok_bind, Outcome.pure_eq_ok, Outcome.ok_bind]
  dsimp only
  rw [DifficultyIter.search, getPreviousHeader_link hdb hi]
  dsimp only
  rw [hproof, hproof, if_pos rfl, hscaling]

theorem take_link
    : (DifficultyIter.take env db ((header 1060).hash env) 2 : Outcome ErrorKind _)
        = .ok [⟨63600, .fromNum 1, 13, false, 60⟩, ⟨63540, .fromNum 1, 13, false, 60⟩] := by
  have hsub : ∀ i ∈ [1059, 1058], ((link env (i + 1)).totalDifficulty.sub true
      (link env i).totalDifficulty : Outcome ErrorKind Difficulty) = .ok (.fromNum 1) := by
    decide
  rw [DifficultyIter.take, hdb 1060 (by omega), DifficultyIter.go,
    loop_link hdb (i := 1059) (by omega) (hsub 1059 (by simp)), Outcome.ok_bind]
  dsimp only
  rw [DifficultyIter.go, loop_link hdb (i := 1058) (by omega) (hsub 1058 (by simp)), Outcome.ok_bind]
  dsimp only
  rw [DifficultyIter.go.eq_def]
  dsimp only
  rw [Outcome.ok_bind]
  decide

theorem nextHeaderInfo_link
    : nextHeaderInfo env db (link env 1060) 1061 = .ok (.fromDiffScaling (.fromNum 1) 13) := by
  have hvector : Global.difficultyDataToVector env (DifficultyIter.take env db ((link env 1060).hash env))
      (Consensus.diffWindow .randomX)
      = (.ok [⟨63540, .fromNum 1, 13, false, 60⟩, ⟨63600, .fromNum 1, 13, false, 60⟩]
        : Outcome ErrorKind _) := by
    have htake := take_link hdb
    unfold Global.difficultyDataToVector
    rw [MachineInt.add_eq_ok (by decide), Outcome.ok_bind]
    change (DifficultyIter.take env db ((header 1060).hash env) 2 >>= _) = _
    rw [htake]
    decide
  have hinfo : nextHeaderInfo env db (link env 1060) 1061
      = Consensus.nextDifficulty env 1061 .randomX
          (DifficultyIter.take env db ((link env 1060).hash env)) := rfl
  rw [hinfo, Consensus.nextDifficulty, Consensus.nextDifficultyBy]
  dsimp only
  rw [hvector]
  decide

theorem checked_forked
    : CheckedButSeed env ctx db (link env 1060) forked where
  notBad := by decide
  version := rfl
  notAhead := by decide
  proof := by decide
  parent := hdb 1060 (Nat.le_refl _)
  algo := by
    have hfirst : BottleIter.first db ((link env 1060).hash env) forked.policy
        = some Feijoada.getBottlesDefault := first_link hdb (i := 1059) (by omega)
    rw [validateAlgo_eq_ok, hfirst]
    exact ⟨by decide +kernel, .randomX, ⟨some 0, some 0, some 1, some 0⟩, by decide +kernel, rfl⟩
  height := by decide +kernel
  later := by decide
  difficulty := by
    have hinfo : nextHeaderInfo env db (link env 1060) forked.height
        = .ok (.fromDiffScaling (.fromNum 1) 13) := nextHeaderInfo_link hdb
    rw [validateDifficulty, hinfo]
    decide

end

theorem find_chain (hn : n < 65536) (hi : i ≤ n)
    : (chain env n).find? (fun h => h.height = UInt64.ofNat i) = some (link env i) := by
  have hheight (i : Nat) : (link env i).height = UInt64.ofNat i := by
    cases i <;> rfl
  induction n with
  | zero =>
    obtain rfl : i = 0 := by omega
    rfl
  | succ n ih =>
    rcases Nat.lt_or_eq_of_le hi with hlt | rfl
    . rw [chain, List.find?_cons_of_neg, ih (by omega) (by omega)]
      rw [hheight, decide_eq_true_iff, ← UInt64.toNat_inj,
        UInt64.toNat_ofNat_of_lt' (by unfold UInt64.size; omega),
        UInt64.toNat_ofNat_of_lt' (by unfold UInt64.size; omega)]
      omega
    . rw [chain, List.find?_cons_of_pos]
      rw [hheight, decide_eq_true_iff]

theorem ancestorAt_forked
    : store.AncestorAt forked 1000 (link env 1000) := by
  refine ⟨1061, ?_⟩
  rw [ancestors_of_lookup (fun i hi => lookup_store hi) rfl]
  exact find_chain (n := 1060) (i := 1000) (by omega) (by omega)

theorem lookup_single (hkey : (db env 0).getBlockHeader key = some h)
    : h = link env 0 ∧ h.hash env = key := by
  rcases HeaderDb.lookup_saveBlockHeader hkey with hempty | ⟨rfl, hhash⟩
  . contradiction
  . exact ⟨rfl, hhash⟩

theorem noForeignSeed_child
    : NoForeignSeed env ctx (db env 0) (child env 0) := by
  intro seedHeight seed seedHeader prev _ hstored hheight _
  obtain ⟨rfl, -⟩ := lookup_single hstored
  exact ⟨1, hheight ▸ by decide⟩

end SeedSample

open SeedSample HeaderDb.Sample in
theorem seed_law_iff_child
    : NoForeignSeed env ctx (db env 0) (child env 0)
        ∧
      ∀ seed, validateHeader env ctx (db env 0) ((child env 0).withSeed seed) = .ok ()
        → SeedLaw env (db env 0) ((child env 0).withSeed seed) :=
  ⟨noForeignSeed_child,
    (seed_law_iff fun _ _ hkey => (lookup_single hkey).2).1.mpr noForeignSeed_child⟩

open SeedSample HeaderDb.Sample in
theorem foreign_seed_accepted
    : ctx.opts.skipPow = false
        ∧ validateHeader env ctx store forked = .ok ()
        ∧ ¬ SeedLaw env store forked := by
  have hseed : validateSeed env store forked = .ok () :=
    validateSeed_eq_ok.mpr ⟨fork, 1000, lookup_fork, by decide, rfl⟩
  have hchecked : CheckedButSeed env ctx store (link env 1060) forked :=
    checked_forked fun i hi => lookup_store hi
  refine ⟨rfl, validateHeader_eq_ok_iff_seed.mpr ⟨hseed, _, hchecked⟩, ?_⟩
  rintro ⟨seedHeight, a, hheight, hancestor, hhash⟩
  have hthousand : (RandomX.rxCurrentSeedHeight env.overflowChecks forked.height
      : Outcome ErrorKind UInt64) = .ok 1000 := by
    decide
  obtain rfl := Outcome.ok.inj (hthousand.symm.trans hheight)
  obtain rfl := hancestor.unique ancestorAt_forked
  have hne : (link env 1000).hash env ≠ fork.hash env :=
    Numbered.hash_ne injective_env (i := 1000) (j := 2000) ⟨by omega, rfl, rfl⟩ ⟨by omega, rfl, rfl⟩
      (by omega)
  exact hne (hhash.trans hash_fork.symm)

end Pipe
end Epic
