import Epic.Chain.HeadState
import Epic.Chain.TxHashSet.Utxo

/-!
This module contains the maturity of coinbase outputs. The check compares the greatest position that is
spent with the size of the output mountain range at one header.
-/

namespace Epic

open Pmmr

structure CreatedAt (branch : List BlockHeader) (pos n : Nat) : Prop where
  within : ∃ header, branch[n]? = some header ∧ pos ≤ header.outputMmrSize.toNat
  above : ∀ m, m < n → ∀ prev, branch[m]? = some prev → prev.outputMmrSize.toNat < pos

namespace CreatedAt

variable {branch : List BlockHeader} {header : BlockHeader} {pos n m : Nat}

theorem unique (h : CreatedAt branch pos n) (h' : CreatedAt branch pos m)
    : n = m := by
  obtain ⟨header, hheader, hle⟩ := h.within
  obtain ⟨header', hheader', hle'⟩ := h'.within
  rcases Nat.lt_trichotomy n m with hlt | heq | hgt
  . exact absurd hle (Nat.not_le_of_lt (h'.above n hlt header hheader))
  . exact heq
  . exact absurd hle' (Nat.not_le_of_lt (h.above m hgt header' hheader'))

theorem exists_le (hheader : branch[m]? = some header) (hpos : pos ≤ header.outputMmrSize.toNat)
    : ∃ n, n ≤ m ∧ CreatedAt branch pos n := by
  induction m using Nat.strong_induction_on generalizing header with
  | h m ih =>
    by_cases hfirst : ∀ k, k < m → ∀ prev, branch[k]? = some prev → prev.outputMmrSize.toNat < pos
    . exact ⟨m, Nat.le_refl m, ⟨header, hheader, hpos⟩, hfirst⟩
    . push Not at hfirst
      obtain ⟨k, hk, prev, hprev, hle⟩ := hfirst
      obtain ⟨n, hn, hcreated⟩ := ih k hk hprev hle
      exact ⟨n, hn.trans hk.le, hcreated⟩

end CreatedAt

def MonotoneSizes (branch : List BlockHeader) : Prop :=
  ∀ n header next, branch[n]? = some header → branch[n + 1]? = some next →
    header.outputMmrSize.toNat ≤ next.outputMmrSize.toNat

theorem MonotoneSizes.le {branch : List BlockHeader} {n m : Nat} {header next : BlockHeader}
    (h : MonotoneSizes branch) (hnm : n ≤ m) (hheader : branch[n]? = some header)
    (hnext : branch[m]? = some next)
    : header.outputMmrSize.toNat ≤ next.outputMmrSize.toNat :=
  Chain.outputMmrSize_le_of_steps (fun i header next _ => h i header next) hnm hheader hnext

theorem CreatedAt.le_iff {branch : List BlockHeader} {header : BlockHeader} {pos n m : Nat}
    (h : CreatedAt branch pos n) (hsizes : MonotoneSizes branch) (hheader : branch[m]? = some header)
    : pos ≤ header.outputMmrSize.toNat ↔ n ≤ m := by
  constructor
  . intro hle
    by_contra hlt
    exact absurd hle (Nat.not_le_of_lt (h.above m (by omega) header hheader))
  . intro hle
    obtain ⟨first, hfirst, hwithin⟩ := h.within
    exact hwithin.trans (hsizes.le hle hfirst hheader)

theorem PMMR.exists_eq_leafPos_of_getData {E : Type} {p : PMMR E} {pos : Nat} {elmt : E}
    (h : p.getData pos = some elmt)
    : ∃ n, pos = leafPos n := by
  unfold PMMR.getData PMMRBackend.getData at h
  rcases hleaf : isLeaf pos with _ | _
  . simp [hleaf] at h
  . refine exists_eq_leafPos (Nat.pos_of_ne_zero ?_) hleaf
    rintro rfl
    have hzero : nLeaves 0 = 0 := nLeaves_mmrSize 0
    simp [PMMRBackend.getDataFromFile, AppendOnlyFile.read, hleaf, hzero] at h

namespace Extension

structure OnTop (env : Env) (ext : Extension) (branch : List BlockHeader) : Prop where
  headers : ext.batch.db.headers.Branch env branch
  headerHash : ∀ n, n < branch.length →
    getHeaderHash ext.headerPmmr (leafPos n) = branch[n]?.map (·.hash env)
  sizes : MonotoneSizes branch
  outputSize : branch.getLast?.map (·.outputMmrSize.toNat) = some ext.outputPmmr.lastPos
  sound : Sound env ext
  indexed : ext.Indexed
  -- also the positions of what was spent are those of outputs
  leaves : ∀ commit pos, ext.batch.getOutputPos commit = some pos → isLeaf pos = true

section

variable {env : Env} {ext : Extension} {branch : List BlockHeader} {header : BlockHeader}

theorem OnTop.getHeaderByHeight (h : OnTop env ext branch)
    (hheader : branch[height.toNat]? = some header)
    : Epic.getHeaderByHeight ext.headerPmmr ext.batch height = .ok header := by
  obtain ⟨hlt, -⟩ := List.getElem?_eq_some_iff.mp hheader
  refine Outcome.bind_eq_ok.mpr ⟨header.hash env, ?_, ?_⟩
  . rw [Outcome.okOr_eq_ok, insertionToPmmrIndex_succ, h.headerHash _ hlt, hheader]
    rfl
  . exact Outcome.okOr_eq_ok.mpr (h.headers.stored header (List.mem_of_getElem? hheader))

theorem OnTop.validateInput_eq_ok (hinj : Function.Injective env.blake2b)
    (h : OnTop env ext branch)
    : UTXOView.validateInput env ext.outputPmmr ext.batch x = .ok ()
        ↔
      .fromInput x ∈ ext.unspent := by
  constructor
  . intro hvalid
    unfold UTXOView.validateInput at hvalid
    split at hvalid
    . next pos hpos =>
      rw [Outcome.require_eq_ok] at hvalid
      have hisLeaf := h.leaves _ _ hpos
      unfold PMMR.getHash PMMRBackend.getHash at hvalid
      rw [hisLeaf, h.sound.outputPruned, if_pos rfl] at hvalid
      split at hvalid
      . contradiction
      next hlast =>
      split at hvalid
      . contradiction
      next hincludes =>
      have hmem : pos ∈ ext.outputPmmr.backend.leafSet.bitmap := by
        simpa [LeafSet.includes] using hincludes
      obtain ⟨out, hleaf⟩ := h.sound.leaf pos hmem (Nat.le_of_not_gt hlast)
      rw [hleaf.hash, Option.some.injEq] at hvalid
      have hout : out = .fromInput x :=
        OutputIdentifier.write_injective (hashWithIndex_inj hinj hvalid)
      exact ⟨pos, h.sound.getData_eq_some.mpr ⟨hmem, hout ▸ hleaf⟩⟩
    . contradiction
  . intro hmem
    obtain ⟨pos, hfound⟩ := (⟨h.sound, h.indexed, rfl⟩ : Represents env _ ext).found hmem
    unfold UTXOView.validateInput
    rw [hfound.indexed, Outcome.require_eq_ok]
    exact hfound.hash

theorem foldl_max_le_iff {l : List Nat}
    : l.foldl max a ≤ b ↔ a ≤ b ∧ ∀ x ∈ l, x ≤ b := by
  induction l generalizing a with
  | nil => simp
  | cons x l ih =>
    rw [List.foldl_cons, ih, Nat.max_le, List.forall_mem_cons, and_assoc]

theorem one_le_coinbaseMaturity (ct : ChainTypes)
    : 1 ≤ (Global.coinbaseMaturity ct).toNat := by
  cases ct <;> decide

theorem OnTop.verifyCoinbaseMaturity_eq_ok {height : UInt64}
    (h : OnTop env ext branch) (hheight : height.toNat = branch.length)
    : UTXOView.verifyCoinbaseMaturity env ext.headerPmmr ext.batch inputs height = .ok ()
        ↔
      ∀ x ∈ inputs, x.features = .coinbase →
        ∀ pos, 0 < pos → ext.batch.getOutputPos x.commit = some pos →
          (Global.coinbaseMaturity env.chainType).toNat ≤ height.toNat
            ∧
          ∀ header, branch[height.toNat - (Global.coinbaseMaturity env.chainType).toNat]? = some header →
            pos ≤ header.outputMmrSize.toNat := by
  have hpositive := one_le_coinbaseMaturity env.chainType
  unfold UTXOView.verifyCoinbaseMaturity
  dsimp only
  generalize Global.coinbaseMaturity env.chainType = maturity at hpositive ⊢
  have hmem {pos : Nat} : pos ∈ (inputs.filter (·.features == .coinbase)).filterMap
      (fun x => ext.batch.getOutputPos x.commit)
      ↔ ∃ x ∈ inputs, x.features = .coinbase ∧ ext.batch.getOutputPos x.commit = some pos := by
    simp only [List.mem_filterMap, List.mem_filter, beq_iff_eq, and_assoc]
  generalize hall : (inputs.filter (·.features == .coinbase)).filterMap
    (fun x => ext.batch.getOutputPos x.commit) = positions at hmem ⊢
  split
  . next hpos =>
    obtain ⟨pos, hpos', hlt⟩ : ∃ pos ∈ positions, 0 < pos := by
      by_contra hnone
      push Not at hnone
      have := foldl_max_le_iff.mpr ⟨Nat.le_refl 0, hnone⟩
      omega
    rw [Outcome.bind_eq_ok]
    simp only [Outcome.require_eq_ok, UInt64.not_lt, UInt64.le_iff_toNat_le]
    constructor
    . rintro ⟨⟨⟩, hle, hcutoff⟩ x hx hcoinbase pos hlt hpos
      refine ⟨hle, fun header hheader => ?_⟩
      rw [← UInt64.toNat_sub_of_le _ _ (UInt64.le_iff_toNat_le.mpr hle)] at hheader
      rw [h.getHeaderByHeight hheader, Outcome.ok_bind, Outcome.require_eq_ok, gt_iff_lt, Nat.not_lt,
        foldl_max_le_iff] at hcutoff
      exact hcutoff.2 pos (hmem.mpr ⟨x, hx, hcoinbase, hpos⟩)
    . intro hmature
      obtain ⟨x, hx, hcoinbase, hindex⟩ := hmem.mp hpos'
      obtain ⟨hle, -⟩ := hmature x hx hcoinbase pos hlt hindex
      obtain ⟨header, hheader⟩ : ∃ header, branch[height.toNat - maturity.toNat]? = some header :=
        ⟨_, List.getElem?_eq_getElem (by omega)⟩
      refine ⟨(), hle, ?_⟩
      have hcutoff := hheader
      rw [← UInt64.toNat_sub_of_le _ _ (UInt64.le_iff_toNat_le.mpr hle)] at hcutoff
      rw [h.getHeaderByHeight hcutoff, Outcome.ok_bind, Outcome.require_eq_ok, gt_iff_lt, Nat.not_lt,
        foldl_max_le_iff]
      refine ⟨Nat.zero_le _, fun pos hpos => ?_⟩
      rcases Nat.eq_zero_or_pos pos with rfl | hlt
      . exact Nat.zero_le _
      . obtain ⟨x, hx, hcoinbase, hindex⟩ := hmem.mp hpos
        exact (hmature x hx hcoinbase pos hlt hindex).2 header hheader
  . next hzero =>
    have hbound := (foldl_max_le_iff.mp (Nat.le_of_not_lt hzero)).2
    refine ⟨fun _ x hx hcoinbase pos hlt hindex => ?_, fun _ => rfl⟩
    have := hbound pos (hmem.mpr ⟨x, hx, hcoinbase, hindex⟩)
    omega

theorem OnTop.exists_createdAt (h : OnTop env ext branch)
    (hdata : ext.outputPmmr.getData pos = some out)
    : ∃ n, CreatedAt branch pos n := by
  obtain ⟨-, hleaf⟩ := h.sound.getData_eq_some.mp hdata
  obtain ⟨last, hlast, hsize⟩ := Option.map_eq_some_iff.mp h.outputSize
  rw [List.getLast?_eq_getElem?] at hlast
  obtain ⟨n, -, hcreated⟩ := CreatedAt.exists_le hlast (hsize ▸ hleaf.le)
  exact ⟨n, hcreated⟩

theorem coinbase_maturity_exact {inputs : List Input} {height : UInt64}
    (hinj : Function.Injective env.blake2b) (h : OnTop env ext branch)
    (hheight : height.toNat = branch.length)
    : (UTXOView.verifyCoinbaseMaturity env ext.headerPmmr ext.batch inputs height = .ok ()
        ∧
      UTXOView.validateInputs env ext.outputPmmr ext.batch inputs = .ok ())
        ↔
      (∀ x ∈ inputs, .fromInput x ∈ ext.unspent)
        ∧
      ∀ x ∈ inputs, x.features = .coinbase →
        ∃ pos n,
          ext.outputPmmr.getData pos = some (.fromInput x)
            ∧
          CreatedAt branch pos n
            ∧
          n + (Global.coinbaseMaturity env.chainType).toNat ≤ height.toNat := by
  have hpositive := one_le_coinbaseMaturity env.chainType
  rw [h.verifyCoinbaseMaturity_eq_ok hheight, validateInputs_eq_ok]
  simp only [h.validateInput_eq_ok hinj]
  rw [and_comm]
  refine and_congr_right fun hunspent => ?_
  refine forall₃_congr fun x hx hcoinbase => ?_
  obtain ⟨pos, hdata⟩ := hunspent x hx
  have hindex : ext.batch.getOutputPos x.commit = some pos := h.indexed pos _ hdata
  obtain ⟨n, hcreated⟩ := h.exists_createdAt hdata
  obtain ⟨first, hfirst, -⟩ := hcreated.within
  obtain ⟨hlt, -⟩ := List.getElem?_eq_some_iff.mp hfirst
  constructor
  . intro hmature
    obtain ⟨k, hpos⟩ := PMMR.exists_eq_leafPos_of_getData hdata
    obtain ⟨hle, hcutoff⟩ := hmature pos (hpos ▸ Nat.succ_pos _) hindex
    have hheader : branch[height.toNat - (Global.coinbaseMaturity env.chainType).toNat]?
      = some _ := List.getElem?_eq_getElem (by omega)
    have hn := (hcreated.le_iff h.sizes hheader).mp (hcutoff _ hheader)
    exact ⟨pos, n, hdata, hcreated, by omega⟩
  . rintro ⟨pos', n', hdata', hcreated', hle⟩ pos'' - hindex''
    obtain rfl : pos = pos' := Option.some.inj (hindex.symm.trans (h.indexed pos' _ hdata'))
    obtain rfl : pos = pos'' := Option.some.inj (hindex.symm.trans hindex'')
    obtain rfl := hcreated.unique hcreated'
    refine ⟨by omega, fun header hheader => ?_⟩
    exact (hcreated.le_iff h.sizes hheader).mpr (by omega)

end

end Extension

theorem SizesRecorded.monotoneSizes {branch : List Block} (h : SizesRecorded branch)
    : MonotoneSizes (headersOf branch) := by
  intro n header next hheader hnext
  rw [headersOf, List.getElem?_map, Option.map_eq_some_iff] at hheader hnext
  obtain ⟨b, hb, rfl⟩ := hheader
  obtain ⟨b', hb', rfl⟩ := hnext
  rw [(h n b hb).output, (h (n + 1) b' hb').output]
  apply mmrSize_le_mmrSize
  unfold outputsOf
  exact ((List.take_prefix_take_left (by omega)).sublist.flatMap _).length_le

theorem Chain.OnBranch.onTop {env : Env} {genesis last : Block} {c : Chain} {branch : List Block}
    (h : OnBranch env genesis c branch) (hlast : branch.getLast? = some last)
    (hsound : Extension.Sound env (.new ⟨c.txhashset, c.store.batch⟩ last.header))
    (hindexed : (Extension.new ⟨c.txhashset, c.store.batch⟩ last.header).Indexed)
    (hleaves : ∀ commit pos, c.store.outputPos.lookup commit = some pos → isLeaf pos = true)
    : Extension.OnTop env (.new ⟨c.txhashset, c.store.batch⟩ last.header) (headersOf branch) := by
  have hhead := h.atHead hlast
  refine ⟨hhead.ancestors, fun n _ => hhead.headerHash n, h.main.recorded.monotoneSizes, ?_, hsound,
    hindexed, hleaves⟩
  rw [hhead.isLast]
  exact congrArg some hhead.outputSize.symm

-- the block at that height has the output
theorem Chain.OnBranch.mem_of_createdAt {env : Env} {genesis : Block} {c : Chain} {branch : List Block}
    {pos n : Nat} {out : OutputIdentifier}
    (h : OnBranch env genesis c branch) (hdata : c.txhashset.outputPmmr.getData pos = some out)
    (hcreated : CreatedAt (headersOf branch) pos n)
    : ∃ b, branch[n]? = some b ∧ ∃ o ∈ b.body.outputs, out = .fromOutput o := by
  obtain ⟨k, rfl⟩ := PMMR.exists_eq_leafPos_of_getData hdata
  rw [h.holds.output.getData] at hdata
  split at hdata
  . obtain ⟨leaf, hleaf, rfl⟩ := Option.map_eq_some_iff.mp hdata
    rw [PMMR.getElem?_leavesOf, Option.map_eq_some_iff] at hleaf
    obtain ⟨o, ho, rfl⟩ := hleaf
    obtain ⟨header, hheader, hwithin⟩ := hcreated.within
    rw [headersOf, List.getElem?_map, Option.map_eq_some_iff] at hheader
    obtain ⟨b, hb, rfl⟩ := hheader
    rw [(h.main.recorded n b hb).output, leafPos_le_mmrSize_iff] at hwithin
    have habove : (outputsOf (branch.take n)).length ≤ k := by
      cases n with
      | zero => exact Nat.zero_le k
      | succ m =>
        obtain ⟨hlt, -⟩ := List.getElem?_eq_some_iff.mp hb
        have hm : branch[m]? = some branch[m] := List.getElem?_eq_getElem (by omega)
        have hprev := hcreated.above m (by omega) branch[m].header (by simp [headersOf, hm])
        rw [(h.main.recorded m _ hm).output] at hprev
        by_contra hlt
        exact absurd (leafPos_le_mmrSize_iff.mpr (Nat.lt_of_not_le hlt)) (Nat.not_le_of_lt hprev)
    refine ⟨b, hb, o, ?_, rfl⟩
    rw [← outputsOf_take_append branch (n + 1), List.getElem?_append_left hwithin] at ho
    rw [List.take_add_one, hb, Option.toList_some, outputsOf_concat, List.getElem?_append_right habove] at ho
    exact List.mem_of_getElem? ho
  . contradiction

namespace Extension
namespace Sample

def testing : Env := Transparent.env .automatedTesting

def coinbase (n : UInt8) : Output := ⟨.coinbase, commit n, .zero⟩

-- the number makes the proof of work distinct
def at₀ : BlockHeader :=
  { Genesis.genesisMain.header with
    height := 0
    outputMmrSize := 1
    pow := { Genesis.genesisMain.header.pow with proof := .randomX ⟨List.replicate 31 0 ++ [0], rfl⟩ } }

theorem length_digest (n : UInt8)
    : (List.replicate 31 0 ++ [n]).length = 32 := rfl

def after (prev : BlockHeader) (n : UInt8) (outputMmrSize : UInt64) : BlockHeader :=
  { prev with
    height := prev.height + 1
    prevHash := prev.hash testing
    outputMmrSize := outputMmrSize
    pow := { prev.pow with proof := .randomX ⟨List.replicate 31 0 ++ [n], length_digest n⟩ } }

def at₁ : BlockHeader := after at₀ 1 1
def at₂ : BlockHeader := after at₁ 2 4
def at₃ : BlockHeader := after at₂ 3 4

def headers : List BlockHeader := [at₀, at₁, at₂, at₃]

def stored : Batch := headers.foldl (·.saveBlockHeader testing) ChainStore.new.batch

def apply (ext : Extension) (header : BlockHeader) (outputs : List Output) : Extension :=
  (applyBlock testing ⟨header, ⟨[], outputs, []⟩⟩ ext).2

def top₀ : Extension := apply (.new ⟨.new, stored⟩ at₀) at₀ [coinbase 1]
def top₁ : Extension := apply top₀ at₁ []
def top₂ : Extension := apply top₁ at₂ [output 3, coinbase 2]
def top₃ : Extension := apply top₂ at₃ []

theorem represents_apply {ext : Extension} {header : BlockHeader} (outputs : List Output)
    (h : ∃ unspent, Represents testing unspent ext)
    (hsorted : (⟨[], outputs, []⟩ : TransactionBody).verifySorted testing = .ok ()
      ∧ (⟨[], outputs, []⟩ : TransactionBody).verifyCutThrough testing = .ok ())
    (hok : (applyBlock testing ⟨header, ⟨[], outputs, []⟩⟩ ext).1 = .ok ())
    : ∃ unspent, Represents testing unspent (apply ext header outputs) := by
  obtain ⟨unspent, h⟩ := h
  have hinj : Function.Injective testing.blake2b := fun _ _ h => Hash.mk.inj h
  exact ⟨_, (h.applyBlock hinj (TransactionBody.sorted_of_verify hsorted.1 hsorted.2)
    (Prod.ext hok rfl)).2⟩

theorem represents_top₃
    : ∃ unspent, Represents testing unspent top₃ := by
  have hnew : ∃ unspent, Represents testing unspent (.new ⟨.new, stored⟩ at₀) := by
    refine ⟨_, .new testing stored at₀, ?_, rfl⟩
    intro pos out hdata
    obtain ⟨hmem, -⟩ := (Sound.new testing stored at₀).getData_eq_some.mp hdata
    exact absurd hmem (Finset.notMem_empty _)
  have h₀ : ∃ unspent, Represents testing unspent top₀ :=
    represents_apply [coinbase 1] hnew (by decide) (by decide)
  have h₁ : ∃ unspent, Represents testing unspent top₁ :=
    represents_apply [] h₀ (by decide) (by decide)
  have h₂ : ∃ unspent, Represents testing unspent top₂ :=
    represents_apply [output 3, coinbase 2] h₁ (by decide) (by decide)
  exact represents_apply [] h₂ (by decide) (by decide)

theorem facts_top₃
    : top₃.batch.db.headers.Branch testing headers
        ∧ (∀ n, n < 4 → getHeaderHash top₃.headerPmmr (leafPos n) = headers[n]?.map (·.hash testing))
        ∧ top₃.outputPmmr.lastPos = 4
        ∧ (∀ e ∈ top₃.batch.db.outputPos.entries, isLeaf e.2 = true)
        ∧ top₃.outputPmmr.getData 1 = some (.fromOutput (coinbase 1))
        ∧ top₃.outputPmmr.getData 2 = some (.fromOutput (output 3))
        ∧ top₃.outputPmmr.getData 4 = some (.fromOutput (coinbase 2)) := by
  decide

theorem onTop_top₃
    : OnTop testing top₃ headers := by
  obtain ⟨hheaders, hhash, hsize, hleaves, -⟩ := facts_top₃
  obtain ⟨unspent, hrep⟩ := represents_top₃
  refine ⟨hheaders, hhash, ?_, ?_, hrep.sound, hrep.indexed, ?_⟩
  . intro n header next hheader hnext
    match n with
    | 0 | 1 | 2 =>
      cases hheader
      cases hnext
      decide
    | n + 3 => contradiction
  . rw [hsize]
    rfl
  . intro commit pos hpos
    exact hleaves _ (AList.mem_lookup_iff.mp hpos)

end Sample

-- At height 4 the outputs of the genesis block are mature, those of height 2 are not.
open Sample in
theorem coinbase_maturity_exact_top₃
    : UTXOView.verifyCoinbaseMaturity testing top₃.headerPmmr top₃.batch
        [⟨.plain, commit 3⟩, ⟨.coinbase, commit 1⟩] 4 = .ok ()
        ∧
      ¬ (UTXOView.verifyCoinbaseMaturity testing top₃.headerPmmr top₃.batch
          [⟨.coinbase, commit 1⟩, ⟨.coinbase, commit 2⟩] 4 = .ok ()
          ∧
        UTXOView.validateInputs testing top₃.outputPmmr top₃.batch
          [⟨.coinbase, commit 1⟩, ⟨.coinbase, commit 2⟩] = .ok ()) := by
  have hinj : Function.Injective testing.blake2b := fun _ _ h => Hash.mk.inj h
  obtain ⟨-, -, -, -, h₁, h₃, h₂⟩ := facts_top₃
  refine ⟨((coinbase_maturity_exact hinj onTop_top₃ rfl).mpr ⟨?_, ?_⟩).1, ?_⟩
  . intro x hx
    simp only [List.mem_cons, List.not_mem_nil, or_false] at hx
    rcases hx with rfl | rfl
    . exact ⟨2, h₃⟩
    . exact ⟨1, h₁⟩
  . intro x hx hcoinbase
    simp only [List.mem_cons, List.not_mem_nil, or_false] at hx
    rcases hx with rfl | rfl
    . contradiction
    . exact ⟨1, 0, h₁, ⟨⟨at₀, rfl, by decide⟩, fun m hm => absurd hm (Nat.not_lt_zero m)⟩, by decide⟩
  . rw [coinbase_maturity_exact hinj onTop_top₃ rfl]
    rintro ⟨-, hmature⟩
    obtain ⟨pos, n, hdata, hcreated, hle⟩ := hmature ⟨.coinbase, commit 2⟩ (by simp) rfl
    obtain rfl : 4 = pos := Option.some.inj
      ((onTop_top₃.indexed 4 _ h₂).symm.trans (onTop_top₃.indexed pos _ hdata))
    have hn : n ≤ 1 := by
      change n + 3 ≤ 4 at hle
      omega
    have habove := (hcreated.le_iff onTop_top₃.sizes (m := 1) rfl).mpr hn
    revert habove
    decide

end Extension
end Epic
