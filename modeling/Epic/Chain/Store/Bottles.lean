import Epic.Chain.Store.HeaderDb
import Epic.Core.Transparent

/-!
This module contains the lookup of the bottles a block has to go on with: those of the nearest header
with the same policy.
-/

namespace Epic

namespace HeaderDb

def ancestors (db : HeaderDb) (n : Nat) (header : BlockHeader) : List BlockHeader :=
  match n with
  | 0 => []
  | n + 1 =>
    match db.getPreviousHeader header with
    | some prev => prev :: db.ancestors n prev
    | none => []

theorem length_ancestors_le (db : HeaderDb) (n : Nat) (header : BlockHeader)
    : (db.ancestors n header).length ≤ n := by
  induction n generalizing header with
  | zero => exact Nat.le_refl _
  | succ n ih =>
    unfold ancestors
    split
    . next prev _ => exact Nat.succ_le_succ (ih prev)
    . exact Nat.zero_le _

theorem ancestors_congr (db : HeaderDb) (n : Nat) (hprev : h.prevHash = h'.prevHash)
    : db.ancestors n h = db.ancestors n h' := by
  cases n with
  | zero => rfl
  | succ n => simp only [ancestors, getPreviousHeader, hprev]

end HeaderDb

namespace BottleIter

section

variable {db : HeaderDb} {policy : UInt8}

theorem search_eq (rounds : Nat) (head : BlockHeader)
    : search db policy rounds head
        =
      match (db.ancestors rounds head).find? (fun prev => policy = prev.policy) with
      | some prev => some (some prev)
      | none => if (db.ancestors rounds head).length < rounds then some none else none := by
  induction rounds generalizing head with
  | zero => rfl
  | succ rounds ih =>
    unfold search HeaderDb.ancestors
    cases hprev : db.getPreviousHeader head with
    | none => rfl
    | some prev =>
      dsimp only
      by_cases hpolicy : policy = prev.policy
      . rw [if_pos hpolicy, List.find?_cons_of_pos (by simpa using hpolicy)]
      . rw [if_neg hpolicy, List.find?_cons_of_neg (by simpa using hpolicy), ih]
        simp only [List.length_cons, Nat.add_lt_add_iff_right]

def nearest (db : HeaderDb) (policy : UInt8) (header : BlockHeader) : Option BlockHeader :=
  (header :: db.ancestors limitSearch header).find? fun h => policy = h.policy

theorem first_eq {start : Hash} {header : BlockHeader} (hstart : db.getBlockHeader start = some header)
    : first db start policy
        =
      match search db policy limitSearch header with
      | none => none
      | some prevHeader =>
        if header.policy = policy then some header.bottles else prevHeader.map (·.bottles) := by
  unfold first next fromBatch
  dsimp only
  rw [hstart]
  dsimp only
  cases search db policy limitSearch header with
  | none => rfl
  | some prevHeader =>
    dsimp only
    split <;> rfl

theorem first_eq_nearest_iff {start : Hash} {header found : BlockHeader}
    (hstart : db.getBlockHeader start = some header) (hfound : nearest db policy header = some found)
    : first db start policy = some found.bottles
        ↔
      ¬ (header.policy = policy
        ∧ (db.ancestors limitSearch header).length = limitSearch
        ∧ ∀ prev ∈ db.ancestors limitSearch header, prev.policy ≠ policy) := by
  rw [first_eq hstart, search_eq]
  unfold nearest at hfound
  by_cases hpolicy : policy = header.policy
  . -- the search for a predecessor comes first, and may give up
    rw [List.find?_cons_of_pos (by simpa using hpolicy)] at hfound
    obtain rfl := Option.some.inj hfound
    have hle := db.length_ancestors_le limitSearch header
    cases hprev : (db.ancestors limitSearch header).find? (fun prev => policy = prev.policy) with
    | some prev =>
      dsimp only
      rw [if_pos hpolicy.symm]
      refine iff_of_true rfl ?_
      rintro ⟨-, -, hnone⟩
      have hsame := List.find?_some hprev
      exact hnone prev (List.mem_of_find?_eq_some hprev) (of_decide_eq_true hsame).symm
    | none =>
      have hnone : ∀ prev ∈ db.ancestors limitSearch header, prev.policy ≠ policy := by
        intro prev hmem hsame
        have := List.find?_eq_none.mp hprev prev hmem
        exact this (decide_eq_true hsame.symm)
      rcases Nat.lt_or_ge (db.ancestors limitSearch header).length limitSearch with hlt | hge
      . simp only [if_pos hlt, if_pos hpolicy.symm]
        exact iff_of_true trivial (fun h => absurd h.2.1 (by omega))
      . simp only [if_neg (Nat.not_lt_of_le hge)]
        exact iff_of_false (by simp) (fun h => h ⟨hpolicy.symm, by omega, hnone⟩)
  . rw [List.find?_cons_of_neg (by simpa using hpolicy)] at hfound
    rw [hfound]
    dsimp only
    rw [if_neg (Ne.symm hpolicy)]
    exact iff_of_true rfl (fun h => hpolicy h.1.symm)

end

end BottleIter

/-!
A chain of headers of one policy, a minute apart and told apart by their proofs.
-/

namespace HeaderDb
namespace Sample

def proof (i : Nat) : Proof :=
  .randomX ⟨[UInt8.ofNat (i / 256), UInt8.ofNat i] ++ List.replicate 30 1, rfl⟩

def header (i : Nat) : BlockHeader where
  version := Global.currentHeaderVersion
  height := UInt64.ofNat i
  prevHash := ⟨[]⟩
  prevRoot := ⟨[]⟩
  timestamp := .whole (60 * ((i % 65536 : Nat) : Int)) (by omega) (by omega)
  outputRoot := ⟨[]⟩
  rangeProofRoot := ⟨[]⟩
  kernelRoot := ⟨[]⟩
  totalKernelOffset := .zero
  outputMmrSize := 0
  kernelMmrSize := 0
  pow := ⟨.fromNum (UInt64.ofNat (i + 1)), 13, 0, proof i, .replicate 32 0⟩
  policy := 0
  bottles := Feijoada.getBottlesDefault

def child (env : Env) (i : Nat) : BlockHeader :=
  { header (i + 1) with prevHash := (header i).hash env }

def link (env : Env) (i : Nat) : BlockHeader :=
  match i with
  | 0 => header 0
  | i + 1 => child env i

def chain (env : Env) (n : Nat) : List BlockHeader :=
  match n with
  | 0 => [link env 0]
  | n + 1 => link env (n + 1) :: chain env n

def db (env : Env) (n : Nat) : HeaderDb := (chain env n).foldr (fun h db => db.saveBlockHeader env h) ∅

structure Numbered (i : Nat) (h : BlockHeader) : Prop where
  bound : i < 65536
  version : h.version = Global.currentHeaderVersion
  proof : h.pow.proof = proof i

theorem numbered_header (hi : i < 65536)
    : Numbered i (header i) := ⟨hi, rfl, rfl⟩

section

variable {env : Env} (hinj : Function.Injective env.blake2b)
include hinj

theorem Numbered.hash_ne (hi : Numbered i h) (hj : Numbered j h')
    (hne : i ≠ j)
    : h.hash env ≠ h'.hash env := by
  intro heq
  have hbytes := hinj heq
  simp only [BlockHeader.write, ProofOfWork.write, hi.version, hi.proof, hj.version, hj.proof] at hbytes
  have hhi : UInt8.ofNat (i / 256) = UInt8.ofNat (j / 256) :=
    Option.some.inj (congrArg (fun bytes => bytes[3]?) hbytes)
  have hlo : UInt8.ofNat i = UInt8.ofNat j :=
    Option.some.inj (congrArg (fun bytes => bytes[4]?) hbytes)
  have hhi := congrArg UInt8.toNat hhi
  have hlo := congrArg UInt8.toNat hlo
  have hboundi := hi.bound
  have hboundj := hj.bound
  simp only [UInt8.toNat_ofNat'] at hhi hlo
  omega

theorem lookup_db (hn : n < 65536) (hi : i ≤ n)
    : (db env n).getBlockHeader ((header i).hash env) = some (link env i) := by
  induction n with
  | zero =>
    obtain rfl : i = 0 := by omega
    exact AList.lookup_insert _
  | succ n ih =>
    rcases Nat.lt_or_eq_of_le hi with hlt | rfl
    . rw [← ih (by omega) (by omega)]
      apply AList.lookup_insert_ne
      exact (numbered_header (by omega)).hash_ne hinj ⟨hn, rfl, rfl⟩ (by omega)
    . exact AList.lookup_insert _

end

theorem ancestors_of_lookup {db : HeaderDb}
    (hlookup : ∀ i ≤ n, db.getBlockHeader ((header i).hash env) = some (link env i))
    {h : BlockHeader} (hprev : h.prevHash = (header n).hash env)
    : db.ancestors (n + 1) h = chain env n := by
  have hlink : db.getPreviousHeader h = some (link env n) := by
    rw [getPreviousHeader, hprev, hlookup n (Nat.le_refl n)]
  induction n generalizing h with
  | zero =>
    rw [ancestors, hlink]
    rfl
  | succ n ih =>
    rw [ancestors, hlink]
    have hnext : db.getPreviousHeader (link env (n + 1)) = some (link env n) := hlookup n (by omega)
    exact congrArg (link env (n + 1) :: ·) (ih (fun i hi => hlookup i (by omega)) rfl hnext)

theorem policy_link (env : Env) (i : Nat)
    : (link env i).policy = 0 := by
  cases i <;> rfl

theorem length_chain (env : Env) (n : Nat)
    : (chain env n).length = n + 1 := by
  induction n with
  | zero => rfl
  | succ n ih => rw [chain, List.length_cons, ih]

theorem exists_of_mem_chain (hmem : h ∈ chain env n)
    : ∃ i ≤ n, h = link env i := by
  induction n with
  | zero => exact ⟨0, Nat.le_refl _, List.mem_singleton.mp hmem⟩
  | succ n ih =>
    rcases List.mem_cons.mp hmem with rfl | hmem
    . exact ⟨n + 1, Nat.le_refl _, rfl⟩
    . obtain ⟨i, hi, rfl⟩ := ih hmem
      exact ⟨i, by omega, rfl⟩

end Sample
end HeaderDb

namespace BottleIter
namespace Sample

open HeaderDb.Sample

def env : Env := Transparent.env .mainnet

theorem injective_env
    : Function.Injective env.blake2b := fun _ _ h => Hash.mk.inj h

def change (n : Nat) : BlockHeader :=
  { child env n with
    policy := 1
    bottles := ⟨some 0, some 0, some 1, some 0⟩ }

def changed (n : Nat) : HeaderDb := (db env n).saveBlockHeader env (change n)

theorem ancestors_change (hn : n < 65535)
    : (changed n).ancestors (n + 1) (change n) = chain env n := by
  apply ancestors_of_lookup
  . intro i hi
    rw [← lookup_db injective_env (by omega) hi]
    apply AList.lookup_insert_ne
    exact (numbered_header (by omega)).hash_ne injective_env (j := n + 1) ⟨by omega, rfl, rfl⟩ (by omega)
  . rfl

end Sample

open Sample HeaderDb.Sample in
theorem first_eq_nearest_iff_change
    : first (changed 3) ((change 3).hash env) 1 = some (change 3).bottles
        ↔
      ¬ ((change 3).policy = 1
        ∧ ((changed 3).ancestors limitSearch (change 3)).length = limitSearch
        ∧ ∀ prev ∈ (changed 3).ancestors limitSearch (change 3), prev.policy ≠ 1) :=
  first_eq_nearest_iff (AList.lookup_insert _) rfl

-- two hundred headers of another policy come before the change
open Sample HeaderDb.Sample in
theorem own_bottles_not_found
    : (changed 199).getBlockHeader ((change 199).hash env) = some (change 199)
        ∧ (change 199).policy = 1
        ∧ nearest (changed 199) 1 (change 199) = some (change 199)
        ∧ first (changed 199) ((change 199).hash env) 1 = none := by
  have hstart : (changed 199).getBlockHeader ((change 199).hash env) = some (change 199) :=
    AList.lookup_insert _
  have hancestors : (changed 199).ancestors limitSearch (change 199) = chain env 199 :=
    ancestors_change (by omega)
  have hnone : (chain env 199).find? (fun prev => 1 = prev.policy) = none := by
    rw [List.find?_eq_none]
    intro h hmem
    obtain ⟨i, -, rfl⟩ := exists_of_mem_chain hmem
    rw [policy_link]
    decide
  refine ⟨hstart, rfl, List.find?_cons_of_pos rfl, ?_⟩
  rw [first_eq hstart, search_eq, hancestors, hnone, length_chain]
  rfl

end BottleIter
end Epic
