import Epic.P2p.Types
import Mathlib.Data.List.Dedup

/-!
This module contains the map of the peers a node knows to be connected, and how it is cleaned. Peers that
are banned or misbehave are removed, and others if there are still too many. How many others is computed
from the number of connected peers and the number of peers to be removed, some of which may not be
connected.
-/

namespace Epic

namespace Peer

inductive State where
  | connected
  | banned
deriving DecidableEq, Repr

def maxPeerMsgPerMin : UInt64 := 500

end Peer

-- what is read of a peer when the map is cleaned
structure Peer where
  addr : PeerAddr
  state : Peer.State
  receivedPerMin : UInt64
  sentPerMin : UInt64
  stuckDetector : Int
  totalDifficulty : Difficulty
deriving DecidableEq

namespace Peer

def stuckPeerKickTime : Int := 2 * 3600 * 1000

def isConnected (p : Peer) : Bool := p.state = .connected

def isBanned (p : Peer) : Bool := p.state = .banned

def isStuck (p : Peer) (now : Int) : Bool × Difficulty :=
  (decide (now > p.stuckDetector + stuckPeerKickTime), p.totalDifficulty)

def isAbusive (p : Peer) : Bool := p.receivedPerMin > maxPeerMsgPerMin || p.sentPerMin > maxPeerMsgPerMin

end Peer

-- a map from the addresses of the peers, no two of them are the same peer
structure Peers where
  peers : List Peer
  nodup : (peers.map (·.addr.key)).Nodup

namespace Peers

def connected (ps : Peers) : List Peer := ps.peers.filter (·.isConnected)

def remove (ps : Peers) (addr : PeerAddr) : Peers where
  peers := ps.peers.filter fun p => !p.addr.eq addr
  nodup := ps.nodup.sublist (List.filter_sublist.map _)

-- the total difficulty is asked from the chain, which may fail
def isCleanedUp (now : Int) (totalDifficulty : Option Difficulty) (p : Peer) : Bool :=
  if p.isBanned then
    true
  else if !p.isConnected then
    true
  else if p.isAbusive then
    true
  else
    let (stuck, diff) := p.isStuck now
    match totalDifficulty with
    | some totalDifficulty => stuck && decide (diff.total < totalDifficulty.total)
    | none => false

-- the peers are counted in 32 bits
def peerCount (ps : Peers) : Nat := ps.connected.length % 2 ^ 32

def excessCount (ps : Peers) (rm : List PeerAddr) (maxCount : Nat) : Nat :=
  ps.peerCount - rm.length - maxCount

-- the connected peers are listed in a random order
def cleanPeers (now : Int) (totalDifficulty : Option Difficulty) (shuffle : List Peer → List Peer)
    (maxCount : Nat) (ps : Peers)
    : Peers :=
  let rm := (ps.peers.filter (isCleanedUp now totalDifficulty)).map (·.addr)
  let addrs := ((shuffle ps.connected).take (ps.excessCount rm maxCount)).map (·.addr)
  (rm ++ addrs).foldl remove ps

section

variable {now : Int} {totalDifficulty : Option Difficulty} {shuffle : List Peer → List Peer} {maxCount : Nat}
  {ps : Peers}

theorem peers_foldl_remove (rm : List PeerAddr) (ps : Peers)
    : (rm.foldl remove ps).peers = ps.peers.filter fun p => !rm.any p.addr.eq := by
  induction rm generalizing ps with
  | nil => simp
  | cons addr rm ih =>
    rw [List.foldl_cons, ih]
    simp only [remove, List.filter_filter, List.any_cons, Bool.not_or, Bool.and_comm]

theorem any_eq_iff (victims : List Peer) (hsub : ∀ p ∈ victims, p ∈ ps.peers) {p : Peer} (hp : p ∈ ps.peers)
    : (victims.map (·.addr)).any p.addr.eq = true ↔ p ∈ victims := by
  rw [List.any_eq_true]
  constructor
  . rintro ⟨addr, haddr, heq⟩
    obtain ⟨q, hq, rfl⟩ := List.mem_map.mp haddr
    rw [PeerAddr.eq_iff_key] at heq
    rwa [List.inj_on_of_nodup_map ps.nodup hp (hsub q hq) heq]
  . intro h
    exact ⟨p.addr, List.mem_map_of_mem h, PeerAddr.eq_iff_key.mpr rfl⟩

theorem nodup_peers (ps : Peers)
    : ps.peers.Nodup := ps.nodup.of_map

-- the peers that are listed first, as many as seem to be too many
def victims (now : Int) (totalDifficulty : Option Difficulty) (shuffle : List Peer → List Peer)
    (maxCount : Nat) (ps : Peers)
    : List Peer :=
  (shuffle ps.connected).take (ps.connected.length
    - (ps.peers.filter (isCleanedUp now totalDifficulty)).length - maxCount)

theorem mem_peers_of_mem_victims (hshuffle : ∀ l, (shuffle l).Perm l)
    (hp : p ∈ ps.victims now totalDifficulty shuffle maxCount)
    : p ∈ ps.connected := (hshuffle ps.connected).mem_iff.mp (List.mem_of_mem_take hp)

theorem nodup_victims (hshuffle : ∀ l, (shuffle l).Perm l)
    : (ps.victims now totalDifficulty shuffle maxCount).Nodup :=
  ((hshuffle ps.connected).nodup_iff.mpr (ps.nodup_peers.filter _)).sublist (List.take_sublist _ _)

theorem connected_cleanPeers (hshuffle : ∀ l, (shuffle l).Perm l) (hcount : ps.connected.length < 2 ^ 32)
    : (cleanPeers now totalDifficulty shuffle maxCount ps).connected
        =
      (ps.connected.filter fun p => !isCleanedUp now totalDifficulty p).filter
        fun p => p ∉ ps.victims now totalDifficulty shuffle maxCount := by
  have haddrs : (shuffle ps.connected).take (ps.excessCount
      ((ps.peers.filter (isCleanedUp now totalDifficulty)).map (·.addr)) maxCount)
        = ps.victims now totalDifficulty shuffle maxCount := by
    rw [excessCount, peerCount, Nat.mod_eq_of_lt hcount, List.length_map]
    rfl
  unfold cleanPeers
  rw [connected, peers_foldl_remove, haddrs, connected]
  simp only [List.filter_filter]
  apply List.filter_congr
  intro p hp
  have hvictim := any_eq_iff (ps.victims now totalDifficulty shuffle maxCount)
    (fun q hq => (List.mem_filter.mp (mem_peers_of_mem_victims hshuffle hq)).1) hp
  have hbad := any_eq_iff (ps.peers.filter (isCleanedUp now totalDifficulty))
    (fun q hq => (List.mem_filter.mp hq).1) hp
  rw [List.mem_filter, and_iff_right hp] at hbad
  rw [List.any_append, Bool.eq_iff_iff.mpr hbad, Bool.eq_iff_iff.mpr (hvictim.trans decide_eq_true_iff.symm)]
  simp only [Bool.not_or, decide_not, Bool.and_assoc, Bool.and_comm]

variable (now totalDifficulty maxCount) in
theorem length_connected_cleanPeers (hshuffle : ∀ l, (shuffle l).Perm l)
    (hcount : ps.connected.length < 2 ^ 32)
    : (cleanPeers now totalDifficulty shuffle maxCount ps).connected.length
          + (ps.victims now totalDifficulty shuffle maxCount).countP
            (fun p => !isCleanedUp now totalDifficulty p)
        =
      ps.connected.countP fun p => !isCleanedUp now totalDifficulty p := by
  have hsplit := List.length_eq_length_filter_add
    (l := ps.connected.filter fun p => !isCleanedUp now totalDifficulty p)
    (fun p => decide (p ∈ ps.victims now totalDifficulty shuffle maxCount))
  have hperm : ((ps.victims now totalDifficulty shuffle maxCount).filter
      fun p => !isCleanedUp now totalDifficulty p).Perm
        ((ps.connected.filter fun p => !isCleanedUp now totalDifficulty p).filter
          fun p => decide (p ∈ ps.victims now totalDifficulty shuffle maxCount)) := by
    apply (List.perm_ext_iff_of_nodup ((nodup_victims hshuffle).filter _)
      (((ps.nodup_peers.filter _).filter _).filter _)).mpr
    intro p
    simp only [List.mem_filter, decide_eq_true_eq]
    constructor
    . rintro ⟨hp, hgood⟩
      exact ⟨⟨List.mem_filter.mp (mem_peers_of_mem_victims hshuffle hp), hgood⟩, hp⟩
    . rintro ⟨⟨-, hgood⟩, hp⟩
      exact ⟨hp, hgood⟩
  rw [connected_cleanPeers hshuffle hcount, List.countP_eq_length_filter, List.countP_eq_length_filter,
    hperm.length_eq]
  simp only [decide_not]
  omega

-- Let the connected peers be counted by those that are cleaned up and those that are not. If there are too
-- many of the latter, the number of victims makes up for it only if nothing is counted twice.
theorem connected_cleanPeers_le_iff (hshuffle : ∀ l, (shuffle l).Perm l)
    (hcount : ps.connected.length < 2 ^ 32)
    : (cleanPeers now totalDifficulty shuffle maxCount ps).connected.length ≤ maxCount
        ↔
      (ps.connected.countP fun p => !isCleanedUp now totalDifficulty p) ≤ maxCount
        ∨
      ((∀ p ∈ ps.peers, isCleanedUp now totalDifficulty p → p.isConnected)
        ∧ ∀ p ∈ (shuffle ps.connected).take (ps.connected.length
            - ps.peers.countP (isCleanedUp now totalDifficulty) - maxCount),
          isCleanedUp now totalDifficulty p = false) := by
  have hlength := length_connected_cleanPeers now totalDifficulty maxCount hshuffle hcount
  have hvictims : ps.victims now totalDifficulty shuffle maxCount
      = (shuffle ps.connected).take (ps.connected.length
        - ps.peers.countP (isCleanedUp now totalDifficulty) - maxCount) := by
    rw [victims, List.countP_eq_length_filter]
  have hlen : (ps.victims now totalDifficulty shuffle maxCount).length = ps.connected.length
      - ps.peers.countP (isCleanedUp now totalDifficulty) - maxCount := by
    rw [hvictims, List.length_take, (hshuffle ps.connected).length_eq]
    omega
  have hconnected : ps.connected.length = _ := List.length_eq_countP_add_countP (isCleanedUp now totalDifficulty)
  have hlisted : (ps.victims now totalDifficulty shuffle maxCount).length = _ :=
    List.length_eq_countP_add_countP (isCleanedUp now totalDifficulty)
  have hremoved := List.countP_eq_countP_filter_add ps.peers (isCleanedUp now totalDifficulty)
    (·.isConnected)
  have hstray : (∀ p ∈ ps.peers, isCleanedUp now totalDifficulty p → p.isConnected)
      ↔ (ps.peers.filter fun p => ¬ p.isConnected).countP (isCleanedUp now totalDifficulty) = 0 := by
    rw [List.countP_eq_zero]
    simp only [List.mem_filter, decide_eq_true_eq, and_imp]
    exact forall₂_congr fun p _ => not_imp_not.symm
  have hfree : (∀ p ∈ ps.victims now totalDifficulty shuffle maxCount,
        isCleanedUp now totalDifficulty p = false)
      ↔ (ps.victims now totalDifficulty shuffle maxCount).countP (isCleanedUp now totalDifficulty) = 0 := by
    rw [List.countP_eq_zero]
    simp only [Bool.not_eq_true]
  rw [← hvictims, hstray, hfree]
  simp only [Bool.not_eq_true, Bool.decide_eq_false] at hconnected hlisted hremoved ⊢
  rw [← connected] at hremoved
  omega

end

namespace Sample

def peer (host : UInt8) (state : Peer.State) (received : UInt64) : Peer where
  addr := ⟨⟨.v4 ⟨[10, 0, 0, host], rfl⟩, 3414, 0, 0⟩⟩
  state := state
  receivedPerMin := received
  sentPerMin := 0
  stuckDetector := 0
  totalDifficulty := .zero

def healthy : Peers := ⟨[peer 1 .connected 0, peer 2 .connected 0, peer 3 .connected 0], by decide⟩

-- one of the peers is banned, the other two are one too many
def oneBanned : Peers := ⟨[peer 1 .connected 0, peer 2 .banned 0, peer 3 .connected 0], by decide⟩

-- the abusive peer is listed first, so that it is removed twice
def oneAbusive : Peers :=
  ⟨[peer 1 .connected 501, peer 2 .connected 0, peer 3 .connected 0], by decide⟩

end Sample

theorem connected_cleanPeers_le_healthy
    : (cleanPeers 0 none List.reverse 2 Sample.healthy).connected.length ≤ 2 :=
  (connected_cleanPeers_le_iff (fun l => l.reverse_perm) (by decide)).mpr (.inr (by decide))

theorem cleanPeers_leaves_too_many
    : (cleanPeers 0 none id 1 Sample.oneBanned).connected.length = 2
        ∧
      (cleanPeers 0 none id 1 Sample.oneAbusive).connected.length = 2 := by
  decide

end Peers

end Epic
