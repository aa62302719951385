import Epic.P2p.Msg

/-!
This module contains the handshake of two peers: each tells the other what it is, and a node that
connects to itself recognizes one of the nonces it has drawn.
-/

namespace Epic

open Msg

def nonceCap : Nat := 100

def addrsCap : Nat := 10

def protocolVersion : UInt32 := 1

def userAgent : String := "MW/Epic 1.0.0"

-- what the handshake and the requests of a node can fail with, `send` is an error of the connection
inductive P2pError where
  | connectionClose
  | timeout
  | peerWithSelf
  | genesisMismatch (us peer : Hash)
  | send (msg : String)
  | peerException
  | internal
deriving DecidableEq

inductive Direction where
  | inbound
  | outbound
deriving DecidableEq

structure PeerInfo where
  capabilities : UInt32
  userAgent : String
  version : UInt32
  addr : PeerAddr
  totalDifficulty : Difficulty
  direction : Direction
deriving DecidableEq

structure P2PConfig where
  peersAllow : Option (List PeerAddr)
  peersDeny : Option (List PeerAddr)

def P2PConfig.isDenied (config : P2PConfig) (addr : PeerAddr) : Bool :=
  (config.peersDeny.getD []).any (·.eq addr)
    || config.peersAllow.any fun allowed => !allowed.any (·.eq addr)

-- push_back on a queue that is cut at the front once it has cap elements
def pushRing {α : Type} (cap : Nat) (queue : List α) (a : α) : List α :=
  let queue := queue ++ [a]
  if cap ≤ queue.length then queue.tail else queue

theorem foldl_pushRing {α : Type} (cap : Nat) (l : List α)
    : l.foldl (pushRing (cap + 1)) [] = l.drop (l.length - cap) := by
  induction l using List.reverseRecOn with
  | nil => rw [List.drop_nil, List.foldl_nil]
  | append_singleton l a ih =>
    have happend : l.drop (l.length - cap) ++ [a] = (l ++ [a]).drop (l.length - cap) := by
      rw [List.drop_append_of_le_length (Nat.sub_le _ _)]
    rw [List.foldl_append, ih, List.foldl_cons, List.foldl_nil]
    unfold pushRing
    dsimp only
    rw [happend, List.length_drop, List.length_append, List.length_singleton]
    split
    . rw [List.tail_drop]
      congr 1
      omega
    . congr 1
      omega

structure Handshake where
  nonces : List UInt64
  addrs : List PeerAddr
  genesis : Hash
  config : P2PConfig

namespace Handshake

def new (genesis : Hash) (config : P2PConfig) : Handshake := ⟨[], [], genesis, config⟩

def nextNonce (h : Handshake) (nonce : UInt64) : Handshake :=
  { h with nonces := pushRing nonceCap h.nonces nonce }

structure Offer where
  capabilities : UInt32
  totalDifficulty : Difficulty

-- the connection knows the address it comes from, but not the port the peer listens on
def resolvePeerAddr (advertised : PeerAddr) (conn : Option SocketAddr) : PeerAddr :=
  match conn with
  | some addr => ⟨addr.ip, advertised.addr.port, 0, 0⟩
  | none => advertised

def accept (h : Handshake) (offer : Offer) (conn : Option SocketAddr) (hand : Hand)
    : Except P2pError (PeerInfo × Shake) × Handshake :=
  let addr := resolvePeerAddr hand.senderAddr conn
  if hand.genesis ≠ h.genesis then
    (.error (.genesisMismatch h.genesis hand.genesis), h)
  else if h.nonces.contains hand.nonce then
    (.error .peerWithSelf, { h with addrs := pushRing addrsCap h.addrs addr })
  else if h.config.isDenied addr then
    (.error .connectionClose, h)
  else
    (.ok (⟨hand.capabilities, hand.userAgent, hand.version, addr, hand.totalDifficulty, .inbound⟩,
      ⟨protocolVersion, offer.capabilities, h.genesis, offer.totalDifficulty, userAgent⟩), h)

-- the answer is never too long for its message
theorem bounded_accept {ct : ChainTypes} {hs : Handshake}
    (h : (hs.accept offer conn hand).1 = .ok (info, shake))
    : (Message.shake shake).Bounded ct := by
  have hagent : shake.userAgent = userAgent := by
    unfold accept at h
    dsimp only at h
    split_ifs at h
    obtain ⟨-, rfl⟩ := Prod.mk.inj (Except.ok.inj h)
    rfl
  have hle := shake.totalDifficulty.num.length_entries_le
  have hlength : userAgent.toUTF8.toList.length = 13 := by decide +kernel
  rw [Message.Bounded, hagent, hlength]
  omega

inductive Event where
  | initiate (nonce : UInt64)
  | accept (offer : Offer) (conn : Option SocketAddr) (hand : Hand)

def Event.apply (h : Handshake) (event : Event) : Handshake :=
  match event with
  | .initiate nonce => h.nextNonce nonce
  | .accept offer conn hand => (h.accept offer conn hand).2

def Event.nonce? (event : Event) : Option UInt64 :=
  match event with
  | .initiate nonce => some nonce
  | .accept _ _ _ => none

def run (h : Handshake) (events : List Event) : Handshake := events.foldl Event.apply h

theorem accept_frame (h : Handshake) (offer : Offer) (conn : Option SocketAddr) (hand : Hand)
    : (h.accept offer conn hand).2.nonces = h.nonces
        ∧
      (h.accept offer conn hand).2.genesis = h.genesis := by
  unfold accept
  dsimp only
  split_ifs <;> exact ⟨rfl, rfl⟩

theorem run_nonces (h : Handshake) (events : List Event)
    : (h.run events).nonces = (events.filterMap Event.nonce?).foldl (pushRing nonceCap) h.nonces
        ∧
      (h.run events).genesis = h.genesis := by
  induction events generalizing h with
  | nil => exact ⟨rfl, rfl⟩
  | cons event events ih =>
    obtain ⟨hnonces, hgenesis⟩ := ih (event.apply h)
    cases event with
    | initiate nonce => exact ⟨hnonces, hgenesis⟩
    | accept offer conn hand =>
      obtain ⟨hframe, hsame⟩ := accept_frame h offer conn hand
      exact ⟨hnonces.trans (by rw [Event.apply, hframe]; rfl), hgenesis.trans hsame⟩

theorem accept_eq_peerWithSelf {h : Handshake} {hand : Hand}
    : (h.accept offer conn hand).1 = .error .peerWithSelf
        ↔
      hand.genesis = h.genesis ∧ hand.nonce ∈ h.nonces := by
  unfold accept
  dsimp only
  split_ifs <;> simp_all

-- the last 99 nonces are remembered, one less than the capacity
theorem peerWithSelf_iff_recent (genesis : Hash) (config : P2PConfig) (events : List Event)
    (offer : Offer) (conn : Option SocketAddr) (hand : Hand)
    : (((new genesis config).run events).accept offer conn hand).1 = .error .peerWithSelf
        ↔
      hand.genesis = genesis
        ∧ hand.nonce ∈ (events.filterMap Event.nonce?).drop
            ((events.filterMap Event.nonce?).length - 99) := by
  obtain ⟨hnonces, hgenesis⟩ := run_nonces (new genesis config) events
  rw [accept_eq_peerWithSelf, hnonces, hgenesis]
  exact and_congr_right fun _ => by rw [← foldl_pushRing 99]; rfl

end Handshake

end Epic
