import Epic.Core.Ser.Writer

/-!
This module contains the addresses of peers. Two addresses are the same peer if they have the same ip,
and the same port on the loopback interface.
-/

namespace Epic

open Ser

def maxBlockHeaders : Nat := 512

def maxPeerAddrs : Nat := 256

def maxLocators : Nat := 20

inductive IpAddr where
  | v4 (octets : List.Vector UInt8 4)
  | v6 (segments : List.Vector UInt16 8)
deriving DecidableEq

def IpAddr.isLoopback (ip : IpAddr) : Bool :=
  match ip with
  | .v4 octets => octets.head = 127
  | .v6 segments => segments.toList = [0, 0, 0, 0, 0, 0, 0, 1]

-- an address of the sixth version also has a flow and a scope
structure SocketAddr where
  ip : IpAddr
  port : UInt16
  flowinfo : UInt32
  scopeId : UInt32
deriving DecidableEq

structure PeerAddr where
  addr : SocketAddr
deriving DecidableEq

namespace PeerAddr

def write (a : PeerAddr) : List UInt8 :=
  match a.addr.ip with
  | .v4 octets => writeU8 0 ++ octets.toList ++ writeU16 a.addr.port
  | .v6 segments => writeU8 1 ++ segments.toList.flatMap writeU16 ++ writeU16 a.addr.port

def eq (a other : PeerAddr) : Bool :=
  if a.addr.ip.isLoopback then a.addr = other.addr else a.addr.ip = other.addr.ip

def key (a : PeerAddr) : IpAddr × Option SocketAddr :=
  (a.addr.ip, if a.addr.ip.isLoopback then some a.addr else none)

theorem eq_iff_key {a other : PeerAddr}
    : a.eq other = true ↔ a.key = other.key := by
  unfold eq key
  rw [Prod.mk.injEq]
  split
  . next hloop =>
    rw [decide_eq_true_iff]
    constructor
    . intro h
      rw [← h, if_pos hloop]
      exact ⟨rfl, rfl⟩
    . rintro ⟨hip, h⟩
      rw [← hip, if_pos hloop, Option.some.injEq] at h
      exact h
  . next hloop =>
    rw [decide_eq_true_iff]
    constructor
    . intro h
      rw [← h, if_neg hloop]
      exact ⟨rfl, rfl⟩
    . exact And.left

end PeerAddr

end Epic
