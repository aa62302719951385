import Epic.Core.Block.Compact
import Epic.Core.Ser.Header
import Epic.Core.Ser.Transaction
import Epic.P2p.Types

/-!
This module contains the messages between peers: how they are written, with a header that gives the type
and the length of the body, and how large a body the other side accepts.
-/

namespace Epic

open Routine Ser Codec

namespace Msg

inductive MsgType where
  | error
  | hand
  | shake
  | ping
  | pong
  | getPeerAddrs
  | peerAddrs
  | getHeaders
  | header
  | headers
  | getBlock
  | block
  | getCompactBlock
  | compactBlock
  | stemTransaction
  | transaction
  | txHashSetRequest
  | txHashSetArchive
  | banReason
  | getTransaction
  | transactionKernel
  | kernelDataRequest
  | kernelDataResponse
deriving DecidableEq, Repr

namespace MsgType

def all : List MsgType :=
  [error, hand, shake, ping, pong, getPeerAddrs, peerAddrs, getHeaders, header, headers, getBlock, block,
    getCompactBlock, compactBlock, stemTransaction, transaction, txHashSetRequest, txHashSetArchive, banReason,
    getTransaction, transactionKernel, kernelDataRequest, kernelDataResponse]

-- the types are numbered in the order they are listed
def toU8 (msgType : MsgType) : UInt8 := UInt8.ofNat (all.idxOf msgType)

def fromU8 (t : UInt8) : Option MsgType := all[t.toNat]?

theorem fromU8_toU8 (msgType : MsgType)
    : fromU8 msgType.toU8 = some msgType := by
  cases msgType <;> rfl

end MsgType

-- a block filled with outputs
def maxBlockSize (ct : ChainTypes) : Nat :=
  (Global.maxBlockWeight ct / Consensus.blockOutputWeight * 708).toNat

def defaultMaxMsgSize (ct : ChainTypes) : Nat := maxBlockSize ct

def maxMsgSize (ct : ChainTypes) (msgType : MsgType) : Nat :=
  match msgType with
  | .error => 0
  | .hand => 128
  | .shake => 88
  | .ping => 16
  | .pong => 16
  | .getPeerAddrs => 4
  | .peerAddrs => 4 + (1 + 16 + 2) * maxPeerAddrs
  | .getHeaders => 1 + 32 * maxLocators
  | .header => 365
  | .headers => 2 + 365 * maxBlockHeaders
  | .getBlock => 32
  | .block => maxBlockSize ct
  | .getCompactBlock => 32
  | .compactBlock => maxBlockSize ct / 10
  | .stemTransaction => maxBlockSize ct
  | .transaction => maxBlockSize ct
  | .txHashSetRequest => 40
  | .txHashSetArchive => 64
  | .banReason => 64
  | .getTransaction => 32
  | .transactionKernel => 32
  | .kernelDataRequest => 0
  | .kernelDataResponse => 8

def magic (ct : ChainTypes) : UInt8 × UInt8 :=
  match ct with
  | .floonet => (83, 59)
  | .mainnet => (97, 61)
  | _ => (73, 43)

structure MsgHeader where
  magic : UInt8 × UInt8
  msgType : MsgType
  msgLen : UInt64
deriving DecidableEq

namespace MsgHeader

def new (ct : ChainTypes) (msgType : MsgType) (len : UInt64) : MsgHeader := ⟨Msg.magic ct, msgType, len⟩

def write (h : MsgHeader) : List UInt8 :=
  writeU8 h.magic.1 ++ writeU8 h.magic.2 ++ writeU8 h.msgType.toU8 ++ writeU64 h.msgLen

end MsgHeader

inductive MsgHeaderWrapper where
  | known (header : MsgHeader)
  | unknown (msgLen : UInt64)
deriving DecidableEq

def MsgHeaderWrapper.read (env : Env) (kind : ReaderKind) : Read MsgHeaderWrapper := do
  let m := magic env.chainType
  let _ ← expectU8 env kind m.1
  let _ ← expectU8 env kind m.2
  let t ← readU8 env kind
  let msgLen ← readU64 env kind
  match MsgType.fromU8 t with
  | some msgType =>
    let maxLen := maxMsgSize env.chainType msgType * 4
    .lift (.require (¬ msgLen.toNat > maxLen) .tooLargeReadErr)
    return .known ⟨m, msgType, msgLen⟩
  | none =>
    let maxLen := defaultMaxMsgSize env.chainType * 4
    .lift (.require (¬ msgLen.toNat > maxLen) .tooLargeReadErr)
    return .unknown msgLen

def writeToBuf (ct : ChainTypes) (body : List UInt8) (msgType : MsgType) : List UInt8 :=
  (MsgHeader.new ct msgType (UInt64.ofNat body.length)).write ++ body

structure Hand where
  version : UInt32
  capabilities : UInt32
  nonce : UInt64
  genesis : Hash
  totalDifficulty : Difficulty
  senderAddr : PeerAddr
  receiverAddr : PeerAddr
  userAgent : String
deriving DecidableEq

def Hand.write (h : Hand) : List UInt8 :=
  writeU32 h.version
    ++ writeU32 h.capabilities
    ++ writeU64 h.nonce
    ++ h.totalDifficulty.write
    ++ h.senderAddr.write
    ++ h.receiverAddr.write
    ++ writeBytes h.userAgent.toUTF8.toList
    ++ h.genesis.write

structure Shake where
  version : UInt32
  capabilities : UInt32
  genesis : Hash
  totalDifficulty : Difficulty
  userAgent : String
deriving DecidableEq

def Shake.write (s : Shake) : List UInt8 :=
  writeU32 s.version
    ++ writeU32 s.capabilities
    ++ s.totalDifficulty.write
    ++ writeBytes s.userAgent.toUTF8.toList
    ++ s.genesis.write

structure Ping where
  totalDifficulty : Difficulty
  height : UInt64
  localTimestamp : Int64
deriving DecidableEq

def Ping.write (p : Ping) : List UInt8 :=
  p.totalDifficulty.write ++ writeU64 p.height ++ writeI64 p.localTimestamp.toInt

def writeHeaders (ct : ChainTypes) (headers : List BlockHeader) : List UInt8 :=
  writeU16 (UInt16.ofNat headers.length) ++ headers.flatMap (·.write ct .full)

inductive Message where
  | hand (h : Hand)
  | shake (s : Shake)
  | ping (p : Ping)
  | pong (p : Ping)
  | header (h : BlockHeader)
  | headers (hs : List BlockHeader)
  | block (b : Block)
  -- the compact block that is made from a block, with a nonce
  | compactBlock (b : Block) (nonce : UInt64)
  | stemTransaction (tx : Transaction)
  | transaction (tx : Transaction)

namespace Message

def type (msg : Message) : MsgType :=
  match msg with
  | hand _ => .hand
  | shake _ => .shake
  | ping _ => .ping
  | pong _ => .pong
  | header _ => .header
  | headers _ => .headers
  | block _ => .block
  | compactBlock _ _ => .compactBlock
  | stemTransaction _ => .stemTransaction
  | transaction _ => .transaction

def body (env : Env) (siphash24 : UInt64 → UInt64 → List UInt8 → UInt64) (msg : Message) : List UInt8 :=
  match msg with
  | hand h => h.write
  | shake s => s.write
  | ping p => p.write
  | pong p => p.write
  | header h => h.write env.chainType .full
  | headers hs => writeHeaders env.chainType hs
  | block b => b.write env.chainType .full
  | compactBlock b nonce => (CompactBlock.fromBlock env siphash24 nonce b).write env.chainType .full
  | stemTransaction tx => tx.write
  | transaction tx => tx.write

-- a header whose proof can be one, with hashes of the digest's length
def ValidHeader (env : Env) (h : BlockHeader) : Prop := h.Sized ∧ h.pow.proof.Encodable env.chainType

-- the buffer of a message with a text of any length can be allocated
def Valid (env : Env) (msg : Message) : Prop :=
  match msg with
  | hand h => h.genesis.bytes.length = 32 ∧ h.write.length + 11 ≤ isizeMax
  | shake s => s.genesis.bytes.length = 32 ∧ s.write.length + 11 ≤ isizeMax
  | ping _ => True
  | pong _ => True
  | header h => ValidHeader env h
  | headers hs => hs.length ≤ maxBlockHeaders ∧ ∀ h ∈ hs, ValidHeader env h
  | block b => ValidHeader env b.header ∧ b.body.verifyWeight env.chainType .asBlock = .ok ()
  | compactBlock b _ => ValidHeader env b.header ∧ b.body.verifyWeight env.chainType .asBlock = .ok ()
  | stemTransaction tx => tx.body.verifyWeight env.chainType .asTransaction = .ok ()
  | transaction tx => tx.body.verifyWeight env.chainType .asTransaction = .ok ()

-- the coinbase outputs and kernels are in the compact block in full, of the other kernels six bytes
def Bounded (ct : ChainTypes) (msg : Message) : Prop :=
  match msg with
  | hand h => 64 + 9 * h.totalDifficulty.num.entries.length + h.senderAddr.write.length
      + h.receiverAddr.write.length + h.userAgent.toUTF8.toList.length ≤ 512
  | shake s => 56 + 9 * s.totalDifficulty.num.entries.length + s.userAgent.toUTF8.toList.length ≤ 352
  | compactBlock b _ => (b.header.write ct .full).length + 32
      + ((b.body.outputs.filter (·.isCoinbase)).map fun o => 42 + o.proof.plen).sum
      + 114 * (b.body.kernels.filter (·.isCoinbase)).length
      + 6 * (b.body.kernels.filter (!·.isCoinbase)).length ≤ maxBlockSize ct / 10 * 4
  | _ => True

end Message

section lengths

theorem length_difficulty (d : Difficulty)
    : d.write.length = 8 + 9 * d.num.entries.length := by
  rw [Difficulty.write_eq, PoWMap.length_writeEntries length_writeU64]

theorem length_output (o : Output)
    : (o.write .full).length = 42 + o.proof.plen := by
  have hle := o.proof.plen_le
  simp [Output.write, writeU8, writeBytes, writeU64, RangeProof.bytes]
  omega

theorem length_outputs (outputs : List Output)
    : (outputs.flatMap (Output.write .full)).length = (outputs.map fun o => 42 + o.proof.plen).sum := by
  rw [List.length_flatMap]
  simp only [length_output]

theorem sum_outputs_le (outputs : List Output)
    : (outputs.map fun o => 42 + o.proof.plen).sum ≤ 717 * outputs.length := by
  induction outputs with
  | nil => simp
  | cons o outputs ih =>
    have hle : o.proof.plen ≤ 675 := o.proof.plen_le
    simp only [List.map_cons, List.sum_cons, List.length_cons]
    omega

theorem length_kernels (kernels : List TxKernel)
    : (kernels.flatMap TxKernel.write).length = 114 * kernels.length := by
  rw [List.length_flatMap]
  simp [TxKernel.write, writeU8, writeU64]
  omega

theorem length_inputs (inputs : List Input)
    : (inputs.flatMap Input.write).length = 34 * inputs.length := by
  rw [List.length_flatMap]
  simp [Input.write, writeU8]
  omega

theorem length_body_le {body : TransactionBody} (hlt : weight < 2 ^ 64 - 1)
    (h : body.bodyWeightAsBlock ≤ weight)
    : body.write.length ≤ 24 + 38 * weight := by
  have hinput : Consensus.blockInputWeight.toNat = 1 := rfl
  have houtput : Consensus.blockOutputWeight.toNat = 21 := rfl
  have hkernel : Consensus.blockKernelWeight.toNat = 3 := rfl
  have hproofs := sum_outputs_le body.outputs
  simp only [TransactionBody.bodyWeightAsBlock, TransactionBody.weightAsBlock, hinput, houtput, hkernel] at h
  simp only [TransactionBody.write, List.length_append, length_writeU64, length_inputs, length_outputs,
    length_kernels]
  omega

theorem length_compactBlock (env : Env) (siphash24 : UInt64 → UInt64 → List UInt8 → UInt64) (b : Block)
    (nonce : UInt64)
    : ((CompactBlock.fromBlock env siphash24 nonce b).write env.chainType .full).length
        = (b.header.write env.chainType .full).length + 32
          + ((b.body.outputs.filter (·.isCoinbase)).map fun o => 42 + o.proof.plen).sum
          + 114 * (b.body.kernels.filter (·.isCoinbase)).length
          + 6 * (b.body.kernels.filter (!·.isCoinbase)).length := by
  have houtputs := (perm_sortByHash (·.hash env) (b.body.outputs.filter (·.isCoinbase))).map fun o => 42 + o.proof.plen
  have hids (ids : List ShortId) : (ids.flatMap (·.toList)).length = 6 * ids.length := by
    rw [List.length_flatMap]
    simp
    omega
  simp only [CompactBlock.write, CompactBlock.fromBlock, CompactBlockBody.write, CompactBlockBody.sort,
    List.length_append, length_writeU64, length_outputs, length_kernels, hids, houtputs.sum_eq,
    (perm_sortByHash _ _).length_eq, List.length_map]
  omega

theorem length_hand {h : Hand} (hgenesis : h.genesis.bytes.length = 32)
    : h.write.length = 64 + 9 * h.totalDifficulty.num.entries.length + h.senderAddr.write.length
        + h.receiverAddr.write.length + h.userAgent.toUTF8.toList.length := by
  simp only [Hand.write, List.length_append, length_difficulty, length_writeU32, length_writeU64, writeBytes,
    Hash.write, hgenesis]
  omega

theorem length_shake {s : Shake} (hgenesis : s.genesis.bytes.length = 32)
    : s.write.length = 56 + 9 * s.totalDifficulty.num.entries.length + s.userAgent.toUTF8.toList.length := by
  simp only [Shake.write, List.length_append, length_difficulty, length_writeU32, length_writeU64, writeBytes,
    Hash.write, hgenesis]
  omega

theorem length_ping_le (p : Ping)
    : p.write.length ≤ 60 := by
  have hle := p.totalDifficulty.num.length_entries_le
  simp only [Ping.write, List.length_append, length_difficulty, length_writeU64, writeI64, Bytes.length_beBytes]
  omega

theorem length_headers_le (h : ∀ h ∈ hs, Message.ValidHeader env h)
    : (writeHeaders env.chainType hs).length ≤ 2 + 681 * hs.length := by
  rw [writeHeaders, List.length_append, List.length_flatMap, writeU16, Bytes.length_beBytes]
  have hsum : (hs.map fun h => (h.write env.chainType .full).length).sum ≤ 681 * hs.length := by
    induction hs with
    | nil => simp
    | cons first hs ih =>
      rw [List.forall_mem_cons] at h
      have hfirst := BlockHeader.length_write_full_le h.1.1 h.1.2
      have hrest := ih h.2
      simp only [List.map_cons, List.sum_cons, List.length_cons]
      omega
  omega

theorem maxBlockSize_cases (ct : ChainTypes)
    : ((Global.maxBlockWeight ct).toNat = 150 ∧ maxBlockSize ct = 4956)
        ∨ ((Global.maxBlockWeight ct).toNat = 40000 ∧ maxBlockSize ct = 1348032) := by
  cases ct
  . exact .inl (by decide)
  . exact .inl (by decide)
  . exact .inr (by decide)
  . exact .inr (by decide)

theorem length_block_le {b : Block} (hheader : Message.ValidHeader env b.header)
    (hweight : b.body.verifyWeight env.chainType .asBlock = .ok ())
    : (b.write env.chainType .full).length ≤ maxBlockSize env.chainType * 4 := by
  rw [TransactionBody.verifyWeight, Outcome.require_eq_ok] at hweight
  have hle := BlockHeader.length_write_full_le hheader.1 hheader.2
  rw [Block.write, List.length_append]
  rcases maxBlockSize_cases env.chainType with ⟨hmax, hsize⟩ | ⟨hmax, hsize⟩
  . have hbody := length_body_le (by omega) hweight
    omega
  . have hbody := length_body_le (by omega) hweight
    omega

theorem length_transaction_le {env : Env} {tx : Transaction}
    (hweight : tx.body.verifyWeight env.chainType .asTransaction = .ok ())
    : tx.write.length ≤ maxBlockSize env.chainType * 4 := by
  rw [TransactionBody.verifyWeight, Outcome.require_eq_ok] at hweight
  rw [Transaction.write, List.length_append, List.Vector.toList_length]
  rcases maxBlockSize_cases env.chainType with ⟨hmax, hsize⟩ | ⟨hmax, hsize⟩
  . have hbody := length_body_le (by omega) hweight
    omega
  . have hbody := length_body_le (by omega) hweight
    omega

theorem length_message_le_iff {msg : Message}
    (h : msg.Valid env)
    : (msg.body env siphash24).length ≤ maxMsgSize env.chainType msg.type * 4 ↔ msg.Bounded env.chainType := by
  cases msg with
  | hand hand => rw [Message.body, length_hand h.1]; rfl
  | shake shake => rw [Message.body, length_shake h.1]; rfl
  | ping ping => exact iff_of_true (Nat.le_trans (length_ping_le ping) (Nat.le_of_ble_eq_true rfl)) trivial
  | pong pong => exact iff_of_true (Nat.le_trans (length_ping_le pong) (Nat.le_of_ble_eq_true rfl)) trivial
  | header header =>
    have hle := BlockHeader.length_write_full_le h.1 h.2
    refine iff_of_true ?_ trivial
    simp only [Message.body, Message.type, maxMsgSize]
    omega
  | headers headers =>
    have hle := length_headers_le h.2
    have hcount := h.1
    refine iff_of_true ?_ trivial
    simp only [Message.body, Message.type, maxMsgSize, maxBlockHeaders] at hcount ⊢
    omega
  | block b => exact iff_of_true (length_block_le h.1 h.2) trivial
  | compactBlock b nonce => rw [Message.body, length_compactBlock]; rfl
  | stemTransaction tx => exact iff_of_true (length_transaction_le h) trivial
  | transaction tx => exact iff_of_true (length_transaction_le h) trivial

theorem maxMsgSize_le (ct : ChainTypes) (msgType : MsgType)
    : maxMsgSize ct msgType ≤ 1348032 := by
  have hsize : maxBlockSize ct ≤ 1348032 := by
    rcases maxBlockSize_cases ct with ⟨-, h⟩ | ⟨-, h⟩ <;> omega
  cases msgType <;> simp only [maxMsgSize, maxBlockHeaders, maxPeerAddrs, maxLocators] <;> omega

theorem length_message_lt {msg : Message}
    (h : msg.Valid env)
    : (msg.body env siphash24).length + 11 < 2 ^ 63 := by
  have hmax := maxMsgSize_le env.chainType msg.type
  have hle : (msg.body env siphash24).length ≤ maxMsgSize env.chainType msg.type * 4
      ↔ msg.Bounded env.chainType := length_message_le_iff h
  cases msg with
  | hand hand => exact Nat.lt_of_le_of_lt h.2 (by decide)
  | shake shake => exact Nat.lt_of_le_of_lt h.2 (by decide)
  | compactBlock b nonce =>
    have hheader := BlockHeader.length_write_full_le h.1.1 h.1.2
    have hcount := TransactionBody.length_le_of_weight env (Outcome.require_eq_ok.mp h.2)
    have hproofs := sum_outputs_le (b.body.outputs.filter (·.isCoinbase))
    have houtputs := List.length_filter_le (·.isCoinbase) b.body.outputs
    have hfull := List.length_filter_le (·.isCoinbase) b.body.kernels
    have hids := List.length_filter_le (!·.isCoinbase) b.body.kernels
    rw [Message.body, length_compactBlock]
    omega
  | _ =>
    have := hle.mpr trivial
    omega

end lengths

section reading

variable (env : Env) (kind : ReaderKind)

theorem decoding_expectU8 (val : UInt8)
    : Decoding (expectU8 env kind val) (writeU8 val) val := by
  rw [← List.append_nil (writeU8 val)]
  apply (decoding_readU8 env kind val).bind
  exact .lift_bind (c := ()) (Outcome.require_eq_ok.mpr rfl) .pure

variable {env kind} {msgType : MsgType} {len : UInt64}

theorem decoding_msgHeader (h : len.toNat ≤ maxMsgSize env.chainType msgType * 4)
    : Decoding (MsgHeaderWrapper.read env kind) (MsgHeader.new env.chainType msgType len).write
        (.known (MsgHeader.new env.chainType msgType len)) := by
  rw [MsgHeader.write, List.append_assoc, List.append_assoc, ← List.append_nil (writeU64 _)]
  apply (decoding_expectU8 env kind _).bind
  apply (decoding_expectU8 env kind _).bind
  apply (decoding_readU8 env kind _).bind
  apply (decoding_readU64 env kind _).bind
  simp only [MsgHeader.new, MsgType.fromU8_toU8]
  exact .lift_bind (c := ()) (Outcome.require_eq_ok.mpr (Nat.not_lt.mpr h)) .pure

theorem refusing_msgHeader (h : ¬ len.toNat ≤ maxMsgSize env.chainType msgType * 4)
    : Refusing (MsgHeaderWrapper.read env kind) (MsgHeader.new env.chainType msgType len).write := by
  rw [MsgHeader.write, List.append_assoc, List.append_assoc, ← List.append_nil (writeU64 _)]
  apply Refuses.bind (decoding_expectU8 env kind _)
  apply Refuses.bind (decoding_expectU8 env kind _)
  apply Refuses.bind (decoding_readU8 env kind _)
  apply Refuses.bind (decoding_readU64 env kind _)
  simp only [MsgHeader.new, MsgType.fromU8_toU8]
  exact .lift_err (Outcome.require_eq_err.mpr ⟨not_not.mpr (Nat.lt_of_not_le h), rfl⟩)

end reading

theorem known_iff_le
    {msg : Message} (hvalid : msg.Valid env)
    : (∃ header rest, MsgHeaderWrapper.read env kind
          ⟨writeToBuf env.chainType (msg.body env siphash24) msg.type, 0⟩ = (.ok (.known header), rest)
        ∧ header.msgType = msg.type ∧ header.msgLen.toNat = (msg.body env siphash24).length
        ∧ rest.bytes = msg.body env siphash24)
        ↔ (msg.body env siphash24).length ≤ maxMsgSize env.chainType msg.type * 4 := by
  have hlt : (msg.body env siphash24).length + 11 < 2 ^ 63 := length_message_lt hvalid
  have hlen : (UInt64.ofNat (msg.body env siphash24).length).toNat = (msg.body env siphash24).length :=
    UInt64.toNat_ofNat_of_lt' (by simp only [UInt64.size]; omega)
  have hfits : Source.Fits ⟨writeToBuf env.chainType (msg.body env siphash24) msg.type, 0⟩ := by
    simp only [Source.Fits, UInt64.toNat_zero, writeToBuf, MsgHeader.write, List.length_append, writeU8,
      List.length_singleton, length_writeU64]
    omega
  constructor
  . rintro ⟨header, rest, hread, -⟩
    by_contra hlarge
    rw [← hlen] at hlarge
    obtain ⟨e, t, hrefused⟩ := refusing_msgHeader hlarge _ _ hfits rfl
    rw [hread] at hrefused
    cases hrefused
  . intro hsmall
    rw [← hlen] at hsmall
    obtain ⟨t, hread, hrest, -⟩ := decoding_msgHeader hsmall _ _ hfits rfl
    exact ⟨_, t, hread, rfl, hlen, hrest⟩

theorem known_iff_bounded {env : Env} {siphash24 : UInt64 → UInt64 → List UInt8 → UInt64} {kind : ReaderKind}
    {msg : Message} (hvalid : msg.Valid env)
    : (∃ header rest, MsgHeaderWrapper.read env kind
          ⟨writeToBuf env.chainType (msg.body env siphash24) msg.type, 0⟩ = (.ok (.known header), rest)
        ∧ header.msgType = msg.type ∧ header.msgLen.toNat = (msg.body env siphash24).length
        ∧ rest.bytes = msg.body env siphash24)
        ↔ msg.Bounded env.chainType :=
  (known_iff_le hvalid).trans (length_message_le_iff hvalid)

theorem bounded_compactBlock {env : Env} {b : Block} {nonce : UInt64}
    (hvalid : (Message.compactBlock b nonce).Valid env)
    (houtput : (b.body.outputs.filter (·.isCoinbase)).length ≤ 1)
    (hkernel : (b.body.kernels.filter (·.isCoinbase)).length ≤ 1)
    : (Message.compactBlock b nonce).Bounded env.chainType := by
  have hheader := BlockHeader.length_write_full_le hvalid.1.1 hvalid.1.2
  have hproofs := sum_outputs_le (b.body.outputs.filter (·.isCoinbase))
  have hids := List.length_filter_le (!·.isCoinbase) b.body.kernels
  have hweight := Outcome.require_eq_ok.mp hvalid.2
  have hthree : Consensus.blockKernelWeight.toNat = 3 := rfl
  simp only [TransactionBody.bodyWeightAsBlock, TransactionBody.weightAsBlock, hthree] at hweight
  unfold Message.Bounded
  rcases maxBlockSize_cases env.chainType with ⟨hmax, hsize⟩ | ⟨hmax, hsize⟩ <;> omega

namespace Sample

def env : Env := Transparent.env .mainnet

def siphash24 (k0 k1 : UInt64) (_ : List UInt8) : UInt64 := k0 + k1

theorem length_commit (i : Nat)
    : (Bytes.beBytes 33 i).length = 33 :=
  Bytes.length_beBytes 33 i

def coinbase (i : Nat) : Output :=
  ⟨.coinbase, ⟨Bytes.beBytes 33 i, length_commit i⟩, ⟨.replicate 675 0, 675, Nat.le_refl _⟩⟩

-- a reward that is split into many outputs
def splitReward : Block :=
  ⟨Genesis.genesisMain.header, ⟨[], (List.range 760).map coinbase, Genesis.genesisMain.body.kernels⟩⟩

theorem validHeader
    : Message.ValidHeader env Genesis.genesisMain.header :=
  ⟨⟨rfl, rfl, rfl, rfl, rfl⟩, encodable_genesisMain⟩

theorem valid_splitReward
    : (Message.compactBlock splitReward 0).Valid env := by
  refine ⟨validHeader, Outcome.require_eq_ok.mpr ?_⟩
  rw [TransactionBody.bodyWeightAsBlock, splitReward, List.length_map, List.length_range]
  decide

end Sample

open Sample in
theorem known_compact_genesis
    : (Message.compactBlock Genesis.genesisMain 0).Valid env
        ∧ ∃ header rest, MsgHeaderWrapper.read env .bin
            ⟨writeToBuf .mainnet ((Message.compactBlock Genesis.genesisMain 0).body env siphash24) .compactBlock, 0⟩
              = (.ok (.known header), rest)
          ∧ header.msgType = .compactBlock
          ∧ header.msgLen.toNat = ((Message.compactBlock Genesis.genesisMain 0).body env siphash24).length
          ∧ rest.bytes = (Message.compactBlock Genesis.genesisMain 0).body env siphash24 := by
  have hvalid : (Message.compactBlock Genesis.genesisMain 0).Valid env := ⟨validHeader, by decide⟩
  exact ⟨hvalid, (known_iff_bounded hvalid).mpr (bounded_compactBlock hvalid (by decide) (by decide))⟩

open Sample in
theorem compact_block_too_large
    : (Message.compactBlock splitReward 0).Valid env
        ∧ ¬ ∃ header rest, MsgHeaderWrapper.read env .bin
            ⟨writeToBuf .mainnet ((Message.compactBlock splitReward 0).body env siphash24) .compactBlock, 0⟩
              = (.ok (.known header), rest)
          ∧ header.msgType = .compactBlock
          ∧ header.msgLen.toNat = ((Message.compactBlock splitReward 0).body env siphash24).length
          ∧ rest.bytes = (Message.compactBlock splitReward 0).body env siphash24 := by
  refine ⟨valid_splitReward, ?_⟩
  intro hknown
  have hbounded := (length_message_le_iff valid_splitReward).mp ((known_iff_le valid_splitReward).mp hknown)
  have hall : splitReward.body.outputs.filter (·.isCoinbase) = splitReward.body.outputs := by
    rw [List.filter_eq_self, splitReward, List.forall_mem_map]
    exact fun _ _ => rfl
  have hsum : (splitReward.body.outputs.map fun o => 42 + o.proof.plen).sum = 544920 := by
    have hconst : (fun o : Output => 42 + o.proof.plen) ∘ coinbase = fun _ => 717 := rfl
    rw [splitReward, List.map_map, hconst, List.map_const', List.length_range, List.sum_replicate]
    decide
  have hlimit : maxBlockSize .mainnet / 10 * 4 = 539212 := by decide
  rw [Message.Bounded, hall, hsum, show env.chainType = .mainnet from rfl, hlimit] at hbounded
  omega

end Msg
end Epic
