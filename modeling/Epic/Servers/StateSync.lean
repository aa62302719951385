import Epic.Chain.Store
import Epic.P2p.Handshake

/-!
This module contains the step of a fast sync that requests the txhashset, while other threads report
their progress and their errors through the state it shares with them.
-/

namespace Epic

def Global.stateSyncThreshold (ct : ChainTypes) : UInt32 :=
  match ct with
  | .automatedTesting => 20
  | .userTesting => 20
  | .floonet => 2880
  | .mainnet => 2880

inductive SyncStatus where
  | initial
  | noSync
  | awaitingPeers (wait : Bool)
  | headerSync (currentHeight highestHeight : UInt64)
  | txHashsetDownload (startTime prevUpdateTime updateTime : Int)
    (prevDownloadedSize downloadedSize totalSize : UInt64)
  | txHashsetSetup
  | txHashsetValidation (kernels kernelTotal rproofs rproofTotal : UInt64)
  | txHashsetSave
  | txHashsetDone
  | bodySync (currentHeight highestHeight : UInt64)
  | shutdown
deriving DecidableEq

namespace SyncStatus

def isDownload (status : SyncStatus) : Bool :=
  match status with
  | .txHashsetDownload _ _ _ _ _ _ => true
  | _ => false

def isHeaderSync (status : SyncStatus) : Bool :=
  match status with
  | .headerSync _ _ => true
  | _ => false

end SyncStatus

inductive SyncError where
  | chain (e : ErrorKind)
  | p2p (e : P2pError)

structure SyncState where
  current : SyncStatus
  syncError : Option SyncError

structure TxHashSetRequest where
  peer : PeerAddr
  height : UInt64
  hash : Hash

-- the requests that were sent and the number of resets are kept for the statements only
structure StateSync where
  prevStateSync : Option Int
  stateSyncPeer : Option PeerAddr
  sent : List TxHashSetRequest
  resets : Nat

-- `others` is what the other threads do to the shared state before each access to it, times are in
-- nanoseconds
structure Round where
  headerHead : Tip
  highestHeight : UInt64
  now : Int
  headers : HeaderDb
  mostWorkPeer : Option PeerAddr
  isConnected : PeerAddr → Bool
  sendTxHashSetRequest : TxHashSetRequest → Option P2pError
  others : Nat → SyncState → SyncState

structure SyncNode where
  shared : SyncState
  accesses : Nat
  own : StateSync

namespace SyncNode

def access (r : Round) (n : SyncNode) : SyncNode :=
  { n with shared := r.others n.accesses n.shared, accesses := n.accesses + 1 }

def setSyncError (r : Round) (e : Option SyncError) (n : SyncNode) : SyncNode :=
  let n := n.access r
  { n with shared := { n.shared with syncError := e } }

def update (r : Round) (status : SyncStatus) (n : SyncNode) : SyncNode :=
  let n := n.access r
  if n.shared.current = status then
    n
  else
    let n := n.access r
    { n with shared := { n.shared with current := status } }

def stateSyncReset (n : SyncNode) : SyncNode :=
  { n with own := { n.own with
    prevStateSync := none
    stateSyncPeer := none
    resets := n.own.resets + 1 } }

def stateSyncDue (r : Round) (n : SyncNode) : (Bool × Bool) × SyncNode :=
  match n.own.prevStateSync with
  | none => ((true, false), { n with own := { n.own with prevStateSync := some r.now } })
  | some prev => ((false, r.now - prev > 10 * 60 * 10 ^ 9), n)

def previousHeaders (db : HeaderDb) (steps : Nat) (header : BlockHeader) : Option BlockHeader :=
  match steps with
  | 0 => some header
  | steps + 1 => (db.getPreviousHeader header).bind (previousHeaders db steps)

def requestState (env : Env) (r : Round) : Except P2pError TxHashSetRequest :=
  match r.mostWorkPeer with
  | none => .error .peerException
  | some peer =>
    let threshold := (Global.stateSyncThreshold env.chainType).toNat
    match (r.headers.getBlockHeader r.headerHead.prevBlockH).bind
      (previousHeaders r.headers threshold) with
    | none => .error .internal
    | some header =>
      let request := ⟨peer, header.height, header.hash env⟩
      match r.sendTxHashSetRequest request with
      | some e => .error e
      | none => .ok request

def sendRequest (env : Env) (r : Round) (n : SyncNode) : SyncNode :=
  match requestState env r with
  | .ok request =>
    { n with own := { n.own with
      stateSyncPeer := some request.peer
      sent := n.own.sent ++ [request] } }
  | .error e =>
    { n with own := { n.own with stateSyncPeer := none } }.setSyncError r (some (.p2p e))

def startDownload (env : Env) (r : Round) (n : SyncNode) : SyncNode :=
  let n := (n.sendRequest env r).access r
  let n := if n.shared.current.isHeaderSync then
    n.update r (.headerSync r.headerHead.height r.highestHeight) else n
  n.update r (.txHashsetDownload r.now r.now r.now 0 0 0)

def runStateSync (env : Env) (r : Round) (n : SyncNode) : SyncNode :=
  let due := n.stateSyncDue r
  let n := due.2.access r
  let n := if n.shared.current.isDownload && due.1.2 then
    n.setSyncError r (some (.p2p .timeout)) else n
  if due.1.1 then n.startDownload env r else n

def connectionLost (r : Round) (n : SyncNode) : Bool × SyncNode :=
  match n.own.stateSyncPeer with
  | some peer =>
    let n := n.access r
    (n.shared.current.isDownload && !r.isConnected peer, n)
  | none => (false, n)

def checkRun (env : Env) (r : Round) (n : SyncNode) : Bool × SyncNode :=
  let n := n.access r
  let failed := n.shared.syncError.isSome
  let lost := n.connectionLost r
  let restart := failed || lost.1
  let n := lost.2.access r
  let done := n.shared.current = .txHashsetDone
  let n := if done then n.update r (.bodySync 0 0) else n
  let n := if restart || done then n.stateSyncReset.setSyncError r none else n
  if done then
    (false, n)
  else if restart || r.headerHead.height = r.highestHeight then
    (true, n.runStateSync env r)
  else
    (true, n)

def run (env : Env) (n : SyncNode) (rounds : List Round) : SyncNode :=
  rounds.foldl (fun n r => (n.checkRun env r).2) n

/-!
What other threads do does not matter to what a state sync keeps for itself.
-/

@[simp]
theorem own_access (r : Round) (n : SyncNode)
    : (n.access r).own = n.own := rfl

@[simp]
theorem own_setSyncError (r : Round) (e : Option SyncError) (n : SyncNode)
    : (n.setSyncError r e).own = n.own := rfl

@[simp]
theorem own_update (r : Round) (status : SyncStatus) (n : SyncNode)
    : (n.update r status).own = n.own := by
  unfold update
  dsimp only
  split <;> rfl

@[simp]
theorem own_connectionLost (r : Round) (n : SyncNode)
    : (n.connectionLost r).2.own = n.own := by
  unfold connectionLost
  split <;> rfl

@[simp]
theorem own_startDownload (env : Env) (r : Round) (n : SyncNode)
    : (n.startDownload env r).own = (n.sendRequest env r).own := by
  unfold startDownload
  dsimp only
  rw [own_update]
  split <;> simp

-- every request after the first `sent` ones comes after a reset of its own
def Paced (sent resets : Nat) (s : StateSync) : Prop :=
  s.sent.length + (if s.prevStateSync.isSome then 0 else 1) + resets ≤ s.resets + sent

theorem paced_runStateSync (env : Env) (r : Round) {n : SyncNode} (h : Paced sent resets n.own)
    : Paced sent resets (n.runStateSync env r).own := by
  unfold runStateSync stateSyncDue
  cases hprev : n.own.prevStateSync with
  | none =>
    unfold Paced at h ⊢
    rw [hprev, if_neg (by simp)] at h
    simp only [Bool.and_false, Bool.false_eq_true, if_false, if_true, own_startDownload]
    unfold sendRequest
    split
    . simpa using h
    . simp only [own_setSyncError, own_access, Option.isSome_some, if_true]
      omega
  | some prev =>
    dsimp only
    rw [if_neg Bool.false_ne_true]
    split <;> exact h

theorem Paced.reset {n : SyncNode} (h : Paced sent resets n.own)
    : Paced sent resets n.stateSyncReset.own := by
  unfold Paced at h ⊢
  simp only [stateSyncReset, Option.isSome_none, Bool.false_eq_true, if_false]
  split at h <;> omega

theorem paced_checkRun (env : Env) (r : Round) {n : SyncNode} (h : Paced sent resets n.own)
    : Paced sent resets (n.checkRun env r).2.own := by
  have hreset : ∀ (restart : Bool) (m : SyncNode), m.own = n.own
      → Paced sent resets (if restart then m.stateSyncReset.setSyncError r none else m).own := by
    intro restart m hm
    rw [← hm] at h
    split
    . exact Paced.reset h
    . exact h
  unfold checkRun
  dsimp only
  split
  . exact hreset _ _ (by simp)
  . split
    . exact paced_runStateSync env r (hreset _ _ (by simp))
    . exact hreset _ _ (by simp)

theorem requests_follow_resets (env : Env) (n : SyncNode) (rounds : List Round)
    : (n.run env rounds).own.sent.length + n.own.resets
        ≤
      (n.run env rounds).own.resets + n.own.sent.length
        + if n.own.prevStateSync.isSome then 0 else 1 := by
  have hrun : Paced (n.own.sent.length + if n.own.prevStateSync.isSome then 0 else 1) n.own.resets
      (n.run env rounds).own := by
    unfold run
    apply List.foldlRecOn rounds _ (motive := fun m : SyncNode => Paced _ _ m.own)
    . exact le_of_eq (Nat.add_comm _ _)
    . exact fun m hm r _ => paced_checkRun env r hm
  unfold Paced at hrun
  omega

end SyncNode

end Epic
