import Epic.Core.Transaction.Sorted
import Epic.Core.Ser.Reader
import Epic.Core.Transparent

/-!
This module contains the operations of the readers that take a fixed number of bytes, and that the
checks of a decoded transaction return.
-/

namespace Epic

open Routine Ser

variable {α β : Type}

/-!
The counter of a source does not overflow as long as the bytes fit into memory. Each of them counts
at most twice.
-/

def Source.Fits (s : Source) : Prop := s.totalBytesRead.toNat + 2 * s.bytes.length < 2 ^ 64

def Reads (x : Read α) (n : Nat) (v : List UInt8 → α) : Prop :=
  ∀ s, s.Fits →
    (n ≤ s.bytes.length →
      ∃ t, x s = (.ok (v (s.bytes.take n)), t) ∧ t.bytes = s.bytes.drop n ∧ t.Fits)
      ∧
    (s.bytes.length < n → ∃ e, x s = (.err e, s))

namespace Reads

variable {x : Read α} {n : Nat} {v : List UInt8 → α}

theorem bind_ok {f : α → Read β} {w : List UInt8 → β} (hx : Reads x n v)
    (hf : ∀ l s, l.length = n → f (v l) s = (.ok (w l), s))
    : Reads (x >>= f) n w := by
  intro s hs
  rw [bind_apply]
  constructor
  . intro hge
    obtain ⟨t, ht, hbytes, hfits⟩ := (hx s hs).1 hge
    rw [ht]
    exact ⟨t, hf _ t (by simp [hge]), hbytes, hfits⟩
  . intro hlt
    obtain ⟨e, he⟩ := (hx s hs).2 hlt
    rw [he]
    exact ⟨e, rfl⟩

theorem map (hx : Reads x n v) (f : α → β)
    : Reads (f <$> x) n (f ∘ v) := hx.bind_ok fun _ _ _ => rfl

end Reads

section

variable (env : Env) (kind : ReaderKind)

theorem count_apply (h : s.totalBytesRead.toNat + n.toNat < 2 ^ 64)
    : count env n s = (.ok (), { s with totalBytesRead := s.totalBytesRead + n }) := by
  have hadd : (MachineInt.add env.overflowChecks s.totalBytesRead n : Outcome SerError UInt64)
      = .ok (s.totalBytesRead + n) := MachineInt.add_eq_ok h
  exact bind_eq_ok.mpr ⟨_, s, query_eq_ok.mpr ⟨hadd, rfl⟩, modify_eq_ok.mpr rfl⟩

theorem reads_takeBytes (n : Nat) (e : SerError)
    : Reads (takeBytes n e) n id := by
  intro s hs
  unfold takeBytes
  constructor
  . intro hge
    rw [if_pos hge]
    refine ⟨_, rfl, rfl, ?_⟩
    unfold Source.Fits at hs ⊢
    simp only [List.length_drop]
    omega
  . intro hlt
    rw [if_neg (Nat.not_le_of_lt hlt)]
    exact ⟨e, rfl⟩

theorem toNat_ofNat_of_le_isizeMax (h : n ≤ isizeMax)
    : (UInt64.ofNat n).toNat = n := by
  unfold isizeMax at h
  exact UInt64.toNat_ofNat_of_lt' (by unfold UInt64.size; omega)

theorem withCapacity_apply (len elmtSize : Nat) (h : len * elmtSize ≤ isizeMax) (s : Source)
    : withCapacity len elmtSize s = (.ok (), s) := lift_eq_ok.mpr ⟨Outcome.assert_eq_ok.mpr h, rfl⟩

theorem withCapacity_of_lt (len elmtSize : Nat) (h : isizeMax < len * elmtSize) (s : Source)
    : withCapacity len elmtSize s = (.panic, s) := by
  have hpanic : (.assert (len * elmtSize ≤ isizeMax) : Outcome SerError Unit) = .panic :=
    if_neg (Nat.not_le_of_lt h)
  unfold withCapacity
  rw [hpanic]
  rfl

theorem reads_readFixedBytes_bin (hle : n ≤ 100000)
    : Reads (readFixedBytes env .bin n) n id := by
  intro s hs
  have hlimit : lift (.require (¬ n > 100000) SerError.tooLargeReadErr) s = (.ok (), s) :=
    lift_eq_ok.mpr ⟨Outcome.require_eq_ok.mpr (Nat.not_lt.mpr hle), rfl⟩
  have hcapacity := withCapacity_apply n 1 (by unfold isizeMax; omega) s
  obtain ⟨henough, hshort⟩ := reads_takeBytes n .unexpectedEof s hs
  unfold readFixedBytes
  constructor
  . intro hge
    obtain ⟨t, ht, hrest⟩ := henough hge
    exact ⟨t, bind_eq_ok.mpr ⟨(), s, hlimit, bind_eq_ok.mpr ⟨(), s, hcapacity, ht⟩⟩, hrest⟩
  . intro hlt
    obtain ⟨e, he⟩ := hshort hlt
    exact ⟨e, bind_eq_err.mpr (.inr ⟨(), s, hlimit, bind_eq_err.mpr (.inr ⟨(), s, hcapacity, he⟩)⟩)⟩

theorem readFixedBytes_streaming_apply (hpos : 0 < n) (hn : n ≤ isizeMax)
    (hge : n ≤ s.bytes.length) (hs : s.Fits)
    : readFixedBytes env .streaming n s
        =
      (.ok (s.bytes.take n), ⟨s.bytes.drop n, s.totalBytesRead + UInt64.ofNat n⟩) := by
  have hcapacity := withCapacity_apply n 1 (by omega) s
  have hopen : lift (.require (n ≠ 0) SerError.connectionAborted) s = (.ok (), s) :=
    lift_eq_ok.mpr ⟨Outcome.require_eq_ok.mpr (by omega), rfl⟩
  have htake : takeBytes n .connectionAborted s
      = (.ok (s.bytes.take n), { s with bytes := s.bytes.drop n }) := if_pos hge
  have hcount : count env (UInt64.ofNat n) { s with bytes := s.bytes.drop n }
      = (.ok (), ⟨s.bytes.drop n, s.totalBytesRead + UInt64.ofNat n⟩) := by
    apply count_apply
    rw [toNat_ofNat_of_le_isizeMax hn]
    unfold Source.Fits at hs
    dsimp only
    omega
  unfold readFixedBytes
  exact bind_eq_ok.mpr ⟨(), s, hcapacity, bind_eq_ok.mpr ⟨(), s, hopen, bind_eq_ok.mpr
    ⟨_, _, htake, bind_eq_ok.mpr ⟨(), _, hcount, rfl⟩⟩⟩⟩

theorem reads_readFixedBytes_streaming (hpos : 0 < n) (hn : n ≤ isizeMax)
    : Reads (readFixedBytes env .streaming n) n id := by
  intro s hs
  constructor
  . intro hge
    refine ⟨_, readFixedBytes_streaming_apply env hpos hn hge hs, rfl, ?_⟩
    unfold Source.Fits at hs ⊢
    rw [List.length_drop, UInt64.toNat_add, toNat_ofNat_of_le_isizeMax hn]
    omega
  . intro hlt
    have hcapacity := withCapacity_apply n 1 (by omega) s
    have hopen : lift (.require (n ≠ 0) SerError.connectionAborted) s = (.ok (), s) :=
      lift_eq_ok.mpr ⟨Outcome.require_eq_ok.mpr (by omega), rfl⟩
    obtain ⟨e, he⟩ := (reads_takeBytes n .connectionAborted s hs).2 hlt
    unfold readFixedBytes
    exact ⟨e, bind_eq_err.mpr (.inr ⟨(), s, hcapacity, bind_eq_err.mpr (.inr ⟨(), s, hopen,
      bind_eq_err.mpr (.inl he)⟩)⟩)⟩

theorem reads_readFixedBytes (hpos : 0 < n) (hle : n ≤ 100000)
    : Reads (readFixedBytes env kind n) n id := by
  cases kind with
  | bin => exact reads_readFixedBytes_bin env hle
  | streaming => exact reads_readFixedBytes_streaming env hpos (by unfold isizeMax; omega)

theorem readFixedBytes_streaming_zero (s : Source)
    : readFixedBytes env .streaming 0 s = (.err .connectionAborted, s) := by
  simp [readFixedBytes, withCapacity, bind_apply, Outcome.require, Outcome.assert]

theorem reads_readInt {n : Nat} (hpos : 0 < n) (hle : n ≤ 8)
    : Reads (readInt env kind n) n Bytes.ofBE := by
  unfold readInt
  cases kind with
  | bin => exact (reads_takeBytes n .unexpectedEof).bind_ok fun _ _ _ => rfl
  | streaming =>
    exact (reads_readFixedBytes env .streaming hpos (by omega)).bind_ok fun _ _ _ => rfl

theorem reads_readU8
    : Reads (readU8 env kind) 1 (UInt8.ofNat ∘ Bytes.ofBE) :=
  (reads_readInt env kind (by omega) (by omega)).map _

theorem reads_readU16
    : Reads (readU16 env kind) 2 (UInt16.ofNat ∘ Bytes.ofBE) :=
  (reads_readInt env kind (by omega) (by omega)).map _

theorem reads_readU32
    : Reads (readU32 env kind) 4 (UInt32.ofNat ∘ Bytes.ofBE) :=
  (reads_readInt env kind (by omega) (by omega)).map _

theorem reads_readU64
    : Reads (readU64 env kind) 8 (UInt64.ofNat ∘ Bytes.ofBE) :=
  (reads_readInt env kind (by omega) (by omega)).map _

theorem reads_readI64
    : Reads (readI64 env kind) 8 (Int64.ofNat ∘ Bytes.ofBE) :=
  (reads_readInt env kind (by omega) (by omega)).map _

theorem reads_hash
    : Reads (Hash.read env kind) 32 Hash.mk := by
  apply (reads_readFixedBytes env kind (by omega) (by omega)).bind_ok
  intro l s hl
  simp [bind_apply, copyFromSlice, hl, List.Vector.toList]

theorem reads_blindingFactor
    : Reads (BlindingFactor.read env kind) 32 (BlindingFactor.fromSlice ∘ id) :=
  (reads_readFixedBytes env kind (by omega) (by omega)).map _

namespace Proof

theorem reads_readLen
    : Reads (readU64 env .streaming >>= fun len => count env 8 >>= fun _ => pure len) 8
        (UInt64.ofNat ∘ Bytes.ofBE) := by
  intro s hs
  constructor
  . intro hge
    have hread : readU64 env .streaming s = (.ok (UInt64.ofNat (Bytes.ofBE (s.bytes.take 8))),
        ⟨s.bytes.drop 8, s.totalBytesRead + 8⟩) :=
      bind_eq_ok.mpr ⟨_, _, bind_eq_ok.mpr ⟨_, _, readFixedBytes_streaming_apply env (by omega)
        (by decide) hge hs, rfl⟩, rfl⟩
    have hcount : count env 8 ⟨s.bytes.drop 8, s.totalBytesRead + 8⟩
        = (.ok (), ⟨s.bytes.drop 8, s.totalBytesRead + 8 + 8⟩) := by
      apply count_apply
      unfold Source.Fits at hs
      simp only [UInt64.toNat_add, UInt64.toNat_ofNat]
      omega
    refine ⟨_, bind_eq_ok.mpr ⟨_, _, hread, bind_eq_ok.mpr ⟨_, _, hcount, rfl⟩⟩, rfl, ?_⟩
    unfold Source.Fits at hs ⊢
    simp only [UInt64.toNat_add, UInt64.toNat_ofNat, List.length_drop]
    omega
  . intro hlt
    obtain ⟨e, he⟩ := (reads_readU64 env .streaming s hs).2 hlt
    exact ⟨e, bind_eq_err.mpr (.inl he)⟩

theorem readBytesLenPrefix_streaming
    : readBytesLenPrefix env .streaming
        =
      (readU64 env .streaming >>= fun len => count env 8 >>= fun _ => pure len) >>= fun len =>
        readFixedBytes env .streaming len.toNat := by
  simp only [readBytesLenPrefix, bind_assoc, pure_bind]

end Proof

end

section

variable (env : Env) (kind : ReaderKind)

theorem returns_verifySortedAndUnique (hashes : List Hash)
    : (verifySortedAndUnique hashes).Returns := by
  fun_induction verifySortedAndUnique hashes with
  | case1 => trivial
  | case2 => trivial
  | case3 _ _ _ _ _ ih => exact ih
  | case4 => trivial

theorem TransactionBody.returns_verifySorted (body : TransactionBody)
    : (body.verifySorted env).Returns := by
  simp [verifySorted, Outcome.returns_bind, returns_verifySortedAndUnique]

theorem TransactionBody.returns_cutThroughLoop (fuel : Nat) (inputs outputs : List Hash)
    : (cutThroughLoop fuel inputs outputs).Returns := by
  fun_induction cutThroughLoop fuel inputs outputs with
  | case1 _ _ _ _ _ _ ih => exact ih
  | case2 _ _ _ _ _ _ _ ih => exact ih
  | case3 => trivial
  | case4 => trivial

theorem TransactionBody.returns_validateRead (weighting : Weighting) (body : TransactionBody)
    : (body.validateRead env weighting).Returns := by
  have hweight : (body.verifyWeight env.chainType weighting).Returns := by
    unfold verifyWeight
    cases weighting <;> simp
  simp [validateRead, Outcome.returns_bind, hweight, returns_verifySorted, verifyCutThrough,
    returns_cutThroughLoop]

theorem Transaction.returns_validateRead (tx : Transaction)
    : (tx.validateRead env).Returns := by
  simp [validateRead, Outcome.returns_bind, TransactionBody.returns_validateRead,
    TransactionBody.verifyFeatures, TransactionBody.verifyOutputFeatures,
    TransactionBody.verifyKernelFeatures]

end

end Epic
