import Epic.Core.Ser.Codec
import Epic.Core.Transparent
import Epic.Core.Transaction.Sorted

/-!
This module contains the encoding of transactions. A range proof may be written with another length than
that of its buffer, everything else is unique.
-/

namespace Epic

open Routine Ser Codec

section

variable {α : Type} {read : Read α}

theorem iterate_of_length (hread : Reading read R) (h : iterate read n s = (.ok l, t)) (hlength : l.length = n)
    : ∃ inputs, s.bytes = inputs.flatten ++ t.bytes ∧ List.Forall₂ R l inputs := by
  induction n generalizing s l with
  | zero =>
    obtain rfl := List.eq_nil_of_length_eq_zero hlength
    rw [iterate, pure_apply, Prod.mk.injEq] at h
    exact ⟨[], by rw [h.2]; rfl, .nil⟩
  | succ n ih =>
    unfold iterate at h
    rcases hres : read s with ⟨(a | e | _ | _), r⟩ <;> rw [hres] at h
    . obtain ⟨l', r', hl', hmap⟩ := bind_eq_ok.mp h
      have hcons : (Outcome.ok (a :: l'), r') = (Outcome.ok l, t) := hmap
      rw [Prod.mk.injEq, Outcome.ok.injEq] at hcons
      obtain ⟨rfl, rfl⟩ := hcons
      obtain ⟨input, hinput, hR⟩ := hread s a r hres
      obtain ⟨inputs, hinputs, hall⟩ := ih hl' (Nat.succ.inj hlength)
      refine ⟨input :: inputs, ?_, .cons hR hall⟩
      rw [hinput, hinputs, List.flatten_cons, List.append_assoc]
    . rw [Prod.mk.injEq, Outcome.ok.injEq] at h
      rw [← h.1] at hlength
      contradiction
    . simp at h
    . simp at h

theorem reading_readMulti (hread : Reading read R) (n : UInt64)
    : Reading (readMulti read n) fun l input =>
        l.length = n.toNat ∧ ∃ inputs, List.Forall₂ R l inputs ∧ input = inputs.flatten := by
  unfold readMulti
  split
  . intro s l t h
    simp at h
  . intro s l t h
    obtain ⟨l', r, hl', hcount⟩ := bind_eq_ok.mp h
    obtain ⟨_, hlength, hpure⟩ := lift_bind_eq_ok.mp hcount
    rw [Outcome.require_eq_ok] at hlength
    rw [pure_apply, Prod.mk.injEq, Outcome.ok.injEq] at hpure
    obtain ⟨rfl, rfl⟩ := hpure
    obtain ⟨inputs, hinputs, hall⟩ := iterate_of_length hread hl' hlength
    exact ⟨inputs.flatten, hinputs, hlength, inputs, hall, rfl⟩

theorem length_le_length_flatMap {f : α → List UInt8} (h : ∀ a, 1 ≤ (f a).length) (l : List α)
    : l.length ≤ (l.flatMap f).length := by
  induction l with
  | nil => exact Nat.zero_le _
  | cons a l ih =>
    have hfirst := h a
    rw [List.flatMap_cons, List.length_append, List.length_cons]
    omega

theorem flatten_of_forall₂ {write : α → List UInt8} {l : List α} {inputs : List (List UInt8)}
    (h : List.Forall₂ (fun a input => input = write a) l inputs)
    : inputs.flatten = l.flatMap write := by
  induction h with
  | nil => rfl
  | cons hfirst _ ih => rw [List.flatten_cons, List.flatMap_cons, hfirst, ih]

theorem decoding_iterate (h : ∀ a ∈ l, Decoding read (write a) a)
    : Decoding (iterate read l.length) (l.flatMap write) l := by
  induction l with
  | nil => exact .pure
  | cons a l ih =>
    intro s rest hs hbytes
    rw [List.flatMap_cons, List.append_assoc] at hbytes
    obtain ⟨r, hr, hrbytes, hrfits⟩ := h a List.mem_cons_self s _ hs hbytes
    have hrest := (ih fun b hb => h b (List.mem_cons_of_mem _ hb)).map (List.cons a)
    obtain ⟨t, ht, htail⟩ := hrest r rest hrfits hrbytes
    refine ⟨t, ?_, htail⟩
    unfold iterate
    simp only [List.length_cons, hr]
    exact ht

theorem toNat_ofNat_of_le {n : Nat} (h : n ≤ 1000000)
    : (UInt64.ofNat n).toNat = n := UInt64.toNat_ofNat_of_lt' (by unfold UInt64.size; omega)

theorem decoding_readMulti (hle : l.length ≤ 1000000)
    (h : ∀ a ∈ l, Decoding read (write a) a)
    : Decoding (readMulti read (UInt64.ofNat l.length)) (l.flatMap write) l := by
  have hcount := toNat_ofNat_of_le hle
  have hsmall : ¬ UInt64.ofNat l.length > 1000000 := by
    rw [gt_iff_lt, UInt64.lt_iff_toNat_lt, hcount]
    exact Nat.not_lt.mpr hle
  rw [readMulti, if_neg hsmall, hcount, ← List.append_nil (l.flatMap write)]
  apply (decoding_iterate h).bind
  exact .lift_bind (c := ()) (Outcome.require_eq_ok.mpr rfl) .pure

end

section

variable (env : Env) (kind : ReaderKind)

theorem OutputFeatures.fromU8_eq_some
    : fromU8 n = some f ↔ n = f.toU8 := by
  constructor
  . intro h
    unfold fromU8 at h
    split at h
    . next hn => rw [hn, ← Option.some.inj h, toU8]
    split at h
    . next hn => rw [hn, ← Option.some.inj h, toU8]
    . contradiction
  . rintro rfl
    cases f <;> rfl

theorem KernelFeatures.fromU8_eq_some
    : fromU8 n = some f ↔ n = f.toU8 := by
  constructor
  . intro h
    unfold fromU8 at h
    split at h
    . next hn => rw [hn, ← Option.some.inj h, toU8]
    split at h
    . next hn => rw [hn, ← Option.some.inj h, toU8]
    split at h
    . next hn => rw [hn, ← Option.some.inj h, toU8]
    . contradiction
  . rintro rfl
    cases f <;> rfl

theorem OutputFeatures.reading
    : Reading (OutputFeatures.read env kind) fun f input => input = writeU8 f.toU8 := by
  apply (reading_readU8 env kind).bind
  rintro n _ rfl
  intro s f t h
  obtain ⟨hf, rfl⟩ := lift_eq_ok.mp h
  rw [Outcome.okOr_eq_ok, fromU8_eq_some] at hf
  exact ⟨[], rfl, by rw [hf]; rfl⟩

theorem KernelFeatures.reading
    : Reading (KernelFeatures.read env kind) fun f input => input = writeU8 f.toU8 := by
  apply (reading_readU8 env kind).bind
  rintro n _ rfl
  intro s f t h
  obtain ⟨hf, rfl⟩ := lift_eq_ok.mp h
  rw [Outcome.okOr_eq_ok, fromU8_eq_some] at hf
  exact ⟨[], rfl, by rw [hf]; rfl⟩

theorem OutputFeatures.decoding (f : OutputFeatures)
    : Decoding (OutputFeatures.read env kind) (writeU8 f.toU8) f := by
  intro s rest hs hbytes
  obtain ⟨t, ht, hrest⟩ := decoding_readU8 env kind f.toU8 s rest hs hbytes
  refine ⟨t, bind_eq_ok.mpr ⟨_, t, ht, lift_eq_ok.mpr ⟨?_, rfl⟩⟩, hrest⟩
  exact Outcome.okOr_eq_ok.mpr (fromU8_eq_some.mpr rfl)

theorem KernelFeatures.decoding (f : KernelFeatures)
    : Decoding (KernelFeatures.read env kind) (writeU8 f.toU8) f := by
  intro s rest hs hbytes
  obtain ⟨t, ht, hrest⟩ := decoding_readU8 env kind f.toU8 s rest hs hbytes
  refine ⟨t, bind_eq_ok.mpr ⟨_, t, ht, lift_eq_ok.mpr ⟨?_, rfl⟩⟩, hrest⟩
  exact Outcome.okOr_eq_ok.mpr (fromU8_eq_some.mpr rfl)

theorem Input.reading
    : Reading (Input.read env kind) fun i input => input = i.write := by
  apply (OutputFeatures.reading env kind).bind
  rintro features _ rfl
  apply (reading_slice env kind 33).bind
  rintro commit _ rfl
  exact .pure rfl

theorem Input.decoding (i : Input)
    : Decoding (Input.read env kind) i.write i := by
  rw [Input.write, ← List.append_nil i.commit.toList]
  apply (OutputFeatures.decoding env kind _).bind
  apply (decoding_slice env kind (by omega) (by omega) i.commit).bind
  exact .pure

section

-- a signature is a copy of its raw data
variable (hsig : ∀ data, env.secp.fromRawData data = some data)
include hsig

theorem TxKernel.reading
    : Reading (TxKernel.read env kind) fun k input => input = k.write := by
  apply (KernelFeatures.reading env kind).bind
  rintro features _ rfl
  apply (reading_readU64 env kind).bind
  rintro fee _ rfl
  apply (reading_readU64 env kind).bind
  rintro lockHeight _ rfl
  apply (reading_slice env kind 33).bind
  rintro excess _ rfl
  have hsignature : Reading (Signature.read env kind) fun v input => input = v.toList := by
    intro s v t h
    obtain ⟨l, r, hl, hrest⟩ := bind_eq_ok.mp h
    obtain ⟨c, hc, hunwrap⟩ := lift_bind_eq_ok.mp hrest
    rw [lift_eq_ok, Outcome.unwrap_eq_ok, hsig, Option.some.injEq] at hunwrap
    obtain ⟨rfl, rfl⟩ := hunwrap
    exact reading_slice env kind 64 s c r (bind_eq_ok.mpr ⟨l, r, hl, lift_eq_ok.mpr ⟨hc, rfl⟩⟩)
  apply hsignature.bind
  rintro excessSig _ rfl
  exact .pure (by simp [TxKernel.write])

theorem TxKernel.decoding (k : TxKernel)
    : Decoding (TxKernel.read env kind) k.write k := by
  have hinput : k.write = writeU8 k.features.toU8 ++ (writeU64 k.fee ++ (writeU64 k.lockHeight
      ++ (k.excess.toList ++ (k.excessSig.toList ++ [])))) := by simp [TxKernel.write]
  have hsignature : Decoding (Signature.read env kind) k.excessSig.toList k.excessSig := by
    intro s rest hs hbytes
    obtain ⟨t, ht, hrest⟩ := decoding_slice env kind (by omega) (by omega) k.excessSig s rest hs hbytes
    obtain ⟨l, r, hl, hslice⟩ := bind_eq_ok.mp ht
    obtain ⟨hv, rfl⟩ := lift_eq_ok.mp hslice
    refine ⟨r, bind_eq_ok.mpr ⟨l, r, hl, lift_bind_eq_ok.mpr ⟨_, hv, lift_eq_ok.mpr ⟨?_, rfl⟩⟩⟩, hrest⟩
    exact Outcome.unwrap_eq_ok.mpr (hsig _)
  rw [hinput]
  apply (KernelFeatures.decoding env kind _).bind
  apply (decoding_readU64 env kind _).bind
  apply (decoding_readU64 env kind _).bind
  apply (decoding_slice env kind (by omega) (by omega) k.excess).bind
  apply hsignature.bind
  exact .pure

end

def Output.ReadFrom (o : Output) (input : List UInt8) : Prop :=
  ∃ (len : UInt64) (p : List UInt8), p.length = min len.toNat maxProofSize
    ∧ o.proof.bytes = p ++ List.replicate (maxProofSize - p.length) 0
    ∧ input = writeU8 o.features.toU8 ++ o.commit.toList ++ (writeU64 len ++ p)

theorem Output.reading
    : Reading (Output.read env kind) ReadFrom := by
  apply (OutputFeatures.reading env kind).bind
  rintro features _ rfl
  apply (reading_slice env kind 33).bind
  rintro commit _ rfl
  have hproof : Reading (RangeProof.read env kind) fun proof input =>
      ∃ (len : UInt64) (p : List UInt8), p.length = min len.toNat maxProofSize
        ∧ proof.bytes = p ++ List.replicate (maxProofSize - p.length) 0 ∧ input = writeU64 len ++ p := by
    apply (reading_readU64 env kind).bind
    rintro len _ rfl
    apply (reading_readFixedBytes env kind _).bind
    rintro _ p ⟨rfl, hlength⟩
    intro s proof t h
    obtain ⟨hproof, rfl⟩ := lift_eq_ok.mp h
    have hle : p.length ≤ maxProofSize := by omega
    rw [RangeProof.ofBytes, dif_pos hle] at hproof
    injection hproof with hproof
    refine ⟨[], rfl, len, p, hlength, ?_, by simp⟩
    rw [← hproof]
    exact List.take_of_length_le (by simp; omega)
  apply hproof.bind
  rintro proof _ ⟨len, p, hlength, hbytes, rfl⟩
  exact .pure ⟨len, p, hlength, hbytes, by simp⟩

theorem RangeProof.length_bytes {proof : RangeProof} (h : proof.plen = maxProofSize)
    : proof.bytes.length = maxProofSize := by
  rw [RangeProof.bytes, List.length_take, List.Vector.toList_length, h, Nat.min_self]

theorem RangeProof.ofBytes_bytes {proof : RangeProof} (h : proof.plen = maxProofSize)
    : (ofBytes proof.bytes : Outcome ε RangeProof) = .ok proof := by
  have hlength := RangeProof.length_bytes h
  obtain ⟨v, plen, hle⟩ := proof
  dsimp only at h
  subst h
  rw [RangeProof.ofBytes, dif_pos (Nat.le_of_eq hlength)]
  congr 2
  apply Subtype.ext
  change _ ++ _ = v.toList
  rw [hlength, Nat.sub_self, List.replicate_zero, List.append_nil]
  exact List.take_of_length_le (Nat.le_of_eq v.toList_length)

theorem RangeProof.decoding {proof : RangeProof} (h : proof.plen = maxProofSize)
    : Decoding (RangeProof.read env kind) (writeBytes proof.bytes) proof := by
  have hlength := RangeProof.length_bytes h
  have hlen : (UInt64.ofNat proof.bytes.length).toNat = maxProofSize := by rw [hlength]; rfl
  rw [writeBytes]
  apply (decoding_readU64 env kind _).bind
  rw [hlen, Nat.min_self, ← List.append_nil proof.bytes]
  have hread : Decoding (readFixedBytes env kind maxProofSize) proof.bytes proof.bytes := by
    rw [← hlength]
    exact decoding_readFixedBytes env kind (by rw [hlength]; decide) (by rw [hlength]; decide)
  apply hread.bind
  intro s rest hs hbytes
  exact ⟨s, lift_eq_ok.mpr ⟨RangeProof.ofBytes_bytes h, rfl⟩, hbytes, hs⟩

theorem Output.decoding (h : o.proof.plen = maxProofSize)
    : Decoding (Output.read env kind) (o.write .full) o := by
  have hinput : o.write .full
      = writeU8 o.features.toU8 ++ (o.commit.toList ++ (writeBytes o.proof.bytes ++ [])) := by
    simp [Output.write]
  rw [hinput]
  apply (OutputFeatures.decoding env kind _).bind
  apply (decoding_slice env kind (by omega) (by omega) o.commit).bind
  apply (RangeProof.decoding env kind h).bind
  exact .pure

end

/-!
What a transaction was read from is its encoding, with outputs of other lengths.
-/

namespace TransactionBody

def writeWith (body : TransactionBody) (outputs : List UInt8) : List UInt8 :=
  writeU64 (UInt64.ofNat body.inputs.length)
    ++ (writeU64 (UInt64.ofNat body.outputs.length)
    ++ (writeU64 (UInt64.ofNat body.kernels.length)
    ++ (body.inputs.flatMap Input.write
    ++ (outputs
    ++ body.kernels.flatMap TxKernel.write))))

theorem write_eq_writeWith (body : TransactionBody)
    : body.write = body.writeWith (body.outputs.flatMap (Output.write .full)) := by
  simp [TransactionBody.write, writeWith]

structure ReadFrom (body : TransactionBody) (outputs : List (List UInt8)) (input : List UInt8) : Prop where
  inputs_lt : body.inputs.length < 2 ^ 64
  outputs_lt : body.outputs.length < 2 ^ 64
  outputsRead : List.Forall₂ Output.ReadFrom body.outputs outputs
  input : input = body.writeWith outputs.flatten

end TransactionBody

section

variable (env : Env) (kind : ReaderKind) (hsig : ∀ data, env.secp.fromRawData data = some data)
include hsig

theorem TransactionBody.reading
    : Reading (TransactionBody.read env kind) fun body input => ∃ outputs, body.ReadFrom outputs input := by
  apply (reading_readU64 env kind).bind
  rintro inputLen _ rfl
  apply (reading_readU64 env kind).bind
  rintro outputLen _ rfl
  apply (reading_readU64 env kind).bind
  rintro kernelLen _ rfl
  apply Consumes.lift_bind
  intro _ _
  apply (reading_readMulti (Input.reading env kind) inputLen).bind
  rintro inputs _ ⟨hinputs, inputBytes, hallInputs, rfl⟩
  apply (reading_readMulti (Output.reading env kind) outputLen).bind
  rintro outputs _ ⟨houtputs, outputBytes, hallOutputs, rfl⟩
  apply (reading_readMulti (TxKernel.reading env kind hsig) kernelLen).bind
  rintro kernels _ ⟨hkernels, kernelBytes, hallKernels, rfl⟩
  apply Consumes.lift_bind
  intro _ _
  refine .pure ⟨outputBytes, hinputs ▸ inputLen.toNat_lt, houtputs ▸ outputLen.toNat_lt, hallOutputs, ?_⟩
  simp [writeWith, hinputs, houtputs, hkernels, flatten_of_forall₂ hallInputs, flatten_of_forall₂ hallKernels]

theorem Transaction.reading
    : Reading (Transaction.read env kind) fun tx input =>
        ∃ outputs bytes, tx.body.ReadFrom outputs bytes ∧ input = tx.offset.toList ++ bytes := by
  apply (reading_blindingFactor env kind).bind
  rintro offset _ rfl
  apply (TransactionBody.reading env kind hsig).bind
  rintro body bytes ⟨outputs, hbody⟩
  apply Consumes.lift_bind
  intro _ _
  exact .pure ⟨outputs, bytes, hbody, rfl⟩

end

/-!
The lengths of the range proofs in the bytes of a transaction, in the order of the outputs.
-/

def outputProofLengths (count : Nat) (bytes : List UInt8) : List Nat :=
  match count with
  | 0 => []
  | count + 1 =>
    let len := Bytes.ofBE ((bytes.drop 34).take 8)
    len :: outputProofLengths count (bytes.drop (42 + min len maxProofSize))

def proofLengths (bytes : List UInt8) : List Nat :=
  let inputLen := Bytes.ofBE ((bytes.drop 32).take 8)
  let outputLen := Bytes.ofBE ((bytes.drop 40).take 8)
  outputProofLengths outputLen (bytes.drop (56 + 34 * inputLen))

theorem length_identifier (features : OutputFeatures) (commit : Commitment)
    : (writeU8 features.toU8 ++ commit.toList).length = 34 := by
  simp [writeU8]

theorem outputProofLengths_cons {o : Output} {len : UInt64} {p : List UInt8}
    (hp : p.length = min len.toNat maxProofSize) (count : Nat) (rest : List UInt8)
    : outputProofLengths (count + 1) (writeU8 o.features.toU8 ++ o.commit.toList ++ (writeU64 len ++ p) ++ rest)
        =
      len.toNat :: outputProofLengths count rest := by
  have hfirst := length_identifier o.features o.commit
  have hlen : Bytes.ofBE ((writeU64 len ++ (p ++ rest)).take 8) = len.toNat := by
    rw [List.take_left' (length_writeU64 _), writeU64, Bytes.ofBE_beBytes]
    exact Nat.mod_eq_of_lt len.toNat_lt
  have hinput : (writeU8 o.features.toU8 ++ o.commit.toList ++ (writeU64 len ++ p)).length
      = 42 + min len.toNat maxProofSize := by
    rw [List.length_append, hfirst, List.length_append, length_writeU64, hp]
    omega
  rw [outputProofLengths, List.append_assoc, List.append_assoc (writeU64 len), List.drop_left' hfirst, hlen,
    ← List.append_assoc (writeU64 len), ← List.append_assoc, List.drop_left' hinput]

namespace Output.ReadFrom

theorem write_eq_iff {o : Output} {len : UInt64} {p : List UInt8}
    (hp : p.length = min len.toNat maxProofSize)
    (hbytes : o.proof.bytes = p ++ List.replicate (maxProofSize - p.length) 0) (rest rest' : List UInt8)
    : o.write .full ++ rest = writeU8 o.features.toU8 ++ o.commit.toList ++ (writeU64 len ++ p) ++ rest'
        ↔
      len.toNat = maxProofSize ∧ rest = rest' := by
  have hfull : o.proof.bytes.length = maxProofSize := by
    rw [hbytes, List.length_append, List.length_replicate]
    omega
  have hwrite : o.write .full
      = writeU8 o.features.toU8 ++ o.commit.toList ++ (writeU64 675 ++ o.proof.bytes) := by
    rw [Output.write, writeBytes, hfull]
    rfl
  rw [hwrite, List.append_assoc, List.append_assoc _ _ rest', List.append_cancel_left_eq, List.append_assoc,
    List.append_assoc]
  constructor
  . intro h
    obtain ⟨hlen, hrest⟩ := List.append_inj h ((length_writeU64 _).trans (length_writeU64 _).symm)
    obtain rfl := writeU64_inj hlen
    have hlength : o.proof.bytes.length = p.length := by rw [hfull, hp]; rfl
    exact ⟨rfl, (List.append_inj hrest hlength).2⟩
  . rintro ⟨hlen, rfl⟩
    obtain rfl : len = 675 := UInt64.toNat_inj.mp hlen
    rw [hlen, Nat.min_self] at hp
    rw [hbytes, hp, Nat.sub_self, List.replicate_zero, List.append_nil]

theorem flatMap_write_eq_iff
    (h : List.Forall₂ ReadFrom outputs inputs) (rest : List UInt8)
    : outputs.flatMap (Output.write .full) ++ rest = inputs.flatten ++ rest
        ↔
      ∀ len ∈ outputProofLengths outputs.length (inputs.flatten ++ rest), len = maxProofSize := by
  induction h with
  | nil => simp [outputProofLengths]
  | @cons o input outputs inputs hfirst hall ih =>
    obtain ⟨len, p, hp, hbytes, rfl⟩ := hfirst
    rw [List.flatMap_cons, List.append_assoc, List.flatten_cons, List.append_assoc, write_eq_iff hp hbytes, ih,
      List.length_cons, outputProofLengths_cons hp, List.forall_mem_cons]

end Output.ReadFrom

namespace TransactionBody.ReadFrom

variable {tx : Transaction} {outputs : List (List UInt8)} {bytes : List UInt8}

theorem proofLengths (h : tx.body.ReadFrom outputs bytes)
    : Epic.proofLengths (tx.offset.toList ++ bytes)
        =
      outputProofLengths tx.body.outputs.length (outputs.flatten ++ tx.body.kernels.flatMap TxKernel.write) := by
  have hoffset : tx.offset.toList.length = 32 := tx.offset.toList_length
  have hinputs : (tx.body.inputs.flatMap Input.write).length = 34 * tx.body.inputs.length := by
    rw [List.length_flatMap, List.map_congr_left fun i _ => length_identifier i.features i.commit]
    simp [Nat.mul_comm]
  have hinputLen : Bytes.ofBE (((tx.offset.toList ++ bytes).drop 32).take 8) = tx.body.inputs.length := by
    rw [List.drop_left' hoffset, h.input, writeWith, List.take_left' (length_writeU64 _),
      ofBE_writeU64 h.inputs_lt]
  have houtputLen : Bytes.ofBE (((tx.offset.toList ++ bytes).drop 40).take 8) = tx.body.outputs.length := by
    rw [← List.drop_drop (i := 8) (j := 32), List.drop_left' hoffset, h.input, writeWith,
      List.drop_left' (length_writeU64 _), List.take_left' (length_writeU64 _), ofBE_writeU64 h.outputs_lt]
  have hrest : (tx.offset.toList ++ bytes).drop (56 + 34 * tx.body.inputs.length)
      = outputs.flatten ++ tx.body.kernels.flatMap TxKernel.write := by
    rw [h.input, writeWith,
      show 56 + 34 * tx.body.inputs.length = 32 + (8 + (8 + (8 + 34 * tx.body.inputs.length))) by omega]
    rw [← List.drop_drop, List.drop_left' hoffset, ← List.drop_drop, List.drop_left' (length_writeU64 _),
      ← List.drop_drop, List.drop_left' (length_writeU64 _), ← List.drop_drop,
      List.drop_left' (length_writeU64 _), List.drop_left' hinputs]
  rw [Epic.proofLengths, hinputLen, houtputLen, hrest]

theorem write_eq_iff (h : tx.body.ReadFrom outputs bytes)
    : tx.write = tx.offset.toList ++ bytes
        ↔
      ∀ len ∈ Epic.proofLengths (tx.offset.toList ++ bytes), len = maxProofSize := by
  rw [h.proofLengths, ← Output.ReadFrom.flatMap_write_eq_iff h.outputsRead, Transaction.write, h.input,
    write_eq_writeWith, writeWith, writeWith]
  simp only [List.append_cancel_left_eq]

end TransactionBody.ReadFrom

theorem transaction_write_eq_iff (env : Env) (kind : ReaderKind)
    (hsig : ∀ data, env.secp.fromRawData data = some data) {s t : Source} {tx : Transaction}
    (hread : Transaction.read env kind s = (.ok tx, t)) (hall : t.bytes = [])
    : tx.write = s.bytes ↔ ∀ len ∈ proofLengths s.bytes, len = maxProofSize := by
  obtain ⟨input, hbytes, outputs, bytes, hfrom, hinput⟩ := Transaction.reading env kind hsig s tx t hread
  rw [hall, List.append_nil] at hbytes
  rw [List.nil_append] at hinput
  rw [hbytes, hinput, hfrom.write_eq_iff]

namespace Transaction.Sample

def output : Output := ⟨.plain, .replicate 33 0, ⟨.replicate maxProofSize 0, maxProofSize, Nat.le_refl _⟩⟩

def tx : Transaction := ⟨.replicate 32 0, ⟨[], [output], []⟩⟩

-- the range proof has one byte here
def short : List UInt8 :=
  tx.offset.toList
    ++ tx.body.writeWith (writeU8 output.features.toU8 ++ output.commit.toList ++ (writeU64 1 ++ [0]))

end Transaction.Sample

theorem transaction_write_eq_iff_sample
    : Transaction.read (Transparent.env .mainnet) .bin ⟨Transaction.Sample.tx.write, 0⟩
          = (.ok Transaction.Sample.tx, ⟨[], 0⟩)
        ∧
      ∀ len ∈ proofLengths Transaction.Sample.tx.write, len = maxProofSize := by
  have hread : Transaction.read (Transparent.env .mainnet) .bin ⟨Transaction.Sample.tx.write, 0⟩
      = (.ok Transaction.Sample.tx, ⟨[], 0⟩) := by decide +kernel
  exact ⟨hread, (transaction_write_eq_iff _ _ (fun _ => rfl) hread rfl).mp rfl⟩

theorem transaction_write_ne_short
    : Transaction.read (Transparent.env .mainnet) .bin ⟨Transaction.Sample.short, 0⟩
          = (.ok Transaction.Sample.tx, ⟨[], 0⟩)
        ∧
      Transaction.read (Transparent.env .mainnet) .bin ⟨Transaction.Sample.tx.write, 0⟩
          = (.ok Transaction.Sample.tx, ⟨[], 0⟩)
        ∧
      Transaction.Sample.tx.write ≠ Transaction.Sample.short := by
  decide +kernel

structure Transaction.WellFormed (env : Env) (tx : Transaction) : Prop where
  weight : tx.body.bodyWeightAsBlock
    ≤ (Global.maxBlockWeight env.chainType).toNat
      - (Consensus.blockOutputWeight + Consensus.blockKernelWeight).toNat
  inputs : (tx.body.inputs.map (·.hash env)).Pairwise (· < ·)
  outputs : (tx.body.outputs.map (·.hash env)).Pairwise (· < ·)
  kernels : (tx.body.kernels.map (·.hash env)).Pairwise (· < ·)
  disjoint : ∀ x ∈ tx.body.inputs, ∀ y ∈ tx.body.outputs, x.hash env ≠ y.hash env
  outputFeatures : ∀ o ∈ tx.body.outputs, o.features ≠ .coinbase
  kernelFeatures : ∀ k ∈ tx.body.kernels, k.features ≠ .coinbase

theorem Transaction.validateRead_eq_ok {tx : Transaction}
    : tx.validateRead env = .ok () ↔ tx.WellFormed env := by
  have hcut (hinputs : (tx.body.inputs.map (·.hash env)).Pairwise (· < ·))
      (houtputs : (tx.body.outputs.map (·.hash env)).Pairwise (· < ·))
      : tx.body.verifyCutThrough env = .ok ()
          ↔ ∀ x ∈ tx.body.inputs, ∀ y ∈ tx.body.outputs, x.hash env ≠ y.hash env := by
    constructor
    . intro h x hx y hy
      exact TransactionBody.ne_of_cutThroughLoop hinputs houtputs (by simp) h _ (List.mem_map_of_mem hx) _
        (List.mem_map_of_mem hy)
    . intro h
      exact TransactionBody.cutThroughLoop_of_ne (by simpa using h)
  constructor
  . intro h
    simp only [validateRead, TransactionBody.validateRead, Outcome.bind_eq_ok] at h
    obtain ⟨⟨⟩, ⟨⟨⟩, hweight, ⟨⟩, hsorted, hdisjoint⟩, hfeatures⟩ := h
    obtain ⟨hinputs, houtputs, hkernels⟩ := TransactionBody.verifySorted_eq_ok.mp hsorted
    obtain ⟨houtputFeatures, hkernelFeatures⟩ := TransactionBody.verifyFeatures_eq_ok.mp hfeatures
    exact ⟨Outcome.require_eq_ok.mp hweight, hinputs, houtputs, hkernels,
      (hcut hinputs houtputs).mp hdisjoint, houtputFeatures, hkernelFeatures⟩
  . intro h
    simp only [validateRead, TransactionBody.validateRead, Outcome.bind_eq_ok]
    exact ⟨(), ⟨(), Outcome.require_eq_ok.mpr h.weight, (),
      TransactionBody.verifySorted_eq_ok.mpr ⟨h.inputs, h.outputs, h.kernels⟩,
      (hcut h.inputs h.outputs).mpr h.disjoint⟩,
      TransactionBody.verifyFeatures_eq_ok.mpr ⟨h.outputFeatures, h.kernelFeatures⟩⟩

namespace TransactionBody

section

variable (env : Env) (kind : ReaderKind) (hsig : ∀ data, env.secp.fromRawData data = some data)
  {body : TransactionBody} (hplen : ∀ o ∈ body.outputs, o.proof.plen = maxProofSize)

theorem length_le_of_weight (hweight : body.bodyWeightAsBlock ≤ (Global.maxBlockWeight env.chainType).toNat)
    : body.inputs.length ≤ 1000000 ∧ body.outputs.length ≤ 1000000 ∧ body.kernels.length ≤ 1000000 := by
  have hmax : (Global.maxBlockWeight env.chainType).toNat ≤ 40000 := by
    cases env.chainType <;> decide
  have hinput : Consensus.blockInputWeight.toNat = 1 := rfl
  have houtput : Consensus.blockOutputWeight.toNat = 21 := rfl
  have hkernel : Consensus.blockKernelWeight.toNat = 3 := rfl
  simp only [bodyWeightAsBlock, weightAsBlock, hinput, houtput, hkernel] at hweight
  omega

include hsig hplen

theorem decoding (hweight : body.bodyWeightAsBlock ≤ (Global.maxBlockWeight env.chainType).toNat)
    (hsorted : body.verifySorted env = .ok ())
    : Decoding (TransactionBody.read env kind) body.write body := by
  obtain ⟨hinputs, houtputs, hkernels⟩ := length_le_of_weight env hweight
  rw [write_eq_writeWith, writeWith, ← List.append_nil (body.kernels.flatMap _)]
  apply (decoding_readU64 env kind _).bind
  apply (decoding_readU64 env kind _).bind
  apply (decoding_readU64 env kind _).bind
  refine .lift_bind (c := ()) ?_ ?_
  . rw [toNat_ofNat_of_le hinputs, toNat_ofNat_of_le houtputs, toNat_ofNat_of_le hkernels]
    exact Outcome.require_eq_ok.mpr (Nat.not_lt.mpr hweight)
  apply (decoding_readMulti hinputs fun i _ => Input.decoding env kind i).bind
  apply (decoding_readMulti houtputs fun o ho => Output.decoding env kind (hplen o ho)).bind
  apply (decoding_readMulti hkernels fun k _ => TxKernel.decoding env kind hsig k).bind
  exact .lift_bind (c := ()) (Outcome.mapErr_eq_ok.mpr hsorted) .pure

theorem refuses_of_not_sorted (hweight : body.bodyWeightAsBlock ≤ (Global.maxBlockWeight env.chainType).toNat)
    (hsorted : body.verifySorted env ≠ .ok ())
    : Refusing (TransactionBody.read env kind) body.write := by
  obtain ⟨hinputs, houtputs, hkernels⟩ := length_le_of_weight env hweight
  obtain ⟨e, he⟩ := Outcome.exists_err (returns_verifySorted env body) hsorted
  rw [write_eq_writeWith, writeWith, ← List.append_nil (body.kernels.flatMap _)]
  apply Refuses.bind (decoding_readU64 env kind _)
  apply Refuses.bind (decoding_readU64 env kind _)
  apply Refuses.bind (decoding_readU64 env kind _)
  refine .lift_bind (c := ()) ?_ ?_
  . rw [toNat_ofNat_of_le hinputs, toNat_ofNat_of_le houtputs, toNat_ofNat_of_le hkernels]
    exact Outcome.require_eq_ok.mpr (Nat.not_lt.mpr hweight)
  apply Refuses.bind (decoding_readMulti hinputs fun i _ => Input.decoding env kind i)
  apply Refuses.bind (decoding_readMulti houtputs fun o ho => Output.decoding env kind (hplen o ho))
  apply Refuses.bind (decoding_readMulti hkernels fun k _ => TxKernel.decoding env kind hsig k)
  exact .lift_err (Outcome.mapErr_eq_err.mpr ⟨e, he, rfl⟩)

omit hsig hplen in
theorem lengths_lt (h : body.write.length < 2 ^ 64)
    : body.inputs.length < 2 ^ 64 ∧ body.outputs.length < 2 ^ 64 ∧ body.kernels.length < 2 ^ 64 := by
  have hinputs := length_le_length_flatMap (f := Input.write) (by simp [Input.write]) body.inputs
  have houtputs := length_le_length_flatMap (f := Output.write .full) (by simp [Output.write, writeU8]) body.outputs
  have hkernels := length_le_length_flatMap (f := TxKernel.write) (by simp [TxKernel.write, writeU8]) body.kernels
  simp only [TransactionBody.write, List.length_append] at h
  omega

omit hsig hplen in
theorem refuses_of_weight (hlength : body.write.length < 2 ^ 64)
    (hweight : ¬ body.bodyWeightAsBlock ≤ (Global.maxBlockWeight env.chainType).toNat)
    : Refusing (TransactionBody.read env kind) body.write := by
  obtain ⟨hinputs, houtputs, hkernels⟩ := lengths_lt hlength
  rw [write_eq_writeWith, writeWith]
  apply Refuses.bind (decoding_readU64 env kind _)
  apply Refuses.bind (decoding_readU64 env kind _)
  apply Refuses.bind (decoding_readU64 env kind _)
  apply Refuses.lift_err
  rw [UInt64.toNat_ofNat_of_lt' hinputs, UInt64.toNat_ofNat_of_lt' houtputs, UInt64.toNat_ofNat_of_lt' hkernels]
  exact Outcome.require_eq_err.mpr ⟨not_not.mpr (Nat.lt_of_not_le hweight), rfl⟩

end

end TransactionBody

namespace Transaction

variable (env : Env) (kind : ReaderKind) (hsig : ∀ data, env.secp.fromRawData data = some data)
  {tx : Transaction} (hplen : ∀ o ∈ tx.body.outputs, o.proof.plen = maxProofSize)

theorem WellFormed.weight_le (h : tx.WellFormed env)
    : tx.body.bodyWeightAsBlock ≤ (Global.maxBlockWeight env.chainType).toNat :=
  Nat.le_trans h.weight (Nat.sub_le _ _)

include hsig hplen

theorem decoding (h : tx.WellFormed env)
    : Decoding (Transaction.read env kind) tx.write tx := by
  rw [Transaction.write, ← List.append_nil tx.body.write]
  apply (decoding_blindingFactor env kind _).bind
  apply (TransactionBody.decoding env kind hsig hplen h.weight_le
    (TransactionBody.verifySorted_eq_ok.mpr ⟨h.inputs, h.outputs, h.kernels⟩)).bind
  exact .lift_bind (c := ()) (Outcome.mapErr_eq_ok.mpr (validateRead_eq_ok.mpr h)) .pure

theorem refuses (hlength : tx.write.length < 2 ^ 64) (h : ¬ tx.WellFormed env)
    : Refusing (Transaction.read env kind) tx.write := by
  apply Refuses.bind (decoding_blindingFactor env kind _)
  by_cases hweight : tx.body.bodyWeightAsBlock ≤ (Global.maxBlockWeight env.chainType).toNat
  . by_cases hsorted : tx.body.verifySorted env = .ok ()
    . obtain ⟨e, he⟩ := Outcome.exists_err (returns_validateRead env tx) (mt validateRead_eq_ok.mp h)
      rw [← List.append_nil tx.body.write]
      apply Refuses.bind (TransactionBody.decoding env kind hsig hplen hweight hsorted)
      exact .lift_err (Outcome.mapErr_eq_err.mpr ⟨e, he, rfl⟩)
    . exact .of_bind (TransactionBody.refuses_of_not_sorted env kind hsig hplen hweight hsorted)
  . rw [Transaction.write, List.length_append] at hlength
    exact .of_bind (TransactionBody.refuses_of_weight env kind (by omega) hweight)

end Transaction

theorem transaction_read_write (env : Env) (kind : ReaderKind)
    (hsig : ∀ data, env.secp.fromRawData data = some data) (tx : Transaction)
    (hplen : ∀ o ∈ tx.body.outputs, o.proof.plen = maxProofSize) (hfits : Source.Fits ⟨tx.write, 0⟩)
    : (tx.WellFormed env → ∃ t, Transaction.read env kind ⟨tx.write, 0⟩ = (.ok tx, t) ∧ t.bytes = [])
        ∧
      (¬ tx.WellFormed env → ∃ e t, Transaction.read env kind ⟨tx.write, 0⟩ = (.err e, t)) := by
  constructor
  . intro h
    obtain ⟨t, ht, hrest, -⟩ := Transaction.decoding env kind hsig hplen h _ [] hfits (List.append_nil _).symm
    exact ⟨t, ht, hrest⟩
  . intro h
    have hlength : tx.write.length < 2 ^ 64 := by
      unfold Source.Fits at hfits
      dsimp only at hfits
      omega
    exact Transaction.refuses env kind hsig hplen hlength h _ [] hfits (List.append_nil _).symm

theorem transaction_read_write_sample
    : Transaction.Sample.tx.WellFormed (Transparent.env .mainnet)
        ∧
      ∃ t, Transaction.read (Transparent.env .mainnet) .streaming ⟨Transaction.Sample.tx.write, 0⟩
          = (.ok Transaction.Sample.tx, t)
        ∧ t.bytes = [] :=
  have hwellFormed : Transaction.Sample.tx.WellFormed (Transparent.env .mainnet) :=
    ⟨by decide, by decide, by decide, by decide, by decide, by decide, by decide⟩
  ⟨hwellFormed, (transaction_read_write (Transparent.env .mainnet) .streaming (fun _ => rfl)
    Transaction.Sample.tx (by decide) (by unfold Source.Fits; decide +kernel)).1 hwellFormed⟩

end Epic
