import Epic.Core.Genesis
import Epic.Core.Ser.Codec

/-!
This module contains the encoding of headers. Everything in it is unique but the order of the entries of
the two maps.
-/

namespace Epic

open Routine Ser Codec

namespace ProofOfWork

variable (env : Env) (kind : ReaderKind)

theorem decoding (h : pow.proof.Encodable env.chainType)
    : Decoding (ProofOfWork.read env kind) (pow.write env.chainType .full) pow := by
  have hinput : pow.write env.chainType .full
      = pow.totalDifficulty.write ++ (writeU32 pow.secondaryScaling ++ (writeU64 pow.nonce
        ++ (pow.proof.write env.chainType .full ++ (pow.seed.toList ++ [])))) := by
    simp [ProofOfWork.write, ProofOfWork.writePrePow]
  rw [hinput]
  apply (Difficulty.decoding env kind _).bind
  apply (decoding_readU32 env kind _).bind
  apply (decoding_readU64 env kind _).bind
  apply (Proof.decoding env kind h).bind
  have hseed := (reads_readFixedBytes env kind (n := 32) (by omega) (by omega)).decodes _ pow.seed.toList_length
  apply hseed.bind
  exact .lift_bind ((slice_eq_ok pow.seed.toList_length).mpr rfl) .pure

end ProofOfWork

namespace BlockHeader

-- the hashes are as long as the digest
structure Sized (h : BlockHeader) : Prop where
  prevHash : h.prevHash.bytes.length = 32
  prevRoot : h.prevRoot.bytes.length = 32
  outputRoot : h.outputRoot.bytes.length = 32
  rangeProofRoot : h.rangeProofRoot.bytes.length = 32
  kernelRoot : h.kernelRoot.bytes.length = 32

theorem fromTimestamp_timestamp {d : DateTime} (hrange : d.timestamp ≤ 8210298326400)
    : DateTime.fromTimestamp (Int64.ofInt d.timestamp) = .ok d.truncSubsecs := by
  have hmin := d.min_le
  have hvalue : (Int64.ofInt d.timestamp).toInt = d.timestamp :=
    Int64.toInt_ofInt_of_le (by omega) (by omega)
  unfold DateTime.fromTimestamp
  rw [dif_pos (by rw [hvalue]; exact ⟨hmin, hrange⟩)]
  simp only [hvalue]
  rfl

variable (env : Env) (kind : ReaderKind)

theorem decoding {h : BlockHeader} (hversion : h.version = Global.currentHeaderVersion) (hsized : h.Sized)
    (hrange : h.timestamp.timestamp ≤ 8210298326400) (hproof : h.pow.proof.Encodable env.chainType)
    : Decoding (BlockHeader.read env kind) (h.write env.chainType .full)
        { h with timestamp := h.timestamp.truncSubsecs } := by
  have hinput : h.write env.chainType .full
      = writeU16 h.version ++ (writeU64 h.height ++ (writeI64 h.timestamp.timestamp ++ (h.prevHash.write
        ++ (h.prevRoot.write ++ (h.outputRoot.write ++ (h.rangeProofRoot.write ++ (h.kernelRoot.write
        ++ (h.totalKernelOffset.toList ++ (writeU64 h.outputMmrSize ++ (writeU64 h.kernelMmrSize
        ++ (h.pow.write env.chainType .full ++ (writeU8 h.policy ++ (h.bottles.write ++ []))))))))))))) := by
    simp [BlockHeader.write, writePrePow]
  rw [hinput]
  apply (decoding_readU16 env kind _).bind
  apply (decoding_readU64 env kind _).bind
  apply (decoding_readI64 env kind _).bind
  apply (decoding_hash env kind hsized.prevHash).bind
  apply (decoding_hash env kind hsized.prevRoot).bind
  apply (decoding_hash env kind hsized.outputRoot).bind
  apply (decoding_hash env kind hsized.rangeProofRoot).bind
  apply (decoding_hash env kind hsized.kernelRoot).bind
  apply (decoding_blindingFactor env kind _).bind
  apply (decoding_readU64 env kind _).bind
  apply (decoding_readU64 env kind _).bind
  apply (ProofOfWork.decoding env kind hproof).bind
  apply (decoding_readU8 env kind _).bind
  apply (Policy.decoding env kind _).bind
  refine .lift_bind (fromTimestamp_timestamp hrange) (.lift_bind (c := ()) ?_ .pure)
  exact Outcome.require_eq_ok.mpr hversion

theorem length_write_le {p : Proof} (h : p.Encodable ct)
    : (p.write ct .full).length ≤ 338 := by
  cases p with
  | cuckoo edgeBits nonces =>
    have hle : edgeBits.toNat * Global.proofsize ct ≤ 64 * 42 :=
      Nat.mul_le_mul (UInt8.le_iff_toNat_le.mp h.2.1) (Proof.proofsize_le ct).2
    simp only [Proof.write, Proof.packNonces, writeU8, List.length_append, List.length_singleton,
      Bytes.length_packBits]
    omega
  | md5 proof edgeBits => exact h.elim
  | randomX v => simp [Proof.write, writeU8]
  | progPow v => simp [Proof.write, writeU8]

theorem length_write_full_le {h : BlockHeader} (hsized : h.Sized)
    (hproof : h.pow.proof.Encodable ct)
    : (h.write ct .full).length ≤ 681 := by
  have hwrite := length_write_le hproof
  have hdifficulty := h.pow.totalDifficulty.num.length_entries_le
  have hbottles := h.bottles.length_entries_le
  have hdifficultyLength := PoWMap.length_writeEntries length_writeU64
    h.pow.totalDifficulty.num.entries
  have hbottlesLength := PoWMap.length_writeEntries length_writeU32 h.bottles.entries
  simp only [BlockHeader.write, ProofOfWork.write, ProofOfWork.writePrePow, writePrePow,
    Difficulty.write_eq, Policy.write_eq, List.length_append, hdifficultyLength, hbottlesLength, Hash.write,
    hsized.prevHash, hsized.prevRoot, hsized.outputRoot, hsized.rangeProofRoot, hsized.kernelRoot,
    List.Vector.toList_length, writeU8, writeU16, writeU32, writeU64, writeI64, Bytes.length_beBytes,
    List.length_singleton]
  omega

theorem fits_write {h : BlockHeader} (hsized : h.Sized) (hproof : h.pow.proof.Encodable ct)
    : Source.Fits ⟨h.write ct .full, 0⟩ := by
  have hle := length_write_full_le hsized hproof
  simp only [Source.Fits, UInt64.toNat_zero]
  omega

end BlockHeader

theorem header_round_trip (env : Env) (kind : ReaderKind) (h : BlockHeader)
    (hversion : h.version = Global.currentHeaderVersion) (hsized : h.Sized)
    (hrange : h.timestamp.timestamp ≤ 8210298326400) (hproof : h.pow.proof.Encodable env.chainType)
    : ∃ h' t,
        BlockHeader.read env kind ⟨h.write env.chainType .full, 0⟩ = (.ok h', t)
          ∧
        t.bytes = []
          ∧
        h' = { h with timestamp := h.timestamp.truncSubsecs }
          ∧
        (h' = h ↔ h.timestamp.nanos = 0) := by
  obtain ⟨t, ht, hrest, -⟩ := BlockHeader.decoding env kind hversion hsized hrange hproof _ []
    (BlockHeader.fits_write hsized hproof) (List.append_nil _).symm
  refine ⟨_, t, ht, hrest, rfl, ?_⟩
  rw [← DateTime.truncSubsecs_eq_iff]
  constructor
  . exact congrArg BlockHeader.timestamp
  . intro heq
    rw [heq]

theorem encodable_genesisMain
    : Genesis.genesisMain.header.pow.proof.Encodable .mainnet :=
  Proof.encodable_cuckoo (by decide) (by decide) (by decide)

theorem header_round_trip_genesis
    : Genesis.genesisMain.header.pow.proof.Encodable .mainnet
        ∧
      ∃ t, BlockHeader.read (Transparent.env .mainnet) .streaming
          ⟨Genesis.genesisMain.header.write .mainnet .full, 0⟩ = (.ok Genesis.genesisMain.header, t)
        ∧ t.bytes = [] := by
  obtain ⟨h', t, hread, hrest, -, hwhole⟩ := header_round_trip (Transparent.env .mainnet) .streaming
    Genesis.genesisMain.header rfl ⟨rfl, rfl, rfl, rfl, rfl⟩ (by decide) encodable_genesisMain
  rw [hwhole.mpr rfl] at hread
  exact ⟨encodable_genesisMain, t, hread, hrest⟩

namespace BlockHeader.Sample

-- a nanosecond later
def subsecond : BlockHeader :=
  { Genesis.genesisMain.header with
    timestamp := { Genesis.genesisMain.header.timestamp with
      nanos := 1
      nanos_lt := by decide } }

end BlockHeader.Sample

open BlockHeader.Sample in
theorem header_read_drops_nanos
    : subsecond.version = Global.currentHeaderVersion
        ∧
      subsecond.Sized
        ∧
      subsecond.pow.proof.Encodable .mainnet
        ∧
      ∃ t, BlockHeader.read (Transparent.env .mainnet) .streaming ⟨subsecond.write .mainnet .full, 0⟩
          = (.ok Genesis.genesisMain.header, t)
        ∧ Genesis.genesisMain.header ≠ subsecond := by
  have hsized : subsecond.Sized := ⟨rfl, rfl, rfl, rfl, rfl⟩
  obtain ⟨t, hread, -⟩ := BlockHeader.decoding (Transparent.env .mainnet) .streaming (h := subsecond) rfl
    hsized (by decide) encodable_genesisMain _ [] (BlockHeader.fits_write hsized encodable_genesisMain)
    (List.append_nil _).symm
  refine ⟨rfl, hsized, encodable_genesisMain, t, hread, fun heq => ?_⟩
  exact Nat.zero_ne_one (congrArg (fun h : BlockHeader => h.timestamp.nanos) heq)

/-!
What a header was read from is its encoding, with the entries of the maps in any order.
-/

namespace BlockHeader

def writeWith (ct : ChainTypes) (h : BlockHeader) (difficulty : List (PoWType × UInt64))
    (bottles : List (PoWType × UInt32))
    : List UInt8 :=
  (writeU16 h.version ++ h.writePrePow)
    ++ (PoWMap.writeEntries writeU64 difficulty
    ++ ((writeU32 h.pow.secondaryScaling ++ writeU64 h.pow.nonce)
    ++ (h.pow.proof.write ct .full
    ++ ((h.pow.seed.toList ++ writeU8 h.policy)
    ++ PoWMap.writeEntries writeU32 bottles))))

theorem write_eq_writeWith (ct : ChainTypes) (h : BlockHeader)
    : h.write ct .full = h.writeWith ct h.pow.totalDifficulty.num.entries h.bottles.entries := by
  simp [BlockHeader.write, writeWith, ProofOfWork.write, ProofOfWork.writePrePow, Difficulty.write_eq,
    Policy.write_eq]

structure ReadFrom (ct : ChainTypes) (h : BlockHeader) (difficulty : List (PoWType × UInt64))
    (bottles : List (PoWType × UInt32)) (input : List UInt8)
    : Prop where
  sized : h.Sized
  proof : h.pow.proof.Sized
  difficulty_lt : difficulty.length < 2 ^ 64
  bottles_lt : bottles.length < 2 ^ 64
  totalDifficulty : h.pow.totalDifficulty = ⟨PoWMap.empty.insertAll difficulty⟩
  bottlesRead : h.bottles = PoWMap.empty.insertAll bottles
  input : input = h.writeWith ct difficulty bottles

end BlockHeader

section

variable (env : Env) (kind : ReaderKind)

theorem ProofOfWork.reading
    : Reading (ProofOfWork.read env kind) fun pow input =>
        ∃ l, l.length < 2 ^ 64 ∧ pow.totalDifficulty = ⟨PoWMap.empty.insertAll l⟩ ∧ pow.proof.Sized
          ∧ input = PoWMap.writeEntries writeU64 l ++ ((writeU32 pow.secondaryScaling ++ writeU64 pow.nonce)
            ++ (pow.proof.write env.chainType .full ++ pow.seed.toList)) := by
  apply (Difficulty.reading env kind).bind
  rintro _ _ ⟨l, hlength, rfl, rfl⟩
  apply (reading_readU32 env kind).bind
  rintro secondaryScaling _ rfl
  apply (reading_readU64 env kind).bind
  rintro nonce _ rfl
  apply (Proof.reading env kind).bind
  rintro proof _ ⟨hsized, rfl⟩
  apply (reading_readFixedBytes env kind 32).bind
  rintro _ seedBytes ⟨rfl, hseed⟩
  apply Consumes.lift_bind
  intro seed hslice
  obtain rfl := (slice_eq_ok hseed).mp hslice
  refine .pure ⟨l, hlength, rfl, hsized, ?_⟩
  simp

theorem BlockHeader.reading
    : Reading (BlockHeader.read env kind) fun h input =>
        ∃ difficulty bottles, ReadFrom env.chainType h difficulty bottles input := by
  apply (reading_readU16 env kind).bind
  rintro version _ rfl
  apply (reading_readU64 env kind).bind
  rintro height _ rfl
  apply (reading_readI64 env kind).bind
  rintro timestamp _ rfl
  apply (reading_hash env kind).bind
  rintro prevHash _ ⟨rfl, hprevHash⟩
  apply (reading_hash env kind).bind
  rintro prevRoot _ ⟨rfl, hprevRoot⟩
  apply (reading_hash env kind).bind
  rintro outputRoot _ ⟨rfl, houtputRoot⟩
  apply (reading_hash env kind).bind
  rintro rangeProofRoot _ ⟨rfl, hrangeProofRoot⟩
  apply (reading_hash env kind).bind
  rintro kernelRoot _ ⟨rfl, hkernelRoot⟩
  apply (reading_blindingFactor env kind).bind
  rintro totalKernelOffset _ rfl
  apply (reading_readU64 env kind).bind
  rintro outputMmrSize _ rfl
  apply (reading_readU64 env kind).bind
  rintro kernelMmrSize _ rfl
  apply (ProofOfWork.reading env kind).bind
  rintro pow _ ⟨difficulty, hdifficulty, htotal, hproof, rfl⟩
  apply (reading_readU8 env kind).bind
  rintro policy _ rfl
  apply (Policy.reading env kind).bind
  rintro _ _ ⟨bottles, hbottles, rfl, rfl⟩
  apply Consumes.lift_bind
  intro dateTime hdateTime
  apply Consumes.lift_bind
  intro _ hversion
  have htimestamp : timestamp.toInt = dateTime.timestamp := by
    unfold DateTime.fromTimestamp at hdateTime
    split at hdateTime
    . injection hdateTime with hdateTime
      rw [← hdateTime]
      rfl
    . contradiction
  refine .pure ⟨difficulty, bottles, ⟨hprevHash, hprevRoot, houtputRoot, hrangeProofRoot, hkernelRoot⟩,
    hproof, hdifficulty, hbottles, htotal, rfl, ?_⟩
  simp [BlockHeader.writeWith, BlockHeader.writePrePow, htimestamp]

end

/-!
The keys of the maps in the bytes of a header: those of the difficulty follow the fixed part, those of
the bottles follow a proof whose length depends on its kind.
-/

def entryKeys (valueLen count : Nat) (bytes : List UInt8) : List UInt8 :=
  match count with
  | 0 => []
  | count + 1 => bytes.getD 0 0 :: entryKeys valueLen count (bytes.drop (1 + valueLen))

def mapKeys (valueLen : Nat) (bytes : List UInt8) : List UInt8 :=
  entryKeys valueLen (Bytes.ofBE (bytes.take 8)) (bytes.drop 8)

def mapLength (valueLen : Nat) (bytes : List UInt8) : Nat := 8 + (1 + valueLen) * Bytes.ofBE (bytes.take 8)

def proofLength (ct : ChainTypes) (bytes : List UInt8) : Nat :=
  if bytes.getD 0 0 = 0 then
    2 + ((bytes.getD 1 0).toNat * Global.proofsize ct + 7) / 8
  else if bytes.getD 0 0 = 1 then
    10 + Bytes.ofBE ((bytes.drop 2).take 8)
  else
    33

def difficultyKeys (bytes : List UInt8) : List UInt8 := mapKeys 8 (bytes.drop 226)

def bottleKeys (ct : ChainTypes) (bytes : List UInt8) : List UInt8 :=
  let pow := (bytes.drop 226).drop (mapLength 8 (bytes.drop 226))
  let proof := pow.drop 12
  mapKeys 4 ((proof.drop (proofLength ct proof)).drop 33)

section

variable {α : Type} {write : α → List UInt8} {n : Nat} (hlength : ∀ v, (write v).length = n)
include hlength

theorem entryKeys_flatMap (l : List (PoWType × α)) (rest : List UInt8)
    : entryKeys n l.length ((l.flatMap fun x => writeU8 x.1.toU8 ++ write x.2) ++ rest)
        =
      l.map fun x => x.1.toU8 := by
  induction l with
  | nil => rfl
  | cons x l ih =>
    have hdrop : (writeU8 x.1.toU8 ++ write x.2).length = 1 + n := by
      rw [List.length_append, hlength]
      rfl
    rw [List.flatMap_cons, List.append_assoc, List.length_cons, entryKeys, List.drop_left' hdrop, ih]
    rfl

omit hlength in
theorem ofBE_take_writeEntries (hlt : l.length < 2 ^ 64) (rest : List UInt8)
    : Bytes.ofBE ((PoWMap.writeEntries write l ++ rest).take 8) = l.length := by
  rw [PoWMap.writeEntries, List.append_assoc, List.take_left' (length_writeU64 _), ofBE_writeU64 hlt]

theorem mapKeys_writeEntries (hlt : l.length < 2 ^ 64) (rest : List UInt8)
    : mapKeys n (PoWMap.writeEntries write l ++ rest) = l.map fun x => x.1.toU8 := by
  rw [mapKeys, ofBE_take_writeEntries hlt, PoWMap.writeEntries, List.append_assoc,
    List.drop_left' (length_writeU64 _)]
  exact entryKeys_flatMap hlength l rest

theorem mapLength_writeEntries (hlt : l.length < 2 ^ 64) (rest : List UInt8)
    : mapLength n (PoWMap.writeEntries write l ++ rest) = (PoWMap.writeEntries write l).length := by
  rw [mapLength, ofBE_take_writeEntries hlt, PoWMap.length_writeEntries hlength]

end

theorem proofLength_write {p : Proof} (h : p.Sized) (ct : ChainTypes) (rest : List UInt8)
    : proofLength ct (p.write ct .full ++ rest) = (p.write ct .full).length := by
  cases p with
  | cuckoo edgeBits nonces =>
    have hfirst : proofLength ct ((Proof.cuckoo edgeBits nonces).write ct .full ++ rest)
        = 2 + (edgeBits.toNat * Global.proofsize ct + 7) / 8 := rfl
    rw [hfirst, Proof.write, List.length_append, Proof.packNonces, Bytes.length_packBits]
    rfl
  | md5 proof edgeBits =>
    have hfirst : proofLength ct ((Proof.md5 proof edgeBits).write ct .full ++ rest)
        = 10 + Bytes.ofBE ((writeBytes proof.toUTF8.toList ++ rest).take 8) := rfl
    rw [hfirst, writeBytes, List.append_assoc, List.take_left' (length_writeU64 _), ofBE_writeU64 h]
    simp only [Proof.write, writeBytes, writeU8, writeU64, List.length_append, Bytes.length_beBytes,
      List.length_singleton]
    omega
  | randomX v => simp [Proof.write, proofLength, writeU8]
  | progPow v => simp [Proof.write, proofLength, writeU8]

namespace BlockHeader

section

variable {ct : ChainTypes} {h : BlockHeader} {difficulty : List (PoWType × UInt64)}
  {bottles : List (PoWType × UInt32)} {input : List UInt8}

theorem length_fixed (hsized : h.Sized)
    : (writeU16 h.version ++ h.writePrePow).length = 226 := by
  simp only [writePrePow, List.length_append, Hash.write, hsized.prevHash, hsized.prevRoot,
    hsized.outputRoot, hsized.rangeProofRoot, hsized.kernelRoot, List.Vector.toList_length, writeU16,
    writeU64, writeI64, Bytes.length_beBytes]

theorem ReadFrom.difficultyKeys (hread : ReadFrom ct h difficulty bottles input)
    : Epic.difficultyKeys input = difficulty.map fun x => x.1.toU8 := by
  rw [hread.input, writeWith, Epic.difficultyKeys, List.drop_left' (length_fixed hread.sized)]
  exact mapKeys_writeEntries length_writeU64 hread.difficulty_lt _

theorem ReadFrom.bottleKeys (hread : ReadFrom ct h difficulty bottles input)
    : Epic.bottleKeys ct input = bottles.map fun x => x.1.toU8 := by
  have hscaling : (writeU32 h.pow.secondaryScaling ++ writeU64 h.pow.nonce).length = 12 := by
    simp [writeU32, writeU64]
  have hpolicy : (h.pow.seed.toList ++ writeU8 h.policy).length = 33 := by simp [writeU8]
  unfold Epic.bottleKeys
  rw [hread.input, writeWith, List.drop_left' (length_fixed hread.sized),
    mapLength_writeEntries length_writeU64 hread.difficulty_lt, List.drop_left' rfl]
  dsimp only
  rw [List.drop_left' hscaling, proofLength_write hread.proof, List.drop_left' rfl, List.drop_left' hpolicy,
    ← List.append_nil (PoWMap.writeEntries writeU32 bottles)]
  exact mapKeys_writeEntries length_writeU32 hread.bottles_lt _

theorem ReadFrom.write_eq_iff (hread : ReadFrom ct h difficulty bottles input)
    : h.write ct .full = input ↔ PoWMap.Ascending difficulty ∧ PoWMap.Ascending bottles := by
  have htotal : h.pow.totalDifficulty.num = PoWMap.empty.insertAll difficulty := by rw [hread.totalDifficulty]
  rw [← PoWMap.entries_insertAll_eq_iff, ← PoWMap.entries_insertAll_eq_iff, ← htotal, ← hread.bottlesRead,
    write_eq_writeWith, hread.input]
  constructor
  . intro heq
    unfold writeWith at heq
    have hmaps := List.append_cancel_left heq
    have hsmall := Nat.lt_of_le_of_lt h.pow.totalDifficulty.num.length_entries_le
      (by decide : 4 < 2 ^ 64)
    have hsmall' := Nat.lt_of_le_of_lt h.bottles.length_entries_le (by decide : 4 < 2 ^ 64)
    obtain ⟨hdifficulty, hrest⟩ := PoWMap.writeEntries_inj (n := 8) length_writeU64
      (fun v w => writeU64_inj) hsmall hread.difficulty_lt hmaps
    have hbottles := List.append_cancel_left (List.append_cancel_left (List.append_cancel_left hrest))
    rw [← List.append_nil (PoWMap.writeEntries writeU32 _),
      ← List.append_nil (PoWMap.writeEntries writeU32 bottles)] at hbottles
    exact ⟨hdifficulty, (PoWMap.writeEntries_inj (n := 4) length_writeU32
      (fun v w => writeU32_inj) hsmall' hread.bottles_lt hbottles).1⟩
  . rintro ⟨hdifficulty, hbottles⟩
    rw [hdifficulty, hbottles]

end

end BlockHeader

theorem header_write_eq_iff_ascending (env : Env) (kind : ReaderKind) {s t : Source} {h : BlockHeader}
    (hread : BlockHeader.read env kind s = (.ok h, t)) (hall : t.bytes = [])
    : h.write env.chainType .full = s.bytes
        ↔
      (difficultyKeys s.bytes).Pairwise (· < ·) ∧ (bottleKeys env.chainType s.bytes).Pairwise (· < ·) := by
  obtain ⟨input, hbytes, difficulty, bottles, hfrom⟩ := BlockHeader.reading env kind s h t hread
  rw [hall, List.append_nil] at hbytes
  rw [List.nil_append] at hfrom
  rw [hbytes, hfrom.write_eq_iff, hfrom.difficultyKeys, hfrom.bottleKeys]
  rfl

namespace BlockHeader.Sample

def header : BlockHeader :=
  { Genesis.genesisMain.header with
    pow := ⟨⟨⟨some 2, some 1, none, none⟩⟩, 1, 7, .randomX (.replicate 32 0), .replicate 32 0⟩ }

def swapped : List UInt8 := header.writeWith .mainnet [(.cuckatoo, 1), (.cuckaroo, 2)] header.bottles.entries

end BlockHeader.Sample

theorem header_write_eq_iff_ascending_sample
    : (difficultyKeys (BlockHeader.Sample.header.write .mainnet .full)).Pairwise (· < ·)
        ∧ (bottleKeys .mainnet (BlockHeader.Sample.header.write .mainnet .full)).Pairwise (· < ·) :=
  (header_write_eq_iff_ascending (Transparent.env .mainnet) .bin
    (s := ⟨BlockHeader.Sample.header.write .mainnet .full, 0⟩) (t := ⟨[], 0⟩) (by decide +kernel) rfl).mp rfl

-- the same header from the entries of the difficulty in the other order
theorem header_write_ne_swapped
    : BlockHeader.read (Transparent.env .mainnet) .bin ⟨BlockHeader.Sample.swapped, 0⟩
          = (.ok BlockHeader.Sample.header, ⟨[], 0⟩)
        ∧
      BlockHeader.read (Transparent.env .mainnet) .bin ⟨BlockHeader.Sample.header.write .mainnet .full, 0⟩
          = (.ok BlockHeader.Sample.header, ⟨[], 0⟩)
        ∧
      BlockHeader.Sample.header.write .mainnet .full ≠ BlockHeader.Sample.swapped := by
  decide +kernel

end Epic
