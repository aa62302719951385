import Epic.Util.MachineInt
import Epic.Util.Routine
import Epic.Util.Bytes
import Mathlib.Algebra.Module.Defs
import Mathlib.Data.Vector.Basic

/-!
This module contains the derivation of keys of `keychain/src/extkey_bip32.rs`: a path of child numbers
leads from an extended private key to a private one and from an extended public key to a public one.
-/

namespace Epic
namespace Keychain

inductive SecpError where
  | incapableContext
  | invalidSecretKey
  | invalidPublicKey
deriving DecidableEq, Repr

inductive ChildNumber where
  | normal (index : UInt32)
  | hardened (index : UInt32)
deriving DecidableEq, Repr

def ChildNumber.toU32 (cnum : ChildNumber) : UInt32 :=
  match cnum with
  | .normal index => index
  | .hardened index => index ||| (1 : UInt32) <<< 31

inductive Error where
  | cannotDeriveFromHardenedKey
  | ecdsa (e : SecpError)
deriving DecidableEq, Repr

abbrev ChainCode := List.Vector UInt8 32
abbrev Fingerprint := List.Vector UInt8 4

-- a group of points with an action of the scalars
structure Secp256k1 (K P : Type) where
  base : P
  canSign : Bool
  canVerify : Bool
  parseSecretKey : List UInt8 → Option K
  secretKeyBytes : K → List UInt8
  serializeVec : P → List UInt8

structure ExtendedPrivKey (K : Type) where
  network : List.Vector UInt8 4
  depth : UInt8
  parentFingerprint : Fingerprint
  childNumber : ChildNumber
  secretKey : K
  chainCode : ChainCode
deriving DecidableEq

structure ExtendedPubKey (P : Type) where
  network : List.Vector UInt8 4
  depth : UInt8
  parentFingerprint : Fingerprint
  childNumber : ChildNumber
  publicKey : P
  chainCode : ChainCode
deriving DecidableEq

structure BIP32Hasher where
  State : Type
  networkPriv : List.Vector UInt8 4
  networkPub : List.Vector UInt8 4
  masterSeed : List UInt8
  initSha512 : State → List UInt8 → State
  appendSha512 : State → List UInt8 → State
  resultSha512 : State → List.Vector UInt8 64 × State
  sha256 : List UInt8 → List.Vector UInt8 32
  ripemd160 : List UInt8 → List.Vector UInt8 20
  hmac : List UInt8 → List (List UInt8) → List.Vector UInt8 64
  -- the result is a function of what was put in since the start
  result_eq_hmac : ∀ s key chunks, (resultSha512 (chunks.foldl appendSha512 (initSha512 s key))).1 = hmac key chunks

namespace BIP32Hasher

variable (hasher : BIP32Hasher)

def init (seed : List UInt8) : Routine hasher.State Error Unit := Routine.modify (hasher.initSha512 · seed)

def append (value : List UInt8) : Routine hasher.State Error Unit := Routine.modify (hasher.appendSha512 · value)

def result : Routine hasher.State Error (List.Vector UInt8 64) := fun s =>
  (.ok (hasher.resultSha512 s).1, (hasher.resultSha512 s).2)

variable {hasher}

theorem result_of_append {s₀ s₁ s₂ s₃ s₄ : hasher.State} {key a b : List UInt8} {u₁ u₂ u₃ : Unit}
    {result : List.Vector UInt8 64} (hinit : hasher.init key s₀ = (.ok u₁, s₁))
    (ha : hasher.append a s₁ = (.ok u₂, s₂)) (hb : hasher.append b s₂ = (.ok u₃, s₃))
    (hresult : hasher.result s₃ = (.ok result, s₄))
    : result = hasher.hmac key [a, b] := by
  cases hinit
  cases ha
  cases hb
  cases hresult
  exact hasher.result_eq_hmac s₀ key [a, b]

end BIP32Hasher

section

variable {K P : Type} [Ring K] [AddCommGroup P] [Module K P]

namespace Secp256k1

variable (secp : Secp256k1 K P)

def signOnly : Secp256k1 K P := { secp with canSign := true, canVerify := false }

def publicFromSecretKey (sk : K) : Outcome Error P :=
  if secp.canSign then .ok (sk • secp.base) else .err (.ecdsa .incapableContext)

def secretKeyFromSlice (data : List UInt8) : Outcome Error K :=
  Outcome.okOr (secp.parseSecretKey data) (.ecdsa .invalidSecretKey)

-- `sk.add_assign(secp, other)`
def addAssign [DecidableEq K] (sk other : K) : Outcome Error K := do
  Outcome.require (sk + other ≠ 0) (.ecdsa .invalidSecretKey)
  return sk + other

-- `pk.add_exp_assign(secp, other)`
def addExpAssign [DecidableEq P] (pk : P) (other : K) : Outcome Error P := do
  Outcome.require (secp.canVerify = true) (.ecdsa .incapableContext)
  Outcome.require (pk + other • secp.base ≠ 0) (.ecdsa .invalidPublicKey)
  return pk + other • secp.base

end Secp256k1

def leftHalf (result : List.Vector UInt8 64) : List UInt8 := result.toList.take 32

def rightHalf (result : List.Vector UInt8 64) : ChainCode := ⟨result.toList.drop 32, by simp⟩

def firstFour (identifier : List.Vector UInt8 20) : Fingerprint := ⟨identifier.toList.take 4, by simp⟩

variable (checks : Bool) (secp : Secp256k1 K P) (hasher : BIP32Hasher)

def ExtendedPubKey.fromPrivate (sk : ExtendedPrivKey K) : Outcome Error (ExtendedPubKey P) := do
  -- an error would be unwrapped
  Outcome.assert (secp.publicFromSecretKey sk.secretKey).isOk
  let publicKey ← secp.publicFromSecretKey sk.secretKey
  return {
    network := hasher.networkPub
    depth := sk.depth
    parentFingerprint := sk.parentFingerprint
    childNumber := sk.childNumber
    publicKey := publicKey
    chainCode := sk.chainCode }

namespace ExtendedPrivKey

def identifier (self : ExtendedPrivKey K) : Outcome Error (List.Vector UInt8 20) := do
  let secp := secp.signOnly
  let pk ← ExtendedPubKey.fromPrivate secp hasher self
  let sha2Res := hasher.sha256 (secp.serializeVec pk.publicKey)
  return hasher.ripemd160 sha2Res.toList

def fingerprint (self : ExtendedPrivKey K) : Outcome Error Fingerprint :=
  firstFour <$> self.identifier secp hasher

def ckdPriv [DecidableEq K] (self : ExtendedPrivKey K) (i : ChildNumber)
    : Routine hasher.State Error (ExtendedPrivKey K) := do
  hasher.init self.chainCode.toList
  match i with
  | .normal _ => do
    let pk ← Routine.lift (secp.publicFromSecretKey self.secretKey)
    hasher.append (secp.serializeVec pk)
  | .hardened _ => do
    hasher.append [0]
    hasher.append (secp.secretKeyBytes self.secretKey)
  hasher.append (Bytes.beBytes 4 i.toU32.toNat)
  let result ← hasher.result
  let sk ← Routine.lift (secp.secretKeyFromSlice (leftHalf result))
  let sk ← Routine.lift (Secp256k1.addAssign sk self.secretKey)
  let depth ← Routine.lift (MachineInt.add checks self.depth 1)
  let parentFingerprint ← Routine.lift (self.fingerprint secp hasher)
  return {
    network := self.network
    depth := depth
    parentFingerprint := parentFingerprint
    childNumber := i
    secretKey := sk
    chainCode := rightHalf result }

def derivePriv [DecidableEq K] (self : ExtendedPrivKey K) (cnums : List ChildNumber)
    : Routine hasher.State Error (ExtendedPrivKey K) :=
  cnums.foldlM (fun sk cnum => sk.ckdPriv checks secp hasher cnum) self

end ExtendedPrivKey

namespace ExtendedPubKey

def identifier (self : ExtendedPubKey P) : List.Vector UInt8 20 :=
  let sha2Res := hasher.sha256 (secp.serializeVec self.publicKey)
  hasher.ripemd160 sha2Res.toList

def fingerprint (self : ExtendedPubKey P) : Fingerprint := firstFour (self.identifier secp hasher)

def ckdPubTweak (self : ExtendedPubKey P) (i : ChildNumber) : Routine hasher.State Error (K × ChainCode) :=
  match i with
  | .hardened _ => Routine.lift (.err .cannotDeriveFromHardenedKey)
  | .normal n => do
    hasher.init self.chainCode.toList
    hasher.append (secp.serializeVec self.publicKey)
    hasher.append (Bytes.beBytes 4 n.toNat)
    let result ← hasher.result
    let secretKey ← Routine.lift (secp.secretKeyFromSlice (leftHalf result))
    return (secretKey, rightHalf result)

def ckdPub [DecidableEq P] (self : ExtendedPubKey P) (i : ChildNumber)
    : Routine hasher.State Error (ExtendedPubKey P) := do
  let (sk, chainCode) ← self.ckdPubTweak secp hasher i
  let pk ← Routine.lift (secp.addExpAssign self.publicKey sk)
  let depth ← Routine.lift (MachineInt.add checks self.depth 1)
  return {
    network := self.network
    depth := depth
    parentFingerprint := self.fingerprint secp hasher
    childNumber := i
    publicKey := pk
    chainCode := chainCode }

def derivePub [DecidableEq P] (self : ExtendedPubKey P) (cnums : List ChildNumber)
    : Routine hasher.State Error (ExtendedPubKey P) :=
  cnums.foldlM (fun pk cnum => pk.ckdPub checks secp hasher cnum) self

end ExtendedPubKey

variable {checks secp hasher}

theorem publicFromSecretKey_eq_ok
    : secp.publicFromSecretKey sk = .ok pk ↔ secp.canSign = true ∧ pk = sk • secp.base := by
  unfold Secp256k1.publicFromSecretKey
  split
  . next h => simp [h, eq_comm]
  . next h => simp [h]

theorem ExtendedPubKey.fromPrivate_eq_ok
    : ExtendedPubKey.fromPrivate secp hasher sk = .ok pk ↔ secp.canSign = true
        ∧ pk = ⟨hasher.networkPub, sk.depth, sk.parentFingerprint, sk.childNumber, sk.secretKey • secp.base,
            sk.chainCode⟩ := by
  simp only [ExtendedPubKey.fromPrivate, Outcome.bind_eq_ok, Outcome.assert_eq_ok, Outcome.isOk_eq_true,
    publicFromSecretKey_eq_ok, Outcome.pure_eq_ok, Outcome.ok.injEq]
  aesop

theorem ExtendedPrivKey.fingerprint_eq (sk : ExtendedPrivKey K)
    : sk.fingerprint secp hasher
        = .ok (firstFour (hasher.ripemd160 (hasher.sha256 (secp.serializeVec (sk.secretKey • secp.base))).toList)) := by
  rfl

theorem ExtendedPrivKey.ckdPriv_eq_ok [DecidableEq K] {self sk : ExtendedPrivKey K}
    (h : self.ckdPriv checks secp hasher (.normal n) s = (.ok sk, t))
    : ∃ result tweak depth, secp.canSign = true
        ∧ result = hasher.hmac self.chainCode.toList
            [secp.serializeVec (self.secretKey • secp.base), Bytes.beBytes 4 n.toNat]
        ∧ secp.parseSecretKey (leftHalf result) = some tweak
        ∧ (MachineInt.add checks self.depth 1 : Outcome Error UInt8) = .ok depth
        ∧ sk = ⟨self.network, depth,
            firstFour (hasher.ripemd160 (hasher.sha256 (secp.serializeVec (self.secretKey • secp.base))).toList),
            .normal n, tweak + self.secretKey, rightHalf result⟩ := by
  unfold ckdPriv at h
  rw [Routine.bind_eq_ok] at h
  obtain ⟨_, s₁, hinit, h⟩ := h
  dsimp only at h
  rw [Routine.lift_bind_eq_ok] at h
  obtain ⟨pk, hpk, h⟩ := h
  obtain ⟨hsign, rfl⟩ := publicFromSecretKey_eq_ok.mp hpk
  rw [Routine.bind_eq_ok] at h
  obtain ⟨_, s₂, hkey, h⟩ := h
  rw [Routine.bind_eq_ok] at h
  obtain ⟨_, s₃, hindex, h⟩ := h
  rw [Routine.bind_eq_ok] at h
  obtain ⟨result, s₄, hresult, h⟩ := h
  rw [Routine.lift_bind_eq_ok] at h
  obtain ⟨tweak, htweak, h⟩ := h
  rw [Routine.lift_bind_eq_ok] at h
  obtain ⟨sum, hsum, h⟩ := h
  rw [Routine.lift_bind_eq_ok] at h
  obtain ⟨depth, hdepth, h⟩ := h
  rw [fingerprint_eq, Routine.lift_bind_eq_ok] at h
  obtain ⟨_, hfingerprint, h⟩ := h
  cases hfingerprint
  cases h
  rw [Secp256k1.addAssign, Outcome.bind_eq_ok] at hsum
  obtain ⟨_, -, hsum⟩ := hsum
  cases hsum
  exact ⟨result, tweak, depth, hsign, BIP32Hasher.result_of_append hinit hkey hindex hresult,
    Outcome.okOr_eq_ok.mp htweak, hdepth, rfl⟩

theorem ExtendedPubKey.ckdPub_eq_ok [DecidableEq P] {self pk : ExtendedPubKey P}
    (h : self.ckdPub checks secp hasher i s = (.ok pk, t))
    : ∃ n result tweak depth, i = .normal n
        ∧ result = hasher.hmac self.chainCode.toList [secp.serializeVec self.publicKey, Bytes.beBytes 4 n.toNat]
        ∧ secp.parseSecretKey (leftHalf result) = some tweak
        ∧ (MachineInt.add checks self.depth 1 : Outcome Error UInt8) = .ok depth
        ∧ pk = ⟨self.network, depth,
            firstFour (hasher.ripemd160 (hasher.sha256 (secp.serializeVec self.publicKey)).toList),
            .normal n, self.publicKey + tweak • secp.base, rightHalf result⟩ := by
  unfold ckdPub at h
  rw [Routine.bind_eq_ok] at h
  obtain ⟨⟨tweak, chainCode⟩, s', htweak, h⟩ := h
  cases i with
  | hardened n => cases htweak
  | normal n =>
    simp only [ckdPubTweak] at htweak
    rw [Routine.bind_eq_ok] at htweak
    obtain ⟨_, s₁, hinit, htweak⟩ := htweak
    rw [Routine.bind_eq_ok] at htweak
    obtain ⟨_, s₂, hkey, htweak⟩ := htweak
    rw [Routine.bind_eq_ok] at htweak
    obtain ⟨_, s₃, hindex, htweak⟩ := htweak
    rw [Routine.bind_eq_ok] at htweak
    obtain ⟨result, s₄, hresult, htweak⟩ := htweak
    rw [Routine.lift_bind_eq_ok] at htweak
    obtain ⟨secretKey, hparse, htweak⟩ := htweak
    cases htweak
    rw [Routine.lift_bind_eq_ok] at h
    obtain ⟨sum, hsum, h⟩ := h
    rw [Routine.lift_bind_eq_ok] at h
    obtain ⟨depth, hdepth, h⟩ := h
    cases h
    rw [Secp256k1.addExpAssign, Outcome.bind_eq_ok] at hsum
    obtain ⟨_, -, hsum⟩ := hsum
    rw [Outcome.bind_eq_ok] at hsum
    obtain ⟨_, -, hsum⟩ := hsum
    cases hsum
    exact ⟨n, result, _, depth, rfl, BIP32Hasher.result_of_append hinit hkey hindex hresult,
      Outcome.okOr_eq_ok.mp hparse, hdepth, rfl⟩

variable [DecidableEq K] [DecidableEq P]

theorem fromPrivate_ckd (hpublic : ExtendedPubKey.fromPrivate secp hasher sk = .ok pk)
    (hpriv : sk.ckdPriv checks secp hasher i s = (.ok sk', s'))
    (hpub : pk.ckdPub checks secp hasher i t = (.ok pk', t'))
    : ExtendedPubKey.fromPrivate secp hasher sk' = .ok pk' := by
  obtain ⟨hsign, rfl⟩ := ExtendedPubKey.fromPrivate_eq_ok.mp hpublic
  obtain ⟨n, result, tweak, depth, rfl, hresult, htweak, hdepth, rfl⟩ := ExtendedPubKey.ckdPub_eq_ok hpub
  obtain ⟨result', tweak', depth', -, hresult', htweak', hdepth', rfl⟩ := ExtendedPrivKey.ckdPriv_eq_ok hpriv
  obtain rfl : result' = result := hresult'.trans hresult.symm
  obtain rfl := Option.some.inj (htweak'.symm.trans htweak)
  obtain rfl := Outcome.ok.inj (hdepth'.symm.trans hdepth)
  rw [ExtendedPubKey.fromPrivate_eq_ok]
  refine ⟨hsign, ?_⟩
  rw [add_smul, add_comm]

theorem derivePub_fromPrivate {sk sk' : ExtendedPrivKey K} {pk pk' : ExtendedPubKey P} {cnums : List ChildNumber}
    {s t s' t' : hasher.State} (hpublic : ExtendedPubKey.fromPrivate secp hasher sk = .ok pk)
    (hpriv : sk.derivePriv checks secp hasher cnums s = (.ok sk', s'))
    (hpub : pk.derivePub checks secp hasher cnums t = (.ok pk', t'))
    : ExtendedPubKey.fromPrivate secp hasher sk' = .ok pk' := by
  refine Routine.foldlM_lockstep (fun sk pk => ExtendedPubKey.fromPrivate secp hasher sk = .ok pk) ?_
    hpublic hpriv hpub
  intro sk pk i s t sk' pk' s' t' hpublic hpriv hpub
  exact fromPrivate_ckd hpublic hpriv hpub

end

-- the key of the message authentication code and what was put in so far
def BIP32EpicHasher (isFloo : Bool) (hmacSha512 : List UInt8 → List UInt8 → List.Vector UInt8 64)
    (sha256 : List UInt8 → List.Vector UInt8 32) (ripemd160 : List UInt8 → List.Vector UInt8 20) : BIP32Hasher where
  State := List UInt8 × List UInt8
  networkPriv := if isFloo then ⟨[0x03, 0x27, 0x3A, 0x10], rfl⟩ else ⟨[0x03, 0x3C, 0x04, 0xA4], rfl⟩
  networkPub := if isFloo then ⟨[0x03, 0x27, 0x3E, 0x4B], rfl⟩ else ⟨[0x03, 0x3C, 0x08, 0xDF], rfl⟩
  masterSeed := "IamVoldemort".toUTF8.toList
  initSha512 _ seed := (seed, [])
  appendSha512 s value := (s.1, s.2 ++ value)
  resultSha512 s := (hmacSha512 s.1 s.2, (s.1, []))
  sha256 := sha256
  ripemd160 := ripemd160
  hmac key chunks := hmacSha512 key chunks.flatten
  result_eq_hmac s key chunks := by
    suffices h : ∀ data, chunks.foldl (fun s value => (s.1, s.2 ++ value)) (key, data) = (key, data ++ chunks.flatten) by
      simp [h]
    induction chunks with
    | nil => simp
    | cons chunk chunks ih => simp [ih]

namespace Sample

def secp : Secp256k1 ℤ ℤ where
  base := 1
  canSign := true
  canVerify := true
  parseSecretKey data := some (data.headD 0).toNat
  secretKeyBytes k := Bytes.beBytes 32 k.toNat
  serializeVec p := Bytes.beBytes 33 p.toNat

def hasher : BIP32Hasher :=
  BIP32EpicHasher false (fun key data => .replicate 64 (key.headD 0 + data.getLastD 0))
    (fun data => .replicate 32 (data.getLastD 0)) (fun data => .replicate 20 (data.headD 0))

def master : ExtendedPrivKey ℤ := ⟨hasher.networkPriv, 0, .replicate 4 0, .normal 0, 5, .replicate 32 3⟩

end Sample

open Sample in
theorem derivePub_fromPrivate_sample
    : ∃ pk sk' pk' s' t', ExtendedPubKey.fromPrivate secp hasher master = .ok pk
        ∧ master.derivePriv true secp hasher [.normal 1, .normal 2] ([], []) = (.ok sk', s')
        ∧ pk.derivePub true secp hasher [.normal 1, .normal 2] ([], []) = (.ok pk', t')
        ∧ ExtendedPubKey.fromPrivate secp hasher sk' = .ok pk' := by
  obtain ⟨pk, hpublic⟩ : ∃ pk, ExtendedPubKey.fromPrivate secp hasher master = .ok pk := ⟨_, rfl⟩
  obtain ⟨sk', s', hpriv⟩ : ∃ sk' s', master.derivePriv true secp hasher [.normal 1, .normal 2] ([], [])
      = (.ok sk', s') := ⟨_, _, rfl⟩
  obtain ⟨pk', t', hpub⟩ : ∃ pk' t', pk.derivePub true secp hasher [.normal 1, .normal 2] ([], [])
      = (.ok pk', t') := by
    cases hpublic
    exact ⟨_, _, rfl⟩
  exact ⟨pk, sk', pk', s', t', hpublic, hpriv, hpub, derivePub_fromPrivate hpublic hpriv hpub⟩

end Keychain
end Epic
