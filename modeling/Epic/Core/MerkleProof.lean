import Epic.Core.Pmmr.Grown
import Epic.Core.Pmmr.Subtree
import Epic.Core.Ser.Reader
import Epic.Core.Transparent

/-!
This module contains Merkle proofs for the leaves of a Merkle mountain range: the hashes of the siblings
up to the peak above the leaf, the bagged peaks on the right of it and the peaks on the left of it.
-/

namespace Epic

open Pmmr

inductive MerkleProofError where
  | rootMismatch
deriving DecidableEq

namespace PMMR

variable {E : Type}

def bagTheRhs (env : Env) (p : PMMR E) (peakPos : Nat) : Option Hash :=
  let rhs := ((Pmmr.peaks p.lastPos).filter (· > peakPos)).filterMap p.backend.getFromFile
  bag env p.unprunedSize rhs

def peakPath (env : Env) (p : PMMR E) (peakPos : Nat) : List Hash :=
  let rhs := p.bagTheRhs env peakPos
  let res := ((Pmmr.peaks p.lastPos).filter (· < peakPos)).filterMap p.backend.getFromFile
  rhs.toList ++ res.reverse

def merkleProof (env : Env) (p : PMMR E) (pos : Nat) : Outcome String MerkleProof := do
  if !isLeaf pos then
    .err s!"not a leaf at pos {pos}"
  else
    let _ ← .okOr (p.getHash pos) s!"no element at pos {pos}"
    let familyBranch := familyBranch pos p.lastPos
    let path := familyBranch.filterMap fun x => p.getFromFile x.2
    let peakPos := (familyBranch.getLast?.map (·.1)).getD pos
    return ⟨UInt64.ofNat p.unprunedSize, path ++ p.peakPath env peakPos⟩

end PMMR

namespace MerkleProof

-- the nodes above the peaks are all hashed with the size
def index (mmrSize nodePos : Nat) : Nat := if nodePos > mmrSize then mmrSize else nodePos - 1

def parent (mmrSize : Nat) (peaksPos : List Nat) (nodePos : Nat) (nodeHash sibling : Hash)
    : List UInt8 :=
  let (parentPos, siblingPos) := family nodePos
  match peaksPos.idxOf? nodePos with
  | some x =>
    if x = peaksPos.length - 1 then
      sibling.write ++ nodeHash.write
    else
      nodeHash.write ++ sibling.write
  | none =>
    if parentPos > mmrSize then
      sibling.write ++ nodeHash.write
    else if isLeftSibling siblingPos then
      sibling.write ++ nodeHash.write
    else
      nodeHash.write ++ sibling.write

def verifyConsume (env : Env) (mmrSize : Nat) (peaksPos : List Nat) (root : Hash) (path : List Hash)
    (element : List UInt8) (nodePos : Nat)
    : Outcome MerkleProofError Unit :=
  let nodeHash := hashWithIndex env element (index mmrSize nodePos)
  match path with
  | [] => if root = nodeHash then .ok () else .err .rootMismatch
  | sibling :: path =>
    let parent := parent mmrSize peaksPos nodePos nodeHash sibling
    verifyConsume env mmrSize peaksPos root path parent (family nodePos).1

def verify (env : Env) (proof : MerkleProof) (root : Hash) (element : List UInt8) (nodePos : Nat)
    : Outcome MerkleProofError Unit :=
  let peaksPos := peaks proof.mmrSize.toNat
  verifyConsume env proof.mmrSize.toNat peaksPos root proof.path element nodePos

/-!
The steps of the verification: inside of a tree, from a peak, and above the peaks.
-/

section

variable {env : Env} {root nodeHash sibling : Hash} {path : List Hash} {element : List UInt8} {n i k : Nat}

theorem idxOf?_eq_none_of_gt (h : mmrSize n < nodeAt i k)
    : (peaks (mmrSize n)).idxOf? (nodeAt i k) = none := by
  rw [List.idxOf?_eq_none_iff]
  intro hmem
  obtain ⟨i', k', hle, hpos⟩ := exists_of_mem_peaks hmem
  omega

theorem parent_of_le (h : nodeAt (i / 2) (k + 1) ≤ mmrSize n)
    : parent (mmrSize n) (peaks (mmrSize n)) (nodeAt i k) nodeHash sibling
        =
      if i % 2 = 1 then sibling.write ++ nodeHash.write else nodeHash.write ++ sibling.write := by
  have hlt := nodeAt_lt_parent i k
  have hpeak : (peaks (mmrSize n)).idxOf? (nodeAt i k) = none := by
    rw [List.idxOf?_eq_none_iff, nodeAt_mem_peaks_iff (by omega)]
    omega
  unfold parent
  rw [family_nodeAt, hpeak]
  dsimp only
  rw [if_neg (by omega), isLeftSibling_nodeAt]
  unfold siblingOf
  rcases Nat.mod_two_eq_zero_or_one i with hi | hi
  . have : (i + 1) % 2 = 1 := by omega
    simp [hi, this]
  . have : (i - 1) % 2 = 0 := by omega
    simp [hi, this]

theorem parent_of_gt (h : mmrSize n < nodeAt i k)
    : parent (mmrSize n) (peaks (mmrSize n)) (nodeAt i k) nodeHash sibling
        =
      sibling.write ++ nodeHash.write := by
  have hlt := nodeAt_lt_parent i k
  unfold parent
  rw [family_nodeAt, idxOf?_eq_none_of_gt h]
  dsimp only
  rw [if_pos (by omega)]

theorem parent_of_peak
    (h : peaks (mmrSize n) = left ++ nodeAt i k :: right)
    : parent (mmrSize n) (peaks (mmrSize n)) (nodeAt i k) nodeHash sibling
        =
      if right = [] then sibling.write ++ nodeHash.write else nodeHash.write ++ sibling.write := by
  have hsorted := pairwise_peaks_mmrSize n
  rw [h, List.pairwise_append] at hsorted
  have hnot : nodeAt i k ∉ left := fun hmem =>
    absurd (hsorted.2.2 _ hmem _ List.mem_cons_self) (Nat.lt_irrefl _)
  have hindex : (left ++ nodeAt i k :: right).idxOf? (nodeAt i k) = some left.length := by
    have hnone := List.idxOf?_eq_none_iff.mpr hnot
    unfold List.idxOf? at hnone ⊢
    rw [List.findIdx?_append, hnone, List.findIdx?_cons]
    simp
  unfold parent
  rw [h, hindex]
  dsimp only
  cases right with
  | nil => simp
  | cons x right =>
    rw [if_neg (by simp), if_neg (by simp)]

theorem index_of_le (h : nodeAt i k ≤ mmrSize n)
    : index (mmrSize n) (nodeAt i k) = nodeAt i k - 1 := by
  rw [index, if_neg (by omega)]

theorem index_of_gt (h : mmrSize n < nodeAt i k)
    : index (mmrSize n) (nodeAt i k) = mmrSize n := by
  rw [index, if_pos h]

theorem verifyConsume_of_gt (h : mmrSize n < nodeAt i k)
    : verifyConsume env (mmrSize n) (peaks (mmrSize n)) root path element (nodeAt i k)
        =
      if root = path.foldl (fun rhs peak => hashWithIndex env (peak.write ++ rhs.write) (mmrSize n))
          (hashWithIndex env element (mmrSize n)) then
        .ok ()
      else
        .err .rootMismatch := by
  induction path generalizing element i k with
  | nil => rw [verifyConsume, index_of_gt h, List.foldl_nil]
  | cons sibling path ih =>
    have hparent : mmrSize n < nodeAt (i / 2) (k + 1) := h.trans (nodeAt_lt_parent i k)
    rw [verifyConsume, family_nodeAt, index_of_gt h, parent_of_gt h, ih hparent]
    rfl

end

end MerkleProof

namespace PMMR

open MerkleProof

theorem bag_append (env : Env) (size : Nat) (peaks : List Hash)
    (h : bag env size rest = some rhs)
    : bag env size (peaks ++ rest)
        =
      some (peaks.reverse.foldl (fun rhs peak => hashWithIndex env (peak.write ++ rhs.write) size) rhs) := by
  unfold bag at h ⊢
  rw [List.reverse_append, List.foldl_append, h]
  clear h
  induction peaks.reverse generalizing rhs with
  | nil => rfl
  | cons peak peaks ih => exact ih

theorem bag_cons (env : Env) (size : Nat) (peak : Hash)
    (h : bag env size rest = some rhs)
    : bag env size (peak :: rest) = some (hashWithIndex env (peak.write ++ rhs.write) size) :=
  bag_append env size [peak] h

theorem exists_bag (env : Env) (size : Nat) {peaks : List Hash} (hne : peaks ≠ [])
    : ∃ rhs, bag env size peaks = some rhs := by
  induction peaks with
  | nil => contradiction
  | cons peak peaks ih =>
    cases peaks with
    | nil => exact ⟨peak, rfl⟩
    | cons peak' peaks =>
      obtain ⟨rhs, hrhs⟩ := ih (List.cons_ne_nil _ _)
      exact ⟨_, bag_cons env size peak hrhs⟩

section

variable {T E : Type} [PMMRable T E] {env : Env} {p : PMMR E} {elmts : List T}

theorem Grown.exists_read (h : p.Grown env elmts) (hle : nodeAt i k ≤ mmrSize elmts.length)
    : ∃ element, p.backend.getFromFile (nodeAt i k)
        = some (hashWithIndex env element (nodeAt i k - 1)) := by
  rw [nodeAt_le_mmrSize_iff] at hle
  cases k with
  | zero =>
    have hlt : i < elmts.length := by omega
    exact ⟨_, h.leaf i _ (List.getElem?_eq_getElem hlt)⟩
  | succ k =>
    obtain ⟨left, right, -, -, hparent⟩ := h.parent i k hle
    exact ⟨_, hparent⟩

theorem Grown.filterMap_peaks_eq_nil_iff (h : p.Grown env elmts) {peaks : List Nat}
    (hpeaks : ∀ x ∈ peaks, x ∈ Pmmr.peaks (mmrSize elmts.length))
    : peaks.filterMap p.backend.getFromFile = [] ↔ peaks = [] := by
  rw [List.filterMap_eq_nil_iff]
  constructor
  . intro hnone
    refine List.eq_nil_iff_forall_not_mem.mpr fun x hx => ?_
    obtain ⟨i, k, hle, rfl⟩ := Pmmr.exists_of_mem_peaks (hpeaks x hx)
    obtain ⟨element, hread⟩ := h.exists_read hle
    rw [hnone _ hx] at hread
    contradiction
  . rintro rfl
    simp

variable {root : Hash}

theorem root_eq_ok (hlast : p.lastPos ≠ 0)
    : (p.root env : Outcome ε Hash) = .ok root ↔ bag env p.lastPos p.peaks = some root := by
  rw [PMMR.root, if_neg hlast, Outcome.unwrap_eq_ok]
  rfl

theorem Grown.verifyConsume_peak (h : p.Grown env elmts) {i k : Nat} {element : List UInt8}
    (hpeak : nodeAt i k ∈ Pmmr.peaks (mmrSize elmts.length))
    (hread : p.backend.getFromFile (nodeAt i k) = some (hashWithIndex env element (nodeAt i k - 1)))
    (hle : nodeAt i k ≤ mmrSize elmts.length) (hroot : bag env p.lastPos p.peaks = some root)
    : verifyConsume env (mmrSize elmts.length) (Pmmr.peaks (mmrSize elmts.length)) root
        (p.peakPath env (nodeAt i k)) element (nodeAt i k) = .ok () := by
  obtain ⟨left, right, hsplit⟩ := List.append_of_mem hpeak
  have hsorted := pairwise_peaks_mmrSize elmts.length
  rw [hsplit, List.pairwise_append, List.pairwise_cons] at hsorted
  obtain ⟨-, ⟨hright, -⟩, hleft⟩ := hsorted
  have hleft (x : Nat) (hx : x ∈ left) : x < nodeAt i k := hleft x hx _ List.mem_cons_self
  have hlast := h.growing.aligned.lastPos
  have hlefts : (Pmmr.peaks p.lastPos).filter (· < nodeAt i k) = left := by
    rw [hlast, hsplit, List.filter_append, List.filter_cons_of_neg (by simp),
      List.filter_eq_self.mpr (by simpa using hleft),
      List.filter_eq_nil_iff.mpr (by simpa using fun x hx => (hright x hx).le), List.append_nil]
  have hrights : (Pmmr.peaks p.lastPos).filter (· > nodeAt i k) = right := by
    rw [hlast, hsplit, List.filter_append, List.filter_cons_of_neg (by simp),
      List.filter_eq_nil_iff.mpr (by simpa using fun x hx => (hleft x hx).le), List.nil_append,
      List.filter_eq_self.mpr (by simpa using hright)]
  have hpeaks : p.peaks = left.filterMap p.backend.getFromFile
      ++ hashWithIndex env element (nodeAt i k - 1) :: right.filterMap p.backend.getFromFile := by
    rw [PMMR.peaks, hlast, hsplit, List.filterMap_append, List.filterMap_cons, hread]
  have hparent : mmrSize elmts.length < nodeAt (i / 2) (k + 1) := (nodeAt_mem_peaks_iff hle).mp hpeak
  have hright_mem (x : Nat) (hx : x ∈ right) : x ∈ Pmmr.peaks (mmrSize elmts.length) := by
    rw [hsplit]
    exact List.mem_append_right _ (List.mem_cons_of_mem _ hx)
  rw [hpeaks, hlast] at hroot
  unfold peakPath bagTheRhs
  dsimp only
  rw [hlefts, hrights, PMMR.unprunedSize, hlast]
  by_cases hnil : right = []
  . -- the last peak
    subst hnil
    rw [List.filterMap_nil, bag_append _ _ _ rfl, Option.some.injEq] at hroot
    cases hrev : (left.filterMap p.backend.getFromFile).reverse with
    | nil =>
      rw [hrev] at hroot
      simp [bag, verifyConsume, index_of_le hle, ← hroot]
    | cons sibling path =>
      rw [hrev] at hroot
      simp only [bag, List.filterMap_nil, List.reverse_nil, List.foldl_nil, Option.toList_none,
        List.nil_append]
      rw [verifyConsume, family_nodeAt, parent_of_peak hsplit, if_pos rfl, verifyConsume_of_gt hparent,
        index_of_le hle, ← hroot]
      exact if_pos rfl
  . have hne : right.filterMap p.backend.getFromFile ≠ [] := fun hempty =>
      hnil ((h.filterMap_peaks_eq_nil_iff hright_mem).mp hempty)
    obtain ⟨rhs, hrhs⟩ := exists_bag env (mmrSize elmts.length) hne
    rw [bag_append _ _ _ (bag_cons _ _ _ hrhs), Option.some.injEq] at hroot
    rw [hrhs]
    simp only [Option.toList_some, List.singleton_append]
    rw [verifyConsume, family_nodeAt, parent_of_peak hsplit, if_neg hnil, verifyConsume_of_gt hparent,
      index_of_le hle, ← hroot]
    exact if_pos rfl

theorem Grown.getFromFile_eq (h : p.Grown env elmts) (hle : pos ≤ mmrSize elmts.length)
    : p.getFromFile pos = p.backend.getFromFile pos := by
  rw [PMMR.getFromFile, h.growing.aligned.lastPos, if_neg (by omega)]

theorem Grown.verifyConsume_branch (h : p.Grown env elmts) {m fuel k pos : Nat} {element : List UInt8}
    (hpos : pos = nodeAt (m / 2 ^ k) k) (hle : pos ≤ mmrSize elmts.length)
    (hfuel : mmrSize elmts.length < pos + fuel)
    (hread : p.backend.getFromFile pos = some (hashWithIndex env element (pos - 1)))
    (hroot : bag env p.lastPos p.peaks = some root) {branch : List (Nat × Nat)}
    (hbranch : branch = familyBranch.go m (mmrSize elmts.length) fuel k pos)
    : verifyConsume env (mmrSize elmts.length) (Pmmr.peaks (mmrSize elmts.length)) root
        (branch.filterMap (fun x => p.getFromFile x.2)
          ++ p.peakPath env ((branch.getLast?.map (·.1)).getD pos))
        element pos = .ok () := by
  induction fuel generalizing k pos element branch with
  | zero => omega
  | succ fuel ih =>
    subst hpos
    have hlt := nodeAt_lt_parent (m / 2 ^ k) k
    have hdiv : m / 2 ^ k / 2 = m / 2 ^ (k + 1) := by rw [Nat.div_div_eq_div_mul, Nat.pow_succ]
    rw [familyBranch_go_nodeAt] at hbranch
    by_cases hparent : nodeAt (m / 2 ^ (k + 1)) (k + 1) ≤ mmrSize elmts.length
    . rw [if_pos hparent] at hbranch
      obtain ⟨left, right, hleft, hright, hhash⟩ := h.parent (m / 2 ^ (k + 1)) k
        (nodeAt_le_mmrSize_iff.mp hparent)
      have hchildren := nodeAt_right (m / 2 ^ (k + 1)) k
      have hchildren' := nodeAt_left (m / 2 ^ (k + 1)) k
      have hpow : 0 < 2 ^ k := by positivity
      generalize hrest : familyBranch.go m (mmrSize elmts.length) fuel (k + 1)
        (nodeAt (m / 2 ^ (k + 1)) (k + 1)) = rest at hbranch
      have hfuel' : mmrSize elmts.length < nodeAt (m / 2 ^ (k + 1)) (k + 1) + fuel := by
        rw [hdiv] at hlt
        omega
      have hlast : ((branch.getLast?.map (·.1)).getD (nodeAt (m / 2 ^ k) k))
          = (rest.getLast?.map (·.1)).getD (nodeAt (m / 2 ^ (k + 1)) (k + 1)) := by
        rw [hbranch, List.getLast?_cons]
        cases rest.getLast? <;> rfl
      have hstep (sibling : Hash)
          (hsibling : p.backend.getFromFile (nodeAt (siblingOf (m / 2 ^ k)) k) = some sibling)
          : branch.filterMap (fun x => p.getFromFile x.2)
              = sibling :: rest.filterMap (fun x => p.getFromFile x.2) := by
        have hbound : nodeAt (siblingOf (m / 2 ^ k)) k ≤ mmrSize elmts.length := by
          unfold siblingOf
          split
          . next hodd =>
            rw [show m / 2 ^ k - 1 = 2 * (m / 2 ^ (k + 1)) by omega]
            omega
          . next heven =>
            rw [show m / 2 ^ k + 1 = 2 * (m / 2 ^ (k + 1)) + 1 by omega]
            omega
        rw [hbranch, List.filterMap_cons, h.getFromFile_eq hbound, hsibling]
      rcases Nat.mod_two_eq_zero_or_one (m / 2 ^ k) with hmod | hmod
      . have hself : m / 2 ^ k = 2 * (m / 2 ^ (k + 1)) := by omega
        have hsibling : siblingOf (m / 2 ^ k) = 2 * (m / 2 ^ (k + 1)) + 1 := by
          rw [siblingOf, if_neg (by omega), ← hself]
        rw [← hself, hread, Option.some.injEq] at hleft
        rw [← hleft] at hhash
        rw [hlast, hstep right (by rw [hsibling]; exact hright), List.cons_append, verifyConsume,
          family_nodeAt, hdiv, parent_of_le (by rw [hdiv]; exact hparent), if_neg (by omega),
          index_of_le hle]
        exact ih rfl hparent hfuel' hhash hrest.symm
      . have hself : m / 2 ^ k = 2 * (m / 2 ^ (k + 1)) + 1 := by omega
        have hsibling : siblingOf (m / 2 ^ k) = 2 * (m / 2 ^ (k + 1)) := by
          rw [siblingOf, if_pos hmod]
          omega
        rw [← hself, hread, Option.some.injEq] at hright
        rw [← hright] at hhash
        rw [hlast, hstep left (by rw [hsibling]; exact hleft), List.cons_append, verifyConsume,
          family_nodeAt, hdiv, parent_of_le (by rw [hdiv]; exact hparent), if_pos hmod,
          index_of_le hle]
        exact ih rfl hparent hfuel' hhash hrest.symm
    . rw [if_neg hparent] at hbranch
      subst hbranch
      apply h.verifyConsume_peak ?_ hread hle hroot
      rw [nodeAt_mem_peaks_iff hle, hdiv]
      omega

theorem Grown.exists_root (h : p.Grown env elmts) (hne : elmts ≠ [])
    : ∃ root, (p.root env : Outcome String Hash) = .ok root := by
  have hpos := List.length_pos_iff.mpr hne
  have hle := le_mmrSize elmts.length
  have hlast := h.growing.aligned.lastPos
  have hpeaks : p.peaks ≠ [] := by
    rw [PMMR.peaks, hlast, ne_eq, h.filterMap_peaks_eq_nil_iff fun _ hx => hx]
    exact List.ne_nil_of_mem (mmrSize_mem_peaks hpos)
  obtain ⟨root, hroot⟩ := exists_bag env p.lastPos hpeaks
  exact ⟨root, (root_eq_ok (by omega)).mpr hroot⟩

theorem Grown.merkleProof (h : p.Grown env elmts) (helmt : elmts[m]? = some elmt)
    (hhas : p.has (leafPos m) = true) (hlt : p.lastPos < 2 ^ 64)
    (hroot : (p.root env : Outcome String Hash) = .ok root)
    : ∃ proof, p.merkleProof env (leafPos m) = .ok proof
        ∧ proof.verify env root (PMMRable.write env elmt) (leafPos m) = .ok () := by
  have hm : m < elmts.length := (List.getElem?_eq_some_iff.mp helmt).1
  have hle : leafPos m ≤ mmrSize elmts.length := leafPos_le_mmrSize_iff.mpr hm
  have hlast := h.growing.aligned.lastPos
  have hleaf := h.leaf m elmt helmt
  rw [nodeAt_zero] at hleaf
  have hget : p.getHash (leafPos m)
      = some (hashWithIndex env (PMMRable.write env elmt) (leafPos m - 1)) := by
    unfold has at hhas
    unfold PMMR.getHash PMMRBackend.getHash
    rw [hlast, if_neg (by omega), isLeaf_leafPos, hleaf]
    cases hprunable : p.backend.prunable <;> simp_all
  have hmap : peakMapHeight (leafPos m - 1) = (m, 0) :=
    peakMapHeight_mmrSize_add (r := 0) (mmrSize_lt_succ m)
  have hsize : p.lastPos ≠ 0 := by
    unfold leafPos at hle
    omega
  have hstart : leafPos m = nodeAt (m / 2 ^ 0) 0 := by simp [nodeAt_zero]
  refine ⟨⟨UInt64.ofNat p.unprunedSize, (Pmmr.familyBranch (leafPos m) p.lastPos).filterMap
    (fun x => p.getFromFile x.2) ++ p.peakPath env
      (((Pmmr.familyBranch (leafPos m) p.lastPos).getLast?.map (·.1)).getD (leafPos m))⟩, ?_, ?_⟩
  . unfold PMMR.merkleProof
    rw [isLeaf_leafPos, hget]
    rfl
  . unfold MerkleProof.verify PMMR.unprunedSize
    dsimp only
    rw [UInt64.toNat_ofNat_of_lt' hlt, hlast]
    have hbranch : Pmmr.familyBranch (leafPos m) (mmrSize elmts.length)
        = familyBranch.go m (mmrSize elmts.length) (mmrSize elmts.length + 1) 0 (leafPos m) := by
      unfold Pmmr.familyBranch
      rw [hmap]
    exact h.verifyConsume_branch hstart hle (by omega) hleaf ((root_eq_ok hsize).mp hroot) hbranch

end

theorem merkle_proof_verifies {T E : Type} [PMMRable T E] (env : Env) (prunable : Bool)
    (ops : List (Op T)) {p : PMMR E} (hrun : run env (.new prunable) ops = .ok p)
    (hlt : p.lastPos < 2 ^ 64) {pos : Nat} (hpos : 0 < pos) (hle : pos ≤ p.lastPos) (hleaf : isLeaf pos = true)
    (hkept : pos ∉ (ops.foldl Leaves.after .empty).removed)
    : ∃ elmt root proof,
        (ops.foldl Leaves.after .empty).elmts[nLeaves pos - 1]? = some elmt
          ∧
        (p.root env : Outcome String Hash) = .ok root
          ∧
        p.merkleProof env pos = .ok proof
          ∧
        proof.verify env root (PMMRable.write env elmt) pos = .ok () := by
  have h := (HasLeaves.new env prunable).run hrun
  obtain ⟨m, rfl⟩ := exists_eq_leafPos hpos hleaf
  rw [h.grown.growing.aligned.lastPos, leafPos_le_mmrSize_iff] at hle
  obtain ⟨root, hroot⟩ := h.grown.exists_root (List.ne_nil_of_length_pos (by omega))
  have helmt := List.getElem?_eq_getElem hle
  obtain ⟨proof, hproof, hverify⟩ := h.grown.merkleProof helmt (h.kept m hle hkept) hlt hroot
  refine ⟨_, root, proof, ?_, hroot, hproof, hverify⟩
  rw [nLeaves_leafPos, Nat.add_sub_cancel]
  exact helmt

namespace Sample

-- the hash is the last byte of the index
def env : Env :=
  { Transparent.env .mainnet with blake2b := fun bytes => ⟨bytes.getD 7 0 :: List.replicate 31 0⟩ }

def kernel (fee : UInt64) : TxKernel := ⟨.plain, fee, 0, .replicate 33 0, .replicate 64 0⟩

def ops : List (Op TxKernel) := [.push (kernel 1), .push (kernel 2), .prune 2, .sync, .push (kernel 3)]

def tree : PMMR TxKernel :=
  match run env (.new true) ops with
  | .ok p => p
  | _ => .new true

theorem run_ops
    : run env (.new true) ops = .ok tree := by
  decide

end Sample

theorem merkle_proof_verifies_first
    : 1 ∉ (Sample.ops.foldl Leaves.after .empty).removed
        ∧
      ∃ elmt root proof,
        (Sample.ops.foldl Leaves.after .empty).elmts[nLeaves 1 - 1]? = some elmt
          ∧
        (Sample.tree.root Sample.env : Outcome String Hash) = .ok root
          ∧
        Sample.tree.merkleProof Sample.env 1 = .ok proof
          ∧
        proof.verify Sample.env root (PMMRable.write Sample.env elmt) 1 = .ok () :=
  have hkept : 1 ∉ (Sample.ops.foldl Leaves.after .empty).removed := by decide
  ⟨hkept, merkle_proof_verifies Sample.env true Sample.ops Sample.run_ops (by decide) (by decide)
    (by decide) (by decide) hkept⟩

end PMMR

/-!
A proof that is accepted is about the element in the leaf. No hash with 32 bytes is injective, but those
that were computed for the mountain range and for the verification may all be different.
-/

def MerkleProof.hashed.go (env : Env) (mmrSize : Nat) (peaksPos : List Nat) (path : List Hash)
    (element : List UInt8) (nodePos : Nat)
    : List (Nat × List UInt8) :=
  let nodeHash := hashWithIndex env element (index mmrSize nodePos)
  match path with
  | [] => [(index mmrSize nodePos, element)]
  | sibling :: path =>
    (index mmrSize nodePos, element)
      :: go env mmrSize peaksPos path (parent mmrSize peaksPos nodePos nodeHash sibling)
        (family nodePos).1

def MerkleProof.hashed (env : Env) (proof : MerkleProof) (element : List UInt8) (nodePos : Nat)
    : List (Nat × List UInt8) :=
  hashed.go env proof.mmrSize.toNat (peaks proof.mmrSize.toNat) proof.path element nodePos

namespace PMMR

open MerkleProof

variable {T E : Type} [PMMRable T E]

def nodeInput (env : Env) (p : PMMR E) (elmts : List T) (pos : Nat) : List (Nat × List UInt8) :=
  match bintreePostorderHeight pos with
  | 0 => elmts[nLeaves pos - 1]?.toList.map fun elmt => (pos - 1, PMMRable.write env elmt)
  | k + 1 =>
    match p.backend.getFromFile (pos - 2 ^ (k + 1)), p.backend.getFromFile (pos - 1) with
    | some left, some right => [(pos - 1, left.write ++ right.write)]
    | _, _ => []

def bagInputs (env : Env) (size : Nat) (peaks : List Hash) : List (Nat × List UInt8) :=
  match peaks with
  | [] => []
  | peak :: peaks =>
    ((bag env size peaks).map fun rhs => (size, peak.write ++ rhs.write)).toList
      ++ bagInputs env size peaks

def hashed (env : Env) (p : PMMR E) (elmts : List T) : List (Nat × List UInt8) :=
  (List.range' 1 p.lastPos).flatMap (p.nodeInput env elmts) ++ bagInputs env p.lastPos p.peaks

section

variable {env : Env} {p : PMMR E} {elmts : List T}

def HashOf (env : Env) (p : PMMR E) (elmts : List T) (i k : Nat) (bytes : List UInt8) : Prop :=
  match k with
  | 0 => ∃ elmt, elmts[i]? = some elmt ∧ bytes = PMMRable.write env elmt
  | k + 1 =>
    ∃ left right, p.backend.getFromFile (nodeAt (2 * i) k) = some left
      ∧ p.backend.getFromFile (nodeAt (2 * i + 1) k) = some right
      ∧ bytes = left.write ++ right.write

theorem Grown.exists_hashOf (h : p.Grown env elmts)
    (hle : nodeAt i k ≤ mmrSize elmts.length)
    : ∃ bytes, HashOf env p elmts i k bytes
        ∧ p.backend.getFromFile (nodeAt i k) = some (hashWithIndex env bytes (nodeAt i k - 1))
        ∧ (nodeAt i k - 1, bytes) ∈ p.hashed env elmts := by
  have hmem (bytes : List UInt8) (hinput : (nodeAt i k - 1, bytes) ∈ p.nodeInput env elmts (nodeAt i k))
      : (nodeAt i k - 1, bytes) ∈ p.hashed env elmts := by
    have hpos := nodeAt_pos i k
    refine List.mem_append_left _ (List.mem_flatMap.mpr ⟨_, ?_, hinput⟩)
    rw [List.mem_range'_1, h.growing.aligned.lastPos]
    omega
  have hnode := nodeAt_le_mmrSize_iff.mp hle
  cases k with
  | zero =>
    have helmt := List.getElem?_eq_getElem (show i < elmts.length by omega)
    refine ⟨_, ⟨_, helmt, rfl⟩, h.leaf i _ helmt, hmem _ ?_⟩
    rw [nodeInput, bintreePostorderHeight_nodeAt]
    dsimp only
    rw [nodeAt_zero, nLeaves_leafPos, Nat.add_sub_cancel, helmt]
    simp
  | succ k =>
    obtain ⟨left, right, hleft, hright, hparent⟩ := h.parent i k hnode
    refine ⟨_, ⟨left, right, hleft, hright, rfl⟩, hparent, hmem _ ?_⟩
    have hleftPos : nodeAt i (k + 1) - 2 ^ (k + 1) = nodeAt (2 * i) k := by
      have := nodeAt_left i k
      rw [Nat.pow_succ]
      omega
    have hrightPos : nodeAt i (k + 1) - 1 = nodeAt (2 * i + 1) k := by
      have := nodeAt_right i k
      omega
    rw [nodeInput, bintreePostorderHeight_nodeAt]
    dsimp only
    rw [hleftPos, hrightPos, hleft, hright]
    simp

def Distinct (env : Env) (known computed : List (Nat × List UInt8)) : Prop :=
  ∀ x ∈ known, ∀ y ∈ computed, hashWithIndex env x.2 x.1 = hashWithIndex env y.2 y.1 → x = y

theorem mem_bagInputs
    (h : bag env size rest = some rhs)
    : (size, peak.write ++ rhs.write) ∈ bagInputs env size (before ++ peak :: rest) := by
  induction before with
  | nil =>
    rw [List.nil_append, bagInputs, h]
    simp
  | cons x before ih => exact List.mem_append_right _ ih

theorem Grown.exists_of_mem_peaks (h : p.Grown env elmts) (hpeak : peak ∈ p.peaks)
    : ∃ i k, nodeAt i k ≤ mmrSize elmts.length ∧ p.backend.getFromFile (nodeAt i k) = some peak := by
  obtain ⟨x, hx, hread⟩ := List.mem_filterMap.mp hpeak
  rw [h.growing.aligned.lastPos] at hx
  obtain ⟨i, k, hle, rfl⟩ := Pmmr.exists_of_mem_peaks hx
  exact ⟨i, k, hle, hread⟩

-- Inside of the trees the bytes are those of the node, above them those of a peak and of the ones on
-- the right of it.
def Genuine (env : Env) (p : PMMR E) (elmts : List T) (i k : Nat) (bytes : List UInt8) : Prop :=
  if nodeAt i k ≤ mmrSize elmts.length then
    HashOf env p elmts i k bytes
  else
    ∃ before peak rest rhs, p.peaks = before ++ peak :: rest ∧ bag env p.lastPos rest = some rhs
      ∧ bytes = peak.write ++ rhs.write

variable {i k : Nat} {bytes : List UInt8}

theorem Grown.genuine_of_read (h : p.Grown env elmts)
    (hdistinct : Distinct env (p.hashed env elmts) [(index (mmrSize elmts.length) (nodeAt i k), bytes)])
    (hle : nodeAt i' k' ≤ mmrSize elmts.length)
    (hread : p.backend.getFromFile (nodeAt i' k')
      = some (hashWithIndex env bytes (index (mmrSize elmts.length) (nodeAt i k))))
    : Genuine env p elmts i k bytes := by
  obtain ⟨bytes', hhash, hread', hin⟩ := h.exists_hashOf hle
  rw [hread, Option.some.injEq] at hread'
  have heq := hdistinct _ hin _ List.mem_cons_self hread'.symm
  rw [Prod.mk.injEq] at heq
  have hpos := nodeAt_pos i k
  have hpos' := nodeAt_pos i' k'
  have hnode : nodeAt i' k' = nodeAt i k := by
    have := heq.1
    unfold index at this
    split at this <;> omega
  obtain ⟨rfl, rfl⟩ := nodeAt_inj hnode
  rw [Genuine, if_pos hle, ← heq.2]
  exact hhash

theorem Grown.genuine_of_bag (h : p.Grown env elmts)
    (hdistinct : Distinct env (p.hashed env elmts) [(index (mmrSize elmts.length) (nodeAt i k), bytes)])
    (hpeaks : p.peaks = before ++ rest)
    (hbag : bag env p.lastPos rest
      = some (hashWithIndex env bytes (index (mmrSize elmts.length) (nodeAt i k))))
    : Genuine env p elmts i k bytes := by
  cases rest with
  | nil => simp [bag] at hbag
  | cons peak rest =>
    have hmem : peak ∈ p.peaks := by
      rw [hpeaks]
      exact List.mem_append_right _ List.mem_cons_self
    by_cases hnil : rest = []
    . subst hnil
      obtain ⟨i', k', hle, hread⟩ := h.exists_of_mem_peaks hmem
      exact h.genuine_of_read hdistinct hle (hread.trans hbag)
    . obtain ⟨rhs, hrhs⟩ := exists_bag env p.lastPos hnil
      rw [bag_cons _ _ _ hrhs, Option.some.injEq] at hbag
      have hin : (p.lastPos, peak.write ++ rhs.write) ∈ p.hashed env elmts := by
        refine List.mem_append_right _ ?_
        rw [hpeaks]
        exact mem_bagInputs hrhs
      have heq := hdistinct _ hin _ List.mem_cons_self hbag
      rw [Prod.mk.injEq, h.growing.aligned.lastPos] at heq
      have hgt : ¬ nodeAt i k ≤ mmrSize elmts.length := by
        intro hle
        have hpos := nodeAt_pos i k
        rw [index_of_le hle] at heq
        omega
      rw [Genuine, if_neg hgt]
      exact ⟨before, peak, rest, rhs, hpeaks, hrhs, heq.2.symm⟩

variable (hlength : ∀ bytes, (env.blake2b bytes).bytes.length = 32)
include hlength

theorem Grown.length_read (h : p.Grown env elmts) {hash : Hash}
    (hle : nodeAt i k ≤ mmrSize elmts.length) (hread : p.backend.getFromFile (nodeAt i k) = some hash)
    : hash.bytes.length = 32 := by
  obtain ⟨bytes, hread'⟩ := h.exists_read hle
  rw [hread, Option.some.injEq] at hread'
  rw [hread']
  exact hlength _

theorem Grown.genuine_of_verify (h : p.Grown env elmts) {root : Hash}
    (hroot : bag env p.lastPos p.peaks = some root) {path : List Hash}
    (hpath : ∀ hash ∈ path, hash.bytes.length = 32)
    (hdistinct : Distinct env (p.hashed env elmts) (hashed.go env (mmrSize elmts.length)
      (Pmmr.peaks (mmrSize elmts.length)) path bytes (nodeAt i k)))
    (hok : verifyConsume env (mmrSize elmts.length) (Pmmr.peaks (mmrSize elmts.length)) root path bytes
      (nodeAt i k) = .ok ())
    : Genuine env p elmts i k bytes := by
  -- the path is followed up to the root, and the hashes are compared from there on down
  induction path generalizing i k bytes with
  | nil =>
    rw [verifyConsume] at hok
    split at hok
    . next hsame =>
      rw [hsame] at hroot
      exact h.genuine_of_bag hdistinct (List.nil_append _).symm hroot
    . contradiction
  | cons sibling path ih =>
    rw [verifyConsume, family_nodeAt] at hok
    rw [hashed.go, family_nodeAt] at hdistinct
    have hhere : Distinct env (p.hashed env elmts)
        [(index (mmrSize elmts.length) (nodeAt i k), bytes)] := by
      intro x hx y hy
      rw [List.mem_singleton] at hy
      exact hdistinct x hx y (hy ▸ List.mem_cons_self)
    have hparent := ih (fun hash hmem => hpath hash (List.mem_cons_of_mem _ hmem))
      (fun x hx y hy => hdistinct x hx y (List.mem_cons_of_mem _ hy)) hok
    have hsibling := hpath sibling List.mem_cons_self
    have hnode : (hashWithIndex env bytes (index (mmrSize elmts.length) (nodeAt i k))).bytes.length
        = 32 := hlength _
    have hlt := nodeAt_lt_parent i k
    have habove (hgt : ¬ nodeAt (i / 2) (k + 1) ≤ mmrSize elmts.length)
        (hlast : MerkleProof.parent (mmrSize elmts.length) (Pmmr.peaks (mmrSize elmts.length)) (nodeAt i k)
          (hashWithIndex env bytes (index (mmrSize elmts.length) (nodeAt i k))) sibling
            = sibling.write
              ++ (hashWithIndex env bytes (index (mmrSize elmts.length) (nodeAt i k))).write)
        : Genuine env p elmts i k bytes := by
      rw [Genuine, if_neg hgt, hlast] at hparent
      obtain ⟨before, peak, rest, rhs, hpeaks, hrhs, hbytes⟩ := hparent
      have hmem : peak ∈ p.peaks := by
        rw [hpeaks]
        exact List.mem_append_right _ List.mem_cons_self
      obtain ⟨i', k', hle, hread⟩ := h.exists_of_mem_peaks hmem
      have hpeak := h.length_read hlength hle hread
      obtain ⟨-, hrest⟩ := List.append_inj hbytes (hsibling.trans hpeak.symm)
      rw [← Hash.write_inj hrest] at hrhs
      refine h.genuine_of_bag hhere (?_ : p.peaks = (before ++ [peak]) ++ _) hrhs
      rw [hpeaks, List.append_assoc]
      rfl
    by_cases hle : nodeAt i k ≤ mmrSize elmts.length
    . by_cases hpeak : nodeAt i k ∈ Pmmr.peaks (mmrSize elmts.length)
      . have hgt := (nodeAt_mem_peaks_iff hle).mp hpeak
        obtain ⟨left, right, hsplit⟩ := List.append_of_mem hpeak
        by_cases hnil : right = []
        . exact habove (by omega) (by rw [parent_of_peak hsplit, if_pos hnil])
        . rw [Genuine, if_neg (by omega), parent_of_peak hsplit, if_neg hnil] at hparent
          obtain ⟨before, peak, rest, rhs, hpeaks, hrhs, hbytes⟩ := hparent
          have hmem : peak ∈ p.peaks := by
            rw [hpeaks]
            exact List.mem_append_right _ List.mem_cons_self
          obtain ⟨i', k', hle', hread⟩ := h.exists_of_mem_peaks hmem
          have hlen := h.length_read hlength hle' hread
          obtain ⟨hfirst, -⟩ := List.append_inj hbytes (hnode.trans hlen.symm)
          rw [← Hash.write_inj hfirst] at hread
          exact h.genuine_of_read hhere hle' hread
      . have hparentLe : nodeAt (i / 2) (k + 1) ≤ mmrSize elmts.length := by
          by_contra hgt
          exact hpeak ((nodeAt_mem_peaks_iff hle).mpr (by omega))
        rw [Genuine, if_pos hparentLe, parent_of_le hparentLe] at hparent
        obtain ⟨left, right, hleft, hright, hbytes⟩ := hparent
        have hchildren := nodeAt_left (i / 2) k
        have hchildren' := nodeAt_right (i / 2) k
        have hpow : 0 < 2 ^ k := by positivity
        split at hbytes
        . next hodd =>
          have hlen := h.length_read hlength (by omega) hleft
          obtain ⟨-, hsecond⟩ := List.append_inj hbytes (hsibling.trans hlen.symm)
          rw [← Hash.write_inj hsecond] at hright
          exact h.genuine_of_read hhere (by omega) hright
        . next heven =>
          have hlen := h.length_read hlength (by omega) hleft
          obtain ⟨hfirst, -⟩ := List.append_inj hbytes (hnode.trans hlen.symm)
          rw [← Hash.write_inj hfirst] at hleft
          exact h.genuine_of_read hhere (by omega) hleft
    . have hgt : mmrSize elmts.length < nodeAt i k := by omega
      exact habove (by omega) (parent_of_gt hgt)

end

theorem merkle_proof_sound {T E : Type} [PMMRable T E] (env : Env)
    (hlength : ∀ bytes, (env.blake2b bytes).bytes.length = 32) (prunable : Bool)
    (ops : List (Op T)) {p : PMMR E} (hrun : run env (.new prunable) ops = .ok p) {root : Hash}
    (hroot : (p.root env : Outcome String Hash) = .ok root) (proof : MerkleProof)
    (hsize : proof.mmrSize.toNat = p.unprunedSize)
    (hpath : ∀ hash ∈ proof.path, hash.bytes.length = 32)
    {pos : Nat} (hpos : 0 < pos) (hle : pos ≤ p.lastPos) (hleaf : isLeaf pos = true)
    (element : List UInt8)
    (hdistinct : Distinct env (p.hashed env (ops.foldl Leaves.after .empty).elmts)
      (proof.hashed env element pos))
    (hok : proof.verify env root element pos = .ok ())
    : ∃ elmt, (ops.foldl Leaves.after .empty).elmts[nLeaves pos - 1]? = some elmt
        ∧ element = PMMRable.write env elmt := by
  have h := ((HasLeaves.new env prunable).run hrun).grown
  obtain ⟨m, rfl⟩ := exists_eq_leafPos hpos hleaf
  have hlast := h.growing.aligned.lastPos
  rw [PMMR.unprunedSize, hlast] at hsize
  rw [root_eq_ok (by omega)] at hroot
  unfold MerkleProof.verify at hok
  unfold MerkleProof.hashed at hdistinct
  rw [hsize, ← nodeAt_zero] at hok hdistinct
  have hgenuine := h.genuine_of_verify hlength hroot hpath hdistinct hok
  rw [Genuine, if_pos (by rwa [nodeAt_zero, ← hlast])] at hgenuine
  rw [nLeaves_leafPos, Nat.add_sub_cancel]
  exact hgenuine

def Sample.proof : MerkleProof := ⟨4, [⟨1 :: List.replicate 31 0⟩, ⟨3 :: List.replicate 31 0⟩]⟩

theorem merkle_proof_sound_first
    : Sample.proof.verify Sample.env ⟨4 :: List.replicate 31 0⟩
        (PMMRable.write Sample.env (Sample.kernel 1)) 1 = .ok ()
        ∧
      ∃ elmt, (Sample.ops.foldl Leaves.after .empty).elmts[nLeaves 1 - 1]? = some elmt
        ∧ PMMRable.write Sample.env (Sample.kernel 1) = PMMRable.write Sample.env elmt := by
  have hok : Sample.proof.verify Sample.env ⟨4 :: List.replicate 31 0⟩
      (PMMRable.write Sample.env (Sample.kernel 1)) 1 = .ok () := by decide
  have hdistinct : Distinct Sample.env
      (Sample.tree.hashed Sample.env (Sample.ops.foldl Leaves.after .empty).elmts)
      (Sample.proof.hashed Sample.env (PMMRable.write Sample.env (Sample.kernel 1)) 1) := by
    unfold Distinct
    decide
  exact ⟨hok, merkle_proof_sound Sample.env (fun _ => rfl) true Sample.ops Sample.run_ops
    (by decide) Sample.proof (by decide) (by decide) (by decide)
    (by decide) (by decide) _ hdistinct hok⟩

end PMMR

end Epic
