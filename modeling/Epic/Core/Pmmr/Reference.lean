import Epic.Core.Pmmr.Aligned
import Epic.Core.Transparent
import Epic.Core.Pmmr.Sizes

/-!
This module contains the Merkle mountain range over any backend. If the backend behaves like a list of
hashes, the mountain range is the one that is built from scratch.
-/

namespace Epic

open Pmmr

class Backend (B : Type) (E : outParam Type) where
  append : B → E → List Hash → B
  rewind : B → Nat → Bitmap → B
  getHash : B → Nat → Option Hash
  getFromFile : B → Nat → Option Hash

structure MMR (B : Type) where
  backend : B
  lastPos : Nat

namespace MMR

open PMMR (pushHashes)

variable {T E B : Type} [PMMRable T E] [Backend B E]

def getHash (p : MMR B) (pos : Nat) : Option Hash :=
  if pos > p.lastPos then
    none
  else if isLeaf pos then
    Backend.getHash p.backend pos
  else
    Backend.getFromFile p.backend pos

def root {ε : Type} (env : Env) (p : MMR B) : Outcome ε Hash :=
  if p.lastPos = 0 then
    .ok zeroHash
  else
    .unwrap (PMMR.bag env p.lastPos ((peaks p.lastPos).filterMap (Backend.getFromFile p.backend)))

def push (env : Env) (elmt : T) : Routine (MMR B) String Nat := fun p =>
  let elmtPos := p.lastPos + 1
  let currentHash := hashWithIndex env (PMMRable.write env elmt) (elmtPos - 1)
  let (peakMap, height) := peakMapHeight (elmtPos - 1)
  if height ≠ 0 then
    (.err s!"bad mmr size {elmtPos - 1}", p)
  else
    match pushHashes env (Backend.getFromFile p.backend) peakMap (peakMap + 1) 0 elmtPos currentHash
      [currentHash] with
    | .ok (pos, hashes) =>
      (.ok elmtPos, ⟨Backend.append p.backend (PMMRable.asElmt env elmt) hashes, pos⟩)
    | .err e => (.err e, p)
    | .panic => (.panic, p)
    | .hang => (.hang, p)

def rewind (p : MMR B) (position : Nat) (rewindRmPos : Bitmap) : MMR B :=
  let pos := PMMR.lastParent (position + 1) position
  ⟨Backend.rewind p.backend pos rewindRmPos, pos⟩

def reference (T : Type) {E : Type} [PMMRable T E] (env : Env) : MountainRange T Hash where
  leaf elmt index := hashWithIndex env (PMMRable.write env elmt) index
  node left right index := hashWithIndex env (left.write ++ right.write) index

variable {env : Env} {read : Nat → Option Hash} {map : Nat} {pre l : List Hash} {elmts : List T}

-- A full range of smaller mountains becomes one.
theorem pushHashes_perfect (elmt : T) (hlen : elmts.length + 1 = 2 ^ k)
    (hmap : ∀ i < k, map.testBit i = true)
    (hl : l = pre ++ ((reference T env).mountains elmts pre.length k).flatten)
    (hread : ∀ pos, 0 < pos → read pos = l[pos - 1]?) (fuel : Nat)
    : ∃ currentHash hashes,
        pushHashes env read map (fuel + k) 0 (l.length + 1)
            ((reference T env).leaf elmt l.length) [(reference T env).leaf elmt l.length]
          = pushHashes env read map fuel k (l.length + 1 + k) currentHash hashes
        ∧ hashes.length = k + 1
        ∧ l ++ hashes = pre ++ (reference T env).perfect (elmts ++ [elmt]) pre.length k
        ∧ ((reference T env).perfect (elmts ++ [elmt]) pre.length k).getLast? = some currentHash := by
  induction k generalizing elmts pre fuel with
  | zero =>
    obtain rfl := List.eq_nil_of_length_eq_zero (l := elmts) (by omega)
    have hpre : l = pre := by simpa [MountainRange.mountains] using hl
    subst hpre
    exact ⟨_, _, rfl, rfl, rfl, rfl⟩
  | succ k ih =>
    have hpow : 0 < 2 ^ k := by positivity
    have hlong : 2 ^ k ≤ elmts.length := by omega
    have hlength : ((reference T env).perfect elmts pre.length k).length = 2 ^ (k + 1) - 1 :=
      (reference T env).length_perfect hlong
    obtain ⟨left, hleft⟩ := (reference T env).exists_getLast?_perfect pre.length hlong
    have hl' : l = (pre ++ (reference T env).perfect elmts pre.length k)
        ++ ((reference T env).mountains (elmts.drop (2 ^ k))
          (pre ++ (reference T env).perfect elmts pre.length k).length k).flatten := by
      rw [hl, MountainRange.mountains, if_pos hlong, List.length_append]
      simp
    obtain ⟨right, hashes, hpush, hcount, hnodes, hright⟩ := ih
      (by rw [List.length_drop]; omega) (fun i hi => hmap i (by omega)) hl' (fuel + 1)
    have hpos : l.length + 1 + k = pre.length + 2 * (2 ^ (k + 1) - 1) := by
      have := congrArg List.length hnodes
      rw [List.length_append, List.length_append, List.length_append, hlength, hcount,
        (reference T env).length_perfect (by simp; omega)] at this
      omega
    have hsibling : read (l.length + 1 + k + 1 - 2 * 2 ^ k) = some left := by
      have hindex : l.length + 1 + k + 1 - 2 * 2 ^ k - 1
          = pre.length + (((reference T env).perfect elmts pre.length k).length - 1) := by
        omega
      rw [hread _ (by omega), hindex, hl', List.append_assoc, List.getElem?_append_right (by omega),
        Nat.add_sub_cancel_left, List.getElem?_append_left (by omega), ← List.getLast?_eq_getElem?,
        hleft]
    have happend : (elmts ++ [elmt]).drop (2 ^ k) = elmts.drop (2 ^ k) ++ [elmt] :=
      List.drop_append_of_le_length hlong
    rw [List.length_append, hlength, ← happend] at hnodes hright
    have hleft' : ((reference T env).perfect (elmts ++ [elmt]) pre.length k).getLast? = some left := by
      rw [(reference T env).perfect_append hlong]
      exact hleft
    have hperfect := (reference T env).perfect_succ (by simp; omega) hleft' hright
    refine ⟨(reference T env).node left right (l.length + 1 + k),
      hashes ++ [(reference T env).node left right (l.length + 1 + k)], ?_, ?_, ?_, ?_⟩
    . have hfuel : fuel + (k + 1) = fuel + 1 + k := by omega
      rw [hfuel, hpush, pushHashes, if_pos (hmap k (by omega)), hsibling]
      rfl
    . rw [List.length_append, hcount]
      rfl
    . rw [hperfect, ← List.append_assoc, hnodes, hpos, (reference T env).perfect_append hlong]
      simp
    . rw [hperfect, hpos]
      simp

theorem pushHashes_reference (elmt : T) (hlen : elmts.length + 1 < 2 ^ bits)
    (hmap : map % 2 ^ bits = elmts.length) (hfuel : elmts.length < fuel)
    (hl : l = pre ++ ((reference T env).mountains elmts pre.length bits).flatten)
    (hread : ∀ pos, 0 < pos → read pos = l[pos - 1]?)
    : ∃ hashes,
        pushHashes env read map fuel 0 (l.length + 1)
            ((reference T env).leaf elmt l.length) [(reference T env).leaf elmt l.length]
          = .ok (l.length + hashes.length, hashes)
        ∧ l ++ hashes
            = pre ++ ((reference T env).mountains (elmts ++ [elmt]) pre.length bits).flatten := by
  induction bits generalizing elmts pre with
  | zero => omega
  | succ bits ih =>
    have hpow : 0 < 2 ^ bits := by positivity
    by_cases hlong : 2 ^ bits ≤ elmts.length
    . -- the largest mountain stays
      have hmap' : map % 2 ^ bits = elmts.length - 2 ^ bits := by
        rw [← Nat.mod_mod_of_dvd map (Nat.pow_dvd_pow 2 (Nat.le_succ bits)), hmap,
          Nat.mod_eq_sub_mod hlong, Nat.mod_eq_of_lt (by omega)]
      have hsame : (reference T env).perfect (elmts ++ [elmt]) pre.length bits
          = (reference T env).perfect elmts pre.length bits :=
        (reference T env).perfect_append hlong [elmt]
      have hl' : l = (pre ++ (reference T env).perfect elmts pre.length bits)
          ++ ((reference T env).mountains (elmts.drop (2 ^ bits))
            (pre ++ (reference T env).perfect elmts pre.length bits).length bits).flatten := by
        rw [hl, MountainRange.mountains, if_pos hlong, List.length_append]
        simp
      obtain ⟨hashes, hpush, hnodes⟩ := ih (by rw [List.length_drop]; omega)
        (by rw [List.length_drop]; exact hmap') (by rw [List.length_drop]; omega) hl'
      refine ⟨hashes, hpush, ?_⟩
      rw [hnodes, MountainRange.mountains, if_pos (by simp; omega), hsame,
        List.drop_append_of_le_length hlong, List.length_append]
      simp
    . have hmountains : (reference T env).mountains elmts pre.length (bits + 1)
          = (reference T env).mountains elmts pre.length bits := by
        rw [MountainRange.mountains, if_neg hlong]
      rw [hmountains] at hl
      by_cases hfull : elmts.length + 1 = 2 ^ bits
      . -- the new element completes a mountain
        have hbits (i : Nat) (hi : i ≤ bits) : map.testBit i = decide (i < bits) := by
          have hlow := Nat.testBit_mod_two_pow map (bits + 1) i
          have hones : elmts.length = 2 ^ bits - 1 := by omega
          rw [hmap, hones, Nat.testBit_two_pow_sub_one, decide_eq_true (by omega : i < bits + 1),
            Bool.true_and] at hlow
          exact hlow.symm
        have hexp : bits < 2 ^ bits := Nat.lt_two_pow_self
        obtain ⟨rounds, rfl⟩ : ∃ rounds, fuel = rounds + 1 + bits := ⟨fuel - 1 - bits, by omega⟩
        obtain ⟨currentHash, hashes, hpush, hcount, hnodes, -⟩ := pushHashes_perfect elmt hfull
          (fun i hi => by rw [hbits i (by omega), decide_eq_true hi]) hl hread (rounds + 1)
        refine ⟨hashes, ?_, ?_⟩
        . rw [hpush, pushHashes, hbits bits (Nat.le_refl bits), decide_eq_false (Nat.lt_irrefl bits),
            if_neg (by simp), hcount]
          congr 2
          omega
        . have hrest : (elmts ++ [elmt]).drop (2 ^ bits) = [] :=
            List.drop_eq_nil_of_le (by simp; omega)
          rw [hnodes, MountainRange.mountains, if_pos (by simp; omega), hrest]
          simp
      . have hmap' : map % 2 ^ bits = elmts.length := by
          rw [← Nat.mod_mod_of_dvd map (Nat.pow_dvd_pow 2 (Nat.le_succ bits)), hmap,
            Nat.mod_eq_of_lt (by omega)]
        obtain ⟨hashes, hpush, hnodes⟩ := ih (by omega) hmap' hfuel hl
        refine ⟨hashes, hpush, ?_⟩
        rw [hnodes, MountainRange.mountains, if_neg (by simp; omega)]

theorem length_nodes (elmts : List T)
    : ((reference T env).nodes elmts).length = mmrSize elmts.length := (reference T env).length_nodes elmts

theorem nodes_append (elmts : List T) (elmt : T)
    : (reference T env).nodes elmts <+: (reference T env).nodes (elmts ++ [elmt]) := by
  have hbits : elmts.length + 1 < 2 ^ (elmts.length + 1) := Nat.lt_two_pow_self
  have hl : (reference T env).nodes elmts
      = [] ++ ((reference T env).mountains elmts ([] : List Hash).length (elmts.length + 1)).flatten := by
    rw [List.length_nil, List.nil_append, (reference T env).mountains_eq (by omega)]
    rfl
  have hmap : elmts.length % 2 ^ (elmts.length + 1) = elmts.length := Nat.mod_eq_of_lt (by omega)
  obtain ⟨hashes, -, hnodes⟩ := pushHashes_reference elmt hbits hmap (Nat.lt_succ_self _) hl
    (fun _ _ => rfl)
  refine ⟨hashes, ?_⟩
  rw [hnodes, List.length_nil, List.nil_append, (reference T env).mountains_eq (by simp [hbits])]
  rfl

theorem nodes_take (elmts : List T) (hn : n ≤ elmts.length)
    : (reference T env).nodes (elmts.take n) = ((reference T env).nodes elmts).take (mmrSize n) := by
  have hinitial : (reference T env).nodes (elmts.take n) <+: (reference T env).nodes elmts := by
    induction elmts using List.reverseRecOn with
    | nil => simp
    | append_singleton elmts elmt ih =>
      rcases Nat.lt_or_ge elmts.length n with hlt | hge
      . rw [List.take_of_length_le (by simp; omega)]
      . rw [List.take_append_of_le_length hge]
        exact (ih hge).trans (nodes_append elmts elmt)
  rw [List.prefix_iff_eq_take.mp hinitial, length_nodes, List.length_take, Nat.min_eq_left hn]

theorem filterMap_walkBits (found : List Nat) (hlen : elmts.length < 2 ^ bits)
    (hl : l = pre ++ ((reference T env).mountains elmts pre.length bits).flatten)
    (hread : ∀ pos, 0 < pos → read pos = l[pos - 1]?)
    : (walkBits (fun (acc : Nat × List Nat) (peakSize : Nat) (hit : Bool) =>
          if hit then (acc.1 + peakSize, acc.2 ++ [acc.1 + peakSize]) else acc)
          bits elmts.length (pre.length, found)).2.filterMap read
        =
      found.filterMap read
        ++ ((reference T env).mountains elmts pre.length bits).filterMap List.getLast? := by
  induction bits generalizing elmts pre found with
  | zero => simp [walkBits, MountainRange.mountains]
  | succ bits ih =>
    have hpow : 0 < 2 ^ bits := by positivity
    rw [walkBits]
    by_cases hlong : 2 ^ bits ≤ elmts.length
    . have hlength : ((reference T env).perfect elmts pre.length bits).length = 2 ^ (bits + 1) - 1 :=
        (reference T env).length_perfect hlong
      obtain ⟨top, htop⟩ := (reference T env).exists_getLast?_perfect pre.length hlong
      have hend : pre.length + (2 ^ (bits + 1) - 1)
          = (pre ++ (reference T env).perfect elmts pre.length bits).length := by
        rw [List.length_append, hlength]
      have hl' : l = (pre ++ (reference T env).perfect elmts pre.length bits)
          ++ ((reference T env).mountains (elmts.drop (2 ^ bits))
            (pre ++ (reference T env).perfect elmts pre.length bits).length bits).flatten := by
        rw [hl, MountainRange.mountains, if_pos hlong, List.length_append]
        simp
      have hpeak : read (pre.length + (2 ^ (bits + 1) - 1)) = some top := by
        have hindex : pre.length + (2 ^ (bits + 1) - 1) - 1
            = pre.length + (((reference T env).perfect elmts pre.length bits).length - 1) := by
          omega
        rw [hread _ (by omega), hindex, hl', List.append_assoc, List.getElem?_append_right (by omega),
          Nat.add_sub_cancel_left, List.getElem?_append_left (by omega), ← List.getLast?_eq_getElem?,
          htop]
      rw [if_pos hlong, MountainRange.mountains, if_pos hlong]
      simp only [↓reduceIte]
      rw [List.filterMap_cons, htop, ← List.length_append]
      dsimp only
      rw [hend, ← List.length_drop, ih _ (by rw [List.length_drop]; omega) hl', ← hend,
        List.filterMap_append, List.append_assoc]
      simp [hpeak]
    . rw [if_neg hlong]
      simp only [Bool.false_eq_true, ↓reduceIte]
      have hmountains : (reference T env).mountains elmts pre.length (bits + 1)
          = (reference T env).mountains elmts pre.length bits := by
        rw [MountainRange.mountains, if_neg hlong]
      rw [hmountains] at hl ⊢
      exact ih _ (by omega) hl

theorem filterMap_peaks (hread : ∀ pos, 0 < pos → read pos = ((reference T env).nodes elmts)[pos - 1]?)
    : (Pmmr.peaks (mmrSize elmts.length)).filterMap read = (reference T env).peaks elmts := by
  have hbits : elmts.length < 2 ^ bitLength (mmrSize elmts.length) :=
    (le_mmrSize _).trans_lt (lt_two_pow_bitLength _)
  have hmountains : (reference T env).mountains elmts 0 (bitLength (mmrSize elmts.length))
      = (reference T env).mountains elmts 0 elmts.length := (reference T env).mountains_eq hbits
  have hwalk := walkPeaks_mmrSize_add (r := 0) (fun (acc : Nat × List Nat) (peakSize : Nat)
    (hit : Bool) => if hit then (acc.1 + peakSize, acc.2 ++ [acc.1 + peakSize]) else acc) (0, []) hbits
    (.inr (mmrSize_lt_succ _))
  have hnodes : (reference T env).nodes elmts
      = [] ++ ((reference T env).mountains elmts ([] : List Hash).length
        (bitLength (mmrSize elmts.length))).flatten := by
    rw [List.length_nil, hmountains]
    rfl
  have hpeaks := filterMap_walkBits [] hbits hnodes hread
  rw [Nat.add_zero] at hwalk
  unfold Pmmr.peaks MountainRange.peaks
  dsimp only
  rw [hwalk, ← hmountains, if_neg (by simp)]
  exact hpeaks

theorem bag_eq (size : Nat) (peaks : List Hash)
    : PMMR.bag env size peaks = (reference T env).bag size peaks := by
  unfold PMMR.bag
  rw [List.foldl_reverse]
  induction peaks with
  | nil => rfl
  | cons peak peaks ih =>
    rw [List.foldr_cons, ih]
    cases peaks with
    | nil => rfl
    | cons peak' peaks =>
      obtain ⟨rhs, hrhs⟩ := (reference T env).exists_bag size peak' peaks
      rw [hrhs, MountainRange.bag, hrhs]
      rfl

/-!
A backend that behaves like a list of hashes, with the first one at position 1.
-/

structure ListLike (B : Type) {E : Type} [Backend B E] (holds : B → List Hash → Prop) : Prop where
  getHash {b : B} {l : List Hash} {pos : Nat}
    : holds b l → 0 < pos → Backend.getHash b pos = l[pos - 1]?
  getFromFile {b : B} {l : List Hash} {pos : Nat}
    : holds b l → 0 < pos → Backend.getFromFile b pos = l[pos - 1]?
  append {b : B} {l : List Hash} (x : E) (hashes : List Hash)
    : holds b l → holds (Backend.append b x hashes) (l ++ hashes)
  rewind {b : B} {l : List Hash} {pos : Nat} (rewindRmPos : Bitmap)
    : holds b l → pos ≤ l.length → holds (Backend.rewind b pos rewindRmPos) (l.take pos)

structure Built (env : Env) (holds : B → List Hash → Prop) (p : MMR B) (elmts : List T) : Prop where
  lastPos : p.lastPos = mmrSize elmts.length
  backend : holds p.backend ((reference T env).nodes elmts)

-- as the one that is built from scratch
structure Matches (env : Env) (p : MMR B) (elmts : List T) : Prop where
  lastPos : p.lastPos = ((reference T env).nodes elmts).length
  getHash : ∀ pos, 0 < pos → p.getHash pos = ((reference T env).nodes elmts)[pos - 1]?
  root : (p.root env : Outcome String Hash) = .ok (((reference T env).root elmts).getD zeroHash)

variable {holds : B → List Hash → Prop}

theorem Built.getHash (hB : ListLike B holds) (h : Built env holds p elmts) (hpos : 0 < pos)
    : p.getHash pos = ((reference T env).nodes elmts)[pos - 1]? := by
  unfold MMR.getHash
  split
  . next hgt => rw [List.getElem?_eq_none (by rw [length_nodes, ← h.lastPos]; omega)]
  . split
    . exact hB.getHash h.backend hpos
    . exact hB.getFromFile h.backend hpos

theorem Built.root (hB : ListLike B holds) (h : Built env holds p elmts)
    : (p.root env : Outcome String Hash) = .ok (((reference T env).root elmts).getD zeroHash) := by
  have hpeaks : (Pmmr.peaks (mmrSize elmts.length)).filterMap (Backend.getFromFile p.backend)
      = (reference T env).peaks elmts := filterMap_peaks fun pos hpos => hB.getFromFile h.backend hpos
  unfold MMR.root
  rw [h.lastPos, hpeaks, bag_eq (T := T)]
  cases elmts with
  | nil => rfl
  | cons elmt elmts =>
    have hne : mmrSize (elmt :: elmts).length ≠ 0 := by
      have := le_mmrSize (elmt :: elmts).length
      rw [List.length_cons] at this ⊢
      omega
    rw [if_neg hne, MountainRange.root, length_nodes]
    obtain ⟨peak, peaks, hcons⟩ := (reference T env).exists_peaks (List.cons_ne_nil elmt elmts)
    obtain ⟨root, hroot⟩ := (reference T env).exists_bag (mmrSize (elmt :: elmts).length) peak peaks
    rw [hcons, hroot]
    rfl

theorem Built.matches (hB : ListLike B holds) (h : Built env holds p elmts)
    : Matches env p elmts :=
  ⟨by rw [h.lastPos, length_nodes], fun _ hpos => h.getHash hB hpos, h.root hB⟩

theorem Built.push (hB : ListLike B holds) (h : Built env holds p elmts)
    (elmt : T)
    : ∃ p', MMR.push env elmt p = (.ok (leafPos elmts.length), p')
        ∧ Built env holds p' (elmts ++ [elmt]) := by
  have hbits : elmts.length + 1 < 2 ^ (elmts.length + 1) := Nat.lt_two_pow_self
  have hmap : peakMapHeight (mmrSize elmts.length) = (elmts.length, 0) :=
    peakMapHeight_mmrSize_add (r := 0) (mmrSize_lt_succ _)
  have hl : (reference T env).nodes elmts
      = [] ++ ((reference T env).mountains elmts ([] : List Hash).length (elmts.length + 1)).flatten := by
    rw [List.length_nil, List.nil_append, (reference T env).mountains_eq (by omega)]
    rfl
  have hmod : elmts.length % 2 ^ (elmts.length + 1) = elmts.length := Nat.mod_eq_of_lt (by omega)
  obtain ⟨hashes, hpush, hnodes⟩ := pushHashes_reference elmt hbits hmod (Nat.lt_succ_self _) hl
    fun pos hpos => hB.getFromFile h.backend hpos
  rw [List.length_nil, List.nil_append, (reference T env).mountains_eq (by simp [hbits])] at hnodes
  have hpush : pushHashes env (Backend.getFromFile p.backend) elmts.length (elmts.length + 1) 0
      (mmrSize elmts.length + 1) (hashWithIndex env (PMMRable.write env elmt) (mmrSize elmts.length))
      [hashWithIndex env (PMMRable.write env elmt) (mmrSize elmts.length)]
      = .ok (mmrSize elmts.length + hashes.length, hashes) := by
    rwa [length_nodes] at hpush
  refine ⟨⟨Backend.append p.backend (PMMRable.asElmt env elmt) hashes,
    mmrSize elmts.length + hashes.length⟩, ?_, ?_, ?_⟩
  . unfold MMR.push
    dsimp only
    rw [h.lastPos, Nat.add_sub_cancel, hmap]
    dsimp only
    rw [if_neg (by simp)]
    rw [hpush]
    rfl
  . have hlength := congrArg List.length hnodes
    rw [List.length_append, length_nodes] at hlength
    rw [hlength]
    exact length_nodes _
  . have := hB.append (PMMRable.asElmt env elmt) hashes h.backend
    rwa [hnodes] at this

theorem Built.rewind (hB : ListLike B holds) (h : Built env holds p elmts) (hn : n < elmts.length)
    (rewindRmPos : Bitmap)
    : Built env holds (p.rewind (leafPos n) rewindRmPos) (elmts.take (n + 1)) := by
  have hle : mmrSize (n + 1) ≤ mmrSize elmts.length := mmrSize_le_mmrSize hn
  unfold MMR.rewind
  rw [PMMR.lastParent_leafPos]
  refine ⟨by rw [List.length_take, Nat.min_eq_left hn], ?_⟩
  rw [nodes_take elmts hn]
  exact hB.rewind rewindRmPos h.backend (by rw [length_nodes]; exact hle)

inductive Op (T : Type) where
  | push (elmt : T)
  | rewind (position : Nat) (rewindRmPos : Bitmap)

def apply (env : Env) (p : MMR B) (op : Op T) : Outcome String (MMR B) :=
  match op with
  | .push elmt => (fun _ => (push env elmt p).2) <$> (push env elmt p).1
  | .rewind position rewindRmPos => .ok (p.rewind position rewindRmPos)

def run (env : Env) (p : MMR B) (ops : List (Op T)) : Outcome String (MMR B) := ops.foldlM (apply env) p

def Op.survivors (op : Op T) (elmts : List T) : List T :=
  match op with
  | .push elmt => elmts ++ [elmt]
  | .rewind position _ => elmts.take (nLeaves position)

def Op.Legal (op : Op T) (elmts : List T) : Prop :=
  match op with
  | .push _ => True
  | .rewind position _ => isLeaf position = true ∧ 0 < position ∧ position ≤ mmrSize elmts.length

def Legal (elmts : List T) (ops : List (Op T)) : Prop :=
  match ops with
  | [] => True
  | op :: ops => op.Legal elmts ∧ Legal (op.survivors elmts) ops

theorem Built.apply (hB : ListLike B holds) (h : Built env holds p elmts) (hop : op.Legal elmts)
    : ∃ p', MMR.apply env p op = .ok p' ∧ Built env holds p' (op.survivors elmts) := by
  cases op with
  | push elmt =>
    obtain ⟨p', hpush, hbuilt⟩ := h.push hB elmt
    exact ⟨p', by rw [MMR.apply, hpush]; rfl, hbuilt⟩
  | rewind position rewindRmPos =>
    obtain ⟨hleaf, hpos, hle⟩ := hop
    obtain ⟨n, rfl⟩ := exists_eq_leafPos hpos hleaf
    rw [leafPos_le_mmrSize_iff] at hle
    refine ⟨_, rfl, ?_⟩
    rw [Op.survivors, nLeaves_leafPos]
    exact h.rewind hB hle rewindRmPos

theorem Built.run (hB : ListLike B holds) (h : Built env holds p elmts) (hops : Legal elmts ops)
    : ∃ p', MMR.run env p ops = .ok p'
        ∧ Built env holds p' (ops.foldl (fun elmts op => op.survivors elmts) elmts) := by
  induction ops generalizing p elmts with
  | nil => exact ⟨p, rfl, h⟩
  | cons op ops ih =>
    obtain ⟨hop, hops⟩ := hops
    obtain ⟨p', happly, h'⟩ := h.apply hB hop
    obtain ⟨q, hrun, hq⟩ := ih h' hops
    exact ⟨q, by rw [MMR.run, List.foldlM_cons, happly, Outcome.ok_bind]; exact hrun, hq⟩

theorem run_matches (env : Env) (hB : ListLike B holds) {b : B} (hb : holds b []) (ops : List (Op T))
    (hlegal : Legal [] ops)
    : ∃ p, run env ⟨b, 0⟩ ops = .ok p
        ∧ Matches env p (ops.foldl (fun elmts op => op.survivors elmts) []) := by
  have hstart : Built env holds ⟨b, 0⟩ ([] : List T) := ⟨rfl, hb⟩
  obtain ⟨p, hrun, hp⟩ := hstart.run hB hlegal
  exact ⟨p, hrun, hp.matches hB⟩

end MMR

instance {E : Type} : Backend (PMMRBackend E) E where
  append := PMMRBackend.append
  rewind := PMMRBackend.rewind
  getHash := PMMRBackend.getHash
  getFromFile := PMMRBackend.getFromFile

namespace PMMR

variable {T E : Type} [PMMRable T E]

def toMMR (p : PMMR E) : MMR (PMMRBackend E) := ⟨p.backend, p.lastPos⟩

-- the range over files is the one over any backend
theorem toMMR_push (env : Env) (elmt : T) (p : PMMR E)
    : p.toMMR.push env elmt = ((p.push env elmt).1, (p.push env elmt).2.toMMR) := by
  have hread : Backend.getFromFile p.backend = p.backend.getFromFile := rfl
  unfold MMR.push push
  dsimp only [toMMR]
  split
  . rfl
  . rw [hread]
    rcases pushHashes env p.backend.getFromFile _ _ _ _ _ _ with ⟨pos, hashes⟩ | e | _ | _ <;> rfl

theorem toMMR_rewind (p : PMMR E) (position : Nat) (rewindRmPos : Bitmap)
    : p.toMMR.rewind position rewindRmPos = (p.rewind position rewindRmPos).toMMR := rfl

theorem toMMR_reads (env : Env) (p : PMMR E) (pos : Nat)
    : p.toMMR.getHash pos = p.getHash pos
        ∧ (p.toMMR.root env : Outcome String Hash) = p.root env := ⟨rfl, rfl⟩

end PMMR

-- a backend in memory, nothing is removed from it
structure VecBackend (E : Type) where
  data : List E
  hashes : List Hash

instance {E : Type} : Backend (VecBackend E) E where
  append b x hashes := ⟨b.data ++ [x], b.hashes ++ hashes⟩
  rewind b pos _ := ⟨b.data.take (nLeaves pos), b.hashes.take pos⟩
  getHash b pos := b.hashes[pos - 1]?
  getFromFile b pos := b.hashes[pos - 1]?

theorem VecBackend.listLike (E : Type)
    : MMR.ListLike (VecBackend E) (fun b l => b.hashes = l) where
  getHash h _ := by rw [← h]; rfl
  getFromFile h _ := by rw [← h]; rfl
  append x hashes h := by rw [← h]; rfl
  rewind rewindRmPos h _ := by rw [← h]; rfl

namespace MMR.Sample

def proof (n : Fin 5) : RangeProof := ⟨.replicate _ 0, n, n.2.le.trans (by decide)⟩

-- the rewind goes back to the second leaf, and the parent above it stays
def ops : List (Op RangeProof) :=
  [.push (proof 0), .push (proof 1), .push (proof 2), .push (proof 3), .rewind 2 ∅, .push (proof 4)]

end MMR.Sample

open MMR MMR.Sample in
theorem MMR.run_matches_vec
    : Legal [] ops
        ∧
      ∃ p, run (Transparent.env .mainnet) (⟨⟨[], []⟩, 0⟩ : MMR (VecBackend RangeProof)) ops = .ok p
        ∧ Matches (Transparent.env .mainnet) p [proof 0, proof 1, proof 4] := by
  have hlegal : Legal [] ops := by
    unfold ops
    simp only [Legal, Op.Legal, Op.survivors]
    decide
  exact ⟨hlegal, run_matches (Transparent.env .mainnet) (VecBackend.listLike RangeProof) rfl ops hlegal⟩

end Epic
