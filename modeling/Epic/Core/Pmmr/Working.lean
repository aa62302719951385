import Epic.Core.Pmmr

/-!
This module contains the working copies of a Merkle mountain range: what sets them apart from the range
that was written, and what is left of them once they are discarded.
-/

namespace Epic

open Routine

namespace PMMR

variable {T E : Type} [PMMRable T E]

-- two mountain ranges that answer every question in the same way
structure Same (p q : PMMR E) : Prop where
  lastPos : p.lastPos = q.lastPos
  hashSize : p.backend.hashSize = q.backend.hashSize
  dataSize : p.backend.dataSize = q.backend.dataSize
  leafSet : p.backend.leafSet = q.backend.leafSet
  pruneList : p.backend.pruneList = q.backend.pruneList
  getHash : ∀ pos, p.getHash pos = q.getHash pos
  getData : ∀ pos, p.getData pos = q.getData pos

theorem Same.refl (p : PMMR E)
    : Same p p := ⟨rfl, rfl, rfl, rfl, rfl, fun _ => rfl, fun _ => rfl⟩

theorem Same.trans (hpq : Same p q) (hqr : Same q r)
    : Same p r where
  lastPos := hpq.lastPos.trans hqr.lastPos
  hashSize := hpq.hashSize.trans hqr.hashSize
  dataSize := hpq.dataSize.trans hqr.dataSize
  leafSet := hpq.leafSet.trans hqr.leafSet
  pruneList := hpq.pruneList.trans hqr.pruneList
  getHash pos := (hpq.getHash pos).trans (hqr.getHash pos)
  getData pos := (hpq.getData pos).trans (hqr.getData pos)

def Settled (p : PMMR E) : Prop := p.backend.Settled

def Pending (base p : PMMR E) : Prop := base.backend.Pending p.backend

theorem push_eq (env : Env) (elmt : T) (p : PMMR E)
    : (push env elmt p).2 = p
        ∨
      ∃ pos hashes,
        (push env elmt p).1 = .ok (p.lastPos + 1)
          ∧
        (push env elmt p).2 = ⟨p.backend.append (PMMRable.asElmt env elmt) hashes, pos⟩ := by
  unfold push
  dsimp only
  split
  . exact .inl rfl
  . split
    . exact .inr ⟨_, _, rfl, rfl⟩
    . exact .inl rfl
    . exact .inl rfl
    . exact .inl rfl

theorem prune_eq (position : Nat) (p : PMMR E)
    : (prune position p).2 = p
        ∨
      p.backend.prunable = true
        ∧
      (prune position p).2 = { p with backend := p.backend.remove position } := by
  unfold prune
  split
  . exact .inl rfl
  . split
    . exact .inl rfl
    . split
      . exact .inl rfl
      . next hprunable => exact .inr ⟨by simpa using hprunable, rfl⟩

theorem preserves_push (env : Env) (base : PMMR E) (elmt : T)
    : Preserves (Pending base) (push env elmt) := by
  intro p hp
  rcases push_eq env elmt p with hsame | ⟨pos, hashes, -, happended⟩
  . rw [hsame]
    exact hp
  . rw [happended]
    exact PMMRBackend.Pending.append hp _ _

theorem preserves_prune (base : PMMR E) (position : Nat)
    : Preserves (Pending base) (prune position) := by
  intro p hp
  rcases prune_eq position p with hsame | ⟨hprunable, hremoved⟩
  . rw [hsame]
    exact hp
  . rw [hremoved]
    exact PMMRBackend.Pending.remove hp hprunable position

-- a property that the operations which take in a block preserve
structure Stable (P : PMMR E → Prop) : Prop where
  push : ∀ {T : Type} [PMMRable T E] (env : Env) (elmt : T), Preserves P (push env elmt)
  prune : ∀ position, Preserves P (prune position)

theorem stable_pending (base : PMMR E)
    : Stable (Pending base) := ⟨fun env => preserves_push env base, preserves_prune base⟩

theorem Pending.rewind (hbase : base.Settled) (hp : Pending base p)
    (position : Nat) (rewindRmPos : Bitmap)
    : Pending base (p.rewind position rewindRmPos) :=
  PMMRBackend.Pending.rewind hbase hp _ rewindRmPos

def discard (base p : PMMR E) : PMMR E := ⟨p.backend.discard, base.lastPos⟩

theorem settled_discard (hbase : base.Settled) (hp : Pending base p)
    : (discard base p).Settled := PMMRBackend.Pending.settled_discard hbase hp

theorem same_discard (hbase : base.Settled) (hp : Pending base p)
    : Same (discard base p) base := by
  have hhash := hp.hashFile.read_discard hbase.hashFile
  have hdata := hp.dataFile.read_discard hbase.dataFile
  have hleaf := LeafSet.discard_eq hbase.leafSet hp.leafSetBak
  refine ⟨rfl, ?_, ?_, hleaf, hp.pruneList, ?_, ?_⟩
  . exact congrArg List.length (hp.hashFile.file_discard)
  . exact congrArg List.length (hp.dataFile.file_discard)
  . intro pos
    simp [getHash, discard, PMMRBackend.getHash, PMMRBackend.getFromFile, PMMRBackend.isCompacted,
      PMMRBackend.discard, hp.prunable, hp.pruneList, hleaf, hhash]
  . intro pos
    simp [getData, discard, PMMRBackend.getData, PMMRBackend.getDataFromFile,
      PMMRBackend.isCompacted, PMMRBackend.discard, hp.prunable, hp.pruneList, hleaf, hdata]

theorem settled_sync (hbase : base.Settled) (hp : Pending base p)
    : p.sync.Settled := PMMRBackend.Pending.settled_sync hbase hp

-- never rewound to a position behind the end of a file
structure InRange (p : PMMR E) : Prop where
  hashFile : p.backend.hashFile.InRange
  dataFile : p.backend.dataFile.InRange

theorem stable_inRange
    : Stable (InRange : PMMR E → Prop) where
  push env elmt p hp := by
    rcases push_eq env elmt p with hsame | ⟨pos, hashes, -, happended⟩
    . rw [hsame]
      exact hp
    . rw [happended]
      exact ⟨hp.hashFile.foldl_append _, hp.dataFile.foldl_append [_]⟩
  prune position p hp := by
    rcases prune_eq position p with hsame | ⟨-, hremoved⟩
    . rw [hsame]
      exact hp
    . rw [hremoved]
      exact ⟨hp.hashFile, hp.dataFile⟩

theorem discard_eq (hbase : base.Settled) (hhash : base.backend.hashFile.Tidy)
    (hdata : base.backend.dataFile.Tidy) (hp : Pending base p) (hrange : p.InRange)
    : discard base p = base := by
  have hbackend : p.backend.discard = base.backend := by
    unfold PMMRBackend.discard
    rw [hp.hashFile.discard_eq hbase.hashFile hhash hrange.hashFile,
      hp.dataFile.discard_eq hbase.dataFile hdata hrange.dataFile,
      LeafSet.discard_eq hbase.leafSet hp.leafSetBak, hp.prunable, hp.pruneList]
  unfold discard
  rw [hbackend]

end PMMR
end Epic
