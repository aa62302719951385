import Mathlib.Init

/-!
This module contains the files a Merkle mountain range is stored in. They are append only, with a
buffer of elements that are not written yet, and can be rewound. Positions count from 0.
-/

namespace Epic

structure AppendOnlyFile (T : Type) where
  file : List T
  buffer : List T
  bufferStartPos : Nat
  bufferStartPosBak : Nat
deriving DecidableEq

namespace AppendOnlyFile

variable {T : Type}

-- open on a path without a file
def empty : AppendOnlyFile T := ⟨[], [], 0, 0⟩

def size (f : AppendOnlyFile T) : Nat := f.file.length

def sizeUnsync (f : AppendOnlyFile T) : Nat := f.bufferStartPos + f.buffer.length

def append (f : AppendOnlyFile T) (x : T) : AppendOnlyFile T :=
  { f with buffer := f.buffer ++ [x] }

def rewind (f : AppendOnlyFile T) (pos : Nat) : AppendOnlyFile T :=
  let bak := if f.bufferStartPosBak = 0 then f.bufferStartPos else f.bufferStartPosBak
  { f with bufferStartPosBak := bak, bufferStartPos := pos }

def flush (f : AppendOnlyFile T) : AppendOnlyFile T :=
  let kept := if f.bufferStartPosBak > 0 then f.file.take f.bufferStartPos else f.file
  ⟨kept ++ f.buffer, [], (kept ++ f.buffer).length, 0⟩

def discard (f : AppendOnlyFile T) : AppendOnlyFile T :=
  if f.bufferStartPosBak > 0 then
    { f with bufferStartPos := f.bufferStartPosBak, bufferStartPosBak := 0, buffer := [] }
  else
    { f with buffer := [] }

def readAt (f : AppendOnlyFile T) (pos : Nat) : Option T :=
  if pos ≥ f.sizeUnsync then
    none
  else if pos < f.bufferStartPos then
    f.file[pos]?
  else
    f.buffer[pos - f.bufferStartPos]?

-- DataFile::read, with positions that count from 1
def read (f : AppendOnlyFile T) (position : Nat) : Option T :=
  if position = 0 then none else f.readAt (position - 1)

def savePrune.go (currentPos : Nat) (prunePos : List Nat) (elmts : List T) : List T :=
  match elmts with
  | [] => []
  | elmt :: elmts =>
    if currentPos ∈ prunePos then
      go (currentPos + 1) prunePos.tail elmts
    else
      elmt :: go (currentPos + 1) prunePos elmts

def savePrune (f : AppendOnlyFile T) (prunePos : List Nat) : AppendOnlyFile T :=
  let kept := savePrune.go 0 (prunePos.map (· - 1)) f.file
  { f with file := kept, bufferStartPos := kept.length }

-- what is not written is lost
def reopen (f : AppendOnlyFile T) : AppendOnlyFile T := ⟨f.file, [], f.file.length, 0⟩

/-!
A file is settled between two units of work: nothing is pending. The start of an empty file does not
matter, nothing can be read from it.
-/

structure Settled (f : AppendOnlyFile T) : Prop where
  buffer : f.buffer = []
  start : f.file ≠ [] → f.bufferStartPos = f.file.length
  bak : f.bufferStartPosBak = 0

theorem Settled.empty
    : (AppendOnlyFile.empty : AppendOnlyFile T).Settled := ⟨rfl, fun _ => rfl, rfl⟩

theorem Settled.flush (f : AppendOnlyFile T)
    : f.flush.Settled := ⟨rfl, fun _ => rfl, rfl⟩

theorem Settled.savePrune {f : AppendOnlyFile T} (h : f.Settled) (prunePos : List Nat)
    : (f.savePrune prunePos).Settled := ⟨h.buffer, fun _ => rfl, h.bak⟩

/-!
A file is a working copy of a settled one if discarding the pending changes gives the settled one
back. An empty file is rewound without a backup, only its start may be another one then.
-/

structure Pending (base f : AppendOnlyFile T) : Prop where
  file : f.file = base.file
  discard : base.file = [] ∨ f.discard = base

theorem Pending.refl (h : base.Settled)
    : Pending base base := by
  refine ⟨rfl, .inr ?_⟩
  have hbak := h.bak
  have hbuffer := h.buffer
  cases base
  simp_all [AppendOnlyFile.discard]

theorem Pending.append (h : Pending base f) (x : T)
    : Pending base (f.append x) := ⟨h.file, h.discard⟩

theorem Pending.rewind (hbase : base.Settled) (h : Pending base f)
    (pos : Nat)
    : Pending base (f.rewind pos) := by
  refine ⟨h.file, ?_⟩
  rcases h.discard with hempty | hdiscard
  . exact .inl hempty
  . by_cases hnil : base.file = []
    . exact .inl hnil
    . right
      have hpos : 0 < base.file.length := List.length_pos_iff.mpr hnil
      have hstart := hbase.start hnil
      subst hdiscard
      unfold AppendOnlyFile.rewind AppendOnlyFile.discard at *
      dsimp only at *
      split at hstart <;> split <;> grind

theorem Pending.file_discard (h : Pending base f)
    : f.discard.file = base.file := by
  unfold AppendOnlyFile.discard
  split <;> exact h.file

theorem buffer_discard (f : AppendOnlyFile T)
    : f.discard.buffer = [] := by
  unfold AppendOnlyFile.discard
  split <;> rfl

theorem Pending.settled_discard (hbase : base.Settled)
    (h : Pending base f)
    : f.discard.Settled := by
  rcases h.discard with hempty | hdiscard
  . refine ⟨buffer_discard f, ?_, ?_⟩
    . intro hne
      rw [h.file_discard] at hne
      contradiction
    . unfold AppendOnlyFile.discard
      split
      . rfl
      . dsimp only
        omega
  . rw [hdiscard]
    exact hbase

theorem readAt_of_file_eq_nil {f : AppendOnlyFile T} (hfile : f.file = []) (hbuffer : f.buffer = [])
    (pos : Nat)
    : f.readAt pos = none := by
  simp [readAt, hfile, hbuffer]

theorem Pending.read_discard {base f : AppendOnlyFile T} (hbase : base.Settled)
    (h : Pending base f) (position : Nat)
    : f.discard.read position = base.read position := by
  rcases h.discard with hempty | hdiscard
  . have hfile : f.discard.file = [] := h.file_discard.trans hempty
    unfold AppendOnlyFile.read
    rw [readAt_of_file_eq_nil hfile (buffer_discard f)]
    rw [readAt_of_file_eq_nil hempty hbase.buffer]
  . rw [hdiscard]

/-!
What can be read from a file: the part that is not rewound, and the elements that are not written yet.
-/

def contents (f : AppendOnlyFile T) : List T := f.file.take f.bufferStartPos ++ f.buffer

-- the buffer starts inside the file, and at its end unless the file is rewound
structure Tidy (f : AppendOnlyFile T) : Prop where
  start : f.bufferStartPos ≤ f.file.length
  whole : f.bufferStartPosBak = 0 → f.bufferStartPos = f.file.length

theorem Tidy.empty
    : (AppendOnlyFile.empty : AppendOnlyFile T).Tidy := ⟨Nat.le_refl _, fun _ => rfl⟩

theorem Tidy.readAt_eq {f : AppendOnlyFile T} (h : f.Tidy) (pos : Nat)
    : f.readAt pos = f.contents[pos]? := by
  have hstart := h.start
  unfold readAt sizeUnsync contents
  split
  . rw [List.getElem?_eq_none (by simp; omega)]
  . split
    . rw [List.getElem?_append_left (by simp; omega)]
      rw [List.getElem?_take_of_lt (by assumption)]
    . rw [List.getElem?_append_right (by simp; omega)]
      simp [hstart]

theorem Tidy.sizeUnsync_eq {f : AppendOnlyFile T} (h : f.Tidy)
    : f.sizeUnsync = f.contents.length := by
  simp [sizeUnsync, contents, h.start]

theorem Tidy.start_eq {f : AppendOnlyFile T} (h : f.Tidy) (hbuffer : f.buffer = [])
    : f.bufferStartPos = f.contents.length := by
  have hsize := h.sizeUnsync_eq
  rwa [sizeUnsync, hbuffer] at hsize

theorem Tidy.append {f : AppendOnlyFile T} (h : f.Tidy) (x : T)
    : (f.append x).Tidy := ⟨h.start, h.whole⟩

theorem contents_append (f : AppendOnlyFile T) (x : T)
    : (f.append x).contents = f.contents ++ [x] := by
  simp [AppendOnlyFile.append, contents]

theorem Tidy.foldl_append {f : AppendOnlyFile T} (h : f.Tidy) (xs : List T)
    : (xs.foldl AppendOnlyFile.append f).Tidy := by
  induction xs generalizing f with
  | nil => exact h
  | cons x xs ih => exact ih (h.append x)

theorem contents_foldl_append (f : AppendOnlyFile T) (xs : List T)
    : (xs.foldl AppendOnlyFile.append f).contents = f.contents ++ xs := by
  induction xs generalizing f with
  | nil => simp
  | cons x xs ih => simp [ih, contents_append]

theorem Tidy.flush (f : AppendOnlyFile T)
    : f.flush.Tidy := ⟨Nat.le_refl _, fun _ => rfl⟩

theorem Tidy.contents_flush {f : AppendOnlyFile T} (h : f.Tidy)
    : f.flush.contents = f.contents := by
  have hwhole := h.whole
  unfold AppendOnlyFile.flush contents
  simp only [List.take_length, List.append_nil]
  split
  . rfl
  . rw [hwhole (by omega), List.take_length]

theorem Tidy.rewind {f : AppendOnlyFile T} (h : f.Tidy) (hpos : pos ≤ f.bufferStartPos)
    : (f.rewind pos).Tidy := by
  have hstart := h.start
  have hwhole := h.whole
  refine ⟨by unfold AppendOnlyFile.rewind; dsimp only; omega, ?_⟩
  unfold AppendOnlyFile.rewind
  dsimp only
  split <;> omega

theorem contents_rewind {f : AppendOnlyFile T} (hbuffer : f.buffer = [])
    (hpos : pos ≤ f.bufferStartPos)
    : (f.rewind pos).contents = f.contents.take pos := by
  simp [AppendOnlyFile.rewind, contents, hbuffer, List.take_take, hpos]

theorem Settled.tidy_rewind_zero {f : AppendOnlyFile T} (h : f.Settled)
    : (f.rewind 0).Tidy := by
  refine ⟨Nat.zero_le _, ?_⟩
  unfold AppendOnlyFile.rewind
  dsimp only
  rw [if_pos h.bak]
  intro hzero
  by_cases hnil : f.file = []
  . rw [hnil]
    rfl
  . rw [← h.start hnil, hzero]

theorem Settled.contents_rewind_zero {f : AppendOnlyFile T} (h : f.Settled)
    : (f.rewind 0).contents = [] := by
  simp [AppendOnlyFile.rewind, contents, h.buffer]

/-!
A working copy of a settled file that is rewound to positions inside the file only is taken back to that
very file.
-/

structure InRange (f : AppendOnlyFile T) : Prop where
  start : f.bufferStartPos ≤ f.file.length
  bak : f.bufferStartPosBak ≤ f.file.length

theorem Settled.inRange {f : AppendOnlyFile T} (h : f.Settled) (htidy : f.Tidy)
    : f.InRange := ⟨htidy.start, by rw [h.bak]; exact Nat.zero_le _⟩

theorem InRange.foldl_append (h : f.InRange) (xs : List T)
    : (xs.foldl AppendOnlyFile.append f).InRange := by
  induction xs generalizing f with
  | nil => exact h
  | cons x xs ih => exact ih ⟨h.start, h.bak⟩

theorem InRange.rewind {f : AppendOnlyFile T} (h : f.InRange) (hpos : pos ≤ f.file.length)
    : (f.rewind pos).InRange := by
  refine ⟨hpos, ?_⟩
  unfold AppendOnlyFile.rewind
  dsimp only
  split
  . exact h.start
  . exact h.bak

theorem Pending.discard_eq (hbase : base.Settled) (htidy : base.Tidy)
    (h : Pending base f) (hrange : f.InRange)
    : f.discard = base := by
  rcases h.discard with hempty | hdiscard
  . have hfile := h.file.trans hempty
    have hstart := hrange.start
    have hbak := hrange.bak
    have hbuffer := hbase.buffer
    have hbaseBak := hbase.bak
    have hbaseStart := htidy.start
    cases base
    cases f
    simp_all [AppendOnlyFile.discard]
  . exact hdiscard

theorem Settled.contents_eq {f : AppendOnlyFile T} (h : f.Settled) (htidy : f.Tidy)
    : f.contents = f.file := by
  unfold contents
  rw [htidy.whole h.bak, h.buffer, List.take_length, List.append_nil]

theorem Settled.eq_of_contents {f g : AppendOnlyFile T} (hf : f.Settled) (hg : g.Settled)
    (hfTidy : f.Tidy) (hgTidy : g.Tidy) (h : f.contents = g.contents)
    : f = g := by
  rw [hf.contents_eq hfTidy, hg.contents_eq hgTidy] at h
  have hfStart := hfTidy.whole hf.bak
  have hgStart := hgTidy.whole hg.bak
  have hfBuffer := hf.buffer
  have hgBuffer := hg.buffer
  have hfBak := hf.bak
  have hgBak := hg.bak
  cases f
  cases g
  simp_all

theorem Settled.flush_rewind {base f : AppendOnlyFile T} (hbase : base.Settled) (hbaseTidy : base.Tidy)
    (htidy : f.Tidy) (hbuffer : f.buffer = []) (hgrown : base.contents <+: f.contents)
    : (f.rewind base.contents.length).flush = base := by
  have hpos : base.contents.length ≤ f.bufferStartPos := by
    rw [htidy.start_eq hbuffer]
    exact hgrown.length_le
  apply eq_of_contents (.flush _) hbase (.flush _) hbaseTidy
  rw [(htidy.rewind hpos).contents_flush, contents_rewind hbuffer hpos]
  exact (List.prefix_iff_eq_take.mp hgrown).symm

theorem Settled.reopen_eq {f : AppendOnlyFile T} (h : f.Settled) (htidy : f.Tidy)
    : f.reopen = f := by
  apply eq_of_contents ⟨rfl, fun _ => rfl, rfl⟩ h ⟨Nat.le_refl _, fun _ => rfl⟩ htidy
  rw [h.contents_eq htidy]
  simp [reopen, contents]

theorem Settled.flush_eq {f : AppendOnlyFile T} (h : f.Settled) (htidy : f.Tidy)
    : f.flush = f := by
  apply eq_of_contents (.flush f) h (.flush f) htidy
  exact htidy.contents_flush

end AppendOnlyFile

end Epic
