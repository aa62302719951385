import Epic.Chain.Bitmaps

/-!
This module contains the way the input bitmaps are put together on the way back from the head of a
chain: they are collected in a list, which is reduced to one bitmap as soon as it has 256 entries.
-/

namespace Epic

open Routine

def Bitmap.fastOr (bitmaps : List Bitmap) : Bitmap := bitmaps.foldr (· ∪ ·) ∅

-- the result, and what is in the list of bitmaps afterwards
def bitmapFastOr (bRes : Option Bitmap) (blockInputBitmaps : List Bitmap)
    : Option Bitmap × List Bitmap :=
  let blockInputBitmaps := blockInputBitmaps ++ bRes.toList
  if bRes.isSome ∧ blockInputBitmaps.length < 256 then
    (none, blockInputBitmaps)
  else
    let bitmap := Bitmap.fastOr blockInputBitmaps
    (some bitmap, [bitmap])

def inputPosToRewindBatched.go (env : Env) (blockHeader : BlockHeader) (fuel : Nat) (current : BlockHeader)
    (blockInputBitmaps : List Bitmap)
    : Routine Batch ErrorKind Bitmap :=
  match fuel with
  | 0 => .lift .hang
  | fuel + 1 =>
    if current.hash env = blockHeader.hash env ∨ current.height < 1 then
      .lift (.okOr (bitmapFastOr none blockInputBitmaps).1 .bitmap)
    else do
      let input ← blockInputBitmap env (current.hash env)
      let prev ← .query fun batch => batch.getPreviousHeader current
      match input with
      | some bRes => go env blockHeader fuel prev (bitmapFastOr (some bRes) blockInputBitmaps).2
      | none => go env blockHeader fuel prev blockInputBitmaps

def inputPosToRewindBatched (env : Env) (blockHeader headHeader : BlockHeader)
    : Routine Batch ErrorKind Bitmap := fun batch =>
  if headHeader.height < blockHeader.height then
    (.ok ∅, batch)
  else
    inputPosToRewindBatched.go env blockHeader (batch.db.headers.entries.length + 2) headHeader [] batch

@[simp]
theorem Bitmap.fastOr_concat (bitmaps : List Bitmap) (b : Bitmap)
    : Bitmap.fastOr (bitmaps ++ [b]) = Bitmap.fastOr bitmaps ∪ b := by
  induction bitmaps with
  | nil => simp [fastOr]
  | cons bitmap bitmaps ih =>
    unfold fastOr at ih ⊢
    rw [List.cons_append, List.foldr_cons, List.foldr_cons, ih, Finset.union_assoc]

@[simp]
theorem Bitmap.fastOr_singleton (b : Bitmap)
    : Bitmap.fastOr [b] = b := by
  simp [fastOr]

theorem bitmapFastOr_none (blockInputBitmaps : List Bitmap)
    : (bitmapFastOr none blockInputBitmaps).1 = some (Bitmap.fastOr blockInputBitmaps) := by
  simp [bitmapFastOr]

theorem fastOr_bitmapFastOr_some (b : Bitmap) (blockInputBitmaps : List Bitmap)
    : Bitmap.fastOr (bitmapFastOr (some b) blockInputBitmaps).2 = Bitmap.fastOr blockInputBitmaps ∪ b := by
  unfold bitmapFastOr
  dsimp only
  split
  . exact Bitmap.fastOr_concat _ _
  . rw [Bitmap.fastOr_singleton]
    exact Bitmap.fastOr_concat _ _

theorem inputPosToRewindBatched_go_eq (env : Env) (blockHeader : BlockHeader) (fuel : Nat)
    (current : BlockHeader) (blockInputBitmaps : List Bitmap)
    : inputPosToRewindBatched.go env blockHeader fuel current blockInputBitmaps
        =
      inputPosToRewind.go env blockHeader fuel current (Bitmap.fastOr blockInputBitmaps) := by
  induction fuel generalizing current blockInputBitmaps with
  | zero => rfl
  | succ fuel ih =>
    unfold inputPosToRewindBatched.go inputPosToRewind.go
    split
    . rw [bitmapFastOr_none]
      rfl
    . congr 1
      funext input
      congr 1
      funext prev
      cases input with
      | none =>
        rw [Option.getD_none, Finset.union_empty]
        exact ih prev blockInputBitmaps
      | some bRes =>
        rw [Option.getD_some, ← fastOr_bitmapFastOr_some]
        exact ih prev _

theorem inputPosToRewindBatched_eq (env : Env) (blockHeader headHeader : BlockHeader)
    : inputPosToRewindBatched env blockHeader headHeader = inputPosToRewind env blockHeader headHeader := by
  funext batch
  unfold inputPosToRewindBatched inputPosToRewind
  rw [inputPosToRewindBatched_go_eq]
  rfl

theorem inputPosToRewindBatched_collects {env : Env} {batch : Batch} {branch : List Block} {i : Nat}
    {ancestor head : Block} (hbranch : batch.db.headers.Branch env (headersOf branch))
    (hancestor : branch[i]? = some ancestor) (hhead : branch.getLast? = some head)
    (hbitmaps : ∀ b ∈ branch.drop (i + 1), ∃ stored,
      batch.committed.inputBitmaps.lookup (b.hash env) = some stored)
    : ∃ bitmap,
        inputPosToRewindBatched env ancestor.header head.header batch = (.ok bitmap, batch)
          ∧
        SpentBy env batch.committed (branch.drop (i + 1)) bitmap := by
  obtain ⟨bitmap, hbitmap⟩ := inputPosToRewind_ok hbranch hbitmaps hancestor hhead
  obtain ⟨-, hspent⟩ := inputPosToRewind_eq_ok hbranch hbitmaps hancestor hhead hbitmap
  rw [← inputPosToRewindBatched_eq] at hbitmap
  exact ⟨bitmap, hbitmap, hspent⟩

open Chain.Sample in
theorem inputPosToRewindBatched_collects_two
    : ∃ bitmap,
        inputPosToRewindBatched env genesis.header side₂.header spent.store.batch
          = (.ok bitmap, spent.store.batch)
          ∧
        SpentBy env spent.store [side₁, side₂] bitmap := by
  obtain ⟨-, -, -, -, -, -, hbranch, -⟩ := extends_spent
  have hbitmaps : ∀ b ∈ [side₁, side₂], ∃ stored,
      spent.store.inputBitmaps.lookup (b.hash env) = some stored := by
    intro b hb
    have hall : ∀ b ∈ [side₁, side₂], (spent.store.inputBitmaps.lookup (b.hash env)).isSome := by
      decide +kernel
    exact Option.isSome_iff_exists.mp (hall b hb)
  have hgenesis : [genesis, side₁, side₂][0]? = some genesis := rfl
  exact inputPosToRewindBatched_collects hbranch.headers hgenesis rfl hbitmaps

end Epic
