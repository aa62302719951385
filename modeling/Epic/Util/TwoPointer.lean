import Epic.Util.Outcome
import Mathlib.Data.List.Basic

/-!
This module contains the in place difference of two vectors: two indices run through them, elements that
match are dropped, and what is kept moves to the front by the number of pairs dropped so far. At the end
the gap between what was kept and what was not visited is removed.
-/

namespace TwoPointer

variable {ε α β : Type}

def difference (cmp : α → β → Ordering) (fuel : Nat) (left : List α) (right : List β) : List α × List β :=
  match fuel, left, right with
  | fuel + 1, x :: left, y :: right =>
    match cmp x y with
    | .lt =>
      let rest := difference cmp fuel left (y :: right)
      (x :: rest.1, rest.2)
    | .gt =>
      let rest := difference cmp fuel (x :: left) right
      (rest.1, y :: rest.2)
    | .eq => difference cmp fuel left right
  | _, left, right => (left, right)

structure State (α β : Type) where
  left : List α
  right : List β
  leftIdx : Nat
  rightIdx : Nat
  ncut : Nat

-- moving an element with an index below the number of dropped pairs would underflow
def move {γ : Type} (l : List γ) (idx ncut : Nat) (x : γ) : Outcome ε (List γ) := do
  .assert (ncut ≤ idx)
  .assert (idx - ncut < l.length)
  return l.set (idx - ncut) x

def loop (cmp : α → β → Ordering) (fuel : Nat) (s : State α β) : Outcome ε (State α β) :=
  match fuel with
  | 0 => .hang
  | fuel + 1 =>
    match s.left[s.leftIdx]?, s.right[s.rightIdx]? with
    | some x, some y =>
      match cmp x y with
      | .lt => do
        let left ← move s.left s.leftIdx s.ncut x
        loop cmp fuel { s with left := left, leftIdx := s.leftIdx + 1 }
      | .gt => do
        let right ← move s.right s.rightIdx s.ncut y
        loop cmp fuel { s with right := right, rightIdx := s.rightIdx + 1 }
      | .eq =>
        loop cmp fuel
          { s with leftIdx := s.leftIdx + 1, rightIdx := s.rightIdx + 1, ncut := s.ncut + 1 }
    | _, _ => .ok s

def drain {γ : Type} (l : List γ) (idx ncut : Nat) : Outcome ε (List γ) := do
  .assert (ncut ≤ idx)
  .assert (idx ≤ l.length)
  return l.take (idx - ncut) ++ l.drop idx

def compact (cmp : α → β → Ordering) (left : List α) (right : List β) : Outcome ε (List α × List β) := do
  let s ← loop cmp (left.length + right.length + 1) ⟨left, right, 0, 0, 0⟩
  let right ← drain s.right s.rightIdx s.ncut
  let left ← drain s.left s.leftIdx s.ncut
  return (left, right)

-- an index into a vector whose front has what was kept
structure Cursor {γ : Type} (l : List γ) (idx ncut : Nat) : Prop where
  cut : ncut ≤ idx
  bound : idx ≤ l.length

section

variable {γ : Type} {l : List γ} {idx ncut : Nat} {x : γ}

theorem Cursor.start (l : List γ)
    : Cursor l 0 0 := ⟨Nat.le_refl _, Nat.zero_le _⟩

theorem Cursor.skip (h : Cursor l idx ncut) (hx : l[idx]? = some x)
    : Cursor l (idx + 1) (ncut + 1) :=
  ⟨Nat.succ_le_succ h.cut, (List.getElem?_eq_some_iff.mp hx).1⟩

theorem Cursor.drop_eq_cons (hx : l[idx]? = some x)
    : l.drop idx = x :: l.drop (idx + 1) := by
  obtain ⟨hlt, rfl⟩ := List.getElem?_eq_some_iff.mp hx
  exact List.drop_eq_getElem_cons hlt

theorem Cursor.move_ok (h : Cursor l idx ncut) (hx : l[idx]? = some x)
    : ∃ l', (move l idx ncut x : Outcome ε (List γ)) = .ok l'
        ∧ Cursor l' (idx + 1) ncut
        ∧ l'.length = l.length
        ∧ l'.take (idx + 1 - ncut) = l.take (idx - ncut) ++ [x]
        ∧ l'.drop (idx + 1) = l.drop (idx + 1) := by
  have hlt := (List.getElem?_eq_some_iff.mp hx).1
  have hcut := h.cut
  have hidx : idx + 1 - ncut = idx - ncut + 1 := by omega
  refine ⟨l.set (idx - ncut) x, ?_, ⟨by omega, ?_⟩, List.length_set, ?_, ?_⟩
  . unfold move
    rw [show (Outcome.assert (ncut ≤ idx) : Outcome ε Unit) = .ok () from Outcome.assert_eq_ok.mpr hcut,
      Outcome.ok_bind, show (Outcome.assert (idx - ncut < l.length) : Outcome ε Unit) = .ok () from
        Outcome.assert_eq_ok.mpr (by omega), Outcome.ok_bind]
    rfl
  . rw [List.length_set]
    exact hlt
  . rw [hidx, List.take_add_one, List.take_set_of_le (Nat.le_refl _), List.getElem?_set_self (by omega)]
    rfl
  . exact List.drop_set_of_lt (by omega)

theorem Cursor.drain_ok (h : Cursor l idx ncut)
    : (drain l idx ncut : Outcome ε (List γ)) = .ok (l.take (idx - ncut) ++ l.drop idx) := by
  unfold drain
  rw [show (Outcome.assert (ncut ≤ idx) : Outcome ε Unit) = .ok () from Outcome.assert_eq_ok.mpr h.cut,
    Outcome.ok_bind, show (Outcome.assert (idx ≤ l.length) : Outcome ε Unit) = .ok () from
      Outcome.assert_eq_ok.mpr h.bound, Outcome.ok_bind]
  rfl

end

structure Valid (s : State α β) : Prop where
  left : Cursor s.left s.leftIdx s.ncut
  right : Cursor s.right s.rightIdx s.ncut

structure Compacts (cmp : α → β → Ordering) (fuel : Nat) (s s' : State α β) : Prop where
  valid : Valid s'
  left : s'.left.take (s'.leftIdx - s'.ncut) ++ s'.left.drop s'.leftIdx
    = s.left.take (s.leftIdx - s.ncut)
      ++ (difference cmp fuel (s.left.drop s.leftIdx) (s.right.drop s.rightIdx)).1
  right : s'.right.take (s'.rightIdx - s'.ncut) ++ s'.right.drop s'.rightIdx
    = s.right.take (s.rightIdx - s.ncut)
      ++ (difference cmp fuel (s.left.drop s.leftIdx) (s.right.drop s.rightIdx)).2

theorem loop_ok (cmp : α → β → Ordering) (h : Valid s)
    (hfuel : (s.left.length - s.leftIdx) + (s.right.length - s.rightIdx) < fuel)
    (hn : (s.left.length - s.leftIdx) + (s.right.length - s.rightIdx) ≤ n)
    : ∃ s', (loop cmp fuel s : Outcome ε (State α β)) = .ok s' ∧ Compacts cmp n s s' := by
  induction fuel generalizing n s with
  | zero => omega
  | succ fuel ih =>
    unfold loop
    split
    . next x y hx hy =>
      have hltX := (List.getElem?_eq_some_iff.mp hx).1
      have hltY := (List.getElem?_eq_some_iff.mp hy).1
      obtain ⟨n, rfl⟩ : ∃ n', n = n' + 1 := Nat.exists_eq_add_one.mpr (by omega)
      have hdropX := Cursor.drop_eq_cons hx
      have hdropY := Cursor.drop_eq_cons hy
      split
      . next hcmp =>
        obtain ⟨left, hmove, hcursor, hlen, htake, hdrop⟩ := h.left.move_ok (ε := ε) hx
        rw [hmove, Outcome.ok_bind]
        obtain ⟨s', hs', hvalid, hleft, hright⟩ := ih (n := n)
          (s := { s with left := left, leftIdx := s.leftIdx + 1 }) ⟨hcursor, h.right⟩
          (by simp only [hlen]; omega) (by simp only [hlen]; omega)
        refine ⟨s', hs', hvalid, ?_, ?_⟩
        . rw [hleft, htake, hdrop, hdropX, hdropY]
          simp [difference, hcmp]
        . rw [hright, hdrop, hdropX, hdropY]
          simp [difference, hcmp]
      . next hcmp =>
        obtain ⟨right, hmove, hcursor, hlen, htake, hdrop⟩ := h.right.move_ok (ε := ε) hy
        rw [hmove, Outcome.ok_bind]
        obtain ⟨s', hs', hvalid, hleft, hright⟩ := ih (n := n)
          (s := { s with right := right, rightIdx := s.rightIdx + 1 }) ⟨h.left, hcursor⟩
          (by simp only [hlen]; omega) (by simp only [hlen]; omega)
        refine ⟨s', hs', hvalid, ?_, ?_⟩
        . rw [hleft, hdrop, hdropX, hdropY]
          simp [difference, hcmp]
        . rw [hright, htake, hdrop, hdropX, hdropY]
          simp [difference, hcmp]
      . next hcmp =>
        obtain ⟨s', hs', hvalid, hleft, hright⟩ := ih (n := n)
          (s := { s with leftIdx := s.leftIdx + 1, rightIdx := s.rightIdx + 1, ncut := s.ncut + 1 })
          ⟨h.left.skip hx, h.right.skip hy⟩ (by dsimp only; omega) (by dsimp only; omega)
        refine ⟨s', hs', hvalid, ?_, ?_⟩
        . rw [hleft, hdropX, hdropY]
          simp [difference, hcmp]
        . rw [hright, hdropX, hdropY]
          simp [difference, hcmp]
    . next hend =>
      have hnil : difference cmp n (s.left.drop s.leftIdx) (s.right.drop s.rightIdx)
          = (s.left.drop s.leftIdx, s.right.drop s.rightIdx) := by
        unfold difference
        split
        . next x left y right hleft hright =>
          have hx : s.left[s.leftIdx]? = some x := by
            rw [← List.head?_drop, hleft]
            rfl
          have hy : s.right[s.rightIdx]? = some y := by
            rw [← List.head?_drop, hright]
            rfl
          exact absurd hy (hend x y hx)
        . rfl
      exact ⟨s, rfl, h, by rw [hnil], by rw [hnil]⟩

theorem compact_eq (cmp : α → β → Ordering) (left : List α) (right : List β)
    : (compact cmp left right : Outcome ε (List α × List β))
        = .ok (difference cmp (left.length + right.length) left right) := by
  have hstart : Valid (⟨left, right, 0, 0, 0⟩ : State α β) := ⟨.start left, .start right⟩
  obtain ⟨s, hs, hvalid, hleft, hright⟩ :=
    loop_ok (ε := ε) cmp hstart (Nat.lt_succ_self (left.length + right.length)) (Nat.le_refl _)
  unfold compact
  rw [hs, Outcome.ok_bind, hvalid.right.drain_ok, Outcome.ok_bind, hvalid.left.drain_ok, Outcome.ok_bind,
    hleft, hright]
  rfl

end TwoPointer
