import Mathlib.Tactic.Positivity
import Mathlib.Tactic.Ring

/-!
This module contains Merkle mountain ranges that are built from scratch: perfect binary trees over the
powers of two that the number of leaves is the sum of, the largest one first, with their nodes in
postorder. Each hash is taken with the number of nodes before it.
-/

structure MountainRange (α H : Type) where
  leaf : α → Nat → H
  node : H → H → Nat → H

namespace MountainRange

variable {α H : Type} (h : MountainRange α H)

def parent (left right : List H) (index : Nat) : List H :=
  match left.getLast?, right.getLast? with
  | some l, some r => [h.node l r index]
  | _, _ => []

def perfect (elmts : List α) (offset k : Nat) : List H :=
  match k with
  | 0 => (elmts.head?.map fun x => h.leaf x offset).toList
  | k + 1 =>
    let left := perfect elmts offset k
    let right := perfect (elmts.drop (2 ^ k)) (offset + left.length) k
    left ++ right ++ h.parent left right (offset + left.length + right.length)

def mountains (elmts : List α) (offset bits : Nat) : List (List H) :=
  match bits with
  | 0 => []
  | bits + 1 =>
    if 2 ^ bits ≤ elmts.length then
      let mountain := h.perfect elmts offset bits
      mountain :: mountains (elmts.drop (2 ^ bits)) (offset + mountain.length) bits
    else
      mountains elmts offset bits

def nodes (elmts : List α) : List H := (h.mountains elmts 0 elmts.length).flatten

def peaks (elmts : List α) : List H := (h.mountains elmts 0 elmts.length).filterMap List.getLast?

def bag (size : Nat) (peaks : List H) : Option H :=
  match peaks with
  | [] => none
  | [peak] => some peak
  | peak :: peak' :: peaks => (bag size (peak' :: peaks)).map fun rhs => h.node peak rhs size

def root (elmts : List α) : Option H := h.bag (h.nodes elmts).length (h.peaks elmts)

theorem exists_bag (size : Nat) (peak : H) (peaks : List H)
    : ∃ root, h.bag size (peak :: peaks) = some root := by
  induction peaks generalizing peak with
  | nil => exact ⟨peak, rfl⟩
  | cons peak' peaks ih =>
    obtain ⟨rhs, hrhs⟩ := ih peak'
    exact ⟨h.node peak rhs size, by rw [bag, hrhs]; rfl⟩

theorem peaks_eq_of_bag_eq {R : H → H → Prop}
    (hnode : ∀ l l' r r' index, R l l' → h.node l r index = h.node l' r' index → l = l' ∧ r = r')
    {size : Nat} {peaks peaks' : List H} (hpeaks : List.Forall₂ R peaks peaks')
    (hbag : h.bag size peaks = h.bag size peaks')
    : peaks = peaks' := by
  induction hpeaks with
  | nil => rfl
  | @cons peak peak' peaks peaks' hpeak hrest ih =>
    cases hrest with
    | nil =>
      injection hbag with hbag
      rw [hbag]
    | @cons next next' _ _ hnext hrest =>
      obtain ⟨rhs, hrhs⟩ := h.exists_bag size next _
      obtain ⟨rhs', hrhs'⟩ := h.exists_bag size next' _
      rw [bag, bag, hrhs, hrhs', Option.map_some, Option.map_some, Option.some.injEq] at hbag
      obtain ⟨rfl, rfl⟩ := hnode _ _ _ _ _ hpeak hbag
      rw [ih (hrhs.trans hrhs'.symm)]

theorem length_perfect (hlen : 2 ^ k ≤ elmts.length)
    : (h.perfect elmts offset k).length = 2 ^ (k + 1) - 1 := by
  induction k generalizing elmts offset with
  | zero =>
    cases elmts with
    | nil => simp at hlen
    | cons x elmts => rfl
  | succ k ih =>
    have hpow : 0 < 2 ^ k := by positivity
    have hleft : (h.perfect elmts offset k).length = 2 ^ (k + 1) - 1 := ih (by omega)
    have hright (offset : Nat) : (h.perfect (elmts.drop (2 ^ k)) offset k).length = 2 ^ (k + 1) - 1 :=
      ih (by rw [List.length_drop]; omega)
    have hparent (l r : List H) (index : Nat) (hl : l.length = 2 ^ (k + 1) - 1)
        (hr : r.length = 2 ^ (k + 1) - 1) : (h.parent l r index).length = 1 := by
      have hlne : l ≠ [] := List.ne_nil_of_length_pos (by omega)
      have hrne : r ≠ [] := List.ne_nil_of_length_pos (by omega)
      simp [parent, List.getLast?_eq_some_getLast hlne, List.getLast?_eq_some_getLast hrne]
    unfold perfect
    dsimp only
    rw [List.length_append, List.length_append, hparent _ _ _ hleft (hright _), hleft, hright]
    omega

theorem exists_getLast?_perfect (offset : Nat) (hlen : 2 ^ k ≤ elmts.length)
    : ∃ top, (h.perfect elmts offset k).getLast? = some top := by
  have hlength : (h.perfect elmts offset k).length = 2 ^ (k + 1) - 1 := h.length_perfect hlen
  have hpow : 0 < 2 ^ k := by positivity
  have hne : h.perfect elmts offset k ≠ [] := List.ne_nil_of_length_pos (by omega)
  exact ⟨_, List.getLast?_eq_some_getLast hne⟩

theorem perfect_append (hlen : 2 ^ k ≤ elmts.length) (more : List α)
    : h.perfect (elmts ++ more) offset k = h.perfect elmts offset k := by
  induction k generalizing elmts offset with
  | zero =>
    cases elmts with
    | nil => simp at hlen
    | cons x elmts => rfl
  | succ k ih =>
    have hpow : 0 < 2 ^ k := by positivity
    have hright (offset : Nat) : h.perfect (elmts.drop (2 ^ k) ++ more) offset k
        = h.perfect (elmts.drop (2 ^ k)) offset k := ih (by rw [List.length_drop]; omega)
    unfold perfect
    dsimp only
    rw [List.drop_append_of_le_length (by omega), ih (by omega), hright]

@[simp]
theorem mountains_nil (offset bits : Nat)
    : h.mountains [] offset bits = [] := by
  induction bits with
  | zero => rfl
  | succ bits ih => rw [mountains, if_neg (by simp), ih]

theorem mountains_add (hlen : elmts.length < 2 ^ bits) (more : Nat)
    : h.mountains elmts offset (bits + more) = h.mountains elmts offset bits := by
  induction more with
  | zero => rfl
  | succ more ih =>
    have hpow : 2 ^ bits ≤ 2 ^ (bits + more) := Nat.pow_le_pow_right (by omega) (by omega)
    rw [← Nat.add_assoc, mountains, if_neg (by omega), ih]

theorem mountains_eq (hlen : elmts.length < 2 ^ bits)
    : h.mountains elmts offset bits = h.mountains elmts offset elmts.length := by
  have hself : elmts.length < 2 ^ elmts.length := Nat.lt_two_pow_self
  rcases Nat.le_total bits elmts.length with hle | hle
  . obtain ⟨more, hmore⟩ := Nat.exists_eq_add_of_le hle
    rw [hmore, mountains_add h hlen]
  . obtain ⟨more, rfl⟩ := Nat.exists_eq_add_of_le hle
    rw [mountains_add h hself]

theorem perfect_succ (hlen : 2 ^ (k + 1) ≤ elmts.length)
    (hl : (h.perfect elmts offset k).getLast? = some l)
    (hr : (h.perfect (elmts.drop (2 ^ k)) (offset + (2 ^ (k + 1) - 1)) k).getLast? = some r)
    : h.perfect elmts offset (k + 1)
        =
      h.perfect elmts offset k ++ h.perfect (elmts.drop (2 ^ k)) (offset + (2 ^ (k + 1) - 1)) k
        ++ [h.node l r (offset + 2 * (2 ^ (k + 1) - 1))] := by
  have hpow : 0 < 2 ^ k := by positivity
  have hleft : (h.perfect elmts offset k).length = 2 ^ (k + 1) - 1 := h.length_perfect (by omega)
  have hright : (h.perfect (elmts.drop (2 ^ k)) (offset + (2 ^ (k + 1) - 1)) k).length
      = 2 ^ (k + 1) - 1 := h.length_perfect (by rw [List.length_drop]; omega)
  have hindex : offset + (2 ^ (k + 1) - 1) + (2 ^ (k + 1) - 1) = offset + 2 * (2 ^ (k + 1) - 1) := by
    omega
  rw [perfect, hleft, hright, hindex, parent, hl, hr]

theorem exists_peaks (hne : elmts ≠ [])
    : ∃ peak peaks, h.peaks elmts = peak :: peaks := by
  have hpeak {offset bits : Nat} (hlen : elmts.length < 2 ^ bits)
      : ∃ peak peaks, (h.mountains elmts offset bits).filterMap List.getLast? = peak :: peaks := by
    induction bits with
    | zero =>
      have hpos := List.length_pos_iff.mpr hne
      omega
    | succ bits ih =>
      rw [mountains]
      split
      . next hlong =>
        obtain ⟨top, htop⟩ := h.exists_getLast?_perfect offset hlong
        exact ⟨top, _, by rw [List.filterMap_cons, htop]⟩
      . next hshort => exact ih (by omega)
  exact hpeak Nat.lt_two_pow_self

end MountainRange
