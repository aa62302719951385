import Epic.Core.Pmmr

/-!
This module contains how the elements of a Merkle mountain range are read page by page, from an insertion
index on. The index that is returned with a page is that of its last element.
-/

namespace Epic
namespace PMMR

open Pmmr

variable {ε E : Type}

-- a position is at least its insertion index, so the loop ends before the index passes the last position
def elementsFrom (p : PMMR E) (maxCount fuel index returnIndex : Nat) (returnVec : List E)
    : Outcome ε (Nat × List E) :=
  match fuel with
  | 0 => .hang
  | fuel + 1 =>
    let pmmrIndex := insertionToPmmrIndex index
    if returnVec.length < maxCount ∧ pmmrIndex ≤ p.lastPos then
      match p.getData pmmrIndex with
      | some t => elementsFrom p maxCount fuel (index + 1) index (returnVec ++ [t])
      | none => elementsFrom p maxCount fuel (index + 1) returnIndex returnVec
    else
      .ok (returnIndex, returnVec)

def elementsFromInsertionIndex (p : PMMR E) (index maxCount : Nat) : Outcome ε (Nat × List E) :=
  let index := if index = 0 then 1 else index
  elementsFrom p maxCount (p.lastPos + 1) index index []

-- the caller asks for the next page until a page is empty
def pages (p : PMMR E) (maxCount fuel index : Nat) : Outcome ε (List (List E)) :=
  match fuel with
  | 0 => .hang
  | fuel + 1 => do
    let (returned, page) ← elementsFromInsertionIndex p index maxCount
    if page.isEmpty then
      return []
    else
      let rest ← pages p maxCount fuel (returned + 1)
      return page :: rest

/-!
The unspent leaves from an insertion index on, with their insertion indices.
-/

def unspentFrom (p : PMMR E) (index : Nat) : List (Nat × E) :=
  (List.range' index (p.lastPos + 1 - index)).filterMap fun i =>
    (p.getData (insertionToPmmrIndex i)).map fun t => (i, t)

def unspentLeaves (p : PMMR E) : List E :=
  (List.range p.lastPos).filterMap fun n => p.getData (leafPos n)

section

variable {p : PMMR E} {index maxCount : Nat}

theorem le_insertionToPmmrIndex (index : Nat)
    : index ≤ insertionToPmmrIndex index := by
  cases index with
  | zero => exact Nat.zero_le _
  | succ n =>
    rw [insertionToPmmrIndex_succ]
    exact Nat.succ_le_succ (le_mmrSize n)

theorem getData_of_lt (h : p.lastPos < pos)
    : p.getData pos = none := if_pos h

theorem unspentFrom_of_le (h : index ≤ p.lastPos)
    : unspentFrom p index
        =
      ((p.getData (insertionToPmmrIndex index)).map fun t => (index, t)).toList
        ++ unspentFrom p (index + 1) := by
  have hlength : p.lastPos + 1 - index = p.lastPos + 1 - (index + 1) + 1 := by omega
  unfold unspentFrom
  rw [hlength, List.range'_succ, List.filterMap_cons]
  cases p.getData (insertionToPmmrIndex index) <;> rfl

theorem unspentFrom_of_lt (h : p.lastPos < insertionToPmmrIndex index)
    : unspentFrom p index = [] := by
  rw [unspentFrom, List.filterMap_eq_nil_iff]
  intro i hi
  obtain ⟨hle, -⟩ := List.mem_range'_1.mp hi
  have hmono : insertionToPmmrIndex index ≤ insertionToPmmrIndex i := by
    cases index with
    | zero => exact Nat.zero_le _
    | succ m =>
      obtain ⟨n, rfl⟩ : ∃ n, i = n + 1 := ⟨i - 1, by omega⟩
      rw [insertionToPmmrIndex_succ, insertionToPmmrIndex_succ]
      exact Nat.succ_le_succ (mmrSize_le_mmrSize (by omega))
  rw [getData_of_lt (by omega)]
  rfl

theorem unspentFrom_eq_append
    (h : unspentFrom p index = done ++ (i, t) :: rest)
    : unspentFrom p (i + 1) = rest := by
  induction hn : p.lastPos + 1 - index generalizing index done with
  | zero =>
    have hlt : p.lastPos < insertionToPmmrIndex index := by
      have := le_insertionToPmmrIndex index
      omega
    rw [unspentFrom_of_lt hlt] at h
    simp at h
  | succ n ih =>
    rw [unspentFrom_of_le (by omega)] at h
    cases hdata : p.getData (insertionToPmmrIndex index) with
    | none =>
      rw [hdata] at h
      exact ih h (by omega)
    | some u =>
      rw [hdata] at h
      cases done with
      | nil =>
        obtain ⟨hhead, htail⟩ := List.cons.inj h
        obtain ⟨rfl, -⟩ := Prod.mk.inj hhead
        exact htail
      | cons d done => exact ih (List.cons.inj h).2 (by omega)

theorem unspentFrom_one (p : PMMR E)
    : (unspentFrom p 1).map (·.2) = unspentLeaves p := by
  unfold unspentFrom unspentLeaves
  rw [List.map_filterMap, Nat.add_sub_cancel, List.range'_eq_map_range, List.filterMap_map]
  congr 1
  funext n
  rw [Function.comp_apply, Nat.add_comm, insertionToPmmrIndex_succ, Option.map_map]
  cases p.getData (leafPos n) <;> rfl

theorem elementsFrom_eq_ok {fuel returnIndex : Nat} (returnVec : List E)
    (hfuel : p.lastPos + 1 < fuel + index) (hpos : 0 < fuel)
    : (elementsFrom p maxCount fuel index returnIndex returnVec : Outcome ε _)
        =
      .ok ((((unspentFrom p index).take (maxCount - returnVec.length)).getLast?.map (·.1)).getD returnIndex,
        returnVec ++ ((unspentFrom p index).take (maxCount - returnVec.length)).map (·.2)) := by
  induction fuel generalizing index returnIndex returnVec with
  | zero => omega
  | succ fuel ih =>
    unfold elementsFrom
    dsimp only
    split
    . next hmore =>
      have hle : index ≤ p.lastPos := (le_insertionToPmmrIndex index).trans hmore.2
      rw [unspentFrom_of_le hle]
      cases hdata : p.getData (insertionToPmmrIndex index) with
      | none => exact ih returnVec (by omega) (by omega)
      | some t =>
        dsimp only
        rw [ih (returnVec ++ [t]) (by omega) (by omega), List.length_append, List.length_singleton]
        have htake : maxCount - returnVec.length = maxCount - (returnVec.length + 1) + 1 := by omega
        rw [htake]
        simp only [Option.map_some, Option.toList_some, List.singleton_append, List.take_succ_cons,
          List.map_cons, List.append_assoc, List.getLast?_cons]
        cases ((unspentFrom p (index + 1)).take (maxCount - (returnVec.length + 1))).getLast? <;> rfl
    . next hdone =>
      have hnil : (unspentFrom p index).take (maxCount - returnVec.length) = [] := by
        rw [not_and_or] at hdone
        rcases hdone with hfull | hend
        . rw [Nat.sub_eq_zero_of_le (Nat.le_of_not_lt hfull), List.take_zero]
        . rw [unspentFrom_of_lt (Nat.lt_of_not_le hend), List.take_nil]
      rw [hnil]
      simp

theorem elementsFromInsertionIndex_eq_ok (hindex : 0 < index)
    : (elementsFromInsertionIndex p index maxCount : Outcome ε _)
        =
      .ok ((((unspentFrom p index).take maxCount).getLast?.map (·.1)).getD index,
        ((unspentFrom p index).take maxCount).map (·.2)) := by
  unfold elementsFromInsertionIndex
  dsimp only
  rw [if_neg hindex.ne', elementsFrom_eq_ok [] (by omega) (by omega)]
  rfl

theorem pages_eq_ok (hmax : 1 ≤ maxCount) (hindex : 0 < index) {fuel : Nat}
    (hfuel : (unspentFrom p index).length < fuel)
    : ∃ ps, (pages p maxCount fuel index : Outcome ε _) = .ok ps
        ∧ ps.flatten = (unspentFrom p index).map (·.2)
        ∧ ∀ page ∈ ps, page ≠ [] ∧ page.length ≤ maxCount := by
  induction fuel generalizing index with
  | zero => omega
  | succ fuel ih =>
    unfold pages
    rw [elementsFromInsertionIndex_eq_ok hindex, Outcome.ok_bind]
    dsimp only
    split
    . next hempty =>
      have hnil : unspentFrom p index = [] := by
        rw [List.isEmpty_iff, List.map_eq_nil_iff, List.take_eq_nil_iff] at hempty
        exact hempty.resolve_left (by omega)
      exact ⟨[], rfl, by rw [hnil]; rfl, List.forall_mem_nil _⟩
    . next hnonempty =>
      rw [List.isEmpty_iff, List.map_eq_nil_iff] at hnonempty
      obtain ⟨⟨i, t⟩, hlast⟩ := Option.ne_none_iff_exists'.mp (mt List.getLast?_eq_none_iff.mp hnonempty)
      obtain ⟨done, hdone⟩ := List.getLast?_eq_some_iff.mp hlast
      have hsplit : unspentFrom p index = done ++ (i, t) :: (unspentFrom p index).drop maxCount := by
        conv_lhs => rw [← List.take_append_drop maxCount (unspentFrom p index), hdone]
        rw [List.append_assoc, List.singleton_append]
      have hnext := unspentFrom_eq_append hsplit
      have hpos : 0 < (unspentFrom p index).length :=
        List.length_pos_iff.mpr fun hnil => hnonempty (by rw [hnil, List.take_nil])
      have hless : (unspentFrom p (i + 1)).length < fuel := by
        rw [hnext, List.length_drop]
        omega
      obtain ⟨ps, hps, hflatten, hpage⟩ := ih (Nat.succ_pos i) hless
      rw [hlast, Option.map_some, Option.getD_some, hps]
      refine ⟨((unspentFrom p index).take maxCount).map (·.2) :: ps, rfl, ?_, ?_⟩
      . rw [List.flatten_cons, hflatten, hnext, ← List.map_append, List.take_append_drop]
      . rw [List.forall_mem_cons, List.length_map, List.length_take]
        exact ⟨⟨by simpa using hnonempty, Nat.min_le_left _ _⟩, hpage⟩

end

theorem pages_complete (p : PMMR E) {maxCount fuel : Nat} (hmax : 1 ≤ maxCount) (hfuel : p.lastPos < fuel)
    : ∃ ps, (pages p maxCount fuel 1 : Outcome ε _) = .ok ps
        ∧ ps.flatten = unspentLeaves p
        ∧ ∀ page ∈ ps, page ≠ [] ∧ page.length ≤ maxCount := by
  have hlength : (unspentFrom p 1).length < fuel := by
    refine (List.length_filterMap_le _ _).trans_lt ?_
    rwa [List.length_range', Nat.add_sub_cancel]
  rw [← unspentFrom_one]
  exact pages_eq_ok hmax (by decide) hlength

namespace Sample

-- five leaves at 1, 2, 4, 5 and 8, of which the second and the last are unspent
def pruned : PMMR Nat where
  backend := ⟨true, .empty, ⟨[10, 11, 12, 13, 14], [], 5, 0⟩, ⟨{2, 8}, {2, 8}⟩, .new⟩
  lastPos := 8

end Sample

theorem pages_complete_pruned
    : ∃ ps, (pages Sample.pruned 1 9 1 : Outcome Unit _) = .ok ps ∧ ps.flatten = [11, 14] := by
  have hfuel : Sample.pruned.lastPos < 9 := by decide
  obtain ⟨ps, hps, hflatten, -⟩ := pages_complete (ε := Unit) Sample.pruned (Nat.le_refl 1) hfuel
  exact ⟨ps, hps, hflatten.trans (by decide)⟩

end PMMR
end Epic
