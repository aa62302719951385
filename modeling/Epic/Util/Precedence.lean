import Mathlib.Data.List.Basic
import Mathlib.Tactic.Common

/-!
This module contains lists whose elements stand after what they need. The part of what they need that is
not in the list is given from outside.
-/

namespace Epic

section

variable {α β : Type} (needs : α → α → Prop)

def Follows (given : α → Prop) (l : List α) : Prop :=
  ∀ pre a post, l = pre ++ a :: post → ∀ b, needs a b → b ∈ pre ∨ given b

variable {needs} {given given' : α → Prop} {a : α} {l k : List α}

namespace Follows

theorem mono (h : Follows needs given l) (hgiven : ∀ b, given b → given' b)
    : Follows needs given' l :=
  fun pre a post hl b hb => (h pre a post hl b hb).imp_right (hgiven b)

theorem nil
    : Follows needs given [] := by
  intro pre a post hl
  simp at hl

theorem cons_iff
    : Follows needs given (a :: l)
        ↔
      (∀ b, needs a b → given b) ∧ Follows needs (fun b => given b ∨ b = a) l := by
  constructor
  . intro h
    constructor
    . intro b hb
      simpa using h [] a l rfl b hb
    . intro pre c post hl b hb
      have := h (a :: pre) c post (by rw [hl, List.cons_append]) b hb
      rw [List.mem_cons] at this
      tauto
  . rintro ⟨hfirst, hrest⟩ pre c post hl b hb
    cases pre with
    | nil =>
      obtain ⟨rfl, rfl⟩ := List.cons.inj hl
      exact .inr (hfirst b hb)
    | cons d pre =>
      obtain ⟨rfl, htail⟩ := List.cons.inj hl
      rw [List.mem_cons]
      have := hrest pre c post htail b hb
      tauto

theorem append_iff
    : Follows needs given (l ++ k)
        ↔
      Follows needs given l ∧ Follows needs (fun b => given b ∨ b ∈ l) k := by
  induction l generalizing given with
  | nil => simp [nil]
  | cons a l ih =>
    have hgiven : (fun b => (given b ∨ b = a) ∨ b ∈ l) = fun b => given b ∨ b ∈ a :: l := by
      funext b
      rw [List.mem_cons, or_assoc]
    rw [List.cons_append, cons_iff, cons_iff, ih, and_assoc, hgiven]

theorem concat (h : Follows needs given l) (ha : ∀ b, needs a b → given b ∨ b ∈ l)
    : Follows needs given (l ++ [a]) := append_iff.mpr ⟨h, cons_iff.mpr ⟨ha, nil⟩⟩

theorem flatMap {groups : List β} (hr : groups.Pairwise r)
    (hrefl : ∀ g, r g g)
    (h : ∀ g ∈ groups, Follows needs (fun b => given b ∨ ∃ g' ∈ groups, b ∈ f g' ∧ ¬ r g g') (f g))
    : Follows needs given (groups.flatMap f) := by
  induction groups generalizing given with
  | nil => exact nil
  | cons g groups ih =>
    obtain ⟨hfirst, hrest⟩ := List.pairwise_cons.mp hr
    rw [List.flatMap_cons, append_iff]
    constructor
    . apply (h g List.mem_cons_self).mono
      rintro b (hb | ⟨g', hg', -, hnot⟩)
      . exact hb
      . rcases List.mem_cons.mp hg' with rfl | hg'
        . exact absurd (hrefl g') hnot
        . exact absurd (hfirst g' hg') hnot
    . apply ih hrest
      intro g' hg'
      apply (h g' (List.mem_cons_of_mem g hg')).mono
      rintro b (hb | ⟨g'', hg'', hb, hnot⟩)
      . exact .inl (.inl hb)
      . rcases List.mem_cons.mp hg'' with rfl | hg''
        . exact .inl (.inr hb)
        . exact .inr ⟨g'', hg'', hb, hnot⟩

end Follows

end

end Epic
