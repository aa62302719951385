import Epic.Chain.Store

/-!
This module contains the branches of the tree of stored headers: lists of headers that start at height
0 and in which each header is the parent of the next.
-/

namespace Epic
namespace HeaderDb

structure Branch (env : Env) (db : HeaderDb) (branch : List BlockHeader) : Prop where
  stored : ∀ header ∈ branch, db.getBlockHeader (header.hash env) = some header
  linked : branch.IsChain fun prev header => header.prevHash = prev.hash env
  height : ∀ n, ∀ header : BlockHeader, branch[n]? = some header → header.height.toNat = n

namespace Branch

variable {env : Env} {db : HeaderDb} {branch : List BlockHeader}

instance decidable : Decidable (Branch env db branch) :=
  decidable_of_iff
    ((∀ header ∈ branch, db.getBlockHeader (header.hash env) = some header)
      ∧ branch.IsChain (fun prev header => header.prevHash = prev.hash env)
      ∧ ∀ n (hn : n < branch.length), branch[n].height.toNat = n)
    ⟨fun ⟨hstored, hlinked, hheight⟩ => ⟨hstored, hlinked, fun n header hheader => by
        obtain ⟨hn, rfl⟩ := List.getElem?_eq_some_iff.mp hheader
        exact hheight n hn⟩,
      fun h => ⟨h.stored, h.linked, fun n hn => h.height n _ (List.getElem?_eq_getElem hn)⟩⟩

theorem singleton (hstored : db.getBlockHeader (header.hash env) = some header)
    (hheight : header.height = 0)
    : Branch env db [header] where
  stored := by simpa using hstored
  linked := .singleton header
  height := by
    intro n other hn
    cases n with
    | zero =>
      simp only [List.getElem?_cons_zero, Option.some.injEq] at hn
      rw [← hn, hheight]
      rfl
    | succ n => simp at hn

theorem take (h : Branch env db branch) (n : Nat)
    : Branch env db (branch.take n) where
  stored header hmem := h.stored header (List.mem_of_mem_take hmem)
  linked := h.linked.take n
  height := by
    intro i header hi
    apply h.height
    rw [List.getElem?_take] at hi
    split at hi
    . exact hi
    . contradiction

theorem of_stored (h : Branch env db branch)
    (hstored : ∀ header ∈ branch, db'.getBlockHeader (header.hash env) = some header)
    : Branch env db' branch := ⟨hstored, h.linked, h.height⟩

theorem getPreviousHeader (h : Branch env db branch)
    (hheader : branch[n + 1]? = some header)
    : db.getPreviousHeader header = branch[n]? := by
  obtain ⟨hlt, rfl⟩ := List.getElem?_eq_some_iff.mp hheader
  have hlink := List.isChain_iff_getElem.mp h.linked n hlt
  unfold HeaderDb.getPreviousHeader
  rw [hlink, List.getElem?_eq_getElem (by omega)]
  exact h.stored _ (List.getElem_mem _)

theorem length_le (h : Branch env db branch)
    : branch.length ≤ db.entries.length := by
  have hnodup : (branch.map (·.hash env)).Nodup := by
    apply List.Nodup.map_on
    . intro x hx y hy heq
      have hstored := h.stored x hx
      rw [heq, h.stored y hy, Option.some.injEq] at hstored
      exact hstored.symm
    . rw [List.nodup_iff_getElem?_ne_getElem?]
      intro i j hij hj heq
      have hi := h.height i _ (List.getElem?_eq_getElem (hij.trans hj))
      rw [List.getElem?_eq_getElem (hij.trans hj), List.getElem?_eq_getElem hj, Option.some.injEq] at heq
      rw [heq, h.height j _ (List.getElem?_eq_getElem hj)] at hi
      omega
  have hsub : ∀ x ∈ branch.map (·.hash env), x ∈ db.keys := by
    intro x hx
    obtain ⟨header, hheader, rfl⟩ := List.mem_map.mp hx
    apply AList.mem_keys.mp
    rw [← AList.lookup_isSome, ← HeaderDb.getBlockHeader, h.stored header hheader]
    rfl
  have hlen := (hnodup.subperm hsub).length_le
  rw [List.length_map, AList.keys, List.keys, List.length_map] at hlen
  exact hlen

theorem take_eq_take
    (h : Branch env db branch) (h' : Branch env db branch') (hheader : branch[n]? = some header)
    (hheader' : branch'[n]? = some header)
    : branch.take (n + 1) = branch'.take (n + 1) := by
  induction n generalizing header with
  | zero =>
    rw [List.take_add_one, List.take_add_one, hheader, hheader']
    rfl
  | succ n ih =>
    have hprev := h.getPreviousHeader hheader
    have hprev' := h'.getPreviousHeader hheader'
    obtain ⟨hlt, -⟩ := List.getElem?_eq_some_iff.mp hheader
    rw [List.take_add_one, List.take_add_one (l := branch'), hheader, hheader']
    rw [List.getElem?_eq_getElem (by omega)] at hprev
    rw [ih (List.getElem?_eq_getElem (by omega)) (hprev'.symm.trans hprev)]

theorem concat (h : Branch env db branch)
    (hlast : branch.getLast? = some prev) (hlink : header.prevHash = prev.hash env)
    (hstored : db.getBlockHeader (header.hash env) = some header)
    (hheight : header.height.toNat = branch.length)
    : Branch env db (branch ++ [header]) where
  stored := by
    intro other hother
    rcases List.mem_append.mp hother with hmem | hmem
    . exact h.stored other hmem
    . rw [List.mem_singleton.mp hmem]
      exact hstored
  linked := by
    rw [List.isChain_append]
    refine ⟨h.linked, .singleton header, ?_⟩
    intro x hx y hy
    rw [hlast] at hx
    cases hx
    cases hy
    exact hlink
  height := by
    intro n other hn
    rcases Nat.lt_trichotomy n branch.length with hlt | heq | hgt
    . rw [List.getElem?_append_left hlt] at hn
      exact h.height n other hn
    . rw [heq, List.getElem?_concat_length] at hn
      injection hn with hn
      rw [← hn, heq]
      exact hheight
    . rw [List.getElem?_eq_none (by simp; omega)] at hn
      contradiction

theorem height_getLast (h : Branch env db branch)
    (hlast : branch.getLast? = some last)
    : last.height.toNat + 1 = branch.length := by
  rw [List.getLast?_eq_getElem?] at hlast
  have hheight := h.height _ _ hlast
  obtain ⟨hlt, -⟩ := List.getElem?_eq_some_iff.mp hlast
  omega

def Child (db : HeaderDb) (header : BlockHeader) : Prop :=
  ∃ prev, db.getPreviousHeader header = some prev ∧ header.height.toNat = prev.height.toNat + 1

theorem append (h : Branch env db branch)
    (hlast : branch.getLast? = some prev)
    (hlinked : (prev :: headers).IsChain fun prev header => header.prevHash = prev.hash env)
    (hstored : ∀ header ∈ headers, db.getBlockHeader (header.hash env) = some header)
    (hchild : ∀ header ∈ headers, Child db header)
    : Branch env db (branch ++ headers) := by
  induction headers generalizing branch prev with
  | nil =>
    rw [List.append_nil]
    exact h
  | cons header headers ih =>
    obtain ⟨hlink, hlinked⟩ := List.isChain_cons_cons.mp hlinked
    obtain ⟨hheader, hstored⟩ := List.forall_mem_cons.mp hstored
    obtain ⟨⟨parent, hparent, hheight⟩, hchild⟩ := List.forall_mem_cons.mp hchild
    have hprev : db.getPreviousHeader header = some prev := by
      unfold HeaderDb.getPreviousHeader
      rw [hlink]
      exact h.stored prev (List.mem_of_getLast? hlast)
    rw [hprev, Option.some.injEq] at hparent
    rw [← hparent, h.height_getLast hlast] at hheight
    have hconcat := ih (h.concat hlast hlink hheader hheight) List.getLast?_concat hlinked hstored
      hchild
    simpa using hconcat

end Branch
end HeaderDb
end Epic
