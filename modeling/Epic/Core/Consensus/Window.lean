import Epic.Core.Consensus.GraphWeight
import Epic.Core.Consensus.Scaling

/-!
This module contains the shape of the window of blocks that a difficulty is computed from: as many blocks
as were asked for and one more, the latest at the end, with timestamps that do not go back.
-/

namespace Epic

open MachineInt

variable {ε : Type}

namespace Global

open Consensus

structure Elapsed (ε : Type) (checks : Bool) (diffData : List HeaderInfo) (last : Nat) : Prop where
  exists_sub : ∃ newest oldest tsDelta,
    diffData[last]? = some newest
      ∧ diffData[0]? = some oldest
      ∧ (sub checks newest.timestamp oldest.timestamp : Outcome ε UInt64) = .ok tsDelta
      ∧ tsDelta.toNat + oldest.timestamp.toNat = newest.timestamp.toNat

def NotLater (a b : HeaderInfo) : Prop := b.timestamp ≤ a.timestamp

theorem NotLater.trans (hab : NotLater a b) (hbc : NotLater b c)
    : NotLater a c := UInt64.le_trans hbc hab

theorem saturatingSub_le (a b : UInt64)
    : saturatingSub a b ≤ a := by
  rw [UInt64.le_iff_toNat_le, toNat_saturatingSub]
  exact Nat.sub_le _ _

theorem initialGraphWeight_ok (env : Env)
    : ∃ weight, (initialGraphWeight env : Outcome ε UInt32) = .ok weight := by
  have hlive : env.chainType = .floonet ∨ env.chainType = .mainnet →
      expiryOf env.chainType (0 : UInt64).toNat secondPowEdgeBits.toNat < 2 ^ 64 := by
    rintro (hct | hct) <;> (rw [hct]; decide)
  unfold initialGraphWeight
  split
  . exact ⟨1, rfl⟩
  . exact ⟨1, rfl⟩
  . next hct =>
    rw [graphWeight_eq_ok _ (hlive (.inl hct))]
    exact ⟨_, rfl⟩
  . next hct =>
    rw [graphWeight_eq_ok _ (hlive (.inr hct))]
    exact ⟨_, rfl⟩

theorem head?_alignTimestamps (l : List HeaderInfo)
    : (alignTimestamps l).head? = l.head? := by
  cases l <;> rfl

theorem isChain_alignTimestamps_go (prev : HeaderInfo) (l : List HeaderInfo)
    : (prev :: alignTimestamps.go prev l).IsChain NotLater := by
  induction l generalizing prev with
  | nil => exact .singleton _
  | cons info l ih => exact .cons_cons (saturatingSub_le _ _) (ih _)

theorem isChain_alignTimestamps (l : List HeaderInfo)
    : (alignTimestamps l).IsChain NotLater := by
  cases l with
  | nil => exact .nil
  | cons first l => exact isChain_alignTimestamps_go first l

theorem simulatedBlocks_ok (env : Env) (lastTsDelta : UInt64) (lastDiff : Difficulty) (count : Nat)
    (last : HeaderInfo)
    : ∃ simulated,
        (simulatedBlocks env lastTsDelta lastDiff count last.timestamp : Outcome ε _) = .ok simulated
          ∧ simulated.length = count
          ∧ (last :: simulated).IsChain NotLater := by
  obtain ⟨weight, hweight⟩ := initialGraphWeight_ok (ε := ε) env
  induction count generalizing last with
  | zero => exact ⟨[], rfl, rfl, .singleton _⟩
  | succ count ih =>
    let info : HeaderInfo := ⟨saturatingSub last.timestamp lastTsDelta, lastDiff, weight, true, 0⟩
    obtain ⟨simulated, hok, hlen, hchain⟩ := ih info
    refine ⟨info :: simulated, ?_, by rw [List.length_cons, hlen], .cons_cons (saturatingSub_le _ _) hchain⟩
    have hinfo : (HeaderInfo.fromTsDiff env info.timestamp lastDiff : Outcome ε _) = .ok info := by
      rw [HeaderInfo.fromTsDiff, hweight]
      rfl
    have hrest : (simulatedBlocks env lastTsDelta lastDiff count
        (saturatingSub last.timestamp lastTsDelta) : Outcome ε _) = .ok simulated := hok
    simp only [simulatedBlocks]
    rw [show (HeaderInfo.fromTsDiff env (saturatingSub last.timestamp lastTsDelta) lastDiff
      : Outcome ε _) = .ok info from hinfo, Outcome.ok_bind, hrest]
    rfl

theorem lastTsDelta_ok (checks : Bool)
    (h : (first :: l).IsChain NotLater)
    : ∃ delta, (lastTsDelta checks first l.head? : Outcome ε UInt64) = .ok delta := by
  cases l with
  | nil => exact ⟨_, rfl⟩
  | cons second l =>
    have hle : NotLater first second := (List.isChain_cons_cons.mp h).1
    exact ⟨_, sub_eq_ok (UInt64.le_iff_toNat_le.mp hle)⟩

theorem difficultyDataToVector_ok (env : Env) (hcursor : cursor ≠ []) (hn : n.toNat + 1 < 2 ^ 64)
    : ∃ simulated,
        (difficultyDataToVector env (fun k => .ok (cursor.take k)) n : Outcome ε _)
            = .ok (alignTimestamps (cursor.take (n.toNat + 1)) ++ simulated).reverse
          ∧ (alignTimestamps (cursor.take (n.toNat + 1)) ++ simulated).length = n.toNat + 1
          ∧ (alignTimestamps (cursor.take (n.toNat + 1)) ++ simulated).IsChain NotLater := by
  have hchain := isChain_alignTimestamps (cursor.take (n.toNat + 1))
  have hlen := length_alignTimestamps (cursor.take (n.toNat + 1))
  rw [List.length_take] at hlen
  rw [difficultyDataToVector_eq hn, Outcome.ok_bind]
  unfold padToVector
  dsimp only
  have hne : alignTimestamps (cursor.take (n.toNat + 1)) ≠ [] := by
    rw [← List.length_pos_iff, hlen]
    have := List.length_pos_iff.mpr hcursor
    omega
  generalize alignTimestamps (cursor.take (n.toNat + 1)) = lastN at *
  split
  . next hlt =>
    obtain ⟨first, rest, rfl⟩ := List.exists_cons_of_ne_nil hne
    obtain ⟨delta, hdelta⟩ := lastTsDelta_ok (ε := ε) env.overflowChecks hchain
    obtain ⟨simulated, hok, hcount, hsimulated⟩ := simulatedBlocks_ok (ε := ε) env delta first.difficulty
      (n.toNat + 1 - (first :: rest).length) ((first :: rest).getLast hne)
    refine ⟨simulated, ?_, by rw [List.length_append, hcount]; omega, ?_⟩
    . simp only [Outcome.bind_eq_ok, Outcome.unwrap_eq_ok, Outcome.pure_eq_ok]
      refine ⟨first, rfl, delta, ?_, _, List.getLast?_eq_some_getLast hne, simulated, hok, rfl⟩
      rwa [List.getElem?_cons_succ, ← List.head?_eq_getElem?]
    . rw [List.isChain_append]
      refine ⟨hchain, (List.isChain_cons.mp hsimulated).2, ?_⟩
      intro last hlast next hnext
      obtain rfl : _ = last := Option.some.inj ((List.getLast?_eq_some_getLast hne).symm.trans hlast)
      exact (List.isChain_cons.mp hsimulated).1 next hnext
  . next hge =>
    refine ⟨[], by rw [List.append_nil]; rfl, by rw [List.append_nil]; omega, ?_⟩
    rwa [List.append_nil]

variable {diffData : List HeaderInfo}

theorem Elapsed.of_pairwise (checks : Bool)
    (h : diffData.Pairwise fun a b => a.timestamp ≤ b.timestamp) (hpos : 0 < last)
    (hlast : last < diffData.length)
    : Elapsed ε checks diffData last := by
  have hle : diffData[0].timestamp ≤ diffData[last].timestamp := List.pairwise_iff_getElem.mp h 0 last _ _ hpos
  rw [UInt64.le_iff_toNat_le] at hle
  refine ⟨diffData[last], diffData[0], _, List.getElem?_eq_getElem hlast,
    List.getElem?_eq_getElem (by omega), sub_eq_ok hle, ?_⟩
  rw [UInt64.toNat_sub_of_le _ _ (UInt64.le_iff_toNat_le.mpr hle)]
  omega

theorem difficulty_window_shape (env : Env) (cursor : List HeaderInfo) (hcursor : cursor ≠ []) (n : UInt64)
    (hn : 1 ≤ n) (hmax : n < 18446744073709551615)
    : ∃ diffData,
        (difficultyDataToVector env (fun k => .ok (cursor.take k)) n : Outcome ε _) = .ok diffData
          ∧ diffData.length = n.toNat + 1
          ∧ diffData.Pairwise (fun a b => a.timestamp ≤ b.timestamp)
          ∧ diffData.getLast? = cursor.head?
          ∧ (difficultyAdjustWindow ≤ n →
              ∀ checks, Elapsed ε checks diffData difficultyAdjustWindow.toNat)
          ∧ ∀ checks, Elapsed ε checks diffData 1 := by
  have hlast : (18446744073709551615 : UInt64).toNat = 18446744073709551615 := rfl
  rw [UInt64.lt_iff_toNat_lt, hlast] at hmax
  obtain ⟨simulated, hok, hlen, hchain⟩ := difficultyDataToVector_ok (ε := ε) env hcursor (n := n) (by omega)
  have hpairwise : (alignTimestamps (cursor.take (n.toNat + 1)) ++ simulated).reverse.Pairwise
      fun a b => a.timestamp ≤ b.timestamp := by
    have htrans : IsTrans HeaderInfo NotLater := ⟨fun _ _ _ => NotLater.trans⟩
    exact List.pairwise_reverse.mpr (List.isChain_iff_pairwise.mp hchain)
  rw [UInt64.le_iff_toNat_le] at hn
  refine ⟨_, hok, by rw [List.length_reverse, hlen], hpairwise, ?_, ?_, ?_⟩
  . obtain ⟨first, rest, rfl⟩ := List.exists_cons_of_ne_nil hcursor
    rw [List.getLast?_reverse, List.head?_append, head?_alignTimestamps, List.take_succ_cons]
    rfl
  . intro hwindow checks
    rw [UInt64.le_iff_toNat_le] at hwindow
    exact .of_pairwise checks hpairwise (by decide) (by rw [List.length_reverse, hlen]; omega)
  . intro checks
    have hone : (1 : UInt64).toNat = 1 := rfl
    exact .of_pairwise checks hpairwise Nat.one_pos (by rw [List.length_reverse, hlen]; omega)

namespace Sample

def only : HeaderInfo := ⟨1000000, ⟨DifficultyNumber.number 10000⟩, 13, false, 60⟩

end Sample

theorem difficulty_window_shape_padded
    : ∃ diffData,
        (difficultyDataToVector (Transparent.env .mainnet) (fun k => .ok ([Sample.only].take k))
            difficultyAdjustWindow : Outcome String _) = .ok diffData
          ∧ diffData.length = 61
          ∧ Elapsed String true diffData 60 := by
  obtain ⟨diffData, hok, hlen, -, -, hcuckoo, -⟩ := difficulty_window_shape (ε := String)
    (Transparent.env .mainnet) [Sample.only] (List.cons_ne_nil _ _) difficultyAdjustWindow (by decide) (by decide)
  exact ⟨diffData, hok, hlen, hcuckoo (by decide) true⟩

theorem difficulty_window_overflows
    : (difficultyDataToVector { Transparent.env .mainnet with overflowChecks := false }
          (fun k => .ok ([Sample.only].take k)) 18446744073709551615 : Outcome String _) = .ok []
        ∧ (difficultyDataToVector { Transparent.env .mainnet with overflowChecks := true }
            (fun k => .ok ([Sample.only].take k)) 18446744073709551615 : Outcome String _) = .panic := by
  decide

end Global
end Epic
