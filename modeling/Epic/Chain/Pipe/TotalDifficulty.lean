import Epic.Chain.Pipe
import Epic.Chain.Pipe.Schedule

/-!
This module contains the growth of the total difficulty along a chain of accepted headers.
-/

namespace Epic

open MachineInt

namespace Difficulty

variable {ε : Type}

theorem get_foldlM_sub {checks : Bool} {other m acc r : DifficultyNumber} {l : List PoWType}
    (hl : l.Nodup)
    (h : (l.filterMap fun a => (m.get a).map fun v => (a, v)).foldlM
        (fun (acc : DifficultyNumber) (x : PoWType × UInt64) => do
          let v ← MachineInt.sub checks x.2 ((other.get x.1).getD 0)
          return acc.insert x.1 v) acc
      = (.ok r : Outcome ε DifficultyNumber))
    (a : PoWType)
    : r.get a
        =
      if a ∈ l ∧ (m.get a).isSome then
        some ((m.get a).getD 0 - (other.get a).getD 0)
      else
        acc.get a := by
  induction l generalizing acc with
  | nil =>
    injection h with h
    simp [h]
  | cons b l ih =>
    obtain ⟨hb, hl⟩ := List.nodup_cons.mp hl
    cases hm : m.get b with
    | none =>
      rw [List.filterMap_cons_none (by simp [hm])] at h
      rw [ih hl h]
      by_cases hab : a = b
      . subst hab
        simp [hm, hb]
      . simp [hab]
    | some v =>
      rw [List.filterMap_cons_some (b := (b, v)) (by simp [hm]), List.foldlM_cons,
        Outcome.bind_eq_ok] at h
      obtain ⟨acc', hacc', h⟩ := h
      obtain ⟨w, hw, hacc'⟩ := Outcome.bind_eq_ok.mp hacc'
      rw [Outcome.pure_eq_ok, Outcome.ok.injEq] at hacc'
      rw [ih hl h, ← hacc', PoWMap.get_insert, eq_sub_of_sub hw]
      by_cases hab : a = b
      . subst hab
        simp [hm, hb]
      . simp [hab]

theorem get_sub {checks : Bool} {d other r : Difficulty}
    (h : (d.sub checks other : Outcome ε Difficulty) = .ok r) (a : PoWType)
    : r.num.get a
        =
      some (if (d.num.get a).isSome then d.toNum a - other.toNum a else 0) := by
  obtain ⟨num, hnum, hr⟩ := Outcome.bind_eq_ok.mp h
  rw [Outcome.pure_eq_ok, Outcome.ok.injEq] at hr
  rw [← hr, get_foldlM_sub PoWType.nodup_all hnum a, DifficultyNumber.get_number]
  simp only [PoWType.mem_all, true_and]
  split <;> rfl

def Complete (d : Difficulty) : Prop := ∀ a, (d.num.get a).isSome

theorem Complete.sub_of_add {ε' : Type} {checks : Bool} {d other s : Difficulty} (hd : d.Complete)
    (h : (d.add checks other : Outcome ε Difficulty) = .ok s)
    : (s.sub checks other : Outcome ε' Difficulty) = .ok d := by
  obtain ⟨⟨cuckaroo, cuckatoo, randomX, progPow⟩⟩ := d
  obtain ⟨v₁, hv₁⟩ := Option.isSome_iff_exists.mp (hd .cuckaroo)
  obtain ⟨v₂, hv₂⟩ := Option.isSome_iff_exists.mp (hd .cuckatoo)
  obtain ⟨v₃, hv₃⟩ := Option.isSome_iff_exists.mp (hd .randomX)
  obtain ⟨v₄, hv₄⟩ := Option.isSome_iff_exists.mp (hd .progPow)
  obtain rfl : cuckaroo = some v₁ := hv₁
  obtain rfl : cuckatoo = some v₂ := hv₂
  obtain rfl : randomX = some v₃ := hv₃
  obtain rfl : progPow = some v₄ := hv₄
  simp only [add, PoWMap.entries, PoWType.all, PoWMap.get, List.filterMap_cons, List.filterMap_nil,
    Option.map_some, List.foldlM_cons, List.foldlM_nil, Outcome.bind_eq_ok, Outcome.pure_eq_ok,
    Outcome.ok.injEq] at h
  obtain ⟨num, ⟨_, ⟨w₁, h₁, rfl⟩, _, ⟨w₂, h₂, rfl⟩, _, ⟨w₃, h₃, rfl⟩, _, ⟨w₄, h₄, rfl⟩, rfl⟩, rfl⟩ := h
  simp only [sub, DifficultyNumber.number, PoWMap.insert, PoWMap.entries, PoWType.all, PoWMap.get,
    List.filterMap_cons, List.filterMap_nil, Option.map_some, List.foldlM_cons, List.foldlM_nil,
    MachineInt.sub_of_add h₁, MachineInt.sub_of_add h₂, MachineInt.sub_of_add h₃,
    MachineInt.sub_of_add h₄, Outcome.ok_bind, Outcome.pure_eq_ok]

theorem sum_entries (m : DifficultyNumber) (l : List PoWType)
    : (((l.filterMap fun a => (m.get a).map fun v => (a, v)).map (·.2)).map UInt64.toNat).sum
        =
      (l.map fun a => ((m.get a).getD 0).toNat).sum := by
  induction l with
  | nil => rfl
  | cons a l ih =>
    rw [List.map_cons, List.sum_cons, ← ih]
    cases hm : m.get a with
    | none => simp [hm]
    | some v => simp [hm]

theorem total_eq (d : Difficulty)
    : d.total = (PoWType.all.map fun a => (d.toNum a).toNat).sum := sum_entries d.num PoWType.all

theorem total_lt_total {d d' : Difficulty} (h : ∀ a, (d.toNum a).toNat < (d'.toNum a).toNat)
    : d.total < d'.total := by
  have hcuckaroo := h .cuckaroo
  have hcuckatoo := h .cuckatoo
  have hrandomX := h .randomX
  have hprogPow := h .progPow
  simp only [total_eq, PoWType.all, List.map_cons, List.map_nil, List.sum_cons, List.sum_nil]
  omega

end Difficulty

/-!
The difficulty of the next block is that of the last one, with another entry for the algorithm of the
last one. No entry gets below 1.
-/

namespace Consensus

variable {ε : Type} {env : Env}

theorem head?_alignTimestamps (lastN : List HeaderInfo)
    : (Global.alignTimestamps lastN).head? = lastN.head? := by
  cases lastN <;> rfl

theorem getLast?_difficultyDataToVector {cursor : Nat → Outcome ε (List HeaderInfo)}
    {needed : UInt64} {data : List HeaderInfo}
    (h : Global.difficultyDataToVector env cursor needed = .ok data)
    : ∃ count taken, cursor count = .ok taken ∧ data.getLast? = taken.head? := by
  obtain ⟨count, -, h⟩ := Outcome.bind_eq_ok.mp h
  obtain ⟨taken, htaken, h⟩ := Outcome.bind_eq_ok.mp h
  refine ⟨_, taken, htaken, ?_⟩
  rw [← head?_alignTimestamps taken]
  unfold Global.padToVector at h
  dsimp only at h
  split at h
  . obtain ⟨first, hfirst, h⟩ := Outcome.bind_eq_ok.mp h
    obtain ⟨delta, -, h⟩ := Outcome.bind_eq_ok.mp h
    obtain ⟨last, -, h⟩ := Outcome.bind_eq_ok.mp h
    obtain ⟨simulated, -, h⟩ := Outcome.bind_eq_ok.mp h
    rw [Outcome.unwrap_eq_ok] at hfirst
    rw [Outcome.pure_eq_ok, Outcome.ok.injEq] at h
    rw [← h, List.getLast?_reverse, List.head?_append, hfirst]
    rfl
  . rw [Outcome.pure_eq_ok, Outcome.ok.injEq] at h
    rw [← h, List.getLast?_reverse]

theorem minDifficulty_le_retarget {checks : Bool} {dampFactor clampFactor minDifficulty : UInt64}
    {pow : PoWType} {tsDelta v : UInt64} {diffData : List HeaderInfo}
    (h : (retarget checks dampFactor clampFactor minDifficulty pow tsDelta diffData
      : Outcome ε UInt64) = .ok v)
    : minDifficulty.toNat ≤ v.toNat := by
  obtain ⟨diffSum, -, h⟩ := Outcome.bind_eq_ok.mp h
  obtain ⟨damped, -, h⟩ := Outcome.bind_eq_ok.mp h
  obtain ⟨adjTs, -, h⟩ := Outcome.bind_eq_ok.mp h
  obtain ⟨work, -, h⟩ := Outcome.bind_eq_ok.mp h
  obtain ⟨scaled, -, h⟩ := Outcome.bind_eq_ok.mp h
  rw [Outcome.pure_eq_ok, Outcome.ok.injEq] at h
  rw [← h]
  exact toNat_le_max_left _ _

theorem nextHashDifficulty_pos {checks : Bool} {pow : PoWType} {diffData : List HeaderInfo}
    {v : UInt64} (h : (nextHashDifficulty checks pow diffData : Outcome ε UInt64) = .ok v)
    : 0 < v.toNat := by
  obtain ⟨params, -, h⟩ := Outcome.bind_eq_ok.mp h
  obtain ⟨current, -, h⟩ := Outcome.bind_eq_ok.mp h
  obtain ⟨prev, -, h⟩ := Outcome.bind_eq_ok.mp h
  obtain ⟨tsDelta, -, h⟩ := Outcome.bind_eq_ok.mp h
  obtain ⟨scaled, -, h⟩ := Outcome.bind_eq_ok.mp h
  obtain ⟨late, -, h⟩ := Outcome.bind_eq_ok.mp h
  obtain ⟨twice, -, h⟩ := Outcome.bind_eq_ok.mp h
  obtain ⟨signed, -, h⟩ := Outcome.bind_eq_ok.mp h
  obtain ⟨change, -, h⟩ := Outcome.bind_eq_ok.mp h
  obtain ⟨next, -, h⟩ := Outcome.bind_eq_ok.mp h
  rw [Outcome.pure_eq_ok, Outcome.ok.injEq] at h
  rw [← h]
  exact Nat.lt_of_lt_of_le (toNat_pos_toUInt64 (toInt_pos_max_one next)) (toNat_le_max_left _ _)

theorem nextCuckooDifficulty_pos {checks : Bool} {pow : PoWType} {diffData : List HeaderInfo}
    {v : UInt64} (h : (nextCuckooDifficulty checks pow diffData : Outcome ε UInt64) = .ok v)
    : 0 < v.toNat := by
  obtain ⟨newest, -, h⟩ := Outcome.bind_eq_ok.mp h
  obtain ⟨oldest, -, h⟩ := Outcome.bind_eq_ok.mp h
  obtain ⟨tsDelta, -, h⟩ := Outcome.bind_eq_ok.mp h
  exact Nat.lt_of_lt_of_le (by decide) (minDifficulty_le_retarget h)

theorem nextAlgoDifficulty_pos {checks : Bool} {prevAlgo : PoWType} {diffData : List HeaderInfo}
    {v : UInt64} (h : (nextAlgoDifficulty checks prevAlgo diffData : Outcome ε UInt64) = .ok v)
    : 0 < v.toNat := by
  cases prevAlgo with
  | cuckatoo => exact nextCuckooDifficulty_pos h
  | cuckaroo => exact nextCuckooDifficulty_pos h
  | randomX => exact nextHashDifficulty_pos h
  | progPow => exact nextHashDifficulty_pos h

theorem nextAlgoDifficultyEra1_pos {checks : Bool} {prevAlgo : PoWType} {diffData : List HeaderInfo}
    {v : UInt64} (h : (nextAlgoDifficultyEra1 checks prevAlgo diffData : Outcome ε UInt64) = .ok v)
    : 0 < v.toNat := by
  cases prevAlgo <;>
  . obtain ⟨tsDelta, -, h⟩ := Outcome.bind_eq_ok.mp h
    exact Nat.lt_of_lt_of_le (by decide) (minDifficulty_le_retarget h)

structure Follows (prevAlgo : PoWType) (last next : HeaderInfo) : Prop where
  same : ∀ a, a ≠ prevAlgo → next.difficulty.num.get a = last.difficulty.num.get a
  pos : ∃ v, next.difficulty.num.get prevAlgo = some v ∧ 0 < v.toNat

theorem follows_insert (last : HeaderInfo) (prevAlgo : PoWType) {v : UInt64} (hv : 0 < v.toNat)
    (scaling : UInt32)
    : Follows prevAlgo last
        (.fromDiffScaling (.fromDicNumber (last.difficulty.num.insert prevAlgo v)) scaling) where
  same a ha := by
    rw [HeaderInfo.fromDiffScaling, Difficulty.fromDicNumber, PoWMap.get_insert, if_neg ha]
  pos := ⟨v, by rw [HeaderInfo.fromDiffScaling, Difficulty.fromDicNumber, PoWMap.get_insert, if_pos rfl], hv⟩

theorem follows_nextDifficultyBy {nextAlgo : Bool → PoWType → List HeaderInfo → Outcome ε UInt64}
    {window height : UInt64} {prevAlgo : PoWType} {cursor : Nat → Outcome ε (List HeaderInfo)}
    {next : HeaderInfo}
    (hpos : ∀ data v, nextAlgo env.overflowChecks prevAlgo data = .ok v → 0 < v.toNat)
    (h : nextDifficultyBy nextAlgo window env height prevAlgo cursor = .ok next)
    : ∃ n taken last, cursor n = .ok taken ∧ taken.head? = some last ∧ Follows prevAlgo last next := by
  obtain ⟨data, hdata, h⟩ := Outcome.bind_eq_ok.mp h
  obtain ⟨scaling, -, h⟩ := Outcome.bind_eq_ok.mp h
  obtain ⟨last, hlast, h⟩ := Outcome.bind_eq_ok.mp h
  obtain ⟨v, hv, h⟩ := Outcome.bind_eq_ok.mp h
  rw [Outcome.unwrap_eq_ok] at hlast
  rw [Outcome.pure_eq_ok, Outcome.ok.injEq] at h
  obtain ⟨count, taken, htaken, heq⟩ := getLast?_difficultyDataToVector hdata
  refine ⟨_, taken, last, htaken, heq.symm.trans hlast, ?_⟩
  rw [← h]
  exact follows_insert last prevAlgo (hpos data v hv) scaling

end Consensus

theorem DifficultyIter.difficulty_search {ε : Type} {db : HeaderDb} {powType : PoWType}
    {difficulty : Difficulty} {prevTimespan : Int} {fuel : Nat} {head : BlockHeader} {found : Found}
    (h : (search db powType difficulty prevTimespan fuel head : Outcome ε Found) = .ok found)
    : found.difficulty = difficulty := by
  induction fuel generalizing head with
  | zero => contradiction
  | succ fuel ih =>
    unfold search at h
    split at h
    . split at h
      . injection h with h
        rw [← h]
      . exact ih h
    . injection h with h
      rw [← h]

theorem DifficultyIter.head?_take {ε : Type} {env : Env} {db : HeaderDb} {start : Hash} {count : Nat}
    {header : BlockHeader} {taken : List HeaderInfo} {last : HeaderInfo}
    (hstart : db.getBlockHeader start = some header)
    (h : (take env db start count : Outcome ε (List HeaderInfo)) = .ok taken)
    (hlast : taken.head? = some last)
    : ∃ span, (firstStep env db header : Outcome ε (Difficulty × Int)) = .ok (last.difficulty, span) := by
  unfold take at h
  rw [hstart] at h
  cases count with
  | zero =>
    injection h with h
    rw [← h] at hlast
    contradiction
  | succ count =>
    obtain ⟨found, hfound, h⟩ := Outcome.bind_eq_ok.mp h
    obtain ⟨rest, -, h⟩ := Outcome.bind_eq_ok.mp h
    rw [Outcome.pure_eq_ok, Outcome.ok.injEq] at h
    rw [← h, List.head?_cons, Option.some.injEq] at hlast
    obtain ⟨⟨difficulty, span⟩, hfirst, hsearch⟩ := Outcome.bind_eq_ok.mp hfound
    refine ⟨span, ?_⟩
    rw [← hlast, hfirst]
    rw [info, difficulty_search hsearch]

namespace Pipe

theorem follows_nextHeaderInfo {env : Env} {db : HeaderDb} {prev : BlockHeader} {height : UInt64}
    {next : HeaderInfo} (hprev : db.getBlockHeader (prev.hash env) = some prev)
    (h : nextHeaderInfo env db prev height = .ok next)
    : ∃ last span,
        (DifficultyIter.firstStep env db prev : Outcome ErrorKind (Difficulty × Int))
          = .ok (last.difficulty, span)
          ∧
        Consensus.Follows (.fromProof prev.pow.proof) last next := by
  have hnext : ∃ n taken last,
      (DifficultyIter.take env db (prev.hash env) n : Outcome ErrorKind (List HeaderInfo)) = .ok taken
        ∧ taken.head? = some last ∧ Consensus.Follows (.fromProof prev.pow.proof) last next := by
    unfold nextHeaderInfo at h
    dsimp only at h
    split at h
    . exact Consensus.follows_nextDifficultyBy (fun _ _ => Consensus.nextAlgoDifficulty_pos) h
    . exact Consensus.follows_nextDifficultyBy (fun _ _ => Consensus.nextAlgoDifficultyEra1_pos) h
  obtain ⟨n, taken, last, htaken, hlast, hfollows⟩ := hnext
  obtain ⟨span, hfirst⟩ := DifficultyIter.head?_take hprev htaken hlast
  exact ⟨last, span, hfirst, hfollows⟩

/-!
A chain of accepted headers, the newest one first. Each header was accepted on a store that holds the
headers below it, maybe among others, and no parent of the genesis.
-/

structure Accepts (env : Env) (genesis header prev : BlockHeader) (below : List BlockHeader) (ctx : Ctx)
    (db : HeaderDb) : Prop where
  stored : ∀ other ∈ prev :: below, db.getBlockHeader (other.hash env) = some other
  root : db.getPreviousHeader genesis = none
  linked : header.prevHash = prev.hash env
  powChecked : ctx.opts.skipPow = false
  valid : validateHeader env ctx db header = .ok ()
  fits : ∀ next, nextHeaderInfo env db prev header.height = .ok next → ∀ a,
    (prev.totalDifficulty.toNum a).toNat + (next.difficulty.toNum a).toNat < 2 ^ 64

inductive AcceptedChain (env : Env) (genesis : BlockHeader) : List BlockHeader → Prop
  | genesis : (∀ a, 1 ≤ (genesis.totalDifficulty.toNum a).toNat) → AcceptedChain env genesis [genesis]
  | accept {header prev : BlockHeader} {below : List BlockHeader} {ctx : Ctx} {db : HeaderDb} :
      AcceptedChain env genesis (prev :: below) → Accepts env genesis header prev below ctx db →
      AcceptedChain env genesis (header :: prev :: below)

-- the total difficulty of a header minus that of the header below it
def increment (header : BlockHeader) (below : List BlockHeader) (a : PoWType) : Int :=
  (header.totalDifficulty.toNum a).toNat
    - (below.head?.map fun prev => (prev.totalDifficulty.toNum a).toNat).getD 0

section

variable {env : Env} {genesis header prev : BlockHeader} {below : List BlockHeader}

theorem get_eq_some_toNum {d : Difficulty} {a : PoWType} (h : 0 < (d.toNum a).toNat)
    : d.num.get a = some (d.toNum a) := by
  unfold Difficulty.toNum at h ⊢
  cases hget : d.num.get a with
  | none => simp [hget] at h
  | some v => rfl

theorem get_firstStep {ε : Type} {db : HeaderDb} {d : Difficulty} {span : Int}
    (hchain : AcceptedChain env genesis (header :: below))
    (hpos : ∀ a, 1 ≤ increment header below a)
    (hstored : ∀ other ∈ header :: below, db.getBlockHeader (other.hash env) = some other)
    (hroot : db.getPreviousHeader genesis = none)
    (h : (DifficultyIter.firstStep env db header : Outcome ε (Difficulty × Int)) = .ok (d, span))
    (a : PoWType)
    : d.num.get a = some (d.toNum a) ∧ ((d.toNum a).toNat : Int) = increment header below a := by
  have hpos := hpos a
  unfold DifficultyIter.firstStep at h
  cases hchain with
  | genesis hone =>
    rw [hroot] at h
    simp only [Outcome.ok.injEq, Prod.mk.injEq] at h
    rw [← h.1]
    exact ⟨get_eq_some_toNum (hone a), by simp [increment]⟩
  | @accept _ prev below ctx db' _ haccepts =>
    have hprev : db.getPreviousHeader header = some prev := by
      unfold HeaderDb.getPreviousHeader
      rw [haccepts.linked]
      exact hstored prev (by simp)
    rw [hprev] at h
    obtain ⟨r, hsub, h⟩ := Outcome.bind_eq_ok.mp h
    rw [Outcome.pure_eq_ok, Outcome.ok.injEq, Prod.mk.injEq] at h
    rw [← h.1]
    simp only [increment, List.head?_cons, Option.map_some, Option.getD_some] at hpos ⊢
    have hheader : header.totalDifficulty.num.get a = some (header.totalDifficulty.toNum a) :=
      get_eq_some_toNum (by omega)
    have hget := Difficulty.get_sub hsub a
    rw [hheader] at hget
    have hr : r.toNum a = header.totalDifficulty.toNum a - prev.totalDifficulty.toNum a := by
      unfold Difficulty.toNum at hget ⊢
      rw [hget]
      rfl
    refine ⟨by rw [hget, hr]; rfl, ?_⟩
    rw [hr, UInt64.toNat_sub_of_le _ _ (by rw [UInt64.le_iff_toNat_le]; omega)]
    omega

theorem get_next {last next : HeaderInfo} (hpos : ∀ a, 1 ≤ increment prev below a)
    (hlast : ∀ a, last.difficulty.num.get a = some (last.difficulty.toNum a)
      ∧ ((last.difficulty.toNum a).toNat : Int) = increment prev below a)
    (hfollows : Consensus.Follows (.fromProof prev.pow.proof) last next) (a : PoWType)
    : ∃ v,
        next.difficulty.num.get a = some v
          ∧
        0 < v.toNat
          ∧
        (a ≠ .fromProof prev.pow.proof → (v.toNat : Int) = increment prev below a) := by
  by_cases ha : a = .fromProof prev.pow.proof
  . obtain ⟨v, hv, hpos⟩ := hfollows.pos
    rw [← ha] at hv
    exact ⟨v, hv, hpos, fun hne => absurd ha hne⟩
  . obtain ⟨hget, hincrement⟩ := hlast a
    have hpos := hpos a
    exact ⟨_, (hfollows.same a ha).trans hget, by omega, fun _ => hincrement⟩

theorem Accepts.increment {ctx : Ctx} {db : HeaderDb}
    (hchain : AcceptedChain env genesis (prev :: below)) (hpos : ∀ a, 1 ≤ increment prev below a)
    (h : Accepts env genesis header prev below ctx db) (a : PoWType)
    : 1 ≤ Pipe.increment header (prev :: below) a
        ∧
      (a ≠ .fromProof prev.pow.proof
        → Pipe.increment header (prev :: below) a = Pipe.increment prev below a) := by
  obtain ⟨-, parent, hchecked⟩ := validateHeader_eq_ok.mp h.valid
  have hstored := h.stored prev List.mem_cons_self
  have hparent : db.getPreviousHeader header = some prev := by
    unfold HeaderDb.getPreviousHeader
    rw [h.linked]
    exact hstored
  rw [hchecked.parent, Option.some.injEq] at hparent
  subst hparent
  have hdifficulty := hchecked.difficulty
  unfold validateDifficulty at hdifficulty
  rw [if_neg (by simp [h.powChecked])] at hdifficulty
  obtain ⟨target, hsub, hdifficulty⟩ := Outcome.bind_eq_ok.mp hdifficulty
  obtain ⟨diff, -, hdifficulty⟩ := Outcome.bind_eq_ok.mp hdifficulty
  obtain ⟨⟨⟩, -, hdifficulty⟩ := Outcome.bind_eq_ok.mp hdifficulty
  obtain ⟨next, hnext, hdifficulty⟩ := Outcome.bind_eq_ok.mp hdifficulty
  obtain ⟨⟨⟩, htarget, -⟩ := Outcome.bind_eq_ok.mp hdifficulty
  rw [Outcome.require_eq_ok] at htarget
  obtain ⟨last, span, hfirst, hfollows⟩ := follows_nextHeaderInfo hstored hnext
  obtain ⟨v, hv, hvpos, hvsame⟩ :=
    get_next hpos (get_firstStep hchain hpos h.stored h.root hfirst) hfollows a
  have hget := Difficulty.get_sub hsub a
  rw [htarget, hv, Option.some.injEq] at hget
  have hfits := h.fits next hnext a
  have hnum : next.difficulty.toNum a = v := by
    unfold Difficulty.toNum
    rw [hv]
    rfl
  rw [hnum] at hfits
  split at hget
  . have hsum : header.totalDifficulty.toNum a = parent.totalDifficulty.toNum a + v := by
      rw [hget, UInt64.add_comm, UInt64.sub_add_cancel]
    have htotal : (header.totalDifficulty.toNum a).toNat
        = (parent.totalDifficulty.toNum a).toNat + v.toNat := by
      rw [hsum, UInt64.toNat_add, Nat.mod_eq_of_lt hfits]
    have hincrement : Pipe.increment header (parent :: below) a = v.toNat := by
      simp only [Pipe.increment, List.head?_cons, Option.map_some, Option.getD_some]
      omega
    rw [hincrement]
    exact ⟨by omega, hvsame⟩
  . rw [hget] at hvpos
    contradiction

theorem AcceptedChain.increment_pos {chain : List BlockHeader} (h : AcceptedChain env genesis chain)
    {header : BlockHeader} {below : List BlockHeader} (hchain : chain = header :: below) (a : PoWType)
    : 1 ≤ increment header below a := by
  induction h generalizing header below a with
  | genesis hone =>
    obtain ⟨rfl, rfl⟩ := List.cons.inj hchain
    have := hone a
    simp only [increment, List.head?_nil, Option.map_none, Option.getD_none]
    omega
  | accept hbelow haccepts ih =>
    obtain ⟨rfl, rfl⟩ := List.cons.inj hchain
    exact (haccepts.increment hbelow (fun a => ih rfl a) a).1

theorem total_difficulty_grows (h : AcceptedChain env genesis (header :: prev :: below))
    : (∀ a, 1 ≤ increment header (prev :: below) a)
        ∧
      (∀ a, a ≠ .fromProof prev.pow.proof →
        increment header (prev :: below) a = increment prev below a)
        ∧
      prev.totalDifficulty.total < header.totalDifficulty.total
        ∧
      hasMoreWork header (.fromHeader env prev) = true := by
  cases h with
  | accept hbelow haccepts =>
    have hincrement := haccepts.increment hbelow fun a => hbelow.increment_pos rfl a
    have htotal : prev.totalDifficulty.total < header.totalDifficulty.total := by
      apply Difficulty.total_lt_total
      intro a
      have hpos := (hincrement a).1
      simp only [increment, List.head?_cons, Option.map_some, Option.getD_some] at hpos
      omega
    exact ⟨fun a => (hincrement a).1, fun a => (hincrement a).2, htotal, decide_eq_true htotal⟩

end

open Sample in
theorem total_difficulty_grows_sample
    : AcceptedChain (env emptyBottles) (genesis emptyBottles)
        [child emptyBottles randomXProof emptyBottles, genesis emptyBottles]
        ∧
      hasMoreWork (child emptyBottles randomXProof emptyBottles)
        (.fromHeader (env emptyBottles) (genesis emptyBottles)) = true := by
  have hstored : (db emptyBottles).getBlockHeader ((genesis emptyBottles).hash (env emptyBottles))
      = some (genesis emptyBottles) := AList.lookup_insert _
  have haccepts : Accepts (env emptyBottles) (genesis emptyBottles)
      (child emptyBottles randomXProof emptyBottles) (genesis emptyBottles) [] (ctx verifiers)
      (db emptyBottles) := by
    refine ⟨by simpa using hstored, by decide +kernel, rfl, rfl, by decide +kernel, ?_⟩
    intro next hnext a
    have hdifficulty : next.difficulty = .fromNum 1 := by
      have hone : (nextHeaderInfo (env emptyBottles) (db emptyBottles) (genesis emptyBottles)
          (child emptyBottles randomXProof emptyBottles).height >>= fun next => .ok next.difficulty)
            = .ok (.fromNum 1) := by decide
      rw [hnext] at hone
      exact Outcome.ok.inj hone
    rw [hdifficulty]
    cases a <;> decide
  have hone : ∀ a, 1 ≤ ((genesis emptyBottles).totalDifficulty.toNum a).toNat := by
    intro a
    cases a <;> decide
  have hchain : AcceptedChain (env emptyBottles) (genesis emptyBottles) _ :=
    .accept (.genesis hone) haccepts
  exact ⟨hchain, (total_difficulty_grows hchain).2.2.2⟩

end Pipe
end Epic
