import Epic.Util.MachineInt
import Mathlib.Algebra.BigOperators.Group.List.Basic
import Mathlib.Data.List.Induction
import Mathlib.Data.List.TakeWhile

/-!
This module contains the counter of transfers of the last minute. Quiet transfers carry the timestamp 0,
old ones are taken off at the front only.
-/

namespace Epic

open Outcome

structure Entry where
  bytes : UInt64
  timestamp : Nat

namespace Entry

def new (bytes : UInt64) (millisSinceEpoch : Nat) : Entry := ⟨bytes, millisSinceEpoch⟩

def newQuiet (bytes : UInt64) : Entry := ⟨bytes, 0⟩

def isQuiet (e : Entry) : Bool := e.timestamp == 0

end Entry

structure RateCounter where
  lastMinEntries : List Entry

namespace RateCounter

def new : RateCounter := ⟨[]⟩

def truncate (r : RateCounter) (nowMillis : Nat) : RateCounter :=
  ⟨r.lastMinEntries.dropWhile fun e => e.timestamp + 60000 < nowMillis⟩

-- the clock is read for the entry and again to take off the old entries
def inc (r : RateCounter) (bytes : UInt64) (millis nowMillis : Nat) : RateCounter :=
  truncate ⟨r.lastMinEntries ++ [.new bytes millis]⟩ nowMillis

def incQuiet (r : RateCounter) (bytes : UInt64) (nowMillis : Nat) : RateCounter :=
  truncate ⟨r.lastMinEntries ++ [.newQuiet bytes]⟩ nowMillis

def bytesPerMin {ε : Type} (checks : Bool) (r : RateCounter) : Outcome ε UInt64 :=
  MachineInt.sum checks (r.lastMinEntries.map Entry.bytes)

def countPerMin (r : RateCounter) : Nat := (r.lastMinEntries.filter fun e => !e.isQuiet).length

-- the times fit into 64 bits, also a minute later
structure Call where
  quiet : Bool
  bytes : UInt64
  start : Nat
  stop : Nat
  start_lt : start + 60000 < 2 ^ 64 := by decide
  stop_lt : stop < 2 ^ 64 := by decide

def call (r : RateCounter) (c : Call) : RateCounter :=
  if c.quiet then r.incQuiet c.bytes c.stop else r.inc c.bytes c.start c.stop

def run (calls : List Call) : RateCounter := calls.foldl call new

def InOrder (calls : List Call) : Prop :=
  (calls.flatMap fun c => [c.start, c.stop]).Pairwise (· ≤ ·)

instance (calls : List Call) : Decidable (InOrder calls) :=
  inferInstanceAs (Decidable (List.Pairwise _ _))

namespace Call

def entry (c : Call) : Entry := if c.quiet then .newQuiet c.bytes else .new c.bytes c.start

def isRecent (now : Nat) (c : Call) : Bool := now ≤ c.start + 60000

def counts (now : Nat) (c : Call) : Bool := !c.quiet && c.isRecent now

@[simp]
theorem bytes_entry (c : Call)
    : c.entry.bytes = c.bytes := by
  unfold entry
  split <;> rfl

theorem timestamp_entry (c : Call)
    : c.entry.timestamp = if c.quiet then 0 else c.start := by
  unfold entry
  split <;> rfl

end Call

def recentBytes (now : Nat) (calls : List Call) : Nat :=
  ((calls.filter (·.isRecent now)).map (·.bytes.toNat)).sum

def recentCount (now : Nat) (calls : List Call) : Nat := (calls.filter (·.counts now)).length

theorem InOrder.starts (h : InOrder calls)
    : calls.Pairwise fun c d => c.start ≤ d.start := by
  unfold InOrder at h
  rw [List.pairwise_flatMap] at h
  refine h.2.imp fun {c d} hcd => hcd c.start (by simp) d.start (by simp)

theorem InOrder.stops (h : InOrder calls)
    : calls.Pairwise fun c d => c.stop ≤ d.stop := by
  unfold InOrder at h
  rw [List.pairwise_flatMap] at h
  refine h.2.imp fun {c d} hcd => hcd c.stop (by simp) d.stop (by simp)

theorem dropWhile_dropWhile_append {α : Type} {p q : α → Bool} (l : List α) (a : α)
    (h : ∀ x, p x = true → q x = true)
    : (l.dropWhile p ++ [a]).dropWhile q = (l ++ [a]).dropWhile q := by
  induction l with
  | nil => rfl
  | cons x l ih =>
    by_cases hp : p x
    . rw [List.dropWhile_cons_of_pos hp, List.cons_append, List.dropWhile_cons_of_pos (h x hp), ih]
    . rw [List.dropWhile_cons_of_neg hp]

theorem lastMinEntries_call (r : RateCounter) (c : Call)
    : (r.call c).lastMinEntries
        =
      (r.lastMinEntries ++ [c.entry]).dropWhile fun e => e.timestamp + 60000 < c.stop := by
  unfold call Call.entry
  split <;> rfl

theorem lastMinEntries_run (hlast : calls.getLast? = some last)
    (horder : InOrder calls)
    : (run calls).lastMinEntries
        =
      (calls.map Call.entry).dropWhile fun e => e.timestamp + 60000 < last.stop := by
  have hstops := horder.stops
  clear horder
  induction calls using List.reverseRecOn generalizing last with
  | nil => simp at hlast
  | append_singleton calls c ih =>
    simp only [List.getLast?_append, List.getLast?_singleton, Option.some_or, Option.some.injEq] at hlast
    subst hlast
    have hrun : run (calls ++ [c]) = (run calls).call c := by simp [run]
    rw [hrun, lastMinEntries_call, List.map_append, List.map_singleton]
    cases hbefore : calls.getLast? with
    | none =>
      rw [List.getLast?_eq_none_iff.mp hbefore]
      rfl
    | some before =>
      obtain ⟨hcalls, -, hle⟩ := List.pairwise_append.mp hstops
      have hstop : before.stop ≤ c.stop := hle before (List.mem_of_getLast? hbefore) c (List.mem_singleton_self c)
      rw [ih hbefore hcalls]
      apply dropWhile_dropWhile_append
      intro e he
      rw [decide_eq_true_eq] at he ⊢
      omega

section

variable {calls : List Call} {last : Call} {now : Nat}

def Call.isDropped (now : Nat) (c : Call) : Bool := c.entry.timestamp + 60000 < now

theorem Call.timestamp_le (c : Call)
    : c.entry.timestamp ≤ c.start := by
  rw [timestamp_entry]
  split <;> omega

theorem entries_run (hlast : calls.getLast? = some last) (horder : InOrder calls)
    : (run calls).lastMinEntries = (calls.dropWhile (·.isDropped last.stop)).map Call.entry := by
  rw [lastMinEntries_run hlast horder, List.dropWhile_map]
  rfl

theorem isRecent_of_kept (horder : InOrder calls) {c : Call} (hc : c ∈ calls.dropWhile (·.isDropped now))
    : c.isRecent now = true := by
  have hstarts := horder.starts
  clear horder
  induction calls with
  | nil => simp at hc
  | cons d calls ih =>
    obtain ⟨hle, hstarts⟩ := List.pairwise_cons.mp hstarts
    by_cases hd : d.isDropped now
    . rw [List.dropWhile_cons_of_pos hd] at hc
      exact ih hc hstarts
    . rw [List.dropWhile_cons_of_neg hd] at hc
      have hstart : d.start ≤ c.start := by
        rcases List.mem_cons.mp hc with rfl | hc
        . exact le_refl _
        . exact hle c hc
      have hstamp := d.timestamp_le
      simp only [Call.isDropped, decide_eq_true_eq] at hd
      simp only [Call.isRecent, decide_eq_true_eq]
      omega

theorem recentBytes_eq (horder : InOrder calls) (now : Nat)
    : recentBytes now calls
        =
      recentBytes now (calls.takeWhile (·.isDropped now))
        + ((calls.dropWhile (·.isDropped now)).map (·.bytes.toNat)).sum := by
  have hkept : (calls.dropWhile (·.isDropped now)).filter (·.isRecent now) = calls.dropWhile (·.isDropped now) :=
    List.filter_eq_self.mpr fun c hc => isRecent_of_kept horder hc
  unfold recentBytes
  conv_lhs => rw [← @List.takeWhile_append_dropWhile _ (·.isDropped now) calls]
  rw [List.filter_append, hkept, List.map_append, List.sum_append]

theorem isDropped_eq (hnow : 60000 < now) (c : Call)
    : c.isDropped now = !c.counts now := by
  unfold Call.isDropped Call.counts Call.isRecent
  rw [Call.timestamp_entry]
  cases c.quiet with
  | true => simpa using hnow
  | false =>
    rw [Bool.eq_iff_iff]
    simp

theorem not_isDropped (hnow : now ≤ 60000) (c : Call)
    : c.isDropped now = false := by
  rw [Call.isDropped, decide_eq_false_iff_not]
  omega

-- the calls of the last minute before the first one of them that counts carry no bytes
def Carried (now : Nat) (calls : List Call) : Prop :=
  now ≤ 60000 ∨ ∀ c ∈ calls.takeWhile (fun c => !c.counts now), c.isRecent now → c.bytes = 0

theorem recentBytes_dropped_eq_zero (now : Nat) (calls : List Call)
    : recentBytes now (calls.takeWhile (·.isDropped now)) = 0 ↔ Carried now calls := by
  by_cases hnow : now ≤ 60000
  . have hnil : calls.takeWhile (·.isDropped now) = [] := by
      cases calls with
      | nil => rfl
      | cons c calls => simp [not_isDropped hnow]
    simp [hnil, recentBytes, Carried, hnow]
  . have hdropped : Call.isDropped now = fun c => !c.counts now := funext (isDropped_eq (by omega))
    simp only [recentBytes, List.sum_eq_zero_iff_forall_eq_nat, Carried, hnow, false_or, hdropped, List.mem_map,
      List.mem_filter]
    constructor
    . intro h c hc hrecent
      have hbytes := h _ ⟨c, ⟨hc, hrecent⟩, rfl⟩
      exact UInt64.toNat_inj.mp hbytes
    . rintro h _ ⟨c, ⟨hc, hrecent⟩, rfl⟩
      rw [h c hc hrecent]
      rfl

theorem bytesPerMin_iff (checks : Bool) (hlast : calls.getLast? = some last) (horder : InOrder calls)
    : (∃ bytes, ((run calls).bytesPerMin checks : Outcome ε UInt64) = .ok bytes
        ∧ recentBytes last.stop calls ≤ bytes.toNat)
        ↔ Carried last.stop calls ∧ recentBytes last.stop calls < 2 ^ 64 := by
  have hsplit := recentBytes_eq horder last.stop
  have hentries : ((run calls).lastMinEntries.map Entry.bytes).map UInt64.toNat
      = (calls.dropWhile (·.isDropped last.stop)).map (·.bytes.toNat) := by
    rw [entries_run hlast horder, List.map_map, List.map_map]
    exact List.map_congr_left fun c _ => by simp
  rw [← recentBytes_dropped_eq_zero]
  unfold bytesPerMin
  constructor
  . rintro ⟨bytes, hbytes, hle⟩
    have hsum := MachineInt.toNat_le_of_sum hbytes
    rw [hentries] at hsum
    have hlt := bytes.toNat_lt
    exact ⟨by omega, by omega⟩
  . rintro ⟨hzero, hlt⟩
    rw [hzero, Nat.zero_add] at hsplit
    refine ⟨_, MachineInt.sum_eq_ok checks (by rw [hentries, ← hsplit]; exact hlt), ?_⟩
    rw [hentries, ← hsplit, UInt64.toNat_ofNat_of_lt' hlt]

theorem countPerMin_eq (hlast : calls.getLast? = some last) (horder : InOrder calls)
    : (run calls).countPerMin
        =
      ((calls.dropWhile (·.isDropped last.stop)).filter (!·.quiet)).countP (fun c => c.start ≠ 0) := by
  unfold countPerMin
  rw [entries_run hlast horder, ← List.countP_eq_length_filter, List.countP_map, List.countP_filter]
  apply List.countP_congr
  intro c _
  simp only [Function.comp_apply, Entry.isQuiet, Call.timestamp_entry]
  cases c.quiet <;> simp

theorem recentCount_eq (horder : InOrder calls) (now : Nat)
    : recentCount now calls = ((calls.dropWhile (·.isDropped now)).filter (!·.quiet)).length := by
  have hdropped : (calls.takeWhile (·.isDropped now)).filter (·.counts now) = [] := by
    rw [List.filter_eq_nil_iff]
    intro c hc
    have hc := List.mem_takeWhile_imp hc
    simp only [Call.isDropped, Call.timestamp_entry, decide_eq_true_eq] at hc
    simp only [Call.counts, Call.isRecent, Bool.and_eq_true, Bool.not_eq_true', decide_eq_true_eq, not_and]
    intro hquiet
    rw [hquiet] at hc
    simpa using hc
  have hkept : (calls.dropWhile (·.isDropped now)).filter (·.counts now)
      = (calls.dropWhile (·.isDropped now)).filter (!·.quiet) := by
    apply List.filter_congr
    intro c hc
    simp [Call.counts, isRecent_of_kept horder hc]
  unfold recentCount
  conv_lhs => rw [← @List.takeWhile_append_dropWhile _ (·.isDropped now) calls]
  rw [List.filter_append, hdropped, hkept, List.nil_append]

theorem countPerMin_iff (hlast : calls.getLast? = some last) (horder : InOrder calls)
    : (run calls).countPerMin = recentCount last.stop calls
        ↔ (last.stop ≤ 60000 → ∀ c ∈ calls, c.quiet = false → c.start ≠ 0) := by
  rw [countPerMin_eq hlast horder, recentCount_eq horder, List.countP_eq_length]
  simp only [List.mem_filter, Bool.not_eq_true', decide_eq_true_eq]
  by_cases hnow : last.stop ≤ 60000
  . have hkept : calls.dropWhile (·.isDropped last.stop) = calls := by
      cases calls with
      | nil => rfl
      | cons c calls => simp [not_isDropped hnow]
    rw [hkept]
    exact ⟨fun h _ c hc hquiet => h c ⟨hc, hquiet⟩, fun h c ⟨hc, hquiet⟩ => h hnow c hc hquiet⟩
  . refine iff_of_true ?_ fun hle => absurd hle hnow
    rintro c ⟨hc, -⟩
    have hrecent := isRecent_of_kept horder hc
    simp only [Call.isRecent, decide_eq_true_eq] at hrecent
    omega

theorem covers_last_minute_iff {ε : Type} (checks : Bool) (hlast : calls.getLast? = some last)
    (horder : InOrder calls)
    : ((∃ bytes, ((run calls).bytesPerMin checks : Outcome ε UInt64) = .ok bytes
          ∧ recentBytes last.stop calls ≤ bytes.toNat)
        ↔ Carried last.stop calls ∧ recentBytes last.stop calls < 2 ^ 64)
        ∧
      ((run calls).countPerMin = recentCount last.stop calls
        ↔ (last.stop ≤ 60000 → ∀ c ∈ calls, c.quiet = false → c.start ≠ 0)) :=
  ⟨bytesPerMin_iff checks hlast horder, countPerMin_iff hlast horder⟩

theorem covers_last_minute_download
    : ∃ bytes, ((run [.mk false 5 100000 100000, .mk true 7 100001 100001]).bytesPerMin true
        : Outcome Unit UInt64) = .ok bytes
        ∧ 12 ≤ bytes.toNat := by
  have horder : InOrder [.mk false 5 100000 100000, .mk true 7 100001 100001] := by decide
  have hcarried : Carried 100001 [.mk false 5 100000 100000, .mk true 7 100001 100001] :=
    .inr (by decide)
  exact (covers_last_minute_iff true rfl horder).1.mpr ⟨hcarried, by decide⟩

-- the entry of a quiet call is dropped right away if none before it counts
theorem quiet_call_not_counted
    : ((run [.mk true 100 100000 100000]).bytesPerMin true : Outcome Unit UInt64) = .ok 0
        ∧ recentBytes 100000 [.mk true 100 100000 100000] = 100 := by
  decide

end

end RateCounter
end Epic
