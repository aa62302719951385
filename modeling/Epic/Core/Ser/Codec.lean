import Epic.Core.Ser.Total
import Epic.Util.Codec
import Mathlib.Data.List.Sort

/-!
This module contains what the readers consume and which bytes they decode, for the parts of headers and
transactions.
-/

namespace Epic

open Routine Ser Codec

variable {α β : Type}

abbrev Reading (x : Read α) (R : α → List UInt8 → Prop) : Prop := Consumes Source.bytes [] x R

abbrev Decoding (x : Read α) (input : List UInt8) (a : α) : Prop := Decodes Source.bytes Source.Fits x input a

abbrev Refusing (x : Read α) (input : List UInt8) : Prop := Refuses Source.bytes Source.Fits x input

section

variable (env : Env) (kind : ReaderKind)

theorem reading_takeBytes (n : Nat) (e : SerError)
    : Reading (takeBytes n e) fun l input => input = l ∧ l.length = n := by
  intro s l t h
  unfold takeBytes at h
  split at h
  . next hle =>
    rw [Prod.mk.injEq, Outcome.ok.injEq] at h
    obtain ⟨rfl, rfl⟩ := h
    refine ⟨_, (List.take_append_drop n s.bytes).symm, List.nil_append _, ?_⟩
    rw [List.length_take, Nat.min_eq_left hle]
  . simp at h

theorem reading_count (n : UInt64)
    : Reading (count env n) fun _ input => input = [] := by
  intro s u t h
  obtain ⟨total, r, hr, ht⟩ := bind_eq_ok.mp h
  rw [query_eq_ok] at hr
  rw [modify_eq_ok] at ht
  obtain ⟨-, rfl⟩ := hr
  exact ⟨[], by rw [← ht]; rfl, rfl⟩

theorem reading_withCapacity (len elmtSize : Nat)
    : Reading (withCapacity len elmtSize) fun _ input => input = [] := by
  intro s u t h
  obtain ⟨-, rfl⟩ := lift_eq_ok.mp h
  exact ⟨[], rfl, rfl⟩

theorem reading_readFixedBytes (n : Nat)
    : Reading (readFixedBytes env kind n) fun l input => input = l ∧ l.length = n := by
  unfold readFixedBytes
  cases kind with
  | bin =>
    refine .lift_bind fun _ _ => (reading_withCapacity n 1).bind ?_
    rintro _ _ rfl
    exact reading_takeBytes n .unexpectedEof
  | streaming =>
    apply (reading_withCapacity n 1).bind
    rintro _ _ rfl
    refine .lift_bind fun _ _ => (reading_takeBytes n .connectionAborted).bind ?_
    rintro _ l ⟨rfl, hlength⟩
    apply (reading_count env (UInt64.ofNat n)).bind
    rintro _ _ rfl
    exact .pure ⟨by simp, hlength⟩

theorem reading_readInt (n : Nat)
    : Reading (readInt env kind n) fun m input => input = Bytes.beBytes n m ∧ m < 256 ^ n := by
  have hvalue (l : List UInt8) (hlength : l.length = n)
      : l = Bytes.beBytes n (Bytes.ofBE l) ∧ Bytes.ofBE l < 256 ^ n := by
    rw [← hlength]
    exact ⟨(Bytes.beBytes_ofBE l).symm, Bytes.ofBE_lt l⟩
  unfold readInt
  cases kind with
  | bin =>
    apply (reading_takeBytes n .unexpectedEof).bind
    rintro _ l ⟨rfl, hlength⟩
    exact .pure (hvalue l hlength)
  | streaming =>
    apply (reading_readFixedBytes env .streaming n).bind
    rintro _ l ⟨rfl, hlength⟩
    exact .pure (hvalue l hlength)

theorem reading_readU8
    : Reading (readU8 env kind) fun n input => input = writeU8 n := by
  apply (reading_readInt env kind 1).map
  rintro m _ ⟨rfl, hlt⟩
  rfl

theorem reading_readU16
    : Reading (readU16 env kind) fun n input => input = writeU16 n := by
  apply (reading_readInt env kind 2).map
  rintro m _ ⟨rfl, hlt⟩
  rw [writeU16, UInt16.toNat_ofNat_of_lt' hlt]

theorem reading_readU32
    : Reading (readU32 env kind) fun n input => input = writeU32 n := by
  apply (reading_readInt env kind 4).map
  rintro m _ ⟨rfl, hlt⟩
  rw [writeU32, UInt32.toNat_ofNat_of_lt' hlt]

theorem reading_readU64
    : Reading (readU64 env kind) fun n input => input = writeU64 n := by
  apply (reading_readInt env kind 8).map
  rintro m _ ⟨rfl, hlt⟩
  rw [writeU64, UInt64.toNat_ofNat_of_lt' hlt]

theorem toInt_ofNat_emod {m : Nat} (h : m < 2 ^ 64)
    : ((Int64.ofNat m).toInt % 2 ^ 64).toNat = m := by
  rw [Int64.toInt_ofNat', Int.bmod, Int64.size]
  split <;> omega

theorem reading_readI64
    : Reading (readI64 env kind) fun n input => input = writeI64 n.toInt := by
  apply (reading_readInt env kind 8).map
  rintro m _ ⟨rfl, hlt⟩
  rw [writeI64, toInt_ofNat_emod hlt]

theorem length_writeU64 (n : UInt64)
    : (writeU64 n).length = 8 := Bytes.length_beBytes _ _

theorem length_writeU32 (n : UInt32)
    : (writeU32 n).length = 4 := Bytes.length_beBytes _ _

theorem writeU64_inj (h : writeU64 m = writeU64 n)
    : m = n := by
  apply UInt64.toNat_inj.mp
  have hvalue := congrArg Bytes.ofBE h
  rw [writeU64, writeU64, Bytes.ofBE_beBytes, Bytes.ofBE_beBytes] at hvalue
  rwa [Nat.mod_eq_of_lt (show m.toNat < 256 ^ 8 from m.toNat_lt),
    Nat.mod_eq_of_lt (show n.toNat < 256 ^ 8 from n.toNat_lt)] at hvalue

theorem writeU32_inj (h : writeU32 m = writeU32 n)
    : m = n := by
  apply UInt32.toNat_inj.mp
  have hvalue := congrArg Bytes.ofBE h
  rw [writeU32, writeU32, Bytes.ofBE_beBytes, Bytes.ofBE_beBytes] at hvalue
  rwa [Nat.mod_eq_of_lt (show m.toNat < 256 ^ 4 from m.toNat_lt),
    Nat.mod_eq_of_lt (show n.toNat < 256 ^ 4 from n.toNat_lt)] at hvalue

theorem ofBE_writeU64 {n : Nat} (h : n < 2 ^ 64)
    : Bytes.ofBE (writeU64 (UInt64.ofNat n)) = n := by
  rw [writeU64, UInt64.toNat_ofNat_of_lt' h, Bytes.ofBE_beBytes]
  exact Nat.mod_eq_of_lt h

theorem slice_eq_ok (hlength : l.length = n)
    : (slice n l : Outcome ε _) = .ok v ↔ l = v.toList := by
  subst hlength
  unfold slice
  rw [dif_pos (le_refl _)]
  constructor
  . intro h
    injection h with h
    rw [← h]
    exact List.take_length.symm
  . intro h
    congr 1
    apply List.Vector.toList_injective
    exact List.take_length.trans h

theorem copyFromSlice_eq_ok
    : (copyFromSlice n l : Outcome ε _) = .ok v ↔ l = v.toList := by
  unfold copyFromSlice
  constructor
  . intro h
    split at h
    . injection h with h
      rw [← h]
      rfl
    . contradiction
  . rintro rfl
    rw [dif_pos v.toList_length]
    rfl

theorem reading_hash
    : Reading (Hash.read env kind) fun h input => input = h.write ∧ input.length = 32 := by
  apply (reading_readFixedBytes env kind 32).bind
  rintro _ l ⟨rfl, hlength⟩
  apply Consumes.lift_bind
  intro a ha
  exact .pure ⟨copyFromSlice_eq_ok.mp ha, hlength⟩

theorem reading_slice (n : Nat)
    : Reading (readFixedBytes env kind n >>= fun l => lift (slice n l)) fun v input => input = v.toList := by
  apply (reading_readFixedBytes env kind n).bind
  rintro _ l ⟨rfl, hlength⟩
  intro s v t h
  obtain ⟨hv, rfl⟩ := lift_eq_ok.mp h
  exact ⟨[], rfl, by rw [List.append_nil]; exact (slice_eq_ok hlength).mp hv⟩

theorem reading_blindingFactor
    : Reading (BlindingFactor.read env kind) fun b input => input = b.toList := by
  apply (reading_readFixedBytes env kind 32).map
  rintro _ l ⟨rfl, hlength⟩
  simp [BlindingFactor.fromSlice, List.Vector.toList, hlength, List.take_of_length_le]

theorem Reads.decodes (hx : Reads x n v) (input : List UInt8)
    (hlength : input.length = n)
    : Decoding x input (v input) := by
  intro s rest hs hbytes
  have hge : n ≤ s.bytes.length := by
    rw [hbytes, List.length_append]
    omega
  obtain ⟨t, ht, hrest, hfits⟩ := (hx s hs).1 hge
  refine ⟨t, ?_, ?_, hfits⟩
  . rw [ht, hbytes, List.take_left' hlength]
  . rw [hrest, hbytes, List.drop_left' hlength]

theorem decoding_readU8 (n : UInt8)
    : Decoding (readU8 env kind) (writeU8 n) n := by
  have h := (reads_readU8 env kind).decodes (writeU8 n) rfl
  have hvalue : UInt8.ofNat (Bytes.ofBE (writeU8 n)) = n := by simp [writeU8, Bytes.ofBE]
  rwa [Function.comp_apply, hvalue] at h

theorem decoding_readU16 (n : UInt16)
    : Decoding (readU16 env kind) (writeU16 n) n := by
  have h := (reads_readU16 env kind).decodes (writeU16 n) (Bytes.length_beBytes _ _)
  have hvalue : Bytes.ofBE (writeU16 n) = n.toNat := by
    rw [writeU16, Bytes.ofBE_beBytes]
    exact Nat.mod_eq_of_lt n.toNat_lt
  rwa [Function.comp_apply, hvalue, UInt16.ofNat_toNat] at h

theorem decoding_readU32 (n : UInt32)
    : Decoding (readU32 env kind) (writeU32 n) n := by
  have h := (reads_readU32 env kind).decodes (writeU32 n) (Bytes.length_beBytes _ _)
  have hvalue : Bytes.ofBE (writeU32 n) = n.toNat := by
    rw [writeU32, Bytes.ofBE_beBytes]
    exact Nat.mod_eq_of_lt n.toNat_lt
  rwa [Function.comp_apply, hvalue, UInt32.ofNat_toNat] at h

theorem decoding_readU64 (n : UInt64)
    : Decoding (readU64 env kind) (writeU64 n) n := by
  have h := (reads_readU64 env kind).decodes (writeU64 n) (Bytes.length_beBytes _ _)
  have hvalue : Bytes.ofBE (writeU64 n) = n.toNat := by
    rw [writeU64, Bytes.ofBE_beBytes]
    exact Nat.mod_eq_of_lt n.toNat_lt
  rwa [Function.comp_apply, hvalue, UInt64.ofNat_toNat] at h

theorem decoding_readI64 (n : Int)
    : Decoding (readI64 env kind) (writeI64 n) (Int64.ofInt n) := by
  have h := (reads_readI64 env kind).decodes (writeI64 n) (Bytes.length_beBytes _ _)
  have hvalue : Int64.ofNat (Bytes.ofBE (writeI64 n)) = Int64.ofInt n := by
    apply Int64.toInt_inj.mp
    rw [writeI64, Bytes.ofBE_beBytes, Nat.mod_eq_of_lt (by omega), Int64.toInt_ofNat', Int64.toInt_ofInt,
      Int.toNat_of_nonneg (by omega)]
    exact Int.emod_bmod n (2 ^ 64)
  rwa [Function.comp_apply, hvalue] at h

theorem decoding_readFixedBytes (hpos : 0 < l.length) (hle : l.length ≤ 100000)
    : Decoding (readFixedBytes env kind l.length) l l := (reads_readFixedBytes env kind hpos hle).decodes l rfl

theorem decoding_hash (hlength : h.bytes.length = 32)
    : Decoding (Hash.read env kind) h.write h := (reads_hash env kind).decodes h.write hlength

theorem decoding_blindingFactor (b : BlindingFactor)
    : Decoding (BlindingFactor.read env kind) b.toList b := by
  have h := (reads_blindingFactor env kind).decodes _ b.toList_length
  have hvalue : BlindingFactor.fromSlice b.toList = b := by
    apply List.Vector.toList_injective
    simp [BlindingFactor.fromSlice, List.Vector.toList, b.2, List.take_of_length_le]
  rwa [Function.comp_apply, id_eq, hvalue] at h

theorem decoding_slice (hpos : 0 < n) (hle : n ≤ 100000) (v : List.Vector UInt8 n)
    : Decoding (readFixedBytes env kind n >>= fun l => lift (slice n l)) v.toList v := by
  have h := (reads_readFixedBytes env kind hpos hle).decodes _ v.toList_length
  intro s rest hs hbytes
  obtain ⟨t, ht, hrest⟩ := h s rest hs hbytes
  refine ⟨t, bind_eq_ok.mpr ⟨_, t, ht, lift_eq_ok.mpr ⟨?_, rfl⟩⟩, hrest⟩
  exact (slice_eq_ok v.toList_length).mpr rfl

end

/-!
Maps. The entries are inserted in the order in which they are read and written in the order of the
algorithms.
-/

theorem PoWType.tryFrom_eq_some
    : tryFrom v = some a ↔ v = a.toU8 := by
  constructor
  . intro h
    unfold tryFrom at h
    split at h
    . next hv => rw [hv, ← Option.some.inj h, toU8]
    split at h
    . next hv => rw [hv, ← Option.some.inj h, toU8]
    split at h
    . next hv => rw [hv, ← Option.some.inj h, toU8]
    split at h
    . next hv => rw [hv, ← Option.some.inj h, toU8]
    . contradiction
  . rintro rfl
    cases a <;> rfl

theorem PoWType.toU8_injective {a b : PoWType} (h : a.toU8 = b.toU8)
    : a = b := by
  have ha := tryFrom_eq_some.mpr (rfl : a.toU8 = a.toU8)
  rw [h, tryFrom_eq_some.mpr rfl] at ha
  exact (Option.some.inj ha).symm

namespace PoWMap

def insertAll (m : PoWMap α) (l : List (PoWType × α)) : PoWMap α := l.foldl (fun m x => m.insert x.1 x.2) m

def writeEntries (write : α → List UInt8) (l : List (PoWType × α)) : List UInt8 :=
  writeU64 (UInt64.ofNat l.length) ++ l.flatMap fun x => writeU8 x.1.toU8 ++ write x.2

def Ascending (l : List (PoWType × α)) : Prop := (l.map fun x => x.1.toU8).Pairwise (· < ·)

theorem get_insertAll_of_not_mem {l : List (PoWType × α)} {a : PoWType} (m : PoWMap α)
    (h : a ∉ l.map (·.1))
    : (m.insertAll l).get a = m.get a := by
  induction l generalizing m with
  | nil => rfl
  | cons x l ih =>
    rw [List.map_cons, List.mem_cons, not_or] at h
    rw [insertAll, List.foldl_cons, ← insertAll, ih _ h.2, get_insert, if_neg h.1]

theorem get_insertAll_of_mem {l : List (PoWType × α)} {a : PoWType} {v : α} (m : PoWMap α)
    (hnodup : (l.map (·.1)).Nodup) (h : (a, v) ∈ l)
    : (m.insertAll l).get a = some v := by
  induction l generalizing m with
  | nil => contradiction
  | cons x l ih =>
    rw [List.map_cons, List.nodup_cons] at hnodup
    rw [insertAll, List.foldl_cons, ← insertAll]
    rcases List.mem_cons.mp h with rfl | hmem
    . rw [get_insertAll_of_not_mem _ hnodup.1, get_insert, if_pos rfl]
    . exact ih _ hnodup.2 hmem

theorem Ascending.nodup {l : List (PoWType × α)} (h : Ascending l)
    : (l.map (·.1)).Nodup := by
  rw [List.Nodup, List.pairwise_map]
  refine (List.pairwise_map.mp h).imp ?_
  intro x y hlt heq
  rw [heq] at hlt
  exact UInt8.lt_irrefl _ hlt

theorem ascending_entries (m : PoWMap α)
    : Ascending m.entries := by
  rw [Ascending, List.pairwise_map]
  refine List.Pairwise.filterMap (R := fun a b => a.toU8 < b.toU8) _ ?_ (by decide)
  intro a b hlt x hx y hy
  obtain ⟨v, -, rfl⟩ := Option.map_eq_some_iff.mp hx
  obtain ⟨w, -, rfl⟩ := Option.map_eq_some_iff.mp hy
  exact hlt

theorem entries_insertAll_eq_iff {l : List (PoWType × α)}
    : (empty.insertAll l).entries = l ↔ Ascending l := by
  constructor
  . intro h
    rw [← h]
    exact ascending_entries _
  . intro h
    have hantisymm : Std.Antisymm fun x y : PoWType × α => x.1.toU8 < y.1.toU8 :=
      ⟨fun x y hxy hyx => absurd hyx (UInt8.lt_asymm hxy)⟩
    have hirrefl : Std.Irrefl fun x y : PoWType × α => x.1.toU8 < y.1.toU8 :=
      ⟨fun x => UInt8.lt_irrefl _⟩
    apply List.Pairwise.eq_of_mem_iff (List.pairwise_map.mp (ascending_entries _)) (List.pairwise_map.mp h)
    rintro ⟨a, v⟩
    rw [mem_entries]
    constructor
    . intro hget
      by_cases hmem : a ∈ l.map (·.1)
      . obtain ⟨⟨b, w⟩, hw, rfl⟩ := List.mem_map.mp hmem
        rw [get_insertAll_of_mem _ h.nodup hw] at hget
        rwa [← Option.some.inj hget]
      . rw [get_insertAll_of_not_mem _ hmem] at hget
        cases a <;> contradiction
    . exact get_insertAll_of_mem _ h.nodup

theorem insertAll_entries (m : PoWMap α)
    : empty.insertAll m.entries = m := by
  apply PoWMap.ext
  intro a
  cases hget : m.get a with
  | some v => exact get_insertAll_of_mem _ (ascending_entries m).nodup (mem_entries.mpr hget)
  | none =>
    rw [get_insertAll_of_not_mem]
    . cases a <;> rfl
    . intro hmem
      obtain ⟨⟨b, v⟩, hv, rfl⟩ := List.mem_map.mp hmem
      rw [mem_entries.mp hv] at hget
      contradiction

theorem length_entries_le (m : PoWMap α)
    : m.entries.length ≤ 4 := by
  exact List.length_filterMap_le _ _

theorem length_writeEntries (hlength : ∀ v, (write v).length = n)
    (l : List (PoWType × α))
    : (writeEntries write l).length = 8 + (1 + n) * l.length := by
  rw [writeEntries, List.length_append, List.length_flatMap]
  simp [writeU64, writeU8, hlength, Nat.mul_comm, Nat.add_comm]

theorem writeEntries_inj (hlength : ∀ v, (write v).length = n)
    (hinj : ∀ v w, write v = write w → v = w) {l₁ l₂ : List (PoWType × α)}
    (hsize₁ : l₁.length < 2 ^ 64) (hsize₂ : l₂.length < 2 ^ 64)
    (h : writeEntries write l₁ ++ rest₁ = writeEntries write l₂ ++ rest₂)
    : l₁ = l₂ ∧ rest₁ = rest₂ := by
  rw [writeEntries, writeEntries, List.append_assoc, List.append_assoc] at h
  obtain ⟨hcount, hentries⟩ := List.append_inj h (by simp [writeU64])
  have hsame := congrArg UInt64.toNat (writeU64_inj hcount)
  rw [UInt64.toNat_ofNat_of_lt' hsize₁, UInt64.toNat_ofNat_of_lt' hsize₂] at hsame
  refine flatMap_append_inj (n := n + 1) ?_ ?_ hsame hentries
  . intro x
    rw [List.length_append, hlength]
    exact Nat.add_comm 1 n
  . intro x y hxy
    obtain ⟨hkey, hvalue⟩ := List.append_inj hxy rfl
    exact Prod.ext (PoWType.toU8_injective (List.singleton_inj.mp hkey)) (hinj _ _ hvalue)

end PoWMap

section

variable (env : Env) (kind : ReaderKind)

theorem Difficulty.write_eq (d : Difficulty)
    : d.write = PoWMap.writeEntries writeU64 d.num.entries := rfl

theorem Policy.write_eq (p : Policy)
    : p.write = PoWMap.writeEntries writeU32 p.entries := rfl

theorem Difficulty.reading_go (n : Nat) (m : DifficultyNumber)
    : Reading (Difficulty.read.go env kind n m) fun m' input =>
        ∃ l, l.length = n ∧ m' = m.insertAll l
          ∧ input = l.flatMap fun x => writeU8 x.1.toU8 ++ writeU64 x.2 := by
  induction n generalizing m with
  | zero => exact .pure ⟨[], rfl, rfl, rfl⟩
  | succ n ih =>
    apply (reading_readU8 env kind).bind
    rintro pow _ rfl
    apply (reading_readU64 env kind).bind
    rintro count _ rfl
    apply Consumes.lift_bind
    intro powType hpow
    rw [Outcome.okOr_eq_ok, PoWType.tryFrom_eq_some] at hpow
    apply (ih _).after
    rintro _ _ ⟨l, hlength, rfl, rfl⟩
    refine ⟨(powType, count) :: l, by rw [List.length_cons, hlength], rfl, ?_⟩
    rw [hpow, List.flatMap_cons, List.nil_append]

theorem Policy.reading_go (n : Nat) (m : Policy)
    : Reading (Policy.read.go env kind n m) fun m' input =>
        ∃ l, l.length = n ∧ m' = m.insertAll l
          ∧ input = l.flatMap fun x => writeU8 x.1.toU8 ++ writeU32 x.2 := by
  induction n generalizing m with
  | zero => exact .pure ⟨[], rfl, rfl, rfl⟩
  | succ n ih =>
    apply (reading_readU8 env kind).bind
    rintro pow _ rfl
    apply Consumes.lift_bind
    intro powType hpow
    rw [Outcome.okOr_eq_ok, PoWType.tryFrom_eq_some] at hpow
    apply (reading_readU32 env kind).bind
    rintro count _ rfl
    apply (ih _).after
    rintro _ _ ⟨l, hlength, rfl, rfl⟩
    refine ⟨(powType, count) :: l, by rw [List.length_cons, hlength], rfl, ?_⟩
    rw [hpow, List.flatMap_cons, List.nil_append]

theorem Difficulty.reading
    : Reading (Difficulty.read env kind) fun d input =>
        ∃ l, l.length < 2 ^ 64 ∧ d = ⟨PoWMap.empty.insertAll l⟩ ∧ input = PoWMap.writeEntries writeU64 l := by
  apply (reading_readU64 env kind).bind
  rintro len _ rfl
  apply (Difficulty.reading_go env kind len.toNat _).bind
  rintro _ _ ⟨l, hlength, rfl, rfl⟩
  refine .pure ⟨l, hlength ▸ len.toNat_lt, rfl, ?_⟩
  rw [PoWMap.writeEntries, hlength, UInt64.ofNat_toNat]
  rfl

theorem Policy.reading
    : Reading (Policy.read env kind) fun p input =>
        ∃ l, l.length < 2 ^ 64 ∧ p = PoWMap.empty.insertAll l ∧ input = PoWMap.writeEntries writeU32 l := by
  apply (reading_readU64 env kind).bind
  rintro len _ rfl
  apply (Policy.reading_go env kind len.toNat _).after
  rintro _ _ ⟨l, hlength, rfl, rfl⟩
  refine ⟨l, hlength ▸ len.toNat_lt, rfl, ?_⟩
  rw [PoWMap.writeEntries, hlength, UInt64.ofNat_toNat]
  rfl

theorem Difficulty.decoding_go (l : List (PoWType × UInt64)) (m : DifficultyNumber)
    : Decoding (Difficulty.read.go env kind l.length m)
        (l.flatMap fun x => writeU8 x.1.toU8 ++ writeU64 x.2) (m.insertAll l) := by
  induction l generalizing m with
  | nil => exact .pure
  | cons x l ih =>
    rw [List.flatMap_cons, List.append_assoc]
    apply (decoding_readU8 env kind _).bind
    apply (decoding_readU64 env kind _).bind
    refine .lift_bind (Outcome.okOr_eq_ok.mpr (PoWType.tryFrom_eq_some.mpr rfl)) ?_
    exact ih _

theorem Policy.decoding_go (l : List (PoWType × UInt32)) (m : Policy)
    : Decoding (Policy.read.go env kind l.length m)
        (l.flatMap fun x => writeU8 x.1.toU8 ++ writeU32 x.2) (m.insertAll l) := by
  induction l generalizing m with
  | nil => exact .pure
  | cons x l ih =>
    rw [List.flatMap_cons, List.append_assoc]
    apply (decoding_readU8 env kind _).bind
    refine .lift_bind (Outcome.okOr_eq_ok.mpr (PoWType.tryFrom_eq_some.mpr rfl)) ?_
    apply (decoding_readU32 env kind _).bind
    exact ih _

theorem PoWMap.toNat_length_entries (m : PoWMap α)
    : (UInt64.ofNat m.entries.length).toNat = m.entries.length := by
  have := m.length_entries_le
  exact UInt64.toNat_ofNat_of_lt' (by unfold UInt64.size; omega)

theorem Difficulty.decoding (d : Difficulty)
    : Decoding (Difficulty.read env kind) d.write d := by
  have h := Difficulty.decoding_go env kind d.num.entries .empty
  rw [PoWMap.insertAll_entries, ← PoWMap.toNat_length_entries] at h
  rw [Difficulty.write_eq, PoWMap.writeEntries]
  exact (decoding_readU64 env kind _).bind (h.map Difficulty.mk)

theorem Policy.decoding (p : Policy)
    : Decoding (Policy.read env kind) p.write p := by
  have h := Policy.decoding_go env kind p.entries .empty
  rw [PoWMap.insertAll_entries, ← PoWMap.toNat_length_entries] at h
  exact (decoding_readU64 env kind _).bind h

end

/-!
Proofs. The nonces of a Cuckoo proof are packed without gaps, and the bits that are left over in the last
byte are zero.
-/

namespace Proof

section

variable {ε : Type} {bits : List UInt8} {checks : Bool} {nonceBits n proofsize : Nat}

theorem bitAt_eq_ok (h : pos < 8 * bits.length)
    : (bitAt bits pos : Outcome ε Bool) = .ok (Bytes.bit bits pos) := by
  have hlt : pos / 8 < bits.length := by omega
  rw [bitAt, List.getElem?_eq_getElem hlt, Bytes.bit, List.getD_eq_getElem _ _ hlt]
  rfl

def nonceAt (bits : List UInt8) (nonceBits n : Nat) : UInt64 :=
  (List.range nonceBits).foldl (fun nonce bit =>
    if Bytes.bit bits (n * nonceBits + bit) then nonce ||| UInt64.ofNat (2 ^ bit) else nonce) 0

theorem mul_add_lt (hbit : bit < nonceBits) (hn : n < proofsize)
    : n * nonceBits + bit < nonceBits * proofsize := by
  have hle : nonceBits * (n + 1) ≤ nonceBits * proofsize := Nat.mul_le_mul_left _ hn
  rw [Nat.mul_succ] at hle
  rw [Nat.mul_comm n]
  omega

theorem unpackNonce_eq_ok (hbits : nonceBits ≤ 64) (hn : n < proofsize)
    (hlength : nonceBits * proofsize ≤ 8 * bits.length)
    : (unpackNonce checks bits nonceBits n : Outcome ε UInt64) = .ok (nonceAt bits nonceBits n) := by
  unfold unpackNonce nonceAt
  generalize (0 : UInt64) = start
  have hall : ∀ bit ∈ List.range nonceBits, bit < nonceBits := fun bit => List.mem_range.mp
  generalize List.range nonceBits = l at hall
  induction l generalizing start with
  | nil => rfl
  | cons bit l ih =>
    have hbit := hall bit List.mem_cons_self
    have hpos := mul_add_lt hbit hn
    rw [List.foldlM_cons, List.foldl_cons, bitAt_eq_ok (by omega), Outcome.ok_bind,
      MachineInt.shl_one_eq_ok (by omega)]
    have hrest := fun start => ih start fun b hb => hall b (List.mem_cons_of_mem _ hb)
    cases Bytes.bit bits (n * nonceBits + bit) with
    | true => exact hrest _
    | false => exact hrest _

theorem unpackNonces_eq_ok (hbits : nonceBits ≤ 64) (hlength : nonceBits * proofsize ≤ 8 * bits.length)
    : (unpackNonces checks bits nonceBits proofsize : Outcome ε _)
        =
      .ok ((List.range proofsize).map (nonceAt bits nonceBits)) :=
  Outcome.mapM_ok fun _ hn => unpackNonce_eq_ok hbits (List.mem_range.mp hn) hlength

theorem testBit_nonceAt (hbits : nonceBits ≤ 64) (bit : Nat)
    : (nonceAt bits nonceBits n).toNat.testBit bit
        =
      (decide (bit < nonceBits) && Bytes.bit bits (n * nonceBits + bit)) := by
  suffices hgen : ∀ k ≤ 64, ∀ bit, ((List.range k).foldl (fun nonce bit =>
      if Bytes.bit bits (n * nonceBits + bit) then nonce ||| UInt64.ofNat (2 ^ bit) else nonce)
        (0 : UInt64)).toNat.testBit bit
      = (decide (bit < k) && Bytes.bit bits (n * nonceBits + bit)) from hgen nonceBits hbits bit
  intro k
  induction k with
  | zero => simp
  | succ k ih =>
    intro hk bit
    have hpow : 2 ^ k < 2 ^ 64 := Nat.pow_lt_pow_right (by omega) (by omega)
    rw [List.range_succ, List.foldl_append, List.foldl_cons, List.foldl_nil]
    split
    . next hset =>
      rw [UInt64.toNat_or, Nat.testBit_or, ih (by omega), UInt64.toNat_ofNat_of_lt' hpow,
        Nat.testBit_two_pow]
      by_cases heq : k = bit
      . subst heq
        simp [hset]
      . have hiff : bit < k + 1 ↔ bit < k := by omega
        simp [heq, hiff]
    . next hclear =>
      rw [ih (by omega)]
      by_cases heq : k = bit
      . subst heq
        simp [hclear]
      . have hiff : bit < k + 1 ↔ bit < k := by omega
        simp [hiff]

theorem checkPadding_eq_ok {start count : Nat} (h : start + count ≤ 8 * bits.length)
    : checkPadding bits start count = .ok ()
        ↔
      ∀ pos, start ≤ pos → pos < start + count → Bytes.bit bits pos = false := by
  induction count generalizing start with
  | zero =>
    refine ⟨fun _ pos hle hlt => by omega, fun _ => rfl⟩
  | succ count ih =>
    rw [checkPadding, bitAt_eq_ok (by omega), Outcome.ok_bind]
    simp only [Outcome.bind_eq_ok, Outcome.require_eq_ok]
    rw [ih (by omega)]
    constructor
    . rintro ⟨-, hfirst, hrest⟩ pos hle hlt
      rcases Nat.eq_or_lt_of_le hle with rfl | hgt
      . exact hfirst
      . exact hrest pos hgt (by omega)
    . intro hall
      exact ⟨(), hall start (le_refl _) (by omega), fun pos hle hlt => hall pos (by omega) (by omega)⟩

theorem getD_flatMap_bits (nonces : List UInt64) (hbit : bit < nonceBits)
    : (nonces.flatMap fun nonce => (List.range nonceBits).map fun bit => nonce.toNat.testBit bit).getD
          (n * nonceBits + bit) false
        =
      (nonces.getD n 0).toNat.testBit bit := by
  induction nonces generalizing n with
  | nil => simp
  | cons nonce nonces ih =>
    rw [List.flatMap_cons]
    cases n with
    | zero =>
      rw [List.getD_append _ _ _ _ (by simpa using hbit)]
      simp [List.getD_eq_getElem?_getD, hbit]
    | succ n =>
      rw [List.getD_append_right _ _ _ _ (by simp [Nat.succ_mul]; omega)]
      rw [List.length_map, List.length_range, show (n + 1) * nonceBits + bit - nonceBits = n * nonceBits + bit by
        rw [Nat.succ_mul]; omega]
      exact ih

theorem bit_packNonces
    (hn : n < Global.proofsize ct) (hbit : bit < edgeBits.toNat)
    : Bytes.bit (packNonces ct edgeBits nonces) (n * edgeBits.toNat + bit)
        =
      (nonces.getD n 0).toNat.testBit bit := by
  have hpos := mul_add_lt hbit hn
  rw [packNonces, Bytes.bit_packBits (by omega), getD_flatMap_bits nonces hbit]

theorem bit_packNonces_of_ge
    (hlength : nonces.length = Global.proofsize ct)
    (hge : edgeBits.toNat * Global.proofsize ct ≤ pos)
    (hlt : pos < 8 * ((edgeBits.toNat * Global.proofsize ct + 7) / 8))
    : Bytes.bit (packNonces ct edgeBits nonces) pos = false := by
  rw [packNonces, Bytes.bit_packBits hlt, List.getD_eq_default]
  rw [List.length_flatMap]
  simpa [hlength, Nat.mul_comm] using hge

theorem packNonces_nonceAt (hpos : 0 < edgeBits.toNat)
    (hle : edgeBits.toNat ≤ 64) (hlength : bits.length = (edgeBits.toNat * Global.proofsize ct + 7) / 8)
    (hpadding : ∀ pos, edgeBits.toNat * Global.proofsize ct ≤ pos → pos < 8 * bits.length
      → Bytes.bit bits pos = false)
    : packNonces ct edgeBits ((List.range (Global.proofsize ct)).map (nonceAt bits edgeBits.toNat))
        =
      bits := by
  symm
  apply Bytes.ext_bit (by rw [hlength, packNonces, Bytes.length_packBits])
  intro pos hlt
  rcases Nat.lt_or_ge pos (edgeBits.toNat * Global.proofsize ct) with hin | hout
  . have hn : pos / edgeBits.toNat < Global.proofsize ct := Nat.div_lt_of_lt_mul hin
    have hbit : pos % edgeBits.toNat < edgeBits.toNat := Nat.mod_lt _ hpos
    have hsplit : pos / edgeBits.toNat * edgeBits.toNat + pos % edgeBits.toNat = pos := Nat.div_add_mod' _ _
    rw [← hsplit, bit_packNonces hn hbit, List.getD_eq_getElem _ _ (by simpa using hn), List.getElem_map,
      List.getElem_range, testBit_nonceAt hle, decide_eq_true hbit, Bool.true_and]
  . rw [hpadding pos hout hlt, bit_packNonces_of_ge (by simp) hout (by omega)]

theorem nonceAt_packNonces
    (hle : edgeBits.toNat ≤ 64) (hlength : nonces.length = Global.proofsize ct)
    (hnonces : ∀ nonce ∈ nonces, nonce.toNat < 2 ^ edgeBits.toNat)
    : (List.range (Global.proofsize ct)).map (nonceAt (packNonces ct edgeBits nonces) edgeBits.toNat)
        =
      nonces := by
  apply List.ext_getElem (by simp [hlength])
  intro n hn hn'
  rw [List.getElem_map, List.getElem_range]
  apply UInt64.toNat_inj.mp
  apply Nat.eq_of_testBit_eq
  intro bit
  rw [testBit_nonceAt hle]
  rcases Nat.lt_or_ge bit edgeBits.toNat with hbit | hbit
  . rw [bit_packNonces (by omega) hbit, List.getD_eq_getElem _ _ hn', decide_eq_true hbit, Bool.true_and]
  . have hlt := hnonces _ (List.getElem_mem hn')
    have hpow : 2 ^ edgeBits.toNat ≤ 2 ^ bit := Nat.pow_le_pow_right (by omega) hbit
    rw [decide_eq_false (by omega), Bool.false_and, Nat.testBit_lt_two_pow (by omega)]

end

section

variable (env : Env) (kind : ReaderKind)

def Sized (p : Proof) : Prop :=
  match p with
  | .md5 proof _ => proof.toUTF8.toList.length < 2 ^ 64
  | _ => True

theorem reading_readCuckoo
    : Reading (readCuckoo env kind) fun p input =>
        p.Sized ∧ writeU8 0 ++ input = p.write env.chainType .full := by
  apply (reading_readU8 env kind).bind
  rintro edgeBits _ rfl
  apply Consumes.lift_bind
  intro _ hrange
  rw [Outcome.require_eq_ok, not_or, UInt8.not_lt, UInt8.le_iff_toNat_le] at hrange
  have hpos : 0 < edgeBits.toNat := Nat.pos_of_ne_zero fun h => hrange.1 (UInt8.toNat_inj.mp h)
  have hle : edgeBits.toNat ≤ 64 := hrange.2
  apply (reading_readFixedBytes env kind _).bind
  rintro _ bits ⟨rfl, hlength⟩
  apply Consumes.lift_bind
  intro nonces hnonces
  rw [unpackNonces_eq_ok hle (by omega), Outcome.ok.injEq] at hnonces
  apply Consumes.lift_bind
  intro _ hpadding
  rw [checkPadding_eq_ok (by omega)] at hpadding
  refine .pure ⟨trivial, ?_⟩
  rw [← hnonces, Proof.write, packNonces_nonceAt hpos hle hlength]
  . rfl
  . intro pos hge hlt
    exact hpadding pos hge (by omega)

theorem reading_readMD5
    : Reading (readMD5 env kind) fun p input =>
        p.Sized ∧ writeU8 1 ++ input = p.write env.chainType .full := by
  apply (reading_readU8 env kind).bind
  rintro edgeBits _ rfl
  have hbytes : Reading (readBytesLenPrefix env kind)
      fun l input => l.length < 2 ^ 64 ∧ input = writeBytes l := by
    apply (reading_readU64 env kind).bind
    rintro len _ rfl
    have hfixed (kind : ReaderKind) : Consumes Source.bytes ([] ++ writeU64 len)
        (readFixedBytes env kind len.toNat) fun l input => l.length < 2 ^ 64 ∧ input = writeBytes l := by
      apply (reading_readFixedBytes env kind _).after
      rintro _ l ⟨rfl, hlength⟩
      rw [writeBytes, hlength, UInt64.ofNat_toNat]
      exact ⟨len.toNat_lt, rfl⟩
    cases kind with
    | bin => exact hfixed .bin
    | streaming =>
      apply (reading_count env 8).bind
      rintro _ _ rfl
      rw [List.append_nil]
      exact hfixed .streaming
  apply hbytes.bind
  rintro l _ ⟨hsized, rfl⟩
  apply Consumes.lift_bind
  intro proof hproof
  rw [Outcome.unwrap_eq_ok] at hproof
  have hutf8 : proof.toUTF8.toList = l := by
    unfold String.fromUTF8? at hproof
    split at hproof
    . injection hproof with hproof
      rw [← hproof]
      exact Bytes.toList_byteArray l
    . contradiction
  refine .pure ⟨?_, ?_⟩
  . rw [← hutf8] at hsized
    exact hsized
  . rw [Proof.write, hutf8]
    rfl

theorem unwrapRead_eq_ok
    : unwrapRead x s = (.ok a, t) ↔ x s = (.ok a, t) := by
  unfold unwrapRead
  rcases x s with ⟨(_ | _ | _ | _), _⟩ <;> simp

theorem reading_readArray32
    : Reading (readArray32 env kind) fun v input => input = v.toList := by
  have h := reading_slice env kind 32
  intro s v t hv
  obtain ⟨l, r, hl, hslice⟩ := bind_eq_ok.mp hv
  exact h s v t (bind_eq_ok.mpr ⟨l, r, unwrapRead_eq_ok.mp hl, hslice⟩)

theorem decoding_readArray32 (v : Bytes32)
    : Decoding (readArray32 env kind) v.toList v := by
  have h := decoding_slice env kind (by omega) (by omega) v
  intro s rest hs hbytes
  obtain ⟨t, ht, hrest⟩ := h s rest hs hbytes
  obtain ⟨l, r, hl, hslice⟩ := bind_eq_ok.mp ht
  exact ⟨t, bind_eq_ok.mpr ⟨l, r, unwrapRead_eq_ok.mpr hl, hslice⟩, hrest⟩

theorem reading
    : Reading (Proof.read env kind) fun p input => p.Sized ∧ input = p.write env.chainType .full := by
  apply (reading_readU8 env kind).bind
  rintro powType _ rfl
  by_cases hcuckoo : powType = 0
  . rw [if_pos hcuckoo]
    apply (reading_readCuckoo env kind).after
    rintro p input ⟨hsized, hinput⟩
    rw [← hinput, hcuckoo]
    exact ⟨hsized, rfl⟩
  rw [if_neg hcuckoo]
  by_cases hmd5 : powType = 1
  . rw [if_pos hmd5]
    apply (reading_readMD5 env kind).after
    rintro p input ⟨hsized, hinput⟩
    rw [← hinput, hmd5]
    exact ⟨hsized, rfl⟩
  rw [if_neg hmd5]
  by_cases hrandomX : powType = 2
  . rw [if_pos hrandomX]
    apply ((reading_readArray32 env kind).map (R := fun p input => ∃ v, p = .randomX v ∧ input = v.toList)
      fun v input hinput => ⟨v, rfl, hinput⟩).after
    rintro _ _ ⟨v, rfl, rfl⟩
    rw [hrandomX]
    exact ⟨trivial, rfl⟩
  rw [if_neg hrandomX]
  by_cases hprogPow : powType = 3
  . rw [if_pos hprogPow]
    apply ((reading_readArray32 env kind).map (R := fun p input => ∃ v, p = .progPow v ∧ input = v.toList)
      fun v input hinput => ⟨v, rfl, hinput⟩).after
    rintro _ _ ⟨v, rfl, rfl⟩
    rw [hprogPow]
    exact ⟨trivial, rfl⟩
  . rw [if_neg hprogPow]
    intro s p t h
    simp at h

def Encodable (ct : ChainTypes) (p : Proof) : Prop :=
  match p with
  | .cuckoo edgeBits nonces =>
    1 ≤ edgeBits ∧ edgeBits ≤ 64 ∧ nonces.length = Global.proofsize ct
      ∧ ∀ nonce ∈ nonces, nonce.toNat < 2 ^ edgeBits.toNat
  | .md5 _ _ => False
  | .randomX _ => True
  | .progPow _ => True

theorem encodable_cuckoo {ct : ChainTypes} {edgeBits : UInt8} {nonces : List UInt64}
    (hbits : 1 ≤ edgeBits ∧ edgeBits ≤ 64) (hlength : nonces.length = Global.proofsize ct)
    (hall : nonces.all (·.toNat < 2 ^ edgeBits.toNat) = true)
    : Encodable ct (.cuckoo edgeBits nonces) :=
  ⟨hbits.1, hbits.2, hlength, by simpa using hall⟩

theorem proofsize_le (ct : ChainTypes)
    : 0 < Global.proofsize ct ∧ Global.proofsize ct ≤ 42 := by
  cases ct <;> decide

theorem decoding_readCuckoo {edgeBits : UInt8} {nonces : List UInt64}
    (h : Encodable env.chainType (.cuckoo edgeBits nonces))
    : Decoding (readCuckoo env kind) (writeU8 edgeBits ++ packNonces env.chainType edgeBits nonces)
        (.cuckoo edgeBits nonces) := by
  obtain ⟨hpos, hle, hlength, hnonces⟩ := h
  rw [UInt8.le_iff_toNat_le] at hpos hle
  have hsize := proofsize_le env.chainType
  have hone : 0 < edgeBits.toNat := hpos
  have hmax : edgeBits.toNat ≤ 64 := hle
  have hbits : 0 < edgeBits.toNat * Global.proofsize env.chainType := Nat.mul_pos hone hsize.1
  have hbound : edgeBits.toNat * Global.proofsize env.chainType ≤ 64 * 42 := Nat.mul_le_mul hmax hsize.2
  have hpacked : (packNonces env.chainType edgeBits nonces).length
      = (edgeBits.toNat * Global.proofsize env.chainType + 7) / 8 := by rw [packNonces, Bytes.length_packBits]
  have hread := decoding_readFixedBytes env kind (l := packNonces env.chainType edgeBits nonces) (by omega)
    (by omega)
  rw [hpacked] at hread
  apply (decoding_readU8 env kind edgeBits).bind
  refine .lift_bind (c := ()) ?_ ?_
  . rw [Outcome.require_eq_ok, not_or, UInt8.not_lt, UInt8.le_iff_toNat_le]
    refine ⟨?_, hle⟩
    rintro rfl
    contradiction
  rw [← List.append_nil (packNonces env.chainType edgeBits nonces)]
  apply hread.bind
  refine .lift_bind (unpackNonces_eq_ok hmax (by omega)) (.lift_bind (c := ()) ?_ ?_)
  . rw [checkPadding_eq_ok (by omega)]
    intro pos hge hlt
    exact bit_packNonces_of_ge hlength hge (by omega)
  . rw [nonceAt_packNonces hmax hlength hnonces]
    exact .pure

theorem decoding (h : p.Encodable env.chainType)
    : Decoding (Proof.read env kind) (p.write env.chainType .full) p := by
  cases p with
  | cuckoo edgeBits nonces =>
    rw [Proof.write, List.append_assoc]
    exact (decoding_readU8 env kind 0).bind (decoding_readCuckoo env kind h)
  | md5 proof edgeBits => exact h.elim
  | randomX v =>
    exact (decoding_readU8 env kind 2).bind ((decoding_readArray32 env kind v).map randomX)
  | progPow v =>
    exact (decoding_readU8 env kind 3).bind ((decoding_readArray32 env kind v).map progPow)

end

end Proof

end Epic
