import Epic.Core.Ser.Total

/-!
This module contains the implementations of `Readable` as programs that call a reader, and when the two
readers answer a program alike. What the calls are to read is said by a decoder without limits.
-/

namespace Epic

open Routine Ser

namespace Ser

inductive Call : Type → Type where
  | u8 : Call UInt8
  | u16 : Call UInt16
  | u32 : Call UInt32
  | i32 : Call Int32
  | u64 : Call UInt64
  | i64 : Call Int64
  | bytesLenPrefix : Call (List UInt8)
  | fixedBytes (len : UInt64) : Call (List UInt8)
  | expectU8 (val : UInt8) : Call UInt8

-- what is read decides on the calls that follow, a call that fails ends the program
inductive Program (α : Type) : Type 1 where
  | ret (res : Outcome SerError α)
  | call {β : Type} (c : Call β) (next : β → Program α)

namespace Call

variable {α : Type}

def run (env : Env) (kind : ReaderKind) (c : Call α) : Read α :=
  match c with
  | u8 => readU8 env kind
  | u16 => readU16 env kind
  | u32 => readU32 env kind
  | i32 => readI32 env kind
  | u64 => readU64 env kind
  | i64 => readI64 env kind
  | bytesLenPrefix => readBytesLenPrefix env kind
  | fixedBytes len => readFixedBytes env kind len.toNat
  | expectU8 val => Ser.expectU8 env kind val

def decodeBytes (n : Nat) (bytes : List UInt8) : Option (List UInt8 × List UInt8) :=
  if n ≤ bytes.length then some (bytes.take n, bytes.drop n) else none

def decodeInt (n : Nat) (ofNat : Nat → α) (bytes : List UInt8) : Option (α × List UInt8) := do
  let (l, rest) ← decodeBytes n bytes
  return (ofNat (Bytes.ofBE l), rest)

def decode (c : Call α) (bytes : List UInt8) : Option (α × List UInt8) :=
  match c with
  | u8 => decodeInt 1 UInt8.ofNat bytes
  | u16 => decodeInt 2 UInt16.ofNat bytes
  | u32 => decodeInt 4 UInt32.ofNat bytes
  | i32 => decodeInt 4 Int32.ofNat bytes
  | u64 => decodeInt 8 UInt64.ofNat bytes
  | i64 => decodeInt 8 Int64.ofNat bytes
  | bytesLenPrefix => do
    let (len, rest) ← decodeInt 8 UInt64.ofNat bytes
    decodeBytes len.toNat rest
  | fixedBytes len => decodeBytes len.toNat bytes
  | expectU8 val => do
    let (b, rest) ← decodeInt 1 UInt8.ofNat bytes
    if b = val then some (b, rest) else none

-- the length of the vector that a call asks for
def requested (c : Call α) (bytes : List UInt8) : Option Nat :=
  match c with
  | bytesLenPrefix => (decodeInt 8 UInt64.ofNat bytes).map (·.1.toNat)
  | fixedBytes len => some len.toNat
  | _ => none

def Allows (kind : ReaderKind) (n : Nat) : Prop :=
  match kind with
  | .bin => n ≤ 100000
  | .streaming => n ≠ 0

end Call

namespace Program

variable {α : Type}

def run (env : Env) (kind : ReaderKind) (p : Program α) : Read α :=
  match p with
  | ret res => .lift res
  | call c next => do
    let b ← c.run env kind
    (next b).run env kind

-- the values that are read, up to the first call that fails
def trace (env : Env) (kind : ReaderKind) (p : Program α) (s : Source) : List (Option (Σ β : Type, β)) :=
  match p with
  | ret _ => []
  | call c next =>
    match c.run env kind s with
    | (.ok b, s) => some ⟨_, b⟩ :: (next b).trace env kind s
    | _ => [none]

-- a vector that can be read is neither empty nor larger than 100000 bytes
def Moderate (p : Program α) (bytes : List UInt8) : Prop :=
  match p with
  | ret _ => True
  | call c next =>
    ∀ b rest, c.decode bytes = some (b, rest) →
      (∀ n ∈ c.requested bytes, 1 ≤ n ∧ n ≤ 100000) ∧ (next b).Moderate rest

end Program

/-!
Each reader decodes a call, unless it asks for a length that the reader does not take.
-/

namespace Call

section

variable {α β : Type} {x : Read α} {d : List UInt8 → Option (α × List UInt8)} {A : List UInt8 → Prop}

structure Follows (x : Read α) (d : List UInt8 → Option (α × List UInt8)) (A : List UInt8 → Prop)
    : Prop where
  decodes : ∀ s b rest, s.Fits → d s.bytes = some (b, rest) → A s.bytes →
    ∃ t, x s = (.ok b, t) ∧ t.bytes = rest ∧ t.Fits
  fails : ∀ s, s.Fits → d s.bytes = none ∨ ¬ A s.bytes → ∀ b t, x s ≠ (.ok b, t)

namespace Follows

theorem of_reads {n : Nat} {v : List UInt8 → α} (h : Reads x n v)
    : Follows x (fun bytes => (decodeBytes n bytes).map fun r => (v r.1, r.2)) fun _ => True where
  decodes := by
    intro s b rest hs hd _
    rw [Option.map_eq_some_iff] at hd
    obtain ⟨⟨l, rest'⟩, hd, heq⟩ := hd
    unfold decodeBytes at hd
    split at hd
    . next hle =>
      cases hd
      cases heq
      exact (h s hs).1 hle
    . contradiction
  fails := by
    rintro s hs (hd | hA) b t hx
    . rw [Option.map_eq_none_iff, decodeBytes, ite_eq_right_iff] at hd
      have hlt : s.bytes.length < n := by
        by_contra hle
        exact Option.some_ne_none _ (hd (Nat.le_of_not_lt hle))
      obtain ⟨e, he⟩ := (h s hs).2 hlt
      rw [he] at hx
      injection hx with hx
      contradiction
    . exact hA trivial

theorem of_fails (h : ∀ s, s.Fits → ∀ b t, x s ≠ (.ok b, t))
    : Follows x d fun _ => False where
  decodes _ _ _ _ _ hA := hA.elim
  fails s hs _ := h s hs

theorem congr (h : Follows x d A) (hA : ∀ bytes, A bytes ↔ A' bytes)
    : Follows x d A' := by
  obtain rfl : A = A' := funext fun bytes => propext (hA bytes)
  exact h

theorem bind {f : α → Read β} {d' : α → List UInt8 → Option (β × List UInt8)}
    {A' : α → List UInt8 → Prop} (hx : Follows x d fun _ => True) (hf : ∀ a, Follows (f a) (d' a) (A' a))
    : Follows (x >>= f) (fun bytes => d bytes >>= fun r => d' r.1 r.2) fun bytes =>
        ∀ r ∈ d bytes, A' r.1 r.2 where
  decodes := by
    intro s b rest hs hd hA
    obtain ⟨⟨a, mid⟩, ha, hb⟩ := Option.bind_eq_some_iff.mp hd
    obtain ⟨r, hr, rfl, hfits⟩ := hx.decodes s a mid hs ha trivial
    obtain ⟨t, ht, hrest⟩ := (hf a).decodes r b rest hfits hb (hA _ ha)
    exact ⟨t, bind_eq_ok.mpr ⟨a, r, hr, ht⟩, hrest⟩
  fails := by
    intro s hs hd b t h
    obtain ⟨a, r, ha, hb⟩ := bind_eq_ok.mp h
    rcases hfirst : d s.bytes with _ | ⟨a', mid⟩
    . exact hx.fails s hs (.inl hfirst) a r ha
    . obtain ⟨r', hr', rfl, hfits⟩ := hx.decodes s a' mid hs hfirst trivial
      rw [ha, Prod.mk.injEq, Outcome.ok.injEq] at hr'
      obtain ⟨rfl, rfl⟩ := hr'
      refine (hf a).fails r hfits ?_ b t hb
      rw [hfirst] at hd
      refine hd.imp id ?_
      intro hA hA'
      apply hA
      intro r' hr'
      cases hr'
      exact hA'

end Follows

end

section

variable (env : Env) (kind : ReaderKind)

theorem follows_readFixedBytes (n : Nat)
    : Follows (readFixedBytes env kind n) (decodeBytes n) fun _ => Allows kind n := by
  have hfollows (h : Reads (readFixedBytes env kind n) n id) (hallows : Allows kind n)
      : Follows (readFixedBytes env kind n) (decodeBytes n) fun _ => Allows kind n := by
    have := Follows.of_reads h
    simp only [id_eq, Prod.mk.eta, Option.map_id_fun'] at this
    exact this.congr fun _ => iff_of_true trivial hallows
  have hrefuses (hnot : ¬ Allows kind n) (h : ∀ s : Source, s.Fits → ∀ b t,
      readFixedBytes env kind n s ≠ (.ok b, t))
      : Follows (readFixedBytes env kind n) (decodeBytes n) fun _ => Allows kind n :=
    (Follows.of_fails h).congr fun _ => (iff_false_intro hnot).symm
  cases kind with
  | bin =>
    rcases Nat.lt_or_ge 100000 n with hlarge | hle
    . refine hrefuses (Nat.not_le_of_lt hlarge) fun s _ b t h => ?_
      obtain ⟨_, hrequire, -⟩ := lift_bind_eq_ok.mp h
      exact Outcome.require_eq_ok.mp hrequire hlarge
    . exact hfollows (reads_readFixedBytes_bin env hle) hle
  | streaming =>
    rcases Nat.eq_zero_or_pos n with rfl | hpos
    . refine hrefuses (fun hne => hne rfl) fun s _ b t h => ?_
      rw [readFixedBytes_streaming_zero] at h
      injection h with h
      contradiction
    . rcases Nat.lt_or_ge isizeMax n with hlarge | hle
      . -- there are not that many bytes
        refine ⟨fun s b rest hs hd _ => ?_, fun s _ _ b t h => ?_⟩
        . unfold decodeBytes at hd
          unfold Source.Fits at hs
          unfold isizeMax at hlarge
          rw [if_neg (by omega)] at hd
          contradiction
        . have hpanic := bind_of_panic (f := fun _ : Unit => do
            .lift (.require (n ≠ 0) SerError.connectionAborted)
            let buf ← takeBytes n .connectionAborted
            count env (UInt64.ofNat n)
            return buf) (withCapacity_of_lt n 1 (by omega) s)
          have hboth := h.symm.trans hpanic
          injection hboth with hboth
          contradiction
      . exact hfollows (reads_readFixedBytes_streaming env hpos hle) hpos.ne'

theorem follows_readInt {α : Type} {x : Read α} {n : Nat} {ofNat : Nat → α}
    (h : Reads x n (ofNat ∘ Bytes.ofBE))
    : Follows x (decodeInt n ofNat) fun _ => True := by
  have hdecode : decodeInt n ofNat
      = fun bytes => (decodeBytes n bytes).map fun r => ((ofNat ∘ Bytes.ofBE) r.1, r.2) := by
    funext bytes
    unfold decodeInt
    cases decodeBytes n bytes <;> rfl
  rw [hdecode]
  exact .of_reads h

theorem follows_readBytesLenPrefix
    : Follows (readBytesLenPrefix env kind) bytesLenPrefix.decode fun bytes =>
        ∀ n ∈ bytesLenPrefix.requested bytes, Allows kind n := by
  have hlen : Follows (readBytesLenPrefix env kind) bytesLenPrefix.decode fun bytes =>
      ∀ r ∈ decodeInt 8 UInt64.ofNat bytes, Allows kind r.1.toNat := by
    cases kind with
    | bin =>
      exact (follows_readInt (reads_readU64 env .bin)).bind fun len => follows_readFixedBytes env .bin _
    | streaming =>
      rw [Proof.readBytesLenPrefix_streaming]
      exact (follows_readInt (Proof.reads_readLen env)).bind fun len =>
        follows_readFixedBytes env .streaming _
  apply hlen.congr
  intro bytes
  simp only [requested, Option.mem_def, Option.map_eq_some_iff]
  exact ⟨by rintro h _ ⟨r, hr, rfl⟩; exact h r hr, fun h r hr => h _ ⟨r, hr, rfl⟩⟩

theorem follows_expectU8 (val : UInt8)
    : Follows (Ser.expectU8 env kind val) (expectU8 val).decode fun _ => True := by
  have hcheck (b : UInt8) : Follows
      (Routine.lift (.require (b = val) (.unexpectedData [val] [b])) >>= fun _ => pure b)
      (fun rest => if b = val then some (b, rest) else none) fun _ => True := by
    refine ⟨fun s c rest hs hd _ => ?_, fun s hs hd c t h => ?_⟩
    . split at hd
      . next heq =>
        cases hd
        exact ⟨s, lift_bind_eq_ok.mpr ⟨(), Outcome.require_eq_ok.mpr heq, rfl⟩, rfl, hs⟩
      . contradiction
    . obtain ⟨_, hrequire, -⟩ := lift_bind_eq_ok.mp h
      rw [if_pos (Outcome.require_eq_ok.mp hrequire)] at hd
      simp at hd
  exact ((follows_readInt (reads_readU8 env kind)).bind hcheck).congr (by simp)

theorem follows_run (c : Call α)
    : Follows (c.run env kind) c.decode fun bytes => ∀ n ∈ c.requested bytes, Allows kind n := by
  have hnone {α : Type} {x : Read α} {d : List UInt8 → Option (α × List UInt8)}
      (h : Follows x d fun _ => True) : Follows x d fun _ => ∀ n ∈ (none : Option Nat), Allows kind n :=
    h.congr (by simp)
  cases c with
  | u8 => exact hnone (follows_readInt (reads_readU8 env kind))
  | u16 => exact hnone (follows_readInt (reads_readU16 env kind))
  | u32 => exact hnone (follows_readInt (reads_readU32 env kind))
  | i32 => exact hnone (follows_readInt ((reads_readInt env kind (by omega) (by omega)).map _))
  | u64 => exact hnone (follows_readInt (reads_readU64 env kind))
  | i64 => exact hnone (follows_readInt (reads_readI64 env kind))
  | bytesLenPrefix => exact follows_readBytesLenPrefix env kind
  | fixedBytes len => exact (follows_readFixedBytes env kind _).congr (by simp [requested])
  | expectU8 val => exact hnone (follows_expectU8 env kind val)

end

end Call

namespace Program

variable {α : Type} {env : Env}

theorem trace_of_ok {c : Call β} (h : c.run env kind s = (.ok b, t))
    : (call c next).trace env kind s = some ⟨β, b⟩ :: (next b).trace env kind t := by
  rw [trace, h]

theorem trace_of_fails {kind : ReaderKind} {β : Type} {c : Call β} {next : β → Program α} {s : Source}
    (h : ∀ b t, c.run env kind s ≠ (.ok b, t))
    : (call c next).trace env kind s = [none] := by
  rw [trace]
  split
  . next heq => exact absurd heq (h _ _)
  . rfl

theorem moderate_of_decode {β : Type} {c : Call β} {next : β → Program α} {bytes rest : List UInt8} {b : β}
    (h : c.decode bytes = some (b, rest))
    : (call c next).Moderate bytes
        ↔
      (∀ n ∈ c.requested bytes, 1 ≤ n ∧ n ≤ 100000) ∧ (next b).Moderate rest := by
  rw [Moderate]
  constructor
  . exact fun hall => hall b rest h
  . intro hone b' rest' h'
    rw [h, Option.some.injEq, Prod.mk.injEq] at h'
    obtain ⟨rfl, rfl⟩ := h'
    exact hone

theorem trace_eq_iff_moderate (p : Program α) {s t : Source} (hs : s.Fits) (ht : t.Fits)
    (hbytes : s.bytes = t.bytes)
    : p.trace env .bin s = p.trace env .streaming t ↔ p.Moderate s.bytes := by
  induction p generalizing s t with
  | ret res => exact iff_of_true rfl trivial
  | call c next ih =>
    have hbin := Call.follows_run env .bin c
    have hstreaming := Call.follows_run env .streaming c
    rcases hdecode : c.decode s.bytes with _ | ⟨b, rest⟩
    . rw [trace_of_fails (hbin.fails s hs (.inl hdecode)),
        trace_of_fails (hstreaming.fails t ht (.inl (hbytes ▸ hdecode)))]
      refine iff_of_true rfl ?_
      intro b rest h
      rw [hdecode] at h
      contradiction
    . rw [moderate_of_decode hdecode]
      by_cases hsmall : ∀ n ∈ c.requested s.bytes, Call.Allows .bin n
      . obtain ⟨s', hrun, hrest, hs'⟩ := hbin.decodes s b rest hs hdecode hsmall
        rw [trace_of_ok hrun]
        by_cases hsome : ∀ n ∈ c.requested s.bytes, Call.Allows .streaming n
        . obtain ⟨t', hrun', hrest', ht'⟩ := hstreaming.decodes t b rest ht (hbytes ▸ hdecode)
            (hbytes ▸ hsome)
          rw [trace_of_ok hrun', List.cons.injEq, ih b hs' ht' (hrest.trans hrest'.symm), hrest]
          exact and_congr_left fun _ => iff_of_true rfl fun n hn =>
            ⟨Nat.pos_of_ne_zero (hsome n hn), hsmall n hn⟩
        . rw [trace_of_fails (hstreaming.fails t ht (.inr (hbytes ▸ hsome)))]
          refine iff_of_false (by simp) fun hmoderate => hsome fun n hn => ?_
          exact Nat.pos_iff_ne_zero.mp (hmoderate.1 n hn).1
      . rw [trace_of_fails (hbin.fails s hs (.inr hsmall))]
        refine iff_of_false ?_ fun hmoderate => hsmall fun n hn => (hmoderate.1 n hn).2
        -- a vector that is too large is not empty
        have hsome : ∀ n ∈ c.requested t.bytes, Call.Allows .streaming n := by
          rintro n hn rfl
          rw [← hbytes] at hn
          apply hsmall
          intro m hm
          rw [Option.mem_unique hm hn]
          exact Nat.zero_le _
        obtain ⟨t', hrun', -⟩ := hstreaming.decodes t b rest ht (hbytes ▸ hdecode) hsome
        rw [trace_of_ok hrun']
        simp

theorem readers_agree_iff_moderate (p : Program α) {bytes : List UInt8} (hlength : bytes.length ≤ isizeMax)
    : p.trace env .bin ⟨bytes, 0⟩ = p.trace env .streaming ⟨bytes, 0⟩ ↔ p.Moderate bytes := by
  have hfits : Source.Fits ⟨bytes, 0⟩ := by
    unfold Source.Fits
    unfold isizeMax at hlength
    simp
    omega
  exact trace_eq_iff_moderate p hfits hfits rfl

end Program

end Ser

open Ser

def RangeProof.program : Program RangeProof :=
  .call .u64 fun len => .call (.fixedBytes (UInt64.ofNat (min len.toNat maxProofSize))) fun p =>
    .ret (ofBytes p)

theorem RangeProof.read_eq_run (env : Env) (kind : ReaderKind)
    : RangeProof.read env kind = RangeProof.program.run env kind := by
  have hle (len : UInt64) : (UInt64.ofNat (min len.toNat maxProofSize)).toNat
      = min len.toNat maxProofSize :=
    UInt64.toNat_ofNat_of_lt' (by unfold maxProofSize UInt64.size; omega)
  unfold RangeProof.read
  simp only [program, Program.run, Call.run, hle]

theorem Ser.Program.readers_agree_iff_moderate_one
    : RangeProof.program.trace (Transparent.env .mainnet) .bin ⟨[0, 0, 0, 0, 0, 0, 0, 1, 7], 0⟩
        =
      RangeProof.program.trace (Transparent.env .mainnet) .streaming ⟨[0, 0, 0, 0, 0, 0, 0, 1, 7], 0⟩ := by
  apply (readers_agree_iff_moderate RangeProof.program (by decide)).mpr
  apply (moderate_of_decode rfl).mpr
  refine ⟨nofun, (moderate_of_decode rfl).mpr ⟨?_, trivial⟩⟩
  rintro n hn
  cases hn
  decide

-- a stream that is asked for no bytes looks closed
theorem RangeProof.readers_differ_on_empty_proof
    : RangeProof.program.trace (Transparent.env .mainnet) .bin ⟨List.replicate 8 0, 0⟩
        ≠
      RangeProof.program.trace (Transparent.env .mainnet) .streaming ⟨List.replicate 8 0, 0⟩
        ∧
      (RangeProof.read (Transparent.env .mainnet) .bin ⟨List.replicate 8 0, 0⟩).1.isOk = true
        ∧
      (RangeProof.read (Transparent.env .mainnet) .streaming ⟨List.replicate 8 0, 0⟩).1
        =
      .err .connectionAborted := by
  have hbin : RangeProof.program.trace (Transparent.env .mainnet) .bin ⟨List.replicate 8 0, 0⟩
      = [some ⟨UInt64, 0⟩, some ⟨List UInt8, []⟩] := rfl
  have hstreaming : RangeProof.program.trace (Transparent.env .mainnet) .streaming ⟨List.replicate 8 0, 0⟩
      = [some ⟨UInt64, 0⟩, none] := rfl
  rw [hbin, hstreaming]
  exact ⟨by simp, rfl, rfl⟩

end Epic
