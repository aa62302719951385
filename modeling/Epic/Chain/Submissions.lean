import Epic.Chain.Run

/-!
This module contains runs of blocks that are submitted to a chain, and the single blocks that a call to
`process_block` processes: the block itself and the orphans that it brings in.
-/

namespace Epic
namespace Chain

open Routine

variable {env : Env} {c c' : Chain}

structure Submission where
  clock : Clock
  block : Block
  opts : Options

def submit (env : Env) (c : Chain) (s : Submission) : Outcome ErrorKind (Option Tip) × Chain :=
  c.processBlockSingle env s.clock s.block s.opts

-- a run goes on after every call that returns, also with an error
def submitAll (env : Env) (c : Chain) (submissions : List Submission) : Option Chain :=
  match submissions with
  | [] => some c
  | s :: submissions =>
    if (c.submit env s).1.Returns then submitAll env (c.submit env s).2 submissions else none

theorem submitAll_invariant {P : Nat → Chain → Prop} {n : Nat} {submissions : List Submission}
    (hstep : ∀ s m c, m < n + submissions.length → P m c → (c.submit env s).1.Returns →
      P (m + 1) (c.submit env s).2)
    (hc : P n c) (h : c.submitAll env submissions = some c')
    : P (n + submissions.length) c' := by
  induction submissions generalizing c n with
  | nil =>
    simp only [submitAll, Option.some.injEq] at h
    rw [← h]
    exact hc
  | cons s submissions ih =>
    rw [List.length_cons] at hstep ⊢
    unfold submitAll at h
    split at h
    . next hreturns =>
      have hnext := hstep s n c (by omega) hc hreturns
      have hrest := ih (fun s m c hm => hstep s m c (by omega)) hnext h
      rw [show n + (submissions.length + 1) = n + 1 + submissions.length by omega]
      exact hrest
    . contradiction

/-!
The states and blocks with which `process_block` calls `process_block_single`.
-/

def orphanSingles (env : Env) (clock : Clock) (orphans : List Orphan) (c : Chain)
    : List (Chain × Block) :=
  match orphans with
  | [] => []
  | orphan :: orphans =>
    (c, orphan.block)
      :: orphanSingles env clock orphans
          (c.processBlockSingle env clock orphan.block orphan.opts).2

def checkSingles (env : Env) (clock : Clock) (fuel : Nat) (height : UInt64) (c : Chain)
    : List (Chain × Block) :=
  match fuel with
  | 0 => []
  | fuel + 1 =>
    match takeOrphans height c with
    | (.ok orphans, c) =>
      orphanSingles env clock orphans c
        ++
      match processOrphans env clock orphans none c with
      | (.ok (some height), c) => checkSingles env clock fuel (height + 1) c
      | _ => []
    | _ => []

def singles (env : Env) (clock : Clock) (c : Chain) (b : Block) (opts : Options)
    : List (Chain × Block) :=
  (c, b)
    :: match c.processBlockSingle env clock b opts with
      | (.ok _, c) => checkSingles env clock (c.orphans.len + 1) (b.header.height + 1) c
      | _ => []

section

variable {P : Chain → Prop}

-- a call to process_block_single in one of these states keeps the invariant
def KeptBy (env : Env) (clock : Clock) (P : Chain → Prop) (calls : List (Chain × Block)) : Prop :=
  ∀ c b opts, (c, b) ∈ calls → P c → (c.processBlockSingle env clock b opts).1.Returns →
    P (c.processBlockSingle env clock b opts).2

theorem processOrphans_invariant {clock : Clock} {orphans : List Orphan}
    {accepted accepted' : Option UInt64} (hkept : KeptBy env clock P (orphanSingles env clock orphans c))
    (hc : P c) (h : processOrphans env clock orphans accepted c = (.ok accepted', c'))
    : P c' := by
  induction orphans generalizing c accepted with
  | nil =>
    simp only [processOrphans, pure_apply, Prod.mk.injEq] at h
    rw [← h.2]
    exact hc
  | cons orphan orphans ih =>
    have hstep := hkept c orphan.block orphan.opts List.mem_cons_self hc
    have hrest : KeptBy env clock P (orphanSingles env clock orphans
        (c.processBlockSingle env clock orphan.block orphan.opts).2) :=
      fun c b opts hmem => hkept c b opts (List.mem_cons_of_mem _ hmem)
    unfold processOrphans at h
    split at h
    . next hres =>
      rw [hres] at hstep hrest
      exact ih hrest (hstep trivial) h
    . next hres =>
      rw [hres] at hstep hrest
      exact ih hrest (hstep trivial) h
    . simp at h
    . simp at h

theorem checkOrphans_invariant {clock : Clock} {fuel : Nat} {height : UInt64} {u : Unit}
    (horphans : ∀ c pool, P c → P { c with orphans := pool })
    (hkept : KeptBy env clock P (checkSingles env clock fuel height c)) (hc : P c)
    (h : checkOrphans env clock fuel height c = (.ok u, c'))
    : P c' := by
  induction fuel generalizing c height with
  | zero => simp [checkOrphans] at h
  | succ fuel ih =>
    obtain ⟨orphans, c₁, htake, h⟩ := bind_eq_ok.mp h
    obtain ⟨accepted, c₂, hprocess, h⟩ := bind_eq_ok.mp h
    unfold checkSingles at hkept
    rw [htake] at hkept
    dsimp only at hkept
    rw [hprocess] at hkept
    have hc₁ : P c₁ := by
      simp only [takeOrphans, Prod.mk.injEq] at htake
      rw [← htake.2]
      exact horphans c _ hc
    have hc₂ := processOrphans_invariant
      (fun c b opts hmem => hkept c b opts (List.mem_append_left _ hmem)) hc₁ hprocess
    cases accepted with
    | some height =>
      dsimp only at h hkept
      obtain ⟨next, c₃, hnext, h⟩ := bind_eq_ok.mp h
      rw [lift_eq_ok] at hnext
      obtain ⟨hnext, rfl⟩ := hnext
      obtain rfl := MachineInt.eq_add_of_add hnext
      exact ih (fun c b opts hmem => hkept c b opts (List.mem_append_right _ hmem)) hc₂ h
    | none =>
      simp only [pure_apply, Prod.mk.injEq] at h
      rw [← h.2]
      exact hc₂

theorem processBlock_invariant {clock : Clock} {b : Block} {opts : Options}
    (horphans : ∀ c pool, P c → P { c with orphans := pool })
    (hkept : KeptBy env clock P (singles env clock c b opts)) (hc : P c)
    (hreturns : (c.processBlock env clock b opts).1.Returns)
    : P (c.processBlock env clock b opts).2 := by
  have hstep := hkept c b opts List.mem_cons_self hc
  unfold singles at hkept
  unfold processBlock at hreturns ⊢
  rcases hres : c.processBlockSingle env clock b opts with ⟨(head | e | _ | _), c₁⟩ <;>
    rw [hres] at hkept hstep hreturns
  . dsimp only at hreturns ⊢
    rcases hcheck : (checkOrphansAfter env clock b.header.height >>= fun _ => pure head) c₁
      with ⟨(head' | e | _ | _), c₂⟩ <;> rw [hcheck] at hreturns
    . obtain ⟨⟨⟩, c₃, hafter, hpure⟩ := bind_eq_ok.mp hcheck
      simp only [pure_apply, Prod.mk.injEq] at hpure
      obtain ⟨next, c₄, hnext, hafter⟩ := bind_eq_ok.mp hafter
      rw [lift_eq_ok] at hnext
      obtain ⟨hnext, rfl⟩ := hnext
      obtain rfl := MachineInt.eq_add_of_add hnext
      obtain ⟨len, c₄, hlen, hafter⟩ := bind_eq_ok.mp hafter
      rw [gets_eq_ok] at hlen
      obtain ⟨rfl, rfl⟩ := hlen
      rw [← hpure.2]
      exact checkOrphans_invariant horphans
        (fun c b opts hmem => hkept c b opts (List.mem_cons_of_mem _ hmem)) (hstep trivial) hafter
    . have havoids := avoids_checkOrphansAfter env clock b.header.height e
      exact ((havoids.bind fun _ => .pure _).elim hcheck).elim
    . contradiction
    . contradiction
  . exact hstep trivial
  . contradiction
  . contradiction

end

-- a run of calls to process_block in which every single block meets a condition in the state it finds
inductive ProcessRun (env : Env) (Q : Chain → Block → Prop) (start : Chain) : Chain → Prop where
  | start : ProcessRun env Q start start
  | call {c : Chain} (clock : Clock) (b : Block) (opts : Options) (hrun : ProcessRun env Q start c)
    (hmeets : ∀ c₁ b₁, (c₁, b₁) ∈ singles env clock c b opts → Q c₁ b₁)
    (hreturns : (c.processBlock env clock b opts).1.Returns)
    : ProcessRun env Q start (c.processBlock env clock b opts).2

theorem ProcessRun.invariant {P : Chain → Prop} {Q : Chain → Block → Prop}
    (horphans : ∀ c pool, P c → P { c with orphans := pool })
    (hstep : ∀ clock c b opts, Q c b → P c → (c.processBlockSingle env clock b opts).1.Returns →
      P (c.processBlockSingle env clock b opts).2)
    (hc : P c) (h : ProcessRun env Q c c')
    : P c' := by
  induction h with
  | start => exact hc
  | call clock b opts _ hmeets hreturns ih =>
    apply processBlock_invariant horphans _ ih hreturns
    intro c₁ b₁ opts₁ hmem
    exact hstep clock c₁ b₁ opts₁ (hmeets c₁ b₁ hmem)

end Chain
end Epic
