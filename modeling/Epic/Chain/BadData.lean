import Epic.Chain.Rejected

/-!
This module contains what a caller of `process_block` learns about a refused block: never that the block
itself is wrong, whatever the pipeline found.
-/

namespace Epic
namespace Chain

section

variable {env : Env} {clock : Clock} {c c' : Chain} {b : Block} {opts : Options} {e : ErrorKind}

theorem rejectBlock_isBadData (c : Chain)
    : ∃ e', (c.rejectBlock env clock b opts e).1 = .err e' ∧ e'.isBadData = false := by
  unfold rejectBlock
  split <;> exact ⟨_, rfl, rfl⟩

theorem isBadData_processBlock_iff {head : Tip} (hhead : c.store.batch.head = .ok head)
    (h : (Pipe.processBlock env (c.newCtx clock opts) c.orphans b c.state).1 = .err e)
    : ∃ e', (c.processBlock env clock b opts).1 = .err e'
        ∧
      ((e'.isBadData = true ↔ e.isBadData = true) ↔ e.isBadData = false) := by
  obtain ⟨st, hst⟩ : ∃ st, Pipe.processBlock env (c.newCtx clock opts) c.orphans b c.state = (.err e, st) :=
    ⟨_, Prod.ext h rfl⟩
  have hsingle : c.processBlockSingle env clock b opts = rejectBlock env clock (c.drop st) b opts e := by
    unfold processBlockSingle
    rw [hhead, hst]
  obtain ⟨e', he', hgood⟩ : ∃ e', ((c.drop st).rejectBlock env clock b opts e).1 = .err e'
      ∧ e'.isBadData = false := rejectBlock_isBadData (c.drop st)
  refine ⟨e', ?_, by simp [hgood]⟩
  rw [← hsingle] at he'
  exact congrArg Prod.fst (processBlock_eq_err.mpr (Prod.ext he' rfl))

end

open Sample in
theorem isBadData_processBlock_stray
    : ∃ e', (start.processBlock env clock (stray 0) .none).1 = .err e'
        ∧
      ((e'.isBadData = true ↔ ErrorKind.orphan.isBadData = true) ↔ ErrorKind.orphan.isBadData = false) :=
  isBadData_processBlock_iff (Outcome.okOr_eq_ok.mpr (Option.eq_some_of_isSome (by decide)))
    (by decide)

open Sample in
theorem wrong_root_blames_nobody
    : (Pipe.processBlock env (start.newCtx clock .none) start.orphans wrongRoot start.state).1
          = .err .invalidRoot
        ∧ ErrorKind.invalidRoot.isBadData = true
        ∧ (start.processBlock env clock wrongRoot .none).1 = .err (.other .invalidRoot)
        ∧ (ErrorKind.other .invalidRoot).isBadData = false := by
  decide +kernel

end Chain
end Epic
