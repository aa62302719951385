import Mathlib.Init

/-!
This module contains the result type of the embedded functions: a computation returns a value,
returns an error of the source's own error type, panics, or never returns.
-/

/--
What running a piece of Rust code can end in. `panic` covers explicit panics, failed `unwrap` and
`expect` calls, indices out of range and arithmetic that overflows in a build that checks for it.
`hang` is a loop that does not terminate.
-/
inductive Outcome (ε : Type) (α : Type) where
  | ok (a : α)
  | err (e : ε)
  | panic
  | hang
deriving DecidableEq, Repr

namespace Outcome

variable {ε ε' α β γ : Type}

protected def bind (x : Outcome ε α) (f : α → Outcome ε β) : Outcome ε β :=
  match x with
  | ok a => f a
  | err e => err e
  | panic => panic
  | hang => hang

instance : Monad (Outcome ε) where
  pure := ok
  bind := Outcome.bind

@[simp]
theorem pure_eq_ok (a : α)
    : (pure a : Outcome ε α) = ok a := rfl

@[simp]
theorem ok_bind (a : α) (f : α → Outcome ε β)
    : (ok a >>= f) = f a := rfl

@[simp]
theorem err_bind (e : ε) (f : α → Outcome ε β)
    : (err e >>= f) = err e := rfl

@[simp]
theorem panic_bind (f : α → Outcome ε β)
    : ((panic : Outcome ε α) >>= f) = panic := rfl

@[simp]
theorem hang_bind (f : α → Outcome ε β)
    : ((hang : Outcome ε α) >>= f) = hang := rfl

@[simp]
theorem map_eq_bind (f : α → β) (x : Outcome ε α)
    : f <$> x = x >>= fun a => ok (f a) := rfl

instance : LawfulMonad (Outcome ε) := LawfulMonad.mk' _
  (by intro _ x; cases x <;> rfl)
  (by intros; rfl)
  (by intro _ _ _ x _ _; cases x <;> rfl)

theorem ok_ne_err
    : ok a ≠ err e := nofun

theorem bind_eq_ok {x : Outcome ε α} {f : α → Outcome ε β} {b : β}
    : (x >>= f) = ok b ↔ ∃ a, x = ok a ∧ f a = ok b := by
  cases x <;> simp

theorem bind_eq_err {x : Outcome ε α} {f : α → Outcome ε β} {e : ε}
    : (x >>= f) = err e ↔ x = err e ∨ ∃ a, x = ok a ∧ f a = err e := by
  cases x <;> simp

def Returns (x : Outcome ε α) : Prop :=
  match x with
  | ok _ => True
  | err _ => True
  | panic => False
  | hang => False

instance (x : Outcome ε α) : Decidable x.Returns :=
  match x with
  | ok _ => .isTrue trivial
  | err _ => .isTrue trivial
  | panic => .isFalse id
  | hang => .isFalse id

@[simp]
theorem returns_ok (a : α)
    : (ok a : Outcome ε α).Returns := trivial

@[simp]
theorem returns_err (e : ε)
    : (err e : Outcome ε α).Returns := trivial

@[simp]
theorem not_returns_panic
    : ¬ (panic : Outcome ε α).Returns := id

@[simp]
theorem not_returns_hang
    : ¬ (hang : Outcome ε α).Returns := id

theorem exists_err (h : x.Returns) (hne : x ≠ ok ())
    : ∃ e, x = err e := by
  cases x with
  | ok u => exact absurd rfl hne
  | err e => exact ⟨e, rfl⟩
  | panic => exact h.elim
  | hang => exact h.elim

theorem returns_bind {x : Outcome ε α} {f : α → Outcome ε β}
    : (x >>= f).Returns ↔ x.Returns ∧ ∀ a, x = ok a → (f a).Returns := by
  cases x <;> simp

def isOk (x : Outcome ε α) : Bool :=
  match x with
  | ok _ => true
  | _ => false

theorem isOk_eq_true {x : Outcome ε α}
    : x.isOk = true ↔ ∃ a, x = .ok a := by
  cases x <;> simp [isOk]

theorem returns_of_isOk {x : Outcome ε α} (h : x.isOk = true)
    : x.Returns := by
  obtain ⟨a, rfl⟩ := isOk_eq_true.mp h
  trivial

def require (p : Prop) [Decidable p] (e : ε) : Outcome ε Unit :=
  if p then ok () else err e

@[simp]
theorem require_eq_ok [Decidable p]
    : require p e = ok u ↔ p := by
  unfold require
  split <;> simp_all

@[simp]
theorem require_eq_err [Decidable p]
    : require p e' = err e ↔ ¬ p ∧ e' = e := by
  unfold require
  split <;> simp_all

@[simp]
theorem returns_require [Decidable p]
    : (require p e).Returns := by
  unfold require
  split <;> simp

def assert (p : Prop) [Decidable p] : Outcome ε Unit :=
  if p then ok () else panic

@[simp]
theorem assert_eq_ok [Decidable p]
    : (assert p : Outcome ε Unit) = ok u ↔ p := by
  unfold assert
  split <;> simp_all

@[simp]
theorem assert_ne_err [Decidable p]
    : assert p ≠ err e := by
  unfold assert
  split <;> simp

def okOr (o : Option α) (e : ε) : Outcome ε α :=
  match o with
  | some a => ok a
  | none => err e

@[simp]
theorem okOr_eq_ok
    : okOr o e = ok a ↔ o = some a := by
  cases o <;> simp [okOr]

@[simp]
theorem okOr_eq_err
    : okOr o e' = err e ↔ o = none ∧ e' = e := by
  cases o <;> simp [okOr]

def unwrap (o : Option α) : Outcome ε α :=
  match o with
  | some a => ok a
  | none => panic

@[simp]
theorem unwrap_eq_ok
    : (unwrap o : Outcome ε α) = ok a ↔ o = some a := by
  cases o <;> simp [unwrap]

@[simp]
theorem unwrap_ne_err
    : unwrap o ≠ err e := by
  cases o <;> simp [unwrap]

def mapErr (f : ε → ε') (x : Outcome ε α) : Outcome ε' α :=
  match x with
  | ok a => ok a
  | err e => err (f e)
  | panic => panic
  | hang => hang

@[simp]
theorem mapErr_eq_ok {f : ε → ε'} {x : Outcome ε α} {a : α}
    : mapErr f x = ok a ↔ x = ok a := by
  cases x <;> simp [mapErr]

theorem mapErr_eq_err {f : ε → ε'} {x : Outcome ε α} {e : ε'}
    : mapErr f x = err e ↔ ∃ e', x = err e' ∧ f e' = e := by
  cases x <;> simp [mapErr]

@[simp]
theorem returns_mapErr {f : ε → ε'} {x : Outcome ε α}
    : (mapErr f x).Returns ↔ x.Returns := by
  cases x <;> simp [mapErr]

def forEach (l : List β) (f : β → Outcome ε Unit) : Outcome ε Unit :=
  match l with
  | [] => ok ()
  | b :: l => do
    f b
    forEach l f

theorem forEach_eq_ok {l : List β} {f : β → Outcome ε Unit} {u : Unit}
    : forEach l f = ok u ↔ ∀ b ∈ l, f b = ok () := by
  induction l with
  | nil => simp [forEach]
  | cons b l ih =>
    rw [forEach, bind_eq_ok, List.forall_mem_cons]
    constructor
    . rintro ⟨⟨⟩, hb, hl⟩
      exact ⟨hb, ih.mp hl⟩
    . rintro ⟨hb, hl⟩
      exact ⟨(), hb, ih.mpr hl⟩

theorem foldlM_eq_ok (R : List α → β → Prop)
    (hstart : R [] b) (hstep : ∀ done a b c, a ∈ l → R done b → f b a = ok c → R (done ++ [a]) c)
    (h : l.foldlM f b = ok c)
    : R l c := by
  suffices hgo : ∀ done, R done b → R (done ++ l) c by
    simpa using hgo [] hstart
  clear hstart
  induction l generalizing b with
  | nil =>
    intro done hdone
    rw [List.foldlM_nil, pure_eq_ok, ok.injEq] at h
    rw [List.append_nil, ← h]
    exact hdone
  | cons a l ih =>
    intro done hdone
    rw [List.foldlM_cons, bind_eq_ok] at h
    obtain ⟨b', hb', hl⟩ := h
    have hrest := ih (fun done a' b c ha' => hstep done a' b c (List.mem_cons_of_mem a ha')) hl
      (done ++ [a]) (hstep done a b b' List.mem_cons_self hdone hb')
    simpa using hrest

theorem foldlM_ne_err (hf : ∀ b a, f b a ≠ err e) (l : List α)
    (b : β)
    : l.foldlM f b ≠ err e := by
  induction l generalizing b with
  | nil => simp
  | cons a l ih => simp [bind_eq_err, hf, ih]

theorem mapM_ok {f : α → Outcome ε β} {g : α → β} {l : List α} (hf : ∀ a ∈ l, f a = ok (g a))
    : l.mapM f = ok (l.map g) := by
  induction l with
  | nil => rfl
  | cons a l ih =>
    have hl := ih fun a ha => hf a (List.mem_cons_of_mem _ ha)
    simp [hf a List.mem_cons_self, hl]

theorem mapM_ne_err {f : α → Outcome ε β} {e : ε} (hf : ∀ a, f a ≠ err e) (l : List α)
    : l.mapM f ≠ err e := by
  induction l with
  | nil => simp
  | cons a l ih => simp [bind_eq_err, hf, ih]

end Outcome
