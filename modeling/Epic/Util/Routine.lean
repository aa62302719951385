import Epic.Util.Outcome

/-!
This module contains computations that work on a mutable state. The state an error leaves behind is
part of the result, it is what a caller that handles the error goes on with.
-/

def Routine (σ ε α : Type) := σ → Outcome ε α × σ

namespace Routine

variable {σ τ ε ε' α β : Type}

protected def bind (x : Routine σ ε α) (f : α → Routine σ ε β) : Routine σ ε β := fun s =>
  match x s with
  | (.ok a, s) => f a s
  | (.err e, s) => (.err e, s)
  | (.panic, s) => (.panic, s)
  | (.hang, s) => (.hang, s)

instance : Monad (Routine σ ε) where
  pure a := fun s => (.ok a, s)
  bind := Routine.bind

def lift (x : Outcome ε α) : Routine σ ε α := fun s => (x, s)

-- what a function of the state gives, the state stays as it is
def query (f : σ → Outcome ε α) : Routine σ ε α := fun s => (f s, s)

def gets (f : σ → α) : Routine σ ε α := query fun s => .ok (f s)

def modify (f : σ → σ) : Routine σ ε Unit := fun s => (.ok (), f s)

-- run an action on a part of the state
def zoom (get : σ → τ) (set : τ → σ → σ) (x : Routine τ ε α) : Routine σ ε α := fun s =>
  ((x (get s)).1, set (x (get s)).2 s)

def mapErr (f : ε → ε') (x : Routine σ ε α) : Routine σ ε' α := fun s => ((x s).1.mapErr f, (x s).2)

-- whether an action fails, it is not tried again and its error is dropped
def isErr (x : Routine σ ε α) : Routine σ ε' Bool := fun s =>
  match x s with
  | (.ok _, s) => (.ok false, s)
  | (.err _, s) => (.ok true, s)
  | (.panic, s) => (.panic, s)
  | (.hang, s) => (.hang, s)

def onlyIf (c : Bool) (x : Routine σ ε Unit) : Routine σ ε Unit := if c then x else pure ()

def forEach (l : List β) (f : β → Routine σ ε Unit) : Routine σ ε Unit :=
  match l with
  | [] => pure ()
  | b :: l => do
    f b
    forEach l f

@[simp]
theorem pure_apply (a : α) (s : σ)
    : (pure a : Routine σ ε α) s = (.ok a, s) := rfl

@[simp]
theorem lift_apply (x : Outcome ε α) (s : σ)
    : lift x s = (x, s) := rfl

@[simp]
theorem query_apply (f : σ → Outcome ε α) (s : σ)
    : query f s = (f s, s) := rfl

@[simp]
theorem gets_apply (f : σ → α) (s : σ)
    : (gets f : Routine σ ε α) s = (.ok (f s), s) := rfl

@[simp]
theorem modify_apply (f : σ → σ) (s : σ)
    : (modify f : Routine σ ε Unit) s = (.ok (), f s) := rfl

theorem bind_apply (x : Routine σ ε α) (f : α → Routine σ ε β) (s : σ)
    : (x >>= f) s
        =
      match x s with
      | (.ok a, s) => f a s
      | (.err e, s) => (.err e, s)
      | (.panic, s) => (.panic, s)
      | (.hang, s) => (.hang, s) := rfl

instance : LawfulMonad (Routine σ ε) := LawfulMonad.mk' _
  (by
    intro _ x
    funext s
    change Routine.bind x pure s = x s
    unfold Routine.bind
    rcases x s with ⟨(_ | _ | _ | _), _⟩ <;> rfl)
  (by intros; rfl)
  (by
    intro _ _ _ x f g
    funext s
    simp only [bind_apply]
    rcases x s with ⟨(_ | _ | _ | _), _⟩ <;> rfl)

theorem bind_eq_ok {x : Routine σ ε α} {f : α → Routine σ ε β} {s t : σ} {b : β}
    : (x >>= f) s = (.ok b, t) ↔ ∃ a r, x s = (.ok a, r) ∧ f a r = (.ok b, t) := by
  rw [bind_apply]
  rcases x s with ⟨(a | e | _ | _), r⟩ <;> simp [and_assoc]

theorem bind_eq_err {x : Routine σ ε α} {f : α → Routine σ ε β} {s t : σ} {e : ε}
    : (x >>= f) s = (.err e, t)
        ↔
      x s = (.err e, t) ∨ ∃ a r, x s = (.ok a, r) ∧ f a r = (.err e, t) := by
  rw [bind_apply]
  rcases x s with ⟨(a | e | _ | _), r⟩ <;> simp [and_assoc]

theorem bind_of_panic {x : Routine σ ε α} {f : α → Routine σ ε β} {s t : σ} (h : x s = (.panic, t))
    : (x >>= f) s = (.panic, t) := by
  rw [bind_apply, h]

theorem bind_of_returns {x : Routine σ ε α} {f : α → Routine σ ε β} {s t : σ} {b : Outcome ε β}
    (h : (x >>= f) s = (b, t)) (hb : b.Returns)
    : ∃ a r, x s = (a, r) ∧ a.Returns ∧ (t = r ∨ ∃ a', a = .ok a' ∧ f a' r = (b, t)) := by
  rw [bind_apply] at h
  rcases hx : x s with ⟨(a | e | _ | _), r⟩ <;> rw [hx] at h
  . exact ⟨_, r, rfl, trivial, .inr ⟨a, rfl, h⟩⟩
  . injection h with _ h
    exact ⟨_, r, rfl, trivial, .inl h.symm⟩
  . injection h with h
    rw [← h] at hb
    contradiction
  . injection h with h
    rw [← h] at hb
    contradiction

theorem bind_cases {x : Routine σ ε α} {f : α → Routine σ ε β} {s t : σ} {b : Outcome ε β}
    (h : (x >>= f) s = (b, t)) (hb : b.Returns)
    : (∃ e, x s = (.err e, t) ∧ b = .err e) ∨ ∃ a r, x s = (.ok a, r) ∧ f a r = (b, t) := by
  cases b with
  | ok c => exact .inr (bind_eq_ok.mp h)
  | err e =>
    rcases bind_eq_err.mp h with hx | hf
    . exact .inl ⟨e, hx, rfl⟩
    . exact .inr hf
  | panic => exact hb.elim
  | hang => exact hb.elim

theorem query_bind_cases {f : σ → Outcome ε α} {g : α → Routine σ ε β} {s t : σ} {b : Outcome ε β}
    (h : (query f >>= g) s = (b, t)) (hb : b.Returns)
    : (∃ e, f s = .err e ∧ b = .err e ∧ t = s) ∨ ∃ a, f s = .ok a ∧ g a s = (b, t) := by
  rcases bind_cases h hb with ⟨e, hf, rfl⟩ | ⟨a, r, hf, hg⟩
  . rw [query_apply, Prod.mk.injEq] at hf
    exact .inl ⟨e, hf.1, rfl, hf.2.symm⟩
  . rw [query_apply, Prod.mk.injEq] at hf
    obtain ⟨hf, rfl⟩ := hf
    exact .inr ⟨a, hf, hg⟩

theorem lift_bind_cases {x : Outcome ε α} {g : α → Routine σ ε β} {s t : σ} {b : Outcome ε β}
    (h : (lift x >>= g) s = (b, t)) (hb : b.Returns)
    : (∃ e, x = .err e ∧ b = .err e ∧ t = s) ∨ ∃ a, x = .ok a ∧ g a s = (b, t) :=
  query_bind_cases (f := fun _ => x) h hb

@[simp]
theorem lift_eq_ok {x : Outcome ε α} {s t : σ} {a : α}
    : lift x s = (.ok a, t) ↔ x = .ok a ∧ s = t := by
  simp [lift]

@[simp]
theorem query_eq_ok {f : σ → Outcome ε α} {s t : σ} {a : α}
    : query f s = (.ok a, t) ↔ f s = .ok a ∧ s = t := by
  simp [query]

@[simp]
theorem gets_eq_ok
    : (gets f : Routine σ ε α) s = (.ok a, t) ↔ f s = a ∧ s = t := by
  simp [gets]

@[simp]
theorem modify_eq_ok
    : (modify f : Routine σ ε Unit) s = (.ok u, t) ↔ f s = t := by
  simp [modify]

theorem query_bind_eq_ok {f : σ → Outcome ε α} {g : α → Routine σ ε β} {s t : σ} {b : β}
    : (query f >>= g) s = (.ok b, t) ↔ ∃ a, f s = .ok a ∧ g a s = (.ok b, t) := by
  simp [bind_eq_ok, and_assoc]

theorem lift_bind_eq_ok {x : Outcome ε α} {g : α → Routine σ ε β} {s t : σ} {b : β}
    : (lift x >>= g) s = (.ok b, t) ↔ ∃ a, x = .ok a ∧ g a s = (.ok b, t) := by
  simp [bind_eq_ok, and_assoc]

theorem foldlM_lockstep {γ : Type} {f : β → α → Routine σ ε β} {g : γ → α → Routine τ ε γ} (R : β → γ → Prop)
    (hstep : ∀ b c a s t b' c' s' t', R b c → f b a s = (.ok b', s') → g c a t = (.ok c', t') → R b' c')
    {l : List α} {b b' : β} {c c' : γ} {s s' : σ} {t t' : τ} (hstart : R b c)
    (hf : l.foldlM f b s = (.ok b', s')) (hg : l.foldlM g c t = (.ok c', t'))
    : R b' c' := by
  induction l generalizing b c s t with
  | nil =>
    rw [List.foldlM_nil, pure_apply, Prod.mk.injEq, Outcome.ok.injEq] at hf hg
    rwa [← hf.1, ← hg.1]
  | cons a l ih =>
    rw [List.foldlM_cons, bind_eq_ok] at hf hg
    obtain ⟨b₁, s₁, hb, hf⟩ := hf
    obtain ⟨c₁, t₁, hc, hg⟩ := hg
    exact ih (hstep b c a s t b₁ c₁ s₁ t₁ hstart hb hc) hf hg

theorem isErr_eq_ok
    : (isErr x : Routine σ ε' Bool) s = (.ok b, t)
        ↔
      (b = false ∧ ∃ a, x s = (.ok a, t)) ∨ (b = true ∧ ∃ e, x s = (.err e, t)) := by
  unfold isErr
  rcases x s with ⟨(a | e | _ | _), r⟩ <;> cases b <;> simp

theorem zoom_eq_ok {get : σ → τ} {set : τ → σ → σ} {x : Routine τ ε α} {s t : σ} {a : α}
    : zoom get set x s = (.ok a, t) ↔ ∃ r, x (get s) = (.ok a, r) ∧ set r s = t := by
  unfold zoom
  rcases x (get s) with ⟨(a | e | _ | _), r⟩ <;> simp [and_assoc]

theorem mapErr_eq_ok {f : ε → ε'} {x : Routine σ ε α} {s t : σ} {a : α}
    : mapErr f x s = (.ok a, t) ↔ x s = (.ok a, t) := by
  unfold mapErr
  rcases x s with ⟨(a | e | _ | _), r⟩ <;> simp [Outcome.mapErr]

theorem forEach_eq_ok {l : List β} {f : β → Routine σ ε Unit} {s t : σ} {u : Unit}
    (R : List β → σ → Prop) (hstart : R [] s)
    (hstep : ∀ done b s t, b ∈ l → R done s → f b s = (.ok (), t) → R (done ++ [b]) t)
    (h : forEach l f s = (.ok u, t))
    : R l t := by
  suffices hgo : ∀ done, R done s → R (done ++ l) t by
    simpa using hgo [] hstart
  clear hstart
  induction l generalizing s with
  | nil =>
    intro done hdone
    simp only [forEach, pure_apply, Prod.mk.injEq] at h
    rw [List.append_nil, ← h.2]
    exact hdone
  | cons b l ih =>
    intro done hdone
    obtain ⟨⟨⟩, r, hb, hl⟩ := bind_eq_ok.mp h
    have hrest := ih (fun done b' s t hb' => hstep done b' s t (List.mem_cons_of_mem b hb')) hl
      (done ++ [b]) (hstep done b s r List.mem_cons_self hdone hb)
    simpa using hrest

theorem forEach_ok {l : List β} {f : β → Routine σ ε Unit} {s : σ} (R : List β → σ → Prop)
    (hstart : R [] s)
    (hstep : ∀ done b s, done ++ [b] <+: l → R done s → ∃ t, f b s = (.ok (), t) ∧ R (done ++ [b]) t)
    : ∃ t, forEach l f s = (.ok (), t) ∧ R l t := by
  suffices hgo : ∀ done rest s, done ++ rest = l → R done s →
      ∃ t, forEach rest f s = (.ok (), t) ∧ R l t from hgo [] l s rfl hstart
  intro done rest
  induction rest generalizing done with
  | nil =>
    intro s hl hdone
    rw [List.append_nil] at hl
    exact ⟨s, rfl, hl ▸ hdone⟩
  | cons b rest ih =>
    intro s hl hdone
    have hl' : done ++ [b] ++ rest = l := by
      rw [← hl]
      simp
    obtain ⟨t, hb, hnext⟩ := hstep done b s ⟨rest, hl'⟩ hdone
    obtain ⟨r, hrest, hr⟩ := ih (done ++ [b]) t hl' hnext
    exact ⟨r, bind_eq_ok.mpr ⟨(), t, hb, hrest⟩, hr⟩

theorem snd_bind {P : σ → Prop} {x : Routine σ ε α} {f : α → Routine σ ε β} {s : σ} (hx : P (x s).2)
    (hf : ∀ a t, x s = (.ok a, t) → P (f a t).2)
    : P ((x >>= f) s).2 := by
  rw [bind_apply]
  rcases hxs : x s with ⟨(a | e | _ | _), r⟩ <;> rw [hxs] at hx
  . exact hf a r hxs
  . exact hx
  . exact hx
  . exact hx

def Avoids (e : ε) (x : Routine σ ε α) : Prop := ∀ s, (x s).1 ≠ .err e

namespace Avoids

variable {e : ε}

theorem elim (hx : Avoids e x) (h : x s = (.err e, t))
    : False := hx s (congrArg Prod.fst h)

theorem pure (a : α)
    : Avoids e (Pure.pure a : Routine σ ε α) := by
  intro s
  simp

theorem lift (hx : x ≠ .err e)
    : Avoids e (Routine.lift x : Routine σ ε α) := fun _ => hx

theorem query {f : σ → Outcome ε α} (hf : ∀ s, f s ≠ .err e)
    : Avoids e (Routine.query f) := hf

theorem gets (f : σ → α)
    : Avoids e (Routine.gets f : Routine σ ε α) := by
  intro s
  simp

theorem modify (f : σ → σ)
    : Avoids e (Routine.modify f : Routine σ ε Unit) := by
  intro s
  simp

theorem bind {x : Routine σ ε α} {f : α → Routine σ ε β} (hx : Avoids e x) (hf : ∀ a, Avoids e (f a))
    : Avoids e (x >>= f) := by
  intro s
  have hxs := hx s
  rw [bind_apply]
  rcases hr : x s with ⟨(a | e' | _ | _), r⟩ <;> rw [hr] at hxs
  . exact hf a r
  . simpa using hxs
  . simp
  . simp

theorem zoom {get : σ → τ} {set : τ → σ → σ} {x : Routine τ ε α} (hx : Avoids e x)
    : Avoids e (Routine.zoom get set x) := fun s => hx (get s)

theorem mapErr {f : ε' → ε} {x : Routine σ ε' α} (hf : ∀ e', f e' ≠ e)
    : Avoids e (Routine.mapErr f x) := by
  intro s h
  obtain ⟨e', -, he'⟩ := Outcome.mapErr_eq_err.mp h
  exact hf e' he'

theorem isErr {x : Routine σ ε' α}
    : Avoids e (Routine.isErr x) := by
  intro s
  unfold Routine.isErr
  rcases x s with ⟨(a | e | _ | _), r⟩ <;> simp

theorem onlyIf (hx : Avoids e x)
    : Avoids e (Routine.onlyIf c x) := by
  unfold Routine.onlyIf
  split
  . exact hx
  . exact Avoids.pure ()

theorem forEach {l : List β} {f : β → Routine σ ε Unit} (hf : ∀ b, Avoids e (f b))
    : Avoids e (Routine.forEach l f) := by
  induction l with
  | nil => exact Avoids.pure ()
  | cons b l ih => exact Avoids.bind (hf b) fun _ => ih

end Avoids

/-!
An action preserves a property of the state if it holds in the state the action ends in, whatever the
outcome is.
-/

def Preserves (P : σ → Prop) (x : Routine σ ε α) : Prop := ∀ s, P s → P (x s).2

namespace Preserves

variable {P : σ → Prop}

theorem pure (a : α)
    : Preserves P (Pure.pure a : Routine σ ε α) := fun _ h => h

theorem lift (x : Outcome ε α)
    : Preserves P (Routine.lift x) := fun _ h => h

theorem query (f : σ → Outcome ε α)
    : Preserves P (Routine.query f) := fun _ h => h

theorem gets (f : σ → α)
    : Preserves P (Routine.gets f : Routine σ ε α) := fun _ h => h

theorem modify (hf : ∀ s, P s → P (f s))
    : Preserves P (Routine.modify f : Routine σ ε Unit) := hf

theorem bind {x : Routine σ ε α} {f : α → Routine σ ε β} (hx : Preserves P x)
    (hf : ∀ a, Preserves P (f a))
    : Preserves P (x >>= f) := by
  intro s hs
  have hr := hx s hs
  rw [bind_apply]
  rcases hxs : x s with ⟨(a | e | _ | _), r⟩ <;> rw [hxs] at hr
  . exact hf a r hr
  . exact hr
  . exact hr
  . exact hr

theorem zoom {get : σ → τ} {set : τ → σ → σ} {x : Routine τ ε α}
    (hx : ∀ s, P s → P (set (x (get s)).2 s))
    : Preserves P (Routine.zoom get set x) := hx

theorem isErr {x : Routine σ ε α} (hx : Preserves P x)
    : Preserves P (Routine.isErr x : Routine σ ε' Bool) := by
  intro s hs
  have hr := hx s hs
  unfold Routine.isErr
  rcases hxs : x s with ⟨(a | e | _ | _), r⟩ <;> rw [hxs] at hr <;> exact hr

theorem onlyIf (hx : Preserves P x)
    : Preserves P (Routine.onlyIf c x) := by
  unfold Routine.onlyIf
  split
  . exact hx
  . exact Preserves.pure ()

theorem mapErr {f : ε → ε'} {x : Routine σ ε α} (hx : Preserves P x)
    : Preserves P (Routine.mapErr f x) := hx

theorem forEach {l : List β} {f : β → Routine σ ε Unit} (hf : ∀ b ∈ l, Preserves P (f b))
    : Preserves P (Routine.forEach l f) := by
  induction l with
  | nil => exact Preserves.pure ()
  | cons b l ih =>
    apply Preserves.bind
    . exact hf b List.mem_cons_self
    . intro _
      apply ih
      intro b' hb'
      exact hf b' (List.mem_cons_of_mem b hb')

end Preserves

/-!
An action commutes with a change of the state that it neither reads nor undoes.
-/

def Commutes (f : σ → σ) (x : Routine σ ε α) : Prop := ∀ s, x (f s) = ((x s).1, f (x s).2)

namespace Commutes

variable {f : σ → σ}

theorem pure (a : α)
    : Commutes f (Pure.pure a : Routine σ ε α) := fun _ => rfl

theorem lift (x : Outcome ε α)
    : Commutes f (Routine.lift x) := fun _ => rfl

theorem query {q : σ → Outcome ε α} (hq : ∀ s, q (f s) = q s)
    : Commutes f (Routine.query q) := by
  intro s
  rw [query_apply, hq, query_apply]

theorem modify (hm : ∀ s, m (f s) = f (m s))
    : Commutes f (Routine.modify m : Routine σ ε Unit) := by
  intro s
  rw [modify_apply, hm, modify_apply]

theorem bind {x : Routine σ ε α} {g : α → Routine σ ε β} (hx : Commutes f x) (hg : ∀ a, Commutes f (g a))
    : Commutes f (x >>= g) := by
  intro s
  rw [bind_apply, bind_apply, hx s]
  rcases x s with ⟨(a | e | _ | _), r⟩
  . exact hg a r
  . rfl
  . rfl
  . rfl

theorem isErr {x : Routine σ ε α} (hx : Commutes f x)
    : Commutes f (Routine.isErr x : Routine σ ε' Bool) := by
  intro s
  unfold Routine.isErr
  rw [hx s]
  rcases x s with ⟨(a | e | _ | _), r⟩ <;> rfl

theorem onlyIf (hx : Commutes f x)
    : Commutes f (Routine.onlyIf c x) := by
  unfold Routine.onlyIf
  split
  . exact hx
  . exact Commutes.pure ()

end Commutes

end Routine
