import Epic.Util.Routine

/-!
This module contains rules for decoders that take their input from a part of the state: what they
consume for a result, and which inputs they decode or refuse.
-/

namespace Codec

open Routine

variable {σ ε α β γ : Type} {view : σ → List β} {good : σ → Prop}

-- how a result is related to what was consumed, here and before
def Consumes (view : σ → List β) (start : List β) (x : Routine σ ε α) (R : α → List β → Prop) : Prop :=
  ∀ s a t, x s = (.ok a, t) → ∃ input, view s = input ++ view t ∧ R a (start ++ input)

def Decodes (view : σ → List β) (good : σ → Prop) (x : Routine σ ε α) (input : List β) (a : α) : Prop :=
  ∀ s rest, good s → view s = input ++ rest → ∃ t, x s = (.ok a, t) ∧ view t = rest ∧ good t

def Refuses (view : σ → List β) (good : σ → Prop) (x : Routine σ ε α) (input : List β) : Prop :=
  ∀ s rest, good s → view s = input ++ rest → ∃ e t, x s = (.err e, t)

theorem flatMap_append_inj {encode : α → List β} {n : Nat} (hlength : ∀ a, (encode a).length = n)
    (hinj : ∀ a b, encode a = encode b → a = b) {l₁ l₂ : List α} (hsame : l₁.length = l₂.length)
    {rest₁ rest₂ : List β} (h : l₁.flatMap encode ++ rest₁ = l₂.flatMap encode ++ rest₂)
    : l₁ = l₂ ∧ rest₁ = rest₂ := by
  induction l₁ generalizing l₂ with
  | nil =>
    obtain rfl := List.eq_nil_of_length_eq_zero hsame.symm
    exact ⟨rfl, h⟩
  | cons a l₁ ih =>
    cases l₂ with
    | nil => contradiction
    | cons b l₂ =>
      rw [List.flatMap_cons, List.flatMap_cons, List.append_assoc, List.append_assoc] at h
      obtain ⟨hfirst, hrest⟩ := List.append_inj h ((hlength a).trans (hlength b).symm)
      obtain ⟨hlists, hrest⟩ := ih (Nat.succ.inj hsame) hrest
      exact ⟨by rw [hinj a b hfirst, hlists], hrest⟩

namespace Consumes

variable {start : List β} {R : α → List β → Prop}

theorem pure (h : R a start)
    : Consumes view start (Pure.pure a : Routine σ ε α) R := by
  intro s b t hb
  rw [pure_apply, Prod.mk.injEq, Outcome.ok.injEq] at hb
  obtain ⟨rfl, rfl⟩ := hb
  exact ⟨[], rfl, by rwa [List.append_nil]⟩

theorem bind {x : Routine σ ε γ} {f : γ → Routine σ ε α} {P : γ → List β → Prop}
    (hx : Consumes view [] x P) (hf : ∀ c input, P c input → Consumes view (start ++ input) (f c) R)
    : Consumes view start (x >>= f) R := by
  intro s a t h
  obtain ⟨c, r, hc, ha⟩ := bind_eq_ok.mp h
  obtain ⟨input, hview, hP⟩ := hx s c r hc
  obtain ⟨rest, hrest, hR⟩ := hf c input hP r a t ha
  refine ⟨input ++ rest, ?_, ?_⟩
  . rw [hview, hrest, List.append_assoc]
  . rwa [← List.append_assoc]

theorem lift_bind {x : Outcome ε γ} {f : γ → Routine σ ε α}
    (hf : ∀ c, x = .ok c → Consumes view start (f c) R)
    : Consumes view start (lift x >>= f) R := by
  intro s a t h
  obtain ⟨c, hc, ha⟩ := lift_bind_eq_ok.mp h
  exact hf c hc s a t ha

theorem map {x : Routine σ ε γ} {f : γ → α} {P : γ → List β → Prop} (hx : Consumes view [] x P)
    (h : ∀ c input, P c input → R (f c) input)
    : Consumes view [] (f <$> x) R := hx.bind fun c input hP => pure (h c input hP)

theorem after (hx : Consumes view [] x P)
    (h : ∀ a input, P a input → R a (start ++ input))
    : Consumes view start x R := by
  intro s a t ha
  obtain ⟨input, hview, hP⟩ := hx s a t ha
  exact ⟨input, hview, h a input hP⟩

end Consumes

namespace Decodes

variable {input rest : List β} {a : α} {c : γ}

theorem pure
    : Decodes view good (Pure.pure a : Routine σ ε α) [] a := by
  intro s rest hs hview
  exact ⟨s, rfl, hview, hs⟩

theorem bind {x : Routine σ ε γ} {f : γ → Routine σ ε α} (hx : Decodes view good x input c)
    (hf : Decodes view good (f c) rest a)
    : Decodes view good (x >>= f) (input ++ rest) a := by
  intro s more hs hview
  rw [List.append_assoc] at hview
  obtain ⟨r, hr, hrview, hrgood⟩ := hx s _ hs hview
  obtain ⟨t, ht, htview, htgood⟩ := hf r more hrgood hrview
  exact ⟨t, bind_eq_ok.mpr ⟨c, r, hr, ht⟩, htview, htgood⟩

theorem lift_bind {x : Outcome ε γ} {f : γ → Routine σ ε α} (hx : x = .ok c)
    (hf : Decodes view good (f c) input a)
    : Decodes view good (lift x >>= f) input a := by
  intro s more hs hview
  obtain ⟨t, ht, hrest⟩ := hf s more hs hview
  exact ⟨t, lift_bind_eq_ok.mpr ⟨c, hx, ht⟩, hrest⟩

theorem map {x : Routine σ ε γ} (hx : Decodes view good x input c) (f : γ → α)
    : Decodes view good (f <$> x) input (f c) := by
  have h := hx.bind (f := fun c => (Pure.pure (f c) : Routine σ ε α)) pure
  rwa [List.append_nil] at h

end Decodes

namespace Refuses

variable {input rest : List β} {c : γ}

theorem of_bind {x : Routine σ ε γ} {f : γ → Routine σ ε α} (hx : Refuses view good x input)
    : Refuses view good (x >>= f) input := by
  intro s more hs hview
  obtain ⟨e, t, ht⟩ := hx s more hs hview
  exact ⟨e, t, bind_eq_err.mpr (.inl ht)⟩

theorem bind {x : Routine σ ε γ} {f : γ → Routine σ ε α} (hx : Decodes view good x input c)
    (hf : Refuses view good (f c) rest)
    : Refuses view good (x >>= f) (input ++ rest) := by
  intro s more hs hview
  rw [List.append_assoc] at hview
  obtain ⟨r, hr, hrview, hrgood⟩ := hx s _ hs hview
  obtain ⟨e, t, ht⟩ := hf r more hrgood hrview
  exact ⟨e, t, bind_eq_err.mpr (.inr ⟨c, r, hr, ht⟩)⟩

theorem lift_bind {x : Outcome ε γ} {f : γ → Routine σ ε α} (hx : x = .ok c)
    (hf : Refuses view good (f c) input)
    : Refuses view good (lift x >>= f) input := by
  intro s more hs hview
  obtain ⟨e, t, ht⟩ := hf s more hs hview
  exact ⟨e, t, bind_eq_err.mpr (.inr ⟨c, s, lift_eq_ok.mpr ⟨hx, rfl⟩, ht⟩)⟩

theorem lift_err {x : Outcome ε γ} {f : γ → Routine σ ε α} {e : ε} (hx : x = .err e)
    : Refuses view good (lift x >>= f) input := by
  apply of_bind
  intro s more hs hview
  exact ⟨e, s, by rw [lift_apply, hx]⟩

end Refuses

end Codec
