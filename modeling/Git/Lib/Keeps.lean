-- Programs over a state that may stop with an error: what they keep of the state when they
-- return, and what they return.
import Mathlib

namespace keeps

universe u

variable {σ ε α β : Type u} {I : σ → Prop}

/-- If it starts in `I` and returns, it ends in `I` with a value of `Q`. -/
def Upholds (I : σ → Prop) (m : StateT σ (Except ε) α) (Q : α → Prop) : Prop :=
  ∀ s a s', I s → m s = .ok (a, s') → I s' ∧ Q a

theorem Upholds.pure {Q : α → Prop} {a : α} (h : Q a) :
    Upholds I (pure a : StateT σ (Except ε) α) Q := by
  intro s b s' hs hrun
  obtain ⟨rfl, rfl⟩ := Prod.mk.inj (Except.ok.inj hrun)
  exact ⟨hs, h⟩

theorem Upholds.throw {Q : α → Prop} (e : ε) : Upholds I (throw e : StateT σ (Except ε) α) Q := by
  intro s b s' _ hrun
  cases hrun

theorem Upholds.get : Upholds I (get : StateT σ (Except ε) σ) I := by
  intro s b s' hs hrun
  obtain ⟨rfl, rfl⟩ := Prod.mk.inj (Except.ok.inj hrun)
  exact ⟨hs, hs⟩

theorem Upholds.set {s' : σ} (h : I s') :
    Upholds I (set s' : StateT σ (Except ε) PUnit) fun _ => True := by
  intro s b s'' _ hrun
  obtain ⟨rfl, rfl⟩ := Prod.mk.inj (Except.ok.inj hrun)
  exact ⟨h, trivial⟩

theorem bind_ok {m : StateT σ (Except ε) α} {f : α → StateT σ (Except ε) β} {s s'' : σ} {b : β}
    (h : (m >>= f) s = .ok (b, s'')) :
    ∃ a s', m s = .ok (a, s') ∧ f a s' = .ok (b, s'') := by
  change (m s >>= fun p => f p.1 p.2) = _ at h
  cases hm : m s with
  | error e =>
    rw [hm] at h
    cases h
  | ok p =>
    rw [hm] at h
    exact ⟨p.1, p.2, rfl, h⟩

theorem bind_of_ok {m : StateT σ (Except ε) α} {f : α → StateT σ (Except ε) β} {s s' : σ} {a : α}
    (h : m s = .ok (a, s')) : (m >>= f) s = f a s' := by
  change (m s >>= fun p => f p.1 p.2) = _
  rw [h]
  rfl

theorem Upholds.bind {Q : α → Prop} {R : β → Prop} {m : StateT σ (Except ε) α}
    {f : α → StateT σ (Except ε) β} (hm : Upholds I m Q) (hf : ∀ a, Q a → Upholds I (f a) R) :
    Upholds I (m >>= f) R := by
  intro s b s'' hs hrun
  obtain ⟨a, s', hfirst, hsecond⟩ := bind_ok hrun
  obtain ⟨hs', ha⟩ := hm s a s' hs hfirst
  exact hf a ha s' b s'' hs' hsecond

theorem Upholds.mono {Q R : α → Prop} {m : StateT σ (Except ε) α} (h : Upholds I m Q)
    (hQR : ∀ a, Q a → R a) : Upholds I m R := by
  intro s a s' hs hrun
  obtain ⟨hs', ha⟩ := h s a s' hs hrun
  exact ⟨hs', hQR a ha⟩

/-- It returns wherever it starts in `I`. -/
def Returns (I : σ → Prop) (m : StateT σ (Except ε) α) : Prop :=
  ∀ s, I s → ∃ a s', m s = .ok (a, s')

theorem Returns.pure (a : α) : Returns I (pure a : StateT σ (Except ε) α) :=
  fun s _ => ⟨a, s, rfl⟩

theorem Returns.get : Returns I (get : StateT σ (Except ε) σ) := fun s _ => ⟨s, s, rfl⟩

theorem Returns.bind {Q : α → Prop} {m : StateT σ (Except ε) α} {f : α → StateT σ (Except ε) β}
    (hm : Returns I m) (hkeeps : Upholds I m Q) (hf : ∀ a, Q a → Returns I (f a)) :
    Returns I (m >>= f) := by
  intro s hs
  obtain ⟨a, s', hfirst⟩ := hm s hs
  obtain ⟨hs', ha⟩ := hkeeps s a s' hs hfirst
  obtain ⟨b, s'', hsecond⟩ := hf a ha s' hs'
  exact ⟨b, s'', by rw [bind_of_ok hfirst, hsecond]⟩

/-- A value that is known to come out, where something does. -/
theorem Returns.value {Q : α → Prop} {m : StateT σ (Except ε) α} {a : α} (hm : Returns I m)
    (hkeeps : Upholds I m Q) (hQ : ∀ b, Q b → b = a) {s : σ} (hs : I s) :
    ∃ s', m s = .ok (a, s') := by
  obtain ⟨b, s', hrun⟩ := hm s hs
  rw [hQ b (hkeeps s b s' hs hrun).2] at hrun
  exact ⟨s', hrun⟩

end keeps
