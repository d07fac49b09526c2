/-!
# Changes of a state

A computation that changes a state has a result or stops with an error; either
way there is a state after it. What a computation *ensures* is a statement about
both, the result or error and the state. It is found step by step, from the rules
for the parts that computations are made of.
-/

namespace Midend

variable {ε σ α β : Type}

theorem get_eq_ok (s : σ) : (get : EStateM ε σ σ) s = .ok s s := rfl

theorem set_eq_ok (s s' : σ) : (set s' : EStateM ε σ PUnit) s = .ok ⟨⟩ s' := rfl

theorem exists_of_map_eq_ok {r : Except ε α} {g : α → β} {y : β} (h : r.map g = .ok y) :
    ∃ x, r = .ok x ∧ g x = y := by
  cases r with
  | error e => cases h
  | ok x => exact ⟨x, rfl, Except.ok.inj h⟩

/-- The state after a computation, whether it has a result or not. -/
def after (x : EStateM ε σ α) (s : σ) : σ :=
  match x s with
  | .ok _ s => s
  | .error _ s => s

/-- Whether a computation has a result. -/
def succeeds (x : EStateM ε σ α) (s : σ) : Bool :=
  match x s with
  | .ok _ _ => true
  | .error _ _ => false

theorem eq_ok_of_succeeds {x : EStateM ε σ α} {s : σ} (h : succeeds x s) :
    ∃ a, x s = .ok a (after x s) := by
  unfold succeeds at h
  unfold after
  cases hx : x s with
  | ok a s' => exact ⟨a, rfl⟩
  | error e s' => simp [hx] at h

/-- The result or error of a computation and the state after it are as stated. -/
def Ensures (x : EStateM ε σ α) (s : σ) (post : Except ε α → σ → Prop) : Prop :=
  match x s with
  | .ok a s => post (.ok a) s
  | .error e s => post (.error e) s

theorem Ensures.mono {x : EStateM ε σ α} {s : σ} {post post' : Except ε α → σ → Prop}
    (h : Ensures x s post) (hpost : ∀ r s', post r s' → post' r s') : Ensures x s post' := by
  unfold Ensures at h ⊢
  split <;> simp_all

theorem Ensures.after {x : EStateM ε σ α} {s : σ} {post : Except ε α → σ → Prop}
    (h : Ensures x s post) : ∃ r, post r (after x s) := by
  unfold Ensures at h
  unfold Midend.after
  split at h
  next a s' _ => exact ⟨.ok a, h⟩
  next e s' _ => exact ⟨.error e, h⟩

theorem Ensures.and {x : EStateM ε σ α} {s : σ} {post post' : Except ε α → σ → Prop}
    (h : Ensures x s post) (h' : Ensures x s post') :
    Ensures x s fun r s' => post r s' ∧ post' r s' := by
  unfold Ensures at h h' ⊢
  split <;> simp_all

theorem Ensures.of_eq_ok {x : EStateM ε σ α} {s s' : σ} {a : α} {post : Except ε α → σ → Prop}
    (h : Ensures x s post) (hx : x s = .ok a s') : post (.ok a) s' := by
  rwa [Ensures, hx] at h

theorem Ensures.of_eq_error {x : EStateM ε σ α} {s s' : σ} {e : ε} {post : Except ε α → σ → Prop}
    (h : Ensures x s post) (hx : x s = .error e s') : post (.error e) s' := by
  rwa [Ensures, hx] at h

theorem ensures_of_eq_ok {x : EStateM ε σ α} {s s' : σ} {a : α} {post : Except ε α → σ → Prop}
    (hx : x s = .ok a s') (h : post (.ok a) s') : Ensures x s post := by
  rwa [Ensures, hx]

theorem Ensures.exists_eq_ok {x : EStateM ε σ α} {s : σ} {a : α} {P : σ → Prop}
    (h : Ensures x s fun r s' => r = .ok a ∧ P s') : ∃ s', x s = .ok a s' ∧ P s' := by
  unfold Ensures at h
  split at h <;> simp_all

theorem Ensures.eq_ok {x : EStateM ε σ α} {s s' : σ} {a : α}
    (h : Ensures x s fun r t => r = .ok a ∧ t = s') : x s = .ok a s' := by
  obtain ⟨_, hx, rfl⟩ := h.exists_eq_ok
  exact hx

theorem Ensures.eq_error {x : EStateM ε σ α} {s s' : σ} {e : ε}
    (h : Ensures x s fun r t => r = .error e ∧ t = s') : x s = .error e s' := by
  unfold Ensures at h
  split at h <;> simp_all

@[simp] theorem ensures_pure {a : α} {s : σ} {post : Except ε α → σ → Prop} :
    Ensures (pure a) s post ↔ post (.ok a) s := Iff.rfl

@[simp] theorem ensures_throw {e : ε} {s : σ} {post : Except ε α → σ → Prop} :
    Ensures (throw e) s post ↔ post (.error e) s := Iff.rfl

@[simp] theorem ensures_get {s : σ} {post : Except ε σ → σ → Prop} :
    Ensures (get : EStateM ε σ σ) s post ↔ post (.ok s) s := Iff.rfl

@[simp] theorem ensures_set {s s' : σ} {post : Except ε PUnit → σ → Prop} :
    Ensures (set s' : EStateM ε σ PUnit) s post ↔ post (.ok ⟨⟩) s' := Iff.rfl

@[simp] theorem ensures_modify {change : σ → σ} {s : σ} {post : Except ε PUnit → σ → Prop} :
    Ensures (modify change : EStateM ε σ PUnit) s post ↔ post (.ok ⟨⟩) (change s) := Iff.rfl

/-- The second computation starts where the first one ends, unless that stops. -/
@[simp] theorem ensures_bind {x : EStateM ε σ α} {g : α → EStateM ε σ β} {s : σ}
    {post : Except ε β → σ → Prop} :
    Ensures (x >>= g) s post ↔
      Ensures x s fun r s' =>
        match r with
        | .ok a => Ensures (g a) s' post
        | .error e => post (.error e) s' := by
  simp only [Ensures, bind, EStateM.bind]
  cases x s <;> rfl

/-- What the first computation ensures is what the second one starts from. -/
theorem Ensures.bind {x : EStateM ε σ α} {g : α → EStateM ε σ β} {s : σ}
    {mid : Except ε α → σ → Prop} {post : Except ε β → σ → Prop} (hx : Ensures x s mid)
    (hok : ∀ a s', mid (.ok a) s' → Ensures (g a) s' post)
    (herror : ∀ e s', mid (.error e) s' → post (.error e) s') : Ensures (x >>= g) s post := by
  rw [ensures_bind]
  refine hx.mono fun r s' h => ?_
  cases r with
  | ok a => exact hok a s' h
  | error e => exact herror e s' h

@[simp] theorem ensures_map {x : EStateM ε σ α} {g : α → β} {s : σ}
    {post : Except ε β → σ → Prop} :
    Ensures (g <$> x) s post ↔
      Ensures x s fun r s' =>
        match r with
        | .ok a => post (.ok (g a)) s'
        | .error e => post (.error e) s' := by
  simp only [Ensures, Functor.map, EStateM.map]
  cases x s <;> rfl

@[simp] theorem ensures_discard {x : EStateM ε σ α} {s : σ} {post : Except ε PUnit → σ → Prop} :
    Ensures (discard x) s post ↔
      Ensures x s fun r s' =>
        match r with
        | .ok _ => post (.ok ⟨⟩) s'
        | .error e => post (.error e) s' :=
  ensures_map

end Midend
