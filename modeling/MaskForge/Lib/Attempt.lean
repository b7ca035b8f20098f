import Mathlib
/-!
# Attempt — computations on a state that may fail and keep what they did to it

A failed computation leaves the state where it stopped.  An invariant that every primitive step keeps is kept by every
computation built from them, whether it fails or not.
-/

/-- A computation on a state `σ`: its result or its error, and the state after it. -/
def Attempt (σ ε α : Type) : Type := σ → Except ε α × σ

namespace Attempt

variable {σ ε α β : Type}

protected def pure (a : α) : Attempt σ ε α := fun s => (.ok a, s)

protected def bind (x : Attempt σ ε α) (f : α → Attempt σ ε β) : Attempt σ ε β := fun s =>
  match x s with
  | (.ok a, s') => f a s'
  | (.error e, s') => (.error e, s')

instance : Monad (Attempt σ ε) where
  pure := Attempt.pure
  bind := Attempt.bind

/-- Parts of a sequence may be taken together. -/
theorem bind_assoc {γ : Type} (x : Attempt σ ε α) (f : α → Attempt σ ε β) (g : β → Attempt σ ε γ) :
    x >>= f >>= g = x >>= fun a => f a >>= g := by
  funext s
  show Attempt.bind (Attempt.bind x f) g s = Attempt.bind x (fun a => Attempt.bind (f a) g) s
  unfold Attempt.bind
  cases x s with
  | mk result s' => cases result <;> rfl

/-- A step that reads the state, may fail, and changes it only where it succeeds. -/
def step (f : σ → Except ε (α × σ)) : Attempt σ ε α := fun s =>
  match f s with
  | .ok (a, s') => (.ok a, s')
  | .error e => (.error e, s)

/-- A result that does not depend on the state. -/
def lift (x : Except ε α) : Attempt σ ε α := fun s => (x, s)

def get : Attempt σ ε σ := fun s => (.ok s, s)

def modify (f : σ → σ) : Attempt σ ε Unit := fun s => (.ok (), f s)

/-- A loop over a list that collects what it computes and stops at the first error. -/
def collect (f : α → Attempt σ ε β) : List α → Attempt σ ε (List β)
  | [] => pure []
  | a :: as => do
    let b ← f a
    let bs ← collect f as
    pure (b :: bs)

/-- A loop over a list with an accumulator. -/
def loop (f : β → α → Attempt σ ε β) : β → List α → Attempt σ ε β
  | b, [] => pure b
  | b, a :: as => do
    let b' ← f b a
    loop f b' as

/-- The computation on an optional input. -/
def optional (f : α → Attempt σ ε β) : Option α → Attempt σ ε (Option β)
  | none => pure none
  | some a => do
    let b ← f a
    pure (some b)

/-- From a state with `P` the computation ends in one with `R`, also where it fails. -/
def Leads (P R : σ → Prop) (x : Attempt σ ε α) : Prop := ∀ s, P s → R (x s).2

/-- **The invariant survives the computation.** -/
abbrev Keeps (inv : σ → Prop) (x : Attempt σ ε α) : Prop := Leads inv inv x

/-- A computation that keeps `P`, followed by one that leads on from it. -/
theorem Leads.bind {P R : σ → Prop} {x : Attempt σ ε α} {f : α → Attempt σ ε β} (hx : Keeps P x) (hPR : ∀ s, P s → R s)
    (hf : ∀ a, Leads P R (f a)) : Leads P R (x >>= f) := by
  intro s hs
  have h := hx s hs
  show R (Attempt.bind x f s).2
  rw [Attempt.bind]
  split
  · rename_i a s' he
    rw [he] at h
    exact hf a s' h
  · rename_i e s' he
    rw [he] at h
    exact hPR s' h

namespace Keeps

variable {inv : σ → Prop}

theorem pure (a : α) : Keeps inv (Pure.pure a : Attempt σ ε α) := fun _ h => h

theorem lift (x : Except ε α) : Keeps inv (Attempt.lift x) := fun _ h => h

theorem get : Keeps inv (Attempt.get : Attempt σ ε σ) := fun _ h => h

theorem modify {f : σ → σ} (hf : ∀ s, inv s → inv (f s)) : Keeps inv (Attempt.modify f : Attempt σ ε Unit) := hf

theorem step {f : σ → Except ε (α × σ)} (hf : ∀ s a s', inv s → f s = .ok (a, s') → inv s') :
    Keeps inv (Attempt.step f) := by
  intro s hs
  rw [Attempt.step]
  split
  · rename_i a s' h
    exact hf s a s' hs h
  · exact hs

theorem bind {x : Attempt σ ε α} {f : α → Attempt σ ε β} (hx : Keeps inv x) (hf : ∀ a, Keeps inv (f a)) :
    Keeps inv (x >>= f) :=
  Leads.bind hx (fun _ h => h) hf

theorem collect {f : α → Attempt σ ε β} (hf : ∀ a, Keeps inv (f a)) : ∀ l, Keeps inv (Attempt.collect f l)
  | [] => pure _
  | a :: l => (hf a).bind fun _ => (collect hf l).bind fun _ => pure _

theorem loop {f : β → α → Attempt σ ε β} (hf : ∀ b a, Keeps inv (f b a)) : ∀ l b, Keeps inv (Attempt.loop f b l)
  | [], _ => pure _
  | a :: l, b => (hf b a).bind fun b' => loop hf l b'

theorem optional {f : α → Attempt σ ε β} (hf : ∀ a, Keeps inv (f a)) : ∀ o, Keeps inv (Attempt.optional f o)
  | none => pure _
  | some a => (hf a).bind fun _ => pure _

end Keeps

/-- How a computation ends from a state: `returns` holds of its result and the state after it, or `fails` of its error
and that state. -/
def Ends (x : Attempt σ ε α) (s : σ) (returns : α → σ → Prop) (fails : ε → σ → Prop) : Prop :=
  match x s with
  | (.ok a, t) => returns a t
  | (.error e, t) => fails e t

namespace Ends

variable {s : σ} {fails : ε → σ → Prop} {x : Attempt σ ε α} {returns : β → σ → Prop}

theorem ok {R : α → σ → Prop} {a : α} {t : σ} (h : Ends x s R fails) (hx : x s = (.ok a, t)) : R a t := by
  rw [Ends, hx] at h
  exact h

theorem error {R : α → σ → Prop} {e : ε} {t : σ} (h : Ends x s R fails) (hx : x s = (.error e, t)) : fails e t := by
  rw [Ends, hx] at h
  exact h

theorem of_isOk {R : α → σ → Prop} {x : Attempt σ ε α} (h : Ends x s R fails) (hok : (x s).1.isOk = true) :
    ∃ a t, x s = (.ok a, t) ∧ R a t := by
  unfold Ends at h
  split at h
  · rename_i a t hx
    exact ⟨a, t, hx, h⟩
  · rename_i e t hx
    rw [hx] at hok
    cases hok

theorem of {R : α → σ → Prop} (hok : ∀ a t, x s = (.ok a, t) → R a t)
    (herror : ∀ e t, x s = (.error e, t) → fails e t) :
    Ends x s R fails := by
  unfold Ends
  split
  · rename_i a t h
    exact hok a t h
  · rename_i e t h
    exact herror e t h

theorem pure {b : β} (h : returns b s) : Ends (Pure.pure b) s returns fails := h

theorem get {R : σ → σ → Prop} (h : R s s) : Ends Attempt.get s R fails := h

theorem modify {R : Unit → σ → Prop} {f : σ → σ} (h : R () (f s)) : Ends (Attempt.modify f) s R fails := h

theorem bind {f : α → Attempt σ ε β} (h : Ends x s (fun a t => Ends (f a) t returns fails) fails) :
    Ends (x >>= f) s returns fails := by
  show Ends (Attempt.bind x f) s returns fails
  unfold Ends Attempt.bind at *
  split at h
  · exact h
  · exact h

theorem mono {R R' : α → σ → Prop} {F F' : ε → σ → Prop} (h : Ends x s R F) (hR : ∀ a t, R a t → R' a t)
    (hF : ∀ e t, F e t → F' e t) : Ends x s R' F' := by
  unfold Ends at *
  split at h
  · exact hR _ _ h
  · exact hF _ _ h

theorem and {R R' : α → σ → Prop} {F F' : ε → σ → Prop} (h : Ends x s R F) (h' : Ends x s R' F') :
    Ends x s (fun a t => R a t ∧ R' a t) fun e t => F e t ∧ F' e t :=
  .of (fun _ _ hx => ⟨h.ok hx, h'.ok hx⟩) fun _ _ hx => ⟨h.error hx, h'.error hx⟩

theorem trivial (x : Attempt σ ε α) (s : σ) : Ends x s (fun _ _ => True) fun _ _ => True :=
  .of (fun _ _ _ => True.intro) fun _ _ _ => True.intro

/-- A first part, and what follows it from each state it may leave. -/
theorem seq {R : α → σ → Prop} {F : ε → σ → Prop} {f : α → Attempt σ ε β} (h : Ends x s R F)
    (hF : ∀ e t, F e t → fails e t) (hf : ∀ a t, R a t → Ends (f a) t returns fails) : Ends (x >>= f) s returns fails :=
  bind (h.mono hf hF)

end Ends

end Attempt
