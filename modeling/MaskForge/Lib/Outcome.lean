import Mathlib
/-!
# Outcome — computations that fail, or do not come back at all

A computation comes back with a result or with an error, or it does not come back: it panics, or it would run on.
`Within` says that it comes back, that its result satisfies one condition and its error another; `Gives` says what its
result satisfies, if it comes back with one.  The rules follow the way a computation is put together.
-/

/-- `none` where the computation does not come back. -/
abbrev Outcome (ε α : Type) := ExceptT ε Option α

namespace Outcome

variable {ε α β : Type}

/-- A computation that always comes back. -/
def ofExcept (x : Except ε α) : Outcome ε α := ExceptT.mk (some x)

/-- The result, and nothing else, of a computation that may panic. -/
def ofOption (o : Option α) : Outcome ε α := ExceptT.mk (o.map Except.ok)

/-- A loop over a list that collects what it computes and stops at the first error. -/
def collect (f : α → Outcome ε β) : List α → Outcome ε (List β)
  | [] => pure []
  | a :: as => do
    let b ← f a
    let bs ← collect f as
    pure (b :: bs)

/-- The computation on an optional input. -/
def optional (f : α → Outcome ε β) : Option α → Outcome ε (Option β)
  | none => pure none
  | some a => do
    let b ← f a
    pure (some b)

/-- **The computation comes back**, with such a result or such an error. -/
def Within (fails : ε → Prop) (returns : α → Prop) (x : Outcome ε α) : Prop :=
  ∃ r : Except ε α, x.run = some r ∧ (∀ a, r = .ok a → returns a) ∧ ∀ e, r = .error e → fails e

namespace Within

variable {F : ε → Prop} {P : α → Prop}

theorem pure {a : α} (h : P a) : Within F P (Pure.pure a : Outcome ε α) := by
  refine ⟨.ok a, rfl, fun b hb => ?_, fun e he => ?_⟩
  · cases hb
    exact h
  · cases he

theorem ofExcept {x : Except ε α} (hok : ∀ a, x = .ok a → P a) (herror : ∀ e, x = .error e → F e) :
    Within F P (Outcome.ofExcept x) := ⟨x, rfl, hok, herror⟩

theorem bind {x : Outcome ε α} {f : α → Outcome ε β} {Q : β → Prop} (hx : Within F P x)
    (hf : ∀ a, P a → Within F Q (f a)) : Within F Q (x >>= f) := by
  obtain ⟨r, hr, hok, herror⟩ := hx
  have hx : x = ExceptT.mk (some r) := hr
  subst hx
  cases r with
  | ok a => exact hf a (hok a rfl)
  | error e =>
    refine ⟨.error e, rfl, fun b hb => ?_, fun e' he' => ?_⟩
    · cases hb
    · cases he'
      exact herror e rfl

theorem mono {x : Outcome ε α} {Q : α → Prop} (hx : Within F P x) (h : ∀ a, P a → Q a) :
    Within F Q x := by
  obtain ⟨r, hr, hok, herror⟩ := hx
  exact ⟨r, hr, fun a ha => h a (hok a ha), herror⟩

theorem collect {f : α → Outcome ε β} {Q : β → Prop} : ∀ {l : List α}, (∀ a ∈ l, Within F Q (f a)) →
    Within F (fun bs => bs.length = l.length ∧ ∀ b ∈ bs, Q b) (Outcome.collect f l)
  | [], _ => pure ⟨rfl, fun _ h => absurd h List.not_mem_nil⟩
  | a :: l, h => by
    refine bind (h a List.mem_cons_self) fun b hb => bind (collect fun a' ha' => h a' (List.mem_cons_of_mem _ ha'))
      fun bs hbs => ?_
    refine pure ⟨congrArg Nat.succ hbs.1, fun b' hb' => ?_⟩
    rcases List.mem_cons.1 hb' with rfl | hb'
    · exact hb
    · exact hbs.2 b' hb'

theorem optional {f : α → Outcome ε β} {Q : β → Prop} : ∀ {o : Option α}, (∀ a, o = some a → Within F Q (f a)) →
    Within F (fun b => b.isSome = o.isSome) (Outcome.optional f o)
  | none, _ => pure rfl
  | some a, h => bind (h a rfl) fun _ _ => pure rfl

end Within

/-- **A result satisfies a condition**, if the computation comes back with one. -/
def Gives (returns : α → Prop) (x : Outcome ε α) : Prop := ∀ a, x.run = some (.ok a) → returns a

namespace Gives

variable {P : α → Prop} {Q : β → Prop}

theorem pure {a : α} (h : P a) : Gives P (Pure.pure a : Outcome ε α) := by
  intro b hb
  cases hb
  exact h

theorem ofExcept {x : Except ε α} (h : ∀ a, x = .ok a → P a) : Gives P (Outcome.ofExcept x) :=
  fun a ha => h a (Option.some.inj ha)

theorem ofOption {o : Option α} (h : ∀ a, o = some a → P a) : Gives P (Outcome.ofOption o : Outcome ε α) := by
  intro a ha
  obtain ⟨b, hb, heq⟩ := Option.map_eq_some_iff.1 ha
  cases heq
  exact h a hb

theorem bind {x : Outcome ε α} {f : α → Outcome ε β} (hx : Gives P x) (hf : ∀ a, P a → Gives Q (f a)) :
    Gives Q (x >>= f) := by
  intro b hb
  have hrun : (x >>= f).run = x.run.bind fun r => ExceptT.bindCont f r := rfl
  rw [hrun] at hb
  obtain ⟨r, hr, hb⟩ := Option.bind_eq_some_iff.1 hb
  cases r with
  | ok a => exact hf a (hx a hr) b hb
  | error e => cases hb

theorem mono {x : Outcome ε α} {P' : α → Prop} (hx : Gives P x) (h : ∀ a, P a → P' a) : Gives P' x :=
  fun a ha => h a (hx a ha)

theorem collect {f : α → Outcome ε β} {R : α → β → Prop} : ∀ {l : List α}, (∀ a ∈ l, Gives (R a) (f a)) →
    Gives (List.Forall₂ R l) (Outcome.collect f l)
  | [], _ => pure .nil
  | a :: _, h => (h a List.mem_cons_self).bind fun _ hb =>
    (collect fun a' ha' => h a' (List.mem_cons_of_mem _ ha')).bind fun _ hbs =>
    pure (.cons hb hbs)

theorem optional {f : α → Outcome ε β} {R : α → β → Prop} : ∀ {o : Option α}, (∀ a, o = some a → Gives (R a) (f a)) →
    Gives (Option.Rel R o) (Outcome.optional f o)
  | none, _ => pure .none
  | some a, h => (h a rfl).bind fun _ hb => pure (.some hb)

end Gives

end Outcome
