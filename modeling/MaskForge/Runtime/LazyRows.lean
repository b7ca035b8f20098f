import MaskForge.Lib.Runs
import MaskForge.Primitives
/-!
# LazyRows — the lazily filled mask rows of an artifact

Every state has a slot that is decided once: its mask, an error, or that it stays uncached.  The thread that wins
an empty slot reserves the bytes of an entry, computes, gives the bytes back if that failed, and publishes; the
others wait for what it publishes.  An error stays in the slot as a mask does, so what failed once for want of
memory fails from then on.
-/
namespace MaskForge
namespace LazyRows

/-- A slot's outcome once decided. -/
inductive SlotValue (M E : Type) where
  | cached (r : Except E M)
  | uncached

/-- A `OnceLock`, with how far its winner has got. -/
inductive Slot (M E : Type) where
  | empty
  | entered
  | reserved
  | holding (v : SlotValue M E)
  | decided (v : SlotValue M E)

/-- A call: its state, and the error its own `compute` fails with, if it does. -/
structure Query (E : Type) where
  state : Nat
  fails : Option E

inductive Thread (E : Type) where
  | idle
  | waiting (q : Query E)
  | winning (q : Query E)
  | computing (q : Query E)

structure State (M E : Type) where
  rows : List (Slot M E)
  retained : Nat
  threads : Nat → Thread E
  answers : List (Query E × Except E M)

inductive Event (E : Type) where
  | query (t : Nat) (q : Query E)
  | wake (t : Nat)
  | reserve (t : Nat)
  | compute (t : Nat)
  | publish (t : Nat)

section
variable {M E : Type} (mask : Nat → M) (entryBytes budget : Nat)

/-- `compute` of a call: the state's mask, or its error. -/
def Query.own (q : Query E) : Except E M :=
  match q.fails with
  | none => .ok (mask q.state)
  | some e => .error e

namespace State

def init (stateCount : Nat) : State M E := ⟨List.replicate stateCount .empty, 0, fun _ => .idle, []⟩

/-- A thread has its answer. -/
def answer (s : State M E) (t : Nat) (q : Query E) (r : Except E M) : State M E :=
  { s with threads := Function.update s.threads t .idle, answers := (q, r) :: s.answers }

/-- What a decided slot gives a call; an uncached one leaves it to its own `compute`. -/
def read (s : State M E) (t : Nat) (q : Query E) : SlotValue M E → State M E
  | .cached r => s.answer t q r
  | .uncached => { s with threads := Function.update s.threads t (.computing q) }

/-- `try_reserve`. -/
def fits (s : State M E) : Bool :=
  decide (s.retained + entryBytes ≤ usizeMax) && decide (s.retained + entryBytes ≤ budget)

def put (s : State M E) (q : Query E) (slot : Slot M E) : State M E := { s with rows := s.rows.set q.state slot }

/-- One atomic step of one thread in `get_or_compute`. -/
def step (s : State M E) : Event E → Option (State M E)
  | .query t q => match s.threads t, s.rows[q.state]? with
    | .idle, some (.decided v) => some (s.read t q v)
    | .idle, some .empty => some { s.put q .entered with threads := Function.update s.threads t (.winning q) }
    | .idle, some _ => some { s with threads := Function.update s.threads t (.waiting q) }
    | _, _ => none
  | .wake t => match s.threads t with
    | .waiting q => match s.rows[q.state]? with
      | some (.decided v) => some (s.read t q v)
      | _ => none
    | _ => none
  | .reserve t => match s.threads t with
    | .winning q => match s.rows[q.state]? with
      | some .entered =>
        if s.fits entryBytes budget then some { s.put q .reserved with retained := s.retained + entryBytes }
        else some (s.put q (.holding .uncached))
      | _ => none
    | _ => none
  | .compute t => match s.threads t with
    | .winning q => match s.rows[q.state]? with
      | some .reserved => match q.fails with
        | none => some (s.put q (.holding (.cached (.ok (mask q.state)))))
        -- the reservation is given back, and the error goes into the slot
        | some e => some { s.put q (.holding (.cached (.error e))) with retained := s.retained - entryBytes }
      | _ => none
    | .computing q => some (s.answer t q (q.own mask))
    | _ => none
  | .publish t => match s.threads t with
    | .winning q => match s.rows[q.state]? with
      | some (.holding v) => some ((s.put q (.decided v)).read t q v)
      | _ => none
    | _ => none

end State

/-! ### What every run keeps -/

namespace Slot

/-- A slot that holds a mask, published or about to be. -/
def mask? : Slot M E → Option M
  | .holding (.cached (.ok m)) | .decided (.cached (.ok m)) => some m
  | _ => none

def error? : Slot M E → Option E
  | .holding (.cached (.error e)) | .decided (.cached (.error e)) => some e
  | _ => none

/-- A slot whose entry is accounted for. -/
def charged : Slot M E → Bool
  | .reserved => true
  | slot => slot.mask?.isSome

/-- A slot whose winner is at work. -/
def open? : Slot M E → Bool
  | .entered | .reserved | .holding _ => true
  | _ => false

end Slot

/-- What one step can do. -/
inductive Step (s : State M E) : Event E → State M E → Prop where
  | read {t : Nat} {q : Query E} {v : SlotValue M E} {e : Event E} (ht : s.threads t = .idle ∨ s.threads t = .waiting q)
      (he : e = .query t q ∨ e = .wake t) (hr : s.rows[q.state]? = some (.decided v)) : Step s e (s.read t q v)
  | enter {t : Nat} {q : Query E} (ht : s.threads t = .idle) (hr : s.rows[q.state]? = some .empty) :
      Step s (.query t q) { s.put q .entered with threads := Function.update s.threads t (.winning q) }
  | wait {t : Nat} {q : Query E} (ht : s.threads t = .idle) :
      Step s (.query t q) { s with threads := Function.update s.threads t (.waiting q) }
  | reserve {t : Nat} {q : Query E} (ht : s.threads t = .winning q) (hr : s.rows[q.state]? = some .entered)
      (hfits : s.fits entryBytes budget = true) :
      Step s (.reserve t) { s.put q .reserved with retained := s.retained + entryBytes }
  | refuse {t : Nat} {q : Query E} (ht : s.threads t = .winning q) (hr : s.rows[q.state]? = some .entered) :
      Step s (.reserve t) (s.put q (.holding .uncached))
  | compute {t : Nat} {q : Query E} (ht : s.threads t = .winning q) (hr : s.rows[q.state]? = some .reserved)
      (hq : q.fails = none) : Step s (.compute t) (s.put q (.holding (.cached (.ok (mask q.state)))))
  | fail {t : Nat} {q : Query E} {e : E} (ht : s.threads t = .winning q) (hr : s.rows[q.state]? = some .reserved)
      (hq : q.fails = some e) :
      Step s (.compute t) { s.put q (.holding (.cached (.error e))) with retained := s.retained - entryBytes }
  | own {t : Nat} {q : Query E} (ht : s.threads t = .computing q) : Step s (.compute t) (s.answer t q (q.own mask))
  | publish {t : Nat} {q : Query E} {v : SlotValue M E} (ht : s.threads t = .winning q)
      (hr : s.rows[q.state]? = some (.holding v)) : Step s (.publish t) ((s.put q (.decided v)).read t q v)

variable {mask entryBytes budget} {s s' : State M E} {e : Event E}

theorem step_cases (h : s.step mask entryBytes budget e = some s') : Step mask entryBytes budget s e s' := by
  cases e with
  | query t q =>
    rw [State.step] at h
    split at h
    · rename_i v ht hr
      cases h
      exact .read (.inl ht) (.inl rfl) hr
    · rename_i ht hr
      cases h
      exact .enter ht hr
    · rename_i ht _
      cases h
      exact .wait ht
    · cases h
  | wake t =>
    rw [State.step] at h
    split at h
    · rename_i q ht
      split at h
      · rename_i v hr
        cases h
        exact .read (.inr ht) (.inr rfl) hr
      · cases h
    · cases h
  | reserve t =>
    rw [State.step] at h
    split at h
    · rename_i q ht
      split at h
      · rename_i hr
        split at h
        · rename_i hfits
          cases h
          exact .reserve ht hr hfits
        · cases h
          exact .refuse ht hr
      · cases h
    · cases h
  | compute t =>
    rw [State.step] at h
    split at h
    · rename_i q ht
      split at h
      · rename_i hr
        split at h
        · rename_i hq
          cases h
          exact .compute ht hr hq
        · rename_i hq
          cases h
          exact .fail ht hr hq
      · cases h
    · rename_i q ht
      cases h
      exact .own ht
    · cases h
  | publish t =>
    rw [State.step] at h
    split at h
    · rename_i q ht
      split at h
      · rename_i v hr
        cases h
        exact .publish ht hr
      · cases h
    · cases h

/-- The accounting, the masks and the winners. -/
structure Sound (mask : Nat → M) (entryBytes budget : Nat) (s : State M E) : Prop where
  exact : s.retained = entryBytes * s.rows.countP Slot.charged
  within : s.retained ≤ budget
  masks : ∀ (i : Nat) slot m, s.rows[i]? = some slot → slot.mask? = some m → m = mask i
  answers : ∀ a ∈ s.answers, ∀ m, a.2 = .ok m → m = mask a.1.state
  winners : ∀ (i : Nat) slot, s.rows[i]? = some slot → slot.open? = true → ∃ t q, s.threads t = .winning q ∧ q.state = i

theorem countP_put {q : Query E} {old : Slot M E} (hr : s.rows[q.state]? = some old) (new : Slot M E) :
    (s.put q new).rows.countP Slot.charged + (if old.charged then 1 else 0) =
      s.rows.countP Slot.charged + if new.charged then 1 else 0 := by
  obtain ⟨hlt, hold⟩ := List.getElem?_eq_some_iff.1 hr
  have hset := List.countP_set (p := Slot.charged) (a := new) hlt
  rw [hold] at hset
  have hpos : old.charged = true → 0 < s.rows.countP Slot.charged :=
    fun hc => List.countP_pos_iff.2 ⟨old, List.mem_of_getElem? hr, hc⟩
  show (s.rows.set q.state new).countP Slot.charged + _ = _
  rw [hset]
  split
  · have := hpos ‹_›
    omega
  · omega

/-- A slot after one was put is that one, or was there before. -/
theorem getElem_put {q : Query E} {new slot : Slot M E} {i : Nat} (h : (s.put q new).rows[i]? = some slot) :
    (i = q.state ∧ slot = new) ∨ (i ≠ q.state ∧ s.rows[i]? = some slot) := by
  by_cases hi : i = q.state
  · refine .inl ⟨hi, ?_⟩
    have h : (s.rows.set q.state new)[i]? = some slot := h
    rw [hi, List.getElem?_set_self'] at h
    obtain ⟨-, -, rfl⟩ := Option.map_eq_some_iff.1 h
    rfl
  · refine .inr ⟨hi, ?_⟩
    have h : (s.rows.set q.state new)[i]? = some slot := h
    rwa [List.getElem?_set_ne (Ne.symm hi)] at h

theorem Sound.init (n : Nat) : Sound mask entryBytes budget (State.init n : State M E) where
  exact := by
    have hnone : (List.replicate n (Slot.empty : Slot M E)).countP Slot.charged = 0 :=
      List.countP_eq_zero.2 fun slot hslot => by rw [List.eq_of_mem_replicate hslot]; simp [Slot.charged, Slot.mask?]
    show 0 = entryBytes * _
    rw [State.init, hnone, Nat.mul_zero]
  within := Nat.zero_le _
  masks i slot m h hm := by
    rw [List.eq_of_mem_replicate (List.mem_of_getElem? h)] at hm
    cases hm
  answers a ha := absurd ha List.not_mem_nil
  winners i slot h hopen := by
    rw [List.eq_of_mem_replicate (List.mem_of_getElem? h)] at hopen
    cases hopen

/-- A thread that has no open slot moves on. -/
theorem Sound.rethread (h : Sound mask entryBytes budget s) {t : Nat}
    (ht : ∀ q slot, s.threads t = .winning q → s.rows[q.state]? = some slot → slot.open? = false) (th : Thread E) :
    Sound mask entryBytes budget { s with threads := Function.update s.threads t th } where
  exact := h.exact
  within := h.within
  masks := h.masks
  answers := h.answers
  winners i slot hi hopen := by
    obtain ⟨u, q, hu, rfl⟩ := h.winners i slot hi hopen
    refine ⟨u, q, ?_, rfl⟩
    by_cases hut : u = t
    · rw [hut] at hu
      rw [ht q slot hu hi] at hopen
      cases hopen
    · show Function.update s.threads t th u = _
      rw [Function.update_of_ne hut, hu]

/-- A thread with no slot of its own. -/
theorem not_open {t : Nat} (ht : ∀ q, s.threads t ≠ .winning q) : ∀ q slot, s.threads t = .winning q →
    s.rows[q.state]? = some slot → slot.open? = false :=
  fun q _ hq _ => absurd hq (ht q)

theorem mask?_holding (v : SlotValue M E) : (Slot.holding v).mask? = (Slot.decided v).mask? := by
  cases v with
  | uncached => rfl
  | cached r => cases r <;> rfl

/-- A winner puts a slot. -/
theorem Sound.put (h : Sound mask entryBytes budget s) {t : Nat} {q : Query E} (ht : s.threads t = .winning q)
    (new : Slot M E) (retained : Nat) (hm : ∀ m, new.mask? = some m → m = mask q.state)
    (hexact : retained = entryBytes * (s.put q new).rows.countP Slot.charged) (hwithin : retained ≤ budget) :
    Sound mask entryBytes budget { s.put q new with retained := retained } where
  exact := hexact
  within := hwithin
  masks i slot m hi hslot := by
    rcases getElem_put hi with ⟨rfl, rfl⟩ | ⟨-, hi⟩
    · exact hm m hslot
    · exact h.masks i slot m hi hslot
  answers := h.answers
  winners i slot hi hopen := by
    rcases getElem_put hi with ⟨rfl, rfl⟩ | ⟨-, hi⟩
    · exact ⟨t, q, ht, rfl⟩
    · exact h.winners i slot hi hopen

theorem Sound.answer (h : Sound mask entryBytes budget s) {t : Nat} {q : Query E} {r : Except E M}
    (ht : ∀ q slot, s.threads t = .winning q → s.rows[q.state]? = some slot → slot.open? = false)
    (hr : ∀ m, r = .ok m → m = mask q.state) : Sound mask entryBytes budget (s.answer t q r) := by
  refine { h.rethread ht .idle with answers := fun a ha => ?_ }
  rcases List.mem_cons.1 ha with rfl | ha
  · exact hr
  · exact h.answers a ha

theorem Sound.read (h : Sound mask entryBytes budget s) {t : Nat} {q : Query E} {v : SlotValue M E}
    (hr : s.rows[q.state]? = some (.decided v))
    (ht : ∀ q slot, s.threads t = .winning q → s.rows[q.state]? = some slot → slot.open? = false) :
    Sound mask entryBytes budget (s.read t q v) := by
  cases v with
  | uncached => exact h.rethread ht _
  | cached r =>
    refine h.answer ht fun m hm => ?_
    rw [hm] at hr
    exact h.masks q.state _ m hr rfl

/-- **Every step keeps the accounting and the masks.** -/
theorem Sound.step (h : Sound mask entryBytes budget s) (hstep : s.step mask entryBytes budget e = some s') :
    Sound mask entryBytes budget s' := by
  cases step_cases hstep with
  | @read t q v e ht he hr =>
    refine h.read hr (not_open fun q' hq' => ?_)
    rcases ht with ht | ht <;> rw [ht] at hq' <;> cases hq'
  | @enter t q ht hr =>
    have hcount := countP_put hr .entered
    have h' := h.rethread (not_open fun q' hq' => by rw [ht] at hq'; cases hq') (Thread.winning q)
    refine h'.put (Function.update_self t _ _) .entered s.retained (fun m hm => by cases hm) ?_ h.within
    rw [h.exact]
    exact congrArg _ hcount.symm
  | @wait t q ht => exact h.rethread (not_open fun q' hq' => by rw [ht] at hq'; cases hq') _
  | @reserve t q ht hr hfits =>
    have hcount : (s.put q .reserved).rows.countP Slot.charged = _ + 1 := countP_put hr .reserved
    simp only [State.fits, Bool.and_eq_true, decide_eq_true_eq] at hfits
    refine h.put ht .reserved _ (fun m hm => by cases hm) ?_ hfits.2
    rw [hcount, Nat.mul_add, Nat.mul_one, h.exact]
  | @refuse t q ht hr =>
    have hcount := countP_put hr (.holding .uncached)
    refine h.put ht (.holding .uncached) s.retained (fun m hm => by cases hm) ?_ h.within
    rw [h.exact]
    exact congrArg _ hcount.symm
  | @compute t q ht hr hq =>
    have hcount := countP_put hr (.holding (.cached (.ok (mask q.state))))
    refine h.put ht (.holding (.cached (.ok (mask q.state)))) s.retained (fun m hm => ?_) ?_ h.within
    · cases hm
      rfl
    · rw [h.exact]
      exact congrArg _ (Nat.add_right_cancel hcount).symm
  | @fail t q err ht hr hq =>
    have hcount : (s.put q (.holding (.cached (.error err)))).rows.countP Slot.charged + 1 =
      s.rows.countP Slot.charged := countP_put hr (.holding (.cached (.error err)))
    refine h.put ht (.holding (.cached (.error err))) _ (fun m hm => by cases hm) ?_ ((Nat.sub_le _ _).trans h.within)
    rw [h.exact, ← hcount, Nat.mul_add, Nat.mul_one, Nat.add_sub_cancel]
  | @own t q ht =>
    refine h.answer (not_open fun q' hq' => by rw [ht] at hq'; cases hq') fun m hm => ?_
    unfold Query.own at hm
    split at hm
    · cases hm
      rfl
    · cases hm
  | @publish t q v ht hr =>
    have hcount := countP_put hr (.decided v)
    have hcharged : (Slot.holding v).charged = (Slot.decided v).charged := by
      rw [Slot.charged, Slot.charged, mask?_holding]
      all_goals simp
    have hput : Sound mask entryBytes budget (s.put q (.decided v)) := by
      refine h.put ht (.decided v) s.retained (fun m hm => ?_) ?_ h.within
      · exact h.masks q.state _ m hr ((mask?_holding v).trans hm)
      · rw [hcharged] at hcount
        rw [h.exact]
        exact congrArg _ (Nat.add_right_cancel hcount).symm
    have hput_row : (s.put q (.decided v)).rows[q.state]? = some (.decided v) := by
      show (s.rows.set q.state (.decided v))[q.state]? = _
      rw [List.getElem?_set_self (List.getElem?_eq_some_iff.1 hr).1]
    refine hput.read hput_row fun q' slot hq' hslot => ?_
    have hq' : s.threads t = .winning q' := hq'
    rw [ht] at hq'
    cases hq'
    rw [hput_row] at hslot
    cases hslot
    rfl

/-! ### What a failed compute leaves -/

/-- No slot holds an error, and no call was refused but for its own `compute`. -/
structure NoTrace (s : State M E) : Prop where
  rows : ∀ slot ∈ s.rows, slot.error? = none
  answers : ∀ a ∈ s.answers, a.1.fails = none → ∃ m, a.2 = .ok m

/-- The winner of a slot, its entry reserved, does not fail to compute. -/
def Calm (s : State M E) : Event E → Prop
  | .compute t => ∀ q, s.threads t = .winning q → s.rows[q.state]? = some .reserved → q.fails = none
  | _ => True

theorem NoTrace.put (h : NoTrace s) (q : Query E) (new : Slot M E) (hnew : new.error? = none) :
    NoTrace (s.put q new) where
  rows slot hslot := by
    rcases List.mem_or_eq_of_mem_set hslot with hslot | rfl
    · exact h.rows slot hslot
    · exact hnew
  answers := h.answers

theorem NoTrace.answer (h : NoTrace s) (t : Nat) {q : Query E} {r : Except E M} (hr : q.fails = none → ∃ m, r = .ok m) :
    NoTrace (s.answer t q r) where
  rows := h.rows
  answers a ha := by
    rcases List.mem_cons.1 ha with rfl | ha
    · exact hr
    · exact h.answers a ha

theorem NoTrace.read (h : NoTrace s) (t : Nat) (q : Query E) {v : SlotValue M E} (hv : (Slot.decided v).error? = none) :
    NoTrace (s.read t q v) := by
  cases v with
  | uncached => exact ⟨h.rows, h.answers⟩
  | cached r => cases r with
    | ok m => exact h.answer t fun _ => ⟨m, rfl⟩
    | error e => cases hv

/-- **One step leaves no trace exactly if it is calm.** -/
theorem calm_iff (h : NoTrace s) (hstep : s.step mask entryBytes budget e = some s') : Calm s e ↔ NoTrace s' := by
  cases step_cases hstep with
  | @read t q v e ht he hr =>
    refine iff_of_true ?_ (h.read t q (h.rows _ (List.mem_of_getElem? hr)))
    rcases he with rfl | rfl <;> trivial
  | @enter t q ht hr => exact iff_of_true trivial ⟨(h.put q .entered rfl).rows, h.answers⟩
  | @wait t q ht => exact iff_of_true trivial ⟨h.rows, h.answers⟩
  | @reserve t q ht hr hfits => exact iff_of_true trivial ⟨(h.put q .reserved rfl).rows, h.answers⟩
  | @refuse t q ht hr => exact iff_of_true trivial (h.put q _ rfl)
  | @compute t q ht hr hq =>
    refine iff_of_true (fun q' hq' _ => ?_) (h.put q _ rfl)
    rw [ht] at hq'
    cases hq'
    exact hq
  | @fail t q err ht hr hq =>
    refine iff_of_false (fun hcalm => ?_) fun hnone => ?_
    · have := hcalm q ht hr
      rw [hq] at this
      cases this
    · have hlt := (List.getElem?_eq_some_iff.1 hr).1
      have hmem : Slot.holding (.cached (.error err)) ∈ s.rows.set q.state (.holding (.cached (.error err))) :=
        List.mem_set hlt _
      cases hnone.rows _ hmem
  | @own t q ht =>
    refine iff_of_true (fun q' hq' _ => ?_) (h.answer t fun hq => ⟨mask q.state, ?_⟩)
    · rw [ht] at hq'
      cases hq'
    · rw [Query.own, hq]
  | @publish t q v ht hr =>
    have hv : (Slot.decided v).error? = none := by
      have hold := h.rows _ (List.mem_of_getElem? hr)
      cases v with
      | uncached => rfl
      | cached r => cases r with
        | ok m => rfl
        | error e => cases hold
    exact iff_of_true trivial ((h.put q _ hv).read t q hv)

variable (mask entryBytes budget) in
/-- A run of any number of threads over `n` slots. -/
def Run (n : Nat) (es : List (Event E)) : Option (State M E) :=
  Runs.run (State.step mask entryBytes budget) (State.init n) es

/-- **Lazy rows in every run.**  Every mask answered is the state's, and the retained bytes are those of the masks held,
once no winner is at work, and within the budget throughout; and no failed compute leaves a trace, all along the run,
exactly if none fails for a winner that has its entry reserved. -/
theorem lazyRows_sound (mask : Nat → M) (entryBytes budget n : Nat) (es : List (Event E)) (s : State M E)
    (hrun : Run mask entryBytes budget n es = some s) :
    (∀ a ∈ s.answers, ∀ m, a.2 = .ok m → m = mask a.1.state) ∧ s.retained ≤ budget ∧
      s.retained = entryBytes * s.rows.countP Slot.charged ∧
        ((∀ t q, s.threads t ≠ .winning q) → s.retained = entryBytes * s.rows.countP fun slot => slot.mask?.isSome) ∧
          (Runs.Each (State.step mask entryBytes budget) Calm (State.init n) es ↔
            ∀ es' s', es' <+: es → Run mask entryBytes budget n es' = some s' → NoTrace s') := by
  have h : Sound mask entryBytes budget s := Runs.run_inv (fun _ _ _ h hstep => h.step hstep) (Sound.init n) hrun
  have hinit : NoTrace (State.init n : State M E) :=
    ⟨fun slot hslot => by rw [List.eq_of_mem_replicate hslot]; rfl, fun a ha => absurd ha List.not_mem_nil⟩
  refine ⟨h.answers, h.within, h.exact, fun hquiet => ?_,
    Runs.each_iff_prefixes (fun s e s' hs hstep => calm_iff hs hstep) hinit hrun⟩
  rw [h.exact]
  congr 1
  refine List.countP_congr fun slot hslot => ?_
  obtain ⟨i, hi, rfl⟩ := List.mem_iff_getElem.1 hslot
  have hclosed : ∀ t q, s.threads t ≠ .winning q := hquiet
  cases hrow : s.rows[i] with
  | reserved =>
    obtain ⟨t, q, ht, -⟩ := h.winners i _ (List.getElem?_eq_getElem hi) (by rw [hrow]; rfl)
    exact absurd ht (hclosed t q)
  | _ => rfl

/-- Two threads ask for one state; the first is refused memory and the second is not. -/
def refusedThenAsked : List (Event Unit) :=
  [.query 0 ⟨0, some ()⟩, .reserve 0, .compute 0, .publish 0, .query 1 ⟨0, none⟩]

theorem lazyRows_sound_refused : ∃ s : State Nat Unit, Run id 100 1024 4 refusedThenAsked = some s ∧
    s.retained = 0 ∧ (∀ a ∈ s.answers, ∀ m, a.2 = .ok m → m = a.1.state) ∧
      ¬∀ es' (s' : State Nat Unit), es' <+: refusedThenAsked → Run id 100 1024 4 es' = some s' → NoTrace s' := by
  obtain ⟨s, hs⟩ : ∃ s : State Nat Unit, Run id 100 1024 4 refusedThenAsked = some s := ⟨_, rfl⟩
  obtain ⟨hmask, -, hret, -, htrace⟩ := lazyRows_sound id 100 1024 4 refusedThenAsked s hs
  cases hs
  refine ⟨_, rfl, hret, hmask, fun hall => ?_⟩
  have hcalm := htrace.2 hall
  have hfail : (some () : Option Unit) = none := ((hcalm.2 _ rfl).2 _ rfl).1 ⟨0, some ()⟩ rfl rfl
  cases hfail

/-- The second call computes its mask, and is answered with the first call's error. -/
theorem lazyRows_keep_errors : ∃ s : State Nat Unit, Run id 100 1024 4 refusedThenAsked = some s ∧
    ∃ a ∈ s.answers, a.1.fails = none ∧ a.2 = .error () :=
  ⟨_, rfl, _, List.mem_cons_self, rfl, rfl⟩

end
end LazyRows
end MaskForge
