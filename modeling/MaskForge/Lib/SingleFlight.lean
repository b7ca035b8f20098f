import MaskForge.Lib.Runs
/-!
# SingleFlight — one builder for a key, and its waiters

A store answers a lookup at once or not.  The first thread to miss a key claims it, runs its build outside the lock and
publishes the result in a slot; threads that miss the key meanwhile wait for that slot.  A build may look up another key
of the same store, and then publishes what that lookup returned; a build that panics publishes a failure on the way out.

Every event is one section under a lock.  Threads are numbered, and any of them may take the next step.
-/
namespace SingleFlight

/-- What a store does in its sections.  `O` is what the outside answers during a lookup, `X` what the caller says of a
build, `T` what a builder notes when it claims a key. -/
structure Ops (S K X T O R : Type) where
  lookup : S → O → K → Option R × S
  ticket : S → T
  retain : S → K → X → T → R → S
  /-- A waiter took a result. -/
  waited : S → R → S
  clear : S → S
  /-- The result of a build that published none. -/
  failed : R

/-- What a build has heard from the lookup it made. -/
inductive Answer (R : Type) where
  | pending
  | returned (r : R)
  | panicked

inductive Phase (X T R : Type) where
  | building (x : X) (ticket : T) (answer : Answer R)
  | published (x : X) (ticket : T) (r : R)
  | failing

inductive Frame (K X T R : Type) where
  | waiting (k : K) (slot : Nat)
  | busy (k : K) (slot : Nat) (phase : Phase X T R)

/-- The store with its builds in flight, the slots handed out so far, the calls each thread is in, innermost first, and
everything builders have published. -/
structure State (S K X T R : Type) where
  store : S
  inFlight : List (K × Nat)
  slots : List (K × Option R)
  threads : Nat → List (Frame K X T R)
  built : List (K × Nat × R)

inductive Event (K X O R : Type) where
  | call (t : Nat) (k : K) (x : X) (o : O)
  | wake (t : Nat)
  | publish (t : Nat) (r : R)
  | settle (t : Nat)
  | panic (t : Nat)
  | unwind (t : Nat)
  | clear

variable {S K X T O R : Type}

/-- A call made by a build ends. -/
def giveBack (a : Answer R) : List (Frame K X T R) → List (Frame K X T R)
  | .busy k slot (.building x ticket _) :: fs => .busy k slot (.building x ticket a) :: fs
  | fs => fs

/-- A thread calls from outside, or from a build that has not called yet. -/
def canCall : List (Frame K X T R) → Bool
  | [] => true
  | .busy _ _ (.building _ _ .pending) :: _ => true
  | _ => false

/-- What a build publishes: what its lookup returned, if it made one. -/
def Answer.result (r : R) : Answer R → Option R
  | .pending => some r
  | .returned r' => some r'
  | .panicked => none

variable (ops : Ops S K X T O R)

namespace State
variable [DecidableEq K]

/-- The section that looks a key up: a hit, a wait, or a claim. -/
def enter (s : State S K X T R) (t : Nat) (k : K) (x : X) (o : O) : State S K X T R :=
  match ops.lookup s.store o k with
  | (some r, store) =>
    { s with store, threads := Function.update s.threads t (giveBack (.returned r) (s.threads t)) }
  | (none, store) => match s.inFlight.lookup k with
    | some slot => { s with store, threads := Function.update s.threads t (.waiting k slot :: s.threads t) }
    | none =>
      { s with
        store
        inFlight := (k, s.slots.length) :: s.inFlight
        slots := s.slots ++ [(k, none)]
        threads := Function.update s.threads t
          (.busy k s.slots.length (.building x (ops.ticket store) .pending) :: s.threads t) }

def step (s : State S K X T R) : Event K X O R → Option (State S K X T R)
  | .call t k x o => if canCall (s.threads t) then some (s.enter ops t k x o) else none
  | .wake t => match s.threads t with
    | .waiting _ slot :: fs => match s.slots[slot]? with
      | some (_, some r) =>
        some { s with
          store := ops.waited s.store r
          threads := Function.update s.threads t (giveBack (.returned r) fs) }
      | _ => none
    | _ => none
  | .publish t r => match s.threads t with
    | .busy k slot (.building x ticket answer) :: fs => (answer.result r).map (fun r =>
      { s with
        slots := s.slots.modify slot (fun p => (p.1, some r))
        threads := Function.update s.threads t (.busy k slot (.published x ticket r) :: fs)
        built := (k, slot, r) :: s.built })
    | _ => none
  | .settle t => match s.threads t with
    | .busy k _ (.published x ticket r) :: fs =>
      some { s with
        store := ops.retain s.store k x ticket r
        inFlight := s.inFlight.filter (fun p => p.1 ≠ k)
        threads := Function.update s.threads t (giveBack (.returned r) fs) }
    | _ => none
  | .panic t => match s.threads t with
    | .busy k slot (.building _ _ _) :: fs =>
      some { s with
        slots := s.slots.modify slot (fun p => (p.1, some (p.2.getD ops.failed)))
        threads := Function.update s.threads t (.busy k slot .failing :: fs) }
    | _ => none
  | .unwind t => match s.threads t with
    | .busy k _ .failing :: fs =>
      some { s with
        inFlight := s.inFlight.filter (fun p => p.1 ≠ k)
        threads := Function.update s.threads t (giveBack .panicked fs) }
    | _ => none
  | .clear => some { s with store := ops.clear s.store }

end State

def init (store : S) : State S K X T R := ⟨store, [], [], fun _ => [], []⟩

/-! ## Well-formed states -/

def Frame.owned : Frame K X T R → Option (K × Nat)
  | .waiting _ _ => none
  | .busy k slot _ => some (k, slot)

def owns (fs : List (Frame K X T R)) : List (K × Nat) := fs.filterMap Frame.owned

/-- What the slot of a frame holds. -/
def FrameOk (failed : R) (slots : List (K × Option R)) (built : List (K × Nat × R)) : Frame K X T R → Prop
  | .waiting k slot => ∃ r, slots[slot]? = some (k, r)
  | .busy k slot (.building _ _ _) => slots[slot]? = some (k, none)
  | .busy k slot (.published _ _ r) => slots[slot]? = some (k, some r) ∧ (k, slot, r) ∈ built
  | .busy k slot .failing => slots[slot]? = some (k, some failed)

/-- Builds in flight and the frames that run them are the same, one for a key; the store has no key in flight; and every
slot is open while its build is in flight, then holds what that build published. -/
structure Wf (Has : S → K → Prop) (s : State S K X T R) : Prop where
  keys : (s.inFlight.map Prod.fst).Nodup
  mine : ∀ t, ((owns (s.threads t)).map Prod.fst).Nodup
  apart : ∀ t u, ∀ p ∈ owns (s.threads t), ∀ q ∈ owns (s.threads u), p.1 = q.1 → t = u
  flies : ∀ t, ∀ p ∈ owns (s.threads t), p ∈ s.inFlight
  flown : ∀ p ∈ s.inFlight, ∃ t, p ∈ owns (s.threads t)
  absent : ∀ p ∈ s.inFlight, ¬Has s.store p.1
  claimed : ∀ p ∈ s.inFlight, ∃ r, s.slots[p.2]? = some (p.1, r)
  opened : ∀ (i : Nat) k, s.slots[i]? = some (k, none) → (k, i) ∈ s.inFlight
  filled : ∀ (i : Nat) k r, s.slots[i]? = some (k, some r) → (k, i, r) ∈ s.built ∨ r = ops.failed
  frames : ∀ t, ∀ f ∈ s.threads t, FrameOk ops.failed s.slots s.built f

/-- What a store has to keep: an invariant, and which keys it has. -/
structure Lawful (Inv : S → Prop) (Has : S → K → Prop) (okLookup : S → O → K → Prop)
    (okRetain : S → K → X → T → R → Prop) : Prop where
  lookup_inv : ∀ {s o k}, Inv s → okLookup s o k → Inv (ops.lookup s o k).2
  lookup_has : ∀ {s o k k'}, Inv s → Has (ops.lookup s o k).2 k' → Has s k'
  lookup_miss : ∀ {s o k}, Inv s → (ops.lookup s o k).1 = none → ¬Has (ops.lookup s o k).2 k
  retain_inv : ∀ {s k x ticket r}, Inv s → ¬Has s k → okRetain s k x ticket r → Inv (ops.retain s k x ticket r)
  retain_has : ∀ {s k x ticket r k'}, Inv s → Has (ops.retain s k x ticket r) k' → Has s k' ∨ k' = k
  waited_inv : ∀ {s r}, Inv s → Inv (ops.waited s r)
  waited_has : ∀ {s r k}, Has (ops.waited s r) k → Has s k
  clear_inv : ∀ {s}, Inv s → Inv (ops.clear s)
  clear_has : ∀ {s k}, ¬Has (ops.clear s) k

section Steps
variable {ops} {Has : S → K → Prop} {s : State S K X T R}

theorem owns_giveBack (a : Answer R) (fs : List (Frame K X T R)) : owns (giveBack a fs) = owns fs := by
  unfold giveBack
  split <;> rfl

theorem frameOk_giveBack {failed : R} {slots : List (K × Option R)} {built : List (K × Nat × R)}
    {fs : List (Frame K X T R)} (a : Answer R) (h : ∀ f ∈ fs, FrameOk failed slots built f) :
    ∀ f ∈ giveBack a fs, FrameOk failed slots built f := by
  unfold giveBack
  split
  · rename_i k slot x ticket a' fs
    intro f hf
    rcases List.mem_cons.1 hf with rfl | hf
    · exact h (.busy k slot (.building x ticket a')) List.mem_cons_self
    · exact h f (List.mem_cons_of_mem _ hf)
  · exact h

theorem forall_update {P : Frame K X T R → Prop} {threads : Nat → List (Frame K X T R)} {t : Nat}
    {fs : List (Frame K X T R)} (hfs : ∀ f ∈ fs, P f) (h : ∀ u, u ≠ t → ∀ f ∈ threads u, P f) (u : Nat) :
    ∀ f ∈ Function.update threads t fs u, P f := by
  by_cases hu : u = t
  · rw [hu, Function.update_self]
    exact hfs
  · rw [Function.update_of_ne hu]
    exact h u hu

theorem Wf.init {store : S} : Wf ops Has (init store) where
  keys := List.nodup_nil
  mine := fun _ => List.nodup_nil
  apart := fun _ _ p hp => by cases hp
  flies := fun _ p hp => by cases hp
  flown := fun p hp => by cases hp
  absent := fun p hp => by cases hp
  claimed := fun p hp => by cases hp
  opened := fun i k h => by cases h
  filled := fun i k r h => by cases h
  frames := fun _ f hf => by cases hf

theorem Wf.top (h : Wf ops Has s) {t : Nat} {f : Frame K X T R} {fs : List (Frame K X T R)}
    (ht : s.threads t = f :: fs) :
    FrameOk ops.failed s.slots s.built f := h.frames t f (by rw [ht]; exact List.mem_cons_self)

theorem Wf.below (h : Wf ops Has s) {t : Nat} {f : Frame K X T R} {fs : List (Frame K X T R)}
    (ht : s.threads t = f :: fs) :
    ∀ f ∈ fs, FrameOk ops.failed s.slots s.built f :=
  fun f hf => h.frames t f (by rw [ht]; exact List.mem_cons_of_mem _ hf)

/-- A thread moves on without claiming or leaving a build. -/
theorem Wf.rethread (h : Wf ops Has s) {t : Nat} {fs : List (Frame K X T R)} {store : S}
    (hown : owns fs = owns (s.threads t)) (hfs : ∀ f ∈ fs, FrameOk ops.failed s.slots s.built f)
    (hstore : ∀ k, Has store k → Has s.store k) :
    Wf ops Has { s with store, threads := Function.update s.threads t fs } := by
  have howns : ∀ u, owns (Function.update s.threads t fs u) = owns (s.threads u) := by
    intro u
    by_cases hu : u = t
    · rw [hu, Function.update_self, hown]
    · rw [Function.update_of_ne hu]
  refine ⟨h.keys, fun u => ?_, fun u v => ?_, fun u => ?_, fun p hp => ?_, fun p hp hhas => ?_, h.claimed, h.opened,
    h.filled, forall_update hfs fun u _ => h.frames u⟩
  · rw [howns]
    exact h.mine u
  · rw [howns, howns]
    exact h.apart u v
  · rw [howns]
    exact h.flies u
  · obtain ⟨u, hu⟩ := h.flown p hp
    exact ⟨u, by rw [howns]; exact hu⟩
  · exact h.absent p hp (hstore _ hhas)

/-- A slot belongs to one frame. -/
theorem Wf.slot_unique (h : Wf ops Has s) {t u : Nat} {k k' : K} {slot : Nat} {r : Option R}
    (ht : (k, slot) ∈ owns (s.threads t)) (hslot : s.slots[slot]? = some (k, r))
    (hu : (k', slot) ∈ owns (s.threads u)) :
    k' = k ∧ u = t := by
  obtain ⟨r', hr'⟩ := h.claimed _ (h.flies u _ hu)
  rw [hslot] at hr'
  cases hr'
  exact ⟨rfl, h.apart u t _ hu _ ht rfl⟩

/-- Filling an open slot leaves the frames of other slots as they are. -/
theorem FrameOk.fill {failed : R} {slots : List (K × Option R)} {built built' : List (K × Nat × R)} {slot : Nat}
    {k : K} {r : R} {f : Frame K X T R} (h : FrameOk failed slots built f) (hopen : slots[slot]? = some (k, none))
    (hbuilt : ∀ p ∈ built, p ∈ built') (hother : ∀ k', f.owned ≠ some (k', slot)) :
    FrameOk failed (slots.set slot (k, some r)) built' f := by
  have hget : ∀ i, i ≠ slot → (slots.set slot (k, some r))[i]? = slots[i]? := fun i hi => List.getElem?_set_ne hi.symm
  cases f with
  | waiting k' i =>
    obtain ⟨r', hr'⟩ := h
    by_cases hi : i = slot
    · subst hi
      rw [hopen] at hr'
      cases hr'
      exact ⟨some r, List.getElem?_set_self (List.getElem?_eq_some_iff.1 hopen).1⟩
    · exact ⟨r', (hget i hi).trans hr'⟩
  | busy k' i phase =>
    have hi : i ≠ slot := fun hi => hother k' (by rw [hi]; rfl)
    cases phase with
    | building => exact (hget i hi).trans h
    | published x ticket r' => exact ⟨(hget i hi).trans h.1, hbuilt _ h.2⟩
    | failing => exact (hget i hi).trans h

theorem modify_eq_set {slots : List (K × Option R)} {slot : Nat} {p : K × Option R} (f : K × Option R → K × Option R)
    (h : slots[slot]? = some p) : slots.modify slot f = slots.set slot (f p) := by
  rw [List.modify_eq_set_getElem?, h]
  rfl

/-- A build fills its slot. -/
theorem Wf.fill (h : Wf ops Has s) {t : Nat} {k : K} {slot : Nat} {phase phase' : Phase X T R}
    {fs : List (Frame K X T R)} (ht : s.threads t = .busy k slot phase :: fs) (hopen : s.slots[slot]? = some (k, none))
    {r : R} {built : List (K × Nat × R)} (hbuilt : ∀ p ∈ s.built, p ∈ built)
    (hr : (k, slot, r) ∈ built ∨ r = ops.failed)
    (hphase : FrameOk ops.failed (s.slots.set slot (k, some r)) built (.busy k slot phase')) :
    Wf ops Has { s with
      slots := s.slots.set slot (k, some r)
      threads := Function.update s.threads t (.busy k slot phase' :: fs)
      built } := by
  have howns : ∀ u, owns (Function.update s.threads t (.busy k slot phase' :: fs) u) = owns (s.threads u) := by
    intro u
    by_cases hu : u = t
    · rw [hu, Function.update_self, ht]
      rfl
    · rw [Function.update_of_ne hu]
  have hmine : (k, slot) ∈ owns (s.threads t) := by
    rw [ht]
    exact List.mem_cons_self
  have hlt := (List.getElem?_eq_some_iff.1 hopen).1
  refine ⟨h.keys, fun u => ?_, fun u v => ?_, fun u => ?_, fun p hp => ?_, h.absent, fun p hp => ?_, fun i k' hi => ?_,
    fun i k' r' hi => ?_, forall_update (fun f hf => ?_) fun u hu f hf => ?_⟩
  · rw [howns]
    exact h.mine u
  · rw [howns, howns]
    exact h.apart u v
  · rw [howns]
    exact h.flies u
  · obtain ⟨u, hu⟩ := h.flown p hp
    exact ⟨u, by rw [howns]; exact hu⟩
  · obtain ⟨r', hr'⟩ := h.claimed p hp
    by_cases hi : p.2 = slot
    · rw [hi, hopen] at hr'
      cases hr'
      exact ⟨some r, by rw [hi]; exact List.getElem?_set_self hlt⟩
    · exact ⟨r', by rw [List.getElem?_set_ne fun h => hi h.symm]; exact hr'⟩
  · by_cases hi' : i = slot
    · subst hi'
      rw [List.getElem?_set_self hlt] at hi
      cases hi
    · rw [List.getElem?_set_ne fun h => hi' h.symm] at hi
      exact h.opened i k' hi
  · by_cases hi' : i = slot
    · subst hi'
      rw [List.getElem?_set_self hlt] at hi
      cases hi
      exact hr
    · rw [List.getElem?_set_ne fun h => hi' h.symm] at hi
      exact (h.filled i k' r' hi).imp_left fun hmem => hbuilt _ hmem
  · rcases List.mem_cons.1 hf with rfl | hf
    · exact hphase
    · refine (h.frames t f (by rw [ht]; exact List.mem_cons_of_mem _ hf)).fill hopen hbuilt fun k' hk' => ?_
      -- another frame of the thread with this slot would have this key
      have hmem : (k', slot) ∈ owns fs := List.mem_filterMap.2 ⟨f, hf, hk'⟩
      have hin : (k', slot) ∈ owns (s.threads t) := by
        rw [ht]
        exact List.mem_cons_of_mem _ hmem
      have hk := (h.slot_unique hmine hopen hin).1
      have hnodup := h.mine t
      rw [ht] at hnodup
      exact (List.nodup_cons.1 hnodup).1 (List.mem_map.2 ⟨_, hmem, hk⟩)
  · refine (h.frames u f hf).fill hopen hbuilt fun k' hk' => hu ?_
    exact (h.slot_unique hmine hopen (List.mem_filterMap.2 ⟨f, hf, hk'⟩)).2

theorem Wf.inFlight_slot (h : Wf ops Has s) {k : K} {i j : Nat} (hi : (k, i) ∈ s.inFlight) (hj : (k, j) ∈ s.inFlight) :
    i = j := by
  have := List.inj_on_of_nodup_map h.keys hi hj rfl
  exact (Prod.mk.inj this).2

/-- A build whose slot is filled leaves. -/
theorem Wf.leave [DecidableEq K] (h : Wf ops Has s) {t : Nat} {k : K} {slot : Nat} {phase : Phase X T R}
    {fs fs' : List (Frame K X T R)} (ht : s.threads t = .busy k slot phase :: fs) {r : R}
    (hslot : s.slots[slot]? = some (k, some r)) (hown : owns fs' = owns fs)
    (hfs : ∀ f ∈ fs', FrameOk ops.failed s.slots s.built f) {store : S}
    (hstore : ∀ k', Has store k' → Has s.store k' ∨ k' = k) :
    Wf ops Has { s with
      store
      inFlight := s.inFlight.filter (fun p => p.1 ≠ k)
      threads := Function.update s.threads t fs' } := by
  have hmine : owns (s.threads t) = (k, slot) :: owns fs := by rw [ht]; rfl
  have hin : (k, slot) ∈ s.inFlight := h.flies t _ (by rw [hmine]; exact List.mem_cons_self)
  have hnodup := h.mine t
  rw [hmine, List.map_cons, List.nodup_cons] at hnodup
  have howns : ∀ u, ∀ p ∈ owns (Function.update s.threads t fs' u), p ∈ owns (s.threads u) ∧ p.1 ≠ k := by
    intro u p hp
    by_cases hu : u = t
    · rw [hu, Function.update_self, hown] at hp
      refine ⟨by rw [hu, hmine]; exact List.mem_cons_of_mem _ hp, fun hk => hnodup.1 (List.mem_map.2 ⟨p, hp, hk⟩)⟩
    · rw [Function.update_of_ne hu] at hp
      refine ⟨hp, fun hk => hu (h.apart u t p hp (k, slot) ?_ hk)⟩
      rw [hmine]
      exact List.mem_cons_self
  have hfilter : ∀ p, p ∈ s.inFlight.filter (fun p => p.1 ≠ k) ↔ p ∈ s.inFlight ∧ p.1 ≠ k := by
    intro p
    rw [List.mem_filter, decide_eq_true_eq]
  refine ⟨?_, fun u => ?_, fun u v p hp q hq => h.apart u v p (howns u p hp).1 q (howns v q hq).1, fun u p hp => ?_,
    fun p hp => ?_, fun p hp hhas => ?_, fun p hp => h.claimed p ((hfilter p).1 hp).1, fun i k' hi => ?_, h.filled,
    forall_update hfs fun u _ => h.frames u⟩
  · exact (List.filter_sublist.map Prod.fst).nodup h.keys
  · by_cases hu : u = t
    · rw [hu]
      show ((owns (Function.update s.threads t fs' t)).map Prod.fst).Nodup
      rw [Function.update_self, hown]
      exact hnodup.2
    · show ((owns (Function.update s.threads t fs' u)).map Prod.fst).Nodup
      rw [Function.update_of_ne hu]
      exact h.mine u
  · obtain ⟨hp, hk⟩ := howns u p hp
    exact (hfilter p).2 ⟨h.flies u p hp, hk⟩
  · obtain ⟨hp, hk⟩ := (hfilter p).1 hp
    obtain ⟨u, hu⟩ := h.flown p hp
    refine ⟨u, ?_⟩
    show p ∈ owns (Function.update s.threads t fs' u)
    by_cases hut : u = t
    · rw [hut, Function.update_self, hown]
      rw [hut, hmine] at hu
      rcases List.mem_cons.1 hu with rfl | hu
      · exact absurd rfl hk
      · exact hu
    · rw [Function.update_of_ne hut]
      exact hu
  · obtain ⟨hp, hk⟩ := (hfilter p).1 hp
    rcases hstore _ hhas with hhas | hk'
    · exact h.absent p hp hhas
    · exact hk hk'
  · refine (hfilter _).2 ⟨h.opened i k' hi, ?_⟩
    rintro rfl
    -- the only slot in flight for this key is filled
    rw [h.inFlight_slot (h.opened i _ hi) hin, hslot] at hi
    cases hi

theorem FrameOk.mono {failed : R} {slots slots' : List (K × Option R)} {built : List (K × Nat × R)} {f : Frame K X T R}
    (h : FrameOk failed slots built f) (hslots : ∀ (i : Nat) p, slots[i]? = some p → slots'[i]? = some p) :
    FrameOk failed slots' built f := by
  cases f with
  | waiting k i =>
    obtain ⟨r, hr⟩ := h
    exact ⟨r, hslots _ _ hr⟩
  | busy k i phase =>
    cases phase with
    | building => exact hslots _ _ h
    | published x ticket r => exact ⟨hslots _ _ h.1, h.2⟩
    | failing => exact hslots _ _ h

/-- A thread claims a key that nobody builds and the store lacks. -/
theorem Wf.claim (h : Wf ops Has s) {t : Nat} {k : K} {x : X} {ticket : T} {a : Answer R} {store : S}
    (hk : ∀ p ∈ s.inFlight, p.1 ≠ k) (hstore : ∀ k', Has store k' → Has s.store k') (hmiss : ¬Has store k) :
    Wf ops Has { s with
      store
      inFlight := (k, s.slots.length) :: s.inFlight
      slots := s.slots ++ [(k, none)]
      threads := Function.update s.threads t (.busy k s.slots.length (.building x ticket a) :: s.threads t) } := by
  have hold : ∀ (i : Nat) p, s.slots[i]? = some p → (s.slots ++ [(k, none)])[i]? = some p := by
    intro i p hi
    rw [List.getElem?_append_left (List.getElem?_eq_some_iff.1 hi).1]
    exact hi
  have hnew : (s.slots ++ [(k, none)])[s.slots.length]? = some (k, none) := by simp
  have hcases : ∀ (i : Nat) p, (s.slots ++ [(k, none)])[i]? = some p →
      s.slots[i]? = some p ∨ (i = s.slots.length ∧ p = (k, none)) := by
    intro i p hi
    by_cases hlt : i < s.slots.length
    · rw [List.getElem?_append_left hlt] at hi
      exact .inl hi
    · rw [List.getElem?_append_right (by omega)] at hi
      have hzero : i - s.slots.length = 0 := by
        have := (List.getElem?_eq_some_iff.1 hi).1
        rw [List.length_singleton] at this
        omega
      rw [hzero] at hi
      cases hi
      exact .inr ⟨by omega, rfl⟩
  have howns : ∀ u, owns (Function.update s.threads t (.busy k s.slots.length (.building x ticket a) :: s.threads t) u)
    =
      if u = t then (k, s.slots.length) :: owns (s.threads t) else owns (s.threads u) := by
    intro u
    by_cases hu : u = t
    · rw [hu, Function.update_self, if_pos rfl]
      rfl
    · rw [Function.update_of_ne hu, if_neg hu]
  have hfree : ∀ u, ∀ p ∈ owns (s.threads u), p.1 ≠ k := fun u p hp => hk p (h.flies u p hp)
  have hmem : ∀ u, ∀ p ∈ owns (Function.update s.threads t
      (.busy k s.slots.length (.building x ticket a) :: s.threads t) u),
      (p = (k, s.slots.length) ∧ u = t) ∨ p ∈ owns (s.threads u) := by
    intro u p hp
    rw [howns] at hp
    split at hp
    · rename_i hu
      rcases List.mem_cons.1 hp with rfl | hp
      · exact .inl ⟨rfl, hu⟩
      · exact .inr (by rw [hu]; exact hp)
    · exact .inr hp
  refine ⟨?_, fun u => ?_, fun u v p hp q hq hpq => ?_, fun u p hp => ?_, fun p hp => ?_, fun p hp hhas => ?_,
    fun p hp => ?_, fun i k' hi => ?_, fun i k' r hi => ?_, forall_update (fun f hf => ?_) fun u _ f hf => ?_⟩
  · refine List.nodup_cons.2 ⟨fun hmem => ?_, h.keys⟩
    obtain ⟨p, hp, hpk⟩ := List.mem_map.1 hmem
    exact hk p hp hpk
  · rw [howns]
    split
    · refine List.nodup_cons.2 ⟨fun hmem => ?_, h.mine t⟩
      obtain ⟨p, hp, hpk⟩ := List.mem_map.1 hmem
      exact hfree t p hp hpk
    · exact h.mine u
  · rcases hmem u p hp with ⟨rfl, rfl⟩ | hp
    · rcases hmem v q hq with ⟨-, rfl⟩ | hq
      · rfl
      · exact absurd hpq.symm (hfree v q hq)
    · rcases hmem v q hq with ⟨rfl, -⟩ | hq
      · exact absurd hpq (hfree u p hp)
      · exact h.apart u v p hp q hq hpq
  · rcases hmem u p hp with ⟨rfl, -⟩ | hp
    · exact List.mem_cons_self
    · exact List.mem_cons_of_mem _ (h.flies u p hp)
  · rcases List.mem_cons.1 hp with rfl | hp
    · exact ⟨t, by rw [howns, if_pos rfl]; exact List.mem_cons_self⟩
    · obtain ⟨u, hu⟩ := h.flown p hp
      refine ⟨u, ?_⟩
      rw [howns]
      split
      · rename_i hut
        rw [← hut]
        exact List.mem_cons_of_mem _ hu
      · exact hu
  · rcases List.mem_cons.1 hp with rfl | hp
    · exact hmiss hhas
    · exact h.absent p hp (hstore _ hhas)
  · rcases List.mem_cons.1 hp with rfl | hp
    · exact ⟨none, hnew⟩
    · obtain ⟨r, hr⟩ := h.claimed p hp
      exact ⟨r, hold _ _ hr⟩
  · rcases hcases i _ hi with hi | ⟨rfl, hp⟩
    · exact List.mem_cons_of_mem _ (h.opened i k' hi)
    · cases hp
      exact List.mem_cons_self
  · rcases hcases i _ hi with hi | ⟨rfl, hp⟩
    · exact h.filled i k' r hi
    · cases hp
  · rcases List.mem_cons.1 hf with rfl | hf
    · exact hnew
    · exact (h.frames t f hf).mono hold
  · exact (h.frames u f hf).mono hold

end Steps

/-! ## Runs -/

section Lawful
variable [DecidableEq K] {ops} {Inv : S → Prop} {Has : S → K → Prop} {okLookup : S → O → K → Prop}
  {okRetain : S → K → X → T → R → Prop} {s s' : State S K X T R}

/-- A well-formed state with a good store. -/
structure Good (ops : Ops S K X T O R) (Inv : S → Prop) (Has : S → K → Prop) (s : State S K X T R) : Prop where
  wf : Wf ops Has s
  inv : Inv s.store

/-- The conditions on the sections of a store, read off the event and the state before it. -/
def Meets (okLookup : S → O → K → Prop) (okRetain : S → K → X → T → R → Prop) (s : State S K X T R) :
    Event K X O R → Prop
  | .call _ k _ o => okLookup s.store o k
  | .settle t => ∀ k slot x ticket r fs, s.threads t = .busy k slot (.published x ticket r) :: fs →
    okRetain s.store k x ticket r
  | _ => True

theorem Good.enter (hlaw : Lawful ops Inv Has okLookup okRetain) (h : Good ops Inv Has s) {t : Nat} {k : K}
    {x : X} {o : O} (hok : okLookup s.store o k) : Good ops Inv Has (s.enter ops t k x o) := by
  have hinv := hlaw.lookup_inv h.inv hok
  have hhas : ∀ k', Has (ops.lookup s.store o k).2 k' → Has s.store k' := fun _ => hlaw.lookup_has h.inv
  have hmiss := hlaw.lookup_miss h.inv (o := o) (k := k)
  unfold State.enter
  generalize ops.lookup s.store o k = looked at hinv hhas hmiss ⊢
  obtain ⟨answer, store⟩ := looked
  cases answer with
  | some r => exact ⟨h.wf.rethread (owns_giveBack _ _) (frameOk_giveBack _ (h.wf.frames t)) hhas, hinv⟩
  | none =>
    dsimp only
    cases hfind : s.inFlight.lookup k with
    | some slot =>
      obtain ⟨l, l', hl, -⟩ := List.lookup_eq_some_iff.1 hfind
      have hmem : (k, slot) ∈ s.inFlight := by
        rw [hl]
        exact List.mem_append_right _ List.mem_cons_self
      refine ⟨h.wf.rethread rfl (fun f hf => ?_) hhas, hinv⟩
      rcases List.mem_cons.1 hf with rfl | hf
      · exact h.wf.claimed _ hmem
      · exact h.wf.frames t f hf
    | none =>
      refine ⟨h.wf.claim (fun p hp hpk => ?_) hhas (hmiss rfl), hinv⟩
      have := List.lookup_eq_none_iff.1 hfind p hp
      rw [hpk] at this
      exact absurd rfl (bne_iff_ne.1 this)

/-- **Every section keeps a good state good.** -/
theorem Good.step (hlaw : Lawful ops Inv Has okLookup okRetain) (h : Good ops Inv Has s) {e : Event K X O R}
    (hok : Meets okLookup okRetain s e) (hstep : s.step ops e = some s') : Good ops Inv Has s' := by
  cases e with
  | call t k x o =>
    rw [State.step] at hstep
    split at hstep
    · cases hstep
      exact h.enter hlaw hok
    · cases hstep
  | wake t =>
    rw [State.step] at hstep
    split at hstep
    · rename_i k slot fs ht
      split at hstep
      · cases hstep
        have hown : owns fs = owns (s.threads t) := by
          rw [ht]
          rfl
        exact ⟨h.wf.rethread ((owns_giveBack _ _).trans hown) (frameOk_giveBack _ (h.wf.below ht)) fun _ =>
          hlaw.waited_has, hlaw.waited_inv h.inv⟩
      · cases hstep
    · cases hstep
  | publish t r =>
    rw [State.step] at hstep
    split at hstep
    · rename_i k slot x ticket answer fs ht
      obtain ⟨r', -, rfl⟩ := Option.map_eq_some_iff.1 hstep
      have hopen : s.slots[slot]? = some (k, none) := h.wf.top ht
      rw [modify_eq_set _ hopen]
      refine ⟨h.wf.fill ht hopen (fun p hp => List.mem_cons_of_mem _ hp) (.inl List.mem_cons_self) ⟨?_, ?_⟩, h.inv⟩
      · exact List.getElem?_set_self (List.getElem?_eq_some_iff.1 hopen).1
      · exact List.mem_cons_self
    · cases hstep
  | settle t =>
    rw [State.step] at hstep
    split at hstep
    · rename_i k slot x ticket r fs ht
      cases hstep
      have habsent : ¬Has s.store k := by
        refine h.wf.absent (k, slot) (h.wf.flies t _ ?_)
        rw [ht]
        exact List.mem_cons_self
      exact ⟨h.wf.leave ht (h.wf.top ht).1 (owns_giveBack _ _) (frameOk_giveBack _ (h.wf.below ht))
        fun _ => hlaw.retain_has h.inv, hlaw.retain_inv h.inv habsent (hok k slot x ticket r fs ht)⟩
    · cases hstep
  | panic t =>
    rw [State.step] at hstep
    split at hstep
    · rename_i k slot x ticket answer fs ht
      cases hstep
      have hopen : s.slots[slot]? = some (k, none) := h.wf.top ht
      rw [modify_eq_set _ hopen]
      refine ⟨h.wf.fill ht hopen (fun p hp => hp) (.inr rfl) ?_, h.inv⟩
      exact List.getElem?_set_self (List.getElem?_eq_some_iff.1 hopen).1
    · cases hstep
  | unwind t =>
    rw [State.step] at hstep
    split at hstep
    · rename_i k slot fs ht
      cases hstep
      exact ⟨h.wf.leave ht (h.wf.top ht) (owns_giveBack _ _) (frameOk_giveBack _ (h.wf.below ht)) fun _ => .inl, h.inv⟩
    · cases hstep
  | clear =>
    cases hstep
    refine ⟨⟨h.wf.keys, h.wf.mine, h.wf.apart, h.wf.flies, h.wf.flown, fun p _ => hlaw.clear_has, h.wf.claimed,
      h.wf.opened, h.wf.filled, h.wf.frames⟩, hlaw.clear_inv h.inv⟩

/-- **Every run whose sections meet the store's conditions stays good**, whatever the threads interleave. -/
theorem Good.run (hlaw : Lawful ops Inv Has okLookup okRetain) {store : S} (hinit : Inv store)
    {es : List (Event K X O R)} (heach : Runs.Each (State.step ops) (Meets okLookup okRetain) (init store) es)
    (hrun : Runs.run (State.step ops) (init store) es = some s) : Good ops Inv Has s :=
  Runs.run_inv_of_each (fun _ _ _ h hok hstep => h.step hlaw hok hstep) ⟨.init, hinit⟩ heach hrun

/-! ## What a section does -/

/-- The store of a section. -/
inductive StoreStep (ops : Ops S K X T O R) (s : State S K X T R) : S → Prop
  | same : StoreStep ops s s.store
  | lookup (o : O) (k : K) : StoreStep ops s (ops.lookup s.store o k).2
  | waited (r : R) : StoreStep ops s (ops.waited s.store r)
  | retain {t : Nat} {k : K} {slot : Nat} {x : X} {ticket : T} {r : R} {fs : List (Frame K X T R)}
      (ht : s.threads t = .busy k slot (.published x ticket r) :: fs) :
      StoreStep ops s (ops.retain s.store k x ticket r)
  | clear : StoreStep ops s (ops.clear s.store)

def Frame.ticket : Frame K X T R → Option T
  | .busy _ _ (.building _ ticket _) => some ticket
  | .busy _ _ (.published _ ticket _) => some ticket
  | _ => none

def tickets (fs : List (Frame K X T R)) : List T := fs.filterMap Frame.ticket

omit [DecidableEq K] in
theorem tickets_giveBack (a : Answer R) (fs : List (Frame K X T R)) : tickets (giveBack a fs) = tickets fs := by
  unfold giveBack
  split <;> rfl

omit [DecidableEq K] in
theorem mem_tickets_tail {f : Frame K X T R} {fs : List (Frame K X T R)} {ticket : T} (h : ticket ∈ tickets fs) :
    ticket ∈ tickets (f :: fs) := by
  obtain ⟨f', hf', hticket⟩ := List.mem_filterMap.1 h
  exact List.mem_filterMap.2 ⟨f', List.mem_cons_of_mem _ hf', hticket⟩

/-- What a section does to the store, to what has been published, to the slots that are filled and to the tickets. -/
structure Effect (ops : Ops S K X T O R) (s s' : State S K X T R) : Prop where
  store : StoreStep ops s s'.store
  built : ∀ p ∈ s.built, p ∈ s'.built
  slots : ∀ (i : Nat) k r, s.slots[i]? = some (k, some r) → s'.slots[i]? = some (k, some r)
  tickets : ∀ t, ∀ ticket ∈ tickets (s'.threads t), ticket ∈ tickets (s.threads t) ∨ ticket = ops.ticket s'.store

omit [DecidableEq K] in
theorem tickets_update {threads : Nat → List (Frame K X T R)} {t : Nat} {fs : List (Frame K X T R)} {P : Nat → T → Prop}
    (hfs : ∀ ticket ∈ tickets fs, P t ticket) (h : ∀ u, ∀ ticket ∈ tickets (threads u), P u ticket) (u : Nat) :
    ∀ ticket ∈ tickets (Function.update threads t fs u), P u ticket := by
  by_cases hu : u = t
  · rw [hu, Function.update_self]
    exact hfs
  · rw [Function.update_of_ne hu]
    exact h u

/-- **Every section has such an effect.** -/
theorem Wf.effect (h : Wf ops Has s) {e : Event K X O R} (hstep : s.step ops e = some s') : Effect ops s s' := by
  -- a build in progress has an open slot, so filling it leaves filled slots alone
  have hmodify : ∀ {t : Nat} {k' : K} {slot : Nat} {x : X} {ticket : T} {a : Answer R} {fs : List (Frame K X T R)}
      (f : K × Option R → K × Option R), s.threads t = .busy k' slot (.building x ticket a) :: fs →
      ∀ (i : Nat) k r, s.slots[i]? = some (k, some r) → (s.slots.modify slot f)[i]? = some (k, some r) := by
    intro t k' slot x ticket a fs f ht i k r hi
    have hopen : s.slots[slot]? = some (k', none) := h.top ht
    have hne : slot ≠ i := by
      rintro rfl
      rw [hopen] at hi
      cases hi
    rw [modify_eq_set _ hopen, List.getElem?_set_ne hne]
    exact hi
  cases e with
  | call t k x o =>
    rw [State.step] at hstep
    split at hstep
    · cases hstep
      have hstore : StoreStep ops s (ops.lookup s.store o k).2 := .lookup o k
      unfold State.enter
      generalize ops.lookup s.store o k = looked at hstore ⊢
      obtain ⟨answer, store⟩ := looked
      cases answer with
      | some r =>
        refine ⟨hstore, fun p hp => hp, fun i k r hi => hi, tickets_update (fun ticket ht => .inl ?_) fun u ticket ht =>
          .inl ht⟩
        rw [tickets_giveBack] at ht
        exact ht
      | none =>
        dsimp only
        split
        · refine ⟨hstore, fun p hp => hp, fun i k r hi => hi, tickets_update
            (fun ticket ht => .inl ?_) fun u ticket ht =>
            .inl ht⟩
          exact ht
        · refine ⟨hstore, fun p hp => hp, fun i k r hi => ?_, tickets_update (fun ticket ht => ?_) fun u ticket ht =>
            .inl ht⟩
          · exact (List.getElem?_append_left (List.getElem?_eq_some_iff.1 hi).1).trans hi
          · rcases List.mem_cons.1 ht with rfl | ht
            · exact .inr rfl
            · exact .inl ht
    · cases hstep
  | wake t =>
    rw [State.step] at hstep
    split at hstep
    · rename_i ht
      split at hstep
      · cases hstep
        refine ⟨.waited _, fun p hp => hp, fun i k r hi => hi, tickets_update
          (fun ticket hmem => .inl ?_) fun u ticket h =>
          .inl h⟩
        rw [tickets_giveBack] at hmem
        rw [ht]
        exact mem_tickets_tail hmem
      · cases hstep
    · cases hstep
  | publish t r' =>
    rw [State.step] at hstep
    split at hstep
    · rename_i ht
      obtain ⟨r'', -, rfl⟩ := Option.map_eq_some_iff.1 hstep
      refine ⟨.same, fun p hp => List.mem_cons_of_mem _ hp, hmodify _ ht, tickets_update (fun ticket hmem => .inl ?_)
        fun u ticket h => .inl h⟩
      rw [ht]
      exact hmem
    · cases hstep
  | settle t =>
    rw [State.step] at hstep
    split at hstep
    · rename_i ht
      cases hstep
      refine ⟨.retain ht, fun p hp => hp, fun i k r hi => hi, tickets_update
        (fun ticket hmem => .inl ?_) fun u ticket h =>
        .inl h⟩
      rw [tickets_giveBack] at hmem
      rw [ht]
      exact mem_tickets_tail hmem
    · cases hstep
  | panic t =>
    rw [State.step] at hstep
    split at hstep
    · rename_i ht
      cases hstep
      refine ⟨.same, fun p hp => hp, hmodify _ ht, tickets_update (fun ticket hmem => .inl ?_) fun u ticket h => .inl h⟩
      rw [ht]
      exact mem_tickets_tail hmem
    · cases hstep
  | unwind t =>
    rw [State.step] at hstep
    split at hstep
    · rename_i ht
      cases hstep
      refine ⟨.same, fun p hp => hp, fun i k r hi => hi, tickets_update (fun ticket hmem => .inl ?_) fun u ticket h =>
        .inl h⟩
      rw [tickets_giveBack] at hmem
      rw [ht]
      exact mem_tickets_tail hmem
    · cases hstep
  | clear =>
    cases hstep
    exact ⟨.clear, fun p hp => hp, fun i k r hi => hi, fun t ticket hmem => .inl hmem⟩

/-- What the answers of a store go back to. -/
structure Traceable (ops : Ops S K X T O R) (Inv : S → Prop) (Holds : S → K → R → Prop) : Prop where
  lookup_holds : ∀ {s o k k' r}, Inv s → Holds (ops.lookup s o k).2 k' r → Holds s k' r
  retain_holds : ∀ {s k x ticket r k' r'}, Inv s → Holds (ops.retain s k x ticket r) k' r' → Holds s k' r' ∨
  (k' = k ∧ r' = r)
  waited_holds : ∀ {s r k r'}, Holds (ops.waited s r) k r' → Holds s k r'
  clear_holds : ∀ {s k r}, ¬Holds (ops.clear s) k r

/-- **Whatever a store holds for a key was published by a build of that key.** -/
theorem Good.traced_step {Holds : S → K → R → Prop} (htrace : Traceable ops Inv Holds) (h : Good ops Inv Has s)
    (hs : ∀ k r, Holds s.store k r → ∃ slot, (k, slot, r) ∈ s.built) {e : Event K X O R}
    (hstep : s.step ops e = some s') : ∀ k r, Holds s'.store k r → ∃ slot, (k, slot, r) ∈ s'.built := by
  intro k r hholds
  have heffect := h.wf.effect hstep
  have hstore := heffect.store
  suffices hbefore : ∃ slot, (k, slot, r) ∈ s.built from
    hbefore.imp fun slot hslot => heffect.built _ hslot
  generalize s'.store = store at hstore hholds
  cases hstore with
  | same => exact hs k r hholds
  | lookup o k' => exact hs k r (htrace.lookup_holds h.inv hholds)
  | waited r' => exact hs k r (htrace.waited_holds hholds)
  | retain ht =>
    rcases htrace.retain_holds h.inv hholds with hholds | ⟨rfl, rfl⟩
    · exact hs k r hholds
    · exact ⟨_, (h.wf.top ht).2⟩
  | clear => exact absurd hholds htrace.clear_holds

/-- **What holds of a ticket when it is given, and of a ticket kept through every section, holds of all tickets.** -/
theorem Wf.tickets_step {P : S → T → Prop} (hnew : P s'.store (ops.ticket s'.store))
    (hkeep : ∀ store ticket, StoreStep ops s store → P s.store ticket → P store ticket) (h : Wf ops Has s)
    (hs : ∀ t, ∀ ticket ∈ tickets (s.threads t), P s.store ticket) {e : Event K X O R}
    (hstep : s.step ops e = some s') :
    ∀ t, ∀ ticket ∈ tickets (s'.threads t), P s'.store ticket := by
  intro t ticket hmem
  have heffect := h.effect hstep
  rcases heffect.tickets t ticket hmem with hold | rfl
  · exact hkeep _ _ heffect.store (hs t ticket hold)
  · exact hnew

end Lawful
end SingleFlight
