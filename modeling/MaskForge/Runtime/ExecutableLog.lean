import MaskForge.Runtime.ExecutableCache
/-!
# ExecutableLog — how long the log of the executable cache gets

A hit and a retained build use a key, and each use appends a record.  Nothing compacts the log: records go only from
its front, when room is made, or all at once when the cache is cleared.  So the log has a record for every use since
the last use of the entry that was evicted last, and a warm cache that is only hit grows its log without end.
-/
namespace MaskForge

/-! ## The uses of a run -/

/-- How often the cache has been used, which use was the last of each key, and which was the last of what has been
evicted. -/
structure Usage where
  uses : Nat
  last : ExactInputKey → Nat
  horizon : Nat

namespace Usage

def start : Usage := ⟨0, fun _ => 0, 0⟩

def used (u : Usage) (k : ExactInputKey) : Usage := ⟨u.uses + 1, Function.update u.last k (u.uses + 1), u.horizon⟩

def evicted (u : Usage) (gone : List ExactInputKey) : Usage :=
  { u with horizon := max u.horizon ((gone.map u.last).foldr max 0) }

/-- The uses since the last use of what was evicted last. -/
def recent (u : Usage) : Nat := u.uses - u.horizon

end Usage

namespace ExecutableState
variable {D V : Type} [DecidableEq D] [DecidableEq V]
variable {sizes : ExecutableSizes D V} {budget : Nat} {s s' : ExecutableState D V} {u : Usage} {k : ExactInputKey}

def keys (s : ExecutableState D V) : List ExactInputKey := (stored s.buckets).map (fun p => p.2.key)

/-- The keys stored in the one state and not in the other. -/
def keysBut (s t : ExecutableState D V) : List ExactInputKey := (keys s).filter (fun k => decide (k ∉ keys t))

/-- What a section means for the uses: a hit uses its key, a retained build evicts the keys that go and uses the one
that comes, and after a clear nothing is left. -/
def note (sizes : ExecutableSizes D V) (s s' : ExecutableState D V) (u : Usage) : CacheEvent V → Usage
  | .call _ k _ outside => (lookup sizes s outside k).1.elim u fun _ => u.used k
  | .settle _ => (keysBut s' s).foldl Usage.used (u.evicted (keysBut s s'))
  | .clear => { u with horizon := u.uses }
  | _ => u

def usageFrom (sizes : ExecutableSizes D V) (budget : Nat) : Flight D V → Usage → List (CacheEvent V) → Usage
  | _, u, [] => u
  | s, u, e :: es => match SingleFlight.State.step (ops sizes budget) s e with
    | some s' => usageFrom sizes budget s' (note sizes s.store s'.store u e) es
    | none => u

/-- The records of the log are the recent uses one by one, and an entry is stamped with the last use of its key. -/
structure Remembers (s : ExecutableState D V) (u : Usage) : Prop where
  tick : s.tick = u.uses
  past : u.horizon ≤ u.uses
  log : s.lru.map Prod.snd = List.range' (u.horizon + 1) u.recent
  stamps : ∀ p ∈ stored s.buckets, p.2.stamp = u.last p.2.key

omit [DecidableEq D] [DecidableEq V] in
theorem Remembers.length (h : Remembers s u) : s.lru.length = u.recent := by
  have := congrArg List.length h.log
  rwa [List.length_map, List.length_range'] at this

omit [DecidableEq D] [DecidableEq V] in
/-- A use appends its record. -/
theorem Remembers.used (h : Remembers s u) (hclock : s.tick < u64Max) (htick : s'.tick = s.nextStamp) {d : D}
    (hlru : s'.lru = s.lru ++ [(d, s.nextStamp)]) {e : ExecutableEntry V} {rest : List (D × ExecutableEntry V)}
    (hstored : (stored s'.buckets).Perm ((d, e) :: rest)) (hstamp : e.stamp = s.nextStamp)
    (hrest : ∀ p ∈ rest, p ∈ stored s.buckets ∧ p.2.key ≠ e.key) : Remembers s' (u.used e.key) := by
  have hnext : s.nextStamp = u.uses + 1 := by
    rw [nextStamp, h.tick]
    have := h.tick
    omega
  have hpast := h.past
  have hrecent : (u.used e.key).recent = u.recent + 1 := by
    unfold Usage.recent Usage.used
    dsimp only
    omega
  refine ⟨htick.trans hnext, hpast.trans (Nat.le_succ _), ?_, fun p hp => ?_⟩
  · have hlast : u.horizon + 1 + u.recent = u.uses + 1 := by
      unfold Usage.recent
      omega
    rw [hlru, List.map_append, h.log, hrecent, List.map_singleton, hnext]
    show _ = List.range' (u.horizon + 1) (u.recent + 1)
    rw [List.range'_1_concat, hlast]
  · show p.2.stamp = Function.update u.last e.key (u.uses + 1) p.2.key
    rcases List.mem_cons.1 (hstored.subset hp) with rfl | hp
    · rw [Function.update_self, hstamp, hnext]
    · obtain ⟨hmem, hne⟩ := hrest p hp
      rw [Function.update_of_ne hne, h.stamps p hmem]

/-- A lookup uses its key if it hits, and moves no record else. -/
theorem Remembers.lookup (h : Remembers s u) (hinv : Inv sizes budget s) (hclock : s.tick < u64Max)
    (outside : V → Bool) :
    Remembers (lookup sizes s outside k).2 ((lookup sizes s outside k).1.elim u fun _ => u.used k) := by
  unfold ExecutableState.lookup
  cases hpos : position s.buckets (sizes.digest k) (fun e => decide (e.key = k)) with
  | none => exact h
  | some found =>
    obtain ⟨bucket, i, e⟩ := found
    obtain ⟨hkey, rest, hperm, hremove, hset⟩ := position_spec hpos
    have hkey : e.key = k := of_decide_eq_true hkey
    subst hkey
    dsimp only
    cases getExecutable (s.lives outside) e.executable with
    | some executable =>
      refine h.used (e := { e with stamp := s.nextStamp }) hclock rfl rfl (hset _) rfl fun p hp => ?_
      refine ⟨hperm.symm.subset (List.mem_cons_of_mem _ hp), fun hpk => ?_⟩
      have hnodup := (hinv.stock.perm hperm).keys
      rw [List.map_cons, List.nodup_cons] at hnodup
      exact hnodup.1 (List.mem_map.2 ⟨p, hp, hpk⟩)
    | none =>
      exact ⟨h.tick, h.past, h.log, fun p hp => h.stamps p
        (hperm.symm.subset (List.mem_cons_of_mem _ (hremove.subset hp)))⟩

omit [DecidableEq V] in
/-- **Room is made up to the last use of what is evicted.** -/
theorem Remembers.evict (h : Remembers s u) (hinv : Inv sizes budget s) {need : Nat} (hneed : need ≤ budget) :
    ∃ out, (stored s.buckets).Perm (out ++ stored (evictUntilFits budget s need).buckets) ∧
      ∀ gone, (∀ x, x ∈ gone ↔ ∃ p ∈ out, p.2.key = x) → Remembers (evictUntilFits budget s need) (u.evicted gone) := by
  obtain ⟨popped, out, hlog, hout, htags, hlast⟩ := @LruLog.sweep_pops _ _ _ (shelf (D := D) (V := V))
    (fun bytes => decide (satAdd bytes need > budget)) s.lru s.buckets s.bytes 0
  obtain ⟨hkept, -, hroom⟩ := hinv.evict need
  have hfits := hkept.fits hneed hroom
  change s.lru = popped ++ (evictUntilFits budget s need).lru at hlog
  change (stored s.buckets).Perm (out ++ stored (evictUntilFits budget s need).buckets) at hout
  obtain ⟨n, hn, hpopped, hleft⟩ := List.range'_eq_append_iff.1 (h.log.symm.trans
    ((congrArg (List.map Prod.snd) hlog).trans List.map_append))
  have hstamp : ∀ p ∈ out, p.2.stamp = u.last p.2.key := fun p hp => h.stamps p
    (hout.symm.subset (List.mem_append_left _ hp))
  refine ⟨out, hout, fun gone hgone => ?_⟩
  have hhorizon : (u.evicted gone).horizon = u.horizon + n := by
    have hle : ∀ x ∈ gone.map u.last, x ≤ u.horizon + n := by
      intro x hx
      obtain ⟨key, hkey, rfl⟩ := List.mem_map.1 hx
      obtain ⟨p, hp, rfl⟩ := (hgone key).1 hkey
      have hmem : p.2.stamp ∈ popped.map Prod.snd := List.mem_map.2 ⟨_, htags p hp, rfl⟩
      rw [hpopped, List.mem_range'_1] at hmem
      rw [← hstamp p hp]
      omega
    have hupper := List.max_le_of_forall_le _ _ hle
    show max u.horizon (List.foldr max ⊥ (gone.map u.last)) = _
    rcases hlast with ⟨rfl, -⟩ | ⟨p, hp, hlast⟩ | hfull
    · have hzero : n = 0 := by
        have := congrArg List.length hpopped
        rw [List.length_range'] at this
        exact this.symm
      omega
    · have hmem : u.last p.2.key ∈ gone.map u.last := List.mem_map_of_mem ((hgone _).2 ⟨p, hp, rfl⟩)
      have hlower := List.le_max_of_le hmem (Nat.le_refl _)
      -- the record popped last is the last use of an entry that goes
      have hend : p.2.stamp = u.horizon + n := by
        have hget := congrArg (Option.map Prod.snd) hlast
        rw [← List.getLast?_map, hpopped, List.getLast?_range'] at hget
        split at hget
        · cases hget
        · have : u.horizon + 1 + n - 1 = p.2.stamp := Option.some.inj hget
          omega
      rw [← hstamp p hp, hend] at hlower
      omega
    · exact absurd (of_decide_eq_true hfull) (Nat.not_lt.2 hfits)
  have hrecent : (u.evicted gone).recent = u.recent - n := by
    unfold Usage.recent
    rw [hhorizon]
    show u.uses - _ = _
    omega
  refine ⟨h.tick, ?_, ?_, fun p hp => h.stamps p (hout.symm.subset (List.mem_append_right _ hp))⟩
  · rw [hhorizon]
    show _ ≤ u.uses
    unfold Usage.recent at hn
    have := h.past
    omega
  · rw [hhorizon, hrecent, hleft]
    congr 1
    omega

omit [DecidableEq D] [DecidableEq V] in
theorem mem_keysBut {t : ExecutableState D V} : k ∈ keysBut s t ↔ k ∈ keys s ∧ k ∉ keys t := by
  unfold keysBut
  rw [List.mem_filter, decide_eq_true_iff]

omit [DecidableEq V] in
/-- Some entries go, and one of another key comes. -/
theorem Remembers.replace (hinv : Inv sizes budget s) {m : ExecutableState D V} {out : List (D × ExecutableEntry V)}
    (hout : (stored s.buckets).Perm (out ++ stored m.buckets))
    (hevict : ∀ gone, (∀ x, x ∈ gone ↔ ∃ p ∈ out, p.2.key = x) → Remembers m (u.evicted gone))
    (hclock : m.tick < u64Max)
    (htick : s'.tick = m.nextStamp) {d : D} {e : ExecutableEntry V} (hlru : s'.lru = m.lru ++ [(d, m.nextStamp)])
    (hstored : (stored s'.buckets).Perm ((d, e) :: stored m.buckets)) (hstamp : e.stamp = m.nextStamp)
    (he : ¬Has s e.key) :
    Remembers s' ((keysBut s' s).foldl Usage.used (u.evicted (keysBut s s'))) := by
  have hfresh : e.key ∉ keys s := fun hmem => he (List.mem_map.1 hmem)
  have hkeys : (keys s).Perm (out.map (fun p => p.2.key) ++ keys m) := by
    have := hout.map (fun p => p.2.key)
    rwa [List.map_append] at this
  have hkeys' : (keys s').Perm (e.key :: keys m) := hstored.map (fun p : D × ExecutableEntry V => p.2.key)
  have hnodup := hkeys.nodup_iff.1 hinv.stock.keys
  have hcomes : keysBut s' s = [e.key] := by
    have hperm := hkeys'.filter (fun k => decide (k ∉ keys s))
    have hrest : (keys m).filter (fun k => decide (k ∉ keys s)) = [] := by
      refine List.filter_eq_nil_iff.2 fun x hx => ?_
      rw [decide_eq_true_iff, not_not]
      exact hkeys.symm.subset (List.mem_append_right _ hx)
    rw [List.filter_cons, hrest, if_pos (decide_eq_true hfresh)] at hperm
    exact List.perm_singleton.1 hperm
  have hgoes : ∀ x, x ∈ keysBut s s' ↔ ∃ p ∈ out, p.2.key = x := by
    intro x
    rw [mem_keysBut]
    constructor
    · rintro ⟨hin, hnot⟩
      rcases List.mem_append.1 (hkeys.subset hin) with hmem | hmem
      · exact List.mem_map.1 hmem
      · exact absurd (hkeys'.symm.subset (List.mem_cons_of_mem _ hmem)) hnot
    · intro hmem
      have hmem := List.mem_map.2 hmem
      have hin := hkeys.symm.subset (List.mem_append_left _ hmem)
      refine ⟨hin, fun hmem' => ?_⟩
      rcases List.mem_cons.1 (hkeys'.subset hmem') with rfl | hmem'
      · exact hfresh hin
      · exact List.disjoint_of_nodup_append hnodup hmem hmem'
  rw [hcomes]
  refine (hevict _ hgoes).used hclock htick hlru hstored hstamp fun p hp => ⟨hp, fun hkey => hfresh ?_⟩
  rw [← hkey]
  exact hkeys.symm.subset (List.mem_append_right _ (List.mem_map_of_mem hp))

omit [DecidableEq V] in
/-- A retained build makes room and uses its key. -/
theorem Remembers.retain (h : Remembers s u) (hinv : Inv sizes budget s) (hclock : s.tick < u64Max) (hk : ¬Has s k)
    (chargeExecutable : Bool) (ticket : Nat × Nat) (r : Except CompileError V) :
    Remembers (retain sizes budget s k chargeExecutable ticket r)
      ((keysBut (retain sizes budget s k chargeExecutable ticket r) s).foldl Usage.used
        (u.evicted (keysBut s (retain sizes budget s k chargeExecutable ticket r)))) := by
  rcases retain_cases sizes budget s k chargeExecutable ticket r with
    ⟨traffic, heq⟩ | ⟨executable, -, -, hneed, traffic, value, -, heq⟩
  · have hnone : ∀ l : List ExactInputKey, l.filter (fun k => decide (k ∉ l)) = [] := fun l =>
      List.filter_eq_nil_iff.2 fun x hx => by rwa [decide_eq_true_iff, not_not]
    have hu : u.evicted [] = u := by
      unfold Usage.evicted
      rw [List.map_nil, List.foldr_nil, Nat.max_zero]
    rw [heq]
    show Remembers _ (((keys s).filter (fun k => decide (k ∉ keys s))).foldl Usage.used
      (u.evicted ((keys s).filter (fun k => decide (k ∉ keys s)))))
    rw [hnone, hu]
    exact ⟨h.tick, h.past, h.log, h.stamps⟩
  · have htraffic : Remembers { s with traffic } u := ⟨h.tick, h.past, h.log, h.stamps⟩
    obtain ⟨out, hout, hevict⟩ := htraffic.evict (hinv.counting traffic) hneed
    rw [heq]
    exact Remembers.replace hinv hout hevict hclock rfl rfl (stored_push _ _ _) rfl hk

/-- What one section does to the store. -/
theorem step_store {s s' : Flight D V} {e : CacheEvent V} (hkept : Kept sizes budget s)
    (h : SingleFlight.State.step (ops sizes budget) s e = some s') :
    (∃ t k x outside, e = .call t k x outside ∧ s'.store = (lookup sizes s.store outside k).2) ∨
    (∃ t k x ticket r, e = .settle t ∧ ¬Has s.store k ∧ s'.store = retain sizes budget s.store k x ticket r) ∨
    (e = .clear ∧ s'.store = clear s.store) ∨
    ((∀ u, note sizes s.store s'.store u e = u) ∧ ∃ traffic, s'.store = { s.store with traffic }) := by
  unfold SingleFlight.State.step at h
  cases e with
  | call t k x outside =>
    refine .inl ⟨t, k, x, outside, rfl, ?_⟩
    dsimp only at h
    split at h
    · cases h
      unfold SingleFlight.State.enter
      show _ = ((ops sizes budget).lookup s.store outside k).2
      generalize (ops sizes budget).lookup s.store outside k = looked
      obtain ⟨answer, store⟩ := looked
      cases answer with
      | some r => rfl
      | none =>
        dsimp only
        split <;> rfl
    · cases h
  | wake t =>
    refine .inr (.inr (.inr ⟨fun _ => rfl, ?_⟩))
    dsimp only at h
    split at h
    · split at h
      · rename_i r _
        cases h
        cases r <;> exact ⟨_, rfl⟩
      · cases h
    · cases h
  | publish t r =>
    refine .inr (.inr (.inr ⟨fun _ => rfl, ?_⟩))
    dsimp only at h
    split at h
    · obtain ⟨r', -, rfl⟩ := Option.map_eq_some_iff.1 h
      exact ⟨_, rfl⟩
    · cases h
  | settle t =>
    dsimp only at h
    split at h
    · rename_i k slot x ticket r fs ht
      cases h
      refine .inr (.inl ⟨t, k, x, ticket, r, rfl, ?_, rfl⟩)
      refine hkept.good.wf.absent (k, slot) (hkept.good.wf.flies t _ ?_)
      rw [ht]
      exact List.mem_cons_self
    · cases h
  | panic t =>
    refine .inr (.inr (.inr ⟨fun _ => rfl, ?_⟩))
    dsimp only at h
    split at h
    · cases h
      exact ⟨_, rfl⟩
    · cases h
  | unwind t =>
    refine .inr (.inr (.inr ⟨fun _ => rfl, ?_⟩))
    dsimp only at h
    split at h
    · cases h
      exact ⟨_, rfl⟩
    · cases h
  | clear =>
    cases h
    exact .inr (.inr (.inl ⟨rfl, rfl⟩))

theorem tick_lookup (sizes : ExecutableSizes D V) (s : ExecutableState D V) (k : ExactInputKey) (outside : V → Bool) :
    s.tick = (lookup sizes s outside k).2.tick ∨ (lookup sizes s outside k).2.tick = s.nextStamp := by
  unfold lookup
  split
  · exact .inl rfl
  · split
    · exact .inr rfl
    · exact .inl rfl

/-- The clock has not stopped before a section that leaves it running. -/
theorem clock_step {s s' : Flight D V} {e : CacheEvent V} (hkept : Kept sizes budget s)
    (h : SingleFlight.State.step (ops sizes budget) s e = some s') (hclock : s'.store.tick < u64Max) :
    s.store.tick < u64Max := by
  have hnext : s.store.nextStamp < u64Max → s.store.tick < u64Max := by
    unfold nextStamp
    omega
  rcases step_store hkept h with ⟨t, k, x, outside, rfl, hstore⟩ | ⟨t, k, x, ticket, r, rfl, -, hstore⟩ |
    ⟨rfl, hstore⟩ |
    ⟨-, traffic, hstore⟩
  · rw [hstore] at hclock
    rcases tick_lookup sizes s.store k outside with htick | htick
    · rwa [htick]
    · exact hnext (htick ▸ hclock)
  · rw [hstore] at hclock
    rcases retain_cases sizes budget s.store k x ticket r with ⟨traffic, heq⟩ | ⟨_, _, _, _, traffic, value, _, heq⟩
    · rwa [heq] at hclock
    · rw [heq] at hclock
      exact hnext hclock
  · rwa [hstore] at hclock
  · rwa [hstore] at hclock

/-- **Every section keeps what the log remembers.** -/
theorem Remembers.step {s s' : Flight D V} {e : CacheEvent V} (h : Remembers s.store u) (hkept : Kept sizes budget s)
    (hclock : s.store.tick < u64Max) (hstep : SingleFlight.State.step (ops sizes budget) s e = some s') :
    Remembers s'.store (note sizes s.store s'.store u e) := by
  have hinv := hkept.good.inv
  rcases step_store hkept hstep with ⟨t, k, x, outside, rfl, hstore⟩ | ⟨t, k, x, ticket, r, rfl, hk, hstore⟩ |
    ⟨rfl, hstore⟩ | ⟨hnote, traffic, hstore⟩
  · rw [hstore]
    exact h.lookup hinv hclock outside
  · rw [hstore]
    exact h.retain hinv hclock hk x ticket r
  · rw [hstore]
    refine ⟨h.tick, Nat.le_refl _, ?_, fun p hp => by cases hp⟩
    show [] = List.range' _ (u.uses - u.uses)
    rw [Nat.sub_self]
    rfl
  · rw [hnote, hstore]
    exact ⟨h.tick, h.past, h.log, h.stamps⟩

theorem clock_run : ∀ {s t : Flight D V} {es : List (CacheEvent V)}, Kept sizes budget s →
    Runs.run (SingleFlight.State.step (ops sizes budget)) s es = some t → t.store.tick < u64Max → s.store.tick < u64Max
  | s, t, [], _, hrun, hclock => by
    cases hrun
    exact hclock
  | s, t, e :: es, hkept, hrun, hclock => by
    obtain ⟨s', hstep, hrun⟩ := Option.bind_eq_some_iff.1 hrun
    exact clock_step hkept hstep (clock_run (hkept.step hstep) hrun hclock)

/-- **The log of a run has a record for every recent use.** -/
theorem Remembers.run : ∀ {s t : Flight D V} {u : Usage} {es : List (CacheEvent V)}, Kept sizes budget s →
    Remembers s.store u → Runs.run (SingleFlight.State.step (ops sizes budget)) s es = some t →
    t.store.tick < u64Max → Remembers t.store (usageFrom sizes budget s u es)
  | s, t, u, [], _, h, hrun, _ => by
    cases hrun
    exact h
  | s, t, u, e :: es, hkept, h, hrun, hclock => by
    obtain ⟨s', hstep, hrest⟩ := Option.bind_eq_some_iff.1 hrun
    rw [usageFrom, hstep]
    exact Remembers.run (hkept.step hstep) (h.step hkept (clock_run hkept hrun hclock) hstep) hrest hclock

end ExecutableState

open ExecutableState

variable {D V : Type} [DecidableEq D] [DecidableEq V]

/-- One strong entry, `n` records past the one it needs, and nobody at work. -/
structure Warm (n : Nat) (s : Flight Unit Unit) : Prop where
  idle : s.threads 0 = []
  one : ∃ stamp, s.store.buckets = (∅ : Buckets Unit Unit).insert () [⟨semanticKey [], .strong (), 200, stamp⟩]
  log : s.store.lru.length = n + 1

theorem Warm.hit {n : Nat} {s : Flight Unit Unit} (h : Warm n s) :
    ∃ s', SingleFlight.State.step (ops (plainSizes 40) 1000) s
    (.call 0 (semanticKey []) true (fun _ => true)) = some s' ∧ Warm (n + 1) s' := by
  obtain ⟨stamp, hone⟩ := h.one
  have hlookup : lookup (plainSizes 40) s.store (fun _ => true) (semanticKey []) = (some (.ok ()), { s.store with
      tick := s.store.nextStamp
      buckets := (∅ : Buckets Unit Unit).insert () [⟨semanticKey [], .strong (), 200, s.store.nextStamp⟩]
      lru := s.store.lru ++ [((), s.store.nextStamp)]
      traffic := { s.store.traffic with hits := s.store.traffic.hits + 1 } }) := by
    rw [lookup, hone]
    rfl
  refine ⟨s.enter (ops (plainSizes 40) 1000) 0 (semanticKey []) true (fun _ => true), ?_, ?_⟩
  · rw [SingleFlight.State.step, h.idle]
    rfl
  · have hops : (ops (plainSizes 40) 1000).lookup s.store (fun _ => true) (semanticKey []) = _ := hlookup
    unfold SingleFlight.State.enter
    rw [hops, h.idle]
    refine ⟨?_, ⟨_, rfl⟩, ?_⟩
    · show Function.update s.threads 0 [] 0 = []
      rw [Function.update_self]
    · show (s.store.lru ++ [_]).length = _
      rw [List.length_append, List.length_singleton, h.log]

theorem Warm.hits : ∀ {m n : Nat} {s : Flight Unit Unit}, Warm n s → ∃ s',
    Runs.run (SingleFlight.State.step (ops (plainSizes 40) 1000)) s
      (List.replicate m (.call 0 (semanticKey []) true (fun _ => true))) = some s' ∧ Warm (n + m) s'
  | 0, n, s, h => ⟨s, rfl, h⟩
  | m + 1, n, s, h => by
    obtain ⟨s', hstep, h'⟩ := h.hit
    obtain ⟨s'', hrun, h''⟩ := h'.hits (m := m)
    refine ⟨s'', ?_, ?_⟩
    · rw [List.replicate_succ, Runs.run, hstep, Option.bind_some, hrun]
    · rwa [Nat.add_assoc, Nat.add_comm 1 m] at h''

end MaskForge
