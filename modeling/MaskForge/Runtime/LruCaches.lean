import MaskForge.Index.Build
import MaskForge.Lib.LruLog
import MaskForge.Lib.SingleFlight
/-!
# LruCaches — the trie cache and the artifact cache

Both caches keep what they built under a byte budget and drop the least recently used entries first.  The order of use
is a log of `(key, tick)` records; a record is live while its tick is the entry's `last_used`.  `touch` appends a
record and compacts the log when it has outgrown the map, before the caller stamps the entry.

The caches differ in what a record says of a key, in how the clock and the bytes are added to, and in what an entry is
charged: that is `CacheKind`.
-/
namespace MaskForge

open SingleFlight (Ops)

structure CacheEntry (V : Type) where
  value : V
  bytes : Nat
  lastUsed : Nat

structure CacheStats where
  hits : Nat
  misses : Nat
  evictions : Nat
  oversizedBypasses : Nat

/-- What sets one cache apart from the other. -/
structure CacheKind (K C V : Type) where
  /-- What a log record keeps of a key. -/
  candidate : K → C
  nextTick : Nat → Nat
  addBytes : Nat → Nat → Nat
  entryBytes : K → V → Nat
  failed : CompileError
  nextTick_eq : ∀ t, t < u64Max → nextTick t = t + 1
  addBytes_eq : ∀ a b, a + b ≤ usizeMax → addBytes a b = a + b

/-- `CacheState`, but for the builds in flight, with the counters of the cache. -/
structure CacheState (K C V : Type) where
  map : AList (fun _ : K => CacheEntry V)
  bytes : Nat
  tick : Nat
  lru : List (C × Nat)
  stats : CacheStats

variable {K C V : Type}

def CacheState.empty : CacheState K C V := ⟨∅, 0, 0, [], ⟨0, 0, 0, 0⟩⟩

/-- The live record of an entry. -/
def CacheKind.record (kind : CacheKind K C V) (e : Sigma fun _ : K => CacheEntry V) : C × Nat :=
  (kind.candidate e.1, e.2.lastUsed)

namespace CacheState

theorem sorted_append {lru : List (C × Nat)} {tick : Nat} {c : C} (hsorted : lru.Pairwise (fun a b => a.2 < b.2))
    (hpast : ∀ r ∈ lru, r.2 ≤ tick) : (lru ++ [(c, tick + 1)]).Pairwise (fun a b => a.2 < b.2) := by
  refine List.pairwise_append.2 ⟨hsorted, List.pairwise_singleton _ _, fun r hr r' hr' => ?_⟩
  rw [List.mem_singleton] at hr'
  subst hr'
  exact Nat.lt_succ_of_le (hpast r hr)

theorem past_append {lru : List (C × Nat)} {tick : Nat} {c : C} (hpast : ∀ r ∈ lru, r.2 ≤ tick) :
    ∀ r ∈ lru ++ [(c, tick + 1)], r.2 ≤ tick + 1 := by
  intro r hr
  rcases List.mem_append.1 hr with hr | hr
  · exact Nat.le_succ_of_le (hpast r hr)
  · rw [List.mem_singleton] at hr
    rw [hr]

variable [DecidableEq K] [DecidableEq C] (kind : CacheKind K C V)

/-- The entries of a map by their records: `map.remove` of the entry a record is live for. -/
def shelf : LruLog.Shelf (AList fun _ : K => CacheEntry V) (Sigma fun _ : K => CacheEntry V) (C × Nat) where
  entries := AList.entries
  tag := kind.record
  charge := fun e => e.2.bytes
  take := fun m r => (m.entries.find? (fun e => kind.record e = r)).map (fun e => (e, m.erase e.1))
  take_some := by
    intro m r e m' h
    obtain ⟨e', he', h⟩ := Option.map_eq_some_iff.1 h
    cases h
    have hrecord := List.find?_some he'
    exact ⟨of_decide_eq_true hrecord, LruLog.entries_perm_erase (List.mem_of_find?_eq_some he')⟩
  take_none := by
    intro m r h e he hre
    exact List.find?_eq_none.1 (Option.map_eq_none_iff.1 h) e he (decide_eq_true hre)

/-- The log has outgrown the live entries once one more record is appended. -/
def compacts (s : CacheState K C V) : Bool := decide (s.lru.length + 1 > 4 * max s.map.entries.length 1 + 64)

def compactLru (s : CacheState K C V) : CacheState K C V :=
  { s with lru := s.lru.filter (fun r => s.map.entries.any (fun e => kind.record e = r)) }

/-- The clock ticks, and a record of the key is appended; the tick is the state's. -/
def touch (s : CacheState K C V) (k : K) : CacheState K C V :=
  let now := kind.nextTick s.tick
  let touched := { s with tick := now, lru := s.lru ++ [(kind.candidate k, now)] }
  if s.compacts then touched.compactLru kind else touched

def evictUntilFits (s : CacheState K C V) (need budget : Nat) : CacheState K C V :=
  let swept := LruLog.sweep (shelf kind) (fun bytes => decide (satAdd bytes need > budget)) s.lru s.map s.bytes 0
  { s with
    map := swept.store
    bytes := swept.bytes
    lru := swept.log
    stats := { s.stats with evictions := s.stats.evictions + swept.dropped } }

/-- The first section of `get_or_build`, up to the builds in flight: a hit stamps the entry with its touch. -/
def lookup (s : CacheState K C V) (k : K) : Option (Except CompileError V) × CacheState K C V :=
  match s.map.lookup k with
  | some entry =>
    let s := s.touch kind k
    (some (.ok entry.value), { s with
      map := s.map.insert k { entry with lastUsed := s.tick }
      stats := { s.stats with hits := s.stats.hits + 1 } })
  | none => (none, s)

/-- The last section of `get_or_build`: what was built is retained if the budget can hold it. -/
def retain (budget : Nat) (s : CacheState K C V) (k : K) : Except CompileError V → CacheState K C V
  | .error _ => s
  | .ok value =>
    let s := { s with stats := { s.stats with misses := s.stats.misses + 1 } }
    let entryBytes := kind.entryBytes k value
    if entryBytes > budget then
      { s with stats := { s.stats with oversizedBypasses := s.stats.oversizedBypasses + 1 } }
    else
      let s := (s.evictUntilFits kind entryBytes budget).touch kind k
      { s with
        bytes := kind.addBytes s.bytes entryBytes
        map := s.map.insert k ⟨value, entryBytes, s.tick⟩ }

/-- A waiter that got a value counts as a hit. -/
def waited (s : CacheState K C V) : Except CompileError V → CacheState K C V
  | .error _ => s
  | .ok _ => { s with stats := { s.stats with hits := s.stats.hits + 1 } }

def clear (s : CacheState K C V) : CacheState K C V := { s with map := ∅, bytes := 0, lru := [], tick := 0 }

/-- The sections of a cache. -/
def ops (budget : Nat) : Ops (CacheState K C V) K Unit Unit Unit (Except CompileError V) where
  lookup := fun s _ k => s.lookup kind k
  ticket := fun _ => ()
  retain := fun s k _ _ r => s.retain kind budget k r
  waited := CacheState.waited
  clear := CacheState.clear
  failed := .error kind.failed

/-! ## What the caches keep -/

/-- What holds between sections: charged bytes add up and fit, entries have records of their own, and records are as old
as the log says. -/
structure Inv (budget : Nat) (s : CacheState K C V) : Prop where
  sum : s.bytes = LruLog.total (shelf kind) s.map
  within : s.bytes ≤ budget
  covered : LruLog.Covered (shelf kind) s.map s.lru
  sorted : s.lru.Pairwise (fun a b => a.2 < b.2)
  past : ∀ r ∈ s.lru, r.2 ≤ s.tick

/-- A touch that ticks and does not compact. -/
def TouchOk (s : CacheState K C V) : Prop := s.compacts = false ∧ s.tick < u64Max

/-- A hit touches without compacting. -/
def LookupOk (s : CacheState K C V) (_ : Unit) (k : K) : Prop := k ∈ s.map → s.TouchOk

/-- An entry that is retained is added without compacting, and its bytes without saturating. -/
def RetainOk (budget : Nat) (s : CacheState K C V) (k : K) (_ _ : Unit) (r : Except CompileError V) : Prop :=
  ∀ value, r = .ok value → kind.entryBytes k value ≤ budget →
    (s.evictUntilFits kind (kind.entryBytes k value) budget).TouchOk ∧
    (budget < usizeMax ∨ s.bytes + kind.entryBytes k value ≤ usizeMax)

variable {kind} {budget : Nat} {s : CacheState K C V} {k : K}

omit [DecidableEq K] in
theorem touch_map : (s.touch kind k).map = s.map := by
  unfold touch compactLru
  dsimp only
  split <;> rfl

omit [DecidableEq K] in
theorem touch_eq (h : s.TouchOk) :
    s.touch kind k = { s with tick := s.tick + 1, lru := s.lru ++ [(kind.candidate k, s.tick + 1)] } := by
  unfold touch
  rw [h.1, kind.nextTick_eq _ h.2]
  rfl

theorem Inv.counted (h : Inv kind budget s) (stats : CacheStats) : Inv kind budget { s with stats } :=
  ⟨h.sum, h.within, h.covered, h.sorted, h.past⟩

theorem Inv.lookup (h : Inv kind budget s) (hok : s.LookupOk () k) : Inv kind budget (s.lookup kind k).2 := by
  unfold CacheState.lookup
  cases hget : s.map.lookup k with
  | none => exact h
  | some entry =>
    have hmem : (⟨k, entry⟩ : Sigma fun _ : K => CacheEntry V) ∈ s.map.entries := AList.mem_lookup_iff.1 hget
    have hperm : ((shelf kind).entries s.map).Perm (⟨k, entry⟩ :: (shelf kind).entries (s.map.erase k)) :=
      LruLog.entries_perm_erase hmem
    have htotal := LruLog.total_perm hperm
    dsimp only
    rw [touch_eq (hok (AList.lookup_isSome.1 (by rw [hget]; rfl)))]
    refine ⟨?_, h.within, ?_, sorted_append h.sorted h.past, past_append h.past⟩
    · rw [h.sum, htotal]
      rfl
    · have hnew : ((shelf kind).entries (s.map.insert k { entry with lastUsed := s.tick + 1 })).Perm
          (⟨k, { entry with lastUsed := s.tick + 1 }⟩ :: (shelf kind).entries (s.map.erase k)) := .rfl
      exact h.covered.touch hperm hnew

theorem evict_spec (h : Inv kind budget s) (need : Nat) :
    LruLog.Sweeps (shelf kind) (fun bytes => decide (satAdd bytes need > budget)) s.map s.lru s.bytes 0
      (LruLog.sweep (shelf kind) (fun bytes => decide (satAdd bytes need > budget)) s.lru s.map s.bytes 0) :=
  LruLog.sweep_spec s.lru s.map s.bytes 0 h.covered

/-- **Eviction makes room** for whatever the budget can hold. -/
theorem Inv.room (h : Inv kind budget s) {need : Nat} (hneed : need ≤ budget) :
    satAdd (s.evictUntilFits kind need budget).bytes need ≤ budget := by
  have hs := evict_spec h need
  rcases hs.room with hroom | hnil
  · exact Nat.not_lt.1 (of_decide_eq_false hroom)
  · have hzero : (s.evictUntilFits kind need budget).bytes = 0 := by
      refine (hs.bytes h.sum).trans ?_
      unfold LruLog.total
      rw [hnil]
      rfl
    rw [hzero]
    unfold satAdd
    omega

theorem Inv.evict (h : Inv kind budget s) (need : Nat) : Inv kind budget (s.evictUntilFits kind need budget) ∧
    (s.evictUntilFits kind need budget).bytes ≤ s.bytes ∧
    ∀ e ∈ (s.evictUntilFits kind need budget).map.entries, e ∈ s.map.entries := by
  have hs := evict_spec h need
  obtain ⟨out, hperm, -⟩ := hs.kept
  have hle : (s.evictUntilFits kind need budget).bytes ≤ s.bytes := hs.less
  refine ⟨⟨hs.bytes h.sum, hle.trans h.within, hs.covered, h.sorted.sublist hs.suffix.sublist, fun r hr =>
    h.past r (hs.suffix.subset hr)⟩, hle, fun e he => ?_⟩
  exact hperm.symm.subset (List.mem_append_right _ he)

theorem Inv.retain (h : Inv kind budget s) (hk : k ∉ s.map) {r : Except CompileError V}
    (hok : RetainOk kind budget s k () () r) : Inv kind budget (s.retain kind budget k r) := by
  cases r with
  | error e => exact h
  | ok value =>
    have hmiss := h.counted { s.stats with misses := s.stats.misses + 1 }
    unfold CacheState.retain
    dsimp only
    split
    · exact h.counted _
    · rename_i hbudget
      obtain ⟨htouch, hbytes⟩ := hok value rfl (Nat.not_lt.1 hbudget)
      obtain ⟨hinv, hle, hsub⟩ := hmiss.evict (kind.entryBytes k value)
      have hroom := hmiss.room (Nat.not_lt.1 hbudget)
      generalize hevicted : evictUntilFits kind { s with stats := { s.stats with misses := s.stats.misses + 1 } }
        (kind.entryBytes k value) budget = evicted at hinv hle hsub hroom
      have htouch' : evicted.TouchOk := by
        rw [← hevicted]
        exact htouch
      -- the bytes fit, so neither the comparison nor the sum saturated
      have hfits : evicted.bytes + kind.entryBytes k value ≤ budget ∧
          evicted.bytes + kind.entryBytes k value ≤ usizeMax := by
        unfold satAdd at hroom
        dsimp only at hle
        omega
      have hfresh : k ∉ evicted.map := by
        intro hmem
        obtain ⟨entry, hentry⟩ := List.mem_keys.1 hmem
        exact hk (List.mem_keys_of_mem (hsub _ hentry))
      rw [touch_eq htouch']
      have hnew : ((shelf kind).entries (evicted.map.insert k ⟨value, kind.entryBytes k value, evicted.tick + 1⟩)).Perm
          (⟨k, ⟨value, kind.entryBytes k value, evicted.tick + 1⟩⟩ :: (shelf kind).entries evicted.map) := by
        show (AList.entries _).Perm _
        rw [AList.entries_insert_of_notMem hfresh]
        exact .rfl
      refine ⟨?_, ?_, hinv.covered.add hnew, sorted_append hinv.sorted hinv.past, past_append hinv.past⟩
      · dsimp only
        rw [kind.addBytes_eq _ _ hfits.2, LruLog.total_perm hnew, hinv.sum, Nat.add_comm]
        rfl
      · dsimp only
        rw [kind.addBytes_eq _ _ hfits.2]
        exact hfits.1

theorem lawful : SingleFlight.Lawful (ops kind budget) (Inv kind budget) (fun s k => k ∈ s.map) LookupOk
    (RetainOk kind budget) where
  lookup_inv := fun h hok => h.lookup hok
  lookup_has := by
    intro s _ k k' _ hmem
    show k' ∈ s.map
    have hmem : k' ∈ (s.lookup kind k).2.map := hmem
    unfold CacheState.lookup at hmem
    cases hget : s.map.lookup k with
    | none =>
      rw [hget] at hmem
      exact hmem
    | some entry =>
      rw [hget] at hmem
      have hmem := (AList.mem_insert _).1 hmem
      rw [touch_map] at hmem
      rcases hmem with rfl | hmem
      · exact AList.lookup_isSome.1 (by rw [hget]; rfl)
      · exact hmem
  lookup_miss := by
    intro s _ k _ hnone
    have hnone : (s.lookup kind k).1 = none := hnone
    show k ∉ (s.lookup kind k).2.map
    unfold CacheState.lookup at hnone ⊢
    cases hget : s.map.lookup k with
    | none => exact AList.lookup_eq_none.1 hget
    | some entry =>
      rw [hget] at hnone
      cases hnone
  retain_inv := fun h hk hok => h.retain hk hok
  retain_has := by
    intro s k _ _ r k' h hmem
    have hmem : k' ∈ (s.retain kind budget k r).map := hmem
    cases r with
    | error e => exact .inl hmem
    | ok value =>
      unfold CacheState.retain at hmem
      dsimp only at hmem
      split at hmem
      · exact .inl hmem
      · have hmem := (AList.mem_insert _).1 hmem
        rw [touch_map] at hmem
        rcases hmem with rfl | hmem
        · exact .inr rfl
        · obtain ⟨entry, hentry⟩ := List.mem_keys.1 hmem
          have hmiss := h.counted { s.stats with misses := s.stats.misses + 1 }
          exact .inl (List.mem_keys_of_mem ((hmiss.evict (kind.entryBytes k value)).2.2 _ hentry))
  waited_inv := by
    intro s r h
    cases r with
    | error e => exact h
    | ok value => exact h.counted _
  waited_has := by
    intro s r k h
    cases r <;> exact h
  clear_inv := by
    intro s h
    refine ⟨rfl, Nat.zero_le _, ?_, .nil, fun r hr => by cases hr⟩
    exact List.nil_subperm
  clear_has := fun h => AList.notMem_empty _ h

/-- The retained-byte budget of a cache is kept, and can be kept for whatever comes in. -/
structure Budgeted (kind : CacheKind K C V) (budget : Nat) (s : CacheState K C V) : Prop where
  sum : s.bytes = (s.map.entries.map (fun e => e.2.bytes)).sum
  within : s.bytes ≤ budget
  live : ∀ k entry, s.map.lookup k = some entry → s.lru.count (kind.candidate k, entry.lastUsed) = 1
  room : ∀ need ≤ budget, satAdd (s.evictUntilFits kind need budget).bytes need ≤ budget

theorem Inv.budgeted (h : Inv kind budget s) : Budgeted kind budget s where
  sum := h.sum
  within := h.within
  live := by
    intro k entry hget
    have hmem : (⟨k, entry⟩ : Sigma fun _ : K => CacheEntry V) ∈ s.map.entries := AList.mem_lookup_iff.1 hget
    have hnodup : s.lru.Nodup := h.sorted.imp fun hlt heq => by
      rw [heq] at hlt
      exact Nat.lt_irrefl _ hlt
    exact List.count_eq_one_of_mem hnodup (h.covered.mem hmem)
  room := fun _ hneed => h.room hneed

theorem Inv.empty : Inv kind budget (CacheState.empty : CacheState K C V) :=
  ⟨rfl, Nat.zero_le _, List.nil_subperm, .nil, fun r hr => by cases hr⟩

/-- A run of a cache from empty, and one whose touches never compact. -/
def Run (kind : CacheKind K C V) (budget : Nat) (es : List (SingleFlight.Event K Unit Unit (Except CompileError V))) :
    Option (SingleFlight.State (CacheState K C V) K Unit Unit (Except CompileError V)) :=
  Runs.run (SingleFlight.State.step (ops kind budget)) (SingleFlight.init .empty) es

def QuietRun (kind : CacheKind K C V) (budget : Nat)
    (es : List (SingleFlight.Event K Unit Unit (Except CompileError V))) :
    Prop :=
  Runs.Each (SingleFlight.State.step (ops kind budget)) (SingleFlight.Meets LookupOk (RetainOk kind budget))
    (SingleFlight.init .empty) es

theorem budgeted_run {es : List (SingleFlight.Event K Unit Unit (Except CompileError V))}
    {s : SingleFlight.State (CacheState K C V) K Unit Unit (Except CompileError V)} (hquiet : QuietRun kind budget es)
    (hrun : Run kind budget es = some s) : Budgeted kind budget s.store :=
  (SingleFlight.Good.run lawful Inv.empty hquiet hrun).inv.budgeted

end CacheState

/-! ## The two caches -/

abbrev VocabFingerprint := List Byte

/-- `TrieCache`.  A record names the fingerprint itself; the clock and the bytes are added to as they are, and wrap. -/
def trieCacheKind (heapBytes : V → Nat) (trieSize : Nat) : CacheKind VocabFingerprint VocabFingerprint V where
  candidate := id
  nextTick := fun t => (t + 1) % 2 ^ 64
  addBytes := fun a b => (a + b) % 2 ^ 64
  entryBytes := fun _ trie => satAdd (heapBytes trie) (2 * 8 + trieSize + 32 + 8 + 64)
  failed := ⟨.internalLimitExceeded, .l4Bind, "trie build failed to publish a result"⟩
  nextTick_eq := by
    intro t ht
    unfold u64Max at ht
    omega
  addBytes_eq := by
    intro a b hab
    unfold usizeMax at hab
    omega

inductive ArtifactInputKind where
  | jsonSchema
  | mfirWire
  | semanticExecutable
  deriving DecidableEq

structure ArtifactCandidate where
  inputHash : List Byte
  inputKind : ArtifactInputKind
  vocabFingerprint : VocabFingerprint
  maskVocabSize : Nat
  bindMode : BindMode
  compilerSemanticsVersion : Nat
  deriving DecidableEq

/-- A key is its candidate and the exact input behind the hash. -/
structure ArtifactKey where
  candidate : ArtifactCandidate
  exactInput : List Byte
  deriving DecidableEq

def ArtifactKey.retainedBytes (keySize : Nat) (k : ArtifactKey) : Nat := satAdd k.exactInput.length keySize

/-- `ArtifactCache`.  A record names the candidate of the key; the clock and the bytes saturate. -/
def artifactCacheKind (chargeUpperBound : V → Nat) (artifactSize keySize : Nat) :
    CacheKind ArtifactKey ArtifactCandidate V where
  candidate := ArtifactKey.candidate
  nextTick := fun t => min (t + 1) u64Max
  addBytes := satAdd
  entryBytes := fun k artifact =>
    satAdd (satAdd (chargeUpperBound artifact) (k.retainedBytes keySize)) (2 * 8 + artifactSize + keySize + 64)
  failed := ⟨.internalLimitExceeded, .l4Bind, "artifact build failed to publish a result"⟩
  nextTick_eq := by
    intro t ht
    omega
  addBytes_eq := by
    intro a b hab
    unfold satAdd
    omega

/-- **The byte budgets of both caches are kept along every run whose touches never compact the log**, whatever the
threads interleave: the bytes are the sum of the charges and within the budget, every entry has exactly one live record,
and eviction makes room for any entry the budget can hold. -/
theorem caches_budgeted (V : Type) (heapBytes chargeUpperBound : V → Nat) (trieSize artifactSize keySize budget : Nat) :
    (∀ es s, CacheState.QuietRun (trieCacheKind heapBytes trieSize) budget es →
      CacheState.Run (trieCacheKind heapBytes trieSize) budget es = some s →
      CacheState.Budgeted (trieCacheKind heapBytes trieSize) budget s.store) ∧
    (∀ es s, CacheState.QuietRun (artifactCacheKind chargeUpperBound artifactSize keySize) budget es →
      CacheState.Run (artifactCacheKind chargeUpperBound artifactSize keySize) budget es = some s →
      CacheState.Budgeted (artifactCacheKind chargeUpperBound artifactSize keySize) budget s.store) :=
  ⟨fun _ _ => CacheState.budgeted_run, fun _ _ => CacheState.budgeted_run⟩

/-- A vocabulary built and found again, one for which it has to go, and one that is still being built when the cache is
cleared. -/
def trieRun : List (SingleFlight.Event VocabFingerprint Unit Unit (Except CompileError Nat)) :=
  [.call 0 [0] () (), .publish 0 (.ok 80), .settle 0, .call 1 [0] () (), .call 1 [1] () (), .publish 1 (.ok 70),
    .settle 1, .call 0 [2] () (), .clear, .publish 0 (.ok 60), .settle 0]

theorem trieRun_quiet : CacheState.QuietRun (trieCacheKind id 0) 300 trieRun := by
  have hretain : ∀ (s : CacheState VocabFingerprint VocabFingerprint Nat) {k : VocabFingerprint} {value : Nat},
      (s.evictUntilFits (trieCacheKind id 0) ((trieCacheKind id 0).entryBytes k value) 300).TouchOk →
        s.RetainOk (trieCacheKind id 0) 300 k () () (.ok value) := by
    intro s k value hok v hv _
    cases hv
    exact ⟨hok, .inl (by decide)⟩
  refine ⟨fun hmem => absurd hmem (AList.notMem_empty _), fun s h => ?_⟩
  cases h
  refine ⟨trivial, fun s h => ?_⟩
  cases h
  refine ⟨fun k slot x ticket r fs h => ?_, fun s h => ?_⟩
  · cases h
    exact hretain _ ⟨rfl, by decide⟩
  cases h
  refine ⟨fun _ => ⟨rfl, by decide⟩, fun s h => ?_⟩
  cases h
  refine ⟨fun _ => ⟨rfl, by decide⟩, fun s h => ?_⟩
  cases h
  refine ⟨trivial, fun s h => ?_⟩
  cases h
  refine ⟨fun k slot x ticket r fs h => ?_, fun s h => ?_⟩
  · cases h
    exact hretain _ ⟨rfl, by decide⟩
  cases h
  refine ⟨fun _ => ⟨rfl, by decide⟩, fun s h => ?_⟩
  cases h
  refine ⟨trivial, fun s h => ?_⟩
  cases h
  refine ⟨trivial, fun s h => ?_⟩
  cases h
  refine ⟨fun k slot x ticket r fs h => ?_, fun s h => trivial⟩
  cases h
  exact hretain _ ⟨rfl, by decide⟩

/-- One lookup found its entry, one entry was evicted, and what was built across the clear is what there is. -/
theorem trieCache_budgeted_mixed :
    ∃ s, CacheState.Run (trieCacheKind id 0) 300 trieRun = some s ∧ s.store.stats.hits = 1 ∧
      s.store.stats.evictions = 1 ∧ s.store.bytes = 180 ∧ CacheState.Budgeted (trieCacheKind id 0) 300 s.store := by
  obtain ⟨s, hs, hhits, hevictions, hbytes⟩ : ∃ s, CacheState.Run (trieCacheKind id 0) 300 trieRun = some s ∧
      s.store.stats.hits = 1 ∧ s.store.stats.evictions = 1 ∧ s.store.bytes = 180 := ⟨_, rfl, rfl, rfl, rfl⟩
  exact ⟨s, hs, hhits, hevictions, hbytes, (caches_budgeted Nat id id 0 0 0 300).1 trieRun s trieRun_quiet hs⟩

/-- One vocabulary built, and looked up until its touch compacts the log; then another built. -/
def compactingRun : List (SingleFlight.Event VocabFingerprint Unit Unit (Except CompileError Nat)) :=
  [.call 0 [0] () (), .publish 0 (.ok 80), .settle 0] ++ List.replicate 68 (.call 0 [0] () ()) ++
    [.call 0 [1] () (), .publish 0 (.ok 80), .settle 0]

/-- The compaction drops the record of the very hit that fired it, so the entry is never found for eviction again and
the budget of 300 bytes is passed. -/
theorem trieCache_passes_budget :
    ((CacheState.Run (trieCacheKind id 0) 300 compactingRun).map (fun s =>
      (s.store.bytes, (s.store.map.lookup [0]).map (fun e => s.store.lru.count ([0], e.lastUsed))))) =
      some (400, some 0) := by
  decide +kernel

end MaskForge
