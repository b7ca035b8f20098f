import MaskForge.Ir.Schema
import MaskForge.Lib.LruLog
import MaskForge.Lib.SingleFlight
/-!
# ExecutableCache — the cache of compiled schemas

Entries sit in buckets by the digest of their key, and are told apart by the key itself.  A semantic IR owns its
executable; every other input is an alias that points at it weakly, and goes when the executable has gone.  `clear`
bumps a generation, and a build claimed under another generation is not retained.

The digest is a parameter: nothing is assumed of it.
-/
namespace MaskForge

open SingleFlight (Ops)

inductive InputKeyKind where
  | json
  | mfirWire
  | schemaSet
  | semanticIr
  deriving DecidableEq

structure SchemaResourceLimits where
  maxDocuments : Nat
  maxResources : Nat
  maxTotalInputBytes : Nat
  maxDocumentBytes : Nat
  maxAstNodes : Nat
  maxAstBytes : Nat
  maxUriBytes : Nat
  maxTotalUriBytes : Nat
  maxAnchorsPerResource : Nat
  maxTotalAnchors : Nat
  maxReferences : Nat
  maxSchemaLocations : Nat
  maxResourceDepth : Nat
  maxResolutionWork : Nat
  maxRetainedGraphBytes : Nat
  maxPeakBuildBytes : Nat
  deriving DecidableEq

structure ExactInputKey where
  kind : InputKeyKind
  bytes : List Byte
  options : CompileOptions
  resourceLimits : Option SchemaResourceLimits
  routePolicyVersion : Nat
  executableSemanticsVersion : Nat
  deriving DecidableEq

/-- `Strong` or `Alias`. -/
inductive EntryValue (V : Type) where
  | strong (executable : V)
  | alias (executable : V)

structure ExecutableEntry (V : Type) where
  key : ExactInputKey
  executable : EntryValue V
  bytes : Nat
  stamp : Nat

structure Traffic where
  hits : Nat
  misses : Nat
  evictions : Nat
  oversizedBypasses : Nat

/-- `State`, but for the builds in flight, with the traffic of the cache.  `clears` counts what `generation` counts, and
does not wrap; no section reads it. -/
structure ExecutableState (D V : Type) where
  buckets : AList (fun _ : D => List (ExecutableEntry V))
  lru : List (D × Nat)
  bytes : Nat
  entries : Nat
  tick : Nat
  generation : Nat
  clears : Nat
  traffic : Traffic

/-- What the cache is not told by the source of this crate: the digest, and the sizes in memory. -/
structure ExecutableSizes (D V : Type) where
  digest : ExactInputKey → D
  retainedBytes : V → Nat
  keySize : Nat
  arcSize : Nat

/-- `Vec::swap_remove`. -/
def swapRemove {α : Type} (l : List α) (i : Nat) : List α :=
  match l.getLast? with
  | some x => (l.set i x).dropLast
  | none => []

theorem swapRemove_perm {α : Type} (l : List α) (a : α) (r : List α) :
    (swapRemove (l ++ a :: r) l.length).Perm (l ++ r) := by
  unfold swapRemove
  rcases List.eq_nil_or_concat' r with rfl | ⟨m, x, rfl⟩
  · rw [List.getLast?_concat]
    simp
  · have hlast : (l ++ a :: (m ++ [x])).getLast? = some x := by
      rw [← List.cons_append, ← List.append_assoc, List.getLast?_concat]
    have hset : (l ++ a :: (m ++ [x])).set l.length x = (l ++ x :: m) ++ [x] := by simp
    rw [hlast]
    dsimp only
    rw [hset, List.dropLast_concat, ← List.append_assoc]
    exact List.perm_middle.trans (List.perm_append_singleton _ _).symm

/-- An element split off by its position. -/
theorem split_at {α : Type} {l : List α} {i : Nat} {a : α} (h : l[i]? = some a) :
    ∃ front back, l = front ++ a :: back ∧ front.length = i := by
  obtain ⟨hi, rfl⟩ := List.getElem?_eq_some_iff.1 h
  exact ⟨l.take i, l.drop (i + 1), by simp, List.length_take_of_le (Nat.le_of_lt hi)⟩

namespace ExecutableState
variable {D V : Type}

def empty : ExecutableState D V := ⟨∅, [], 0, 0, 0, 0, 0, ⟨0, 0, 0, 0⟩⟩

abbrev Buckets (D V : Type) := AList (fun _ : D => List (ExecutableEntry V))

/-- Everything in the buckets, with the bucket it is in. -/
def stored (buckets : Buckets D V) : List (D × ExecutableEntry V) :=
  buckets.entries.flatMap (fun b => b.2.map (fun e => (b.1, e)))

variable [DecidableEq D]

/-- The first entry of a bucket that passes a test, and where it is. -/
def position (buckets : Buckets D V) (d : D) (p : ExecutableEntry V → Bool) :
    Option (List (ExecutableEntry V) × Nat × ExecutableEntry V) :=
  (buckets.lookup d).bind (fun bucket => (bucket.findIdx? p).bind (fun i => bucket[i]?.map (fun e => (bucket, i, e))))

/-- `swap_remove` in a bucket; a bucket that has become empty goes. -/
def removeAt (buckets : Buckets D V) (d : D) (bucket : List (ExecutableEntry V)) (i : Nat) : Buckets D V :=
  if (swapRemove bucket i).isEmpty then buckets.erase d else buckets.insert d (swapRemove bucket i)

theorem stored_perm {buckets : Buckets D V} {d : D} {bucket : List (ExecutableEntry V)}
    (h : buckets.lookup d = some bucket) :
    (stored buckets).Perm (bucket.map (fun e => (d, e)) ++ stored (buckets.erase d)) := by
  have hmem : (⟨d, bucket⟩ : Sigma fun _ : D => List (ExecutableEntry V)) ∈ buckets.entries := AList.mem_lookup_iff.1 h
  exact (LruLog.entries_perm_erase hmem).flatMap_right _

theorem stored_insert (buckets : Buckets D V) (d : D) (bucket : List (ExecutableEntry V)) :
    stored (buckets.insert d bucket) = bucket.map (fun e => (d, e)) ++ stored (buckets.erase d) := by
  unfold stored
  rw [AList.entries_insert, List.flatMap_cons]
  rfl

/-- A bucket is pushed to, or begun. -/
theorem stored_push (buckets : Buckets D V) (d : D) (e : ExecutableEntry V) :
    (stored (buckets.insert d ((buckets.lookup d).getD [] ++ [e]))).Perm ((d, e) :: stored buckets) := by
  rw [stored_insert]
  cases hget : buckets.lookup d with
  | none =>
    have herase : stored (buckets.erase d) = stored buckets := by
      unfold stored
      show List.flatMap _ (buckets.entries.kerase d) = _
      rw [List.kerase_of_notMem_keys (AList.lookup_eq_none.1 hget)]
    rw [herase]
    exact .rfl
  | some bucket =>
    rw [Option.getD_some, List.map_append]
    refine List.Perm.trans ?_ ((stored_perm hget).symm.cons _)
    rw [List.append_assoc]
    exact List.perm_middle

/-- **The entry at a position can be taken out, or put back changed.** -/
theorem position_spec {buckets : Buckets D V} {d : D} {p : ExecutableEntry V → Bool} {bucket : List (ExecutableEntry V)}
    {i : Nat} {e : ExecutableEntry V} (h : position buckets d p = some (bucket, i, e)) :
    p e = true ∧ ∃ rest, (stored buckets).Perm ((d, e) :: rest) ∧ (stored (removeAt buckets d bucket i)).Perm rest ∧
      ∀ e', (stored (buckets.insert d (bucket.set i e'))).Perm ((d, e') :: rest) := by
  obtain ⟨bucket', hbucket, h⟩ := Option.bind_eq_some_iff.1 h
  obtain ⟨i', hi', h⟩ := Option.bind_eq_some_iff.1 h
  obtain ⟨e', he', h⟩ := Option.map_eq_some_iff.1 h
  cases h
  have hpe : p e = true := by
    obtain ⟨hlt, hp, -⟩ := List.findIdx?_eq_some_iff_getElem.1 hi'
    rw [List.getElem?_eq_getElem hlt] at he'
    cases he'
    exact hp
  obtain ⟨front, back, rfl, rfl⟩ := split_at he'
  have hswap := swapRemove_perm front e back
  refine ⟨hpe, (front ++ back).map (fun e => (d, e)) ++ stored (buckets.erase d), ?_, ?_, fun e' => ?_⟩
  · exact (stored_perm hbucket).trans ((List.perm_middle.map fun e => (d, e)).append_right _)
  · refine List.Perm.trans ?_ ((hswap.map fun e => (d, e)).append_right _)
    unfold removeAt
    split
    · rename_i hnil
      rw [List.isEmpty_iff.1 hnil]
      exact .rfl
    · rw [stored_insert]
  · rw [stored_insert]
    have hset : (front ++ e :: back).set front.length e' = front ++ e' :: back := by simp
    rw [hset]
    exact (List.perm_middle.map fun e => (d, e)).append_right _

theorem position_none {buckets : Buckets D V} {d : D} {p : ExecutableEntry V → Bool} (h : position buckets d p = none) :
    ∀ e, (d, e) ∈ stored buckets → p e = false := by
  intro e he
  obtain ⟨⟨d', bucket⟩, hbucket, he⟩ := List.mem_flatMap.1 he
  obtain ⟨e', he', heq⟩ := List.mem_map.1 he
  cases heq
  have hget : buckets.lookup d' = some bucket := AList.mem_lookup_iff.2 hbucket
  refine Bool.eq_false_iff.2 fun hpe => ?_
  unfold position at h
  rw [hget, Option.bind_some] at h
  cases hidx : bucket.findIdx? p with
  | none => exact Bool.eq_false_iff.1 (List.findIdx?_eq_none_iff.1 hidx e he') hpe
  | some i =>
    have hlt := (List.findIdx?_eq_some_iff_getElem.1 hidx).1
    rw [hidx, Option.bind_some, List.getElem?_eq_getElem hlt] at h
    cases h

/-! ## The sections -/

def shelf : LruLog.Shelf (Buckets D V) (D × ExecutableEntry V) (D × Nat) where
  entries := stored
  tag := fun p => (p.1, p.2.stamp)
  charge := fun p => p.2.bytes
  take := fun buckets r => (position buckets r.1 (fun e => e.stamp == r.2)).map (fun found =>
    ((r.1, found.2.2), removeAt buckets r.1 found.1 found.2.1))
  take_some := by
    intro buckets r p buckets' h
    obtain ⟨⟨bucket, i, e⟩, hfound, h⟩ := Option.map_eq_some_iff.1 h
    cases h
    obtain ⟨hstamp, rest, hperm, hremove, -⟩ := position_spec hfound
    exact ⟨Prod.ext rfl (beq_iff_eq.1 hstamp), hperm.trans (hremove.symm.cons _)⟩
  take_none := by
    rintro buckets r h ⟨d, e⟩ he rfl
    have := position_none (Option.map_eq_none_iff.1 h) e he
    exact absurd rfl (beq_eq_false_iff_ne.1 this)

def evictUntilFits (budget : Nat) (s : ExecutableState D V) (need : Nat) : ExecutableState D V :=
  let swept := LruLog.sweep shelf (fun bytes => decide (satAdd bytes need > budget)) s.lru s.buckets s.bytes 0
  { s with
    buckets := swept.store
    lru := swept.log
    bytes := swept.bytes
    entries := s.entries - swept.dropped
    traffic := { s.traffic with evictions := s.traffic.evictions + swept.dropped } }

/-- `tick.saturating_add(1)`. -/
def nextStamp (s : ExecutableState D V) : Nat := min (s.tick + 1) u64Max

/-- `EntryValue::get`: an alias is upgraded while its executable lives. -/
def getExecutable (lives : V → Bool) : EntryValue V → Option V
  | .strong executable => some executable
  | .alias executable => if lives executable then some executable else none

def waited (s : ExecutableState D V) : Except CompileError V → ExecutableState D V
  | .error _ => s
  | .ok _ => { s with traffic := { s.traffic with hits := s.traffic.hits + 1 } }

def clear (s : ExecutableState D V) : ExecutableState D V :=
  { s with
    buckets := ∅
    lru := []
    bytes := 0
    entries := 0
    generation := (s.generation + 1) % 2 ^ 64
    clears := s.clears + 1 }

/-- An executable lives while a strong entry owns it, or somebody outside does. -/
def lives [DecidableEq V] (s : ExecutableState D V) (outside : V → Bool) (executable : V) : Bool :=
  outside executable || (stored s.buckets).any (fun p => match p.2.executable with
    | .strong v => decide (v = executable)
    | .alias _ => false)

variable (sizes : ExecutableSizes D V)

/-- The first section of `get_or_build_with_charge`, up to the builds in flight. -/
def lookup [DecidableEq V] (s : ExecutableState D V) (outside : V → Bool) (k : ExactInputKey) :
    Option (Except CompileError V) × ExecutableState D V :=
  match position s.buckets (sizes.digest k) (fun e => decide (e.key = k)) with
  | none => (none, s)
  | some (bucket, i, e) => match getExecutable (s.lives outside) e.executable with
    | some executable =>
      (some (.ok executable), { s with
        tick := s.nextStamp
        buckets := s.buckets.insert (sizes.digest k) (bucket.set i { e with stamp := s.nextStamp })
        lru := s.lru ++ [(sizes.digest k, s.nextStamp)]
        traffic := { s.traffic with hits := s.traffic.hits + 1 } })
    | none =>
      (none, { s with
        buckets := removeAt s.buckets (sizes.digest k) bucket i
        bytes := s.bytes - e.bytes
        entries := s.entries - 1 })

/-- What an entry is charged; `ENTRY_OVERHEAD` is 160. -/
def entryBytes (k : ExactInputKey) (chargeExecutable : Bool) (executable : V) : Nat :=
  satAdd (satAdd (satAdd k.bytes.length sizes.keySize)
    (if chargeExecutable then sizes.retainedBytes executable else sizes.arcSize)) 160

/-- The last section: a build of this generation is retained if the budget can hold it. -/
def retain (budget : Nat) (s : ExecutableState D V) (k : ExactInputKey) (chargeExecutable : Bool)
    (ticket : Nat × Nat) (r : Except CompileError V) : ExecutableState D V :=
  let s := { s with traffic := { s.traffic with misses := s.traffic.misses + 1 } }
  match r with
  | .error _ => s
  | .ok executable =>
    if s.generation ≠ ticket.1 then s
    else
      let bytes := entryBytes sizes k chargeExecutable executable
      if bytes > budget then
        { s with traffic := { s.traffic with oversizedBypasses := s.traffic.oversizedBypasses + 1 } }
      else
        let s := evictUntilFits budget s bytes
        let value := if chargeExecutable then EntryValue.strong executable else .alias executable
        { s with
          tick := s.nextStamp
          buckets := s.buckets.insert (sizes.digest k)
            ((s.buckets.lookup (sizes.digest k)).getD [] ++ [⟨k, value, bytes, s.nextStamp⟩])
          entries := satAdd s.entries 1
          bytes := satAdd s.bytes bytes
          lru := s.lru ++ [(sizes.digest k, s.nextStamp)] }

/-- The sections of the cache.  A builder notes the generation, and here the number of clears too. -/
def ops [DecidableEq V] (budget : Nat) :
    Ops (ExecutableState D V) ExactInputKey Bool (Nat × Nat) (V → Bool) (Except CompileError V) where
  lookup := lookup sizes
  ticket := fun s => (s.generation, s.clears)
  retain := retain sizes budget
  waited := waited
  clear := clear
  failed := .error ⟨.internalLimitExceeded, .l3, "schema executable builder failed to publish"⟩

/-! ## What the cache keeps -/

omit [DecidableEq D] in
theorem usizeMax_pos : 1 ≤ usizeMax := by decide

/-- One entry for a key, each in the bucket of its digest, and each charged. -/
structure Stock (sizes : ExecutableSizes D V) (l : List (D × ExecutableEntry V)) : Prop where
  keys : (l.map (fun p => p.2.key)).Nodup
  placed : ∀ p ∈ l, sizes.digest p.2.key = p.1
  charged : ∀ p ∈ l, 1 ≤ p.2.bytes

structure Inv (sizes : ExecutableSizes D V) (budget : Nat) (s : ExecutableState D V) : Prop where
  stock : Stock sizes (stored s.buckets)
  covered : LruLog.Covered shelf s.buckets s.lru
  within : s.bytes ≤ budget
  exact : budget < usizeMax → s.bytes = LruLog.total shelf s.buckets ∧ s.entries = (stored s.buckets).length
  counted : s.generation = s.clears % 2 ^ 64

def Has (s : ExecutableState D V) (k : ExactInputKey) : Prop := ∃ p ∈ stored s.buckets, p.2.key = k

variable {sizes} {budget : Nat} {s : ExecutableState D V} {k : ExactInputKey}

omit [DecidableEq D] in
theorem Stock.nil : Stock sizes [] := 
  ⟨List.nodup_nil, fun _ hp => absurd hp List.not_mem_nil, fun _ hp => absurd hp List.not_mem_nil⟩

omit [DecidableEq D] in
theorem Stock.perm {l l' : List (D × ExecutableEntry V)} (h : Stock sizes l) (hl : l.Perm l') : Stock sizes l' :=
  ⟨(hl.map _).nodup_iff.1 h.keys, fun p hp => h.placed p (hl.symm.subset hp), fun p hp =>
    h.charged p (hl.symm.subset hp)⟩

omit [DecidableEq D] in
theorem Stock.sublist {l l' : List (D × ExecutableEntry V)} (h : Stock sizes l) (hl : l'.Sublist l) : Stock sizes l' :=
  ⟨(hl.map _).nodup h.keys, fun p hp => h.placed p (hl.subset hp), fun p hp => h.charged p (hl.subset hp)⟩

omit [DecidableEq D] in
theorem Stock.cons {l : List (D × ExecutableEntry V)} (h : Stock sizes l) {e : ExecutableEntry V}
    (hfresh : ∀ p ∈ l, p.2.key ≠ e.key) (hbytes : 1 ≤ e.bytes) : Stock sizes ((sizes.digest e.key, e) :: l) := by
  refine ⟨List.nodup_cons.2 ⟨fun hmem => ?_, h.keys⟩, fun p hp => ?_, fun p hp => ?_⟩
  · obtain ⟨p, hp, hkey⟩ := List.mem_map.1 hmem
    exact hfresh p hp hkey
  · rcases List.mem_cons.1 hp with rfl | hp
    · rfl
    · exact h.placed p hp
  · rcases List.mem_cons.1 hp with rfl | hp
    · exact hbytes
    · exact h.charged p hp

omit [DecidableEq D] in
theorem Stock.restamp {d : D} {e : ExecutableEntry V} {l : List (D × ExecutableEntry V)} (h : Stock sizes ((d, e) :: l))
    (stamp : Nat) : Stock sizes ((d, { e with stamp }) :: l) := by
  refine ⟨h.keys, fun p hp => ?_, fun p hp => ?_⟩
  · rcases List.mem_cons.1 hp with rfl | hp
    · exact h.placed (d, e) List.mem_cons_self
    · exact h.placed p (List.mem_cons_of_mem _ hp)
  · rcases List.mem_cons.1 hp with rfl | hp
    · exact h.charged (d, e) List.mem_cons_self
    · exact h.charged p (List.mem_cons_of_mem _ hp)

omit [DecidableEq D] in
theorem entries_le {l : List (D × ExecutableEntry V)} (h : Stock sizes l) :
    l.length ≤ (l.map (fun p => p.2.bytes)).sum := by
  have := List.card_nsmul_le_sum (l.map (fun p => p.2.bytes)) 1 (by
    intro x hx
    obtain ⟨p, hp, rfl⟩ := List.mem_map.1 hx
    exact h.charged p hp)
  simpa using this

theorem position_key (h : Stock sizes (stored s.buckets))
    (hnone : position s.buckets (sizes.digest k) (fun e => decide (e.key = k)) = none) : ¬Has s k := by
  rintro ⟨p, hp, rfl⟩
  obtain ⟨d, e⟩ := p
  have hplaced : sizes.digest e.key = d := h.placed _ hp
  subst hplaced
  exact of_decide_eq_false (position_none hnone e hp) rfl

theorem Inv.lookup [DecidableEq V] (h : Inv sizes budget s) (outside : V → Bool) (k : ExactInputKey) :
    Inv sizes budget (lookup sizes s outside k).2 := by
  unfold ExecutableState.lookup
  cases hpos : position s.buckets (sizes.digest k) (fun e => decide (e.key = k)) with
  | none => exact h
  | some found =>
    obtain ⟨bucket, i, e⟩ := found
    obtain ⟨-, rest, hperm, hremove, hset⟩ := position_spec hpos
    have hperm : (shelf.entries s.buckets).Perm ((sizes.digest k, e) :: rest) := hperm
    have hstock := h.stock.perm hperm
    dsimp only
    cases getExecutable (s.lives outside) e.executable with
    | some executable =>
      have hnew : (shelf.entries (s.buckets.insert (sizes.digest k)
        (bucket.set i { e with stamp := s.nextStamp }))).Perm
          ((sizes.digest k, { e with stamp := s.nextStamp }) :: rest) := hset _
      refine ⟨(hstock.restamp s.nextStamp).perm hnew.symm, h.covered.touch hperm hnew, h.within, fun hbudget =>
        ?_, h.counted⟩
      obtain ⟨hbytes, hcount⟩ := h.exact hbudget
      refine ⟨?_, ?_⟩
      · exact hbytes.trans ((LruLog.total_eq hperm).trans (LruLog.total_eq hnew).symm)
      · exact hcount.trans (hperm.length_eq.trans hnew.length_eq.symm)
    | none =>
      have hrest : (shelf.entries s.buckets).Perm
          ((sizes.digest k, e) :: shelf.entries (removeAt s.buckets (sizes.digest k) bucket i)) :=
        hperm.trans (hremove.symm.cons _)
      refine ⟨(hstock.sublist (List.sublist_cons_self _ _)).perm hremove.symm, h.covered.forget hrest,
        (Nat.sub_le _ _).trans h.within, fun hbudget => ?_, h.counted⟩
      obtain ⟨hbytes, hcount⟩ := h.exact hbudget
      refine ⟨?_, ?_⟩
      · show s.bytes - e.bytes = LruLog.total shelf (removeAt s.buckets (sizes.digest k) bucket i)
        rw [hbytes, LruLog.total_perm hrest]
        exact Nat.add_sub_cancel_left _ _
      · show s.entries - 1 = (stored (removeAt s.buckets (sizes.digest k) bucket i)).length
        have hlen : (stored s.buckets).length = (stored (removeAt s.buckets (sizes.digest k) bucket i)).length + 1 :=
          hrest.length_eq
        omega

theorem Inv.counting (h : Inv sizes budget s) (traffic : Traffic) : Inv sizes budget { s with traffic } :=
  ⟨h.stock, h.covered, h.within, h.exact, h.counted⟩

theorem Inv.evict (h : Inv sizes budget s) (need : Nat) : Inv sizes budget (evictUntilFits budget s need) ∧
    (∀ p ∈ stored (evictUntilFits budget s need).buckets, p ∈ stored s.buckets) ∧
    (satAdd (evictUntilFits budget s need).bytes need ≤ budget ∨ stored (evictUntilFits budget s need).buckets =
      []) := by
  have hs : LruLog.Sweeps shelf (fun bytes => decide (satAdd bytes need > budget)) s.buckets s.lru s.bytes 0
      (LruLog.sweep shelf _ s.lru s.buckets s.bytes 0) := LruLog.sweep_spec s.lru s.buckets s.bytes 0 h.covered
  obtain ⟨out, hperm, hdropped⟩ := hs.kept
  have hperm : (stored s.buckets).Perm (out ++ stored (evictUntilFits budget s need).buckets) := hperm
  refine ⟨⟨(h.stock.perm hperm).sublist (List.sublist_append_right _ _), hs.covered, hs.less.trans h.within,
    fun hbudget => ?_,
    h.counted⟩, fun p hp => hperm.symm.subset (List.mem_append_right _ hp), ?_⟩
  · obtain ⟨hbytes, hcount⟩ := h.exact hbudget
    refine ⟨hs.bytes hbytes, ?_⟩
    show s.entries - _ = _
    rw [hcount, hdropped, hperm.length_eq, List.length_append]
    omega
  · exact hs.room.imp_left fun hroom => Nat.not_lt.1 (of_decide_eq_false hroom)

/-- Where room has been made, what it was made for fits. -/
theorem Inv.fits (h : Inv sizes budget s) {need : Nat} (hneed : need ≤ budget)
    (hroom : satAdd s.bytes need ≤ budget ∨ stored s.buckets = []) : satAdd s.bytes need ≤ budget := by
  by_cases hbudget : budget < usizeMax
  · rcases hroom with hroom | hnil
    · exact hroom
    · have hzero : s.bytes = 0 := by
        rw [(h.exact hbudget).1]
        show (List.map _ (stored s.buckets)).sum = 0
        rw [hnil]
        rfl
      unfold satAdd
      omega
  · unfold satAdd
    omega

theorem Inv.push (h : Inv sizes budget s) {e : ExecutableEntry V} (hfresh : ¬Has s e.key) (hbytes : 1 ≤ e.bytes)
    (hneed : e.bytes ≤ budget) (hroom : satAdd s.bytes e.bytes ≤ budget ∨ stored s.buckets = [])
    (hstamp : e.stamp = s.nextStamp) :
    Inv sizes budget { s with
      tick := s.nextStamp
      buckets := s.buckets.insert (sizes.digest e.key) ((s.buckets.lookup (sizes.digest e.key)).getD [] ++ [e])
      entries := satAdd s.entries 1
      bytes := satAdd s.bytes e.bytes
      lru := s.lru ++ [(sizes.digest e.key, s.nextStamp)] } := by
  have hpush := stored_push s.buckets (sizes.digest e.key) e
  have hnew : (shelf.entries (s.buckets.insert (sizes.digest e.key)
      ((s.buckets.lookup (sizes.digest e.key)).getD [] ++ [e]))).Perm
        ((sizes.digest e.key, e) :: shelf.entries s.buckets) :=
    hpush
  have hwithin := h.fits hneed hroom
  refine ⟨(h.stock.cons (fun p hp hkey => hfresh ⟨p, hp, hkey⟩) hbytes).perm hpush.symm, ?_, hwithin, fun hbudget => ?_,
    h.counted⟩
  · rw [← hstamp]
    exact h.covered.add hnew
  · obtain ⟨hsum, hcount⟩ := h.exact hbudget
    have hle := entries_le h.stock
    have htotal : s.bytes = ((stored s.buckets).map (fun p => p.2.bytes)).sum := hsum
    have hfits := h.within
    refine ⟨?_, ?_⟩
    · show satAdd s.bytes e.bytes = _
      rw [LruLog.total_perm hnew, ← hsum]
      show satAdd s.bytes e.bytes = e.bytes + s.bytes
      unfold satAdd at hwithin ⊢
      omega
    · have hroom : s.entries + 1 ≤ usizeMax := by omega
      show satAdd s.entries 1 = _
      rw [hpush.length_eq, List.length_cons, satAdd_eq hroom, hcount]

omit [DecidableEq D] in
theorem entryBytes_pos (k : ExactInputKey) (chargeExecutable : Bool) (executable : V) :
    1 ≤ entryBytes sizes k chargeExecutable executable := by
  have := usizeMax_pos
  unfold entryBytes satAdd
  omega

/-- **What a retained build does to the buckets**: nothing, or it makes room and adds its entry. -/
theorem retain_cases (sizes : ExecutableSizes D V) (budget : Nat) (s : ExecutableState D V) (k : ExactInputKey)
    (chargeExecutable : Bool) (ticket : Nat × Nat) (r : Except CompileError V) :
    (∃ traffic, retain sizes budget s k chargeExecutable ticket r = { s with traffic }) ∨
    ∃ executable, r = .ok executable ∧ s.generation = ticket.1 ∧
      entryBytes sizes k chargeExecutable executable ≤ budget ∧
      ∃ traffic, ∃ value, (value = EntryValue.strong executable ∨ value = .alias executable) ∧
        let s' := evictUntilFits budget { s with traffic } (entryBytes sizes k chargeExecutable executable)
        let e : ExecutableEntry V := ⟨k, value, entryBytes sizes k chargeExecutable executable, s'.nextStamp⟩
        retain sizes budget s k chargeExecutable ticket r = { s' with
          tick := s'.nextStamp
          buckets := s'.buckets.insert (sizes.digest k) ((s'.buckets.lookup (sizes.digest k)).getD [] ++ [e])
          entries := satAdd s'.entries 1
          bytes := satAdd s'.bytes e.bytes
          lru := s'.lru ++ [(sizes.digest k, s'.nextStamp)] } := by
  unfold retain
  cases r with
  | error err => exact .inl ⟨_, rfl⟩
  | ok executable =>
    dsimp only
    split
    · exact .inl ⟨_, rfl⟩
    · rename_i hgen
      split
      · exact .inl ⟨_, rfl⟩
      · rename_i hbudget
        refine .inr ⟨executable, rfl, not_not.1 hgen, Nat.not_lt.1 hbudget, _, _, ?_, rfl⟩
        cases chargeExecutable with
        | true => exact .inl rfl
        | false => exact .inr rfl

theorem Inv.retain (h : Inv sizes budget s) (hk : ¬Has s k) (chargeExecutable : Bool) (ticket : Nat × Nat)
    (r : Except CompileError V) : Inv sizes budget (retain sizes budget s k chargeExecutable ticket r) := by
  rcases retain_cases sizes budget s k chargeExecutable ticket r with
    ⟨traffic, heq⟩ | ⟨executable, -, -, hneed, traffic, value, -, heq⟩
  · rw [heq]
    exact h.counting traffic
  · rw [heq]
    obtain ⟨hinv, hsub, hroom⟩ := (h.counting traffic).evict (entryBytes sizes k chargeExecutable executable)
    refine hinv.push (e := ⟨k, value, _, _⟩) ?_ (entryBytes_pos k chargeExecutable executable) hneed hroom rfl
    rintro ⟨p, hp, hkey⟩
    exact hk ⟨p, hsub p hp, hkey⟩

/-- What is stored after a section was stored before it, up to stamps, or is what the section retained. -/
theorem mem_lookup [DecidableEq V] {outside : V → Bool} {p : D × ExecutableEntry V}
    (h : p ∈ stored (lookup sizes s outside k).2.buckets) :
    ∃ q ∈ stored s.buckets, p.2.key = q.2.key ∧ p.2.executable = q.2.executable := by
  unfold lookup at h
  cases hpos : position s.buckets (sizes.digest k) (fun e => decide (e.key = k)) with
  | none =>
    rw [hpos] at h
    exact ⟨p, h, rfl, rfl⟩
  | some found =>
    obtain ⟨bucket, i, e⟩ := found
    obtain ⟨-, rest, hperm, hremove, hset⟩ := position_spec hpos
    rw [hpos] at h
    dsimp only at h
    cases hget : getExecutable (s.lives outside) e.executable with
    | some executable =>
      rw [hget] at h
      rcases List.mem_cons.1 ((hset _).subset h) with rfl | h
      · exact ⟨_, hperm.symm.subset List.mem_cons_self, rfl, rfl⟩
      · exact ⟨p, hperm.symm.subset (List.mem_cons_of_mem _ h), rfl, rfl⟩
    | none =>
      rw [hget] at h
      exact ⟨p, hperm.symm.subset (List.mem_cons_of_mem _ (hremove.subset h)), rfl, rfl⟩

/-- The executable of an entry. -/
def EntryValue.executable : EntryValue V → V
  | .strong executable => executable
  | .alias executable => executable

theorem mem_retain (h : Inv sizes budget s) {chargeExecutable : Bool} {ticket : Nat × Nat} {r : Except CompileError V}
    {p : D × ExecutableEntry V} (hp : p ∈ stored (retain sizes budget s k chargeExecutable ticket r).buckets) :
    p ∈ stored s.buckets ∨ (p.2.key = k ∧ r = .ok (EntryValue.executable p.2.executable)) := by
  rcases retain_cases sizes budget s k chargeExecutable ticket r with
    ⟨traffic, heq⟩ | ⟨executable, hr, -, hneed, traffic, value, hvalue, heq⟩
  · rw [heq] at hp
    exact .inl hp
  · rw [heq] at hp
    obtain ⟨-, hsub, -⟩ := (h.counting traffic).evict (entryBytes sizes k chargeExecutable executable)
    rcases List.mem_cons.1 ((stored_push _ _ _).subset hp) with rfl | hp
    · refine .inr ⟨rfl, hr.trans ?_⟩
      rcases hvalue with rfl | rfl <;> rfl
    · exact .inl (hsub p hp)

variable [DecidableEq V]

theorem lawful : SingleFlight.Lawful (ops sizes budget) (Inv sizes budget) Has (fun _ _ _ => True)
    (fun _ _ _ _ _ => True) where
  lookup_inv := fun h _ => h.lookup _ _
  lookup_has := by
    rintro s outside k k' - ⟨p, hp, rfl⟩
    obtain ⟨q, hq, hkey, -⟩ := mem_lookup hp
    exact ⟨q, hq, hkey.symm⟩
  lookup_miss := by
    intro s outside k h hnone
    have hnone : (lookup sizes s outside k).1 = none := hnone
    show ¬Has (lookup sizes s outside k).2 k
    unfold lookup at hnone ⊢
    cases hpos : position s.buckets (sizes.digest k) (fun e => decide (e.key = k)) with
    | none => exact position_key h.stock hpos
    | some found =>
      obtain ⟨bucket, i, e⟩ := found
      obtain ⟨hkey, rest, hperm, hremove, -⟩ := position_spec hpos
      have hkey : e.key = k := of_decide_eq_true hkey
      rw [hpos] at hnone
      dsimp only at hnone ⊢
      cases hget : getExecutable (s.lives outside) e.executable with
      | some executable =>
        rw [hget] at hnone
        cases hnone
      | none =>
        rintro ⟨p, hp, hpk⟩
        -- the removed entry was the only one of its key
        have hnodup := (h.stock.perm hperm).keys
        rw [List.map_cons, List.nodup_cons] at hnodup
        exact hnodup.1 (List.mem_map.2 ⟨p, hremove.subset hp, hpk.trans hkey.symm⟩)
  retain_inv := fun h hk _ => h.retain hk _ _ _
  retain_has := by
    rintro s k x ticket r k' h ⟨p, hp, rfl⟩
    rcases mem_retain h hp with hp | ⟨hkey, -⟩
    · exact .inl ⟨p, hp, rfl⟩
    · exact .inr hkey
  waited_inv := by
    intro s r h
    cases r with
    | error e => exact h
    | ok v => exact h.counting _
  waited_has := by
    intro s r k h
    cases r <;> exact h
  clear_inv := by
    intro s h
    refine ⟨.nil, List.nil_subperm, Nat.zero_le _, fun _ => ⟨rfl, rfl⟩, ?_⟩
    show (s.generation + 1) % 2 ^ 64 = (s.clears + 1) % 2 ^ 64
    rw [h.counted]
    omega
  clear_has := by
    rintro s k ⟨p, hp, -⟩
    cases hp

/-- A lookup would answer this for a key. -/
def Holds (s : ExecutableState D V) (k : ExactInputKey) (r : Except CompileError V) : Prop :=
  ∃ p ∈ stored s.buckets, p.2.key = k ∧ r = .ok (EntryValue.executable p.2.executable)

theorem traceable : SingleFlight.Traceable (ops sizes budget) (Inv sizes budget) Holds where
  lookup_holds := by
    rintro s outside k k' r - ⟨p, hp, rfl, rfl⟩
    obtain ⟨q, hq, hkey, hexe⟩ := mem_lookup hp
    exact ⟨q, hq, hkey.symm, by rw [hexe]⟩
  retain_holds := by
    rintro s k x ticket r k' r' h ⟨p, hp, rfl, rfl⟩
    rcases mem_retain h hp with hp | ⟨hkey, hr⟩
    · exact .inl ⟨p, hp, rfl, rfl⟩
    · exact .inr ⟨hkey, hr.symm⟩
  waited_holds := by
    intro s r k r' h
    cases r <;> exact h
  clear_holds := by
    rintro s k r ⟨p, hp, -⟩
    cases hp

theorem lookup_holds {outside : V → Bool} {r : Except CompileError V} {store : ExecutableState D V}
    (h : lookup sizes s outside k = (some r, store)) : Holds s k r := by
  unfold lookup at h
  cases hpos : position s.buckets (sizes.digest k) (fun e => decide (e.key = k)) with
  | none =>
    rw [hpos] at h
    cases h
  | some found =>
    obtain ⟨bucket, i, e⟩ := found
    obtain ⟨hkey, rest, hperm, -, -⟩ := position_spec hpos
    rw [hpos] at h
    dsimp only at h
    cases hget : getExecutable (s.lives outside) e.executable with
    | none =>
      rw [hget] at h
      cases h
    | some executable =>
      rw [hget] at h
      cases h
      refine ⟨_, hperm.symm.subset List.mem_cons_self, of_decide_eq_true hkey, ?_⟩
      unfold getExecutable at hget
      split at hget
      · rename_i hexe
        cases hget
        rw [hexe]
        rfl
      · rename_i hexe
        split at hget
        · cases hget
          rw [hexe]
          rfl
        · cases hget

theorem clears_storeStep {s : SingleFlight.State (ExecutableState D V) ExactInputKey Bool (Nat × Nat)
    (Except CompileError V)} {store : ExecutableState D V} (h : SingleFlight.StoreStep (ops sizes budget) s store) :
    s.store.clears ≤ store.clears := by
  cases h with
  | same => exact Nat.le_refl _
  | lookup o k =>
    show _ ≤ (lookup sizes s.store o k).2.clears
    unfold lookup
    split
    · exact Nat.le_refl _
    · split <;> exact Nat.le_refl _
  | waited r => cases r <;> exact Nat.le_refl _
  | @retain t k slot x ticket r fs ht =>
    show _ ≤ (retain sizes budget s.store k x ticket r).clears
    rcases retain_cases sizes budget s.store k x ticket r with ⟨traffic, heq⟩ | ⟨_, _, _, _, traffic, value, _, heq⟩
    · rw [heq]
    · rw [heq]
      exact Nat.le_refl _
  | clear => exact Nat.le_succ _

abbrev Flight (D V : Type) :=
  SingleFlight.State (ExecutableState D V) ExactInputKey Bool (Nat × Nat) (Except CompileError V)

abbrev CacheEvent (V : Type) := SingleFlight.Event ExactInputKey Bool (V → Bool) (Except CompileError V)

/-- A run from the empty cache, any number of threads interleaved. -/
def Run (sizes : ExecutableSizes D V) (budget : Nat) (es : List (CacheEvent V)) : Option (Flight D V) :=
  Runs.run (SingleFlight.State.step (ops sizes budget)) (SingleFlight.init .empty) es

/-- What holds in every state of a run. -/
structure Kept (sizes : ExecutableSizes D V) (budget : Nat) (s : Flight D V) : Prop where
  good : SingleFlight.Good (ops sizes budget) (Inv sizes budget) Has s
  traced : ∀ k r, Holds s.store k r → ∃ slot, (k, slot, r) ∈ s.built
  tickets : ∀ t, ∀ ticket ∈ SingleFlight.tickets (s.threads t), ticket.1 = ticket.2 % 2 ^ 64 ∧ ticket.2 ≤ s.store.clears

theorem Kept.init : Kept sizes budget (SingleFlight.init .empty) where
  good := ⟨.init, ⟨.nil, List.nil_subperm, Nat.zero_le _, fun _ => ⟨rfl, rfl⟩, rfl⟩⟩
  traced := by
    rintro k r ⟨p, hp, -⟩
    cases hp
  tickets := fun t ticket hmem => by cases hmem

omit [DecidableEq D] [DecidableEq V] in
theorem meets (s : Flight D V) (e : CacheEvent V) :
    SingleFlight.Meets (fun _ _ _ => True) (fun _ _ _ _ _ => True) s e := by
  cases e <;> simp [SingleFlight.Meets]

theorem Kept.step {s s' : Flight D V} (h : Kept sizes budget s) {e : CacheEvent V}
    (hstep : SingleFlight.State.step (ops sizes budget) s e = some s') : Kept sizes budget s' := by
  have hgood := h.good.step lawful (meets s e) hstep
  refine ⟨hgood, h.good.traced_step traceable h.traced hstep, ?_⟩
  refine h.good.wf.tickets_step (P := fun store ticket => ticket.1 = ticket.2 % 2 ^ 64 ∧ ticket.2 ≤ store.clears)
    ⟨hgood.inv.counted, Nat.le_refl _⟩ (fun store ticket hstore hticket => ?_) h.tickets hstep
  exact ⟨hticket.1, hticket.2.trans (clears_storeStep hstore)⟩

end ExecutableState

open ExecutableState SingleFlight

variable {D V : Type} [DecidableEq D] [DecidableEq V]

/-- The safety of the executable cache. -/
structure CacheSafe (sizes : ExecutableSizes D V) (budget : Nat) (s : Flight D V) : Prop where
  /-- A key has at most one builder, in one call of one thread. -/
  oneBuilder : (∀ t, ((owns (s.threads t)).map Prod.fst).Nodup) ∧
    ∀ t u k, k ∈ (owns (s.threads t)).map Prod.fst → k ∈ (owns (s.threads u)).map Prod.fst → t = u
  oneEntry : ((stored s.store.buckets).map (fun p => p.2.key)).Nodup
  /-- A lookup answers only what a build of the very key published. -/
  exactKey : ∀ outside k r store, ExecutableState.lookup sizes s.store outside k = (some r, store) →
    ∃ slot, (k, slot, r) ∈ s.built
  within : s.store.bytes ≤ budget
  sums : budget < usizeMax → s.store.bytes = ((stored s.store.buckets).map (fun p => p.2.bytes)).sum ∧
    s.store.entries = (stored s.store.buckets).length
  /-- Every entry has a live record of its own. -/
  live : ((stored s.store.buckets).map (fun p => (p.1, p.2.stamp))).Subperm s.store.lru
  /-- A build claimed before a clear is not retained. -/
  cleared : ∀ t k slot x ticket r fs, s.threads t = .busy k slot (.published x ticket r) :: fs →
    (s.store.clears - ticket.2) % 2 ^ 64 ≠ 0 →
    (ExecutableState.retain sizes budget s.store k x ticket r).buckets = s.store.buckets
  /-- A waiter's builder is still at work, or its result is in the slot; and there it stays. -/
  waiters : ∀ t k slot, Frame.waiting k slot ∈ s.threads t → (∃ u, (k, slot) ∈ owns (s.threads u)) ∨
    ∃ r, s.slots[slot]? = some (k, some r) ∧ ((k, slot, r) ∈ s.built ∨ r = (ops sizes budget).failed)
  stays : ∀ e s', State.step (ops sizes budget) s e = some s' →
    ∀ (i : Nat) k r, s.slots[i]? = some (k, some r) → s'.slots[i]? = some (k, some r)

/-- **The executable cache is safe under every interleaving of its sections.** -/
theorem executableCache_safe (sizes : ExecutableSizes D V) (budget : Nat) (es : List (CacheEvent V)) (s : Flight D V)
    (hrun : ExecutableState.Run sizes budget es = some s) : CacheSafe sizes budget s := by
  have h : Kept sizes budget s := Runs.run_inv (fun _ _ _ h hstep => h.step hstep) Kept.init hrun
  refine ⟨⟨h.good.wf.mine, ?_⟩, h.good.inv.stock.keys, ?_, h.good.inv.within, h.good.inv.exact, h.good.inv.covered,
    ?_, ?_, ?_⟩
  · intro t u k hk hk'
    obtain ⟨p, hp, rfl⟩ := List.mem_map.1 hk
    obtain ⟨q, hq, hqk⟩ := List.mem_map.1 hk'
    exact h.good.wf.apart t u p hp q hq hqk.symm
  · intro outside k r store hlookup
    exact h.traced k r (lookup_holds hlookup)
  · intro t k slot x ticket r fs ht hne
    have hmem : ticket ∈ tickets (s.threads t) := by
      rw [ht]
      exact List.mem_cons_self
    obtain ⟨hticket, hle⟩ := h.tickets t ticket hmem
    rcases retain_cases sizes budget s.store k x ticket r with ⟨traffic, heq⟩ | ⟨_, _, hgen, _⟩
    · rw [heq]
    · rw [h.good.inv.counted, hticket] at hgen
      omega
  · intro t k slot hmem
    obtain ⟨r, hr⟩ := h.good.wf.frames t _ hmem
    cases r with
    | none => exact .inl (h.good.wf.flown _ (h.good.wf.opened slot k hr))
    | some r => exact .inr ⟨r, hr, h.good.wf.filled slot k r hr⟩
  · intro e s' hstep
    exact (h.good.wf.effect hstep).slots

/-! ## Where counters wrap -/

/-- One bucket, one executable, and what it is said to weigh. -/
def plainSizes (weight : Nat) : ExecutableSizes Unit Unit := ⟨fun _ => (), fun _ => weight, 0, 8⟩

def semanticKey (bytes : List Byte) : ExactInputKey :=
  ⟨.semanticIr, bytes, ⟨.allowOpenProfile, true, .rejectAtCompile, 16⟩, none, 5, 1⟩

def buildOne (bytes : List Byte) : List (CacheEvent Unit) :=
  [.call 0 (semanticKey bytes) true (fun _ => true), .publish 0 (.ok ()), .settle 0]

/-- One executable built while another thread waits for it, then found; one more, and one for which the first has to go;
and one that is still being built when the cache is cleared. -/
def executableRun : List (CacheEvent Unit) :=
  [.call 0 (semanticKey []) true (fun _ => true), .call 1 (semanticKey []) true (fun _ => true), .publish 0 (.ok ()),
    .wake 1, .settle 0, .call 1 (semanticKey []) true (fun _ => true)] ++ buildOne [1] ++ buildOne [2] ++
    [.call 0 (semanticKey [3]) true (fun _ => true), .clear, .publish 0 (.ok ()), .settle 0]

theorem executableCache_safe_mixed : ∃ s, ExecutableState.Run (plainSizes 40) 450 executableRun = some s ∧
    s.store.traffic.evictions = 1 ∧ s.store.entries = 0 ∧ CacheSafe (plainSizes 40) 450 s := by
  obtain ⟨s, hs, hevictions, hentries⟩ : ∃ s, ExecutableState.Run (plainSizes 40) 450 executableRun = some s ∧
      s.store.traffic.evictions = 1 ∧ s.store.entries = 0 := ⟨_, rfl, rfl, rfl⟩
  exact ⟨s, hs, hevictions, hentries, executableCache_safe (plainSizes 40) 450 executableRun s hs⟩

theorem run_clears (sizes : ExecutableSizes D V) (budget n : Nat) (s : Flight D V) :
    Runs.run (State.step (ops sizes budget)) s (List.replicate (n + 1) .clear) =
      some { s with store := { s.store with
        buckets := ∅
        lru := []
        bytes := 0
        entries := 0
        generation := (s.store.generation + (n + 1)) % 2 ^ 64
        clears := s.store.clears + (n + 1) } } := by
  induction n generalizing s with
  | zero => rfl
  | succ n ih =>
    rw [List.replicate_succ, Runs.run]
    show Runs.run _ { s with store := ExecutableState.clear s.store } _ = _
    rw [ih]
    have hgeneration : ((s.store.generation + 1) % 2 ^ 64 + (n + 1)) % 2 ^ 64 =
      (s.store.generation + (n + 1 + 1)) % 2 ^ 64 := by
      omega
    have hclears : s.store.clears + 1 + (n + 1) = s.store.clears + (n + 1 + 1) := by omega
    simp only [ExecutableState.clear, hgeneration, hclears]

/-- A build is claimed, the cache is cleared `2 ^ 64` times, and the build is retained all the same; and at the largest
budget two charges saturate the sum. -/
theorem executableCache_wraps :
    (∃ s, ExecutableState.Run (plainSizes 40) 1000
      ([.call 0 (semanticKey []) true (fun _ => true), .publish 0 (.ok ())] ++
      List.replicate (2 ^ 64 - 1 + 1) .clear ++ [.settle 0]) = some s ∧ (stored s.store.buckets).length = 1) ∧
    (∃ s, ExecutableState.Run (plainSizes (2 ^ 63)) usizeMax (buildOne [] ++ buildOne [0]) = some s ∧
      s.store.bytes ≠ ((stored s.store.buckets).map (fun p => p.2.bytes)).sum) := by
  constructor
  · obtain ⟨s, hs, hstore, hthreads⟩ : ∃ s : Flight Unit Unit, Runs.run (State.step (ops (plainSizes 40) 1000))
        (init .empty) [.call 0 (semanticKey []) true (fun _ => true), .publish 0 (.ok ())] = some s ∧ s.store = .empty ∧
        s.threads 0 = [.busy (semanticKey []) 0 (.published true (0, 0) (.ok ()))] := ⟨_, rfl, rfl, rfl⟩
    unfold ExecutableState.Run
    rw [Runs.run_append, Runs.run_append, hs, Option.bind_some, run_clears, Option.bind_some, hstore,
      Runs.run, State.step]
    dsimp only
    rw [hthreads]
    have hlen : (stored (ExecutableState.retain (plainSizes 40) 1000
        ⟨∅, [], 0, 0, 0, (0 + (2 ^ 64 - 1 + 1)) % 2 ^ 64, 0 + (2 ^ 64 - 1 + 1), ⟨0, 0, 0, 0⟩⟩
          (semanticKey []) true (0, 0)
        (.ok ())).buckets).length = 1 := by decide +kernel
    exact ⟨_, rfl, hlen⟩
  · have hany : (ExecutableState.Run (plainSizes (2 ^ 63)) usizeMax (buildOne [] ++ buildOne [0])).any (fun s =>
        decide (s.store.bytes ≠ ((stored s.store.buckets).map (fun p => p.2.bytes)).sum)) = true := by
      decide +kernel
    obtain ⟨s, hs, h⟩ := (Option.any_eq_true _ _).1 hany
    exact ⟨s, hs, of_decide_eq_true h⟩

end MaskForge
