import MaskForge.Lib.Runs
import MaskForge.Structured.CanonicalArena
/-!
# SessionMemory — the byte ledgers of a canonical set and of the builder of its item

A ledger counts the bytes of the containers it owns by their real capacities.  A container grows by a plan that fits
the budget and is charged for what the allocator gave, which may be more than was asked for.  The set and the builder
each have a ledger and share one budget: what one holds is not left to the other.
-/
namespace MaskForge

structure SessionMemory where
  live : Nat
  peak : Nat
  allocationWork : Nat
  terminal : Bool
  deriving DecidableEq, Repr

/-- A container: what is in it, what there is room for, and the bytes of one item. -/
structure Container where
  len : Nat
  capacity : Nat
  itemSize : Nat
  deriving DecidableEq, Repr

structure GrowthRequest where
  len : Nat
  capacity : Nat
  additional : Nat
  itemSize : Nat

inductive GrowthPlanError where
  | shortfall (requestedBytes : Nat)
  | overflow

def Container.bytes (c : Container) : Nat := c.capacity * c.itemSize

def Container.request (c : Container) (additional : Nat) : GrowthRequest := ⟨c.len, c.capacity, additional, c.itemSize⟩

/-- The items to reserve behind those there are. -/
def planGrowth (req : GrowthRequest) (live cap : Nat) : Except GrowthPlanError Nat :=
  let requiredLen := req.len + req.additional
  if usizeMax < requiredLen then .error .overflow
  else if requiredLen ≤ req.capacity then .ok 0
  else
    let minGrowthBytes := (requiredLen - req.capacity) * req.itemSize
    if usizeMax < minGrowthBytes then .error .overflow
    else if usizeMax < live + minGrowthBytes then .error .overflow
    else if cap < live + minGrowthBytes then .error (.shortfall minGrowthBytes)
    else
      let geometricTarget := max (if usizeMax < req.capacity * 2 then requiredLen else req.capacity * 2) requiredLen
      let affordableTarget := satAdd req.capacity ((cap - live) / max req.itemSize 1)
      .ok (max (min geometricTarget affordableTarget) requiredLen - req.len)

namespace SessionMemory

def new : SessionMemory := ⟨0, 0, 0, false⟩

def charge (delta cap : Nat) (kind : CanonicalLimit) : Attempt SessionMemory RoomError Unit := fun m =>
  if m.terminal then (.error ⟨kind, m.live, cap⟩, m)
  else if delta = 0 then (.ok (), m)
  else if usizeMax < m.live + delta then (.error ⟨kind, usizeMax, cap⟩, { m with terminal := true })
  else if usizeMax < m.allocationWork + delta then (.error ⟨kind, usizeMax, cap⟩, { m with terminal := true })
  else
    let charged : SessionMemory := ⟨m.live + delta, max m.peak (m.live + delta), m.allocationWork + delta, m.terminal⟩
    if cap < m.live + delta then (.error ⟨kind, m.live + delta, cap⟩, charged) else (.ok (), charged)

def chargeAfterPrecheck (delta cap : Nat) (kind : CanonicalLimit) : Attempt SessionMemory RoomError Unit := fun m =>
  match charge delta cap kind m with
  | (.ok a, m') => (.ok a, m')
  | (.error e, m') => (.error e, { m' with terminal := true })

def release (delta : Nat) (m : SessionMemory) : SessionMemory :=
  if delta ≤ m.live then { m with live := m.live - delta } else { m with terminal := true }

/-- What the allocator gave is charged by the real capacities, also where that is more than was asked for. -/
def chargeGrowth (cap : Nat) (kind : CanonicalLimit) (newCapacity : Nat) :
    Attempt (SessionMemory × Container) RoomError Unit := fun s =>
  let realBytes := (newCapacity - s.2.capacity) * s.2.itemSize
  let grown := { s.2 with capacity := newCapacity }
  if usizeMax < realBytes then (.error ⟨kind, usizeMax, cap⟩, (s.1, grown))
  else ((chargeAfterPrecheck realBytes cap kind s.1).1, ((chargeAfterPrecheck realBytes cap kind s.1).2, grown))

/-- `grow_bounded`, with the container that `reserve` grows; `reserve` answers with the capacity after. -/
def growBounded (cap : Nat) (kind : CanonicalLimit) (additional : Nat) (reserve : Nat → Option Nat) :
    Attempt (SessionMemory × Container) RoomError Unit := fun s =>
  match planGrowth (s.2.request additional) s.1.live cap with
  | .error (.shortfall requestedBytes) => (.error ⟨kind, requestedBytes, cap⟩, s)
  | .error .overflow => (.error ⟨kind, usizeMax, cap⟩, s)
  | .ok reserveAdditional =>
    if reserveAdditional = 0 then (.ok (), s)
    else if usizeMax < reserveAdditional * s.2.itemSize then (.error ⟨kind, usizeMax, cap⟩, s)
    else match reserve reserveAdditional with
      | none => (.error ⟨.allocationBytes, reserveAdditional * s.2.itemSize, cap⟩, s)
      | some newCapacity => chargeGrowth cap kind newCapacity s

end SessionMemory

/-! ## What the allocator may answer -/

/-- No less than there was, at least what was asked for, and no more bytes than there are addresses. -/
structure Container.Granted (c : Container) (least newCapacity : Nat) : Prop where
  grows : c.capacity ≤ newCapacity
  least : least ≤ newCapacity
  fits : newCapacity * c.itemSize ≤ usizeMax

/-- The answer to what is planned; there may be none. -/
def SessionMemory.Answers (cap additional : Nat) (answer : Option Nat) (s : SessionMemory × Container) : Prop :=
  ∀ n newCapacity, answer = some newCapacity → planGrowth (s.2.request additional) s.1.live cap = .ok n →
    s.2.Granted (s.2.len + n) newCapacity

/-! ## Two ledgers and their budget -/

/-- Whose containers. -/
inductive Owner where
  | set
  | builder
  deriving DecidableEq, Repr

def Owner.other : Owner → Owner
  | .set => .builder
  | .builder => .set

/-- A ledger and the containers it owns. -/
structure Ledger where
  mem : SessionMemory
  owned : List Container

namespace Ledger

def new : Ledger := ⟨.new, []⟩

/-- The bytes of all that is owned. -/
def bytes (l : Ledger) : Nat := (l.owned.map Container.bytes).sum

end Ledger

structure SharedLedgers where
  set : Ledger
  builder : Ledger

namespace SharedLedgers

def new : SharedLedgers := ⟨.new, .new⟩

def ledger (s : SharedLedgers) : Owner → Ledger
  | .set => s.set
  | .builder => s.builder

def put (s : SharedLedgers) : Owner → Ledger → SharedLedgers
  | .set, l => { s with set := l }
  | .builder, l => { s with builder := l }

@[simp] theorem ledger_put (s : SharedLedgers) (o : Owner) (l : Ledger) : (s.put o l).ledger o = l := by cases o <;> rfl

/-- A change of one container and of its ledger. -/
def onContainer (o : Owner) (i : Nat) (x : Attempt (SessionMemory × Container) RoomError Unit) :
    Attempt SharedLedgers RoomError Unit := fun s =>
  match (s.ledger o).owned[i]? with
  | none => (.ok (), s)
  | some c =>
    let r := x ((s.ledger o).mem, c)
    (r.1, s.put o ⟨r.2.1, (s.ledger o).owned.set i r.2.2⟩)

/-- `remaining_budget`, and what is done within it. -/
def withRemaining (budget : Nat) (o : Owner) (f : Nat → Attempt SharedLedgers RoomError Unit) :
    Attempt SharedLedgers RoomError Unit := fun s =>
  if budget < (s.ledger o.other).mem.live then (.error ⟨.canonicalBytes, (s.ledger o.other).mem.live, budget⟩, s)
  else f (budget - (s.ledger o.other).mem.live) s

/-- An error that names the whole budget as its limit, and not what is left of it. -/
def naming (budget : Nat) (x : Attempt SharedLedgers RoomError Unit) : Attempt SharedLedgers RoomError Unit :=
  fun s => ((x s).1.mapError fun e => { e with limit := budget }, (x s).2)

/-- A container grows.  The set's arena names what the builder leaves as its limit, the builder the whole budget. -/
def grow (budget : Nat) (o : Owner) (i additional : Nat) (answer : Option Nat) : Attempt SharedLedgers RoomError Unit :=
  let grown := withRemaining budget o fun cap =>
    onContainer o i (SessionMemory.growBounded cap .canonicalBytes additional fun _ => answer)
  match o with
  | .set => grown
  | .builder => naming budget grown

/-- A stack of the set's grows, as the arena does; but its error names the whole budget. -/
def growStack (budget i additional : Nat) (answer : Option Nat) : Attempt SharedLedgers RoomError Unit :=
  naming budget (grow budget .set i additional answer)

/-- A container that grew by itself is charged for. -/
def rehash (budget : Nat) (o : Owner) (i newCapacity : Nat) : Attempt SharedLedgers RoomError Unit :=
  naming budget (withRemaining budget o fun cap =>
    onContainer o i (SessionMemory.chargeGrowth cap .canonicalBytes newCapacity))

/-- A container goes, and its ledger gives back its bytes. -/
def discard (o : Owner) (i : Nat) (s : SharedLedgers) : SharedLedgers :=
  match (s.ledger o).owned[i]? with
  | none => s
  | some c => s.put o ⟨(s.ledger o).mem.release c.bytes, (s.ledger o).owned.eraseIdx i⟩

end SharedLedgers

/-- What happens to the containers; `answer` is the capacity the allocator answers with. -/
inductive LedgerEvent where
  | allocate (o : Owner) (itemSize : Nat)
  | grow (o : Owner) (i additional : Nat) (answer : Option Nat)
  | growStack (i additional : Nat) (answer : Option Nat)
  | rehash (o : Owner) (i newCapacity : Nat)
  | resize (o : Owner) (i len : Nat)
  | discard (o : Owner) (i : Nat)
  /-- A new builder, with a new ledger. -/
  | startItem

namespace SharedLedgers

def step (budget : Nat) (s : SharedLedgers) : LedgerEvent → SharedLedgers
  | .allocate o itemSize => s.put o ⟨(s.ledger o).mem, (s.ledger o).owned ++ [⟨0, 0, itemSize⟩]⟩
  | .grow o i additional answer => (grow budget o i additional answer s).2
  | .growStack i additional answer => (growStack budget i additional answer s).2
  | .rehash o i newCapacity => (rehash budget o i newCapacity s).2
  | .resize o i len => (onContainer o i (fun t => (.ok (), (t.1, { t.2 with len := len }))) s).2
  | .discard o i => discard o i s
  | .startItem => s.put .builder .new

/-- The allocator answers as documented, and no container is written past its capacity. -/
def Allowed (budget : Nat) (s : SharedLedgers) : LedgerEvent → Prop
  | .grow o i additional answer => ∀ c, (s.ledger o).owned[i]? = some c →
      SessionMemory.Answers (budget - (s.ledger o.other).mem.live) additional answer ((s.ledger o).mem, c)
  | .growStack i additional answer => ∀ c, (s.ledger .set).owned[i]? = some c →
      SessionMemory.Answers (budget - (s.ledger .builder).mem.live) additional answer ((s.ledger .set).mem, c)
  | .rehash o i newCapacity => ∀ c, (s.ledger o).owned[i]? = some c → c.Granted 0 newCapacity
  | .resize o i len => ∀ c, (s.ledger o).owned[i]? = some c → len ≤ c.capacity
  | .allocate _ _ | .discard _ _ | .startItem => True

end SharedLedgers

/-! ## What a growth does -/

/-- What is affordable costs no more than what is left. -/
theorem affordable_le (capacity left size : Nat) : (satAdd capacity (left / max size 1) - capacity) * size ≤ left := by
  have hitems : satAdd capacity (left / max size 1) - capacity ≤ left / max size 1 :=
    Nat.sub_le_iff_le_add'.2 (Nat.min_le_left _ _)
  calc (satAdd capacity (left / max size 1) - capacity) * size
      ≤ left / max size 1 * max size 1 := Nat.mul_le_mul hitems (Nat.le_max_left _ _)
    _ ≤ left := Nat.div_mul_le_self _ _

/-- A plan is for what is needed at least, and its cost fits. -/
theorem planGrowth_fits {req : GrowthRequest} {live cap n : Nat} (h : planGrowth req live cap = .ok n) :
    n = 0 ∧ req.len + req.additional ≤ req.capacity ∨
      req.capacity < req.len + req.additional ∧ req.additional ≤ n ∧ live + (req.len + n - req.capacity) *
      req.itemSize ≤ cap := by
  unfold planGrowth at h
  simp only at h
  by_cases hlen : usizeMax < req.len + req.additional
  · rw [if_pos hlen] at h
    cases h
  rw [if_neg hlen] at h
  by_cases hroom : req.len + req.additional ≤ req.capacity
  · rw [if_pos hroom] at h
    cases h
    exact .inl ⟨rfl, hroom⟩
  rw [if_neg hroom] at h
  by_cases hbytes : usizeMax < (req.len + req.additional - req.capacity) * req.itemSize
  · rw [if_pos hbytes] at h
    cases h
  rw [if_neg hbytes] at h
  by_cases hlive : usizeMax < live + (req.len + req.additional - req.capacity) * req.itemSize
  · rw [if_pos hlive] at h
    cases h
  rw [if_neg hlive] at h
  by_cases hcap : cap < live + (req.len + req.additional - req.capacity) * req.itemSize
  · rw [if_pos hcap] at h
    cases h
  rw [if_neg hcap] at h
  have hn := Except.ok.inj h
  generalize hgeo : max (if usizeMax < req.capacity * 2 then req.len + req.additional else req.capacity * 2)
    (req.len + req.additional) = geo at hn
  have hafford := affordable_le req.capacity (cap - live) req.itemSize
  generalize satAdd req.capacity ((cap - live) / max req.itemSize 1) = afford at hn hafford
  have htarget : req.len + n = max (min geo afford) (req.len + req.additional) := by omega
  refine .inr ⟨Nat.lt_of_not_le hroom, by omega, ?_⟩
  rw [htarget]
  rcases Nat.le_total (min geo afford) (req.len + req.additional) with hle | hle
  · rw [Nat.max_eq_right hle]
    exact Nat.le_of_not_lt hcap
  · rw [Nat.max_eq_left hle]
    have hmul : (min geo afford - req.capacity) * req.itemSize ≤ (afford - req.capacity) * req.itemSize :=
      Nat.mul_le_mul_right _ (Nat.sub_le_sub_right (Nat.min_le_right _ _) _)
    omega

namespace SessionMemory

variable {m : SessionMemory} {delta cap : Nat} {kind : CanonicalLimit}

/-- Everything a charge can do: nothing, a charge within the budget, or the end of the ledger. -/
theorem chargeAfterPrecheck_cases (delta cap : Nat) (kind : CanonicalLimit) (m : SessionMemory) :
    m.terminal = false ∧ delta = 0 ∧ chargeAfterPrecheck delta cap kind m = (.ok (), m) ∨
      m.terminal = false ∧ m.live + delta ≤ cap ∧
        chargeAfterPrecheck delta cap kind m = (.ok (), ⟨m.live + delta, max m.peak (m.live + delta), m.allocationWork +
          delta, false⟩) ∨
      ∃ e live peak work, chargeAfterPrecheck delta cap kind m = (.error e, ⟨live, peak, work, true⟩) ∧
      (m.live ≤ m.peak → live ≤ peak) ∧
        (m.terminal = true ∨ usizeMax < m.live + delta ∨ usizeMax < m.allocationWork + delta ∨
          cap < m.live + delta) := by
  unfold chargeAfterPrecheck charge
  by_cases hterm : m.terminal = true
  · exact .inr (.inr ⟨_, m.live, m.peak, m.allocationWork, by rw [if_pos hterm], fun h => h, .inl hterm⟩)
  have hused : m.terminal = false := by simpa using hterm
  rw [if_neg hterm]
  by_cases hzero : delta = 0
  · exact .inl ⟨hused, hzero, by rw [if_pos hzero]⟩
  rw [if_neg hzero]
  by_cases hlive : usizeMax < m.live + delta
  · exact .inr (.inr ⟨_, m.live, m.peak, m.allocationWork, by rw [if_pos hlive], fun h => h, .inr (.inl hlive)⟩)
  rw [if_neg hlive]
  by_cases hwork : usizeMax < m.allocationWork + delta
  · exact .inr (.inr ⟨_, m.live, m.peak, m.allocationWork, by rw [if_pos hwork], fun h => h, .inr (.inr (.inl hwork))⟩)
  rw [if_neg hwork]
  by_cases hcap : cap < m.live + delta
  · simp only [if_pos hcap]
    exact .inr (.inr ⟨_, _, _, _, rfl, fun _ => Nat.le_max_right _ _, .inr (.inr (.inr hcap))⟩)
  · simp only [if_neg hcap, hused]
    exact .inr (.inl ⟨trivial, Nat.le_of_not_lt hcap, trivial⟩)

/-- A charge that leaves the ledger in use is counted in full and within the budget. -/
theorem chargeAfterPrecheck_counts {r : Except RoomError Unit} {m' : SessionMemory}
    (hr : chargeAfterPrecheck delta cap kind m = (r, m')) (h : m'.terminal = false) :
    m.terminal = false ∧ r = .ok () ∧ m'.live = m.live + delta ∧
      (m' = m ∨ m.live + delta ≤ cap ∧ m'.peak = max m.peak (m.live + delta)) := by
  rcases chargeAfterPrecheck_cases delta cap kind m with ⟨hused, hzero, hc⟩ | ⟨hused, hcap, hc⟩ |
    ⟨e, live, peak, work, hc, -, -⟩ <;>
    cases hc.symm.trans hr
  · exact ⟨hused, rfl, by rw [hzero, Nat.add_zero], .inl rfl⟩
  · exact ⟨hused, rfl, rfl, .inr ⟨hcap, rfl⟩⟩
  · cases h

theorem chargeAfterPrecheck_peak (h : m.live ≤ m.peak) :
    (chargeAfterPrecheck delta cap kind m).2.live ≤ (chargeAfterPrecheck delta cap kind m).2.peak := by
  rcases chargeAfterPrecheck_cases delta cap kind m with ⟨-, -, hc⟩ | ⟨-, -, hc⟩ |
    ⟨e, live, peak, work, hc, hpeak, -⟩ <;> rw [hc]
  · exact h
  · exact Nat.le_max_right _ _
  · exact hpeak h

theorem chargeAfterPrecheck_used (hused : m.terminal = false) (hcap : m.live + delta ≤ cap) (hmax : cap ≤ usizeMax)
    (hwork : m.allocationWork + cap ≤ usizeMax) : (chargeAfterPrecheck delta cap kind m).2.terminal = false := by
  rcases chargeAfterPrecheck_cases delta cap kind m with ⟨-, -, hc⟩ | ⟨-, -, hc⟩ |
    ⟨e, live, peak, work, -, -, hterm | hover⟩
  · rw [hc]
    exact hused
  · rw [hc]
  · rw [hused] at hterm
    cases hterm
  · omega

/-- While the ledger is in use, it moves with the container's bytes and stays within what it is left. -/
structure Counts (cap : Nat) (s t : SessionMemory × Container) : Prop where
  used : s.1.terminal = false
  moves : t.1.live + s.2.bytes = s.1.live + t.2.bytes
  within : t.1 = s.1 ∨ t.1.live ≤ cap ∧ t.1.peak = max s.1.peak t.1.live

/-- What was granted can be counted. -/
theorem chargeGrowth_eq {s : SessionMemory × Container} {newCapacity : Nat}
    (hfits : newCapacity * s.2.itemSize ≤ usizeMax) :
    chargeGrowth cap kind newCapacity s =
    ((chargeAfterPrecheck ((newCapacity - s.2.capacity) * s.2.itemSize) cap kind s.1).1,
      (chargeAfterPrecheck ((newCapacity - s.2.capacity) * s.2.itemSize) cap kind s.1).2,
      { s.2 with capacity := newCapacity }) :=
  if_neg (Nat.not_lt.2 ((Nat.mul_le_mul_right _ (Nat.sub_le _ _)).trans hfits))

theorem chargeGrowth_counts {s : SessionMemory × Container} {newCapacity : Nat} (hc : s.2.capacity ≤ newCapacity)
    (hfits : newCapacity * s.2.itemSize ≤ usizeMax) (h : (chargeGrowth cap kind newCapacity s).2.1.terminal = false) :
    Counts cap s (chargeGrowth cap kind newCapacity s).2 := by
  rw [chargeGrowth_eq hfits] at h ⊢
  obtain ⟨r, m', hr⟩ : ∃ r m', chargeAfterPrecheck ((newCapacity - s.2.capacity) * s.2.itemSize) cap kind s.1 =
    (r, m') := ⟨_, _, rfl⟩
  rw [hr] at h ⊢
  obtain ⟨hused, -, hlive, hwithin⟩ := chargeAfterPrecheck_counts hr h
  have hbytes : newCapacity * s.2.itemSize = s.2.capacity * s.2.itemSize + (newCapacity - s.2.capacity) *
    s.2.itemSize := by
    rw [← Nat.add_mul, Nat.add_sub_cancel' hc]
  refine ⟨hused, ?_, ?_⟩
  · show m'.live + s.2.capacity * s.2.itemSize = s.1.live + newCapacity * s.2.itemSize
    rw [hlive, hbytes]
    omega
  · rcases hwithin with hsame | ⟨hle, hmax⟩
    · exact .inl hsame
    · exact .inr ⟨hlive.trans_le hle, hmax.trans (congrArg _ hlive.symm)⟩

/-- What a change of a container and its ledger keeps. -/
structure Steady (cap : Nat) (x : Attempt (SessionMemory × Container) RoomError Unit) (s : SessionMemory × Container) :
    Prop where
  counts : (x s).2.1.terminal = false → Counts cap s (x s).2
  peak : s.1.live ≤ s.1.peak → (x s).2.1.live ≤ (x s).2.1.peak
  fits : s.2.len ≤ s.2.capacity → (x s).2.2.len ≤ (x s).2.2.capacity

theorem Steady.of_same {x : Attempt (SessionMemory × Container) RoomError Unit} {s : SessionMemory × Container}
    (h : (x s).2 = s) :
    Steady cap x s := by
  refine ⟨fun ht => ?_, fun hp => ?_, fun hf => ?_⟩ <;> rw [h] at *
  · exact ⟨ht, rfl, .inl rfl⟩
  · exact hp
  · exact hf

theorem chargeGrowth_steady {s : SessionMemory × Container} {least newCapacity : Nat}
    (h : s.2.Granted least newCapacity) :
    Steady cap (chargeGrowth cap kind newCapacity) s := by
  refine ⟨chargeGrowth_counts h.grows h.fits, fun hp => ?_, fun hf => ?_⟩ <;> rw [chargeGrowth_eq h.fits]
  · exact chargeAfterPrecheck_peak hp
  · exact hf.trans h.grows

/-- Everything a growth can do: nothing, or what the allocator gave is charged for. -/
theorem growBounded_cases (cap : Nat) (kind : CanonicalLimit) (additional : Nat) (answer : Option Nat)
    (s : SessionMemory × Container) :
    (∃ e, growBounded cap kind additional (fun _ => answer) s = (.error e, s)) ∨
      planGrowth (s.2.request additional) s.1.live cap = .ok 0 ∧ growBounded cap kind additional (fun _ => answer) s =
      (.ok (), s) ∨
      ∃ n newCapacity, planGrowth (s.2.request additional) s.1.live cap = .ok n ∧ n ≠ 0 ∧ answer = some newCapacity ∧
        growBounded cap kind additional (fun _ => answer) s = chargeGrowth cap kind newCapacity s := by
  unfold growBounded
  cases hplan : planGrowth (s.2.request additional) s.1.live cap with
  | error e => cases e <;> exact .inl ⟨_, rfl⟩
  | ok n =>
    by_cases hzero : n = 0
    · subst hzero
      exact .inr (.inl ⟨rfl, rfl⟩)
    by_cases hover : usizeMax < n * s.2.itemSize
    · simp only [if_neg hzero, if_pos hover]
      exact .inl ⟨_, rfl⟩
    simp only [if_neg hzero, if_neg hover]
    cases answer with
    | none => exact .inl ⟨_, rfl⟩
    | some newCapacity => exact .inr (.inr ⟨n, newCapacity, rfl, hzero, rfl, rfl⟩)

variable {additional : Nat} {answer : Option Nat} {s : SessionMemory × Container}

theorem growBounded_steady (h : Answers cap additional answer s) :
    Steady cap (growBounded cap kind additional fun _ => answer) s := by
  rcases growBounded_cases cap kind additional answer s with ⟨e, hr⟩ | ⟨-, hr⟩ | ⟨n, newCapacity, hplan, -, hanswer, hr⟩
  · exact .of_same (congrArg Prod.snd hr)
  · exact .of_same (congrArg Prod.snd hr)
  · have hgrown : Steady cap (chargeGrowth cap kind newCapacity) s :=
      chargeGrowth_steady (h n newCapacity hanswer hplan)
    exact ⟨hr ▸ hgrown.counts, hr ▸ hgrown.peak, hr ▸ hgrown.fits⟩

variable {r : Except RoomError Unit} {t : SessionMemory × Container}

/-- A growth that succeeds makes room. -/
theorem growBounded_room (h : Answers cap additional answer s) (hlen : s.2.len ≤ s.2.capacity)
    (hr : growBounded cap kind additional (fun _ => answer) s = (.ok (), t)) :
    t.2.len = s.2.len ∧ s.2.len + additional ≤ t.2.capacity := by
  rcases growBounded_cases cap kind additional answer s with ⟨e, hg⟩ | ⟨hplan, hg⟩ |
    ⟨n, newCapacity, hplan, hn, hanswer, hg⟩
  · rw [hg] at hr
    cases hr
  · rw [hg] at hr
    cases hr
    refine ⟨rfl, ?_⟩
    rcases planGrowth_fits hplan with ⟨-, hroom⟩ | ⟨hlt, hzero, -⟩
    · exact hroom
    · have hlt' : s.2.capacity < s.2.len + additional := hlt
      have hzero' : additional ≤ 0 := hzero
      omega
  · have hgranted := h n newCapacity hanswer hplan
    rw [hg, chargeGrowth_eq hgranted.fits] at hr
    cases congrArg Prod.snd hr
    refine ⟨rfl, ?_⟩
    rcases planGrowth_fits hplan with ⟨hzero, -⟩ | ⟨-, hle, -⟩
    · exact absurd hzero hn
    · exact (Nat.add_le_add_left hle _).trans hgranted.least

/-- A growth that fails and leaves the ledger in use has done nothing. -/
theorem growBounded_fails {e : RoomError} (h : Answers cap additional answer s)
    (hr : growBounded cap kind additional (fun _ => answer) s = (.error e, t)) (hused : t.1.terminal = false) :
    t = s := by
  rcases growBounded_cases cap kind additional answer s with ⟨e, hg⟩ | ⟨-, hg⟩ | ⟨n, newCapacity, hplan, -, hanswer, hg⟩
  · rw [hg] at hr
    cases hr
    rfl
  · rw [hg] at hr
    cases hr
  -- what was charged in full did not fail
  · rw [hg, chargeGrowth_eq (h n newCapacity hanswer hplan).fits] at hr
    have herror : (chargeAfterPrecheck ((newCapacity - s.2.capacity) * s.2.itemSize) cap kind s.1).1 = .error _ :=
      congrArg Prod.fst hr
    cases congrArg Prod.snd hr
    cases (chargeAfterPrecheck_counts (Prod.ext herror rfl) hused).2.1

/-- An allocator that gives what it is asked for never puts a ledger out of use. -/
theorem growBounded_used (h : Answers cap additional answer s) (hused : s.1.terminal = false) (hmax : cap ≤ usizeMax)
    (hwork : s.1.allocationWork + cap ≤ usizeMax)
    (hexact : ∀ n newCapacity, planGrowth (s.2.request additional) s.1.live cap = .ok n → answer = some newCapacity →
      newCapacity = max s.2.capacity (s.2.len + n))
    (hr : growBounded cap kind additional (fun _ => answer) s = (r, t)) : t.1.terminal = false := by
  rcases growBounded_cases cap kind additional answer s with ⟨e, hg⟩ | ⟨-, hg⟩ |
    ⟨n, newCapacity, hplan, hn, hanswer, hg⟩
  · rw [hg] at hr
    cases hr
    exact hused
  · rw [hg] at hr
    cases hr
    exact hused
  · rw [hg, chargeGrowth_eq (h n newCapacity hanswer hplan).fits] at hr
    cases congrArg Prod.snd hr
    refine chargeAfterPrecheck_used hused ?_ hmax hwork
    rcases planGrowth_fits hplan with ⟨hzero, -⟩ | ⟨hlt, hle, hcost⟩
    · exact absurd hzero hn
    · have hlt' : s.2.capacity < s.2.len + additional := hlt
      have hle' : additional ≤ n := hle
      rw [hexact n newCapacity hplan hanswer, Nat.max_eq_right (by omega)]
      exact hcost

end SessionMemory

/-! ## What every run keeps -/

namespace Ledger

theorem sum_set : ∀ {owned : List Container} {i : Nat} {c : Container} (c' : Container), owned[i]? = some c →
    ((owned.set i c').map Container.bytes).sum + c.bytes = (owned.map Container.bytes).sum + c'.bytes
  | d :: owned, 0, c, c', h => by
    cases h
    simp only [List.set_cons_zero, List.map_cons, List.sum_cons]
    omega
  | d :: owned, i + 1, c, c', h => by
    have := sum_set c' (List.getElem?_cons_succ ▸ h)
    simp only [List.set_cons_succ, List.map_cons, List.sum_cons]
    omega

theorem sum_erase : ∀ {owned : List Container} {i : Nat} {c : Container}, owned[i]? = some c →
    ((owned.eraseIdx i).map Container.bytes).sum + c.bytes = (owned.map Container.bytes).sum
  | d :: owned, 0, c, h => by
    cases h
    simp only [List.eraseIdx_cons_zero, List.map_cons, List.sum_cons]
    omega
  | d :: owned, i + 1, c, h => by
    have := sum_erase (List.getElem?_cons_succ ▸ h)
    simp only [List.eraseIdx_cons_succ, List.map_cons, List.sum_cons]
    omega

/-- A ledger in use counts exactly what is owned, and has never counted more than the budget. -/
structure Sound (budget : Nat) (l : Ledger) : Prop where
  exact : l.mem.terminal = false → l.mem.live = l.bytes
  peak : l.mem.live ≤ l.mem.peak
  within : l.mem.terminal = false → l.mem.peak ≤ budget
  fits : ∀ c ∈ l.owned, c.len ≤ c.capacity

theorem sound_new (budget : Nat) : Sound budget new := by
  refine ⟨fun _ => rfl, Nat.le_refl _, fun _ => Nat.zero_le _, fun c hc => ?_⟩
  cases hc

end Ledger

namespace SharedLedgers

structure Sound (budget : Nat) (s : SharedLedgers) : Prop where
  sound : ∀ o, (s.ledger o).Sound budget
  shared : (s.ledger .set).mem.terminal = false → (s.ledger .builder).mem.terminal = false →
    (s.ledger .set).mem.live + (s.ledger .builder).mem.live ≤ budget

variable {budget : Nat} {s : SharedLedgers} {o : Owner} {l : Ledger}

theorem sound_new (budget : Nat) : Sound budget new :=
  ⟨fun o => by cases o <;> exact Ledger.sound_new budget, fun _ _ => Nat.zero_le _⟩

theorem Sound.shared_of (h : Sound budget s) (ho : (s.ledger o).mem.terminal = false)
    (hother : (s.ledger o.other).mem.terminal = false) :
    (s.ledger o).mem.live + (s.ledger o.other).mem.live ≤ budget := by
  cases o with
  | set => exact h.shared ho hother
  | builder =>
    rw [Nat.add_comm]
    exact h.shared hother ho

theorem Sound.put (h : Sound budget s) (hl : l.Sound budget)
    (hshared : l.mem.terminal = false → (s.ledger o.other).mem.terminal = false →
      l.mem.live + (s.ledger o.other).mem.live ≤ budget) :
    Sound budget (s.put o l) := by
  cases o with
  | set =>
    refine ⟨fun o => ?_, hshared⟩
    cases o with
    | set => exact hl
    | builder => exact h.sound .builder
  | builder =>
    refine ⟨fun o => ?_, fun hset hbuilder => ?_⟩
    · cases o with
      | set => exact h.sound .set
      | builder => exact hl
    · rw [Nat.add_comm]
      exact hshared hbuilder hset

theorem Sound.live_le (h : Sound budget s) (ho : (s.ledger o).mem.terminal = false) : (s.ledger o).mem.live ≤ budget :=
  (h.sound o).peak.trans ((h.sound o).within ho)

theorem onContainer_sound {i : Nat} {x : Attempt (SessionMemory × Container) RoomError Unit} (h : Sound budget s)
    (hx : ∀ c, (s.ledger o).owned[i]? = some c →
      SessionMemory.Steady (budget - (s.ledger o.other).mem.live) x ((s.ledger o).mem, c)) :
    Sound budget (onContainer o i x s).2 := by
  unfold onContainer
  cases hc : (s.ledger o).owned[i]? with
  | none => exact h
  | some c =>
    have hsteady := hx c hc
    refine h.put ⟨fun ht => ?_, hsteady.peak (h.sound o).peak, fun ht => ?_, fun d hd => ?_⟩ fun ht hother => ?_
    · have hcounts := hsteady.counts ht
      have hsum := Ledger.sum_set (x ((s.ledger o).mem, c)).2.2 hc
      have hlive : (s.ledger o).mem.live = ((s.ledger o).owned.map Container.bytes).sum :=
        (h.sound o).exact hcounts.used
      have hmoves := hcounts.moves
      show _ = (List.map _ _).sum
      simp only at hmoves ⊢
      omega
    · have hcounts := hsteady.counts ht
      have hpeak : (s.ledger o).mem.peak ≤ budget := (h.sound o).within hcounts.used
      rcases hcounts.within with hsame | ⟨hle, hmax⟩
      · show (x ((s.ledger o).mem, c)).2.1.peak ≤ budget
        rw [hsame]
        exact hpeak
      · show (x ((s.ledger o).mem, c)).2.1.peak ≤ budget
        rw [hmax]
        exact max_le hpeak (hle.trans (Nat.sub_le _ _))
    · rcases List.mem_or_eq_of_mem_set hd with hd | rfl
      · exact (h.sound o).fits d hd
      · exact hsteady.fits ((h.sound o).fits c (List.mem_of_getElem? hc))
    · have hcounts := hsteady.counts ht
      rcases hcounts.within with hsame | ⟨hle, -⟩
      · show (x ((s.ledger o).mem, c)).2.1.live + _ ≤ budget
        rw [hsame]
        exact h.shared_of hcounts.used hother
      · show (x ((s.ledger o).mem, c)).2.1.live + _ ≤ budget
        have hleft := h.live_le hother
        omega

theorem withRemaining_sound {f : Nat → Attempt SharedLedgers RoomError Unit} (h : Sound budget s)
    (hf : Sound budget (f (budget - (s.ledger o.other).mem.live) s).2) :
    Sound budget (withRemaining budget o f s).2 := by
  unfold withRemaining
  split
  · exact h
  · exact hf

theorem grow_sound {i additional : Nat} {answer : Option Nat} (h : Sound budget s)
    (hallowed : Allowed budget s (.grow o i additional answer)) :
    Sound budget (grow budget o i additional answer s).2 := by
  have hgrown : Sound budget (withRemaining budget o (fun cap =>
      onContainer o i (SessionMemory.growBounded cap .canonicalBytes additional fun _ => answer)) s).2 :=
    withRemaining_sound h (onContainer_sound h fun c hc => SessionMemory.growBounded_steady (hallowed c hc))
  cases o with
  | set => exact hgrown
  | builder => exact hgrown

theorem discard_sound {i : Nat} (h : Sound budget s) : Sound budget (discard o i s) := by
  unfold discard
  cases hc : (s.ledger o).owned[i]? with
  | none => exact h
  | some c =>
    have hsum := Ledger.sum_erase hc
    have hfits : ∀ d ∈ (s.ledger o).owned.eraseIdx i, d.len ≤ d.capacity := fun d hd =>
      (h.sound o).fits d (List.mem_of_mem_eraseIdx hd)
    show Sound budget (s.put o ⟨(s.ledger o).mem.release c.bytes, (s.ledger o).owned.eraseIdx i⟩)
    by_cases hle : c.bytes ≤ (s.ledger o).mem.live
    · have hrelease : (s.ledger o).mem.release c.bytes = { (s.ledger o).mem with
        live := (s.ledger o).mem.live - c.bytes } := if_pos hle
      rw [hrelease]
      refine h.put ⟨fun ht => ?_, (Nat.sub_le _ _).trans (h.sound o).peak, (h.sound o).within, hfits⟩ fun ht hother =>
        (Nat.add_le_add_right (Nat.sub_le _ _) _).trans (h.shared_of ht hother)
      have hlive : (s.ledger o).mem.live = ((s.ledger o).owned.map Container.bytes).sum := (h.sound o).exact ht
      show (s.ledger o).mem.live - c.bytes = (((s.ledger o).owned.eraseIdx i).map Container.bytes).sum
      omega
    · have hrelease : (s.ledger o).mem.release c.bytes = { (s.ledger o).mem with terminal := true } := if_neg hle
      rw [hrelease]
      refine h.put ⟨fun ht => ?_, (h.sound o).peak, fun ht => ?_, hfits⟩ fun ht => ?_ <;> cases ht

/-- **What one event keeps.** -/
theorem step_sound {e : LedgerEvent} (h : Sound budget s) (hallowed : Allowed budget s e) :
    Sound budget (step budget s e) := by
  cases e with
  | allocate o itemSize =>
    refine h.put ⟨fun ht => ?_, (h.sound o).peak, (h.sound o).within, fun c hc => ?_⟩ h.shared_of
    · refine ((h.sound o).exact ht).trans ?_
      simp [Ledger.bytes, Container.bytes]
    · rcases List.mem_append.1 hc with hc | hc
      · exact (h.sound o).fits c hc
      · cases List.mem_singleton.1 hc
        exact Nat.le_refl 0
  | grow o i additional answer => exact grow_sound h hallowed
  | growStack i additional answer => exact grow_sound (o := .set) h hallowed
  | rehash o i newCapacity =>
    exact withRemaining_sound h (onContainer_sound h fun c hc => SessionMemory.chargeGrowth_steady (hallowed c hc))
  | resize o i len =>
    exact onContainer_sound h fun c hc => ⟨fun ht => ⟨ht, rfl, .inl rfl⟩, fun hp => hp, fun _ => hallowed c hc⟩
  | discard o i => exact discard_sound h
  | startItem =>
    show Sound budget (s.put .builder .new)
    refine h.put (Ledger.sound_new budget) fun _ hset => ?_
    rw [show (Ledger.new.mem.live : Nat) = 0 from rfl, Nat.zero_add]
    exact h.live_le hset

/-- A run of events. -/
def ran (budget : Nat) (s : SharedLedgers) (e : LedgerEvent) : Option SharedLedgers := some (step budget s e)

theorem run_sound {events : List LedgerEvent} {t : SharedLedgers}
    (hallowed : Runs.Each (ran budget) (Allowed budget) s events)
    (h : Sound budget s) (hrun : Runs.run (ran budget) s events = some t) : Sound budget t :=
  Runs.run_inv_of_each (fun _ _ _ hs hok hstep => by cases hstep; exact step_sound hs hok) h hallowed hrun

/-- What both hold together, while both are in use. -/
theorem Sound.bytes_le (h : Sound budget s) (hset : (s.ledger .set).mem.terminal = false)
    (hbuilder : (s.ledger .builder).mem.terminal = false) :
    (s.ledger .set).bytes + (s.ledger .builder).bytes ≤ budget := by
  rw [← (h.sound .set).exact hset, ← (h.sound .builder).exact hbuilder]
  exact h.shared hset hbuilder

/-- **Two ledgers on one budget.**  Whatever containers come, grow, shrink and go, and however much the allocator gives
beyond what it is asked for: a ledger in use counts exactly the bytes of what is owned, has never counted more than the
budget, and while both are in use the containers of both together are within it. -/
theorem shared_budget_exact {events : List LedgerEvent} (hallowed : Runs.Each (ran budget) (Allowed budget) new events)
    (hrun : Runs.run (ran budget) new events = some s) :
    (∀ o, (s.ledger o).mem.terminal = false →
      (s.ledger o).mem.live = (s.ledger o).bytes ∧ (s.ledger o).mem.live ≤ (s.ledger o).mem.peak ∧
      (s.ledger o).mem.peak ≤ budget) ∧
    ((s.ledger .set).mem.terminal = false → (s.ledger .builder).mem.terminal = false →
      (s.ledger .set).bytes + (s.ledger .builder).bytes ≤ budget) := by
  have h : Sound budget s := run_sound hallowed (sound_new budget) hrun
  exact ⟨fun o ho => ⟨(h.sound o).exact ho, (h.sound o).peak, (h.sound o).within ho⟩, h.bytes_le⟩

/-- A set asked to hold three items of four bytes, and given room for five; and a builder that holds two of eight. -/
def grownBoth : SharedLedgers := ⟨⟨⟨20, 20, 20, false⟩, [⟨0, 5, 4⟩]⟩, ⟨⟨16, 16, 16, false⟩, [⟨2, 2, 8⟩]⟩⟩

def grownEvents : List LedgerEvent :=
  [.allocate .set 4, .grow .set 0 3 (some 5), .startItem, .allocate .builder 8, .grow .builder 0 2 (some 2),
    .resize .builder 0 2]

theorem grownBoth_reached : Runs.Each (ran 100) (Allowed 100) new grownEvents ∧
    Runs.run (ran 100) new grownEvents = some grownBoth := by
  refine ⟨⟨trivial, fun s hs => ?_⟩, rfl⟩
  cases hs
  refine ⟨fun c hc n newCapacity hanswer hplan => ?_, fun s hs => ?_⟩
  · cases hc
    cases hanswer
    cases hplan
    exact ⟨by decide, by decide, by decide⟩
  cases hs
  refine ⟨trivial, fun s hs => ?_⟩
  cases hs
  refine ⟨trivial, fun s hs => ?_⟩
  cases hs
  refine ⟨fun c hc n newCapacity hanswer hplan => ?_, fun s hs => ?_⟩
  · cases hc
    cases hanswer
    cases hplan
    exact ⟨by decide, by decide, by decide⟩
  cases hs
  refine ⟨fun c hc => ?_, fun s hs => trivial⟩
  cases hc
  exact Nat.le_refl _

/-- Both ledgers are in use and count what is owned, and 36 bytes of the 100 are taken. -/
theorem shared_budget_exact_grown :
    (∀ o, (grownBoth.ledger o).mem.terminal = false ∧ (grownBoth.ledger o).mem.live = (grownBoth.ledger o).bytes ∧
      (grownBoth.ledger o).mem.live ≤ (grownBoth.ledger o).mem.peak ∧ (grownBoth.ledger o).mem.peak ≤ 100) ∧
    (grownBoth.ledger .set).bytes + (grownBoth.ledger .builder).bytes ≤ 100 := by
  obtain ⟨hledgers, hboth⟩ := shared_budget_exact grownBoth_reached.1 grownBoth_reached.2
  refine ⟨fun o => ?_, hboth rfl rfl⟩
  have hused : (grownBoth.ledger o).mem.terminal = false := by cases o <;> rfl
  exact ⟨hused, hledgers o hused⟩

theorem mapError_ok {α : Type} {f : RoomError → RoomError} {r : Except RoomError α} {a : α}
    (h : r.mapError f = .ok a) : r = .ok a := by
  cases r with
  | ok b => exact h
  | error e => cases h

theorem mapError_error {α : Type} {f : RoomError → RoomError} {r : Except RoomError α} {e : RoomError}
    (h : r.mapError f = .error e) : ∃ e', r = .error e' := by
  cases r with
  | ok b => cases h
  | error e' => exact ⟨e', rfl⟩

/-- A growth with something left of the budget is one of the container and its ledger, up to what its error names. -/
theorem grow_at {i additional : Nat} {answer : Option Nat} {c : Container} {r : Except RoomError Unit}
    {t : SharedLedgers} (hc : (s.ledger o).owned[i]? = some c) (hleft : (s.ledger o.other).mem.live ≤ budget)
    (h : grow budget o i additional answer s = (r, t)) :
    ∃ r' u, SessionMemory.growBounded (budget - (s.ledger o.other).mem.live) .canonicalBytes additional
    (fun _ => answer)
      ((s.ledger o).mem, c) = (r', u) ∧ (r = .ok () → r' = .ok ()) ∧ (∀ e, r = .error e → ∃ e', r' = .error e') ∧
      t = s.put o ⟨u.1, (s.ledger o).owned.set i u.2⟩ := by
  cases o with
  | set =>
    rw [grow, withRemaining, if_neg (Nat.not_lt.2 hleft), onContainer, hc] at h
    cases h
    exact ⟨_, _, rfl, fun h => h, fun e he => ⟨e, he⟩, rfl⟩
  | builder =>
    rw [grow, naming, withRemaining, if_neg (Nat.not_lt.2 hleft), onContainer, hc] at h
    cases h
    exact ⟨_, _, rfl, mapError_ok, fun e he => mapError_error he, rfl⟩

/-- **A growth is all or nothing.**  After any run: a growth that succeeds makes room for all it was asked for, one
that fails and leaves its ledger in use changes nothing, and where the allocator gives just what it is asked for the
ledger stays in use. -/
theorem growth_all_or_nothing {events : List LedgerEvent}
    (hallowed : Runs.Each (ran budget) (Allowed budget) new events)
    (hrun : Runs.run (ran budget) new events = some s) {i additional : Nat} {answer : Option Nat} {c : Container}
    {r : Except RoomError Unit} {t : SharedLedgers} (hc : (s.ledger o).owned[i]? = some c)
    (hanswer : Allowed budget s (.grow o i additional answer)) (hgrow : grow budget o i additional answer s = (r, t)) :
    (r = .ok () → ∃ c', (t.ledger o).owned[i]? = some c' ∧ c'.len = c.len ∧ c.len + additional ≤ c'.capacity) ∧
    (∀ e, r = .error e → (t.ledger o).mem.terminal = false → t = s) ∧
    ((s.ledger o).mem.terminal = false → (s.ledger o).mem.allocationWork + budget ≤ usizeMax →
      (∀ n newCapacity,
        planGrowth (c.request additional) (s.ledger o).mem.live (budget - (s.ledger o.other).mem.live) = .ok n →
        answer = some newCapacity → newCapacity = max c.capacity (c.len + n)) →
      (t.ledger o).mem.terminal = false) := by
  have h : Sound budget s := run_sound hallowed (sound_new budget) hrun
  obtain ⟨hi, hget⟩ := List.getElem?_eq_some_iff.1 hc
  by_cases hleft : budget < (s.ledger o.other).mem.live
  · have hnone : (.error ⟨.canonicalBytes, (s.ledger o.other).mem.live, budget⟩, s) = (r, t) := by
      rw [← hgrow]
      cases o <;> simp only [grow, naming, withRemaining, if_pos hleft, Except.mapError]
    cases hnone
    refine ⟨fun hok => ?_, fun _ _ _ => rfl, fun hused _ _ => hused⟩
    cases hok
  obtain ⟨r', u, hu, hsucceeds, hfails, rfl⟩ := grow_at hc (Nat.le_of_not_lt hleft) hgrow
  have hlen : c.len ≤ c.capacity := (h.sound o).fits c (List.mem_of_getElem? hc)
  rw [ledger_put]
  refine ⟨fun hok => ?_, fun e herror hused => ?_, fun hused hwork hexact => ?_⟩
  · obtain rfl := hsucceeds hok
    exact ⟨u.2, List.getElem?_set_self hi, SessionMemory.growBounded_room (hanswer c hc) hlen hu⟩
  · obtain ⟨e', rfl⟩ := hfails e herror
    rw [SessionMemory.growBounded_fails (hanswer c hc) hu hused]
    show s.put o ⟨(s.ledger o).mem, (s.ledger o).owned.set i c⟩ = s
    rw [← hget, List.set_getElem_self]
    cases o <;> rfl
  · have hcap : budget - (s.ledger o.other).mem.live ≤ budget := Nat.sub_le _ _
    exact SessionMemory.growBounded_used (hanswer c hc) hused (hcap.trans ((Nat.le_add_left _ _).trans hwork))
      ((Nat.add_le_add_left hcap _).trans hwork) hexact hu

/-- The builder is given room for one item more and its ledger stays in use; room for nine more is refused. -/
theorem growth_all_or_nothing_grown :
    (∃ t, grow 100 .builder 0 1 (some 4) grownBoth = (.ok (), t) ∧ (t.ledger .builder).mem.terminal = false ∧
      ∃ c, (t.ledger .builder).owned[0]? = some c ∧ c.len = 2 ∧ 2 + 1 ≤ c.capacity) ∧
    ∃ e, grow 100 .builder 0 9 none grownBoth = (.error e, grownBoth) ∧ e.limit = 100 := by
  refine ⟨?_, ?_⟩
  · have hanswer : Allowed 100 grownBoth (.grow .builder 0 1 (some 4)) := by
      intro c hc n newCapacity hanswer hplan
      cases hc
      cases hanswer
      cases hplan
      exact ⟨by decide, by decide, by decide⟩
    obtain ⟨t, ht⟩ : ∃ t, grow 100 .builder 0 1 (some 4) grownBoth = (.ok (), t) := ⟨_, rfl⟩
    obtain ⟨hroom, -, hstays⟩ :=
      growth_all_or_nothing (c := ⟨2, 2, 8⟩) grownBoth_reached.1 grownBoth_reached.2 rfl hanswer ht
    refine ⟨t, ht, hstays rfl (by decide) fun n newCapacity hplan hcapacity => ?_, hroom rfl⟩
    cases hplan
    cases hcapacity
    rfl
  · have hanswer : Allowed 100 grownBoth (.grow .builder 0 9 none) := fun c _ n newCapacity h => by cases h
    obtain ⟨e, t, ht, hlimit, hused⟩ : ∃ e t, grow 100 .builder 0 9 none grownBoth = (.error e, t) ∧ e.limit = 100 ∧
      (t.ledger .builder).mem.terminal = false := ⟨_, _, rfl, rfl, rfl⟩
    obtain ⟨-, hnothing, -⟩ :=
      growth_all_or_nothing (c := ⟨2, 2, 8⟩) grownBoth_reached.1 grownBoth_reached.2 rfl hanswer ht
    exact ⟨e, by rw [ht, hnothing e rfl hused], hlimit⟩

end SharedLedgers
end MaskForge
