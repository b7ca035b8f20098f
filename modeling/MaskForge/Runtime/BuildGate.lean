import MaskForge.Primitives
import MaskForge.Lib.Runs
/-!
# BuildGate — permits for automaton builds, taken while permits are held

A build takes a permit and its estimate of bytes, and gives both back when its guard drops: on return, on an error or
on a panic.  Builders call builders, and a builder keeps its permit while its callee waits for one of its own.  Each
worker runs one of the production builders; the guards it holds are a stack, innermost first.

Time is not part of the model: a request that cannot be granted may time out at any moment.
-/
namespace MaskForge

/-! ## Builders -/

/-- An acquisition of some bytes, and the acquisitions made before its guard drops. -/
inductive Acquire where
  | mk (est : Nat) (inner : List Acquire)

def Acquire.est : Acquire → Nat
  | .mk est _ => est

def Acquire.inner : Acquire → List Acquire
  | .mk _ inner => inner

/-- `GRAPH_BUILD_BUDGET`, `64 << 20`; products and shuffles take as much. -/
def graphBuildBudget : Nat := 64 * 2 ^ 20

/-- The builders that take a permit.  Estimates that depend on the data are arguments. -/
inductive Builder where
  | fromByteStates (est : Nat)
  | fromGraph (est : Nat)
  | fromRegex (est : Nat)
  | product
  | shuffle
  | stringSet (est : Nat)
  | byteStringSet (est : Nat)
  | concatenate (est : Nat)
  | union (est : Nat)
  | repeat (est : Nat)
  | suffixEngine (retained : Nat) (graph engine : Nat → Nat)

namespace Builder

/-- A builder that makes no other acquisition. -/
def leaf (est : Nat) : Acquire := .mk est []

/-- A builder that ends in `AutomatonGraph::from_byte_states`, its own permit still held. -/
def overGraph (est : Nat) : Acquire := .mk graphBuildBudget [leaf est]

/-- `suffix_parts_engine`: every graph it builds and every engine it makes of one, in order. -/
def suffixPartsEngine (graph engine : Nat → Nat) : List Acquire :=
  [overGraph (graph 0), leaf (engine 0), overGraph (graph 1), leaf (engine 1), leaf (graph 2), leaf (engine 2),
    overGraph (graph 3), leaf (engine 3), overGraph (graph 4), leaf (engine 4), leaf (graph 5), leaf (engine 5),
    overGraph (graph 6), leaf (engine 6)]

def acquire : Builder → Acquire
  | .fromByteStates est | .fromGraph est | .fromRegex est => leaf est
  | .product | .shuffle => leaf graphBuildBudget
  | .stringSet est | .byteStringSet est | .concatenate est | .union est | .repeat est => overGraph est
  | .suffixEngine retained graph engine => .mk retained (suffixPartsEngine graph engine)

end Builder

/-! ## The gate -/

/-- `GateInner`. -/
structure Gate where
  permits : Nat
  bytesAvail : Nat
  inUse : Nat
  activeBytes : Nat
  peak : Nat
  peakBytes : Nat
  rejected : Nat

namespace Gate

def new (maxConcurrent byteBudget : Nat) : Gate := ⟨max maxConcurrent 1, max byteBudget 1, 0, 0, 0, 0, 0⟩

def fits (g : Gate) (est : Nat) : Bool := !(g.permits == 0 || decide (g.bytesAvail < est))

def letIn (g : Gate) (est : Nat) : Gate where
  permits := g.permits - 1
  bytesAvail := g.bytesAvail - est
  inUse := g.inUse + 1
  activeBytes := g.activeBytes + est
  peak := max g.peak (g.inUse + 1)
  peakBytes := max g.peakBytes (g.activeBytes + est)
  rejected := g.rejected

/-- `PermitGuard::drop`. -/
def release (g : Gate) (charge : Nat) : Gate :=
  { g with
    permits := g.permits + 1
    bytesAvail := g.bytesAvail + charge
    inUse := g.inUse - 1
    activeBytes := g.activeBytes - charge }

def reject (g : Gate) : Gate := { g with rejected := g.rejected + 1 }

end Gate

/-- A guard, and the acquisitions its builder has yet to make. -/
structure Guard where
  charge : Nat
  rest : List Acquire

/-- A worker waits in `acquire` or runs. -/
structure Worker where
  held : List Guard
  waiting : Option Acquire

namespace Worker

def idle : Worker := ⟨[], none⟩

/-- An error or a panic leaves every builder of the worker: no more acquisitions, only guards to drop. -/
def abort (w : Worker) : Worker := ⟨w.held.map (fun h => { h with rest := [] }), none⟩

inductive Action where
  | start (b : Builder)
  /-- `try_acquire`, which never waits. -/
  | tryStart (b : Builder)
  | nest
  | grant
  | timeout
  | fail
  | release

/-- The first test of `acquire`; a request over the whole budget never waits. -/
def request (budget : Nat) (g : Gate) (w : Worker) (a : Acquire) : Gate × Worker :=
  if a.est > budget then (g.reject, w.abort) else (g, { w with waiting := some a })

def hold (w : Worker) (a : Acquire) : Worker := ⟨⟨a.est, a.inner⟩ :: w.held, none⟩

def step (budget : Nat) (g : Gate) (w : Worker) : Action → Option (Gate × Worker)
  | .start b => match w.held, w.waiting with
    | [], none => some (request budget g w b.acquire)
    | _, _ => none
  | .tryStart b => match w.held, w.waiting with
    | [], none =>
      if b.acquire.est > budget || !g.fits b.acquire.est then some (g.reject, w)
      else some (g.letIn b.acquire.est, w.hold b.acquire)
    | _, _ => none
  | .nest => match w.held, w.waiting with
    | ⟨charge, a :: rest⟩ :: held, none => some (request budget g { w with held := ⟨charge, rest⟩ :: held } a)
    | _, _ => none
  | .grant => match w.waiting with
    | some a => if g.fits a.est then some (g.letIn a.est, w.hold a) else none
    | none => none
  | .timeout => match w.waiting with
    | some a => if g.fits a.est then none else some (g.reject, w.abort)
    | none => none
  | .fail => match w.held, w.waiting with
    | _ :: _, none => some (g, w.abort)
    | _, _ => none
  | .release => match w.held, w.waiting with
    | ⟨charge, []⟩ :: held, none => some (g.release charge, { w with held })
    | _, _ => none

end Worker

/-- The gate and everyone at it. -/
structure GateState where
  gate : Gate
  workers : List Worker

namespace GateState

def init (maxConcurrent byteBudget workers : Nat) : GateState :=
  ⟨.new maxConcurrent byteBudget, List.replicate workers .idle⟩

def step (budget : Nat) (s : GateState) (e : Nat × Worker.Action) : Option GateState :=
  s.workers[e.1]?.bind (fun w => (w.step budget s.gate e.2).map (fun p => ⟨p.1, s.workers.set e.1 p.2⟩))

/-- Somebody waits, whoever holds a permit waits too, and no request can be granted. -/
def Wedged (s : GateState) : Prop :=
  (∃ w ∈ s.workers, w.waiting ≠ none) ∧
    ∀ w ∈ s.workers, (w.held ≠ [] → w.waiting ≠ none) ∧ ∀ a, w.waiting = some a → s.gate.fits a.est = false

instance (s : GateState) : Decidable s.Wedged :=
  decidable_of_iff (s.workers.any (·.waiting.isSome) = true ∧ s.workers.all (fun w =>
    (w.held.isEmpty || w.waiting.isSome) && w.waiting.all (fun a => !s.gate.fits a.est)) = true) (by
      simp [Wedged, Option.isSome_iff_ne_none, or_iff_not_imp_left, Option.all_eq_true])

end GateState

/-! ## The books balance -/

namespace Worker

def charges (w : Worker) : Nat := (w.held.map Guard.charge).sum

/-- What a step of a worker does to the books. -/
structure Books (g g' : Gate) (w w' : Worker) : Prop where
  permits : g'.permits + g'.inUse = g.permits + g.inUse
  bytes : g'.bytesAvail + g'.activeBytes = g.bytesAvail + g.activeBytes
  inUse : g'.inUse + w.held.length = g.inUse + w'.held.length
  activeBytes : g'.activeBytes + w.charges = g.activeBytes + w'.charges

variable {budget : Nat} {g g' : Gate} {w w' : Worker}

theorem charges_abort (w : Worker) : w.abort.charges = w.charges := by
  unfold abort charges
  rw [List.map_map]
  rfl

theorem Books.abort (h : g'.permits = g.permits ∧ g'.bytesAvail = g.bytesAvail ∧ g'.inUse = g.inUse ∧
    g'.activeBytes = g.activeBytes) : Books g g' w w.abort := by
  obtain ⟨hp, hb, hi, ha⟩ := h
  refine ⟨by rw [hp, hi], by rw [hb, ha], ?_, by rw [ha, charges_abort]⟩
  rw [hi]
  unfold Worker.abort
  rw [List.length_map]

theorem fits_iff {est : Nat} : g.fits est = true ↔ 0 < g.permits ∧ est ≤ g.bytesAvail := by
  unfold Gate.fits
  simp only [Bool.not_eq_true', Bool.or_eq_false_iff, beq_eq_false_iff_ne, decide_eq_false_iff_not]
  omega

theorem Books.hold {a : Acquire} (h : g.fits a.est = true) : Books g (g.letIn a.est) w (w.hold a) := by
  obtain ⟨hpermits, hbytes⟩ := fits_iff.1 h
  refine ⟨?_, ?_, ?_, ?_⟩
  all_goals simp only [Gate.letIn, Worker.hold, Worker.charges, List.length_cons, List.map_cons, List.sum_cons]
  all_goals omega

theorem Books.request {held : List Guard} {a : Acquire} (hlen : held.length = w.held.length)
    (hsum : (held.map Guard.charge).sum = w.charges) (h : Worker.request budget g { w with held } a = (g', w')) :
    Books g g' w w' := by
  unfold Worker.request at h
  split at h
  · cases h
    have hbooks : Books g g.reject { w with held } (Worker.abort { w with held }) := Books.abort ⟨rfl, rfl, rfl, rfl⟩
    refine ⟨hbooks.permits, hbooks.bytes, by rw [← hlen]; exact hbooks.inUse, by rw [← hsum]; exact hbooks.activeBytes⟩
  · cases h
    exact ⟨rfl, rfl, by rw [← hlen], by rw [← hsum]; rfl⟩

/-- **Every step of a worker keeps the books**, as long as the gate has on its books what the worker holds. -/
theorem step_books {a : Action} (h : w.step budget g a = some (g', w')) (hlen : w.held.length ≤ g.inUse)
    (hsum : w.charges ≤ g.activeBytes) : Books g g' w w' := by
  cases a with
  | start b =>
    rw [Worker.step] at h
    split at h
    · exact Books.request (w := w) rfl rfl (Option.some.inj h)
    · cases h
  | tryStart b =>
    rw [Worker.step] at h
    split at h
    · split at h
      · cases h
        exact ⟨rfl, rfl, rfl, rfl⟩
      · rename_i hfits
        cases h
        simp only [Bool.or_eq_true, Bool.not_eq_true', not_or, Bool.not_eq_false] at hfits
        exact Books.hold hfits.2
    · cases h
  | nest =>
    rw [Worker.step] at h
    split at h
    · rename_i charge a rest held hheld hwaiting
      refine Books.request (w := w) ?_ ?_ (Option.some.inj h)
      · rw [hheld]
        rfl
      · unfold charges
        rw [hheld]
        rfl
    · cases h
  | grant =>
    rw [Worker.step] at h
    split at h
    · split at h
      · rename_i hfits
        cases h
        exact Books.hold hfits
      · cases h
    · cases h
  | timeout =>
    rw [Worker.step] at h
    split at h
    · split at h
      · cases h
      · cases h
        exact Books.abort ⟨rfl, rfl, rfl, rfl⟩
    · cases h
  | fail =>
    rw [Worker.step] at h
    split at h
    · cases h
      exact Books.abort ⟨rfl, rfl, rfl, rfl⟩
    · cases h
  | release =>
    rw [Worker.step] at h
    split at h
    · rename_i charge held hheld hwaiting
      cases h
      unfold charges at hsum
      rw [hheld] at hlen hsum
      simp only [List.length_cons, List.map_cons, List.sum_cons] at hlen hsum
      refine ⟨?_, ?_, ?_, ?_⟩
      all_goals simp only [Gate.release, charges, hheld, List.length_cons, List.map_cons, List.sum_cons]
      all_goals omega
    · cases h

end Worker

/-- Replacing a member changes a sum by the difference. -/
theorem sum_map_set {α : Type} (f : α → Nat) {l : List α} {i : Nat} {a b : α} (h : l[i]? = some a) :
    ((l.set i b).map f).sum + f a = (l.map f).sum + f b := by
  induction l generalizing i with
  | nil => cases h
  | cons x l ih =>
    cases i with
    | zero =>
      cases h
      simp only [List.set_cons_zero, List.map_cons, List.sum_cons]
      omega
    | succ i =>
      have := ih (i := i) h
      simp only [List.set_cons_succ, List.map_cons, List.sum_cons]
      omega

theorem le_sum_map {α : Type} (f : α → Nat) {l : List α} {a : α} (h : a ∈ l) : f a ≤ (l.map f).sum :=
  List.le_sum_of_mem (List.mem_map_of_mem h)

namespace GateState

/-- The gate's books: what is out is what the workers hold. -/
structure Balanced (permits budget : Nat) (s : GateState) : Prop where
  permits : s.gate.permits + s.gate.inUse = permits
  bytes : s.gate.bytesAvail + s.gate.activeBytes = budget
  inUse : s.gate.inUse = (s.workers.map (fun w => w.held.length)).sum
  activeBytes : s.gate.activeBytes = (s.workers.map Worker.charges).sum

variable {permits budget : Nat} {s s' : GateState} {e : Nat × Worker.Action}

theorem step_some (h : s.step budget e = some s') : ∃ w g' w', s.workers[e.1]? = some w ∧
    w.step budget s.gate e.2 = some (g', w') ∧ s' = ⟨g', s.workers.set e.1 w'⟩ := by
  obtain ⟨w, hw, h⟩ := Option.bind_eq_some_iff.1 h
  obtain ⟨⟨g', w'⟩, hstep, rfl⟩ := Option.map_eq_some_iff.1 h
  exact ⟨w, g', w', hw, hstep, rfl⟩

theorem Balanced.init (maxConcurrent byteBudget n : Nat) :
    Balanced (max maxConcurrent 1) (max byteBudget 1) (init maxConcurrent byteBudget n) := by
  refine ⟨rfl, rfl, ?_, ?_⟩
  all_goals
    unfold GateState.init
    rw [List.map_replicate, List.sum_replicate]
    rfl

theorem Balanced.step (h : Balanced permits budget s) (hstep : s.step budget e = some s') :
    Balanced permits budget s' := by
  obtain ⟨w, g', w', hw, hw', rfl⟩ := step_some hstep
  have hmem := List.mem_of_getElem? hw
  have hlen := le_sum_map (fun w : Worker => w.held.length) hmem
  have hsum := le_sum_map Worker.charges hmem
  have hbooks := Worker.step_books hw' (by rw [h.inUse]; exact hlen) (by rw [h.activeBytes]; exact hsum)
  have hset := sum_map_set (fun w : Worker => w.held.length) (b := w') hw
  have hset' := sum_map_set Worker.charges (b := w') hw
  refine ⟨hbooks.permits.trans h.permits, hbooks.bytes.trans h.bytes, ?_, ?_⟩
  · have := hbooks.inUse
    rw [h.inUse] at this
    dsimp only at hset ⊢
    omega
  · have := hbooks.activeBytes
    rw [h.activeBytes] at this
    dsimp only at hset' ⊢
    omega

end GateState

/-! ## Permits that wait for permits -/

mutual

/-- The estimates a builder asks for, its own first. -/
def Acquire.demands : Acquire → List Nat
  | .mk est inner => est :: demandsOf inner

def demandsOf : List Acquire → List Nat
  | [] => []
  | a :: rest => a.demands ++ demandsOf rest

end

namespace Worker

/-- The guards whose builders are in a nested acquisition or have one to make. -/
def outer (w : Worker) : List Guard :=
  match w.waiting, w.held with
  | none, ⟨_, []⟩ :: held => held
  | _, held => held

def outerBytes (w : Worker) : Nat := (w.outer.map Guard.charge).sum

/-- What a worker that holds a permit may still ask for. -/
def demands (w : Worker) : List Nat :=
  match w.held with
  | [] => []
  | held => w.waiting.elim [] Acquire.demands ++ held.flatMap (fun h => demandsOf h.rest)

/-- The acquisition a step grants, if it has others in it. -/
def nesting (w : Worker) : Action → List Acquire
  | .grant => w.waiting.toList.filter (fun a => !a.inner.isEmpty)
  | .tryStart b => [b.acquire].filter (fun a => !a.inner.isEmpty)
  | _ => []

theorem nesting_cases (w : Worker) (a : Action) : w.nesting a = [] ∨ ∃ b, w.nesting a = [b] := by
  have hfilter : ∀ b : Acquire, [b].filter (fun a => !a.inner.isEmpty) = [] ∨
      ∃ c, [b].filter (fun a => !a.inner.isEmpty) = [c] := by
    intro b
    rw [List.filter_singleton]
    cases b.inner.isEmpty with
    | true => exact .inl rfl
    | false => exact .inr ⟨b, rfl⟩
  cases a with
  | grant =>
    unfold nesting
    cases w.waiting with
    | none => exact .inl rfl
    | some b => exact hfilter b
  | tryStart b => exact hfilter b.acquire
  | _ => exact .inl rfl

/-- What a step may add to the guards that wait and to what they may ask for. -/
structure Adds (new : List Acquire) (w w' : Worker) : Prop where
  count : w'.outer.length ≤ w.outer.length + new.length
  bytes : w'.outerBytes ≤ w.outerBytes + (new.map Acquire.est).sum
  demands : ∀ e ∈ w'.demands, e ∈ w.demands ∨ e ∈ new.flatMap (fun a => demandsOf a.inner)

variable {budget : Nat} {g g' : Gate} {w w' : Worker}

theorem outer_sublist (w : Worker) : w.outer.Sublist w.held := by
  unfold outer
  split
  · rename_i hheld
    rw [hheld]
    exact List.sublist_cons_self _ _
  · exact .refl _

theorem tail_sublist_outer (w : Worker) : w.held.tail.Sublist w.outer := by
  unfold outer
  split
  · rename_i hheld
    rw [hheld]
    exact .refl _
  · exact List.tail_sublist _

theorem Adds.of_sublist {new : List Acquire} (h : w'.outer.Sublist w.outer)
    (hd : ∀ e ∈ w'.demands, e ∈ w.demands ∨ e ∈ new.flatMap (fun a => demandsOf a.inner)) : Adds new w w' :=
  ⟨Nat.le_add_right_of_le h.length_le,
    Nat.le_add_right_of_le ((h.map Guard.charge).sum_le_sum fun _ _ => Nat.zero_le _), hd⟩

theorem demands_abort (w : Worker) : w.abort.demands = [] := by
  unfold demands
  split
  · rfl
  · show [] ++ (w.held.map _).flatMap _ = []
    rw [List.nil_append, List.flatMap_map, List.flatMap_eq_nil_iff]
    intro h _
    rfl

theorem Adds.abort (w : Worker) : Adds [] w w.abort := by
  have houter : w.abort.outer = (w.held.tail).map (fun h => { h with rest := [] }) := by
    unfold Worker.abort outer
    cases w.held <;> rfl
  have hsub := tail_sublist_outer w
  refine ⟨?_, ?_, fun e he => ?_⟩
  · rw [houter, List.length_map]
    exact hsub.length_le
  · unfold outerBytes
    rw [houter, List.map_map]
    exact (hsub.map Guard.charge).sum_le_sum fun _ _ => Nat.zero_le _
  · rw [demands_abort] at he
    cases he

theorem mem_demands {e : Nat} : e ∈ w.demands ↔
    w.held ≠ [] ∧ ((∃ a, w.waiting = some a ∧ e ∈ a.demands) ∨ ∃ h ∈ w.held, e ∈ demandsOf h.rest) := by
  unfold demands
  split
  · rename_i hheld
    simp [hheld]
  · rename_i hheld
    rw [List.mem_append, List.mem_flatMap]
    constructor
    · rintro (he | he)
      · refine ⟨hheld, .inl ?_⟩
        cases hw : w.waiting with
        | none =>
          rw [hw] at he
          cases he
        | some a =>
          rw [hw] at he
          exact ⟨a, rfl, he⟩
      · exact ⟨hheld, .inr he⟩
    · rintro ⟨-, ⟨a, ha, he⟩ | he⟩
      · rw [ha]
        exact .inl he
      · exact .inr he

/-- A guard is taken: it waits for others only if its builder makes any. -/
theorem Adds.hold {a : Acquire} (hw : w.waiting = some a ∨ (w.held = [] ∧ w.waiting = none)) :
    Adds ([a].filter (fun a => !a.inner.isEmpty)) w (w.hold a) := by
  have houter : w.outer = w.held := by
    unfold outer
    rcases hw with hw | ⟨hheld, hw⟩
    · rw [hw]
    · rw [hw, hheld]
  have hold : ∀ e ∈ (w.hold a).demands, e ∈ w.demands ∨ e ∈ demandsOf a.inner := by
    intro e he
    obtain ⟨-, ⟨b, hb, -⟩ | ⟨h, hmem, he⟩⟩ := mem_demands.1 he
    · cases hb
    · rcases List.mem_cons.1 hmem with rfl | hmem
      · exact .inr he
      · exact .inl (mem_demands.2 ⟨List.ne_nil_of_mem hmem, .inr ⟨h, hmem, he⟩⟩)
  obtain ⟨est, inner⟩ := a
  cases inner with
  | nil =>
    refine Adds.of_sublist ?_ fun e he => ?_
    · rw [houter]
      exact .refl _
    · rcases hold e he with he | he
      · exact .inl he
      · cases he
  | cons b inner =>
    refine ⟨?_, ?_, fun e he => ?_⟩
    · rw [houter]
      exact Nat.le_refl _
    · unfold outerBytes
      rw [houter]
      show (est :: w.held.map Guard.charge).sum ≤ (w.held.map Guard.charge).sum + (est + 0)
      rw [List.sum_cons]
      omega
    · rcases hold e he with he | he
      · exact .inl he
      · refine .inr (List.mem_flatMap.2 ⟨_, List.mem_cons_self, he⟩)

/-- **A step adds to the waiting guards only what it grants to a builder that nests.** -/
theorem step_adds {a : Action} (h : w.step budget g a = some (g', w')) : Adds (w.nesting a) w w' := by
  cases a with
  | start b =>
    rw [Worker.step] at h
    split at h
    · rename_i hheld hwaiting
      have h := Option.some.inj h
      unfold Worker.request at h
      split at h
      · cases h
        exact Adds.abort w
      · cases h
        refine Adds.of_sublist ?_ fun e he => ?_
        · exact (outer_sublist _).trans (by rw [hheld]; exact List.nil_sublist _)
        · exact absurd hheld (mem_demands.1 he).1
    · cases h
  | tryStart b =>
    rw [Worker.step] at h
    split at h
    · rename_i hheld hwaiting
      split at h
      · cases h
        exact Adds.of_sublist (.refl _) fun e he => .inl he
      · cases h
        exact Adds.hold (.inr ⟨hheld, hwaiting⟩)
    · cases h
  | nest =>
    rw [Worker.step] at h
    split at h
    · rename_i charge a rest held hheld hwaiting
      have houter : w.outer = w.held := by
        unfold outer
        rw [hwaiting, hheld]
      have h := Option.some.inj h
      unfold Worker.request at h
      split at h
      · cases h
        have hadds := Adds.abort w
        have habort : Worker.abort ⟨⟨charge, rest⟩ :: held, w.waiting⟩ = w.abort := by
          unfold Worker.abort
          rw [hheld]
          rfl
        rw [habort]
        exact hadds
      · cases h
        refine ⟨?_, ?_, fun e he => ?_⟩
        · rw [houter, hheld]
          exact Nat.le_refl _
        · unfold outerBytes
          rw [houter, hheld]
          exact Nat.le_refl _
        · refine .inl (mem_demands.2 ⟨by rw [hheld]; exact List.cons_ne_nil _ _, .inr ?_⟩)
          rw [hheld]
          obtain ⟨-, ⟨b, hb, he⟩ | ⟨h, hmem, he⟩⟩ := mem_demands.1 he
          · cases hb
            exact ⟨_, List.mem_cons_self, List.mem_append_left _ he⟩
          · rcases List.mem_cons.1 hmem with rfl | hmem
            · exact ⟨_, List.mem_cons_self, List.mem_append_right _ he⟩
            · exact ⟨h, List.mem_cons_of_mem _ hmem, he⟩
    · cases h
  | grant =>
    rw [Worker.step] at h
    split at h
    · rename_i a hwaiting
      split at h
      · cases h
        have hadds := Adds.hold (w := w) (.inl hwaiting)
        unfold nesting
        rw [hwaiting]
        exact hadds
      · cases h
    · cases h
  | timeout =>
    rw [Worker.step] at h
    split at h
    · split at h
      · cases h
      · cases h
        exact Adds.abort w
    · cases h
  | fail =>
    rw [Worker.step] at h
    split at h
    · cases h
      exact Adds.abort w
    · cases h
  | release =>
    rw [Worker.step] at h
    split at h
    · rename_i charge held hheld hwaiting
      cases h
      have houter : w.outer = held := by
        unfold outer
        rw [hwaiting, hheld]
      refine Adds.of_sublist ?_ fun e he => .inl ?_
      · rw [houter]
        exact outer_sublist _
      · obtain ⟨-, ⟨b, hb, -⟩ | ⟨h, hmem, he⟩⟩ := mem_demands.1 he
        · have hb : w.waiting = some b := hb
          rw [hwaiting] at hb
          cases hb
        · refine mem_demands.2 ⟨by rw [hheld]; exact List.cons_ne_nil _ _, .inr ⟨h, ?_, he⟩⟩
          rw [hheld]
          exact List.mem_cons_of_mem _ hmem
    · cases h

end Worker

namespace GateState

def outerCount (s : GateState) : Nat := (s.workers.map (fun w => w.outer.length)).sum

def outerBytes (s : GateState) : Nat := (s.workers.map Worker.outerBytes).sum

/-- A builder that nests is let in only if, with it, the guards that wait for others leave a permit, and the bytes any
of their builders may still ask for. -/
def GrantOk (permits budget : Nat) (s : GateState) (e : Nat × Worker.Action) : Prop :=
  ∀ w, s.workers[e.1]? = some w → ∀ a ∈ w.nesting e.2,
    s.outerCount + 1 < permits ∧
    ∀ x, x ∈ s.workers.flatMap Worker.demands ∨ x ∈ demandsOf a.inner → s.outerBytes + a.est + x ≤ budget

/-- The guards that wait for others leave a permit, and the bytes any of their builders may still ask for; and nobody
waits for more than the whole budget. -/
structure Slack (permits budget : Nat) (s : GateState) : Prop where
  count : s.outerCount < permits
  bytes : ∀ w ∈ s.workers, ∀ x ∈ w.demands, s.outerBytes + x ≤ budget
  waits : ∀ w ∈ s.workers, ∀ a, w.waiting = some a → a.est ≤ budget

variable {permits budget : Nat} {s s' : GateState} {e : Nat × Worker.Action}

theorem waits_step {w w' : Worker} {g g' : Gate} {a : Worker.Action} (h : w.step budget g a = some (g', w'))
    (hw : ∀ a, w.waiting = some a → a.est ≤ budget) : ∀ a, w'.waiting = some a → a.est ≤ budget := by
  intro b hb
  have hrequest : ∀ {w : Worker} {a : Acquire}, Worker.request budget g w a = (g', w') → b.est ≤ budget := by
    intro w a h
    unfold Worker.request at h
    split at h
    · cases h
      cases hb
    · cases h
      cases hb
      omega
  cases a with
  | start b =>
    rw [Worker.step] at h
    split at h
    · exact hrequest (Option.some.inj h)
    · cases h
  | tryStart b =>
    rw [Worker.step] at h
    split at h
    · split at h
      · cases h
        exact hw _ hb
      · cases h
        cases hb
    · cases h
  | nest =>
    rw [Worker.step] at h
    split at h
    · exact hrequest (Option.some.inj h)
    · cases h
  | grant =>
    rw [Worker.step] at h
    split at h
    · split at h
      · cases h
        cases hb
      · cases h
    · cases h
  | timeout =>
    rw [Worker.step] at h
    split at h
    · split at h
      · cases h
      · cases h
        cases hb
    · cases h
  | fail =>
    rw [Worker.step] at h
    split at h
    · cases h
      cases hb
    · cases h
  | release =>
    rw [Worker.step] at h
    split at h
    · cases h
      exact hw _ hb
    · cases h

theorem Slack.step (h : Slack permits budget s) (hok : GrantOk permits budget s e) (hstep : s.step budget e = some s') :
    Slack permits budget s' := by
  obtain ⟨w, g', w', hw, hw', rfl⟩ := step_some hstep
  have hadds := Worker.step_adds hw'
  have hok := hok w hw
  have hmem := List.mem_of_getElem? hw
  have hcount := sum_map_set (fun w : Worker => w.outer.length) (b := w') hw
  have hbytes := sum_map_set Worker.outerBytes (b := w') hw
  have hset : ∀ v ∈ s.workers.set e.1 w', v = w' ∨ v ∈ s.workers := fun v hv => (List.mem_or_eq_of_mem_set hv).symm
  unfold outerCount outerBytes at hok
  have hcases := Worker.nesting_cases w e.2
  refine ⟨?_, fun v hv x hx => ?_, fun v hv => ?_⟩
  · have hle := hadds.count
    unfold outerCount
    rcases hcases with hnil | ⟨a, ha⟩
    · have := h.count
      unfold outerCount at this
      rw [hnil, List.length_nil] at hle
      dsimp only at hcount ⊢
      omega
    · have := (hok a (by rw [ha]; exact List.mem_cons_self)).1
      rw [ha, List.length_singleton] at hle
      dsimp only at hcount ⊢
      omega
  · have hle := hadds.bytes
    unfold outerBytes
    -- what may still be asked for was there before, or came in with the step
    have hdemand : x ∈ s.workers.flatMap Worker.demands ∨ x ∈ (w.nesting e.2).flatMap (fun a => demandsOf a.inner) := by
      rcases hset v hv with rfl | hv
      · exact (hadds.demands x hx).imp_left fun hx => List.mem_flatMap.2 ⟨w, hmem, hx⟩
      · exact .inl (List.mem_flatMap.2 ⟨v, hv, hx⟩)
    rcases hcases with hnil | ⟨a, ha⟩
    · rw [hnil] at hle hdemand
      obtain ⟨u, hu, hxu⟩ := List.mem_flatMap.1 (hdemand.resolve_right fun h => by cases h)
      have := h.bytes u hu x hxu
      unfold outerBytes at this
      rw [List.map_nil, List.sum_nil] at hle
      dsimp only at hbytes ⊢
      omega
    · rw [ha, List.flatMap_singleton] at hdemand
      have := (hok a (by rw [ha]; exact List.mem_cons_self)).2 x hdemand
      rw [ha] at hle
      simp only [List.map_cons, List.map_nil, List.sum_cons, List.sum_nil] at hle
      dsimp only at hbytes ⊢
      omega
  · rcases hset v hv with rfl | hv
    · exact waits_step hw' (h.waits w hmem)
    · exact h.waits v hv

/-- **Where the waiting guards leave a permit and the bytes that may be asked for, nobody is stuck.** -/
theorem Slack.not_wedged (h : Slack permits budget s) (hb : Balanced permits budget s) : ¬s.Wedged := by
  rintro ⟨⟨w, hw, hwaits⟩, hall⟩
  obtain ⟨a, ha⟩ := Option.ne_none_iff_exists'.1 hwaits
  have houter : ∀ v ∈ s.workers, v.outer = v.held := by
    intro v hv
    unfold Worker.outer
    split
    · rename_i hnone hheld
      exact absurd hnone ((hall v hv).1 (by rw [hheld]; exact List.cons_ne_nil _ _))
    · rfl
  have hcount : s.outerCount = s.gate.inUse := by
    rw [hb.inUse]
    unfold outerCount
    rw [List.map_congr_left fun v hv => by rw [houter v hv]]
  have hbytes : s.outerBytes = s.gate.activeBytes := by
    rw [hb.activeBytes]
    unfold outerBytes
    refine congrArg List.sum (List.map_congr_left fun v hv => ?_)
    unfold Worker.outerBytes Worker.charges
    rw [houter v hv]
  have hpermits : 0 < s.gate.permits := by
    have := h.count
    have := hb.permits
    omega
  -- some request fits: a holder's, or, if there is none, anybody's
  have hfits : ∃ v ∈ s.workers, ∃ b, v.waiting = some b ∧ b.est ≤ s.gate.bytesAvail := by
    by_cases hheld : ∃ v ∈ s.workers, v.held ≠ []
    · obtain ⟨v, hv, hne⟩ := hheld
      obtain ⟨b, hvb⟩ := Option.ne_none_iff_exists'.1 ((hall v hv).1 hne)
      have hdemand : b.est ∈ v.demands := by
        refine Worker.mem_demands.2 ⟨hne, .inl ⟨b, hvb, ?_⟩⟩
        cases b with
        | mk est inner => exact List.mem_cons_self
      have := h.bytes v hv _ hdemand
      have := hb.bytes
      exact ⟨v, hv, b, hvb, by omega⟩
    · have hzero : s.gate.activeBytes = 0 := by
        rw [hb.activeBytes, List.sum_eq_zero]
        intro x hx
        obtain ⟨v, hv, rfl⟩ := List.mem_map.1 hx
        have hnil : v.held = [] := by
          by_contra hne
          exact hheld ⟨v, hv, hne⟩
        unfold Worker.charges
        rw [hnil]
        rfl
      have := h.waits w hw a ha
      have := hb.bytes
      exact ⟨w, hw, a, ha, by omega⟩
  obtain ⟨v, hv, b, hvb, hle⟩ := hfits
  have hblocked := (hall v hv).2 b hvb
  rw [Worker.fits_iff.2 ⟨hpermits, hle⟩] at hblocked
  cases hblocked

theorem Slack.init (maxConcurrent byteBudget n : Nat) :
    Slack (max maxConcurrent 1) (max byteBudget 1) (init maxConcurrent byteBudget n) := by
  have hidle : ∀ w ∈ (GateState.init maxConcurrent byteBudget n).workers, w = Worker.idle :=
    fun w hw => List.eq_of_mem_replicate hw
  refine ⟨?_, fun w hw x hx => ?_, fun w hw a ha => ?_⟩
  · have hzero : (GateState.init maxConcurrent byteBudget n).outerCount = 0 := by
      unfold outerCount GateState.init
      rw [List.map_replicate, List.sum_replicate]
      rfl
    rw [hzero]
    omega
  · rw [hidle w hw] at hx
    cases hx
  · rw [hidle w hw] at ha
    cases ha

/-- A run of a gate with any number of workers. -/
def Run (maxConcurrent byteBudget workers : Nat) (es : List (Nat × Worker.Action)) : Option GateState :=
  Runs.run (step (max byteBudget 1)) (init maxConcurrent byteBudget workers) es

def SlackRun (maxConcurrent byteBudget workers : Nat) (es : List (Nat × Worker.Action)) : Prop :=
  Runs.Each (step (max byteBudget 1)) (GrantOk (max maxConcurrent 1) (max byteBudget 1))
    (init maxConcurrent byteBudget workers) es

end GateState

/-- **The gate's books balance in every run; and a run that lets a builder which nests in only while the guards that
wait for others leave a permit, and the bytes their builders may still ask for, never wedges.** -/
theorem buildGate_never_wedges (maxConcurrent byteBudget workers : Nat) (es : List (Nat × Worker.Action))
    (s : GateState) (hrun : GateState.Run maxConcurrent byteBudget workers es = some s) :
    s.gate.permits + s.gate.inUse = max maxConcurrent 1 ∧ s.gate.bytesAvail + s.gate.activeBytes = max byteBudget 1 ∧
    s.gate.activeBytes ≤ max byteBudget 1 ∧ (GateState.SlackRun maxConcurrent byteBudget workers es → ¬s.Wedged) := by
  have hb := Runs.run_inv (fun _ _ _ h hstep => GateState.Balanced.step h hstep)
    (GateState.Balanced.init maxConcurrent byteBudget workers) hrun
  refine ⟨hb.permits, hb.bytes, by have := hb.bytes; omega, fun hslack => ?_⟩
  have hs := Runs.run_inv_of_each (fun _ _ _ h hok hstep => GateState.Slack.step h hok hstep)
    (GateState.Slack.init maxConcurrent byteBudget workers) hslack hrun
  exact hs.not_wedged hb

/-- One worker starts to concatenate, and asks for its second permit. -/
def concatenateRun : List (Nat × Worker.Action) := [(0, .start (.concatenate 4096)), (0, .grant), (0, .nest)]

theorem concatenate_alone_never_wedges : ∃ s, GateState.Run 16 (2 ^ 31) 1 concatenateRun = some s ∧ s.gate.inUse = 1 ∧
    ¬s.Wedged := by
  have hslack : GateState.SlackRun 16 (2 ^ 31) 1 concatenateRun := by
    refine ⟨fun w hw a ha => ?_, fun s h => ?_⟩
    · cases hw
      cases ha
    · cases h
      refine ⟨fun w hw a ha => ?_, fun s h => ?_⟩
      · cases hw
        have ha : a = Builder.overGraph 4096 := List.mem_singleton.1 ha
        subst ha
        refine ⟨by decide, fun x hx => ?_⟩
        rcases hx with hx | hx
        · cases hx
        · have hx : x = 4096 := List.mem_singleton.1 hx
          subst hx
          decide
      · cases h
        refine ⟨fun w hw a ha => ?_, fun s h => trivial⟩
        cases hw
        cases ha
  obtain ⟨s, hs, huse⟩ : ∃ s, GateState.Run 16 (2 ^ 31) 1 concatenateRun = some s ∧ s.gate.inUse = 1 := ⟨_, rfl, rfl⟩
  exact ⟨s, hs, huse, (buildGate_never_wedges 16 (2 ^ 31) 1 concatenateRun s hs).2.2.2 hslack⟩

/-- Sixteen workers start to concatenate, get their permits, and ask for one more each. -/
def crowdedRun : List (Nat × Worker.Action) :=
  (List.range 16).flatMap (fun t => [(t, .start (.concatenate 4096)), (t, .grant)]) ++
    (List.range 16).map (fun t => (t, .nest))

/-- The gate of sixteen permits and two gibibytes wedges. -/
theorem defaultGate_wedges : ∃ s, GateState.Run 16 (2 ^ 31) 16 crowdedRun = some s ∧ s.gate.permits = 0 ∧ s.Wedged := by
  have hany : (GateState.Run 16 (2 ^ 31) 16 crowdedRun).any (fun s => decide (s.gate.permits = 0 ∧ s.Wedged)) =
    true := by
    decide +kernel
  obtain ⟨s, hs, h⟩ := (Option.any_eq_true _ _).1 hany
  obtain ⟨hpermits, hwedged⟩ := of_decide_eq_true h
  exact ⟨s, hs, hpermits, hwedged⟩

end MaskForge
