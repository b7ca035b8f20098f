import MaskForge.Structured.Keys
/-!
# KeyLife — which keys survive a commit

An object's keys lie below the marks of the objects opened above it, so giving back the arena down to the lowest mark of
the objects a token closed leaves them alone, except for keys the token interned after it had closed one.  A token that
interns no such key into an object it leaves open keeps every key of every open object where it was interned, and no
object is ever fed the same key twice.
-/
namespace MaskForge

open CountingSort (slice)

/-! ## Spans -/

/-- The span of a key is in the arena and holds the key. -/
def Stored (a : KeyArena) (id : Nat) (k : Key) : Prop :=
  ∃ start, a.spans[id]? = some (start, k.length) ∧ start + k.length ≤ a.bytes.length ∧
    slice a.bytes start (start + k.length) = k

/-- The span of an id lies below a mark. -/
def Under (a : KeyArena) (id : Nat) (m : Nat × Nat) : Prop :=
  id < m.2 ∧ ∀ span, a.spans[id]? = some span → span.1 + span.2 ≤ m.1

namespace Stored
variable {a : KeyArena} {id : Nat} {k : Key}

theorem lt (h : Stored a id k) : id < a.spans.length := by
  obtain ⟨start, h, -⟩ := h
  exact (List.getElem?_eq_some_iff.1 h).1

theorem get (h : Stored a id k) (ha : a.bytes.length < u32Size) : a.get id = some k := by
  obtain ⟨start, hspan, hle, hslice⟩ := h
  unfold KeyArena.get
  rw [hspan]
  show (if start + k.length < u32Size ∧ start + k.length ≤ a.bytes.length then _ else none) = _
  rw [if_pos ⟨Nat.lt_of_le_of_lt hle ha, hle⟩, hslice]

theorem under (h : Stored a id k) : Under a id (a.bytes.length, a.spans.length) := by
  refine ⟨h.lt, fun span hspan => ?_⟩
  obtain ⟨start, h, hle, -⟩ := h
  rw [h] at hspan
  cases hspan
  exact hle

theorem slice_append_left {l l' : List Byte} {lo hi : Nat} (h : hi ≤ l.length) :
    slice (l ++ l') lo hi = slice l lo hi := by
  unfold CountingSort.slice
  by_cases hlo : lo ≤ l.length
  · rw [List.drop_append_of_le_length hlo, List.take_append_of_le_length]
    rw [List.length_drop]
    omega
  · rw [show hi - lo = 0 by omega, List.take_zero, List.take_zero]

/-- Interning more keys keeps it. -/
theorem append (h : Stored a id k) (bytes : List Byte) (spans : List (Nat × Nat)) :
    Stored ⟨a.bytes ++ bytes, a.spans ++ spans⟩ id k := by
  obtain ⟨start, hspan, hle, hslice⟩ := h
  refine ⟨start, ?_, ?_, ?_⟩
  · rw [List.getElem?_append_left (List.getElem?_eq_some_iff.1 hspan).1, hspan]
  · rw [List.length_append]
    omega
  · rw [slice_append_left hle, hslice]

/-- Giving back what lies above it keeps it. -/
theorem truncate (h : Stored a id k) {m : Nat × Nat} (hm : Under a id m) : Stored (a.truncate m) id k := by
  obtain ⟨start, hspan, hle, hslice⟩ := h
  have hend := hm.2 _ hspan
  refine ⟨start, ?_, ?_, ?_⟩
  · show (a.spans.take m.2)[id]? = _
    rw [List.getElem?_take_of_lt hm.1, hspan]
  · show start + k.length ≤ (a.bytes.take m.1).length
    rw [List.length_take]
    exact Nat.le_min.2 ⟨hend, hle⟩
  · have hlen : start + k.length ≤ (a.bytes.take m.1).length := by
      rw [List.length_take]
      exact Nat.le_min.2 ⟨hend, hle⟩
    rw [← List.take_append_drop m.1 a.bytes, slice_append_left hlen] at hslice
    exact hslice

end Stored

theorem Under.append {a : KeyArena} {id : Nat} {m : Nat × Nat} (h : Under a id m) (hid : id < a.spans.length)
    (bytes : List Byte) (spans : List (Nat × Nat)) : Under ⟨a.bytes ++ bytes, a.spans ++ spans⟩ id m := by
  refine ⟨h.1, fun span hspan => h.2 span ?_⟩
  rwa [List.getElem?_append_left hid] at hspan

theorem Under.truncate {a : KeyArena} {id : Nat} {m m' : Nat × Nat} (h : Under a id m) :
    Under (a.truncate m') id m := by
  refine ⟨h.1, fun span hspan => h.2 span ?_⟩
  change (a.spans.take m'.2)[id]? = some span at hspan
  rw [List.getElem?_take] at hspan
  split at hspan
  · exact hspan
  · cases hspan

/-! ## What a state keeps -/

/-- The keys fed to an open object, and where the object finds them. -/
structure ObjectOk (env : KeyEnv) (a : KeyArena) (o : ObjectKeys) (ms : List Member) : Prop where
  stored : ∀ m ∈ ms, ∀ id, m.id = some id → Stored a id m.key
  slot : ∀ m ∈ ms, ∀ id, m.id = some id →
    o.knownByName.lookup m.key = none ∧ ∃ slot, o.seenDynamic (env.hash m.key) = some slot ∧ id ∈ slot.ids
  interned : ∀ h slot, o.seenDynamic h = some slot → ∀ id ∈ slot.ids, ∃ m ∈ ms, m.id = some id ∧ env.hash m.key = h
  known : ∀ m ∈ ms, m.id = none → ∃ i, o.knownByName.lookup m.key = some i ∧ o.seenKnown i = true
  nodup : (ms.map Member.key).Nodup

inductive FrameOk (env : KeyEnv) (a : KeyArena) : KeyFrame → Option (List Member) → Prop where
  | object {o : ObjectKeys} {ms : List Member} (h : ObjectOk env a o ms) : FrameOk env a (.object o) (some ms)
  | other : FrameOk env a .other none

/-- The keys fed to a frame lie below the mark of an object above it. -/
def Floors (a : KeyArena) (fed : Option (List Member)) (frame : KeyFrame) : Prop :=
  ∀ o ms, frame = .object o → fed = some ms → ∀ m ∈ ms, ∀ id, m.id = some id → Under a id o.arenaStart

/-- The invariant of a session. -/
structure KeyInv (env : KeyEnv) (t : KeyTrace) : Prop where
  bytes : t.state.core.arena.bytes.length ≤ env.limits.maxSessionBytes
  spans : t.state.core.arena.spans.length * KeyState.spanBytes ≤ env.limits.maxSessionBytes
  frames : List.Forall₂ (FrameOk env t.state.core.arena) t.state.core.frames t.fed
  stack : (t.state.core.frames.zip t.fed).Pairwise (fun p q => Floors t.state.core.arena p.2 q.1)
  closed : ∀ o, .pushFrame (.object o) ∈ t.state.undo → t.closed = true ∧
    ∀ ms, some ms ∈ t.fed → ∀ m ∈ ms, m.late = false → ∀ id, m.id = some id → Under t.state.core.arena id o.arenaStart

/-- No open object holds a key its token interned after closing an object. -/
def KeyTrace.Safe (t : KeyTrace) : Prop := ∀ ms, some ms ∈ t.fed → ∀ m ∈ ms, m.id.isSome → m.late = false

/-- The session's bytes fit the arena's 32-bit offsets. -/
def KeyEnv.Fits (env : KeyEnv) : Prop := env.limits.maxSessionBytes < u32Size

/-- What was done since `t` can be taken back. -/
def Logged (t t' : KeyTrace) : Prop :=
  ∃ entries, t'.state.undo = entries ++ t.state.undo ∧ entries.foldl KeyCore.undoOne t'.state.core = t.state.core

theorem Logged.refl (t : KeyTrace) : Logged t t := ⟨[], rfl, rfl⟩

theorem Logged.trans {t t' t'' : KeyTrace} (h : Logged t t') (h' : Logged t' t'') : Logged t t'' := by
  obtain ⟨es, h1, h2⟩ := h
  obtain ⟨es', h1', h2'⟩ := h'
  refine ⟨es' ++ es, by rw [h1', h1, List.append_assoc], ?_⟩
  rw [List.foldl_append, h2', h2]

/-- **Rolling back to a mark restores the state the mark was taken in.** -/
theorem rollbackFrom_append (rest : List KeyUndo) : ∀ (entries : List KeyUndo) (c : KeyCore),
    KeyState.rollbackFrom rest.length (entries ++ rest) c = ⟨entries.foldl KeyCore.undoOne c, rest⟩
  | [], c => by
    cases rest with
    | nil => rfl
    | cons e rest =>
      show (if rest.length + 1 < rest.length + 1 then _ else _) = _
      rw [if_neg (Nat.lt_irrefl _)]
      rfl
  | e :: entries, c => by
    show (if rest.length < (entries ++ rest).length + 1 then
      KeyState.rollbackFrom rest.length (entries ++ rest) (c.undoOne e) else _) = _
    rw [if_pos (by rw [List.length_append]; omega), rollbackFrom_append rest entries]
    rfl

theorem Logged.rollback {t t' : KeyTrace} (h : Logged t t') : t'.state.rollback t.state.undo.length = t.state := by
  obtain ⟨entries, h1, h2⟩ := h
  unfold KeyState.rollback
  rw [h1, rollbackFrom_append, h2]

/-! ## The innermost frame -/

theorem modify_last {α : Type} (f : α → α) (x : α) : ∀ l : List α, (l ++ [x]).modify l.length f = l ++ [f x]
  | [] => rfl
  | y :: l => by
    show y :: (l ++ [x]).modify l.length f = _
    rw [modify_last f x l]
    rfl

theorem modifyAt_last (fs : List KeyFrame) (o : ObjectKeys) (a : KeyArena) (f : ObjectKeys → ObjectKeys) :
    KeyCore.modifyAt ⟨fs ++ [.object o], a⟩ fs.length f = ⟨fs ++ [.object (f o)], a⟩ := by
  unfold KeyCore.modifyAt
  rw [modify_last]
  rfl

theorem eq_append_of_getLast? {α : Type} {l : List α} {x : α} (h : l.getLast? = some x) : ∃ l', l = l' ++ [x] :=
  List.getLast?_eq_some_iff.1 h

theorem forall₂_append_singleton {α β : Type} {R : α → β → Prop} : ∀ {l : List α} {x : α} {l' : List β},
    List.Forall₂ R (l ++ [x]) l' → ∃ r y, l' = r ++ [y] ∧ List.Forall₂ R l r ∧ R x y
  | [], x, l', h => by
    cases h with
    | cons hxy h =>
      cases h
      exact ⟨[], _, rfl, .nil, hxy⟩
  | a :: l, x, l', h => by
    cases h with
    | cons hab h =>
      obtain ⟨r, y, rfl, hr, hxy⟩ := forall₂_append_singleton h
      exact ⟨_ :: r, y, rfl, .cons hab hr, hxy⟩

theorem mem_zip_right {α β : Type} {R : α → β → Prop} : ∀ {l : List α} {r : List β}, List.Forall₂ R l r →
    ∀ y ∈ r, ∃ x, (x, y) ∈ l.zip r
  | _, _, .nil, _, h => by cases h
  | a :: l, b :: r, .cons _ h, y, hy => by
    rcases List.mem_cons.1 hy with rfl | hy
    · exact ⟨a, List.mem_cons_self⟩
    · obtain ⟨x, hx⟩ := mem_zip_right h y hy
      exact ⟨x, List.mem_cons_of_mem _ hx⟩

theorem forall₂_mem_zip {α β : Type} {R : α → β → Prop} : ∀ {l : List α} {r : List β}, List.Forall₂ R l r →
    ∀ p ∈ l.zip r, R p.1 p.2
  | _, _, .nil, _, h => by cases h
  | a :: l, b :: r, .cons hab h, p, hp => by
    rcases List.mem_cons.1 hp with rfl | hp
    · exact hab
    · exact forall₂_mem_zip h p hp

theorem zip_append_singleton {α β : Type} {R : α → β → Prop} {l : List α} {r : List β} (h : List.Forall₂ R l r) (x : α)
    (y : β) : (l ++ [x]).zip (r ++ [y]) = l.zip r ++ [(x, y)] := List.zip_append h.length_eq

/-- An arena that keeps what another stores, and where. -/
structure Keeps (a a' : KeyArena) (id : Nat) : Prop where
  stored : ∀ k, Stored a id k → Stored a' id k
  under : ∀ m, Under a id m → Under a' id m

theorem FrameOk.keeps {env : KeyEnv} {a a' : KeyArena} {f : KeyFrame} {y : Option (List Member)} (h : FrameOk env a f y)
    (hk : ∀ ms, y = some ms → ∀ m ∈ ms, ∀ id, m.id = some id → Keeps a a' id) : FrameOk env a' f y := by
  cases h with
  | other => exact .other
  | object h =>
    exact .object ⟨fun m hm id hid => (hk _ rfl m hm id hid).stored _ (h.stored m hm id hid), h.slot, h.interned,
      h.known, h.nodup⟩

theorem stored_of_frameOk {env : KeyEnv} {a : KeyArena} {fs : List KeyFrame} {r : List (Option (List Member))}
    (h : List.Forall₂ (FrameOk env a) fs r) {ms : List Member} (hms : some ms ∈ r) {m : Member} (hm : m ∈ ms) {id : Nat}
    (hid : m.id = some id) : Stored a id m.key := by
  obtain ⟨x, hx⟩ := mem_zip_right h _ hms
  cases (forall₂_mem_zip h _ hx) with
  | object h => exact h.stored m hm id hid

/-- The frames of a state over an arena that keeps their keys. -/
theorem frames_keep {env : KeyEnv} {a a' : KeyArena} {fs : List KeyFrame} {r : List (Option (List Member))}
    (h : List.Forall₂ (FrameOk env a) fs r) (hstack : (fs.zip r).Pairwise (fun p q => Floors a p.2 q.1))
    (hk : ∀ ms, some ms ∈ r → ∀ m ∈ ms, ∀ id, m.id = some id → Keeps a a' id) :
    List.Forall₂ (FrameOk env a') fs r ∧ (fs.zip r).Pairwise (fun p q => Floors a' p.2 q.1) := by
  constructor
  · refine List.forall₂_iff_get.2 ⟨h.length_eq, fun i hi hi' => ?_⟩
    refine ((List.forall₂_iff_get.1 h).2 i hi hi').keeps fun ms hms => hk ms ?_
    rw [← hms]
    exact List.get_mem _ _
  · refine hstack.imp_of_mem fun {p q} hp _ hpq o ms ho hms m hm id hid => ?_
    refine (hk ms ?_ m hm id hid).under _ (hpq o ms ho hms m hm id hid)
    rw [← hms]
    exact (List.of_mem_zip hp).2

section Steps
variable {env : KeyEnv} {t : KeyTrace}

theorem KeyInv.mark_eq (h : KeyInv env t) (hf : env.Fits) :
    t.state.core.arena.mark = (t.state.core.arena.bytes.length, t.state.core.arena.spans.length) := by
  have h1 := h.bytes
  have h2 := h.spans
  unfold KeyEnv.Fits at hf
  unfold KeyState.spanBytes at h2
  unfold KeyArena.mark
  rw [Nat.mod_eq_of_lt (by omega), Nat.mod_eq_of_lt (by omega)]

/-- A new innermost frame with no keys. -/
theorem KeyInv.push (h : KeyInv env t) {frame : KeyFrame} {y : Option (List Member)}
    (hframe : FrameOk env t.state.core.arena frame y) (hempty : ∀ ms, y = some ms → ms = [])
    (hfloor : ∀ o, frame = .object o → o.arenaStart = (t.state.core.arena.bytes.length,
      t.state.core.arena.spans.length)) :
    KeyInv env { t with state := t.state.pushFrame frame, fed := t.fed ++ [y] } ∧
      Logged t { t with state := t.state.pushFrame frame, fed := t.fed ++ [y] } := by
  refine ⟨⟨h.bytes, h.spans, ?_, ?_, fun o ho => ?_⟩, [.popFrame], rfl, ?_⟩
  · exact List.rel_append h.frames (.cons hframe .nil)
  · show ((t.state.core.frames ++ [frame]).zip (t.fed ++ [y])).Pairwise _
    rw [zip_append_singleton h.frames, List.pairwise_append]
    refine ⟨h.stack, List.pairwise_singleton _ _, fun p hp q hq => ?_⟩
    rw [List.mem_singleton] at hq
    subst hq
    intro o ms ho hms m hm id hid
    rw [hfloor o ho]
    exact (stored_of_frameOk h.frames (hms ▸ (List.of_mem_zip hp).2) hm hid).under
  · have ho' : .pushFrame (KeyFrame.object o) ∈ t.state.undo := by
      rcases List.mem_cons.1 ho with heq | ho
      · cases heq
      · exact ho
    obtain ⟨hclosed, hunder⟩ := h.closed o ho'
    refine ⟨hclosed, fun ms hms m hm => ?_⟩
    rcases List.mem_append.1 hms with hms | hms
    · exact hunder ms hms m hm
    · rw [hempty ms (List.mem_singleton.1 hms).symm] at hm
      cases hm
  · show (⟨(t.state.core.frames ++ [frame]).dropLast, t.state.core.arena⟩ : KeyCore) = t.state.core
    rw [List.dropLast_concat]

theorem KeyInv.popFrame (h : KeyInv env t) :
    KeyInv env (t.act env .popFrame) ∧ Logged t (t.act env .popFrame) := by
  unfold KeyTrace.act KeyState.popFrame
  cases hlast : t.state.core.frames.getLast? with
  | none =>
    have hnil := List.getLast?_eq_none_iff.1 hlast
    have hfed : t.fed = [] := by
      have := h.frames
      rw [hnil] at this
      exact List.forall₂_nil_left_iff.1 this
    have hsame : (⟨t.state, t.fed.dropLast, t.closed || t.fed.getLast?.any Option.isSome⟩ : KeyTrace) = t := by
      cases t
      simp only at hfed
      subst hfed
      simp
    dsimp only
    rw [hsame]
    exact ⟨h, Logged.refl t⟩
  | some frame =>
    obtain ⟨fs, hfs⟩ := eq_append_of_getLast? hlast
    have hframes := h.frames
    have hstack := h.stack
    rw [hfs] at hframes hstack
    obtain ⟨r, y, hr, hrs, hxy⟩ := forall₂_append_singleton hframes
    rw [hr, zip_append_singleton hrs, List.pairwise_append] at hstack
    dsimp only
    refine ⟨⟨h.bytes, h.spans, ?_, ?_, fun o ho => ?_⟩, [.pushFrame frame], rfl, ?_⟩
    · show List.Forall₂ _ t.state.core.frames.dropLast t.fed.dropLast
      rw [hfs, hr, List.dropLast_concat, List.dropLast_concat]
      exact hrs
    · show (t.state.core.frames.dropLast.zip t.fed.dropLast).Pairwise _
      rw [hfs, hr, List.dropLast_concat, List.dropLast_concat]
      exact hstack.1
    · show _ ∧ ∀ ms, some ms ∈ t.fed.dropLast → _
      rw [hr, List.dropLast_concat]
      rcases List.mem_cons.1 ho with heq | ho
      · cases heq
        cases hxy with
        | object hobj =>
          refine ⟨by simp, fun ms hms m hm _ id hid => ?_⟩
          obtain ⟨x, hx⟩ := mem_zip_right hrs _ hms
          exact hstack.2.2 _ hx _ (List.mem_singleton_self _) o ms rfl rfl m hm id hid
      · obtain ⟨hclosed, hunder⟩ := h.closed o ho
        refine ⟨by simp [hclosed], fun ms hms => hunder ms ?_⟩
        rw [hr]
        exact List.mem_append_left _ hms
    · show (⟨t.state.core.frames.dropLast ++ [frame], t.state.core.arena⟩ : KeyCore) = t.state.core
      rw [hfs, List.dropLast_concat, ← hfs]

theorem KeyInv.openObject (h : KeyInv env t) (hf : env.Fits) (knownByName : List (Key × Nat)) :
    KeyInv env (t.act env (.openObject knownByName)) ∧ Logged t (t.act env (.openObject knownByName)) := by
  rw [KeyTrace.act]
  refine h.push (.object ⟨?_, ?_, ?_, ?_, List.nodup_nil⟩) (fun ms hms => (Option.some.inj hms).symm) fun o ho => ?_
  · intro m hm
    cases hm
  · intro m hm
    cases hm
  · intro hash slot hslot
    cases hslot
  · intro m hm
    cases hm
  · cases ho
    exact h.mark_eq hf

theorem KeyInv.pushFrame (h : KeyInv env t) : KeyInv env (t.act env .pushFrame) ∧ Logged t (t.act env .pushFrame) := by
  rw [KeyTrace.act]
  exact h.push .other (fun ms hms => by cases hms) (fun o ho => by cases ho)

/-! ## A key -/

/-- One more key for the innermost object. -/
theorem KeyInv.feed (h : KeyInv env t) {fs : List KeyFrame} {o o' : ObjectKeys} {r : List (Option (List Member))}
    {ms : List Member} {a' : KeyArena} {es : List KeyUndo} {m : Member}
    (hfs : t.state.core.frames = fs ++ [.object o]) (hfed : t.fed = r ++ [some ms]) (hlate : m.late = t.closed)
    (hstart : o'.arenaStart = o.arenaStart) (hok : ObjectOk env a' o' (ms ++ [m]))
    (hkeeps : ∀ id k, Stored t.state.core.arena id k → Keeps t.state.core.arena a' id)
    (hbytes : a'.bytes.length ≤ env.limits.maxSessionBytes)
    (hspans : a'.spans.length * KeyState.spanBytes ≤ env.limits.maxSessionBytes)
    (hes : ∀ f, .pushFrame f ∉ es) (hundo : es.foldl KeyCore.undoOne ⟨fs ++ [.object o'], a'⟩ = t.state.core) :
    KeyInv env ⟨⟨⟨fs ++ [.object o'], a'⟩, es ++ t.state.undo⟩, r ++ [some (ms ++ [m])], t.closed⟩ ∧
      Logged t ⟨⟨⟨fs ++ [.object o'], a'⟩, es ++ t.state.undo⟩, r ++ [some (ms ++ [m])], t.closed⟩ := by
  have hold : ∀ ms', some ms' ∈ t.fed → ∀ m ∈ ms', ∀ id, m.id = some id → Keeps t.state.core.arena a' id :=
    fun ms' hms' m hm id hid => hkeeps id _ (stored_of_frameOk h.frames hms' hm hid)
  have hframes := h.frames
  rw [hfs, hfed] at hframes
  obtain ⟨r', y, hr, hrs, -⟩ := forall₂_append_singleton hframes
  obtain ⟨rfl, -⟩ := List.append_inj' hr rfl
  have hstack := h.stack
  rw [hfs, hfed, zip_append_singleton hrs, List.pairwise_append] at hstack
  obtain ⟨hstack, -, htop⟩ := hstack
  have hsub : ∀ ms', some ms' ∈ r → some ms' ∈ t.fed := fun ms' h => hfed ▸ List.mem_append_left _ h
  obtain ⟨hframes', hstack'⟩ := frames_keep hrs hstack fun ms' h => hold ms' (hsub ms' h)
  refine ⟨⟨hbytes, hspans, List.rel_append hframes' (.cons (.object hok) .nil), ?_, fun ob hob => ?_⟩, es, rfl, hundo⟩
  · show ((fs ++ [KeyFrame.object o']).zip (r ++ [some (ms ++ [m])])).Pairwise _
    rw [zip_append_singleton hrs, List.pairwise_append]
    refine ⟨hstack', List.pairwise_singleton _ _, fun p hp q hq => ?_⟩
    rw [List.mem_singleton] at hq
    subst hq
    intro ob ms' hob hms' m' hm' id hid
    cases hob
    rw [hstart]
    refine (hold ms' (hsub ms' (hms' ▸ (List.of_mem_zip hp).2)) m' hm' id hid).under _ ?_
    exact htop p hp _ (List.mem_singleton_self _) o ms' rfl hms' m' hm' id hid
  · have hob' : .pushFrame (KeyFrame.object ob) ∈ t.state.undo := by
      rcases List.mem_append.1 hob with hob | hob
      · exact absurd hob (hes _)
      · exact hob
    obtain ⟨hclosed, hunder⟩ := h.closed ob hob'
    refine ⟨hclosed, fun ms' hms' m' hm' hnot id hid => ?_⟩
    rcases List.mem_append.1 hms' with hms' | hms'
    · exact (hold ms' (hsub ms' hms') m' hm' id hid).under _ (hunder ms' (hsub ms' hms') m' hm' hnot id hid)
    · cases List.mem_singleton.1 hms'
      rcases List.mem_append.1 hm' with hm' | hm'
      · have hmem : some ms ∈ t.fed := hfed ▸ List.mem_append_right _ (List.mem_singleton_self _)
        exact (hold ms hmem m' hm' id hid).under _ (hunder ms hmem m' hm' hnot id hid)
      · -- the new key is late, since an object was closed before it
        rw [List.mem_singleton.1 hm', hlate, hclosed] at hnot
        cases hnot


end Steps

theorem setSlot_setSlot (o : ObjectKeys) (hash : Nat) (slot slot' : Option DynamicSlot) :
    (o.setSlot hash slot).setSlot hash slot' = o.setSlot hash slot' := by
  unfold ObjectKeys.setSlot
  rw [Function.update_idem]

theorem setSlot_self (o : ObjectKeys) (hash : Nat) : o.setSlot hash (o.seenDynamic hash) = o := by
  unfold ObjectKeys.setSlot
  rw [Function.update_eq_self]

theorem setSlot_seenDynamic (o : ObjectKeys) (hash : Nat) (slot : Option DynamicSlot) :
    (o.setSlot hash slot).seenDynamic hash = slot := Function.update_self ..

/-- The ids an object keeps under a hash. -/
def ObjectKeys.idsOf (o : ObjectKeys) (hash : Nat) : List Nat := ((o.seenDynamic hash).map DynamicSlot.ids).getD []

/-- Whatever the bucket held, the new id is the last of it, and the log takes back just that. -/
theorem insertKey_last (s : KeyState) {fs : List KeyFrame} {o : ObjectKeys} (hfs : s.core.frames = fs ++ [.object o])
    (hash : Nat) (key : Key) (id start len : Nat) :
    ∃ slot es, slot.ids = o.idsOf hash ++ [id] ∧ (∀ f, .pushFrame f ∉ es) ∧
      s.insertKey fs.length hash key id start len (classifySlotTransition (o.seenDynamic hash)) =
        ⟨⟨fs ++ [.object (o.setSlot hash (some slot))],
          ⟨s.core.arena.bytes ++ key, s.core.arena.spans ++ [(start, len)]⟩⟩, es ++ s.undo⟩ ∧
      ∀ a, es.foldl KeyCore.undoOne ⟨fs ++ [.object (o.setSlot hash (some slot))], a⟩ =
        ⟨fs ++ [.object o], a.truncate s.core.arena.mark⟩ := by
  unfold KeyState.insertKey
  dsimp only
  rw [hfs]
  cases hslot : o.seenDynamic hash with
  | none =>
    refine ⟨.one id, [.removeSeenDynamicBucket fs.length hash, .internKey s.core.arena.mark.1 s.core.arena.mark.2],
      by simp [ObjectKeys.idsOf, hslot, DynamicSlot.ids], by simp, ?_, fun a => ?_⟩
    · simp only [classifySlotTransition, modifyAt_last]
      rfl
    · simp only [List.foldl_cons, List.foldl_nil, KeyCore.undoOne, modifyAt_last, setSlot_setSlot]
      rw [← hslot, setSlot_self]
  | some slot =>
    cases slot with
    | one existing =>
      refine ⟨.many [existing, id],
        [.restoreSeenDynamicOne fs.length hash existing, .internKey s.core.arena.mark.1 s.core.arena.mark.2],
        by simp [ObjectKeys.idsOf, hslot, DynamicSlot.ids], by simp, ?_, fun a => ?_⟩
      · simp only [classifySlotTransition, modifyAt_last]
        rfl
      · simp only [List.foldl_cons, List.foldl_nil, KeyCore.undoOne, modifyAt_last, setSlot_setSlot]
        rw [← hslot, setSlot_self]
    | many ids =>
      refine ⟨.many (ids ++ [id]),
        [.truncateSeenDynamicMany fs.length hash ids.length, .internKey s.core.arena.mark.1 s.core.arena.mark.2],
        by simp [ObjectKeys.idsOf, hslot, DynamicSlot.ids], by simp, ?_, fun a => ?_⟩
      · simp only [classifySlotTransition, modifyAt_last, hslot, Option.map_some, Option.getD_some, DynamicSlot.ids]
        rfl
      · simp only [List.foldl_cons, List.foldl_nil, KeyCore.undoOne, modifyAt_last, setSlot_setSlot,
          setSlot_seenDynamic, DynamicSlot.truncate, List.take_left]
        rw [← hslot, setSlot_self]

theorem classifyKeyIntern_some {limits : KeyLimits} {arena : KeyArena} {o : ObjectKeys} {key : Key} {hash : Nat}
    {found : Nat × Nat × Nat × SlotTransition}
    (h : classifyKeyIntern limits arena o.seenDynamic key hash = .ok (some found)) :
    (∀ id ∈ o.idsOf hash, arena.get id ≠ some key) ∧
      found = (arena.spans.length, arena.bytes.length, key.length, classifySlotTransition (o.seenDynamic hash)) := by
  unfold classifyKeyIntern at h
  split_ifs at h with hdup hbytes hkey hspans
  · cases h
  have hfound := Option.some.inj (Except.ok.inj h)
  refine ⟨fun id hid hget => hdup ?_, hfound.symm⟩
  unfold ObjectKeys.idsOf at hid
  cases hslot : o.seenDynamic hash with
  | none =>
    rw [hslot] at hid
    cases hid
  | some slot =>
    rw [hslot] at hid
    exact List.any_eq_true.2 ⟨id, hid, beq_iff_eq.2 hget⟩

/-- What an intern that succeeds has checked. -/
theorem internDynamicKey_some {env : KeyEnv} {s s' : KeyState} {depth id : Nat} {o : ObjectKeys} {key : Key}
    {granted : Bool} (h : s.internDynamicKey env depth o key granted = .ok (some (s', id))) :
    (∀ id ∈ o.idsOf (env.hash key), s.core.arena.get id ≠ some key) ∧
    s.core.arena.bytes.length + key.length ≤ env.limits.maxSessionBytes ∧
    (s.core.arena.spans.length + 1) * KeyState.spanBytes ≤ env.limits.maxSessionBytes ∧ id = s.core.arena.spans.length ∧
    s' = s.insertKey depth (env.hash key) key s.core.arena.spans.length s.core.arena.bytes.length key.length
      (classifySlotTransition (o.seenDynamic (env.hash key))) := by
  unfold KeyState.internDynamicKey at h
  cases hc : classifyKeyIntern env.limits s.core.arena o.seenDynamic key (env.hash key) with
  | error e =>
    rw [hc] at h
    cases h
  | ok found =>
    rw [hc] at h
    cases found with
    | none => cases h
    | some found =>
      obtain ⟨hnew, rfl⟩ := classifyKeyIntern_some hc
      dsimp only [bind, Except.bind] at h
      split_ifs at h with hlim
      rw [not_or, not_or, Nat.not_lt, Nat.not_lt] at hlim
      cases h
      exact ⟨hnew, hlim.2.1, hlim.2.2, rfl, rfl⟩

section Objects
variable {env : KeyEnv} {a : KeyArena} {o : ObjectKeys} {ms : List Member}

/-- Every id an object keeps is that of a key it was fed. -/
theorem ObjectOk.mem_idsOf (h : ObjectOk env a o ms) {hash id : Nat} (hid : id ∈ o.idsOf hash) :
    ∃ m ∈ ms, m.id = some id ∧ env.hash m.key = hash := by
  unfold ObjectKeys.idsOf at hid
  cases hslot : o.seenDynamic hash with
  | none =>
    rw [hslot] at hid
    cases hid
  | some slot =>
    rw [hslot] at hid
    exact h.interned hash slot hslot id hid

theorem nodup_keys_append (h : (ms.map Member.key).Nodup) {m : Member} (hm : ∀ m' ∈ ms, m'.key ≠ m.key) :
    ((ms ++ [m]).map Member.key).Nodup := by
  rw [List.map_append, List.map_singleton, List.nodup_append]
  refine ⟨h, List.nodup_singleton _, fun k hk k' hk' => ?_⟩
  obtain ⟨m', hm', rfl⟩ := List.mem_map.1 hk
  rw [List.mem_singleton.1 hk']
  exact hm m' hm'

/-- A name of the plan, seen for the first time. -/
theorem ObjectOk.feedKnown (h : ObjectOk env a o ms) {key : Key} {id : Nat}
    (hlookup : o.knownByName.lookup key = some id) (hseen : o.seenKnown id = false) (late : Bool) :
    ObjectOk env a (o.setKnown id true) (ms ++ [⟨key, none, late⟩]) := by
  have hset : ∀ i, o.seenKnown i = true → (o.setKnown id true).seenKnown i = true := by
    intro i hi
    by_cases hid : i = id
    · exact hid ▸ Function.update_self ..
    · exact (Function.update_of_ne hid ..).trans hi
  refine ⟨fun m hm i hi => ?_, fun m hm i hi => ?_, fun hash slot hslot i hi => ?_, fun m hm hnone => ?_, ?_⟩
  · rcases List.mem_append.1 hm with hm | hm
    · exact h.stored m hm i hi
    · rw [List.mem_singleton.1 hm] at hi
      cases hi
  · rcases List.mem_append.1 hm with hm | hm
    · exact h.slot m hm i hi
    · rw [List.mem_singleton.1 hm] at hi
      cases hi
  · obtain ⟨m, hm, hid⟩ := h.interned hash slot hslot i hi
    exact ⟨m, List.mem_append_left _ hm, hid⟩
  · rcases List.mem_append.1 hm with hm | hm
    · obtain ⟨i, hi, hi'⟩ := h.known m hm hnone
      exact ⟨i, hi, hset i hi'⟩
    · rw [List.mem_singleton.1 hm]
      exact ⟨id, hlookup, Function.update_self ..⟩
  · refine nodup_keys_append h.nodup fun m hm hkey => ?_
    cases hmid : m.id with
    | none =>
      obtain ⟨i, hi, hi'⟩ := h.known m hm hmid
      rw [hkey, hlookup] at hi
      cases hi
      rw [hseen] at hi'
      cases hi'
    | some i =>
      have hnone := (h.slot m hm i hmid).1
      rw [hkey, hlookup] at hnone
      cases hnone

/-- A key the plan does not name, new in its bucket. -/
theorem ObjectOk.feedDynamic (h : ObjectOk env a o ms) (ha : a.bytes.length < u32Size) {key : Key}
    (hlookup : o.knownByName.lookup key = none) (hnew : ∀ id ∈ o.idsOf (env.hash key), a.get id ≠ some key)
    {slot : DynamicSlot} (hslot : slot.ids = o.idsOf (env.hash key) ++ [a.spans.length]) (late : Bool) :
    ObjectOk env ⟨a.bytes ++ key, a.spans ++ [(a.bytes.length, key.length)]⟩ (o.setSlot (env.hash key) (some slot))
      (ms ++ [⟨key, some a.spans.length, late⟩]) := by
  refine ⟨fun m hm i hi => ?_, fun m hm i hi => ?_, fun hash slot' hslot' i hi => ?_, fun m hm hnone => ?_, ?_⟩
  · rcases List.mem_append.1 hm with hm | hm
    · exact (h.stored m hm i hi).append _ _
    · rw [List.mem_singleton.1 hm] at hi ⊢
      cases hi
      refine ⟨a.bytes.length, List.getElem?_concat_length, by simp, ?_⟩
      simp [CountingSort.slice]
  · rcases List.mem_append.1 hm with hm | hm
    · obtain ⟨hnone, slot', hslot', hi'⟩ := h.slot m hm i hi
      refine ⟨hnone, ?_⟩
      by_cases hhash : env.hash m.key = env.hash key
      · refine ⟨slot, hhash ▸ setSlot_seenDynamic .., ?_⟩
        rw [hslot, ← hhash]
        refine List.mem_append_left _ ?_
        unfold ObjectKeys.idsOf
        rw [hslot']
        exact hi'
      · exact ⟨slot', (Function.update_of_ne hhash ..).trans hslot', hi'⟩
    · rw [List.mem_singleton.1 hm] at hi ⊢
      cases hi
      refine ⟨hlookup, slot, setSlot_seenDynamic .., ?_⟩
      rw [hslot]
      exact List.mem_append_right _ (List.mem_singleton_self _)
  · by_cases hhash : hash = env.hash key
    · subst hhash
      rw [setSlot_seenDynamic] at hslot'
      cases hslot'
      rw [hslot] at hi
      rcases List.mem_append.1 hi with hi | hi
      · obtain ⟨m, hm, hid⟩ := h.mem_idsOf hi
        exact ⟨m, List.mem_append_left _ hm, hid⟩
      · refine ⟨_, List.mem_append_right _ (List.mem_singleton_self _), ?_, rfl⟩
        rw [List.mem_singleton.1 hi]
    · have hold : o.seenDynamic hash = some slot' := (Function.update_of_ne hhash ..).symm.trans hslot'
      obtain ⟨m, hm, hid⟩ := h.interned hash slot' hold i hi
      exact ⟨m, List.mem_append_left _ hm, hid⟩
  · rcases List.mem_append.1 hm with hm | hm
    · exact h.known m hm hnone
    · rw [List.mem_singleton.1 hm] at hnone
      cases hnone
  · refine nodup_keys_append h.nodup fun m hm hkey => ?_
    cases hmid : m.id with
    | none =>
      obtain ⟨i, hi, -⟩ := h.known m hm hmid
      rw [hkey, hlookup] at hi
      cases hi
    | some i =>
      obtain ⟨-, slot', hslot', hi'⟩ := h.slot m hm i hmid
      have hget := (h.stored m hm i hmid).get ha
      rw [hkey] at hslot' hget
      refine hnew i ?_ hget
      unfold ObjectKeys.idsOf
      rw [hslot']
      exact hi'

end Objects
theorem Keeps.append {a : KeyArena} {id : Nat} {k : Key} (h : Stored a id k) (bytes : List Byte)
    (spans : List (Nat × Nat)) :
    Keeps a ⟨a.bytes ++ bytes, a.spans ++ spans⟩ id :=
  ⟨fun _ hk => hk.append _ _, fun _ hm => hm.append h.lt _ _⟩

section Steps
variable {env : KeyEnv} {t : KeyTrace}

/-- The innermost frame is an object: the other frames, and what it was fed. -/
theorem KeyInv.innermost (h : KeyInv env t) {o : ObjectKeys} (hlast : t.state.core.frames.getLast? = some (.object o)) :
    ∃ fs r ms, t.state.core.frames = fs ++ [.object o] ∧ t.fed = r ++ [some ms] ∧
      ObjectOk env t.state.core.arena o ms := by
  obtain ⟨fs, hfs⟩ := eq_append_of_getLast? hlast
  have hframes := h.frames
  rw [hfs] at hframes
  obtain ⟨r, y, hr, -, hxy⟩ := forall₂_append_singleton hframes
  cases hxy with
  | object hok => exact ⟨fs, r, _, hfs, hr, hok⟩

theorem feed_last {r : List (Option (List Member))} {ms : List Member} (hfed : t.fed = r ++ [some ms])
    (state : KeyState) (key : Key) (id : Option Nat) :
    t.feed state key id = ⟨state, r ++ [some (ms ++ [⟨key, id, t.closed⟩])], t.closed⟩ := by
  unfold KeyTrace.feed
  rw [hfed, List.length_append, List.length_singleton, Nat.add_sub_cancel, modify_last]
  rfl

theorem KeyInv.known (h : KeyInv env t) {o : ObjectKeys} (hlast : t.state.core.frames.getLast? = some (.object o))
    {key : Key} {id : Nat} (hlookup : o.knownByName.lookup key = some id) (hseen : o.seenKnown id = false) :
    let depth := t.state.core.frames.length - 1
    let state : KeyState := ⟨t.state.core.modifyAt depth (ObjectKeys.setKnown id true),
      .removeSeenKnown depth id :: t.state.undo⟩
    KeyInv env (t.feed state key none) ∧ Logged t (t.feed state key none) := by
  intro depth state
  obtain ⟨fs, r, ms, hfs, hfed, hok⟩ := h.innermost hlast
  have hdepth : depth = fs.length := by
    show t.state.core.frames.length - 1 = _
    rw [hfs, List.length_append, List.length_singleton, Nat.add_sub_cancel]
  have hcore : t.state.core = ⟨fs ++ [.object o], t.state.core.arena⟩ := by rw [← hfs]
  have hstate : state = ⟨⟨fs ++ [.object (o.setKnown id true)], t.state.core.arena⟩,
      [.removeSeenKnown fs.length id] ++ t.state.undo⟩ := by
    show (⟨t.state.core.modifyAt depth _, _⟩ : KeyState) = _
    rw [hdepth, hcore, modifyAt_last]
    rfl
  rw [feed_last hfed, hstate]
  refine h.feed hfs hfed rfl rfl (hok.feedKnown hlookup hseen t.closed) (fun id k _ => ⟨fun _ h => h, fun _ h => h⟩)
    h.bytes h.spans (by simp) ?_
  simp only [List.foldl_cons, List.foldl_nil, KeyCore.undoOne, modifyAt_last]
  have hback : (o.setKnown id true).setKnown id false = o := by
    unfold ObjectKeys.setKnown
    rw [Function.update_idem, ← hseen, Function.update_eq_self]
  rw [hback, ← hcore]

theorem KeyInv.intern (h : KeyInv env t) (hf : env.Fits) {o : ObjectKeys}
    (hlast : t.state.core.frames.getLast? = some (.object o)) {key : Key} (hlookup : o.knownByName.lookup key = none)
    {granted : Bool} {s' : KeyState} {id : Nat}
    (hs : t.state.internDynamicKey env (t.state.core.frames.length - 1) o key granted = .ok (some (s', id))) :
    KeyInv env (t.feed s' key (some id)) ∧ Logged t (t.feed s' key (some id)) := by
  obtain ⟨fs, r, ms, hfs, hfed, hok⟩ := h.innermost hlast
  obtain ⟨hnew, hbytes, hspans, rfl, rfl⟩ := internDynamicKey_some hs
  have hdepth : t.state.core.frames.length - 1 = fs.length := by
    rw [hfs, List.length_append, List.length_singleton, Nat.add_sub_cancel]
  obtain ⟨slot, es, hslot, hes, hstate, hundo⟩ := insertKey_last t.state hfs (env.hash key) key
    t.state.core.arena.spans.length t.state.core.arena.bytes.length key.length
  rw [hdepth, hstate, feed_last hfed]
  refine h.feed hfs hfed rfl rfl (hok.feedDynamic ?_ hlookup hnew hslot t.closed) (fun id k hk => Keeps.append hk _ _)
    ?_ ?_ hes ?_
  · exact Nat.lt_of_le_of_lt h.bytes hf
  · rw [List.length_append]
    exact hbytes
  · rw [List.length_append]
    exact hspans
  · rw [hundo, h.mark_eq hf, ← hfs]
    unfold KeyArena.truncate
    rw [List.take_left, List.take_left]

theorem KeyInv.resolveKey (h : KeyInv env t) (hf : env.Fits) (key : Key) (granted : Bool) :
    KeyInv env (t.act env (.resolveKey key granted)) ∧ Logged t (t.act env (.resolveKey key granted)) := by
  rw [KeyTrace.act]
  cases hr : t.state.resolveKey env key granted with
  | error e => exact ⟨h, Logged.refl t⟩
  | ok found =>
    cases found with
    | none => exact ⟨h, Logged.refl t⟩
    | some found =>
      obtain ⟨s', id⟩ := found
      dsimp only
      unfold KeyState.resolveKey at hr
      split at hr
      case h_2 => cases hr
      case h_1 o hlast =>
        split at hr
        case h_1 i hlookup =>
          split_ifs at hr with hseen
          · cases hr
          cases hr
          exact h.known hlast hlookup (Bool.eq_false_iff.2 hseen)
        case h_2 hlookup =>
          cases hi : t.state.internDynamicKey env (t.state.core.frames.length - 1) o key granted with
          | error e =>
            rw [hi] at hr
            cases hr
          | ok found =>
            rw [hi] at hr
            cases found with
            | none => cases hr
            | some found =>
              cases hr
              exact h.intern hf hlast hlookup hi

end Steps

mutual

/-- **Every operation keeps the invariant and can be taken back; an attempt leaves no trace.** -/
theorem KeyInv.act {env : KeyEnv} (hf : env.Fits) {t : KeyTrace} (h : KeyInv env t) :
    ∀ a : KeyAct, KeyInv env (t.act env a) ∧ Logged t (t.act env a)
  | .openObject knownByName => h.openObject hf knownByName
  | .pushFrame => h.pushFrame
  | .popFrame => h.popFrame
  | .resolveKey key granted => h.resolveKey hf key granted
  | .attempt acts => by
    have hback : t.act env (.attempt acts) = t := by
      rw [KeyTrace.act, (KeyInv.acts hf h acts).2.rollback]
    rw [hback]
    exact ⟨h, Logged.refl t⟩

theorem KeyInv.acts {env : KeyEnv} (hf : env.Fits) {t : KeyTrace} (h : KeyInv env t) :
    ∀ as : List KeyAct, KeyInv env (t.acts' env as) ∧ Logged t (t.acts' env as)
  | [] => by
    rw [KeyTrace.acts']
    exact ⟨h, Logged.refl t⟩
  | a :: as => by
    rw [KeyTrace.acts']
    obtain ⟨h1, l1⟩ := KeyInv.act hf h a
    obtain ⟨h2, l2⟩ := KeyInv.acts hf h1 as
    exact ⟨h2, l1.trans l2⟩

end

/-! ## Commit -/

theorem Under.minMark {a : KeyArena} {id : Nat} {m : Nat × Nat} (h : Under a id m) {r : Option (Nat × Nat)}
    (hr : ∀ m', r = some m' → Under a id m') : Under a id (KeyState.minMark m r) := by
  cases r with
  | none => exact h
  | some m' =>
    have h' := hr m' rfl
    exact ⟨Nat.lt_min.2 ⟨h'.1, h.1⟩, fun span hspan => Nat.le_min.2 ⟨h'.2 span hspan, h.2 span hspan⟩⟩

/-- What lies below the mark of every object in the log lies below the mark a commit goes back to. -/
theorem Under.reclaimTo {a : KeyArena} {id : Nat} : ∀ (log : List KeyUndo) (r : Option (Nat × Nat)),
    (∀ o, .pushFrame (.object o) ∈ log → Under a id o.arenaStart) → (∀ m, r = some m → Under a id m) →
    ∀ m, KeyState.reclaimTo log r = some m → Under a id m
  | [], r, _, hr, m, hm => hr m hm
  | e :: log, r, hlog, hr, m, hm => by
    have hlog' : ∀ o, .pushFrame (KeyFrame.object o) ∈ log → Under a id o.arenaStart :=
      fun o ho => hlog o (List.mem_cons_of_mem _ ho)
    by_cases hobject : ∃ o, e = .pushFrame (.object o)
    · obtain ⟨o, rfl⟩ := hobject
      refine Under.reclaimTo log _ hlog' (fun m' hm' => ?_) m hm
      cases hm'
      exact (hlog o List.mem_cons_self).minMark hr
    · refine Under.reclaimTo log r hlog' hr m (hm ▸ ?_)
      rw [KeyState.reclaimTo.eq_3]
      rintro o rfl
      exact hobject ⟨o, rfl⟩

theorem KeyInv.commit {env : KeyEnv} {t : KeyTrace} (h : KeyInv env t) (hsafe : t.Safe) :
    KeyInv env { t with state := t.state.commit, closed := false } := by
  unfold KeyState.commit
  cases hm : KeyState.reclaimTo t.state.undo none with
  | none => exact ⟨h.bytes, h.spans, h.frames, h.stack, fun o ho => by cases ho⟩
  | some m =>
    have hkeeps : ∀ ms, some ms ∈ t.fed → ∀ mem ∈ ms, ∀ id, mem.id = some id →
        Keeps t.state.core.arena (t.state.core.arena.truncate m) id := by
      intro ms hms mem hmem id hid
      have hnot := hsafe ms hms mem hmem (hid ▸ rfl)
      have hunder : Under t.state.core.arena id m := Under.reclaimTo t.state.undo none
        (fun o ho => (h.closed o ho).2 ms hms mem hmem hnot id hid) (fun m' hm' => by cases hm') m hm
      exact ⟨fun k hk => hk.truncate hunder, fun m' hm' => hm'.truncate⟩
    obtain ⟨hframes, hstack⟩ := frames_keep h.frames h.stack hkeeps
    refine ⟨?_, ?_, hframes, hstack, fun o ho => by cases ho⟩
    · exact Nat.le_trans (List.length_take_le' ..) h.bytes
    · exact Nat.le_trans (Nat.mul_le_mul_right _ (List.length_take_le' ..)) h.spans

/-! ## Runs -/

/-- No token that is taken leaves open an object into which it interned a key after it had closed an object. -/
def SafeRun (env : KeyEnv) : KeyTrace → List (List KeyAct × Bool) → Prop
  | _, [] => True
  | t, (acts, taken) :: rest => (taken = true → (t.acts' env acts).Safe) ∧ SafeRun env (t.advance env acts taken) rest

instance (t : KeyTrace) : Decidable t.Safe :=
  decidable_of_iff (∀ y ∈ t.fed, ∀ ms ∈ y, ∀ m ∈ ms, m.id.isSome → m.late = false)
    ⟨fun h ms hms => h (some ms) hms ms rfl, fun h _ hy ms hms => h ms (Option.mem_def.1 hms ▸ hy)⟩

instance SafeRun.decidable (env : KeyEnv) : ∀ (t : KeyTrace) (tokens : List (List KeyAct × Bool)),
    Decidable (SafeRun env t tokens)
  | _, [] => inferInstanceAs (Decidable True)
  | t, (acts, taken) :: rest =>
    have := SafeRun.decidable env (t.advance env acts taken) rest
    inferInstanceAs (Decidable (_ ∧ _))

theorem KeyInv.advance {env : KeyEnv} (hf : env.Fits) {t : KeyTrace} (h : KeyInv env t) (acts : List KeyAct)
    (taken : Bool) (hsafe : taken = true → (t.acts' env acts).Safe) : KeyInv env (t.advance env acts taken) := by
  unfold KeyTrace.advance
  cases taken with
  | true => exact (h.acts hf acts).1.commit (hsafe rfl)
  | false => exact (h.act hf (.attempt acts)).1

theorem KeyInv.run {env : KeyEnv} (hf : env.Fits) :
    ∀ (tokens : List (List KeyAct × Bool)) {t : KeyTrace}, KeyInv env t →
    SafeRun env t tokens → KeyInv env (t.run env tokens)
  | [], _, h, _ => h
  | (acts, taken) :: rest, _, h, hsafe => KeyInv.run hf rest (h.advance hf acts taken hsafe.1) hsafe.2

theorem KeyInv.initial (env : KeyEnv) : KeyInv env .initial :=
  ⟨Nat.zero_le _, Nat.zero_le _, .nil, .nil, fun o ho => by cases ho⟩

/-- Every id an open object keeps resolves to the key it was interned for, and no two of its keys are the same. -/
def KeysResolve (a : KeyArena) : KeyFrame → Option (List Member) → Prop
  | .object o, some ms => (∀ hash slot, o.seenDynamic hash = some slot → ∀ id ∈ slot.ids,
      (∃ m ∈ ms, m.id = some id) ∧ ∀ m ∈ ms, m.id = some id → a.get id = some m.key) ∧ (ms.map Member.key).Nodup
  | .other, none => True
  | _, _ => False

theorem FrameOk.keysResolve {env : KeyEnv} {a : KeyArena} (ha : a.bytes.length < u32Size) {f : KeyFrame}
    {y : Option (List Member)} (h : FrameOk env a f y) : KeysResolve a f y := by
  cases h with
  | other => trivial
  | object h =>
    refine ⟨fun hash slot hslot id hid => ⟨?_, fun m hm hmid => (h.stored m hm id hmid).get ha⟩, h.nodup⟩
    obtain ⟨m, hm, hmid, -⟩ := h.interned hash slot hslot id hid
    exact ⟨m, hm, hmid⟩

/-- **In a run whose tokens intern no key into an object they leave open after closing another, interned keys never
dangle and no object is fed a key twice.**  It holds between any two operations, not only between tokens. -/
theorem keys_resolve (env : KeyEnv) (hf : env.Fits) (tokens : List (List KeyAct × Bool))
    (hsafe : SafeRun env .initial tokens) (acts : List KeyAct) :
    let t := (KeyTrace.initial.run env tokens).acts' env acts
    List.Forall₂ (KeysResolve t.state.core.arena) t.state.core.frames t.fed := by
  intro t
  have h : KeyInv env t := (((KeyInv.initial env).run hf tokens hsafe).acts hf acts).1
  exact h.frames.imp fun f y hfy => hfy.keysResolve (Nat.lt_of_le_of_lt h.bytes hf)

/-- A small hasher under the default limits. -/
def sumKeys : KeyEnv := ⟨List.foldl (fun h b => h + b.toNat) 0, ⟨8388608, 1048576, 100000⟩⟩

/-- The key operations of `{"a":{`, `}`, `,"b":1,` and `"c":2`, under an object schema that names no property. -/
def splitTokens : List (List KeyAct × Bool) :=
  [([.openObject [], .resolveKey [97] true, .openObject []], true), ([.popFrame], true),
    ([.resolveKey [98] true, .pushFrame, .popFrame], true), ([.resolveKey [99] true, .pushFrame, .popFrame], true)]

theorem keys_resolve_split : sumKeys.Fits ∧ SafeRun sumKeys .initial splitTokens ∧
    let t := (KeyTrace.initial.run sumKeys splitTokens).acts' sumKeys [.attempt [.resolveKey [98] true]]
    List.Forall₂ (KeysResolve t.state.core.arena) t.state.core.frames t.fed :=
  have hf : sumKeys.Fits := by
    unfold KeyEnv.Fits
    decide
  have hsafe : SafeRun sumKeys .initial splitTokens := by decide
  ⟨hf, hsafe, keys_resolve sumKeys hf splitTokens hsafe [.attempt [.resolveKey [98] true]]⟩

/-- The key operations of `{"a":{`, `},"b":1,` and `"b":2`, under the same schema. -/
def joinedTokens : List (List KeyAct × Bool) :=
  [([.openObject [], .resolveKey [97] true, .openObject []], true),
    ([.popFrame, .resolveKey [98] true, .pushFrame, .popFrame], true),
    ([.resolveKey [98] true, .pushFrame, .popFrame], true)]

/-- The second token interns `b` after it closed the inner object: its commit gives the span of `b` back, and the third
token feeds `b` to the same object again. -/
theorem keys_dangle : sumKeys.Fits ∧ (∀ token ∈ joinedTokens, token.2 = true) ∧
    (∃ o, .object o ∈ (KeyTrace.initial.run sumKeys (joinedTokens.take 2)).state.core.frames ∧
      o.seenDynamic 98 = some (.one 1) ∧
      (KeyTrace.initial.run sumKeys (joinedTokens.take 2)).state.core.arena.get 1 = none) ∧
    (KeyTrace.initial.run sumKeys joinedTokens).fed.map (Option.map (List.map Member.key)) =
      [some [[97], [98], [98]]] := by
  refine ⟨?_, by decide, ⟨_, List.mem_singleton_self _, rfl, by decide⟩, by decide⟩
  unfold KeyEnv.Fits
  decide

end MaskForge
