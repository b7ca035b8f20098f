import MaskForge.Structured.CanonicalSet
/-!
# CanonicalSteps — what the primitive steps do

One lemma for each step that adds to the arena or asks for room: the state it ends in, exactly, where it succeeds;
where it fails, that it changed nothing but the memory and the end of the arena, and that the room was refused or a
count is too large.
-/
namespace MaskForge

/-- One arena continues another. -/
structure CanonicalArena.Grows (a b : CanonicalArena) : Prop where
  nodes : a.nodes <+: b.nodes
  bytes : a.bytes <+: b.bytes
  children : a.children <+: b.children
  entries : a.entries <+: b.entries

namespace CanonicalArena.Grows

variable {a b c : CanonicalArena}

theorem refl (a : CanonicalArena) : a.Grows a := ⟨List.prefix_rfl, List.prefix_rfl, List.prefix_rfl, List.prefix_rfl⟩

theorem trans (h : a.Grows b) (h' : b.Grows c) : a.Grows c :=
  ⟨h.nodes.trans h'.nodes, h.bytes.trans h'.bytes, h.children.trans h'.children, h.entries.trans h'.entries⟩

/-- **An arena is cut back to what it was at the mark.** -/
theorem restore (h : a.Grows b) : b.restore a.mark = a := by
  unfold CanonicalArena.restore CanonicalArena.mark
  rw [← List.prefix_iff_eq_take.1 h.nodes, ← List.prefix_iff_eq_take.1 h.bytes, ← List.prefix_iff_eq_take.1 h.children,
    ← List.prefix_iff_eq_take.1 h.entries]

theorem pushBytes (a : CanonicalArena) (extra : List Byte) : a.Grows { a with bytes := a.bytes ++ extra } :=
  ⟨List.prefix_rfl, List.prefix_append _ _, List.prefix_rfl, List.prefix_rfl⟩

theorem pushNode (a : CanonicalArena) (node : CanonicalNode) : a.Grows { a with nodes := a.nodes ++ [node] } :=
  ⟨List.prefix_append _ _, List.prefix_rfl, List.prefix_rfl, List.prefix_rfl⟩

theorem pushChildren (a : CanonicalArena) (items : List CanonicalId) :
    a.Grows { a with children := a.children ++ items } :=
  ⟨List.prefix_rfl, List.prefix_rfl, List.prefix_append _ _, List.prefix_rfl⟩

theorem pushEntries (a : CanonicalArena) (items : List ObjectEntry) :
    a.Grows { a with entries := a.entries ++ items } :=
  ⟨List.prefix_rfl, List.prefix_rfl, List.prefix_rfl, List.prefix_append _ _⟩

/-- Only what stands from the place on is sorted. -/
theorem sortEntries (h : a.Grows b) {start : Nat} (hstart : a.entries.length ≤ start) :
    a.Grows (b.sortEntriesFrom start) := by
  refine ⟨h.nodes, h.bytes, h.children, ?_⟩
  refine List.IsPrefix.trans ?_ (List.prefix_append (b.entries.take start) _)
  rw [List.prefix_take_iff]
  exact ⟨h.entries, hstart⟩

end CanonicalArena.Grows

/-- A list of the arena is as long as its indices can count. -/
def CanonicalArena.Full (a : CanonicalArena) : Prop :=
  u32Size ≤ a.nodes.length ∨ u32Size ≤ a.bytes.length ∨ u32Size ≤ a.children.length ∨ u32Size ≤ a.entries.length

/-- What the memory answers when it has no room. -/
def Room.Refuses {μ : Type} (room : Room μ) (e : CanonicalError) : Prop :=
  ∃ (r : RoomError) (m : μ), e = .limit r.kind r.observed r.limit ∧
    ((∃ budget, (room.setBudget budget m).1 = .error r) ∨
      (∃ store budget len additional, (room.grow store budget len additional m).1 = .error r) ∨
      ∃ budget, (room.start budget m).1 = .error r)

namespace Building

open Attempt (Ends)

variable {μ : Type} {room : Room μ} {budget : Nat} {s t u : CanonicalSet μ}

/-- Nothing but the memory and the end of the arena is different. -/
structure Quiet (s t : CanonicalSet μ) : Prop where
  arena : s.arena.Grows t.arena
  builder : t.builder = s.builder
  buckets : t.buckets = s.buckets

theorem Quiet.refl (s : CanonicalSet μ) : Quiet s s := ⟨.refl _, rfl, rfl⟩

theorem Quiet.trans (h : Quiet s t) (h' : Quiet t u) : Quiet s u :=
  ⟨h.arena.trans h'.arena, h'.builder.trans h.builder, h'.buckets.trans h.buckets⟩

/-- Why a step fails that has a value to make. -/
def Failed (room : Room μ) (s : CanonicalSet μ) (e : CanonicalError) (t : CanonicalSet μ) : Prop :=
  Quiet s t ∧ (room.Refuses e ∨ t.arena.Full)

theorem Failed.after {e : CanonicalError} (h : Failed room t e u) (hq : Quiet s t) : Failed room s e u :=
  ⟨hq.trans h.1, h.2⟩

/-! ### Requests -/

/-- A request that the memory answers in one way or the other. -/
theorem ask_ends {α : Type} {x : Attempt μ RoomError α} (hx : ∀ (m : μ) (r : RoomError), (x m).1 = .error r →
    room.Refuses (.limit r.kind r.observed r.limit)) :
    Ends (ask x) s (fun _ t => ∃ m, t = { s with mem := m }) (Failed room s) := by
  refine .of (fun a t h => ⟨(x s.mem).2, (congrArg Prod.snd h).symm⟩) fun e t h => ?_
  have ht : t = { s with mem := (x s.mem).2 } := (congrArg Prod.snd h).symm
  have he := congrArg Prod.fst h
  rw [ask] at he
  dsimp only at he
  split at he
  · cases he
  · rename_i r hr
    cases he
    rw [ht]
    exact ⟨⟨.refl _, rfl, rfl⟩, .inl (hx _ r hr)⟩

theorem grow_ends (store : Store) (len additional : Nat) :
    Ends (ask (room.grow store budget len additional)) s (fun _ t => ∃ m, t = { s with mem := m }) (Failed room s) :=
  ask_ends fun m r h => ⟨r, m, rfl, .inr (.inl ⟨_, _, _, _, h⟩)⟩

theorem setBudget_ends :
    Ends (ask (room.setBudget budget)) s (fun _ t => ∃ m, t = { s with mem := m }) (Failed room s) :=
  ask_ends fun m r h => ⟨r, m, rfl, .inl ⟨_, h⟩⟩

theorem checkedU32_ends {n : Nat} (hfull : u32Size ≤ n → s.arena.Full) :
    Ends (checkedU32 budget n) s (fun id t => id = n ∧ t = s) (Failed room s) := by
  unfold checkedU32
  split
  · exact .pure ⟨rfl, rfl⟩
  · rename_i h
    exact ⟨.refl s, .inr (hfull (by omega))⟩

/-! ### What is added -/

theorem pushBytes_ends (extra : List Byte) : Ends (pushBytes room budget extra) s
    (fun _ t => ∃ m, t = { s with mem := m, arena := { s.arena with bytes := s.arena.bytes ++ extra } })
    (Failed room s) := by
  unfold pushBytes
  split
  · rename_i h
    refine .pure ⟨s.mem, ?_⟩
    rw [List.isEmpty_iff.1 h, List.append_nil]
  · refine .bind (.get (.bind ((grow_ends _ _ _).mono ?_ fun _ _ h => h)))
    rintro _ _ ⟨m, rfl⟩
    exact .modify ⟨m, rfl⟩

theorem pushNode_ends (node : CanonicalNode) : Ends (pushNode room budget node) s
    (fun id t => id = s.arena.nodes.length ∧ ∃ m, t =
      { s with mem := m, arena := { s.arena with nodes := s.arena.nodes ++ [node] } })
    (Failed room s) := by
  refine .bind (.get (.seq (grow_ends _ _ _) (fun _ _ h => h) ?_))
  rintro _ _ ⟨m, rfl⟩
  refine .seq (checkedU32_ends (fun h => .inl h)) (fun _ _ h => h.after ⟨.refl _, rfl, rfl⟩) ?_
  rintro _ _ ⟨rfl, rfl⟩
  exact .bind (.modify (.pure ⟨rfl, m, rfl⟩))

theorem pushChildrenBatch_ends (items : List CanonicalId) : Ends (pushChildrenBatch room budget items) s
    (fun _ t => ∃ m, t = { s with mem := m, arena := { s.arena with children := s.arena.children ++ items } })
    (Failed room s) := by
  refine .bind (.get (.seq (grow_ends _ _ _) (fun _ _ h => h) ?_))
  rintro _ _ ⟨m, rfl⟩
  exact .modify ⟨m, rfl⟩

theorem pushEntriesBatch_ends (items : List ObjectEntry) : Ends (pushEntriesBatch room budget items) s
    (fun _ t => ∃ m, t = { s with mem := m, arena := { s.arena with entries := s.arena.entries ++ items } })
    (Failed room s) := by
  refine .bind (.get (.seq (grow_ends _ _ _) (fun _ _ h => h) ?_))
  rintro _ _ ⟨m, rfl⟩
  exact .modify ⟨m, rfl⟩

theorem textStart_ends : Ends (textStart budget) s (fun n t => n = s.arena.bytes.length ∧ t = s) (Failed room s) :=
  .bind (.get (checkedU32_ends fun h => .inr (.inl h)))

theorem pushSpan_ends (bytes : List Byte) : Ends (pushSpan room budget bytes) s
    (fun span t => span = ⟨s.arena.bytes.length, bytes.length⟩ ∧
      ∃ m, t = { s with mem := m, arena := { s.arena with bytes := s.arena.bytes ++ bytes } }) (Failed room s) := by
  refine .bind (.get (.seq (checkedU32_ends fun h => .inr (.inl h)) (fun _ _ h => h) ?_))
  rintro _ _ ⟨rfl, rfl⟩
  refine .seq (pushBytes_ends bytes) (fun _ _ h => h) ?_
  rintro _ _ ⟨m, rfl⟩
  refine .seq (checkedU32_ends fun h => .inr (.inl ?_)) (fun _ _ h => h.after ⟨.pushBytes _ _, rfl, rfl⟩) ?_
  · rw [List.length_append]
    omega
  rintro _ _ ⟨rfl, rfl⟩
  exact .pure ⟨rfl, m, rfl⟩

theorem pushItemBytes_ends (extra : List Byte) : Ends (pushItemBytes room budget extra) s
    (fun _ t => ∃ m, t = { s with mem := m, arena := { s.arena with bytes := s.arena.bytes ++ extra } })
    (Failed room s) := by
  refine .seq setBudget_ends (fun _ _ h => h) ?_
  rintro budget' _ ⟨m, rfl⟩
  exact (pushBytes_ends extra).mono (fun _ _ h => h) fun _ _ h => h.after ⟨.refl _, rfl, rfl⟩

theorem pushItemNode_ends (node : CanonicalNode) : Ends (pushItemNode room budget node) s
    (fun id t => id = s.arena.nodes.length ∧ ∃ m, t =
      { s with mem := m, arena := { s.arena with nodes := s.arena.nodes ++ [node] } })
    (Failed room s) := by
  refine .seq setBudget_ends (fun _ _ h => h) ?_
  rintro budget' _ ⟨m, rfl⟩
  exact (pushNode_ends node).mono (fun _ _ h => h) fun _ _ h => h.after ⟨.refl _, rfl, rfl⟩

/-! ### What is written down -/

theorem reserveRecord_ends :
    Ends (reserveRecord room budget) s (fun _ t => ∃ m, t = { s with mem := m }) (Failed room s) :=
  .bind (.get (grow_ends _ _ _))

theorem record_ends (entry : BuilderUndo) : Ends (record room budget entry) s
    (fun _ t => ∃ m, t = { s with mem := m, builder := { s.builder with undo := s.builder.undo ++ [entry] } })
    (Failed room s) := by
  refine .seq reserveRecord_ends (fun _ _ h => h) ?_
  rintro _ _ ⟨m, rfl⟩
  exact .modify ⟨m, rfl⟩

theorem reserveStack_ends :
    Ends (reserveStack room budget) s (fun _ t => ∃ m, t = { s with mem := m }) (Failed room s) :=
  .bind (.get (grow_ends _ _ _))

end Building
end MaskForge
