import MaskForge.Structured.CanonicalCost
import MaskForge.Structured.CanonicalIdentity
import MaskForge.Structured.CanonicalReading
/-!
# CanonicalTracks — the builder follows the values it builds

An open frame holds what has been read of it: the text of a scalar or a string is the end of the bytes, the items and
members of a container are nodes that stand for values.  Every turn of the builder is the turn on the values
themselves, as long as there is room.
-/
namespace MaskForge
namespace Building

open Attempt (Ends)

/-! ### What frames hold -/

/-- What an object has read of its next member. -/
def PhaseHolds (a : CanonicalArena) : ObjectBuildPhase → KeyPhase → Prop
  | .keyOrClose, .keyOrClose => True
  | .colon span, .colon key | .value span, .value key => a.Spells span key
  | _, _ => False

def MemberHolds (a : CanonicalArena) (e : ObjectEntry) (m : List Byte × CanonicalValue) : Prop :=
  a.Spells e.key m.1 ∧ a.Means e.value m.2

/-- An open container. -/
def PartHolds (a : CanonicalArena) : BuildFrame → Part → Prop
  | .array ids, .array items => List.Forall₂ a.Means ids items
  | .object phase entries, .object phase' members => PhaseHolds a phase phase' ∧
      List.Forall₂ (MemberHolds a) entries members
  | _, _ => False

/-- The text of a scalar: of a number it is the end of the bytes, of a literal it is known from the phase or the tag. -/
def TextHolds (a : CanonicalArena) (phase : ScalarPhase) (start : Nat) (text : List Byte) : Prop :=
  match phase with
  | .beforeValue => text = []
  | .number _ => start ≤ a.bytes.length ∧ a.bytes.drop start = text
  | .trueAt n => text = literalTrue.take n
  | .falseAt n => text = literalFalse.take n
  | .nullAt n => text = literalNull.take n
  | .literalDone => start = 1 ∧ text = literalTrue ∨ start = 2 ∧ text = literalFalse ∨ start = 3 ∧ text = literalNull

/-- The innermost frame. -/
def TopHolds (a : CanonicalArena) : BuildFrame → Part → Prop
  | .scalar phase start, .scalar phase' text => phase = phase' ∧ TextHolds a phase start text
  | .str decoder start asKey, .str decoder' text asKey' =>
    decoder = decoder' ∧ asKey = asKey' ∧ start ≤ a.bytes.length ∧ a.bytes.drop start = text
  | frame, part => PartHolds a frame part

/-- **The builder holds what has been read.** -/
inductive Tracks {μ : Type} (s : CanonicalSet μ) : Draft → Prop
  | opened {below : List BuildFrame} {frame : BuildFrame} {part : Part} {parts : List Part}
    (stack : s.builder.stack = below ++ [frame])
      (root : s.builder.root = none) (top : TopHolds s.arena frame part)
      (rest : List.Forall₂ (PartHolds s.arena) below.reverse parts) :
      Tracks s ⟨part :: parts, none⟩
  | complete {id : CanonicalId} {v : CanonicalValue} (stack : s.builder.stack = []) (root : s.builder.root = some id)
      (means : s.arena.Means id v) : Tracks s ⟨[], some v⟩

section
variable {a b : CanonicalArena}

theorem PhaseHolds.grows (hg : a.Grows b) {phase : ObjectBuildPhase} {phase' : KeyPhase}
    (h : PhaseHolds a phase phase') : PhaseHolds b phase phase' := by
  cases phase <;> cases phase' <;> first | exact h | exact CanonicalArena.Spells.grows h hg

theorem MemberHolds.grows (hg : a.Grows b) {e : ObjectEntry} {m : List Byte × CanonicalValue} (h : MemberHolds a e m) :
    MemberHolds b e m :=
  ⟨h.1.grows hg, h.2.grows hg⟩

theorem PartHolds.grows (hg : a.Grows b) {frame : BuildFrame} {part : Part} (h : PartHolds a frame part) :
    PartHolds b frame part := by
  cases frame <;> cases part <;> try exact h.elim
  case array.array => exact List.Forall₂.imp (fun _ _ h => h.grows hg) h
  case object.object => exact ⟨h.1.grows hg, h.2.imp fun _ _ h => h.grows hg⟩

theorem partsHold_grows (hg : a.Grows b) {frames : List BuildFrame} {parts : List Part}
    (h : List.Forall₂ (PartHolds a) frames parts) :
    List.Forall₂ (PartHolds b) frames parts := h.imp fun _ _ h => h.grows hg

/-- A container is innermost when what was inside of it is complete. -/
theorem partsHold_last {stack : List BuildFrame} {part : Part} {parts : List Part}
    (h : List.Forall₂ (PartHolds a) stack.reverse (part :: parts)) :
    ∃ below frame, stack = below ++ [frame] ∧ PartHolds a frame part ∧
    List.Forall₂ (PartHolds a) below.reverse parts := by
  rcases List.eq_nil_or_concat' stack with rfl | ⟨below, frame, rfl⟩
  · cases h
  · rw [List.reverse_append, List.reverse_singleton, List.singleton_append] at h
    cases h with
    | cons hframe hrest => exact ⟨below, frame, rfl, hframe, hrest⟩

theorem PartHolds.top {frame : BuildFrame} {part : Part} (h : PartHolds a frame part) : TopHolds a frame part := by
  cases frame <;> cases part <;> first | exact h | exact h.elim

end

variable {μ : Type} {room : Room μ} {budget : Nat} {s t : CanonicalSet μ}

/-- Why the builder stops at an item that is well formed. -/
def Stops (room : Room μ) (e : CanonicalError) (t : CanonicalSet μ) : Prop := room.Refuses e ∨ t.arena.Full

theorem Failed.stops {e : CanonicalError} (h : Failed room s e t) : Stops room e t := h.2

/-- The frames are the same, and the arena has only grown. -/
structure Continues (s t : CanonicalSet μ) : Prop where
  arena : s.arena.Grows t.arena
  stack : t.builder.stack = s.builder.stack
  root : t.builder.root = s.builder.root

namespace Continues

variable {u : CanonicalSet μ}

theorem refl (s : CanonicalSet μ) : Continues s s := ⟨.refl _, rfl, rfl⟩

theorem trans (h : Continues s t) (h' : Continues t u) : Continues s u :=
  ⟨h.arena.trans h'.arena, h'.stack.trans h.stack, h'.root.trans h.root⟩

end Continues

theorem grow_continues (store : Store) (len additional : Nat) :
    Ends (ask (room.grow store budget len additional)) s (fun _ t => Continues s t) (Stops room) := by
  refine (grow_ends store len additional).mono ?_ fun _ _ h => h.stops
  rintro _ _ ⟨m, rfl⟩
  exact ⟨.refl _, rfl, rfl⟩

theorem record_continues (entry : BuilderUndo) :
    Ends (record room budget entry) s (fun _ t => Continues s t) (Stops room) := by
  refine (record_ends entry).mono ?_ fun _ _ h => h.stops
  rintro _ _ ⟨m, rfl⟩
  exact ⟨.refl _, rfl, rfl⟩

/-- The innermost frame becomes another one. -/
theorem setFrame_tracks {below : List BuildFrame} {frame frame' : BuildFrame} {part : Part} {parts : List Part}
    {fails : CanonicalError → CanonicalSet μ → Prop}
    (hs : s.builder.stack = below ++ [frame]) (hroot : s.builder.root = none) (htop : TopHolds s.arena frame' part)
    (hrest : List.Forall₂ (PartHolds s.arena) below.reverse parts) :
    Ends (setFrame below.length frame') s (fun _ t => Tracks t ⟨part :: parts, none⟩) fails :=
  .modify (.opened ((congrArg (fun stack => List.set stack _ _) hs).trans (set_last _ _ _)) hroot htop hrest)

/-! ### Values that are complete -/

/-- What is innermost, where it is known. -/
theorem top_known {α : Type} {f : Nat × Option BuildFrame → Building μ α} {returns : α → CanonicalSet μ → Prop}
    {fails : CanonicalError → CanonicalSet μ → Prop} {below : List BuildFrame} {frame : BuildFrame}
    (hs : s.builder.stack = below ++ [frame])
    (hf : Ends (f (below.length, some frame)) s returns fails) : Ends (top >>= f) s returns fails := by
  refine top_first (fun hnil => by simp [hnil] at hs) fun below' frame' hs' => ?_
  obtain ⟨rfl, hlast⟩ := List.append_inj' (hs'.symm.trans hs) rfl
  obtain rfl : frame' = frame := List.head_eq_of_cons_eq hlast
  exact hf

theorem completeValue_tracks {id : CanonicalId} {v : CanonicalValue} {parts : List Part} {d : Draft}
    (hrest : List.Forall₂ (PartHolds s.arena) s.builder.stack.reverse parts) (hroot : s.builder.root = none)
    (hid : s.arena.Means id v) (h : Draft.attach v parts = some d) :
    Ends (completeValue room budget id) s (fun _ t => Tracks t d) (Stops room) := by
  cases parts with
  | nil =>
    have hnil : s.builder.stack = [] := by simpa using hrest
    cases h
    refine top_first (fun _ => ?_) fun below frame hs => by simp [hs] at hnil
    refine .seq (record_continues _) (fun _ _ h => h) fun _ t ht => ?_
    exact .modify (.complete (ht.stack.trans hnil) rfl (hid.grows ht.arena))
  | cons part parts =>
    obtain ⟨below, frame, hs, hframe, hbelow⟩ := partsHold_last hrest
    refine top_known hs ?_
    cases frame <;> cases part <;> try exact hframe.elim
    case array.array ids items =>
      cases h
      refine .seq (grow_continues _ _ _) (fun _ _ h => h) fun _ t ht =>
        .seq (record_continues _) (fun _ _ h => h) fun _ u hu => ?_
      have hgo := ht.trans hu
      have hitems : List.Forall₂ s.arena.Means (ids ++ [id]) (items ++ [v]) := List.rel_append hframe (.cons hid .nil)
      have htop : PartHolds s.arena (.array (ids ++ [id])) (.array (items ++ [v])) := hitems
      exact setFrame_tracks (hgo.stack.trans hs) (hgo.root.trans hroot) (htop.grows hgo.arena).top
        (partsHold_grows hgo.arena hbelow)
    case object.object phase entries phase' members =>
      obtain ⟨hphase, hmembers⟩ := hframe
      cases phase' with
      | keyOrClose | colon => cases h
      | value key =>
        cases phase with
        | keyOrClose | colon => exact hphase.elim
        | value span =>
          cases h
          refine .seq (grow_continues _ _ _) (fun _ _ h => h) fun _ t ht =>
            .seq (record_continues _) (fun _ _ h => h) fun _ u hu => ?_
          refine .seq (record_continues _) (fun _ _ h => h) fun _ w hw => ?_
          have hgo := (ht.trans hu).trans hw
          have hmembers' : List.Forall₂ (MemberHolds s.arena) (entries ++ [⟨span, id⟩]) (members ++ [(key, v)]) :=
            List.rel_append hmembers (.cons ⟨hphase, hid⟩ .nil)
          have htop : PartHolds s.arena (.object .keyOrClose (entries ++ [⟨span, id⟩]))
            (.object .keyOrClose (members ++ [(key, v)])) :=
            ⟨trivial, hmembers'⟩
          exact setFrame_tracks (hgo.stack.trans hs) (hgo.root.trans hroot) (htop.grows hgo.arena).top
            (partsHold_grows hgo.arena hbelow)

theorem attachKey_tracks {span : ByteSpan} {key : List Byte} {parts : List Part} {d : Draft}
    (hrest : List.Forall₂ (PartHolds s.arena) s.builder.stack.reverse parts) (hroot : s.builder.root = none)
    (hspan : s.arena.Spells span key) (h : Draft.attachKey key parts = some d) :
    Ends (attachKey room budget span) s (fun _ t => Tracks t d) (Stops room) := by
  cases parts with
  | nil => cases h
  | cons part parts =>
    obtain ⟨below, frame, hs, hframe, hbelow⟩ := partsHold_last hrest
    refine top_known hs ?_
    cases frame <;> cases part <;> try exact hframe.elim
    case array.array => cases h
    case object.object phase entries phase' members =>
      cases h
      refine .seq (record_continues _) (fun _ _ h => h) fun _ t ht => ?_
      have htop : PartHolds s.arena (.object (.colon span) entries) (.object (.colon key) members) := ⟨hspan, hframe.2⟩
      exact setFrame_tracks (ht.stack.trans hs) (ht.root.trans hroot) (htop.grows ht.arena).top
        (partsHold_grows ht.arena hbelow)

/-! ### Scalars -/

theorem pushItemBytes_continues (extra : List Byte) : Ends (pushItemBytes room budget extra) s
    (fun _ t => Continues s t ∧ t.arena.bytes = s.arena.bytes ++ extra) (Stops room) := by
  refine (pushItemBytes_ends extra).mono ?_ fun _ _ h => h.stops
  rintro _ _ ⟨m, rfl⟩
  exact ⟨⟨.pushBytes _ _, rfl, rfl⟩, rfl⟩

theorem textStart_continues :
    Ends (textStart budget) s (fun start t => start = s.arena.bytes.length ∧ t = s) (Stops room) :=
  textStart_ends.mono (fun _ _ h => h) fun _ _ h => h.stops

/-- A literal goes on. -/
theorem literal_cont {word : List Byte} {f : Nat → ScalarPhase} {n : Nat} {byte : Byte} {next : ScalarPhase}
    (h : stepLiteral word f n byte = .cont next) :
    word.take n ++ [byte] = word.take (n + 1) ∧ (next = .literalDone ∧ word.take (n + 1) = word ∨
      next = f (n + 1)) := by
  unfold stepLiteral at h
  split at h
  · cases h
  · rename_i hbyte
    rw [not_not] at hbyte
    obtain ⟨hlt, heq⟩ := List.getElem?_eq_some_iff.1 hbyte
    refine ⟨by rw [← heq, List.take_append_getElem hlt], ?_⟩
    split at h
    · rename_i hlen
      cases h
      exact .inl ⟨rfl, List.take_of_length_le (by omega)⟩
    · cases h
      exact .inr rfl

/-- The byte of a scalar that goes on. -/
theorem scalarStart_tracks {byte : Byte} {phase next : ScalarPhase} {start : Nat} {text : List Byte}
    (h : TextHolds s.arena phase start text) (hstep : stepScalar phase byte = .cont next) :
    Ends (scalarStart room budget byte phase next start) s (fun start' t => Continues s t ∧
      TextHolds t.arena next start' (text ++ [byte]))
      (Stops room) := by
  -- a number begins, a literal begins, a literal goes on
  have hnumber : ∀ p : NumberPhase, text = [] → Ends (textStart budget >>= fun start =>
    pushItemBytes room budget [byte] >>= fun _ => pure start) s
      (fun start' t => Continues s t ∧ TextHolds t.arena (.number p) start' (text ++ [byte])) (Stops room) := by
    rintro p rfl
    refine .seq textStart_continues (fun _ _ h => h) ?_
    rintro _ _ ⟨rfl, rfl⟩
    refine .seq (pushItemBytes_continues _) (fun _ _ h => h) fun _ t ht => .pure ⟨ht.1, ?_⟩
    refine ⟨ht.1.arena.bytes.length_le, ?_⟩
    rw [ht.2, List.drop_left]
    rfl
  have hsame : ∀ {next : ScalarPhase}, (∀ a : CanonicalArena, TextHolds a next start (text ++ [byte])) →
    Ends (pure start : Building μ Nat) s
      (fun start' t => Continues s t ∧ TextHolds t.arena next start' (text ++ [byte])) (Stops room) :=
    fun h => .pure ⟨.refl s, h _⟩
  cases phase with
  | beforeValue =>
    have hnil : text = [] := h
    rw [stepScalar] at hstep
    repeat' split at hstep
    all_goals cases hstep
    · rename_i hb
      exact hsame fun _ => by rw [hnil, hb]; rfl
    · rename_i hb
      exact hsame fun _ => by rw [hnil, hb]; rfl
    · rename_i hb
      exact hsame fun _ => by rw [hnil, hb]; rfl
    · exact hnumber _ hnil
    · exact hnumber _ hnil
    · exact hnumber _ hnil
  | number p =>
    obtain ⟨q, rfl⟩ := Draft.stepNumber_cont hstep
    refine .seq (pushItemBytes_continues _) (fun _ _ h => h) fun _ t ht => .pure
      ⟨ht.1, h.1.trans ht.1.arena.bytes.length_le, ?_⟩
    rw [ht.2, List.drop_append_of_le_length h.1, h.2]
  | trueAt n =>
    obtain ⟨htake, hnext⟩ := literal_cont hstep
    have htext : text = literalTrue.take n := h
    rcases hnext with ⟨rfl, hword⟩ | rfl
    · exact .pure ⟨.refl s, .inl ⟨rfl, by rw [htext, htake, hword]⟩⟩
    · exact hsame fun _ => by rw [htext]; exact htake
  | falseAt n =>
    obtain ⟨htake, hnext⟩ := literal_cont hstep
    have htext : text = literalFalse.take n := h
    rcases hnext with ⟨rfl, hword⟩ | rfl
    · exact .pure ⟨.refl s, .inr (.inl ⟨rfl, by rw [htext, htake, hword]⟩)⟩
    · exact hsame fun _ => by rw [htext]; exact htake
  | nullAt n =>
    obtain ⟨htake, hnext⟩ := literal_cont hstep
    have htext : text = literalNull.take n := h
    rcases hnext with ⟨rfl, hword⟩ | rfl
    · exact .pure ⟨.refl s, .inr (.inr ⟨rfl, by rw [htext, htake, hword]⟩)⟩
    · exact hsame fun _ => by rw [htext]; exact htake
  | literalDone => cases hstep

/-- A number whose text is the end of the bytes. -/
theorem finishNumber_tracks {start : Nat} {form : NumberForm.Form} (inner : CanonicalId → CanonicalValue → Prop)
    (hstart : start ≤ s.arena.bytes.length) (h : NumberForm.finishNumber (s.arena.bytes.drop start) = .ok form) :
    Ends (finishNumber room budget start) s (fun node t => Continues s t ∧
      t.arena.NodeDenotes inner node (.number form)) (Stops room) := by
  refine .bind (.get ?_)
  rw [if_neg (by omega)]
  dsimp only
  split
  · rename_i hlarge
    refine .inr (.inr (.inl ?_))
    simp only [usizeMax, u32Size] at *
    omega
  refine .seq (grow_ends _ _ _) (fun _ _ h => h.stops) ?_
  rintro _ _ ⟨m, rfl⟩
  have hneed : (NumberForm.finishNumber (s.arena.bytes.drop start)).toOption = some form := by
    rw [h]
    rfl
  rw [hneed]
  refine .bind (.pure (.seq (pushSpan_ends _) (fun _ _ h => h.stops) ?_))
  rintro _ _ ⟨rfl, m', rfl⟩
  refine .seq (pushSpan_ends _) (fun _ _ h => h.stops) ?_
  rintro _ _ ⟨rfl, m'', rfl⟩
  refine .pure ⟨⟨(CanonicalArena.Grows.pushBytes s.arena _).trans (.pushBytes _ _), rfl, rfl⟩, rfl, rfl, ?_, ?_⟩
  · refine CanonicalArena.Spells.grows (a := { s.arena with bytes := s.arena.bytes ++ form.digits }) ⟨?_, ?_⟩
      (.pushBytes _ _)
    · exact (List.length_append ..).symm.le
    · simp [CanonicalArena.spanBytes]
  · refine ⟨?_, ?_⟩
    · exact (List.length_append ..).symm.le
    · simp [CanonicalArena.spanBytes]

theorem finishScalar_tracks {phase : ScalarPhase} {start : Nat} {text : List Byte} {v : CanonicalValue}
    (inner : CanonicalId → CanonicalValue → Prop)
    (h : TextHolds s.arena phase start text) (hv : Draft.scalarValue phase text = some v) :
    Ends (finishScalar room budget phase start) s (fun node t => Continues s t ∧ t.arena.NodeDenotes inner node v)
    (Stops room) := by
  refine .seq setBudget_ends (fun _ _ h => h.stops) ?_
  rintro budget' _ ⟨m, rfl⟩
  cases phase with
  | number p =>
    obtain ⟨hstart, rfl⟩ := h
    obtain ⟨form, hform, rfl⟩ := Option.map_eq_some_iff.1 hv
    have hok : NumberForm.finishNumber (s.arena.bytes.drop start) = .ok form := by
      cases hres : NumberForm.finishNumber (s.arena.bytes.drop start) with
      | error e =>
        rw [hres] at hform
        cases hform
      | ok form' =>
        rw [hres] at hform
        cases hform
        rfl
    show Ends (finishNumber room budget' start) _ _ _
    exact (finishNumber_tracks inner (s := { s with mem := m }) hstart hok).mono
      (fun _ _ h => ⟨⟨h.1.arena, h.1.stack, h.1.root⟩, h.2⟩) fun _ _ h => h
  | literalDone =>
    rcases h with ⟨rfl, rfl⟩ | ⟨rfl, rfl⟩ | ⟨rfl, rfl⟩ <;> cases hv
    · exact .pure ⟨⟨.refl _, rfl, rfl⟩, rfl⟩
    · exact .pure ⟨⟨.refl _, rfl, rfl⟩, rfl⟩
    · exact .pure ⟨⟨.refl _, rfl, rfl⟩, trivial⟩
  | beforeValue | trueAt | falseAt | nullAt => cases hv

/-- A node for a value that is complete. -/
theorem pushItemNode_tracks {node : CanonicalNode} {v : CanonicalValue} (h : s.arena.NodeDenotes s.arena.Means node v) :
    Ends (pushItemNode room budget node) s (fun id t => Continues s t ∧ t.arena.Means id v) (Stops room) := by
  refine (pushItemNode_ends node).mono ?_ fun _ _ h => h.stops
  rintro _ _ ⟨rfl, m, rfl⟩
  exact ⟨⟨.pushNode _ _, rfl, rfl⟩, CanonicalArena.means_push h⟩

theorem Tracks.root_isSome {d : Draft} (h : Tracks s d) : s.builder.root.isSome = d.root.isSome := by
  cases h with
  | opened _ root => exact congrArg Option.isSome root
  | complete _ root => exact congrArg Option.isSome root

theorem replaceScalar_tracks {below : List BuildFrame} {phase : ScalarPhase} {start : Nat} {frame old : BuildFrame}
    {part : Part} {parts : List Part}
    (hs : s.builder.stack = below ++ [old]) (hroot : s.builder.root = none) (htop : TopHolds s.arena frame part)
    (hrest : List.Forall₂ (PartHolds s.arena) below.reverse parts) :
    Ends (replaceScalar room budget below.length phase start frame) s (fun used t => used = true ∧
      Tracks t ⟨part :: parts, none⟩) (Stops room) := by
  refine .seq (record_ends _) (fun _ _ h => h.stops) ?_
  rintro _ _ ⟨m, rfl⟩
  exact .seq (setFrame_tracks hs hroot htop hrest) (fun _ _ h => h) fun _ t ht => .pure ⟨rfl, ht⟩

/-- The innermost frame goes. -/
theorem popFrame_rest {below : List BuildFrame} {frame : BuildFrame} {fails : CanonicalError → CanonicalSet μ → Prop}
    (hs : s.builder.stack = below ++ [frame]) :
    Ends (popFrame (μ := μ)) s (fun _ t => t.arena = s.arena ∧ t.builder.stack = below ∧
      t.builder.root = s.builder.root) fails :=
  .modify ⟨rfl, (congrArg List.dropLast hs).trans List.dropLast_concat, rfl⟩

theorem scalarTurn_tracks {below : List BuildFrame} {phase : ScalarPhase} {start : Nat} {text : List Byte}
    {parts : List Part} {byte : Byte}
    {used : Bool} {e : Draft} (hs : s.builder.stack = below ++ [.scalar phase start]) (hroot : s.builder.root = none)
    (htext : TextHolds s.arena phase start text) (hrest : List.Forall₂ (PartHolds s.arena) below.reverse parts)
    (h : Draft.scalarTurn byte phase text parts = some (used, e)) :
    Ends (scalarTurn room budget byte below.length phase start) s (fun used' t => used' = used ∧ Tracks t e)
    (Stops room) := by
  unfold Draft.scalarTurn at h
  unfold scalarTurn
  cases hstep : stepScalar phase byte with
  | cont next =>
    rw [hstep] at h
    cases h
    refine .seq (scalarStart_tracks htext hstep) (fun _ _ h => h) fun start' t ht => ?_
    have htop : TopHolds t.arena (.scalar next start') (.scalar next (text ++ [byte])) := ⟨rfl, ht.2⟩
    exact replaceScalar_tracks (ht.1.stack.trans hs) (ht.1.root.trans hroot) htop (partsHold_grows ht.1.arena hrest)
  | startString =>
    rw [hstep] at h
    cases h
    refine .seq textStart_continues (fun _ _ h => h) ?_
    rintro _ _ ⟨rfl, rfl⟩
    exact replaceScalar_tracks hs hroot ⟨rfl, rfl, Nat.le_refl _, List.drop_length⟩ hrest
  | startArray =>
    rw [hstep] at h
    cases h
    exact replaceScalar_tracks hs hroot List.Forall₂.nil hrest
  | startObject =>
    rw [hstep] at h
    cases h
    exact replaceScalar_tracks hs hroot ⟨trivial, .nil⟩ hrest
  | done =>
    rw [hstep] at h
    obtain ⟨v, hv, h⟩ := Option.bind_eq_some_iff.1 h
    obtain ⟨d, hattach, h⟩ := Option.bind_eq_some_iff.1 h
    cases h
    refine .seq (finishScalar_tracks (fun _ _ => False) htext hv) (fun _ _ h => h) fun node t ht => ?_
    have hnode : t.arena.NodeDenotes t.arena.Means node v := ht.2.grows (fun _ _ h => h.elim) (.refl _)
    refine .seq (pushItemNode_tracks hnode) (fun _ _ h => h) fun id u hu =>
      .seq (record_continues _) (fun _ _ h => h) fun _ w hw => ?_
    have hgo := (ht.1.trans hu.1).trans hw
    refine .seq (popFrame_rest (hgo.stack.trans hs)) (fun _ _ h => h) ?_
    rintro _ x ⟨harena, hstack, hxroot⟩
    have hrest' : List.Forall₂ (PartHolds x.arena) x.builder.stack.reverse parts := by
      rw [hstack, harena]
      exact partsHold_grows hgo.arena hrest
    refine .seq (completeValue_tracks hrest' (hxroot.trans (hgo.root.trans hroot))
      (harena ▸ hu.2.grows hw.arena) hattach) (fun _ _ h => h)
      fun _ y hy => .bind (.get (.pure ⟨hy.root_isSome, hy⟩))
  | invalid =>
    rw [hstep] at h
    cases h

/-! ### Strings -/

/-- The end of the bytes as a span. -/
theorem spells_tail {a : CanonicalArena} {start : Nat} (h : start ≤ a.bytes.length) :
    a.Spells ⟨start, a.bytes.length - start⟩ (a.bytes.drop start) := by
  refine ⟨(Nat.add_sub_cancel' h).le, ?_⟩
  rw [CanonicalArena.spanBytes]
  exact List.take_of_length_le (Nat.le_of_eq List.length_drop)

theorem closeStr_tracks {span : ByteSpan} {asKey : Bool} {text : List Byte} {parts : List Part} {d : Draft}
    (hrest : List.Forall₂ (PartHolds s.arena) s.builder.stack.reverse parts) (hroot : s.builder.root = none)
    (hspan : s.arena.Spells span text)
    (h : (if asKey then Draft.attachKey text parts else Draft.attach (.string text) parts) = some d) :
    Ends (closeStr room budget span asKey) s (fun _ t => Tracks t d) (Stops room) := by
  unfold closeStr
  cases asKey with
  | true => exact attachKey_tracks hrest hroot hspan h
  | false =>
    have hnode : s.arena.NodeDenotes s.arena.Means (.string span) (.string text) := hspan
    refine .seq (pushItemNode_tracks hnode) (fun _ _ h => h) fun id t ht => ?_
    have hrest' : List.Forall₂ (PartHolds t.arena) t.builder.stack.reverse parts := by
      rw [ht.1.stack]
      exact partsHold_grows ht.1.arena hrest
    exact completeValue_tracks hrest' (ht.1.root.trans hroot) ht.2 h

/-- What is written of a string for one byte of it. -/
def decodedBytes : DecodeStep → List Byte
  | .scalar c => String.utf8EncodeChar c
  | .cont | .invalid => []

theorem takeDecoded_tracks {decoder : JsonStringDecoder} (next : JsonStringDecoder) {step : DecodeStep} {start : Nat}
    {asKey : Bool} {text : List Byte}
    (hstep : step ≠ .invalid) (htop : TopHolds s.arena (.str decoder start asKey) (.str decoder text asKey)) :
    Ends (takeDecoded room budget step) s (fun _ t => Continues s t ∧
      TopHolds t.arena (.str next start asKey) (.str next (text ++ decodedBytes step) asKey)) (Stops room) := by
  obtain ⟨-, -, hstart, hdrop⟩ := htop
  cases step with
  | cont => exact .pure ⟨.refl s, rfl, rfl, hstart, hdrop.trans (List.append_nil text).symm⟩
  | scalar c =>
    refine (pushItemBytes_continues _).mono (fun _ t ht => ⟨ht.1, rfl, rfl, hstart.trans ht.1.arena.bytes.length_le,
      ?_⟩) fun _ _ h => h
    rw [ht.2, List.drop_append_of_le_length hstart, hdrop]
    rfl
  | invalid => exact absurd rfl hstep

theorem strTurn_tracks {below : List BuildFrame} {decoder : JsonStringDecoder} {start : Nat} {asKey : Bool}
    {text : List Byte} {parts : List Part} {byte : Byte} {used : Bool} {e : Draft}
    (hs : s.builder.stack = below ++ [.str decoder start asKey])
    (hroot : s.builder.root = none) (htop : TopHolds s.arena (.str decoder start asKey) (.str decoder text asKey))
    (hrest : List.Forall₂ (PartHolds s.arena) below.reverse parts)
    (h : Draft.strTurn byte decoder text asKey parts = some (used, e)) :
    Ends (strTurn room budget byte below.length decoder start asKey) s (fun used' t => used' = used ∧ Tracks t e)
    (Stops room) := by
  unfold Draft.strTurn at h
  unfold strTurn
  split at h
  · rename_i hclose
    rw [if_pos hclose]
    obtain ⟨rfl, hdone⟩ := Draft.used_some h
    refine .seq textStart_continues (fun _ _ h => h) ?_
    rintro _ _ ⟨rfl, rfl⟩
    refine .seq (record_continues _) (fun _ _ h => h) fun _ u hu =>
      .seq (popFrame_rest (hu.stack.trans hs)) (fun _ _ h => h) ?_
    rintro _ x ⟨harena, hstack, hxroot⟩
    obtain ⟨-, -, hstart, rfl⟩ := htop
    have hrest' : List.Forall₂ (PartHolds x.arena) x.builder.stack.reverse parts := by
      rw [hstack, harena]
      exact partsHold_grows hu.arena hrest
    exact .seq (closeStr_tracks hrest' (hxroot.trans (hu.root.trans hroot))
      (harena ▸ (spells_tail hstart).grows hu.arena) hdone) (fun _ _ h => h)
      fun _ y hy => .pure ⟨rfl, hy⟩
  · rename_i hgoes
    rw [if_neg hgoes]
    have hset : Ends (setFrame below.length (.str (decoder.push byte).2 start asKey)) s
        (fun _ t => t.arena = s.arena ∧ t.builder.stack = below ++ [.str (decoder.push byte).2 start asKey] ∧
          t.builder.root = none) (Stops room) :=
      .modify ⟨rfl, (congrArg (fun stack => List.set stack _ _) hs).trans (set_last _ _ _), hroot⟩
    refine .seq hset (fun _ _ h => h) ?_
    rintro _ t ⟨harena, hstack, htroot⟩
    have hne : (decoder.push byte).1 ≠ .invalid := by
      intro hinvalid
      rw [hinvalid] at h
      cases h
    refine .seq (takeDecoded_tracks (decoder.push byte).2 hne (harena ▸ htop)) (fun _ _ h => h) ?_
    rintro _ u ⟨hu, hutop⟩
    refine .seq (record_ends _) (fun _ _ h => h.stops) ?_
    rintro _ _ ⟨m, rfl⟩
    have hurest : List.Forall₂ (PartHolds u.arena) below.reverse parts := partsHold_grows (harena ▸ hu.arena) hrest
    cases hstep : (decoder.push byte).1 with
    | cont =>
      rw [hstep] at h hutop
      rw [decodedBytes, List.append_nil] at hutop
      cases h
      exact .pure ⟨rfl, .opened (hu.stack.trans hstack) (hu.root.trans htroot) hutop hurest⟩
    | scalar c =>
      rw [hstep] at h hutop
      cases h
      exact .pure ⟨rfl, .opened (hu.stack.trans hstack) (hu.root.trans htroot) hutop hurest⟩
    | invalid => exact absurd hstep hne

/-! ### Containers -/

theorem openFrame_tracks {frame : BuildFrame} {part : Part} {parts : List Part} (hroot : s.builder.root = none)
    (htop : TopHolds s.arena frame part) (hrest : List.Forall₂ (PartHolds s.arena) s.builder.stack.reverse parts) :
    Ends (openFrame room budget frame) s (fun _ t => Tracks t ⟨part :: parts, none⟩) (Stops room) := by
  refine .seq reserveStack_ends (fun _ _ h => h.stops) ?_
  rintro _ _ ⟨m, rfl⟩
  refine .seq (record_ends _) (fun _ _ h => h.stops) ?_
  rintro _ _ ⟨m', rfl⟩
  exact .modify (.opened rfl hroot htop hrest)

theorem closeFrame_tracks {below : List BuildFrame} {frame old : BuildFrame} {id : CanonicalId} {v : CanonicalValue}
    {parts : List Part} {d : Draft}
    (hs : s.builder.stack = below ++ [old]) (hroot : s.builder.root = none) (hid : s.arena.Means id v)
    (hrest : List.Forall₂ (PartHolds s.arena) below.reverse parts) (h : Draft.attach v parts = some d) :
    Ends (closeFrame room budget frame id) s (fun used t => used = true ∧ Tracks t d) (Stops room) := by
  refine .seq (popFrame_rest hs) (fun _ _ h => h) ?_
  rintro _ x ⟨harena, hstack, hxroot⟩
  refine .bind (.modify (.seq (completeValue_tracks ?_ (hxroot.trans hroot) (harena ▸ hid) h)
    (fun _ _ h => h) fun _ y hy => .pure ⟨rfl, hy⟩))
  show List.Forall₂ (PartHolds x.arena) x.builder.stack.reverse parts
  rw [hstack, harena]
  exact hrest

/-- The end of a list, as a range. -/
theorem slice_tail {α : Type} (l items : List α) : ((l ++ items).drop l.length).take items.length = items := by
  rw [List.drop_left, List.take_length]

theorem closeArray_tracks {below : List BuildFrame} {ids : List CanonicalId} {items : List CanonicalValue}
    {parts : List Part} {d : Draft} (hs : s.builder.stack = below ++ [.array ids]) (hroot : s.builder.root = none)
    (hitems : List.Forall₂ s.arena.Means ids items)
    (hrest : List.Forall₂ (PartHolds s.arena) below.reverse parts) (h : Draft.attach (.array items) parts = some d) :
    Ends (closeArray room budget ids) s (fun used t => used = true ∧ Tracks t d) (Stops room) := by
  refine .seq reserveRecord_ends (fun _ _ h => h.stops) ?_
  rintro _ _ ⟨m, rfl⟩
  refine .bind (.get (.seq (checkedU32_ends fun h => .inr (.inr (.inl h))) (fun _ _ h => Failed.stops h) ?_))
  rintro _ _ ⟨rfl, rfl⟩
  refine .seq setBudget_ends (fun _ _ h => h.stops) ?_
  rintro budget' _ ⟨m', rfl⟩
  refine .seq (pushChildrenBatch_ends _) (fun _ _ h => h.stops) ?_
  rintro _ _ ⟨m'', rfl⟩
  refine .seq (checkedU32_ends fun h => .inr (.inr (.inl ?_))) (fun _ _ h => Failed.stops h) ?_
  · exact h.trans (by simp)
  rintro _ _ ⟨rfl, rfl⟩
  have hg := CanonicalArena.Grows.pushChildren s.arena ids
  have hnode : CanonicalArena.NodeDenotes { s.arena with children := s.arena.children ++ ids }
      (CanonicalArena.Means { s.arena with children := s.arena.children ++ ids })
        (.array ⟨s.arena.children.length, ids.length⟩) (.array items) := by
    refine ⟨(List.length_append ..).symm.le, ?_⟩
    rw [CanonicalArena.childrenOf, slice_tail]
    exact hitems.imp fun _ _ h => h.grows hg
  refine .seq (pushItemNode_tracks hnode) (fun _ _ h => h) fun id t ht => ?_
  exact closeFrame_tracks (ht.1.stack.trans hs) (ht.1.root.trans hroot) ht.2
    (partsHold_grows (hg.trans ht.1.arena) hrest) h

theorem arrayTurn_tracks {below : List BuildFrame} {ids : List CanonicalId} {items : List CanonicalValue}
    {parts : List Part} {byte : Byte}
    {used : Bool} {e : Draft} (hs : s.builder.stack = below ++ [.array ids]) (hroot : s.builder.root = none)
    (hitems : List.Forall₂ s.arena.Means ids items) (hrest : List.Forall₂ (PartHolds s.arena) below.reverse parts)
    (h : Draft.arrayTurn byte items parts = some (used, e)) :
    Ends (arrayTurn room budget byte ids) s (fun used' t => used' = used ∧ Tracks t e) (Stops room) := by
  have htop : PartHolds s.arena (.array ids) (.array items) := hitems
  unfold Draft.arrayTurn at h
  unfold arrayTurn
  split at h
  · rename_i hskip
    cases h
    rw [if_pos hskip]
    exact .pure ⟨rfl, .opened hs hroot htop hrest⟩
  rename_i hskip
  rw [if_neg hskip]
  split at h
  · rename_i hclose
    obtain ⟨rfl, hdone⟩ := Draft.used_some h
    rw [if_pos hclose]
    exact closeArray_tracks hs hroot hitems hrest hdone
  · rename_i hclose
    cases h
    rw [if_neg hclose]
    have hall : List.Forall₂ (PartHolds s.arena) s.builder.stack.reverse (.array items :: parts) := by
      rw [hs, List.reverse_append]
      exact .cons htop hrest
    have hstart : TopHolds s.arena .valueStart .valueStart := ⟨rfl, rfl⟩
    exact .seq (openFrame_tracks hroot hstart hall) (fun _ _ h => h) fun _ t ht => .pure ⟨rfl, ht⟩

theorem modifyArena_ends (f : CanonicalArena → CanonicalArena) {fails : CanonicalError → CanonicalSet μ → Prop} :
    Ends (modifyArena f) s (fun _ t => t.builder = s.builder ∧ t.arena = f s.arena) fails := .modify ⟨rfl, rfl⟩

/-- **The members are sorted as the entries are.** -/
theorem closeObject_tracks {below : List BuildFrame} {entries : List ObjectEntry}
    {members : List (List Byte × CanonicalValue)} {parts : List Part}
    {d : Draft} (hs : s.builder.stack = below ++ [.object .keyOrClose entries]) (hroot : s.builder.root = none)
    (hmembers : List.Forall₂ (MemberHolds s.arena) entries members)
    (hrest : List.Forall₂ (PartHolds s.arena) below.reverse parts)
    (h : Draft.attach (CanonicalValue.objectOf members) parts = some d) :
    Ends (closeObject room budget entries) s (fun used t => used = true ∧ Tracks t d) (Stops room) := by
  refine .seq reserveRecord_ends (fun _ _ h => h.stops) ?_
  rintro _ _ ⟨m, rfl⟩
  refine .bind (.get (.seq (checkedU32_ends fun h => .inr (.inr (.inr h))) (fun _ _ h => Failed.stops h) ?_))
  rintro _ _ ⟨rfl, rfl⟩
  refine .seq setBudget_ends (fun _ _ h => h.stops) ?_
  rintro budget' _ ⟨m', rfl⟩
  refine .seq (pushEntriesBatch_ends _) (fun _ _ h => h.stops) ?_
  rintro _ _ ⟨m'', rfl⟩
  refine .seq (checkedU32_ends fun h => .inr (.inr (.inr ?_))) (fun _ _ h => Failed.stops h) ?_
  · exact h.trans (by simp)
  rintro _ _ ⟨rfl, rfl⟩
  refine .seq (pushItemNode_ends _) (fun _ _ h => h.stops) ?_
  rintro _ _ ⟨rfl, k, rfl⟩
  -- sorting does not touch the nodes, so the node might have been pushed behind it
  have hkey : ∀ (e : ObjectEntry) (x : List Byte × CanonicalValue), MemberHolds s.arena e x →
    s.arena.spanBytes e.key = x.1 := fun e x h => h.1.2
  have hsorted : List.Forall₂ (MemberHolds s.arena) (entries.mergeSort fun x y =>
    decide (s.arena.spanBytes x.key ≤ s.arena.spanBytes y.key))
      (KeySort.sorted CanonicalValue.keyLe members) :=
    KeySort.forall₂_mergeSort (fun e x e' y hx hy => by rw [hkey e x hx, hkey e' y hy]; rfl) hmembers
  generalize hentries : entries.mergeSort (fun x y => decide (s.arena.spanBytes x.key ≤ s.arena.spanBytes y.key)) =
    sorted at hsorted
  have hlen : sorted.length = entries.length := by rw [← hentries, List.length_mergeSort]
  have hg := CanonicalArena.Grows.pushEntries s.arena sorted
  have hnode : CanonicalArena.NodeDenotes { s.arena with entries := s.arena.entries ++ sorted }
      (CanonicalArena.Means { s.arena with entries := s.arena.entries ++ sorted })
        (.object ⟨s.arena.entries.length, entries.length⟩)
      (CanonicalValue.objectOf members) := by
    have hslice : CanonicalArena.entriesOf { s.arena with entries := s.arena.entries ++ sorted }
      ⟨s.arena.entries.length, entries.length⟩ = sorted := by
      rw [CanonicalArena.entriesOf, ← hlen, slice_tail]
    refine ⟨?_, ?_, ?_⟩
    · rw [← hlen]
      exact (List.length_append ..).symm.le
    · rw [hslice, List.forall₂_map_right_iff]
      exact hsorted.imp fun _ _ h => h.1.grows hg
    · rw [CanonicalArena.valuesOf, hslice, List.forall₂_map_right_iff, List.forall₂_map_left_iff]
      exact hsorted.imp fun _ _ h => h.2.grows hg
  have hmeans := CanonicalArena.means_push hnode
  have hsort : ∀ b : CanonicalArena, b.bytes = s.arena.bytes → b.entries = s.arena.entries ++ entries →
      b.sortEntriesFrom s.arena.entries.length = { b with entries := s.arena.entries ++ sorted } := by
    intro b hbytes hentries'
    have hspan : b.spanBytes = s.arena.spanBytes := by
      funext span
      rw [CanonicalArena.spanBytes, hbytes]
      rfl
    rw [CanonicalArena.sortEntriesFrom, hentries', List.take_left, List.drop_left, hspan, hentries]
  refine .seq (modifyArena_ends _) (fun _ _ h => h) ?_
  rintro _ x ⟨hxbuilder, hxarena⟩
  have hx := hxarena.trans (hsort _ rfl rfl)
  refine closeFrame_tracks ((congrArg CanonicalBuilder.stack hxbuilder).trans hs)
    ((congrArg CanonicalBuilder.root hxbuilder).trans hroot) ?_ ?_ h
  · rw [hx]
    exact hmeans
  · rw [hx]
    exact partsHold_grows (hg.trans (.pushNode _ _)) hrest

theorem openKey_tracks {parts : List Part} (hroot : s.builder.root = none)
    (hrest : List.Forall₂ (PartHolds s.arena) s.builder.stack.reverse parts) :
    Ends (openKey room budget) s (fun used t => used = true ∧ Tracks t ⟨.str .new [] true :: parts, none⟩)
    (Stops room) := by
  refine .seq textStart_continues (fun _ _ h => h) ?_
  rintro _ _ ⟨rfl, rfl⟩
  refine .seq (openFrame_tracks hroot ?_ hrest) (fun _ _ h => h) fun _ t ht => .pure ⟨rfl, ht⟩
  exact ⟨rfl, rfl, Nat.le_refl _, List.drop_length⟩

theorem objectTurn_tracks {below : List BuildFrame} {phase : ObjectBuildPhase} {entries : List ObjectEntry}
    {phase' : KeyPhase}
    {members : List (List Byte × CanonicalValue)} {parts : List Part} {byte : Byte} {used : Bool} {e : Draft}
    (hs : s.builder.stack = below ++ [.object phase entries]) (hroot : s.builder.root = none)
    (htop : PartHolds s.arena (.object phase entries) (.object phase' members))
    (hrest : List.Forall₂ (PartHolds s.arena) below.reverse parts)
    (h : Draft.objectTurn byte phase' members parts = some (used, e)) :
    Ends (objectTurn room budget byte below.length phase entries) s (fun used' t => used' = used ∧ Tracks t e)
    (Stops room) := by
  have hall : List.Forall₂ (PartHolds s.arena) s.builder.stack.reverse (.object phase' members :: parts) := by
    rw [hs, List.reverse_append]
    exact .cons htop hrest
  unfold Draft.objectTurn at h
  unfold objectTurn
  cases phase' with
  | keyOrClose =>
    cases phase with
    | colon | value => exact htop.1.elim
    | keyOrClose =>
      dsimp only at h ⊢
      split at h
      · rename_i hskip
        cases h
        rw [if_pos hskip]
        exact .pure ⟨rfl, .opened hs hroot htop hrest⟩
      rename_i hskip
      rw [if_neg hskip]
      split at h
      · rename_i hquote
        cases h
        rw [if_pos hquote]
        exact openKey_tracks hroot hall
      rename_i hquote
      rw [if_neg hquote]
      split at h
      · rename_i hclose
        obtain ⟨rfl, hdone⟩ := Draft.used_some h
        rw [if_pos hclose]
        exact closeObject_tracks hs hroot htop.2 hrest hdone
      · cases h
  | colon key =>
    cases phase with
    | keyOrClose | value => exact htop.1.elim
    | colon span =>
      dsimp only at h ⊢
      split at h
      · rename_i hskip
        cases h
        rw [if_pos hskip]
        exact .pure ⟨rfl, .opened hs hroot htop hrest⟩
      rename_i hskip
      rw [if_neg hskip]
      split at h
      · cases h
      · rename_i hcolon
        cases h
        rw [if_neg hcolon]
        refine .seq (record_continues _) (fun _ _ h => h) fun _ t ht => ?_
        have htop' : PartHolds s.arena (.object (.value span) entries) (.object (.value key) members) := htop
        exact .seq (setFrame_tracks (ht.stack.trans hs) (ht.root.trans hroot) (htop'.grows ht.arena).top
          (partsHold_grows ht.arena hrest))
          (fun _ _ h => h) fun _ u hu => .pure ⟨rfl, hu⟩
  | value key =>
    cases phase with
    | keyOrClose | colon => exact htop.1.elim
    | value span =>
      dsimp only at h ⊢
      split at h
      · rename_i hskip
        cases h
        rw [if_pos hskip]
        exact .pure ⟨rfl, .opened hs hroot htop hrest⟩
      · rename_i hskip
        cases h
        rw [if_neg hskip]
        have hstart : TopHolds s.arena .valueStart .valueStart := ⟨rfl, rfl⟩
        exact .seq (openFrame_tracks hroot hstart hall) (fun _ _ h => h) fun _ t ht => .pure ⟨rfl, ht⟩

/-! ### Bytes -/

/-- **One turn** is the turn on the values. -/
theorem turn_tracks {byte : Byte} {d e : Draft} {used : Bool} (hd : Tracks s d) (h : d.turn byte = some (used, e)) :
    Ends (turn room budget byte) s (fun used' t => used' = used ∧ Tracks t e) (Stops room) := by
  cases hd with
  | complete => cases h
  | @opened below frame part parts stack root top rest =>
    refine top_known stack ?_
    cases frame <;> cases part <;> try exact top.elim
    case scalar.scalar =>
      obtain ⟨rfl, htext⟩ := top
      exact scalarTurn_tracks stack root htext rest h
    case str.str =>
      obtain ⟨rfl, rfl, hstart, hdrop⟩ := top
      exact strTurn_tracks stack root ⟨rfl, rfl, hstart, hdrop⟩ rest h
    case array.array => exact arrayTurn_tracks stack root top rest h
    case object.object => exact objectTurn_tracks stack root top rest h

theorem addsAt_top {α : Type} {n : Nat} {f : Nat × Option BuildFrame → Building μ α}
    (h : AddsAt s n (f (s.builder.stack.length - 1, s.builder.stack.getLast?))) : AddsAt s n (top >>= f) := h

theorem scalarTurn_spends {phase : ScalarPhase} {start : Nat} {text : List Byte} (byte : Byte) (depth : Nat)
    (h : TextHolds s.arena phase start text) :
    AddsAt s (if stepScalar phase byte = .done then 3 * text.length + 3 else 1)
    (scalarTurn room budget byte depth phase start) := by
  unfold scalarTurn
  cases hstep : stepScalar phase byte with
  | cont next => exact Adds.rest (adds_scalarStart _ _ _ _) (fun _ => adds_replaceScalar _ _ _ _) s
  | startString => exact Adds.le (.then adds_textStart fun _ => adds_replaceScalar _ _ _ _) (Nat.zero_le 1) s
  | startArray | startObject => exact (adds_replaceScalar _ _ _ _).le (Nat.zero_le 1) s
  | done =>
    have hnode : ∀ node, Adds 1 (do
        let id ← pushItemNode room budget node
        record room budget (.pushFrame (.scalar phase start))
        popFrame
        completeValue room budget id
        let s ← .get
        return s.builder.root.isSome) := fun node =>
      .rest (adds_pushItemNode _) fun _ => .then (adds_record _) fun _ => .then (adds_modifyBuilder _) fun _ =>
        .then (adds_completeValue _) fun _ => .read fun _ => adds_pure _
    have hsum : AddsAt s (3 * text.length + 2 + 1) (finishScalar room budget phase start >>= fun node => _) :=
      .bind (adds_finishScalar fun p hp => by subst hp; exact h) hnode
    rw [if_pos rfl]
    exact hsum
  | invalid => exact (adds_lift _).le (Nat.zero_le 1) s

/-- A turn writes no more than what is spent on it. -/
theorem turn_spends {byte : Byte} {d : Draft} (hd : Tracks s d) : AddsAt s (d.spent byte) (turn room budget byte) := by
  cases hd with
  | complete stack =>
    unfold turn
    refine addsAt_top ?_
    rw [stack]
    exact adds_lift _ s
  | @opened below frame part parts stack root top rest =>
    unfold turn
    refine addsAt_top ?_
    rw [stack, List.getLast?_concat]
    cases frame <;> cases part <;> try exact top.elim
    case scalar.scalar =>
      obtain ⟨rfl, htext⟩ := top
      exact scalarTurn_spends byte _ htext
    case str.str =>
      obtain ⟨rfl, rfl, -, -⟩ := top
      exact adds_strTurn byte _ _ _ _ s
    case array.array ids items =>
      have hlen : ids.length = items.length := List.Forall₂.length_eq top
      show AddsAt s (if byte = 0x5d then items.length + 1 else 0) (arrayTurn room budget byte ids)
      rw [← hlen]
      exact adds_arrayTurn byte ids s
    case object.object phase entries phase' members =>
      have hlen : entries.length = members.length := List.Forall₂.length_eq top.2
      have hadds : AddsAt s _ (objectTurn room budget byte ((below ++ [BuildFrame.object phase entries]).length - 1)
        phase entries) :=
        adds_objectTurn byte _ phase entries s
      cases phase <;> cases phase' <;> try exact top.1.elim
      case keyOrClose.keyOrClose =>
        rw [hlen] at hadds
        exact hadds
      case colon.colon => exact hadds
      case value.value => exact hadds

/-- What is held and what is still to be written. -/
def total (s : CanonicalSet μ) (d : Draft) : Nat := s.arena.size + d.load

/-- Why the builder stops at an item that is well formed, with so much held or still to be written at that point. -/
def OutOfRoom (room : Room μ) (n : Nat) (e : CanonicalError) : Prop := room.Refuses e ∨ u32Size ≤ n

theorem OutOfRoom.le {e : CanonicalError} {m n : Nat} (h : OutOfRoom room m e) (hle : m ≤ n) : OutOfRoom room n e :=
  h.imp_right fun h => h.trans hle

/-- What is written at most, and what the builder stops for. -/
theorem sized {α : Type} {n : Nat} {x : Building μ α} {returns : α → CanonicalSet μ → Prop}
    (h : Ends x s returns (Stops room)) (hn : AddsAt s n x) :
    Ends x s (fun a t => returns a t ∧ t.arena.size ≤ s.arena.size + n) fun err _ =>
    OutOfRoom room (s.arena.size + n) err := by
  unfold AddsAt at hn
  refine .of (fun a t hx => ⟨h.ok hx, ?_⟩) fun err t hx => (h.error hx).imp_right fun hfull => hfull.size.trans ?_
  · rw [hx] at hn
    exact hn
  · rw [hx] at hn
    exact hn

theorem turn_steps {byte : Byte} {d e : Draft} {used : Bool} (hd : Tracks s d) (h : d.turn byte = some (used, e)) :
    Ends (turn room budget byte) s (fun used' t => used' = used ∧ Tracks t e ∧ total t e ≤ total s d + 8)
      (fun err _ => OutOfRoom room (total s d + 8) err) := by
  have hload := Draft.turn_load h
  unfold total
  refine (sized (turn_tracks hd h) (turn_spends hd)).mono (fun _ t ht => ⟨ht.1.1, ht.1.2, ?_⟩) fun _ _ hr => hr.le ?_
  · have hsize := ht.2
    omega
  · omega

theorem turns_steps {byte : Byte} :
    ∀ (n : Nat) {s : CanonicalSet μ} {d e : Draft}, Tracks s d → d.turns byte n = some e →
    Ends (turns room budget byte n) s (fun _ t => Tracks t e ∧ total t e ≤ total s d + 8 * n)
    (fun err _ => OutOfRoom room (total s d + 8 * n) err)
  | 0, _, _, _, _, h => by cases h
  | n + 1, s, d, e, hd, h => by
    obtain ⟨⟨used, d'⟩, hturn, h⟩ := Option.bind_eq_some_iff.1 h
    refine .seq (turn_steps hd hturn) (fun _ _ h => h.le (by omega)) ?_
    rintro _ t ⟨rfl, ht, htotal⟩
    dsimp only at h
    split at h
    · rename_i hused
      cases h
      rw [if_pos hused]
      exact .pure ⟨ht, by omega⟩
    · rename_i hused
      rw [if_neg hused]
      exact (turns_steps n ht h).mono (fun _ u hu => ⟨hu.1, by omega⟩) fun _ _ h => h.le (by omega)

/-- **One byte** takes 24 at most. -/
theorem pushByte_steps {byte : Byte} {d e : Draft} (hd : Tracks s d) (h : d.pushByte byte = some e) :
    Ends (pushByte room budget byte) s (fun _ t => Tracks t e ∧ total t e ≤ total s d + 24) (fun err _ =>
      OutOfRoom room (total s d + 24) err) := by
  refine .bind (.get ?_)
  rw [hd.root_isSome]
  unfold Draft.pushByte at h
  split at h
  · rename_i hroot
    rw [if_pos hroot]
    split at h
    · rename_i hws
      cases h
      rw [if_pos hws]
      exact .pure ⟨hd, by omega⟩
    · cases h
  · rename_i hroot
    rw [if_neg hroot]
    exact turns_steps 3 hd h

theorem closeRoot_tracks {phase : ScalarPhase} {start : Nat} {text : List Byte} {v : CanonicalValue}
    (htext : TextHolds s.arena phase start text) (hv : Draft.scalarValue phase text = some v) :
    Ends (closeRoot room budget phase start) s (fun id t => t.arena.Means id v) (Stops room) := by
  refine .seq (finishScalar_tracks (fun _ _ => False) htext hv) (fun _ _ h => h) fun node t ht => ?_
  have hnode : t.arena.NodeDenotes t.arena.Means node v := ht.2.grows (fun _ _ h => h.elim) (.refl _)
  refine .seq (pushItemNode_tracks hnode) (fun _ _ h => h) fun id u hu =>
    .seq (record_continues _) (fun _ _ h => h) fun _ w hw => ?_
  refine .seq (record_continues _) (fun _ _ h => h) fun _ x hx => .bind (.modify (.bind (.modify (.pure ?_))))
  exact hu.2.grows (hw.trans hx).arena

theorem closeRoot_spends {phase : ScalarPhase} {start : Nat} {text : List Byte}
    (htext : TextHolds s.arena phase start text) :
    AddsAt s (3 * text.length + 3) (closeRoot room budget phase start) := by
  have hnode : AddsAt s (3 * text.length + 2) (finishScalar room budget phase start) := adds_finishScalar fun p hp => by
    subst hp; exact htext
  have hrest : ∀ node, Adds 1 (do
      let id ← pushItemNode room budget node
      record room budget (.pushFrame (.scalar phase start))
      record room budget .restoreRoot
      popFrame
      setRoot id
      return id) := fun node =>
    .rest (adds_pushItemNode _) fun _ => .then (adds_record _) fun _ => .then (adds_record _) fun _ => .then
      (adds_modifyBuilder _) fun _ =>
      .then (adds_modifyBuilder _) fun _ => adds_pure _
  exact hnode.bind hrest

/-- **The end of an item** gives the node of its value. -/
theorem finish_steps {d : Draft} {v : CanonicalValue} (hd : Tracks s d) (h : d.finish = some v) :
    Ends (finish room budget) s (fun id t => t.arena.Means id v ∧ t.arena.size ≤ total s d) (fun err _ =>
      OutOfRoom room (total s d) err) := by
  refine .bind (.get ?_)
  cases hd with
  | complete stack root means =>
    rw [root]
    cases h
    exact .pure ⟨means, Nat.le_add_right _ _⟩
  | @opened below frame part parts stack root top rest =>
    unfold Draft.finish at h
    dsimp only at h
    split at h
    · rename_i heq
      cases heq
    · rename_i phase text heq hparts
      cases hparts
      cases frame <;> try exact top.elim
      rename_i phase' start
      obtain ⟨rfl, htext⟩ := top
      obtain rfl : below = [] := by simpa using rest
      rw [root, stack]
      show Ends (closeRoot room budget phase' start) s _ _
      have htotal : total s ⟨[.scalar phase' text], none⟩ = s.arena.size + (3 * text.length + 4) := rfl
      rw [htotal]
      refine (sized (closeRoot_tracks htext h) (closeRoot_spends htext)).mono (fun _ t ht => ⟨ht.1, ?_⟩) fun _ _ hr =>
        hr.le ?_
      · have hsize := ht.2
        omega
      · omega
    · cases h

end Building
end MaskForge
