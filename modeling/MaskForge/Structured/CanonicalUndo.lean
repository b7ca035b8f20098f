import MaskForge.Lib.Journal
import MaskForge.Structured.CanonicalSteps
/-!
# CanonicalUndo — every byte of an item can be taken back

What each step changes in the frames is taken back by the entries it has written down, so a mark can always be gone
back to. Two places change or write down too early: the decoder of a string moves before the journal has room, and the
last scalar's frame is written down before it goes.
-/
namespace MaskForge
namespace Building

open Attempt (Ends)
open Journal (Since replay)

variable {μ : Type} {room : Room μ} {hasher : List HashWrite → UInt64} {budget : Nat} {s t u : CanonicalSet μ}

/-- Everything but the memory. -/
def contents (s : CanonicalSet μ) : CanonicalArena × (Finmap fun _ : UInt64 => List CanonicalId) × CanonicalBuilder :=
  (s.arena, s.buckets, s.builder)

/-! ### Going back to a mark -/

/-- What one entry of the journal does to the frames. -/
def undoFrames (entry : BuilderUndo) (stack : List BuildFrame) : List BuildFrame := (undoEntry entry (stack, none)).1

theorem undoEntry_fst (entry : BuilderUndo) (c : List BuildFrame × Option CanonicalId) :
    (undoEntry entry c).1 = undoFrames entry c.1 := by
  cases entry <;> rfl

/-- A set that can go back to an earlier one: the arena has only grown, and the journal has every change
of the frames. -/
structure Behind (s t : CanonicalSet μ) : Prop where
  arena : s.arena.Grows t.arena
  journal : Since undoFrames (s.builder.stack, s.builder.undo) (t.builder.stack, t.builder.undo)
  buckets : t.buckets = s.buckets

theorem Behind.refl (s : CanonicalSet μ) : Behind s s := ⟨.refl _, .refl _, rfl⟩

theorem Behind.trans (h : Behind s t) (h' : Behind t u) : Behind s u :=
  ⟨h.arena.trans h'.arena, h.journal.trans h'.journal, h'.buckets.trans h.buckets⟩

theorem Quiet.behind (h : Quiet s t) : Behind s t := ⟨h.arena, h.builder ▸ .refl _, h.buckets⟩

theorem unwind_spec (room : Room μ) (n : Nat) :
    ∀ (log : List BuilderUndo) (s : CanonicalSet μ), s.builder.undo = log.reverse →
    (unwind room n log s).arena = s.arena ∧ (unwind room n log s).buckets = s.buckets ∧
      (unwind room n log s).builder.stack = replay undoFrames (log.reverse.drop n) s.builder.stack ∧
      (unwind room n log s).builder.undo = log.reverse.take n
  | [], s, h => by
    refine ⟨rfl, rfl, ?_, ?_⟩
    · rw [List.reverse_nil, List.drop_nil]
      rfl
    · rw [List.reverse_nil, List.take_nil]
      exact h
  | entry :: older, s, h => by
    rw [unwind]
    split
    · rename_i hlt
      have hle : (entry :: older).reverse.length ≤ n := by
        rw [List.length_reverse, List.length_cons]
        omega
      refine ⟨rfl, rfl, ?_, ?_⟩
      · rw [List.drop_eq_nil_of_le hle]
        rfl
      · rw [List.take_of_length_le hle, h]
    · rename_i hlt
      have hle : n ≤ older.reverse.length := by
        rw [List.length_reverse]
        omega
      obtain ⟨harena, hbuckets, hstack, hundo⟩ := unwind_spec room n older { s with
        mem := room.release (released entry s.builder.stack) s.mem
        builder := ⟨(undoEntry entry (s.builder.stack, s.builder.root)).1,
          (undoEntry entry (s.builder.stack, s.builder.root)).2, older.reverse⟩ } rfl
      refine ⟨harena, hbuckets, hstack.trans ?_, hundo.trans ?_⟩
      · rw [List.reverse_cons, List.drop_append_of_le_length hle, Journal.replay_snoc, undoEntry_fst]
      · rw [List.reverse_cons, List.take_append_of_le_length hle]

/-- **Going back to a mark** gives what there was at the mark. -/
theorem Behind.contents_restore (h : Behind s t) : contents (restore room (builderMark s) t) = contents s := by
  obtain ⟨harena, hbuckets, hstack, hundo⟩ := unwind_spec room (builderMark s).undoLen t.builder.undo.reverse
    { t with arena := t.arena.restore (builderMark s).arena } (List.reverse_reverse _).symm
  obtain ⟨hback, hleft⟩ := h.journal.take_back
  rw [List.reverse_reverse] at hstack hundo
  have hbuilder : (restore room (builderMark s) t).builder = s.builder :=
    congrArg₂ (fun stack undo => CanonicalBuilder.mk stack s.builder.root undo) (hstack.trans hback) (hundo.trans hleft)
  exact Prod.ext (harena.trans h.arena.restore) (Prod.ext (hbuckets.trans h.buckets) hbuilder)

/-! ### Steps that leave the frames alone -/

theorem keeps_ask {α : Type} (x : Attempt μ RoomError α) : Attempt.Keeps (Quiet s) (ask x) :=
  fun _ h => h.trans ⟨.refl _, rfl, rfl⟩

theorem keeps_broken {α : Type} : Attempt.Keeps (Quiet s) (broken budget : Building μ α) := .lift _

theorem keeps_stuck {α : Type} : Attempt.Keeps (Quiet s) (stuck : Building μ α) := .lift _

theorem keeps_need {α : Type} (o : Option α) : Attempt.Keeps (Quiet s) (need budget o : Building μ α) := by
  cases o with
  | none => exact keeps_broken
  | some a => exact .pure a

theorem keeps_checkedU32 (n : Nat) : Attempt.Keeps (Quiet s) (checkedU32 budget n : Building μ Nat) := by
  unfold checkedU32
  split
  · exact .pure n
  · exact keeps_broken

theorem keeps_pushBytes (extra : List Byte) : Attempt.Keeps (Quiet s) (pushBytes room budget extra) := by
  unfold pushBytes
  split
  · exact .pure ()
  · exact .bind .get fun _ => .bind (keeps_ask _) fun _ => .modify fun _ h => h.trans ⟨.pushBytes _ _, rfl, rfl⟩

theorem keeps_pushNode (node : CanonicalNode) : Attempt.Keeps (Quiet s) (pushNode room budget node) :=
  .bind .get fun _ => .bind (keeps_ask _) fun _ => .bind (keeps_checkedU32 _) fun id =>
    .bind (.modify fun _ h => h.trans ⟨.pushNode _ _, rfl, rfl⟩) fun _ => .pure id

theorem keeps_pushChildrenBatch (items : List CanonicalId) :
    Attempt.Keeps (Quiet s) (pushChildrenBatch room budget items) :=
  .bind .get fun _ => .bind (keeps_ask _) fun _ => .modify fun _ h => h.trans ⟨.pushChildren _ _, rfl, rfl⟩

theorem keeps_pushEntriesBatch (items : List ObjectEntry) :
    Attempt.Keeps (Quiet s) (pushEntriesBatch room budget items) :=
  .bind .get fun _ => .bind (keeps_ask _) fun _ => .modify fun _ h => h.trans ⟨.pushEntries _ _, rfl, rfl⟩

theorem keeps_pushSpan (bytes : List Byte) : Attempt.Keeps (Quiet s) (pushSpan room budget bytes) :=
  .bind .get fun _ => .bind (keeps_checkedU32 _) fun _ => .bind (keeps_pushBytes bytes) fun _ =>
    .bind (keeps_checkedU32 _) fun _ => .pure _

theorem keeps_finishNumber (start : Nat) : Attempt.Keeps (Quiet s) (finishNumber room budget start) := by
  refine .bind .get fun t => ?_
  split
  · exact keeps_broken
  · dsimp only
    split
    · exact keeps_broken
    · exact .bind (keeps_ask _) fun _ => .bind (keeps_need _) fun form => .bind (keeps_pushSpan _) fun _ =>
        .bind (keeps_pushSpan _) fun _ => .pure _

theorem keeps_finishScalar (phase : ScalarPhase) (start : Nat) :
    Attempt.Keeps (Quiet s) (finishScalar room budget phase start) := by
  refine .bind (keeps_ask _) fun setBudget => ?_
  cases phase with
  | number p => exact keeps_finishNumber start
  | literalDone => exact keeps_need _
  | beforeValue | trueAt | falseAt | nullAt => exact keeps_broken

theorem keeps_pushItemBytes (bytes : List Byte) : Attempt.Keeps (Quiet s) (pushItemBytes room budget bytes) :=
  .bind (keeps_ask _) fun _ => keeps_pushBytes bytes

theorem keeps_pushItemNode (node : CanonicalNode) : Attempt.Keeps (Quiet s) (pushItemNode room budget node) :=
  .bind (keeps_ask _) fun _ => keeps_pushNode node

theorem keeps_textStart : Attempt.Keeps (Quiet s) (textStart budget : Building μ Nat) :=
  .bind .get fun _ => keeps_checkedU32 _

theorem keeps_scalarStart (byte : Byte) (phase next : ScalarPhase) (start : Nat) :
    Attempt.Keeps (Quiet s) (scalarStart room budget byte phase next start) := by
  unfold scalarStart
  split
  · exact .bind (keeps_pushItemBytes _) fun _ => .pure _
  · exact .bind keeps_textStart fun _ => .bind (keeps_pushItemBytes _) fun _ => .pure _
  · exact keeps_need _
  · exact .pure _

theorem keeps_reserveRecord : Attempt.Keeps (Quiet s) (reserveRecord room budget) := .bind .get fun _ => keeps_ask _

theorem keeps_reserveStack : Attempt.Keeps (Quiet s) (reserveStack room budget) := .bind .get fun _ => keeps_ask _

/-- Such a step in front of others. -/
theorem ends_of_keeps {α : Type} {x : Building μ α} (h : Attempt.Keeps (Quiet s) x) :
    Ends x s (fun _ t => Quiet s t) (fun _ t => Quiet s t) :=
  .of (fun a t hx => by
    have hq := h s (.refl s)
    rwa [hx] at hq) fun e t hx => by
    have hq := h s (.refl s)
    rwa [hx] at hq

/-! ### Steps that change the frames -/

theorem last_depth (below : List BuildFrame) (frame : BuildFrame) : (below ++ [frame]).length - 1 = below.length := by
  simp

theorem set_last (below : List BuildFrame) (frame other : BuildFrame) :
    (below ++ [frame]).set below.length other = below ++ [other] := by
  simp

theorem modify_last (below : List BuildFrame) (frame : BuildFrame) (f : BuildFrame → BuildFrame) :
    (below ++ [frame]).modify below.length f = below ++ [f frame] := by
  simp [List.modify_eq_take_drop]

/-- A change that its entry takes back. -/
theorem Behind.change {entry : BuilderUndo} {stack : List BuildFrame} (m : μ) (root : Option CanonicalId)
    (h : undoFrames entry stack = s.builder.stack) :
    Behind s { s with mem := m, builder := ⟨stack, root, s.builder.undo ++ [entry]⟩ } :=
  ⟨.refl _, .record h, rfl⟩

/-- A step from a state that can go back. -/
theorem Behind.then {α : Type} {x : Building μ α} (h : Behind s t)
    (hx : Ends x t (fun _ u => Behind t u) fun _ u => Behind t u) :
    Ends x t (fun _ u => Behind s u) fun _ u => Behind s u :=
  hx.mono (fun _ _ h' => h.trans h') fun _ _ h' => h.trans h'

/-- A step that does not touch the frames can go back. -/
theorem behind_of_keeps {α : Type} {x : Building μ α} (h : Attempt.Keeps (Quiet s) x) :
    Ends x s (fun _ t => Behind s t) fun _ t => Behind s t :=
  (ends_of_keeps h).mono (fun _ _ h => h.behind) fun _ _ h => h.behind

theorem Failed.behind {e : CanonicalError} (h : Failed room s e t) : Behind s t := h.1.behind

/-- The rest of what is done after a step that does not touch the frames. -/
theorem quiet_first {α β : Type} {x : Building μ α} {f : α → Building μ β} (h : Attempt.Keeps (Quiet s) x)
    (hf : ∀ a t, Quiet s t → Ends (f a) t (fun _ u => Behind t u) fun _ u => Behind t u) :
    Ends (x >>= f) s (fun _ t => Behind s t) fun _ t => Behind s t :=
  .seq (ends_of_keeps h) (fun _ _ h => h.behind) fun a t ht => ht.behind.then (hf a t ht)

/-- What is done with the innermost frame. -/
theorem top_first {α : Type} {f : Nat × Option BuildFrame → Building μ α} {returns : α → CanonicalSet μ → Prop}
    {fails : CanonicalError → CanonicalSet μ → Prop} (hnone : s.builder.stack = [] → Ends (f (0, none)) s returns fails)
    (hsome : ∀ below frame, s.builder.stack = below ++ [frame] → Ends (f (below.length, some frame)) s returns fails) :
    Ends (top >>= f) s returns fails := by
  refine .bind (.bind (.get (.pure ?_)))
  rcases List.eq_nil_or_concat' s.builder.stack with hs | ⟨below, frame, hs⟩
  · rw [hs]
    exact hnone hs
  · rw [hs, List.getLast?_concat, last_depth]
    exact hsome below frame hs

theorem attachKey_behind (key : ByteSpan) :
    Ends (attachKey room budget key) s (fun _ t => Behind s t) fun _ t => Behind s t := by
  refine top_first (fun _ => behind_of_keeps keeps_broken) fun below frame hs => ?_
  cases frame with
  | object phase entries =>
    refine .seq (record_ends _) (fun _ _ h => h.behind) ?_
    rintro _ _ ⟨m, rfl⟩
    refine .modify (.change m _ ?_)
    show List.modify (List.set _ _ _) _ _ = _
    rw [hs, set_last, modify_last]
  | scalar | str | array => exact behind_of_keeps keeps_broken

theorem completeValue_behind (id : CanonicalId) :
    Ends (completeValue room budget id) s (fun _ t => Behind s t) fun _ t => Behind s t := by
  refine top_first (fun hs => ?_) fun below frame hs => ?_
  · refine .seq (record_ends _) (fun _ _ h => h.behind) ?_
    rintro _ _ ⟨m, rfl⟩
    exact .modify (.change m _ rfl)
  cases frame with
  | array children =>
    refine quiet_first (keeps_ask _) fun _ t ht => ?_
    refine .seq (record_ends _) (fun _ _ h => h.behind) ?_
    rintro _ _ ⟨m, rfl⟩
    refine .modify (.change m _ ?_)
    show List.modify (List.set _ _ _) _ _ = _
    rw [ht.builder, hs, set_last, modify_last]
    simp only [List.take_left]
  | object phase entries =>
    cases phase with
    | value key =>
      refine quiet_first (keeps_ask _) fun _ t ht => ?_
      refine .seq (record_ends _) (fun _ _ h => h.behind) ?_
      rintro _ _ ⟨m, rfl⟩
      have hidle : Behind t { t with mem := m, builder := { t.builder with
        undo := t.builder.undo ++ [.truncateEntries below.length entries.length] } } := by
        refine .change m _ ?_
        show List.modify _ _ _ = _
        rw [ht.builder, hs, modify_last]
        simp only [List.take_length]
      refine .seq (record_ends _) (fun _ _ h => hidle.trans h.behind) ?_
      rintro _ _ ⟨m', rfl⟩
      refine .modify ⟨.refl _, ⟨[.truncateEntries below.length entries.length,
        .restoreObjectPhase below.length (.value key)], ?_, ?_⟩, rfl⟩
      · exact List.append_assoc _ _ _
      · show List.modify (List.modify (List.set _ _ _) _ _) _ _ = _
        rw [ht.builder, hs, set_last, modify_last, modify_last]
        simp only [List.take_left]
    | keyOrClose | colon => exact behind_of_keeps keeps_broken
  | scalar | str => exact behind_of_keeps keeps_broken

theorem replaceScalar_behind {below : List BuildFrame} {phase : ScalarPhase} {start : Nat}
    (hs : s.builder.stack = below ++ [.scalar phase start]) (frame : BuildFrame) :
    Ends (replaceScalar room budget below.length phase start frame) s (fun _ t => Behind s t) fun _ t =>
    Behind s t := by
  refine .seq (record_ends _) (fun _ _ h => h.behind) ?_
  rintro _ _ ⟨m, rfl⟩
  refine .bind (.modify (.pure (.change m _ ?_)))
  show List.set (List.set _ _ _) _ _ = _
  rw [hs, set_last, set_last]

/-- A frame that goes, once its coming back is written down. -/
theorem popped_behind {below : List BuildFrame} {frame : BuildFrame} (hs : s.builder.stack = below ++ [frame]) (m : μ) :
    Behind s { s with mem := m, builder := { s.builder with
      stack := s.builder.stack.dropLast, undo := s.builder.undo ++ [.pushFrame frame] } } := by
  refine .change m _ ?_
  show List.dropLast _ ++ [frame] = _
  rw [hs, List.dropLast_concat]

theorem scalarTurn_behind {below : List BuildFrame} {phase : ScalarPhase} {start : Nat}
    (hs : s.builder.stack = below ++ [.scalar phase start])
    (byte : Byte) : Ends (scalarTurn room budget byte below.length phase start) s (fun _ t => Behind s t) fun _ t =>
    Behind s t := by
  unfold scalarTurn
  split
  · refine quiet_first (keeps_scalarStart _ _ _ _) fun _ t ht => ?_
    exact replaceScalar_behind (by rw [ht.builder, hs]) _
  · refine quiet_first keeps_textStart fun _ t ht => ?_
    exact replaceScalar_behind (by rw [ht.builder, hs]) _
  · exact replaceScalar_behind hs _
  · exact replaceScalar_behind hs _
  · refine quiet_first (keeps_finishScalar _ _) fun _ t ht => quiet_first (keeps_pushItemNode _) fun id u hu => ?_
    refine .seq (record_ends _) (fun _ _ h => h.behind) ?_
    rintro _ _ ⟨m, rfl⟩
    refine .bind (.modify (Behind.then (popped_behind (by rw [hu.builder, ht.builder, hs]) m) ?_))
    exact .seq (completeValue_behind id) (fun _ _ h => h) fun _ v hv => .bind (.get (.pure hv))
  · exact behind_of_keeps keeps_broken

/-- What is opened on top. -/
theorem openFrame_behind (frame : BuildFrame) :
    Ends (openFrame room budget frame) s (fun _ t => Behind s t) fun _ t => Behind s t := by
  refine quiet_first keeps_reserveStack fun _ t _ => .seq (record_ends _) (fun _ _ h => h.behind) ?_
  rintro _ _ ⟨m, rfl⟩
  exact .modify (.change m _ List.dropLast_concat)

theorem closeFrame_behind {below : List BuildFrame} {frame : BuildFrame} (hs : s.builder.stack = below ++ [frame])
    (id : CanonicalId) :
    Ends (closeFrame room budget frame id) s (fun _ t => Behind s t) fun _ t => Behind s t := by
  refine .bind (.modify (.bind (.modify (Behind.then (popped_behind hs s.mem) ?_))))
  exact .seq (completeValue_behind id) (fun _ _ h => h) fun _ v hv => .pure hv

theorem closeArray_behind {below : List BuildFrame} {children : List CanonicalId}
    (hs : s.builder.stack = below ++ [.array children]) :
    Ends (closeArray room budget children) s (fun _ t => Behind s t) fun _ t => Behind s t := by
  refine quiet_first keeps_reserveRecord fun _ t₀ h₀ => .bind (.get ?_)
  refine quiet_first (keeps_checkedU32 _) fun start t₁ h₁ => quiet_first (keeps_ask _) fun _ t₂ h₂ => ?_
  refine quiet_first (keeps_pushChildrenBatch _) fun _ t₃ h₃ => quiet_first (keeps_checkedU32 _) fun len t₄ h₄ => ?_
  refine quiet_first (keeps_pushItemNode _) fun id t₅ h₅ => ?_
  have hstack : t₅.builder.stack = below ++ [.array children] := by
    rw [h₅.builder, h₄.builder, h₃.builder, h₂.builder, h₁.builder, h₀.builder, hs]
  exact closeFrame_behind hstack id

theorem arrayTurn_behind {below : List BuildFrame} {children : List CanonicalId}
    (hs : s.builder.stack = below ++ [.array children])
    (byte : Byte) : Ends (arrayTurn room budget byte children) s (fun _ t => Behind s t) fun _ t => Behind s t := by
  unfold arrayTurn
  split
  · exact .pure (.refl s)
  split
  · exact closeArray_behind hs
  · exact .seq (openFrame_behind _) (fun _ _ h => h) fun _ _ h => .pure h

theorem closeObject_behind {below : List BuildFrame} {entries : List ObjectEntry}
    (hs : s.builder.stack = below ++ [.object .keyOrClose entries]) :
    Ends (closeObject room budget entries) s (fun _ t => Behind s t) fun _ t => Behind s t := by
  refine quiet_first keeps_reserveRecord fun _ t₀ h₀ => .bind (.get ?_)
  refine .seq (checkedU32_ends fun h => .inr (.inr (.inr h))) (fun e t (h : Failed room _ e t) => h.behind) ?_
  rintro _ _ ⟨rfl, rfl⟩
  refine .bind ((ends_of_keeps (keeps_ask _)).mono (fun _ t₂ h₂ => ?_) fun _ _ h => h.behind)
  refine .bind ((ends_of_keeps (keeps_pushEntriesBatch _)).mono (fun _ t₃ h₃ => ?_) fun _ _ h => (h₂.trans h).behind)
  refine .bind ((ends_of_keeps (keeps_checkedU32 _)).mono (fun len t₄ h₄ => ?_) fun _ _ h =>
    (h₂.trans (h₃.trans h)).behind)
  refine .bind ((ends_of_keeps (keeps_pushItemNode _)).mono (fun id t₅ h₅ => ?_) fun _ _ h =>
    (h₂.trans (h₃.trans (h₄.trans h))).behind)
  have hq := h₂.trans (h₃.trans (h₄.trans h₅))
  refine .bind (.modify (Behind.then ⟨hq.arena.sortEntries (Nat.le_refl _), hq.behind.journal, hq.buckets⟩ ?_))
  have hstack : t₅.builder.stack = below ++ [.object .keyOrClose entries] := by rw [hq.builder, h₀.builder, hs]
  exact closeFrame_behind (s := { t₅ with arena := t₅.arena.sortEntriesFrom _ }) hstack id

theorem openKey_behind : Ends (openKey room budget) s (fun _ t => Behind s t) fun _ t => Behind s t :=
  quiet_first keeps_textStart fun _ _ _ => .seq (openFrame_behind _) (fun _ _ h => h) fun _ _ h => .pure h

theorem objectTurn_behind {below : List BuildFrame} {phase : ObjectBuildPhase} {entries : List ObjectEntry}
    (hs : s.builder.stack = below ++ [.object phase entries]) (byte : Byte) :
    Ends (objectTurn room budget byte below.length phase entries) s (fun _ t => Behind s t) fun _ t => Behind s t := by
  cases phase with
  | keyOrClose =>
    unfold objectTurn
    dsimp only
    split
    · exact .pure (.refl s)
    split
    · exact openKey_behind
    split
    · exact closeObject_behind hs
    · exact behind_of_keeps keeps_broken
  | colon key =>
    unfold objectTurn
    dsimp only
    split
    · exact .pure (.refl s)
    split
    · exact behind_of_keeps keeps_broken
    · refine .seq (record_ends _) (fun _ _ h => h.behind) ?_
      rintro _ _ ⟨m, rfl⟩
      refine .bind (.modify (.pure (.change m _ ?_)))
      show List.modify (List.set _ _ _) _ _ = _
      rw [hs, set_last, modify_last]
  | value key =>
    unfold objectTurn
    dsimp only
    split
    · exact .pure (.refl s)
    · exact .seq (openFrame_behind _) (fun _ _ h => h) fun _ _ h => .pure h

/-! ### Strings -/

/-- The frames a refused byte leaves: the decoder of a string that goes on has moved. -/
def leftFrames (byte : Byte) (stack : List BuildFrame) : List BuildFrame :=
  match stack.getLast? with
  | some (.str decoder start asKey) =>
    if byte = 0x22 ∧ decoder.atBoundary = true then stack
    else stack.set (stack.length - 1) (.str (decoder.push byte).2 start asKey)
  | _ => stack

/-- No string is innermost. -/
def NoString (stack : List BuildFrame) : Prop := ∀ decoder start asKey, stack.getLast? ≠ some (.str decoder start asKey)

theorem NoString.leftFrames {stack : List BuildFrame} (h : NoString stack) (byte : Byte) :
    leftFrames byte stack = stack := by
  unfold Building.leftFrames
  split
  · rename_i hlast
    exact absurd hlast (h _ _ _)
  · rfl

/-- What a refused byte leaves. -/
def moved (byte : Byte) (s : CanonicalSet μ) : CanonicalSet μ :=
  { s with builder := { s.builder with stack := leftFrames byte s.builder.stack } }

theorem closeStr_behind (span : ByteSpan) (asKey : Bool) :
    Ends (closeStr room budget span asKey) s (fun _ t => Behind s t) fun _ t => Behind s t := by
  unfold closeStr
  split
  · exact attachKey_behind span
  · exact quiet_first (keeps_pushItemNode _) fun id _ _ => completeValue_behind id

theorem keeps_takeDecoded (step : DecodeStep) : Attempt.Keeps (Quiet s) (takeDecoded room budget step) := by
  cases step with
  | cont => exact .pure ()
  | scalar c => exact keeps_pushItemBytes _
  | invalid => exact keeps_broken

theorem strTurn_behind {below : List BuildFrame} {decoder : JsonStringDecoder} {start : Nat} {asKey : Bool}
    (hs : s.builder.stack = below ++ [.str decoder start asKey]) (byte : Byte) :
    Ends (strTurn room budget byte below.length decoder start asKey) s (fun _ t => Behind s t) fun _ t =>
    Behind (moved byte s) t := by
  have hleft : leftFrames byte s.builder.stack = if byte = 0x22 ∧ decoder.atBoundary = true then s.builder.stack
      else below ++ [.str (decoder.push byte).2 start asKey] := by
    simp only [leftFrames, hs, List.getLast?_concat, last_depth, set_last]
  unfold strTurn
  split
  · rename_i hclose
    have hmoved : moved byte s = s := by rw [moved, hleft, if_pos hclose]
    rw [hmoved]
    refine quiet_first keeps_textStart fun stop t ht => ?_
    refine .seq (record_ends _) (fun _ _ h => h.behind) ?_
    rintro _ _ ⟨m, rfl⟩
    refine .bind (.modify (Behind.then (popped_behind (by rw [ht.builder, hs]) m) ?_))
    exact .seq (closeStr_behind _ _) (fun _ _ h => h) fun _ _ h => .pure h
  · rename_i hgoes
    have hmoved : moved byte s = { s with builder := { s.builder with
      stack := s.builder.stack.set below.length (.str (decoder.push byte).2 start asKey) } } := by
      rw [moved, hleft, if_neg hgoes, hs, set_last]
    rw [hmoved]
    refine .bind (.modify ?_)
    refine .bind ((ends_of_keeps (keeps_takeDecoded _)).mono (fun _ t ht => ?_) fun _ _ h => h.behind)
    refine .seq (record_ends _) (fun _ _ h => ht.behind.trans h.behind) ?_
    rintro _ _ ⟨m, rfl⟩
    refine .pure ⟨ht.arena, ⟨[.restoreString below.length decoder], ?_, ?_⟩, ht.buckets⟩
    · exact congrArg (fun b => CanonicalBuilder.undo b ++ [.restoreString below.length decoder]) ht.builder
    · show List.modify _ _ _ = _
      rw [ht.builder]
      show List.modify (List.set _ _ _) _ _ = _
      rw [hs, set_last, modify_last]

/-! ### Bytes -/

/-- What follows a step, whatever the step does. -/
theorem after {α β : Type} {x : Building μ α} {f : α → Building μ β} {returns : β → CanonicalSet μ → Prop}
    (h : ∀ a t, Ends (f a) t returns fun _ _ => True) : Ends (x >>= f) s returns fun _ _ => True :=
  .seq (.trivial x s) (fun _ _ h => h) fun a t _ => h a t

theorem noString_nil : NoString [] := fun _ _ _ h => by cases h

theorem noString_last {below : List BuildFrame} {frame : BuildFrame}
    (h : ∀ decoder start asKey, frame ≠ .str decoder start asKey) :
    NoString (below ++ [frame]) := fun decoder start asKey hlast => by
  rw [List.getLast?_concat, Option.some.injEq] at hlast
  exact h _ _ _ hlast

theorem completeValue_noString (id : CanonicalId) :
    Ends (completeValue room budget id) s (fun _ t => NoString t.builder.stack) fun _ _ => True := by
  refine top_first (fun hs => ?_) fun below frame hs => ?_
  · refine .seq (record_ends _) (fun _ _ _ => trivial) ?_
    rintro _ _ ⟨m, rfl⟩
    exact .modify (hs ▸ noString_nil)
  cases frame with
  | array children =>
    refine .seq (grow_ends _ _ _) (fun _ _ _ => trivial) ?_
    rintro _ _ ⟨m, rfl⟩
    refine .seq (record_ends _) (fun _ _ _ => trivial) ?_
    rintro _ _ ⟨m, rfl⟩
    refine .modify ?_
    show NoString (List.set _ _ _)
    rw [hs, set_last]
    exact noString_last fun _ _ _ h => by cases h
  | object phase entries =>
    cases phase with
    | value key =>
      refine .seq (grow_ends _ _ _) (fun _ _ _ => trivial) ?_
      rintro _ _ ⟨m, rfl⟩
      refine .seq (record_ends _) (fun _ _ _ => trivial) ?_
      rintro _ _ ⟨m, rfl⟩
      refine .seq (record_ends _) (fun _ _ _ => trivial) ?_
      rintro _ _ ⟨m, rfl⟩
      refine .modify ?_
      show NoString (List.set _ _ _)
      rw [hs, set_last]
      exact noString_last fun _ _ _ h => by cases h
    | keyOrClose | colon => exact trivial
  | scalar | str => exact trivial

theorem openFrame_noString {frame : BuildFrame} (h : ∀ decoder start asKey, frame ≠ .str decoder start asKey) :
    Ends (openFrame room budget frame) s (fun _ t => NoString t.builder.stack) fun _ _ => True :=
  after fun _ _ => after fun _ _ => .modify (noString_last h)

/-- A byte that is not used up was not for a string, and is not for one next. -/
theorem turn_unused (byte : Byte) : Ends (turn room budget byte) s
    (fun used t => used = false → NoString s.builder.stack ∧ NoString t.builder.stack) fun _ _ => True := by
  refine top_first (fun hs => trivial) fun below frame hs => ?_
  cases frame with
  | scalar phase start =>
    have hnone : NoString s.builder.stack := hs ▸ noString_last fun _ _ _ h => by cases h
    dsimp only
    unfold scalarTurn
    split
    · exact after fun _ _ => after fun _ _ => after fun _ _ => .pure fun h => by cases h
    · exact after fun _ _ => after fun _ _ => after fun _ _ => .pure fun h => by cases h
    · exact after fun _ _ => after fun _ _ => .pure fun h => by cases h
    · exact after fun _ _ => after fun _ _ => .pure fun h => by cases h
    · refine after fun _ _ => after fun _ _ => after fun _ _ => after fun _ _ => ?_
      exact .seq (completeValue_noString _) (fun _ _ h => h) fun _ _ h => .bind (.get (.pure fun _ => ⟨hnone, h⟩))
    · exact trivial
  | str decoder start asKey =>
    dsimp only
    unfold strTurn
    split
    · exact after fun _ _ => after fun _ _ => after fun _ _ => after fun _ _ => .pure fun h => by cases h
    · exact after fun _ _ => after fun _ _ => after fun _ _ => .pure fun h => by cases h
  | array children =>
    have hnone : NoString s.builder.stack := hs ▸ noString_last fun _ _ _ h => by cases h
    dsimp only
    unfold arrayTurn
    split
    · exact .pure fun h => by cases h
    split
    · refine after fun _ _ => after fun _ _ => after fun _ _ => after fun _ _ => after fun _ _ => after fun _ _ =>
        after fun _ _ => ?_
      exact after fun _ _ => after fun _ _ => after fun _ _ => .pure fun h => by cases h
    · exact .seq (openFrame_noString fun _ _ _ h => by cases h) (fun _ _ h => h) fun _ _ h => .pure fun _ => ⟨hnone, h⟩
  | object phase entries =>
    have hnone : NoString s.builder.stack := hs ▸ noString_last fun _ _ _ h => by cases h
    cases phase with
    | keyOrClose =>
      dsimp only
      unfold objectTurn
      dsimp only
      split
      · exact .pure fun h => by cases h
      split
      · exact after fun _ _ => after fun _ _ => .pure fun h => by cases h
      split
      · refine after fun _ _ => after fun _ _ => after fun _ _ => after fun _ _ => after fun _ _ => after fun _ _ =>
          after fun _ _ => ?_
        exact after fun _ _ => after fun _ _ => after fun _ _ => after fun _ _ => .pure fun h => by cases h
      · exact trivial
    | colon key =>
      dsimp only
      unfold objectTurn
      dsimp only
      split
      · exact .pure fun h => by cases h
      split
      · exact trivial
      · exact after fun _ _ => after fun _ _ => .pure fun h => by cases h
    | value key =>
      dsimp only
      unfold objectTurn
      dsimp only
      split
      · exact .pure fun h => by cases h
      · exact .seq (openFrame_noString fun _ _ _ h => by cases h) (fun _ _ h => h) fun _ _ h =>
          .pure fun _ => ⟨hnone, h⟩

theorem moved_noString (h : NoString s.builder.stack) (byte : Byte) : moved byte s = s := by
  rw [moved, h.leftFrames]

/-- **One turn**: what it did can be taken back, and where it fails, a string's decoder alone has moved. -/
theorem turn_behind (byte : Byte) :
    Ends (turn room budget byte) s (fun _ t => Behind s t) fun _ t => Behind (moved byte s) t := by
  refine top_first (fun hs => ?_) fun below frame hs => ?_
  · rw [moved_noString (hs ▸ noString_nil)]
    exact behind_of_keeps keeps_broken
  cases frame with
  | scalar phase start =>
    rw [moved_noString (hs ▸ noString_last fun _ _ _ h => by cases h)]
    exact scalarTurn_behind hs byte
  | str decoder start asKey => exact strTurn_behind hs byte
  | array children =>
    rw [moved_noString (hs ▸ noString_last fun _ _ _ h => by cases h)]
    exact arrayTurn_behind hs byte
  | object phase entries =>
    rw [moved_noString (hs ▸ noString_last fun _ _ _ h => by cases h)]
    exact objectTurn_behind hs byte

theorem turns_behind (byte : Byte) : ∀ (n : Nat) (s : CanonicalSet μ), (n = 0 → NoString s.builder.stack) →
    Ends (turns room budget byte n) s (fun _ t => Behind s t) fun _ t => Behind (moved byte s) t
  | 0, s, h => by
    rw [moved_noString (h rfl)]
    exact behind_of_keeps keeps_stuck
  | n + 1, s, _ => by
    refine .bind (((turn_behind byte).and (turn_unused byte)).mono (fun used t ht => ?_) fun _ _ h => h.1)
    cases used with
    | true => exact .pure ht.1
    | false =>
      obtain ⟨hs, hnone⟩ := ht.2 rfl
      rw [moved_noString hs]
      refine (turns_behind byte n t fun _ => hnone).mono (fun _ _ h => ht.1.trans h) fun _ _ h => ?_
      rw [moved_noString hnone] at h
      exact ht.1.trans h

/-- What a refused byte leaves of an item, done or not. -/
def refused (byte : Byte) (s : CanonicalSet μ) : CanonicalSet μ := if s.builder.root.isSome then s else moved byte s

theorem pushByte_behind (byte : Byte) :
    Ends (pushByte room budget byte) s (fun _ t => Behind s t) fun _ t => Behind (refused byte s) t := by
  refine .bind (.get ?_)
  unfold refused
  split
  · split
    · exact .pure (.refl s)
    · exact behind_of_keeps keeps_broken
  · exact turns_behind byte 3 s fun h => by cases h

theorem builderMark_refused (byte : Byte) : builderMark (refused byte s) = builderMark s := by
  unfold refused
  split <;> rfl

/-- A byte that is fed can be taken back. -/
theorem feedItem_behind {byte : Byte} {mark : BuilderMark} (h : feedItem room budget byte s = (.ok mark, t)) :
    Behind s t := by
  unfold feedItem at h
  split at h
  · rename_i hpush
    cases h
    exact (pushByte_behind byte).ok hpush
  · cases h

/-- A byte that is refused has moved the decoder of an open string and changed nothing else. -/
theorem feedItem_refused {byte : Byte} {e : CanonicalError} (h : feedItem room budget byte s = (.error e, t)) :
    contents t = contents (refused byte s) := by
  unfold feedItem at h
  split at h
  · cases h
  · rename_i hpush
    cases h
    rw [← builderMark_refused byte]
    exact ((pushByte_behind byte).error hpush).contents_restore

/-! ### Items -/

theorem keeps_pushEach {α : Type} (store : Store) :
    ∀ items stack : List α, Attempt.Keeps (Quiet s) (pushEach room budget store items stack)
  | [], _ => .pure _
  | _ :: items, _ => .bind (keeps_ask _) fun _ => keeps_pushEach store items _

theorem keeps_hashLoop : ∀ (fuel : Nat) (stack : List CanonicalId) (writes : List HashWrite),
    Attempt.Keeps (Quiet s) (hashLoop room budget fuel stack writes)
  | 0, _, _ => keeps_stuck
  | _ + 1, [], _ => .pure _
  | fuel + 1, id :: stack, writes => by
    rw [hashLoop]
    refine .bind .get fun t => ?_
    split
    · exact keeps_stuck
    · exact keeps_hashLoop fuel _ _
    · exact keeps_hashLoop fuel _ _
    · exact keeps_hashLoop fuel _ _
    · exact keeps_hashLoop fuel _ _
    · exact .bind (keeps_pushEach _ _ _) fun _ => keeps_hashLoop fuel _ _
    · exact .bind (keeps_pushEach _ _ _) fun _ => keeps_hashLoop fuel _ _

theorem keeps_fingerprint (root : CanonicalId) : Attempt.Keeps (Quiet s) (fingerprint room hasher budget root) :=
  .bind .get fun _ => .bind (keeps_ask _) fun _ => .bind (keeps_hashLoop _ _ _) fun _ => .pure _

theorem keeps_eqLoop :
    ∀ (fuel : Nat) (stack : List (CanonicalId × CanonicalId)), Attempt.Keeps (Quiet s) (eqLoop room budget fuel stack)
  | 0, _ => keeps_stuck
  | _ + 1, [] => .pure _
  | fuel + 1, (x, y) :: stack => by
    rw [eqLoop]
    split
    · exact keeps_eqLoop fuel _
    refine .bind .get fun t => ?_
    split
    · exact keeps_stuck
    · exact keeps_stuck
    · exact keeps_eqLoop fuel _
    · split
      · exact keeps_eqLoop fuel _
      · exact .pure _
    · split
      · exact keeps_eqLoop fuel _
      · exact .pure _
    · split
      · exact keeps_eqLoop fuel _
      · exact .pure _
    · split
      · exact .pure _
      · exact .bind (keeps_pushEach _ _ _) fun _ => keeps_eqLoop fuel _
    · split
      · exact .pure _
      split
      · exact .pure _
      · exact .bind (keeps_pushEach _ _ _) fun _ => keeps_eqLoop fuel _
    · exact .pure _

theorem keeps_arenaEq (a b : CanonicalId) : Attempt.Keeps (Quiet s) (arenaEq room budget a b) :=
  .bind .get fun _ => .bind (keeps_ask _) fun _ => keeps_eqLoop _ _

theorem keeps_anyEqual (root : CanonicalId) :
    ∀ ids : List CanonicalId, Attempt.Keeps (Quiet s) (anyEqual room budget root ids)
  | [] => .pure _
  | existing :: rest => by
    refine .bind (keeps_arenaEq _ _) fun equal => ?_
    split
    · exact .pure _
    · exact keeps_anyEqual root rest

/-- The bucket of a hash, empty where there is none. -/
def bucketOf (s : CanonicalSet μ) (fingerprint : UInt64) : List CanonicalId := (s.buckets.lookup fingerprint).getD []

theorem insert_ends (root : CanonicalId) : Ends (insert room hasher budget root) s
    (fun result t => (result = .duplicate ∧ Quiet s t) ∨ ∃ u fingerprint, Quiet s u ∧
      result = .inserted fingerprint (bucketOf s fingerprint).length (s.buckets.lookup fingerprint).isNone ∧
      t = { u with buckets := s.buckets.insert fingerprint (bucketOf s fingerprint ++ [root]) }) fun _ t =>
      Quiet s t := by
  refine .bind ((ends_of_keeps (keeps_fingerprint root)).mono (fun fingerprint t ht => ?_) fun _ _ h => h)
  refine .bind (.get (.bind ((ends_of_keeps (keeps_anyEqual root _)).mono (fun duplicate u hu => ?_) fun _ _ h =>
    ht.trans h)))
  split
  · exact .pure (.inl ⟨rfl, ht.trans hu⟩)
  · refine .bind ((ends_of_keeps (keeps_ask _)).mono (fun _ v hv => ?_) fun _ _ h => ht.trans (hu.trans h))
    have hq := ht.trans (hu.trans hv)
    refine .bind (.modify (.pure (.inr ⟨v, fingerprint, hq, ?_, ?_⟩)))
    · rw [ht.buckets]
      rfl
    · rw [hq.buckets, ht.buckets]
      rfl

/-- Both frames of a scalar whose going was written down, but did not happen. -/
def doubled (frame : BuildFrame) (s : CanonicalSet μ) : CanonicalSet μ :=
  { s with builder := { s.builder with stack := [frame, frame] } }

/-- `finish` on an open scalar, up to the first of the two entries it writes into the journal. -/
def closeNoted (room : Room μ) (budget : Nat) (phase : ScalarPhase) (start : Nat) : Building μ CanonicalId := do
  let node ← finishScalar room budget phase start
  let id ← pushItemNode room budget node
  record room budget (.pushFrame (.scalar phase start))
  return id

theorem closeRoot_eq (phase : ScalarPhase) (start : Nat) : closeRoot room budget phase start = (do
    let id ← closeNoted room budget phase start
    record room budget .restoreRoot
    popFrame
    setRoot id
    return id) := by
  unfold closeNoted
  rw [Attempt.bind_assoc]
  refine congrArg _ (funext fun node => ?_)
  rw [Attempt.bind_assoc]
  refine congrArg _ (funext fun id => ?_)
  rw [Attempt.bind_assoc]
  rfl

theorem closeNoted_ends (phase : ScalarPhase) (start : Nat) : Ends (closeNoted room budget phase start) s
    (fun _ u => ∃ q m, Quiet s q ∧
      u = { q with mem := m, builder := { q.builder with
        undo := q.builder.undo ++ [.pushFrame (.scalar phase start)] } })
    fun _ t => Behind s t := by
  refine .bind ((ends_of_keeps (keeps_finishScalar _ _)).mono (fun node t ht => ?_) fun _ _ h => h.behind)
  refine .bind ((ends_of_keeps (keeps_pushItemNode _)).mono (fun id u hu => ?_) fun _ _ h => (ht.trans h).behind)
  have hq := ht.trans hu
  refine .seq (record_ends _) (fun _ _ h => hq.behind.trans h.behind) ?_
  rintro _ _ ⟨m, rfl⟩
  exact .pure ⟨u, m, hq, rfl⟩

/-- The journal takes the first of the two entries of an open scalar's end, and refuses the second, that of the root. -/
def SecondRefused (room : Room μ) (budget : Nat) (phase : ScalarPhase) (start : Nat) (e : CanonicalError)
    (s : CanonicalSet μ) : Prop :=
  ∃ id u v, closeNoted room budget phase start s = (.ok id, u) ∧ record room budget .restoreRoot u = (.error e, v)

theorem closeRoot_behind {phase : ScalarPhase} {start : Nat} (hs : s.builder.stack = [.scalar phase start]) :
    Ends (closeRoot room budget phase start) s (fun _ t => Behind s t)
      fun e t => Behind s t ∨ SecondRefused room budget phase start e s ∧
      Behind (doubled (.scalar phase start) s) t := by
  rw [closeRoot_eq]
  refine .bind (.of (fun id u hnoted => ?_) fun e t hnoted => .inl ((closeNoted_ends phase start).error hnoted))
  obtain ⟨q, m, hq, rfl⟩ := (closeNoted_ends phase start).ok hnoted
  have hstack : q.builder.stack = [.scalar phase start] := by rw [hq.builder, hs]
  refine .bind (.of (fun _ t hsecond => ?_) fun e t hsecond => .inr ⟨⟨id, _, t, hnoted, hsecond⟩, ?_⟩)
  · obtain ⟨m', rfl⟩ := (record_ends _).ok hsecond
    refine .bind (.modify (.bind (.modify (.pure (hq.behind.trans
      ⟨.refl _, ⟨[.pushFrame (.scalar phase start), .restoreRoot], ?_, ?_⟩, rfl⟩)))))
    · exact List.append_assoc _ _ _
    · show List.dropLast q.builder.stack ++ [_] = q.builder.stack
      rw [hstack]
      rfl
  · have h := (record_ends _).error hsecond
    refine ⟨hq.arena.trans h.1.arena, ⟨[.pushFrame (.scalar phase start)], ?_, ?_⟩, h.1.buckets.trans hq.buckets⟩
    · rw [h.1.builder, hq.builder]
      rfl
    · rw [h.1.builder]
      show q.builder.stack ++ [_] = _
      rw [hstack]
      rfl

theorem finish_behind : Ends (finish room budget) s (fun _ t => Behind s t)
    fun e t => Behind s t ∨ ∃ phase start, s.builder.root = none ∧ s.builder.stack = [.scalar phase start] ∧
      SecondRefused room budget phase start e s ∧ Behind (doubled (.scalar phase start) s) t := by
  refine .bind (.get ?_)
  split
  · exact .pure (.refl s)
  · rename_i phase start hroot hs
    exact (closeRoot_behind hs).mono (fun _ _ h => h) fun _ _ h => h.imp_right fun h => ⟨phase, start, hroot, hs, h⟩
  · exact (behind_of_keeps keeps_broken).mono (fun _ _ h => h) fun _ _ h => .inl h

/-- What is kept of an insertion, to take it back. -/
structure Insertion where
  fingerprint : UInt64
  oldBucketLen : Nat
  bucketCreated : Bool

def insertionBack (room : Room μ) (s : CanonicalSet μ) (i : Insertion) : CanonicalSet μ :=
  rollbackInsert room i.fingerprint i.oldBucketLen i.bucketCreated s

/-- The insertions taken back, the newest in front. -/
def takeBack (room : Room μ) (insertions : List Insertion) (s : CanonicalSet μ) : CanonicalSet μ :=
  insertions.foldl (insertionBack room) s

/-- Nothing but an insertion into the buckets separates two sets. -/
theorem rollback_insert {fingerprint : UInt64} {root : CanonicalId}
    (h : t.buckets = s.buckets.insert fingerprint (bucketOf s fingerprint ++ [root])) :
    (rollbackInsert room fingerprint (bucketOf s fingerprint).length (s.buckets.lookup fingerprint).isNone t).buckets =
    s.buckets := by
  unfold rollbackInsert bucketOf at *
  cases hlookup : s.buckets.lookup fingerprint with
  | none =>
    rw [Option.isNone_none, if_pos rfl]
    apply Finmap.ext_lookup
    intro x
    by_cases hx : x = fingerprint
    · rw [hx, Finmap.lookup_erase, hlookup]
    · rw [Finmap.lookup_erase_ne hx, h, Finmap.lookup_insert_of_ne _ hx]
  | some ids =>
    rw [Option.isNone_some, if_neg Bool.false_ne_true, h, Finmap.lookup_insert]
    apply Finmap.ext_lookup
    intro x
    by_cases hx : x = fingerprint
    · rw [hx, Finmap.lookup_insert, hlookup, Option.getD_some, List.take_left]
    · rw [Finmap.lookup_insert_of_ne _ hx, Finmap.lookup_insert_of_ne _ hx]

theorem rollback_arena (room : Room μ) (fingerprint : UInt64) (old : Nat) (created : Bool) (s : CanonicalSet μ) :
    (rollbackInsert room fingerprint old created s).arena = s.arena ∧
    (rollbackInsert room fingerprint old created s).builder = s.builder := by
  unfold rollbackInsert
  split
  · exact ⟨rfl, rfl⟩
  · split <;> exact ⟨rfl, rfl⟩

/-- What an insertion's way back does to the buckets does not depend on anything else. -/
theorem rollback_congr (fingerprint : UInt64) (old : Nat) (created : Bool) (h : s.buckets = t.buckets) :
    (rollbackInsert room fingerprint old created s).buckets =
    (rollbackInsert room fingerprint old created t).buckets := by
  unfold rollbackInsert
  rw [h]
  split
  · rfl
  · split <;> simp [h]

theorem takeBack_arena (room : Room μ) : ∀ (insertions : List Insertion) (s : CanonicalSet μ),
    (takeBack room insertions s).arena = s.arena ∧ (takeBack room insertions s).builder = s.builder
  | [], _ => ⟨rfl, rfl⟩
  | i :: insertions, s => by
    obtain ⟨harena, hbuilder⟩ := takeBack_arena room insertions (insertionBack room s i)
    obtain ⟨harena', hbuilder'⟩ := rollback_arena room i.fingerprint i.oldBucketLen i.bucketCreated s
    exact ⟨harena.trans harena', hbuilder.trans hbuilder'⟩

theorem takeBack_congr : ∀ (insertions : List Insertion) {s t : CanonicalSet μ}, s.buckets = t.buckets →
    (takeBack room insertions s).buckets = (takeBack room insertions t).buckets
  | [], _, _, h => h
  | i :: insertions, _, _, h => takeBack_congr insertions
      (rollback_congr i.fingerprint i.oldBucketLen i.bucketCreated h)

/-- **A run of accepted bytes and finished items**, with what it inserted, the newest in front. -/
inductive Fed (room : Room μ) (hasher : List HashWrite → UInt64) (s : CanonicalSet μ) :
    List Insertion → CanonicalSet μ → Prop
  | start : Fed room hasher s [] s
  | byte {insertions : List Insertion} {t u : CanonicalSet μ} {budget : Nat} {byte : Byte} {mark : BuilderMark}
      (h : Fed room hasher s insertions t)
      (hfeed : feedItem room budget byte t = (.ok mark, u)) : Fed room hasher s insertions u
  | duplicate {insertions : List Insertion} {t u : CanonicalSet μ} {budget : Nat} (h : Fed room hasher s insertions t)
      (hfinish : finishItem room hasher budget t = (.ok .duplicate, u)) : Fed room hasher s insertions u
  | inserted {insertions : List Insertion} {t u : CanonicalSet μ} {budget : Nat} {fingerprint : UInt64} {old : Nat}
      {created : Bool}
      (h : Fed room hasher s insertions t) (hfinish : finishItem room hasher budget t =
        (.ok (.inserted fingerprint old created), u)) :
      Fed room hasher s (⟨fingerprint, old, created⟩ :: insertions) u

theorem finishItem_duplicate (h : finishItem room hasher budget s = (.ok .duplicate, t)) : contents t = contents s := by
  unfold finishItem at h
  split at h
  · cases h
  · rename_i id u hfinish
    split at h
    · rename_i v hinsert
      cases h
      rcases insert_ends id |>.ok hinsert with ⟨-, hq⟩ | ⟨_, _, _, hresult, -⟩
      · exact ((finish_behind.ok hfinish).trans hq.behind).contents_restore
      · cases hresult
    · cases h
    · cases h

theorem finishItem_error {e : CanonicalError} (h : finishItem room hasher budget s = (.error e, t)) :
    contents t = contents s ∨ ∃ phase start, s.builder.root = none ∧ s.builder.stack = [.scalar phase start] ∧
      SecondRefused room budget phase start e s ∧ contents t = contents (doubled (.scalar phase start) s) := by
  unfold finishItem at h
  split at h
  · rename_i e' u hfinish
    cases h
    rcases finish_behind.error hfinish with hb | ⟨phase, start, hroot, hs, hsecond, hb⟩
    · exact .inl hb.contents_restore
    · exact .inr ⟨phase, start, hroot, hs, hsecond, hb.contents_restore⟩
  · rename_i id u hfinish
    split at h
    · cases h
    · cases h
    · rename_i e' v hinsert
      cases h
      exact .inl ((finish_behind.ok hfinish).trans ((insert_ends id).error hinsert).behind).contents_restore

/-- An item that is kept: the builder can go back, and the bucket too. -/
theorem finishItem_inserted {fingerprint : UInt64} {old : Nat} {created : Bool}
    (h : finishItem room hasher budget s = (.ok (.inserted fingerprint old created), t)) :
    Behind s { t with buckets := s.buckets } ∧ (rollbackInsert room fingerprint old created t).buckets = s.buckets := by
  unfold finishItem at h
  split at h
  · cases h
  · rename_i id u hfinish
    have hb := finish_behind.ok hfinish
    split at h
    · cases h
    · rename_i hinsert
      cases h
      rcases (insert_ends id).ok hinsert with ⟨hresult, -⟩ | ⟨v, _, hq, hresult, rfl⟩
      · cases hresult
      · cases hresult
        refine ⟨⟨hb.arena.trans hq.arena, (hb.trans hq.behind).journal, rfl⟩, ?_⟩
        rw [← hb.buckets]
        exact rollback_insert rfl
    · cases h

theorem Behind.more {old new : List Insertion} (h : Behind s (takeBack room old t))
    (hb : Behind t { u with buckets := t.buckets })
    (hbuckets : (takeBack room new u).buckets = (takeBack room old t).buckets) : Behind s (takeBack room new u) := by
  obtain ⟨htarena, htbuilder⟩ := takeBack_arena room old t
  obtain ⟨huarena, hubuilder⟩ := takeBack_arena room new u
  have harena := h.arena
  have hjournal := h.journal
  rw [htarena] at harena
  rw [htbuilder] at hjournal
  refine ⟨?_, ?_, hbuckets.trans h.buckets⟩
  · rw [huarena]
    exact harena.trans hb.arena
  · rw [hubuilder]
    exact hjournal.trans hb.journal

/-- What a run has inserted is taken back first; the builder can go back from there. -/
theorem Fed.behind {insertions : List Insertion} (h : Fed room hasher s insertions t) :
    Behind s (takeBack room insertions t) := by
  induction h with
  | start => exact .refl s
  | byte _ hfeed ih =>
    have hb := feedItem_behind hfeed
    exact ih.more ⟨hb.arena, hb.journal, rfl⟩ (takeBack_congr _ hb.buckets)
  | @duplicate _ t u _ _ hfinish ih =>
    have hc := finishItem_duplicate hfinish
    have harena : u.arena = t.arena := congrArg Prod.fst hc
    have hbuckets : u.buckets = t.buckets := congrArg (fun c => c.2.1) hc
    have hbuilder : u.builder = t.builder := congrArg (fun c => c.2.2) hc
    exact ih.more ⟨harena ▸ .refl _, hbuilder ▸ .refl _, rfl⟩ (takeBack_congr _ hbuckets)
  | inserted _ hfinish ih =>
    obtain ⟨hb, hbuckets⟩ := finishItem_inserted hfinish
    exact ih.more hb (takeBack_congr _ hbuckets)

/-- **Every step of an item can be taken back.**  A refused byte has moved the decoder of an open string and changed
nothing else; an item that is not kept leaves everything as it was, unless it is an open scalar and the journal takes
the first entry of its end and refuses the second, where its frame stands twice; and whatever a run has fed and
inserted, taking its insertions back and going back to the mark at its start gives the arena, the buckets and the
builder there were. -/
theorem canonical_reversible (room : Room μ) (hasher : List HashWrite → UInt64) (s : CanonicalSet μ) :
    (∀ budget byte e t, feedItem room budget byte s = (.error e, t) → contents t = contents (refused byte s)) ∧
    (∀ budget e t, finishItem room hasher budget s = (.error e, t) → contents t = contents s ∨
      ∃ phase start, s.builder.root = none ∧ s.builder.stack = [.scalar phase start] ∧
        SecondRefused room budget phase start e s ∧ contents t = contents (doubled (.scalar phase start) s)) ∧
    (∀ budget t, finishItem room hasher budget s = (.ok .duplicate, t) → contents t = contents s) ∧
    ∀ insertions t, Fed room hasher s insertions t →
    contents (restore room (builderMark s) (takeBack room insertions t)) = contents s :=
  ⟨fun _ _ _ _ h => feedItem_refused h, fun _ _ _ h => finishItem_error h, fun _ _ h => finishItem_duplicate h,
    fun _ _ h => h.behind.contents_restore⟩

/-- A memory that grants so many requests. -/
def countedRoom : Room Nat where
  setBudget budget := pure budget
  grow _ budget _ additional := fun left => if left = 0 then (.error ⟨.canonicalBytes, additional, budget⟩, 0)
  else (.ok (), left - 1)
  start _ := pure ()
  release _ := id
  releaseBucket _ := id

/-- A set without items, at the start of one. -/
def blank (left : Nat) : CanonicalSet Nat := ⟨left, .empty, ∅, ⟨[.valueStart], none, []⟩⟩

/-- An open string, an open array and one that is closed. -/
def openString : CanonicalSet Nat := (feedItem countedRoom 64 0x22 (blank 2)).2

def openArray : CanonicalSet Nat := (feedItem countedRoom 64 0x5b (blank 99)).2

def closedArray : CanonicalSet Nat := (feedItem countedRoom 64 0x5d openArray).2

/-- A digit, with room for one entry of the journal left. -/
def openDigit : CanonicalSet Nat := (feedItem countedRoom 64 0x31 (blank 6)).2

/-- A letter that is refused in a string, a number whose end the journal has no room for, and an array that is inserted
and taken back. -/
theorem canonical_reversible_array :
    (∃ e t, feedItem countedRoom 64 0x61 openString = (.error e, t) ∧ contents t = contents (refused 0x61 openString)) ∧
    (∃ e t phase start, finishItem countedRoom (fun _ => 0) 64 openDigit = (.error e, t) ∧
      SecondRefused countedRoom 64 phase start e openDigit ∧
      contents t = contents (doubled (.scalar phase start) openDigit)) ∧
    ∃ i t, Fed countedRoom (fun _ => 0) (blank 99) [i] t ∧
      contents (restore countedRoom (builderMark (blank 99)) (takeBack countedRoom [i] t)) = contents (blank 99) := by
  refine ⟨?_, ?_, ?_⟩
  · have hfeed : feedItem countedRoom 64 0x61 openString = (.error (.limit .canonicalBytes 1 64),
      (feedItem countedRoom 64 0x61 openString).2) := rfl
    exact ⟨_, _, hfeed, (canonical_reversible countedRoom (fun _ => 0) openString).1 _ _ _ _ hfeed⟩
  · have hstack : (finishItem countedRoom (fun _ => 0) 64 openDigit).2.builder.stack.length = 2 := by decide +kernel
    have hfails : (finishItem countedRoom (fun _ => 0) 64 openDigit).1.isOk = false := by decide +kernel
    cases hfinish : finishItem countedRoom (fun _ => 0) 64 openDigit with
    | mk result t =>
      rw [hfinish] at hstack hfails
      cases result with
      | ok outcome => cases hfails
      | error e =>
        rcases (canonical_reversible countedRoom (fun _ => 0) openDigit).2.1 _ _ _ hfinish with h |
          ⟨phase, start, -, -, hsecond, h⟩
        · have hsame : t.builder.stack.length = openDigit.builder.stack.length :=
            congrArg (fun c => c.2.2.stack.length) h
          rw [hstack] at hsame
          exact absurd hsame (by decide +kernel)
        · exact ⟨e, t, phase, start, rfl, hsecond, h⟩
  · have hopen : feedItem countedRoom 64 0x5b (blank 99) = (.ok (builderMark (blank 99)), openArray) := rfl
    have hclose : feedItem countedRoom 64 0x5d openArray = (.ok (builderMark openArray), closedArray) := rfl
    have hfinish : finishItem countedRoom (fun _ => 0) 64 closedArray =
        (.ok (.inserted 0 0 true), (finishItem countedRoom (fun _ => 0) 64 closedArray).2) := rfl
    have hfed : Fed countedRoom (fun _ => 0) (blank 99) [⟨0, 0, true⟩] _ :=
      .inserted (.byte (.byte .start hopen) hclose) hfinish
    exact ⟨_, _, hfed, (canonical_reversible countedRoom (fun _ => 0) (blank 99)).2.2.2 _ _ hfed⟩

end Building
end MaskForge
