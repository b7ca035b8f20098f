import MaskForge.Frontend.Positions
import MaskForge.Frontend.References
/-!
# DirectLowering — lowering a document whose references are its own

A run of the lowering is a stack of calls.  A reference is lowered by lowering its target, once for each reference that
is recursive and once for each way of being open otherwise; a reference met again while its own target is lowered goes
round a cycle of references.  The analysis is to mark one reference of each such cycle before lowering has gone round
it, and the lowering then stops at its slot.
-/
namespace MaskForge
namespace Frontend

open CycleMarks (Cyclic)
open Relation (TransGen ReflTransGen CutExpand)

/-! ### The machine -/

/-- The reference whose target a frame lowers. -/
structure Opened where
  key : Text
  under : OpenUnder
  recursive : Bool

/-- A function that has been entered, and the calls it has still to make. -/
structure Frame where
  opened : Option Opened
  rest : List Call

structure Lowerer where
  frames : List Frame
  defSlots : List Text
  loweredRefs : List (Text × OpenUnder)
  recursionMemo : RecursionMemo
  budget : Nat

/-- A function makes its next call, or a check of its own ends it before. -/
inductive Move where
  | proceed
  | leave
  deriving DecidableEq, Repr

def Source.quirks (source : Source) : DialectQuirks :=
  ((declaredDialect source.root).map dialectQuirks).getD ⟨false, false⟩

/-- `ir_from_ast`, where nothing in the document is refused before it is lowered. -/
def Source.start (source : Source) : Lowerer :=
  ⟨[⟨none, [.lower source.root [] 0 .none]⟩], [], [], fun _ => none, maxExpandedNodes⟩

def Lowerer.push (s : Lowerer) (opened : Option Opened) (calls : List Call) : Lowerer :=
  { s with frames := ⟨opened, calls⟩ :: s.frames }

def Source.lowerRef (source : Source) (s : Lowerer) (reference : Ast) (ptr : Text) (depth : Nat) (under : OpenUnder) :
    Except FrontendError Lowerer :=
  match reference with
  | .str key =>
    if key ∈ s.defSlots then .ok s
    -- a reference out of the document is recorded as unsupported
    else if key.head? ≠ some '#' then .ok s
    else do
      match ← source.resolveRefTarget key with
      | none => .error (malformedAt (childPtr ptr "$ref".toList) "$ref" "$ref target not found")
      | some target =>
        let (recursive, memo) ← source.isRecursiveRef s.recursionMemo key
        let body := [Call.lower target ptr (depth + 1) under]
        if recursive then
          return { s with recursionMemo := memo, defSlots := key :: s.defSlots }.push (some ⟨key, under, true⟩) body
        else if (key, under) ∈ s.loweredRefs then return { s with recursionMemo := memo }
        else return { s with recursionMemo := memo }.push (some ⟨key, under, false⟩) body
  | _ => .error (malformedAt (childPtr ptr "$ref".toList) "$ref" "$ref must be a string")

def lowerDynamicRef (reference : Ast) (ptr : Text) : FrontendError :=
  malformedAt (childPtr ptr "$dynamicRef".toList) "$dynamicRef"
    (match reference with
      | .str _ => "dynamic reference requires resource lowering"
      | _ => "$dynamicRef must be a string")

def Source.call (source : Source) (s : Lowerer) (call : Call) : Except FrontendError Lowerer :=
  match call with
  | .lower node ptr depth under =>
    if maxDepth < depth then .error (limit "schema nesting depth")
    else
      match s.budget with
      | 0 => .error (expandedNodeLimit ptr)
      | budget + 1 => .ok ({ s with budget := budget }.push none (lowerInner node ptr depth under))
  | .lowerRef reference ptr depth under => source.lowerRef s reference ptr depth under
  | .lowerDynamicRef reference ptr => .error (lowerDynamicRef reference ptr)
  | .fail e => .error e
  | call => .ok (s.push none (call.calls source.quirks true))

/-- A reference that is not recursive is remembered once its target is lowered. -/
def Lowerer.close (s : Lowerer) (opened : Option Opened) : Lowerer :=
  match opened with
  | some ⟨key, under, false⟩ => { s with loweredRefs := (key, under) :: s.loweredRefs }
  | _ => s

def Source.step (source : Source) (s : Lowerer) (move : Move) : Except FrontendError Lowerer :=
  match s.frames with
  | [] => .ok s
  | ⟨opened, []⟩ :: below => .ok ({ s with frames := below }.close opened)
  | ⟨none, call :: rest⟩ :: below =>
    match move with
    | .leave => .ok { s with frames := below }
    | .proceed => source.call { s with frames := ⟨none, rest⟩ :: below } call
  | ⟨some opened, call :: rest⟩ :: below => source.call { s with frames := ⟨some opened, rest⟩ :: below } call

/-- A state of some run. -/
def Source.Reached (source : Source) (s : Lowerer) : Prop :=
  ∃ moves : List Move, moves.foldlM source.step source.start = .ok s

/-! ### What a reference leads to -/

/-- One call is made by another in this document. -/
def Source.Makes (source : Source) (call made : Call) : Prop := made ∈ call.calls source.quirks true

/-- Lowering the target of a reference can come to another. -/
def Source.Follows (source : Source) (key key' : Text) : Prop :=
  ∃ target ptr depth under refPtr refDepth refUnder, source.resolveRefTarget key = .ok (some target) ∧
    ReflTransGen source.Makes (.lower target ptr depth under) (.lowerRef (.str key') refPtr refDepth refUnder)

/-- The references that are being lowered, the innermost first. -/
def openRefs (frames : List Frame) : List Text := frames.filterMap fun f => f.opened.map Opened.key

/-- The reference that the next call follows. -/
def Lowerer.comesTo (s : Lowerer) (move : Move) : Option Text :=
  match s.frames, move with
  | ⟨none, _ :: _⟩ :: _, .leave => none
  | ⟨_, .lowerRef (.str key) _ _ _ :: _⟩ :: _, _ => some key
  | _, _ => none

/-- A reference whose target has been lowered or is being lowered. -/
def Lowerer.Met (s : Lowerer) (key : Text) : Prop :=
  key ∈ s.defSlots ∨ key ∈ s.loweredRefs.map Prod.fst ∨ key ∈ openRefs s.frames

/-- **A reference can be told**: either it lies on a cycle as the analysis collects them, and no search before has
settled it; or every cycle that can be followed through it has a reference with a slot. -/
def Source.Tells (source : Source) (s : Lowerer) (key : Text) : Prop :=
  (TransGen source.Sees key key ∧ s.recursionMemo key ≠ some false) ∨
    ∀ c, Cyclic source.Follows c → key ∈ c → ∃ k ∈ c, k ∈ s.defSlots

/-- A run comes only to references that can be told. -/
def Source.TellsAll (source : Source) (start : Lowerer) (moves : List Move) : Prop :=
  ∀ done move rest s, moves = done ++ move :: rest → done.foldlM source.step start = .ok s →
    ∀ key ∈ s.comesTo move, source.Tells s key

/-! ### What a run keeps -/

variable {source : Source} {root : Ast}

theorem get_mem {fields : Fields} {key : Text} {v : Ast} (h : get fields key = some v) : (key, v) ∈ fields := by
  unfold get at h
  obtain ⟨⟨k, v'⟩, hfind, hv⟩ := Option.map_eq_some_iff.1 h
  have hk : k = key := by simpa using List.find?_some hfind
  cases hv
  cases hk
  exact List.mem_of_find?_eq_some hfind

theorem mem_fieldStrings {k : Text} {v : Ast} {r : Text} : ∀ {fields : Fields}, (k, v) ∈ fields → r ∈ astStrings v →
    r ∈ fieldStrings fields
  | (k', v') :: fields, h, hr => by
    rw [fieldStrings, List.mem_append]
    rcases List.mem_cons.1 h with h | h
    · cases h
      exact .inl hr
    · exact .inr (mem_fieldStrings h hr)

theorem mem_itemStrings {v : Ast} {r : Text} :
    ∀ {items : List Ast}, v ∈ items → r ∈ astStrings v → r ∈ itemStrings items
  | item :: items, h, hr => by
    rw [itemStrings, List.mem_append]
    rcases List.mem_cons.1 h with rfl | h
    · exact .inl hr
    · exact .inr (mem_itemStrings h hr)

theorem Child.strings {fields : Fields} {ptr : Text} {sub : Ast} {subPtr : Text} (h : Child fields ptr sub subPtr) :
    ∀ r ∈ astStrings sub, r ∈ fieldStrings fields := by
  intro r hr
  cases h with
  | member hk hsub => exact mem_fieldStrings (get_mem hsub) hr
  | item hk harr hsub =>
    exact mem_fieldStrings (get_mem harr) (by simpa [astStrings] using mem_itemStrings (List.mem_of_getElem? hsub) hr)
  | entry hk hmap hsub => exact mem_fieldStrings (get_mem hmap) (by simpa [astStrings] using mem_fieldStrings hsub hr)

theorem fieldsOf_strings : ∀ {node : Ast}, ∀ r ∈ fieldStrings (fieldsOf node), r ∈ astStrings node
  | .obj _, _, h => by simpa [astStrings, fieldsOf] using h
  | .arr _, _, h | .null, _, h | .bool _, _, h | .num _, _, h | .str _, _, h => by simp [fieldsOf, fieldStrings] at h

theorem Visits.strings {node node' : Ast} {ptr ptr' : Text} (h : Visits node ptr node' ptr') :
    ∀ r ∈ astStrings node', r ∈ astStrings node := by
  induction h with
  | here => exact fun _ h => h
  | child _ hsub ih => exact fun r hr => ih r (fieldsOf_strings r (hsub.strings r hr))

theorem Source.Makes.makes {call made : Call} (h : source.Makes call made) : Frontend.Makes call made := ⟨_, _, h⟩

/-- A reference that is reached is a string of what is lowered. -/
theorem reached_strings {node : Ast} {ptr refPtr key : Text} {depth refDepth : Nat} {under refUnder : OpenUnder}
    (h : ReflTransGen source.Makes (.lower node ptr depth under) (.lowerRef (.str key) refPtr refDepth refUnder)) :
    key ∈ astStrings node := by
  obtain ⟨node', hv, href⟩ := reaches_ref (h.lift id fun _ _ => Source.Makes.makes)
  exact hv.strings key (fieldsOf_strings key (mem_fieldStrings (get_mem href) (by simp [astStrings])))

/-- The references a call can come to are used by the reference it is made for. -/
def Source.Owns (source : Source) (home : Option Text) (call : Call) : Prop :=
  ∀ key ptr depth under, ReflTransGen source.Makes call (.lowerRef (.str key) ptr depth under) →
    (∀ h ∈ home, source.Follows h key) ∧ key ∈ astStrings source.root

theorem Source.Owns.made {home : Option Text} {call made : Call} (h : source.Owns home call)
    (hm : source.Makes call made) :
    source.Owns home made := fun key ptr depth under hr => h key ptr depth under (hr.head hm)

def Source.FramesOk (source : Source) : List Frame → Prop
  | [] => True
  | f :: below => (∀ call ∈ f.rest, source.Owns (openRefs (f :: below)).head? call) ∧
    (∀ o, f.opened = some o → (∀ h ∈ (openRefs below).head?, source.Follows h o.key) ∧ o.key ∈ astStrings source.root) ∧
    source.FramesOk below

structure Source.RunInv (source : Source) (s : Lowerer) : Prop where
  analysis : CycleMarks.Inv source.usedRefsOf s.recursionMemo []
  frames : source.FramesOk s.frames
  slots : ∀ k ∈ s.defSlots, s.recursionMemo k = some true

theorem RunInv.start : source.RunInv source.start := by
  refine ⟨.empty, ⟨fun call hcall => ?_, fun o ho => (by cases ho), trivial⟩, fun k hk => (by cases hk)⟩
  rw [List.mem_singleton.1 hcall]
  exact fun key ptr depth under hr => ⟨by simp [openRefs], reached_strings hr⟩

/-- The frames below the top one keep what they have. -/
theorem Source.RunInv.pop {s s' : Lowerer} {f : Frame} {below : List Frame} (h : source.RunInv s)
    (hf : s.frames = f :: below)
    (hframes : s'.frames = below) (hslots : s'.defSlots = s.defSlots) (hmemo : s'.recursionMemo = s.recursionMemo) :
    source.RunInv s' := by
  have hframed := h.frames
  rw [hf] at hframed
  exact ⟨hmemo ▸ h.analysis, hframes ▸ hframed.2.2, by rw [hslots, hmemo]; exact h.slots⟩

/-- The top frame makes its next call. -/
theorem Source.RunInv.next {s : Lowerer} {opened : Option Opened} {call : Call} {rest : List Call} {below : List Frame}
    (h : source.RunInv s) (hf : s.frames = ⟨opened, call :: rest⟩ :: below) :
    source.RunInv { s with frames := ⟨opened, rest⟩ :: below } ∧
    source.Owns (openRefs (⟨opened, rest⟩ :: below)).head? call := by
  obtain ⟨hcalls, hopened, hbelow⟩ := by simpa only [hf, Source.FramesOk] using h.frames
  have hrefs : openRefs (⟨opened, call :: rest⟩ :: below) = openRefs (⟨opened, rest⟩ :: below) := rfl
  exact ⟨⟨h.analysis, ⟨fun c hc => hrefs ▸ hcalls c (List.mem_cons_of_mem _ hc), hopened, hbelow⟩, h.slots⟩,
    hrefs ▸ hcalls call List.mem_cons_self⟩

/-- A function that lowers no reference is entered. -/
theorem Source.RunInv.enter {s : Lowerer} {calls : List Call} {budget : Nat} (h : source.RunInv s)
    (hcalls : ∀ call ∈ calls, source.Owns (openRefs s.frames).head? call) :
    source.RunInv ({ s with budget := budget }.push none calls) :=
  ⟨h.analysis, ⟨hcalls, fun o ho => (by cases ho), h.frames⟩, h.slots⟩

/-- A reference is asked about. -/
theorem Source.RunInv.ask {s : Lowerer} {key : Text} {v : Bool} {memo : RecursionMemo} (h : source.RunInv s)
    (hask : source.isRecursiveRef s.recursionMemo key = .ok (v, memo)) :
    source.RunInv { s with recursionMemo := memo } ∧ memo key = some v := by
  obtain ⟨hinv, hkeeps, hself⟩ := isRecursiveRef_memo h.analysis hask
  exact ⟨⟨hinv, h.frames, fun k hk => hkeeps k true (h.slots k hk)⟩, hself⟩

/-- A reference is followed: into a slot if it is recursive. -/
theorem Source.RunInv.open {s : Lowerer} {key : Text} {under : OpenUnder} {recursive : Bool} {target : Ast} {ptr : Text}
    {depth : Nat} (hsource : sourceOf root = .ok source) (h : source.RunInv s)
    (htarget : source.resolveRefTarget key = .ok (some target)) (hmemo : s.recursionMemo key = some recursive)
    (howns : (∀ h ∈ (openRefs s.frames).head?, source.Follows h key) ∧ key ∈ astStrings source.root) :
    source.RunInv ({ s with defSlots := if recursive then key :: s.defSlots else s.defSlots }.push
      (some ⟨key, under, recursive⟩) [.lower target ptr depth under]) := by
  have hroot : source.root = root := sourceOf_root hsource
  refine ⟨h.analysis, ⟨fun call hcall => ?_, fun o ho => ?_, h.frames⟩, fun k hk => ?_⟩
  · rw [List.mem_singleton.1 hcall]
    intro key' refPtr refDepth refUnder hr
    refine ⟨fun hd hhd => ?_, ?_⟩
    · cases hhd
      exact ⟨target, ptr, depth, under, refPtr, refDepth, refUnder, htarget, hr⟩
    · rw [hroot]
      exact resolveRefTarget_strings hsource htarget _ (reached_strings hr)
  · cases ho
    exact howns
  · cases recursive with
    | false => exact h.slots k hk
    | true =>
      rcases List.mem_cons.1 hk with rfl | hk
      · exact hmemo
      · exact h.slots k hk

theorem Source.RunInv.lowerRef {s s' : Lowerer} {reference : Ast} {ptr : Text} {depth : Nat} {under : OpenUnder}
    (hsource : sourceOf root = .ok source) (h : source.RunInv s)
    (howns : source.Owns (openRefs s.frames).head? (.lowerRef reference ptr depth under))
    (hs : source.lowerRef s reference ptr depth under = .ok s') : source.RunInv s' := by
  unfold Source.lowerRef at hs
  split at hs
  · rename_i key
    split at hs
    · cases hs
      exact h
    split at hs
    · cases hs
      exact h
    obtain ⟨target, htarget, hs⟩ := bind_ok hs
    cases target with
    | none => cases hs
    | some target =>
      obtain ⟨⟨recursive, memo⟩, hask, hs⟩ := bind_ok hs
      obtain ⟨hinv, hself⟩ := h.ask hask
      have howns := howns key ptr depth under .refl
      cases recursive with
      | true =>
        cases hs
        exact hinv.open hsource htarget hself howns
      | false =>
        simp only [Bool.false_eq_true, if_false] at hs
        split at hs
        · cases hs
          exact hinv
        · cases hs
          exact hinv.open hsource htarget hself howns
  · cases hs

/-- **A step keeps the invariant.** -/
theorem Source.RunInv.step {s s' : Lowerer} {move : Move} (hsource : sourceOf root = .ok source) (h : source.RunInv s)
    (hs : source.step s move = .ok s') : source.RunInv s' := by
  have hcall : ∀ (opened : Option Opened) (call : Call) (rest : List Call) (below : List Frame),
      s.frames = ⟨opened, call :: rest⟩ :: below →
      source.call { s with frames := ⟨opened, rest⟩ :: below } call = .ok s' → source.RunInv s' := by
    intro opened call rest below hf hs
    obtain ⟨hinv, howns⟩ := h.next hf
    have hmade : ∀ made ∈ call.calls source.quirks true, source.Owns (openRefs (⟨opened, rest⟩ :: below)).head? made :=
      fun made hm => howns.made hm
    cases call with
    | lower node ptr depth under =>
      unfold Source.call at hs
      simp only at hs
      split at hs
      · cases hs
      split at hs
      · cases hs
      · cases hs
        exact hinv.enter hmade
    | lowerRef reference ptr depth under => exact hinv.lowerRef hsource howns hs
    | lowerDynamicRef reference ptr => cases hs
    | fail e => cases hs
    | lowerScope fields ptr depth under | lowerBase fields ptr depth under | lowerTypeless fields ptr depth under
    | lowerTyped ty fields ptr depth under =>
      cases hs
      exact hinv.enter hmade
  unfold Source.step at hs
  split at hs
  · cases hs
    exact h
  · rename_i opened below hf
    cases hs
    refine h.pop hf ?_ ?_ ?_ <;> rcases opened with _ | ⟨_, _, _ | _⟩ <;> rfl
  · rename_i call rest below hf
    split at hs
    · cases hs
      exact h.pop hf rfl rfl rfl
    · exact hcall none call rest below hf hs
  · rename_i opened call rest below hf
    exact hcall (some opened) call rest below hf hs

theorem RunInv.run (hsource : sourceOf root = .ok source) : ∀ (moves : List Move) {s s' : Lowerer}, source.RunInv s →
    moves.foldlM source.step s = .ok s' → source.RunInv s'
  | [], _, _, h, hs => by
    cases hs
    exact h
  | move :: moves, s, s', h, hs => by
    rw [List.foldlM_cons] at hs
    obtain ⟨s₁, h₁, hs⟩ := bind_ok hs
    exact RunInv.run hsource moves (h.step hsource h₁) hs

theorem Source.Reached.inv {s : Lowerer} (hsource : sourceOf root = .ok source) (h : source.Reached s) :
    source.RunInv s := by
  obtain ⟨moves, hs⟩ := h
  exact RunInv.run hsource moves RunInv.start hs

/-! ### What a step does to the references -/

inductive Source.Turn (source : Source) (s s' : Lowerer) (move : Move) : Prop
  | stays (hopen : openRefs s'.frames = openRefs s.frames) (hslots : s'.defSlots = s.defSlots)
    (hlowered : s'.loweredRefs = s.loweredRefs)
  | closes (key : Text) (hopen : openRefs s.frames = key :: openRefs s'.frames) (hslots : s'.defSlots = s.defSlots)
    (hlowered : ∀ k ∈ s'.loweredRefs.map Prod.fst, k = key ∨ k ∈ s.loweredRefs.map Prod.fst)
  | opens (key : Text) (recursive : Bool) (hcomes : s.comesTo move = some key) (hnew : key ∉ s.defSlots)
    (hasked : source.isRecursiveRef s.recursionMemo key = .ok (recursive, s'.recursionMemo))
    (hopen : openRefs s'.frames = key :: openRefs s.frames)
    (hslots : s'.defSlots = if recursive then key :: s.defSlots else s.defSlots)
    (hlowered : s'.loweredRefs = s.loweredRefs)

theorem Source.Turn.of_lowerRef {s s' : Lowerer} {opened : Option Opened} {reference : Ast} {ptr : Text} {depth : Nat}
    {under : OpenUnder} {rest : List Call} {below : List Frame} {move : Move}
    (hf : s.frames = ⟨opened, .lowerRef reference ptr depth under :: rest⟩ :: below)
    (hcomes : ∀ key, reference = .str key → s.comesTo move = some key)
    (hs : source.lowerRef { s with frames := ⟨opened, rest⟩ :: below } reference ptr depth under = .ok s') :
    source.Turn s s' move := by
  have hrefs : openRefs (⟨opened, rest⟩ :: below) = openRefs s.frames := by
    rw [hf]
    rfl
  unfold Source.lowerRef at hs
  split at hs
  · rename_i key
    split at hs
    · cases hs
      exact .stays hrefs rfl rfl
    rename_i hslot
    split at hs
    · cases hs
      exact .stays hrefs rfl rfl
    obtain ⟨target, -, hs⟩ := bind_ok hs
    cases target with
    | none => cases hs
    | some target =>
      obtain ⟨⟨recursive, memo⟩, hask, hs⟩ := bind_ok hs
      cases recursive with
      | true =>
        cases hs
        exact .opens key true (hcomes key rfl) hslot hask (congrArg (key :: ·) hrefs) rfl rfl
      | false =>
        simp only [Bool.false_eq_true, if_false] at hs
        split at hs
        · cases hs
          exact .stays hrefs rfl rfl
        · cases hs
          exact .opens key false (hcomes key rfl) hslot hask (congrArg (key :: ·) hrefs) rfl rfl
  · cases hs

theorem Source.Turn.of_step {s s' : Lowerer} {move : Move} (hs : source.step s move = .ok s') :
    source.Turn s s' move := by
  have hcall : ∀ (opened : Option Opened) (call : Call) (rest : List Call) (below : List Frame),
      s.frames = ⟨opened, call :: rest⟩ :: below →
      (∀ key ptr depth under, call = .lowerRef (.str key) ptr depth under → s.comesTo move = some key) →
      source.call { s with frames := ⟨opened, rest⟩ :: below } call = .ok s' → source.Turn s s' move := by
    intro opened call rest below hf hcomes hs
    have hrefs : openRefs (⟨opened, rest⟩ :: below) = openRefs s.frames := by
      rw [hf]
      rfl
    cases call with
    | lower node ptr depth under =>
      unfold Source.call at hs
      simp only at hs
      split at hs
      · cases hs
      split at hs
      · cases hs
      · cases hs
        exact .stays hrefs rfl rfl
    | lowerRef reference ptr depth under =>
      exact .of_lowerRef hf (fun key hkey => hcomes key ptr depth under (hkey ▸ rfl)) hs
    | lowerDynamicRef reference ptr => cases hs
    | fail e => cases hs
    | lowerScope fields ptr depth under | lowerBase fields ptr depth under | lowerTypeless fields ptr depth under
    | lowerTyped ty fields ptr depth under =>
      cases hs
      exact .stays hrefs rfl rfl
  unfold Source.step at hs
  split at hs
  · cases hs
    exact .stays rfl rfl rfl
  · rename_i opened below hf
    cases hs
    cases opened with
    | none =>
      refine .stays ?_ rfl rfl
      rw [hf]
      rfl
    | some opened =>
      obtain ⟨key, under, recursive⟩ := opened
      refine .closes key ?_ ?_ ?_
      · rw [hf]
        cases recursive <;> rfl
      · cases recursive <;> rfl
      · cases recursive with
        | true => exact fun k hk => .inr hk
        | false => exact fun k hk => List.mem_cons.1 hk
  · rename_i call rest below hf
    split at hs
    · cases hs
      refine .stays ?_ rfl rfl
      rw [hf]
      rfl
    · refine hcall none call rest below hf (fun key ptr depth under hkey => ?_) hs
      simp only [Lowerer.comesTo, hf, hkey]
  · rename_i opened call rest below hf
    refine hcall (some opened) call rest below hf (fun key ptr depth under hkey => ?_) hs
    simp only [Lowerer.comesTo, hf, hkey]

/-! ### Every cycle is cut -/

theorem isChain_openRefs :
    ∀ {frames : List Frame}, source.FramesOk frames → (openRefs frames).IsChain fun a b => source.Follows b a
  | [], _ => .nil
  | ⟨none, _⟩ :: below, h => @isChain_openRefs below h.2.2
  | ⟨some o, _⟩ :: below, h => List.isChain_cons.2 ⟨(h.2.1 o rfl).1, @isChain_openRefs below h.2.2⟩

/-- A reference followed while it is open closes a cycle with those that are open above it. -/
theorem cyclic_of_reopened {above below : List Text} {key : Text}
    (h : (key :: (above ++ key :: below)).IsChain fun a b => source.Follows b a) :
    Cyclic source.Follows (key :: above.reverse) := by
  have hround : (key :: (above ++ [key])).IsChain fun a b => source.Follows b a := by
    rw [show key :: (above ++ key :: below) = (key :: (above ++ [key])) ++ below by simp] at h
    exact h.left_of_append
  have hback := List.isChain_reverse.2 hround
  simpa [Cyclic] using hback

/-- What holds of the references in a run that comes only to references that can be told. -/
structure Source.CutInv (source : Source) (s : Lowerer) : Prop where
  slot : ∀ c, Cyclic source.Follows c → (∃ k ∈ c, s.Met k) → ∃ k ∈ c, k ∈ s.defSlots
  /-- A cycle through an open reference is cut by a slot that was there when the references above it were opened. -/
  above : ∀ above key below, openRefs s.frames = above ++ key :: below → ∀ c, Cyclic source.Follows c → key ∈ c →
    ∃ k ∈ c, k ∈ s.defSlots ∧ k ∉ above
  once : (openRefs s.frames).Nodup

theorem CutInv.start : source.CutInv source.start := by
  refine ⟨fun c _ hmet => ?_, fun above key below hsplit => ?_, .nil⟩
  · obtain ⟨k, -, hk | hk | hk⟩ := hmet <;> cases hk
  · cases above <;> cases hsplit

/-- Where a reference that can be told is opened, each cycle through it has a slot. -/
theorem Source.Tells.slot {s : Lowerer} {key : Text} {recursive : Bool} {memo : RecursionMemo} {slots : List Text}
    (h : source.Tells s key) (hs : source.RunInv s) (hasked : source.isRecursiveRef s.recursionMemo key =
      .ok (recursive, memo))
    (hslots : slots = if recursive then key :: s.defSlots else s.defSlots) {c : List Text}
    (hc : Cyclic source.Follows c) (hkey : key ∈ c) : ∃ k ∈ c, k ∈ slots := by
  rcases h with ⟨hcycle, hunsettled⟩ | hcut
  · refine ⟨key, hkey, ?_⟩
    rw [hslots, if_pos (isRecursiveRef_of_cycle hs.analysis hasked hcycle hunsettled)]
    exact List.mem_cons_self
  · obtain ⟨k, hk, hslot⟩ := hcut c hc hkey
    refine ⟨k, hk, ?_⟩
    rw [hslots]
    split
    · exact List.mem_cons_of_mem _ hslot
    · exact hslot

/-- **A step that comes to no reference but one that can be told keeps every cycle cut.** -/
theorem Source.CutInv.step {s s' : Lowerer} {move : Move} (h : source.CutInv s) (hs : source.RunInv s)
    (hs' : source.RunInv s')
    (hturn : source.Turn s s' move) (htells : ∀ key ∈ s.comesTo move, source.Tells s key) : source.CutInv s' := by
  cases hturn with
  | stays hopen hslots hlowered =>
    have hmet : ∀ k, s'.Met k ↔ s.Met k := fun k => by rw [Lowerer.Met, Lowerer.Met, hopen, hslots, hlowered]
    refine ⟨fun c hc hk => ?_, ?_, hopen ▸ h.once⟩
    · rw [hslots]
      exact h.slot c hc (by simpa only [hmet] using hk)
    · rw [hopen, hslots]
      exact h.above
  | closes key hopen hslots hlowered =>
    refine ⟨fun c hc hk => ?_, fun above key' below hsplit c hc hkey => ?_, ?_⟩
    · rw [hslots]
      refine h.slot c hc (hk.imp fun k hk => ⟨hk.1, ?_⟩)
      rcases hk.2 with hk | hk | hk
      · exact .inl (hslots ▸ hk)
      · rcases hlowered k hk with rfl | hk
        · exact .inr (.inr (hopen ▸ List.mem_cons_self))
        · exact .inr (.inl hk)
      · exact .inr (.inr (hopen ▸ List.mem_cons_of_mem _ hk))
    · obtain ⟨k, hk, hslot, hnot⟩ := h.above (key :: above) key' below
        (by rw [hopen, hsplit, List.cons_append]) c hc hkey
      exact ⟨k, hk, hslots ▸ hslot, fun hin => hnot (List.mem_cons_of_mem _ hin)⟩
    · have honce := h.once
      rw [hopen, List.nodup_cons] at honce
      exact honce.2
  | opens key recursive hcomes hnew hasked hopen hslots hlowered =>
    have hgrows : ∀ k ∈ s.defSlots, k ∈ s'.defSlots := fun k hk => by
      rw [hslots]
      split
      · exact List.mem_cons_of_mem _ hk
      · exact hk
    have hhere : ∀ c, Cyclic source.Follows c → key ∈ c → ∃ k ∈ c, k ∈ s'.defSlots := fun c hc hkey =>
      (htells key hcomes).slot hs hasked hslots hc hkey
    have hbefore : ∀ c, Cyclic source.Follows c → (∃ k ∈ c, s.Met k) → ∃ k ∈ c, k ∈ s'.defSlots := fun c hc hk =>
      (h.slot c hc hk).imp fun k hk => ⟨hk.1, hgrows k hk.2⟩
    refine ⟨fun c hc hk => ?_, fun above key' below hsplit c hc hkey => ?_, ?_⟩
    · obtain ⟨k, hk, hslot | hlow | hin⟩ := hk
      · exact ⟨k, hk, hslot⟩
      · exact hbefore c hc ⟨k, hk, .inr (.inl (hlowered ▸ hlow))⟩
      · rw [hopen] at hin
        rcases List.mem_cons.1 hin with rfl | hin
        · exact hhere c hc hk
        · exact hbefore c hc ⟨k, hk, .inr (.inr hin)⟩
    · rw [hopen] at hsplit
      cases above with
      | nil =>
        cases hsplit
        exact (hhere c hc hkey).imp fun k hk => ⟨hk.1, hk.2, List.not_mem_nil⟩
      | cons a above =>
        obtain ⟨rfl, hbelow⟩ := List.cons.inj hsplit
        obtain ⟨k, hk, hslot, hnot⟩ := h.above above key' below hbelow c hc hkey
        -- what has a slot is not opened again
        have hne : k ≠ key := fun heq => hnew (heq ▸ hslot)
        exact ⟨k, hk, hgrows k hslot, fun hin => (List.mem_cons.1 hin).elim hne hnot⟩
    · rw [hopen]
      refine List.nodup_cons.2 ⟨fun hin => ?_, h.once⟩
      obtain ⟨above, below, hsplit⟩ := List.append_of_mem hin
      have hchain := isChain_openRefs hs'.frames
      rw [hopen, hsplit] at hchain
      obtain ⟨k, hk, hslot, hnot⟩ := h.above above key below hsplit _ (cyclic_of_reopened hchain) List.mem_cons_self
      rcases List.mem_cons.1 hk with rfl | hk
      · exact hnew hslot
      · exact hnot (List.mem_reverse.1 hk)

theorem CutInv.run (hsource : sourceOf root = .ok source) : ∀ (moves : List Move) {s s' : Lowerer}, source.RunInv s →
    source.CutInv s → source.TellsAll s moves → moves.foldlM source.step s = .ok s' → source.CutInv s'
  | [], _, _, _, h, _, hs => by
    cases hs
    exact h
  | move :: moves, s, s', hi, h, htells, hs => by
    rw [List.foldlM_cons] at hs
    obtain ⟨s₁, h₁, hs⟩ := bind_ok hs
    have hi₁ := hi.step hsource h₁
    refine CutInv.run hsource moves hi₁ (h.step hi hi₁ (.of_step h₁) (htells [] move moves s rfl rfl)) ?_ hs
    intro done move' rest t hsplit ht
    refine htells (move :: done) move' rest t (by rw [hsplit, List.cons_append]) ?_
    rw [List.foldlM_cons, h₁]
    exact ht

/-! ### What is passed over -/

/-- The member names the analysis does not go below. -/
def passedOver : List String := ["$ref", "$defs", "definitions"]

/-- No member of a map of schemas has a name that is passed over. -/
def PlainNames (node : Ast) : Prop :=
  ∀ keyword ∈ mapKeywords, ∀ entries, get (fieldsOf node) keyword.toList = some (.obj entries) →
    ∀ e ∈ entries, ∀ name ∈ passedOver, e.1 ≠ name.toList

/-- No schema that can be lowered has such a member. -/
def Source.Plain (source : Source) : Prop :=
  ∀ key target, source.resolveRefTarget key = .ok (some target) → ∀ ptr node nodePtr, Visits target ptr node nodePtr →
    PlainNames node

/-- The ranks of the calls that are still to be made. -/
def Lowerer.pending (s : Lowerer) : Multiset Nat := ((s.frames.flatMap Frame.rest).map Call.rank : List Nat)

/-- What a step brings down: the budget, or the calls that are still to be made, or the frames. -/
def Lowerer.Under (s' s : Lowerer) : Prop :=
  Prod.Lex (· < ·) (Prod.Lex (TransGen (CutExpand (· < ·))) (· < ·)) (s'.budget, s'.pending, s'.frames.length)
    (s.budget, s.pending, s.frames.length)

theorem Source.Follows.strings {key key' : Text} (hsource : sourceOf root = .ok source) (h : source.Follows key key') :
    key' ∈ astStrings root := by
  obtain ⟨target, ptr, depth, under, refPtr, refDepth, refUnder, htarget, hreach⟩ := h
  exact resolveRefTarget_strings hsource htarget _ (reached_strings hreach)

end Frontend
end MaskForge
