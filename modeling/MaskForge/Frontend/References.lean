import MaskForge.Frontend.Lowering
import MaskForge.Lib.CycleMarks
import MaskForge.Lib.Utf8
import MaskForge.Structured.Spelling
/-!
# References — where a reference leads, and which references lie on a cycle

Where a document has no identifiers, a reference is a fragment of the document itself.  Before a reference is lowered
it is asked whether it lies on a cycle: the analysis collects the references of its target from the raw syntax tree,
and searches them depth first.
-/
namespace MaskForge
namespace Frontend

/-! ### The index of a document -/

structure DocIndex where
  anchors : List (Text × Ast)
  ids : List Text
  pointers : List (Text × Ast)

/-- A path has no leading slash, so the child of the root is its own segment. -/
def childPointer (path segment : Text) : Text := if path = [] then segment else path ++ '/' :: segment

/-- The first name that repeats one before it. -/
def firstRepeated : Fields → List Text → Option Text
  | [], _ => none
  | (key, _) :: fields, seen => if key ∈ seen then some key else firstRepeated fields (key :: seen)

def indexId (fields : Fields) (index : DocIndex) : Except FrontendError DocIndex :=
  match get fields "$id".toList with
  | none => .ok index
  | some (.str id) =>
    if id ∈ index.ids then .error (malformedAt [] "$id" "duplicate $id") else .ok { index with ids := id :: index.ids }
  | some _ => .error (malformedAt [] "$id" "$id must be a string")

def indexAnchor (node : Ast) (fields : Fields) (index : DocIndex) : Except FrontendError DocIndex :=
  match get fields "$anchor".toList with
  | none => .ok index
  | some (.str name) =>
    if (index.anchors.lookup name).isSome then .error (malformedAt [] "$anchor" "duplicate $anchor")
    else .ok { index with anchors := (name, node) :: index.anchors }
  | some _ => .error (malformedAt [] "$anchor" "$anchor must be a string")

mutual

/-- What is written at a path last is what the path leads to. -/
def indexDocument (node : Ast) (path : Text) (index : DocIndex) : Except FrontendError DocIndex :=
  let index := if path = [] then index else { index with pointers := (path, node) :: index.pointers }
  match node with
  | .arr items => indexItems items path 0 index
  | .obj fields =>
    match firstRepeated fields [] with
    | some key =>
      let parent := if path = [] then [] else '/' :: path
      .error (malformed (childPtr parent key) key "duplicate schema keyword")
    | none => do
      let index ← indexId fields index
      let index ← indexAnchor (.obj fields) fields index
      indexFields fields path index
  | _ => .ok index

def indexItems (items : List Ast) (path : Text) (i : Nat) (index : DocIndex) : Except FrontendError DocIndex :=
  match items with
  | [] => .ok index
  | item :: items => do
    let index ← indexDocument item (childPointer path (toString i).toList) index
    indexItems items path (i + 1) index

def indexFields (fields : List (Text × Ast)) (path : Text) (index : DocIndex) : Except FrontendError DocIndex :=
  match fields with
  | [] => .ok index
  | (key, sub) :: fields => do
    let index ← indexDocument sub (childPointer path (ptrEscape key)) index
    indexFields fields path index

end

/-- A document whose references are its own fragments. -/
structure Source where
  root : Ast
  anchors : List (Text × Ast)
  pointers : List (Text × Ast)

def sourceOf (root : Ast) : Except FrontendError Source :=
  (indexDocument root [] ⟨[], [], []⟩).map fun index => ⟨root, index.anchors, index.pointers⟩

/-! ### Targets -/

def percentDecode : List Byte → Option (List Byte)
  | [] => some []
  | b :: rest =>
    if b = 0x25 then
      match rest with
      | high :: low :: rest =>
        match hexDigit high, hexDigit low with
        | some high, some low => (percentDecode rest).map fun decoded => UInt8.ofNat (high * 16 + low) :: decoded
        | _, _ => none
      | _ => none
    else (percentDecode rest).map fun decoded => b :: decoded

def decodeUriFragment (target : Text) : Except FrontendError Text :=
  match target with
  | '#' :: fragment =>
    match percentDecode (fragment.flatMap String.utf8EncodeChar) with
    | none => .error (malformedAt [] "$ref" "invalid percent-encoded fragment")
    | some decoded =>
      match strFromUtf8 decoded with
      | none => .error (malformedAt [] "$ref" "reference fragment is not valid UTF-8")
      | some fragment => .ok fragment
  | _ => .error (malformedAt [] "$ref" "local reference must begin with a fragment marker")

def Source.resolveRefTarget (source : Source) (target : Text) : Except FrontendError (Option Ast) :=
  (decodeUriFragment target).map fun fragment =>
    match fragment with
    | [] => some source.root
    | '/' :: pointer => source.pointers.lookup pointer
    | _ => source.anchors.lookup fragment

/-! ### The analysis -/

/-- `$ref` is pushed if it is a string. -/
def refString : Ast → List Text
  | .str target => [target]
  | _ => []

mutual

/-- The references in a syntax tree.  What stands under `$defs` or `definitions`, and what stands under `$ref` if it is
not a string, is passed over. -/
def collectUsedRefs : Ast → List Text
  | .obj fields => collectFieldRefs fields
  | .arr items => collectItemRefs items
  | _ => []

def collectItemRefs : List Ast → List Text
  | [] => []
  | item :: items => collectUsedRefs item ++ collectItemRefs items

def collectFieldRefs : List (Text × Ast) → List Text
  | [] => []
  | (k, v) :: fields =>
    (if k = "$ref".toList then refString v
    else if k = "$defs".toList ∨ k = "definitions".toList then []
    else collectUsedRefs v) ++ collectFieldRefs fields

end

mutual

/-- The strings of a syntax tree. -/
def astStrings : Ast → List Text
  | .str s => [s]
  | .arr items => itemStrings items
  | .obj fields => fieldStrings fields
  | _ => []

def itemStrings : List Ast → List Text
  | [] => []
  | item :: items => astStrings item ++ itemStrings items

def fieldStrings : List (Text × Ast) → List Text
  | [] => []
  | (_, v) :: fields => astStrings v ++ fieldStrings fields

end

def Source.usedRefsOf (source : Source) (key : Text) : Except FrontendError (List Text) :=
  (source.resolveRefTarget key).map fun target => (target.map collectUsedRefs).getD []

/-- `recursion_memo`. -/
abbrev RecursionMemo := CycleMarks.Memo Text

def Source.markCycleMembership (source : Source) :
    Nat → RecursionMemo → List Text → Text → Except FrontendError RecursionMemo :=
  CycleMarks.visit source.usedRefsOf (limit "recursion analysis")

/-- The search meets no other references than the strings of the document, so it goes no deeper than there
are strings. -/
def Source.isRecursiveRef (source : Source) (memo : RecursionMemo) (key : Text) :
    Except FrontendError (Bool × RecursionMemo) :=
  match memo key with
  | some v => .ok (v, memo)
  | none => (source.markCycleMembership ((astStrings source.root).length + 2) memo [] key).map fun memo =>
    ((memo key).getD false, memo)

/-! ### Laws -/

theorem refString_strings : ∀ (node : Ast), ∀ r ∈ refString node, r ∈ astStrings node
  | .str s, r, h => by simpa [refString, astStrings] using h
  | .obj _, _, h | .arr _, _, h | .null, _, h | .bool _, _, h | .num _, _, h => by cases h

mutual

theorem collectUsedRefs_strings : ∀ (node : Ast), ∀ r ∈ collectUsedRefs node, r ∈ astStrings node
  | .obj fields, r, h => collectFieldRefs_strings fields r h
  | .arr items, r, h => collectItemRefs_strings items r h
  | .null, _, h | .bool _, _, h | .num _, _, h | .str _, _, h => by cases h

theorem collectItemRefs_strings : ∀ (items : List Ast), ∀ r ∈ collectItemRefs items, r ∈ itemStrings items
  | [], _, h => by cases h
  | item :: items, r, h => by
    rw [collectItemRefs, List.mem_append] at h
    rw [itemStrings, List.mem_append]
    exact h.imp (collectUsedRefs_strings item r) (collectItemRefs_strings items r)

theorem collectFieldRefs_strings :
    ∀ (fields : List (Text × Ast)), ∀ r ∈ collectFieldRefs fields, r ∈ fieldStrings fields
  | [], _, h => by cases h
  | (k, v) :: fields, r, h => by
    rw [collectFieldRefs, List.mem_append] at h
    rw [fieldStrings, List.mem_append]
    refine h.imp (fun h => ?_) (collectFieldRefs_strings fields r)
    split at h
    · exact refString_strings v r h
    split at h
    · cases h
    · exact collectUsedRefs_strings v r h

end

/-- What is indexed has no strings but those of `S`. -/
def DocIndex.Within (S : List Text) (index : DocIndex) : Prop :=
  (∀ e ∈ index.pointers, ∀ s ∈ astStrings e.2, s ∈ S) ∧ ∀ e ∈ index.anchors, ∀ s ∈ astStrings e.2, s ∈ S

theorem indexId_within {S : List Text} {fields : Fields} {index index' : DocIndex} (hw : index.Within S)
    (h : indexId fields index = .ok index') : index'.Within S := by
  unfold indexId at h
  split at h
  · cases h
    exact hw
  · split at h
    · cases h
    · cases h
      exact hw
  · cases h

theorem indexAnchor_within {S : List Text} {node : Ast} {fields : Fields} {index index' : DocIndex}
    (hw : index.Within S)
    (hnode : ∀ s ∈ astStrings node, s ∈ S) (h : indexAnchor node fields index = .ok index') : index'.Within S := by
  unfold indexAnchor at h
  split at h
  · cases h
    exact hw
  · split at h
    · cases h
    · cases h
      exact ⟨hw.1, List.forall_mem_cons.2 ⟨hnode, hw.2⟩⟩
  · cases h

mutual

theorem indexDocument_within {S : List Text} : ∀ (node : Ast) {path : Text} {index index' : DocIndex}, index.Within S →
    (∀ s ∈ astStrings node, s ∈ S) → indexDocument node path index = .ok index' → index'.Within S
  | node, path, index, index', hw, hnode, h => by
    have hw' : (if path = [] then index else { index with pointers := (path, node) :: index.pointers }).Within S := by
      split
      · exact hw
      · exact ⟨List.forall_mem_cons.2 ⟨hnode, hw.1⟩, hw.2⟩
    unfold indexDocument at h
    simp only at h
    generalize (if path = [] then index else { index with pointers := (path, node) :: index.pointers }) =
      index₀ at hw' h
    cases node with
    | arr items => exact indexItems_within items hw' hnode h
    | obj fields =>
      simp only at h
      split at h
      · cases h
      · obtain ⟨index₁, h₁, h⟩ := bind_ok h
        obtain ⟨index₂, h₂, h⟩ := bind_ok h
        exact indexFields_within fields (indexAnchor_within (indexId_within hw' h₁) hnode h₂) hnode h
    | null | bool _ | num _ | str _ =>
      cases h
      exact hw'

theorem indexItems_within {S : List Text} :
    ∀ (items : List Ast) {path : Text} {i : Nat} {index index' : DocIndex}, index.Within S →
    (∀ s ∈ itemStrings items, s ∈ S) → indexItems items path i index = .ok index' → index'.Within S
  | [], _, _, _, _, hw, _, h => by
    cases h
    exact hw
  | item :: items, path, i, index, index', hw, hin, h => by
    rw [indexItems] at h
    obtain ⟨index₁, h₁, h⟩ := bind_ok h
    simp only [itemStrings, List.mem_append, or_imp, forall_and] at hin
    exact indexItems_within items (indexDocument_within item hw hin.1 h₁) hin.2 h

theorem indexFields_within {S : List Text} :
    ∀ (fields : List (Text × Ast)) {path : Text} {index index' : DocIndex}, index.Within S →
    (∀ s ∈ fieldStrings fields, s ∈ S) → indexFields fields path index = .ok index' → index'.Within S
  | [], _, _, _, hw, _, h => by
    cases h
    exact hw
  | (key, sub) :: fields, path, index, index', hw, hin, h => by
    rw [indexFields] at h
    obtain ⟨index₁, h₁, h⟩ := bind_ok h
    simp only [fieldStrings, List.mem_append, or_imp, forall_and] at hin
    exact indexFields_within fields (indexDocument_within sub hw hin.1 h₁) hin.2 h

end

theorem mem_of_lookup {k : Text} {node : Ast} : ∀ {l : List (Text × Ast)}, l.lookup k = some node → (k, node) ∈ l
  | [], h => by cases h
  | (k', v) :: l, h => by
    rw [List.lookup_cons] at h
    split at h
    · rename_i heq
      cases h
      exact List.mem_cons.2 (.inl (by rw [beq_iff_eq.1 heq]))
    · exact List.mem_cons_of_mem _ (mem_of_lookup h)

theorem sourceOf_root {root : Ast} {source : Source} (h : sourceOf root = .ok source) : source.root = root := by
  unfold sourceOf at h
  cases hindex : indexDocument root [] ⟨[], [], []⟩ with
  | error e => rw [hindex] at h; cases h
  | ok index =>
    rw [hindex] at h
    cases h
    rfl

/-- **A target has no strings but the document's.** -/
theorem resolveRefTarget_strings {root target : Ast} {source : Source} {key : Text}
    (hsource : sourceOf root = .ok source)
    (h : source.resolveRefTarget key = .ok (some target)) : ∀ s ∈ astStrings target, s ∈ astStrings root := by
  unfold sourceOf at hsource
  cases hindex : indexDocument root [] ⟨[], [], []⟩ with
  | error e => rw [hindex] at hsource; cases hsource
  | ok index =>
    rw [hindex] at hsource
    cases hsource
    have hw : index.Within (astStrings root) := indexDocument_within root ⟨by simp, by simp⟩ (fun _ h => h) hindex
    unfold Source.resolveRefTarget at h
    cases hfrag : decodeUriFragment key with
    | error e => rw [hfrag] at h; cases h
    | ok fragment =>
      simp only [hfrag, Except.map, Except.ok.injEq] at h
      split at h
      · cases h
        exact fun _ h => h
      · exact hw.1 _ (mem_of_lookup h)
      · exact hw.2 _ (mem_of_lookup h)

/-- The references used by a reference. -/
abbrev Source.Sees (source : Source) : Text → Text → Prop := CycleMarks.Leads source.usedRefsOf

theorem usedRefsOf_ok {source : Source} {key : Text} {refs : List Text} (h : source.usedRefsOf key = .ok refs)
    {r : Text}
    (hr : r ∈ refs) : ∃ target, source.resolveRefTarget key = .ok (some target) ∧ r ∈ collectUsedRefs target := by
  unfold Source.usedRefsOf at h
  cases hres : source.resolveRefTarget key with
  | error e => rw [hres] at h; cases h
  | ok target =>
    rw [hres] at h
    cases h
    cases target with
    | none => cases hr
    | some target => exact ⟨target, rfl, hr⟩

theorem Source.Sees.strings {root : Ast} {source : Source} {key r : Text} (hsource : sourceOf root = .ok source)
    (h : source.Sees key r) : r ∈ astStrings root := by
  obtain ⟨refs, hrefs, hr⟩ := h
  obtain ⟨target, htarget, hr⟩ := usedRefsOf_ok hrefs hr
  exact resolveRefTarget_strings hsource htarget r (collectUsedRefs_strings target r hr)

/-! ### Asking -/

theorem isRecursiveRef_memo {source : Source} {memo memo' : RecursionMemo} {key : Text} {v : Bool}
    (hi : CycleMarks.Inv source.usedRefsOf memo []) (h : source.isRecursiveRef memo key = .ok (v, memo')) :
    CycleMarks.Inv source.usedRefsOf memo' [] ∧ (∀ k b, memo k = some b → memo' k = some b) ∧ memo' key = some v := by
  unfold Source.isRecursiveRef at h
  split at h
  · rename_i v' hv
    cases h
    exact ⟨hi, fun _ _ h => h, hv⟩
  · cases hmark : source.markCycleMembership ((astStrings source.root).length + 2) memo [] key with
    | error e => rw [hmark] at h; cases h
    | ok memo₁ =>
      rw [hmark] at h
      cases h
      have hs := CycleMarks.visit_searched _ hi (by simp) hmark
      refine ⟨hs.inv, hs.keeps, ?_⟩
      obtain ⟨b, hb⟩ := Option.ne_none_iff_exists'.1 (hs.known key (by simp))
      rw [hb]
      rfl

/-- **A reference that lies on a cycle is found recursive**, unless a search before has settled it. -/
theorem isRecursiveRef_of_cycle {source : Source} {memo memo' : RecursionMemo} {key : Text} {v : Bool}
    (hi : CycleMarks.Inv source.usedRefsOf memo []) (h : source.isRecursiveRef memo key = .ok (v, memo'))
    (hcycle : Relation.TransGen source.Sees key key) (hunsettled : memo key ≠ some false) : v = true := by
  unfold Source.isRecursiveRef at h
  split at h
  · rename_i v' hv
    cases h
    cases v with
    | true => rfl
    | false => exact absurd hv hunsettled
  · rename_i hnew
    cases hmark : source.markCycleMembership ((astStrings source.root).length + 2) memo [] key with
    | error e => rw [hmark] at h; cases h
    | ok memo₁ =>
      rw [hmark] at h
      cases h
      rw [CycleMarks.visit_fresh hi hnew hcycle hmark]
      rfl

end Frontend
end MaskForge
