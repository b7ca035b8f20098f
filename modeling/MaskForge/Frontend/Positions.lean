import MaskForge.Frontend.Lowering
/-!
# Positions — where the lowering of a schema can go

A schema is lowered through its keywords: one that holds a schema, an array of schemas or a map of schemas.  Whatever
the dialect and whatever else stands beside them, no call of the lowering leads anywhere else.
-/
namespace MaskForge
namespace Frontend

def memberKeywords : List String :=
  ["not", "if", "then", "else", "unevaluatedProperties", "unevaluatedItems", "contains", "items", "propertyNames",
    "additionalProperties"]

def arrayKeywords : List String := ["anyOf", "allOf", "oneOf", "prefixItems"]

def mapKeywords : List String := ["properties", "patternProperties", "dependentSchemas", "dependencies"]

/-- A schema that one with these members is lowered through, and where it stands. -/
inductive Child (fields : Fields) (ptr : Text) : Ast → Text → Prop
  | member {keyword : String} {sub : Ast} (hk : keyword ∈ memberKeywords)
    (hsub : get fields keyword.toList = some sub) :
    Child fields ptr sub (childPtr ptr keyword.toList)
  | item {keyword : String} {items : List Ast} {i : Nat} {sub : Ast} (hk : keyword ∈ arrayKeywords)
    (harr : get fields keyword.toList = some (.arr items)) (hsub : items[i]? = some sub) :
    Child fields ptr sub (indexPtr (childPtr ptr keyword.toList) i)
  | entry {keyword : String} {entries : Fields} {name : Text} {sub : Ast} (hk : keyword ∈ mapKeywords)
    (hmap : get fields keyword.toList = some (.obj entries)) (hsub : (name, sub) ∈ entries) :
    Child fields ptr sub (childPtr (childPtr ptr keyword.toList) name)

/-- How many calls can be made one by the other before a schema or a reference is lowered. -/
def Call.rank : Call → Nat
  | .lowerScope .. => 5
  | .lowerBase .. => 4
  | .lowerTypeless fields .. => if fields.isEmpty then 1 else 3
  | .lowerTyped _ fields .. => if fields.isEmpty then 0 else 2
  | .lowerRef .. => 1
  | .lower .. | .lowerDynamicRef .. | .fail .. => 0

/-- A call about the members of the schema itself. -/
inductive Call.On (fields : Fields) (ptr : Text) : Call → Prop
  | lowerScope (depth : Nat) (under : OpenUnder) : On fields ptr (.lowerScope fields ptr depth under)
  | lowerBase (depth : Nat) (under : OpenUnder) : On fields ptr (.lowerBase fields ptr depth under)
  | lowerTypeless (depth : Nat) (under : OpenUnder) : On fields ptr (.lowerTypeless fields ptr depth under)
  | lowerTyped (ty : Text) (depth : Nat) (under : OpenUnder) : On fields ptr (.lowerTyped ty fields ptr depth under)
  | lowerRef {reference : Ast} (h : get fields "$ref".toList = some reference) (depth : Nat) (under : OpenUnder) :
    On fields ptr (.lowerRef reference ptr depth under)
  | lowerDynamicRef {reference : Ast} (h : get fields "$dynamicRef".toList = some reference) :
    On fields ptr (.lowerDynamicRef reference ptr)

/-- What a call about some members can make: another about them or about none, of rank `n` at most, the lowering of a
child, or an error. -/
inductive Call.From (fields : Fields) (ptr : Text) (n : Nat) : Call → Prop
  | on {call : Call} (h : call.On fields ptr) (hrank : call.rank ≤ n) : From fields ptr n call
  | plain (hn : 1 ≤ n) (depth : Nat) (under : OpenUnder) : From fields ptr n (.lowerTypeless [] ptr depth under)
  | child {sub : Ast} {subPtr : Text} (h : Child fields ptr sub subPtr) (depth : Nat) (under : OpenUnder) :
    From fields ptr n (.lower sub subPtr depth under)
  | fail (error : FrontendError) : From fields ptr n (.fail error)

variable {fields : Fields} {ptr : Text} {depth n : Nat} {under : OpenUnder} {call : Call}

theorem from_memberCalls {keyword : String} {f : Ast → Text → Call} (hk : keyword ∈ memberKeywords)
    (hf : ∀ sub subPtr, Child fields ptr sub subPtr → (f sub subPtr).From fields ptr n)
    (h : call ∈ memberCalls f fields keyword ptr) : call.From fields ptr n := by
  unfold memberCalls at h
  split at h
  · rename_i sub hsub
    rw [List.mem_singleton.1 h]
    exact hf _ _ (.member hk hsub)
  · cases h

theorem from_itemCalls {keyword : String} {items : List Ast} {f : Ast → Text → Call} (hk : keyword ∈ arrayKeywords)
    (harr : get fields keyword.toList = some (.arr items))
    (hf : ∀ sub subPtr, Child fields ptr sub subPtr → (f sub subPtr).From fields ptr n)
    (h : call ∈ itemCalls f (childPtr ptr keyword.toList) items) : call.From fields ptr n := by
  unfold itemCalls at h
  obtain ⟨⟨item, i⟩, hmem, rfl⟩ := List.mem_map.1 h
  exact hf _ _ (.item hk harr (List.mem_zipIdx_iff_getElem?.1 hmem))

theorem from_entryCalls {keyword : String} {all entries : Fields} {f : Ast → Text → Call} (hk : keyword ∈ mapKeywords)
    (hmap : get fields keyword.toList = some (.obj all)) (hsub : ∀ e ∈ entries, e ∈ all)
    (hf : ∀ sub subPtr, Child fields ptr sub subPtr → (f sub subPtr).From fields ptr n)
    (h : call ∈ entryCalls f (childPtr ptr keyword.toList) entries) : call.From fields ptr n := by
  unfold entryCalls at h
  obtain ⟨⟨name, sub⟩, hmem, rfl⟩ := List.mem_map.1 h
  exact hf _ _ (.entry hk hmap (hsub _ hmem))

theorem from_lower (sub : Ast) (subPtr : Text) (h : Child fields ptr sub subPtr) :
    (Call.lower sub subPtr depth under).From fields ptr n :=
  .child h _ _

theorem from_callsOf {α : Type} {checked : Except FrontendError α} {calls : α → List Call}
    (hcalls : ∀ a, checked = .ok a → ∀ call ∈ calls a, call.From fields ptr n) (h : call ∈ callsOf checked calls) :
    call.From fields ptr n := by
  cases hc : checked with
  | error e =>
    rw [hc] at h
    rw [List.mem_singleton.1 h]
    exact .fail e
  | ok a =>
    rw [hc] at h
    exact hcalls a hc call h

theorem from_lowerBranches {keyword : String} {branches : Ast} (hk : keyword ∈ arrayKeywords)
    (hb : get fields keyword.toList = some branches) (h : call ∈ lowerBranches keyword branches ptr depth under) :
    call.From fields ptr n := by
  unfold lowerBranches at h
  split at h
  · rw [List.mem_singleton.1 h]
    exact .fail _
  · exact from_itemCalls hk hb from_lower h
  · rw [List.mem_singleton.1 h]
    exact .fail _

theorem from_lowerIfThenElse (hn : 1 ≤ n) (h : call ∈ lowerIfThenElse fields ptr depth under) :
    call.From fields ptr n := by
  have hsub : ∀ keyword, keyword ∈ memberKeywords →
      call ∈ memberCalls (fun node ptr => Call.lower node ptr (depth + 1) under) fields keyword ptr →
      call.From fields ptr n :=
    fun keyword hk h => from_memberCalls hk from_lower h
  have hplain : call ∈ [Call.lowerTypeless [] ptr depth under] → call.From fields ptr n := fun h => by
    rw [List.mem_singleton.1 h]
    exact .plain hn _ _
  unfold lowerIfThenElse at h
  simp only at h
  split at h
  · split at h
    · exact hsub "if" (by decide) h
    · exact hplain h
  · rw [List.mem_append, List.mem_append] at h
    rcases h with (h | h) | h
    · exact hsub "if" (by decide) h
    all_goals split at h
    · exact hsub "then" (by decide) h
    · exact hplain h
    · exact hsub "else" (by decide) h
    · exact hplain h

theorem from_lowerScope {quirks : DialectQuirks} (h : call ∈ lowerScopeCalls quirks fields ptr depth under) :
    call.From fields ptr 4 := by
  have hbase : call ∈ [Call.lowerBase fields ptr depth under] → call.From fields ptr 4 := fun h => by
    rw [List.mem_singleton.1 h]
    exact .on (.lowerBase _ _) (Nat.le_refl 4)
  have href : ∀ reference, get fields "$ref".toList = some reference →
    call ∈ [Call.lowerRef reference ptr depth under] →
      call.From fields ptr 4 := fun reference hget h => by
    rw [List.mem_singleton.1 h]
    exact .on (.lowerRef hget _ _) (show 1 ≤ 4 by decide)
  unfold lowerScopeCalls at h
  simp only at h
  split at h
  · split at h
    · rename_i reference hget
      exact href reference hget h
    · cases h
  split at h
  · simp only [List.mem_append] at h
    rcases h with ((((((h | h) | h) | h) | h) | h) | h) | h
    · split at h
      · rename_i reference hget
        exact href reference hget h
      · cases h
    · split at h
      · rename_i reference hdyn
        rw [List.mem_singleton.1 h]
        exact .on (.lowerDynamicRef hdyn) (Nat.zero_le 4)
      · cases h
    · split at h
      · rename_i value hvalue
        exact from_lowerBranches (by decide) hvalue h
      · cases h
    · split at h
      · rename_i value hvalue
        exact from_lowerBranches (by decide) hvalue h
      · cases h
    · split at h
      · rename_i value hvalue
        exact from_lowerBranches (by decide) hvalue h
      · cases h
    · exact from_memberCalls (by decide) from_lower h
    · split at h
      · exact from_lowerIfThenElse (by decide) h
      · cases h
    · split at h
      · exact hbase h
      · cases h
  · exact hbase h

theorem from_lowerUnevaluated {hasUp hasUi : Bool} (h : call ∈ lowerUnevaluated fields ptr depth under hasUp hasUi) :
    call.From fields ptr 5 := by
  unfold lowerUnevaluated at h
  simp only [List.mem_cons, List.mem_append] at h
  rcases h with rfl | h | h
  · exact .on (.lowerScope _ _) (Nat.le_refl 5)
  all_goals split at h
  · exact from_memberCalls (by decide) from_lower h
  · cases h
  · exact from_memberCalls (by decide) from_lower h
  · cases h

theorem rank_lowerTyped_le {ty : Text} : (Call.lowerTyped ty fields ptr depth under).rank ≤ 3 := by
  cases fields with
  | nil => exact Nat.zero_le 3
  | cons f fields => exact Nat.le_succ 2

theorem rank_lowerTypeless_le : (Call.lowerTypeless fields ptr depth under).rank ≤ 3 := by
  cases fields with
  | nil => exact Nat.le_add_left 1 2
  | cons f fields => exact Nat.le_refl 3

theorem from_lowerTypeUnion {items : List Ast} (h : call ∈ lowerTypeUnion items fields ptr depth under) :
    call.From fields ptr 3 := by
  unfold lowerTypeUnion at h
  simp only at h
  split at h
  · rw [List.mem_singleton.1 h]
    exact .fail _
  split at h
  · rw [List.mem_singleton.1 h]
    exact .fail _
  split at h
  · cases h
  · obtain ⟨name, -, rfl⟩ := List.mem_map.1 h
    exact .on (.lowerTyped _ _ _) rank_lowerTyped_le

theorem from_lowerBase {validationEnabled : Bool} (h : call ∈ lowerBaseCalls validationEnabled fields ptr depth under) :
    call.From fields ptr 3 := by
  have hplain : call ∈ [Call.lowerTypeless fields ptr depth under] → call.From fields ptr 3 := fun h => by
    rw [List.mem_singleton.1 h]
    exact .on (.lowerTypeless _ _) rank_lowerTypeless_le
  unfold lowerBaseCalls at h
  split at h
  · exact hplain h
  split at h
  · exact hplain h
  · exact from_lowerTypeUnion h
  · split at h
    · cases h
    · rw [List.mem_singleton.1 h]
      exact .on (.lowerTyped _ _ _) rank_lowerTyped_le
  · rw [List.mem_singleton.1 h]
    exact .fail _

theorem from_lowerTypeless (h : call ∈ lowerTypelessCalls fields ptr depth under) :
    call.From fields ptr (if fields.isEmpty then 0 else 2) := by
  unfold lowerTypelessCalls at h
  simp only at h
  split at h
  · cases h
  simp only [List.mem_append, List.mem_cons, List.not_mem_nil, or_false] at h
  rcases h with h | rfl | rfl | rfl
  · split at h
    · rw [List.mem_singleton.1 h]
      exact .on (.lowerTyped _ _ _) (Nat.le_refl _)
    · cases h
  all_goals exact .on (.lowerTyped _ _ _) (Nat.le_refl _)

/-! ### Arrays and objects -/

theorem from_lowerContains (h : call ∈ lowerContains fields ptr depth) : call.From fields ptr n := by
  unfold lowerContains at h
  split at h
  · cases h
  · cases h
  · rename_i sub _ hsub
    rw [List.mem_singleton.1 h]
    exact .child (.member (by decide) hsub) _ _

theorem from_lowerTuple (hn : 1 ≤ n) (h : call ∈ lowerTuple fields ptr depth) : call.From fields ptr n := by
  unfold lowerTuple at h
  simp only at h
  split at h
  · rw [List.mem_singleton.1 h]
    exact .fail _
  · rename_i items _ hitems
    simp only [List.mem_append] at h
    rcases h with (h | h) | h
    · exact from_itemCalls (by decide) hitems from_lower h
    · split at h
      · cases h
      · rw [List.mem_singleton.1 h]
        exact .plain hn _ _
      · rw [List.mem_singleton.1 h]
        exact .plain hn _ _
      · rename_i sub _ _ hsub
        rw [List.mem_singleton.1 h]
        exact .child (.member (by decide) hsub) _ _
    · exact from_lowerContains h
  · rw [List.mem_singleton.1 h]
    exact .fail _

theorem from_lowerArray (hn : 1 ≤ n) (h : call ∈ lowerArray fields ptr depth) : call.From fields ptr n := by
  unfold lowerArray at h
  rw [List.mem_append] at h
  rcases h with h | h
  · split at h
    · cases h
    · cases h
    · rw [List.mem_singleton.1 h]
      exact .fail _
  split at h
  · exact from_lowerTuple hn h
  rw [List.mem_append] at h
  rcases h with h | h
  · exact from_lowerContains h
  split at h
  · cases h
  · cases h
  · rename_i sub _ hsub
    rw [List.mem_singleton.1 h]
    exact .child (.member (by decide) hsub) _ _

theorem entriesOf_ok {keyword : String} {entries : Fields} (h : entriesOf fields keyword ptr = .ok entries) :
    get fields keyword.toList = some (.obj entries) ∨ entries = [] := by
  unfold entriesOf at h
  split at h
  · rename_i all hall
    cases h
    exact .inl hall
  · cases h
  · cases h
    exact .inr rfl

theorem legacySchemaEntries_ok {keywordPtr : Text} :
    ∀ {entries schemas : Fields}, legacySchemaEntries keywordPtr entries = .ok schemas →
    ∀ e ∈ schemas, e ∈ entries
  | [], schemas, h, e, he => by
    cases h
    cases he
  | (key, value) :: entries, schemas, h, e, he => by
    have hkept : (legacySchemaEntries keywordPtr entries).map (fun rest => (key, value) :: rest) = .ok schemas →
        e ∈ (key, value) :: entries := fun h => by
      cases hrest : legacySchemaEntries keywordPtr entries with
      | error err => rw [hrest] at h; cases h
      | ok rest =>
        rw [hrest] at h
        cases h
        rcases List.mem_cons.1 he with rfl | he
        · exact List.mem_cons_self
        · exact List.mem_cons_of_mem _ (legacySchemaEntries_ok hrest e he)
    unfold legacySchemaEntries at h
    split at h
    · exact List.mem_cons_of_mem _ (legacySchemaEntries_ok h e he)
    · exact hkept h
    · exact hkept h
    · cases h

theorem from_entries {keyword : String} {entries : Fields} {f : Ast → Text → Call} (hk : keyword ∈ mapKeywords)
    (hentries : entriesOf fields keyword ptr = .ok entries)
    (hf : ∀ sub subPtr, Child fields ptr sub subPtr → (f sub subPtr).From fields ptr n)
    (h : call ∈ entryCalls f (childPtr ptr keyword.toList) entries) : call.From fields ptr n := by
  rcases entriesOf_ok hentries with hall | rfl
  · exact from_entryCalls hk hall (fun _ he => he) hf h
  · cases h

theorem from_legacyEntries {entries : Fields} {f : Ast → Text → Call}
    (hentries : legacyDependenciesPairs fields ptr = .ok entries)
    (hf : ∀ sub subPtr, Child fields ptr sub subPtr → (f sub subPtr).From fields ptr n)
    (h : call ∈ entryCalls f (childPtr ptr "dependencies".toList) entries) : call.From fields ptr n := by
  unfold legacyDependenciesPairs at hentries
  cases hall : entriesOf fields "dependencies" ptr with
  | error e => rw [hall] at hentries; cases hentries
  | ok all =>
    rw [hall] at hentries
    have hsub := legacySchemaEntries_ok hentries
    rcases entriesOf_ok hall with hget | rfl
    · exact from_entryCalls (by decide) hget hsub hf h
    · obtain ⟨e, he, -⟩ := List.mem_map.1 h
      exact absurd (hsub e he) (List.not_mem_nil)

theorem from_lowerObject (hn : 1 ≤ n) (h : call ∈ lowerObject fields ptr depth under) : call.From fields ptr n := by
  unfold lowerObject at h
  refine from_callsOf (fun required _ call h => ?_) h
  refine from_callsOf (fun entries hentries call h => ?_) h
  simp only [List.mem_append] at h
  rcases h with (h | h) | h
  · exact from_entries (by decide) hentries from_lower h
  · obtain ⟨name, -, rfl⟩ := List.mem_map.1 h
    exact .plain hn _ _
  refine from_callsOf (fun patternEntries hpattern call h => ?_) h
  rw [List.mem_append] at h
  rcases h with h | h
  · exact from_entries (by decide) hpattern from_lower h
  refine from_callsOf (fun dependentEntries hdependent call h => ?_) h
  refine from_callsOf (fun legacyEntries hlegacy call h => ?_) h
  simp only [List.mem_append] at h
  rcases h with ((h | h) | h) | h
  · exact from_entries (by decide) hdependent from_lower h
  · exact from_legacyEntries hlegacy from_lower h
  · exact from_memberCalls (by decide) from_lower h
  · split at h
    · cases h
    · cases h
    · rename_i sub _ hsub
      rw [List.mem_singleton.1 h]
      exact .child (.member (by decide) hsub) _ _

/-! ### Every call -/

/-- **A call about some members makes only calls about them, and lowers only their children**, and it makes none that
could make it again. -/
theorem Call.On.calls {quirks : DialectQuirks} {validationEnabled : Bool} {made : Call} (h : call.On fields ptr)
    (hmade : made ∈ call.calls quirks validationEnabled) : ∃ n < call.rank, made.From fields ptr n := by
  cases h with
  | lowerScope depth under => exact ⟨4, Nat.lt_succ_self 4, from_lowerScope hmade⟩
  | lowerBase depth under => exact ⟨3, Nat.lt_succ_self 3, from_lowerBase hmade⟩
  | lowerTypeless depth under =>
    refine ⟨_, ?_, from_lowerTypeless hmade⟩
    cases fields with
    | nil => exact Nat.zero_lt_one
    | cons f fields => exact Nat.lt_succ_self 2
  | lowerTyped ty depth under =>
    cases fields with
    | nil =>
      -- there is nothing to lower beside no members
      change made ∈ lowerTypedCalls ty [] ptr depth under at hmade
      unfold lowerTypedCalls at hmade
      split at hmade
      · cases hmade
      split at hmade <;> cases hmade
    | cons f fields =>
      refine ⟨1, Nat.lt_succ_self 1, ?_⟩
      unfold Call.calls lowerTypedCalls at hmade
      simp only at hmade
      split at hmade
      · exact from_lowerArray (Nat.le_refl 1) hmade
      split at hmade
      · exact from_lowerObject (Nat.le_refl 1) hmade
      · cases hmade
  | lowerRef h depth under => cases hmade
  | lowerDynamicRef h => cases hmade

def fieldsOf : Ast → Fields
  | .obj fields => fields
  | _ => []

theorem lower_calls {quirks : DialectQuirks} {validationEnabled : Bool} {node : Ast} {made : Call}
    (hmade : made ∈ (Call.lower node ptr depth under).calls quirks validationEnabled) :
    made.From (fieldsOf node) ptr 5 := by
  unfold Call.calls lowerInner at hmade
  simp only at hmade
  split at hmade
  · split at hmade
    · exact from_lowerUnevaluated hmade
    · rw [List.mem_singleton.1 hmade]
      exact .on (.lowerScope _ _) (Nat.le_refl 5)
  · rw [List.mem_singleton.1 hmade]
    exact .plain (by decide) _ _
  · cases hmade
  · rw [List.mem_singleton.1 hmade]
    exact .fail _

/-! ### Whole lowerings -/

/-- The schemas lowered on the way from one schema, each where it stands. -/
inductive Visits (node : Ast) (ptr : Text) : Ast → Text → Prop
  | here : Visits node ptr node ptr
  | child {mid sub : Ast} {midPtr subPtr : Text} (h : Visits node ptr mid midPtr)
      (hsub : Child (fieldsOf mid) midPtr sub subPtr) :
    Visits node ptr sub subPtr

/-- A call at a schema. -/
inductive Call.At (node : Ast) (ptr : Text) : Call → Prop
  | lower (depth : Nat) (under : OpenUnder) : At node ptr (.lower node ptr depth under)
  | on {call : Call} (h : call.On (fieldsOf node) ptr) : At node ptr call
  | plain {call : Call} (h : call.On [] ptr) : At node ptr call
  | fail (error : FrontendError) : At node ptr (.fail error)

/-- One call is made by another, under some dialect. -/
def Makes (call made : Call) : Prop := ∃ quirks validationEnabled, made ∈ call.calls quirks validationEnabled

theorem not_child_nil {sub : Ast} {subPtr : Text} : ¬ Child [] ptr sub subPtr := by
  rintro (⟨-, h⟩ | ⟨-, h, -⟩ | ⟨-, h, -⟩) <;> cases h

theorem Call.From.visits {node start : Ast} {startPtr : Text} (hv : Visits start startPtr node ptr) {call : Call}
    (h : call.From (fieldsOf node) ptr n) : ∃ node' ptr', Visits start startPtr node' ptr' ∧ call.At node' ptr' := by
  cases h with
  | on h _ => exact ⟨node, ptr, hv, .on h⟩
  | plain _ depth under => exact ⟨node, ptr, hv, .plain (.lowerTypeless _ _)⟩
  | child h depth under => exact ⟨_, _, hv.child h, .lower _ _⟩
  | fail error => exact ⟨node, ptr, hv, .fail _⟩

/-- **Every call of a lowering is at a schema it visits.** -/
theorem reaches_at {node : Ast} (h : Relation.ReflTransGen Makes (.lower node ptr depth under) call) :
    ∃ node' ptr', Visits node ptr node' ptr' ∧ call.At node' ptr' := by
  induction h with
  | refl => exact ⟨node, ptr, .here, .lower _ _⟩
  | tail _ hmakes ih =>
    obtain ⟨node', ptr', hv, hat⟩ := ih
    obtain ⟨quirks, validationEnabled, hmade⟩ := hmakes
    cases hat with
    | lower depth under => exact (lower_calls hmade).visits hv
    | on hon =>
      obtain ⟨n, -, hfrom⟩ := hon.calls hmade
      exact hfrom.visits hv
    | plain hon =>
      obtain ⟨n, -, hfrom⟩ := hon.calls hmade
      cases hfrom with
      | on h _ => exact ⟨node', ptr', hv, .plain h⟩
      | plain _ depth under => exact ⟨node', ptr', hv, .plain (.lowerTypeless _ _)⟩
      | child h depth under => exact absurd h not_child_nil
      | fail error => exact ⟨node', ptr', hv, .fail _⟩
    | fail error => cases hmade

/-- A reference that is reached stands in a schema that is visited. -/
theorem reaches_ref {node reference : Ast} {refPtr : Text} {depth' : Nat} {under' : OpenUnder}
    (h : Relation.ReflTransGen Makes (.lower node ptr depth under) (.lowerRef reference refPtr depth' under')) :
    ∃ node', Visits node ptr node' refPtr ∧ get (fieldsOf node') "$ref".toList = some reference := by
  obtain ⟨node', ptr', hv, hat⟩ := reaches_at h
  cases hat with
  | on hon =>
    cases hon with
    | lowerRef href _ _ => exact ⟨node', hv, href⟩
  | plain hon =>
    cases hon with
    | lowerRef href _ _ => cases href

end Frontend
end MaskForge
