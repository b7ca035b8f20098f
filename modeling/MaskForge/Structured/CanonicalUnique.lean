import MaskForge.Structured.CanonicalTracks
/-!
# CanonicalUnique — items are told apart exactly as JSON values

The items of an array are entered one by one, as bytes.  Every item is found to be a duplicate exactly when an item
before it is an equal JSON value, however the two are spelled, and nothing but a lack of room stops the set.
-/
namespace MaskForge
namespace Building

open Attempt (Ends)

variable {μ : Type} {room : Room μ} {hasher : List HashWrite → UInt64} {budget : Nat} {s t : CanonicalSet μ}

/-! ### The set -/

/-- **The set holds the values**: under every hash the nodes of those values that have it, in their order. -/
def Kept (hasher : List HashWrite → UInt64) (s : CanonicalSet μ) (vs : List CanonicalValue) : Prop :=
  ∀ hash, List.Forall₂ s.arena.Means (bucketOf s hash) (vs.filter fun v => hasher v.hashOf = hash)

theorem Kept.grows {vs : List CanonicalValue} (h : Kept hasher s vs) (hg : s.arena.Grows t.arena)
    (hbuckets : t.buckets = s.buckets) :
    Kept hasher t vs := fun hash => by
  rw [bucketOf, hbuckets]
  exact (h hash).imp fun _ _ h => h.grows hg

theorem SameContents.kept {vs : List CanonicalValue} (h : Kept hasher s vs) (hsame : SameContents s t) :
    Kept hasher t vs :=
  h.grows (hsame.arena ▸ .refl _) hsame.buckets

/-- A value is compared with those of its bucket. -/
theorem anyEqual_decides {root : CanonicalId} {v : CanonicalValue} :
    ∀ {ids : List CanonicalId} {ws : List CanonicalValue} {s : CanonicalSet μ},
    List.Forall₂ s.arena.Means ids ws → s.arena.Means root v →
    Ends (anyEqual room budget root ids) s (fun equal t => (equal = true ↔ v ∈ ws) ∧ SameContents s t) fun e _ =>
    room.Refuses e
  | [], _, _, .nil, _ => .pure ⟨by simp, rfl⟩
  | id :: ids, w :: ws, s, .cons hid hids, hroot => by
    refine .seq (arenaEq_ends hid hroot) (fun _ _ h => h) fun equal t ht => ?_
    split
    · rename_i hequal
      refine .pure ⟨?_, ht.2⟩
      have hvw := ht.1.1 hequal
      simp [hvw]
    · rename_i hequal
      have hids' : List.Forall₂ t.arena.Means ids ws := ht.2.arena ▸ hids
      refine (anyEqual_decides hids' (ht.2.arena ▸ hroot)).mono (fun found u hu => ⟨hu.1.trans ?_, hu.2.trans ht.2⟩)
        fun _ _ h => h
      rw [List.mem_cons]
      exact (or_iff_right fun hvw => hequal (ht.1.2 hvw.symm)).symm

/-- **A value is inserted unless the set holds it.** -/
theorem insert_decides {root : CanonicalId} {v : CanonicalValue} {vs : List CanonicalValue}
    (hroot : s.arena.Means root v) (hkept : Kept hasher s vs) :
    Ends (insert room hasher budget root) s (fun result t => t.arena = s.arena ∧
      (result = .duplicate ∧ v ∈ vs ∨ result ≠ .duplicate ∧ v ∉ vs ∧ Kept hasher t (vs ++ [v]))) fun e _ =>
      room.Refuses e := by
  refine .seq (fingerprint_ends hroot) (fun _ _ h => h) ?_
  rintro _ t ⟨rfl, ht⟩
  have hbucket : List.Forall₂ t.arena.Means (bucketOf t (hasher v.hashOf))
    (vs.filter fun w => hasher w.hashOf = hasher v.hashOf) :=
    (ht.kept hkept) _
  refine .bind (.get (.seq (anyEqual_decides hbucket (ht.arena ▸ hroot)) (fun _ _ h => h) fun duplicate u hu => ?_))
  have hmem : duplicate = true ↔ v ∈ vs := hu.1.trans (by simp)
  split
  · rename_i hdup
    exact .pure ⟨hu.2.arena.trans ht.arena, .inl ⟨rfl, hmem.1 hdup⟩⟩
  · rename_i hdup
    refine .seq (grow_same .buckets _ _) (fun _ _ h => h) fun _ x hx => .bind (.modify (.pure ?_))
    have hsame : SameContents s x := (hx.trans hu.2).trans ht
    refine ⟨hsame.arena, .inr ⟨CanonicalInsert.noConfusion, fun h => hdup (hmem.2 h), fun hash => ?_⟩⟩
    have hlookup : (t.buckets.lookup (hasher v.hashOf)).getD [] = bucketOf s (hasher v.hashOf) := by
      rw [ht.buckets]
      rfl
    rw [List.filter_append]
    show List.Forall₂ x.arena.Means
      (((x.buckets.insert (hasher v.hashOf) ((t.buckets.lookup (hasher v.hashOf)).getD [] ++ [root])).lookup hash).getD
        []) _
    rw [hsame.arena, hsame.buckets, hlookup]
    by_cases hhash : hash = hasher v.hashOf
    · subst hhash
      have hone : [v].filter (fun w => hasher w.hashOf = hasher v.hashOf) = [v] := by simp
      rw [Finmap.lookup_insert, Option.getD_some, hone]
      exact List.rel_append (hkept _) (.cons hroot .nil)
    · have hnone : [v].filter (fun w => hasher w.hashOf = hash) = [] := by simpa using fun h => hhash h.symm
      rw [Finmap.lookup_insert_of_ne _ hhash, hnone, List.append_nil]
      exact hkept hash

/-! ### One item -/

theorem start_same : Ends (ask (room.start budget)) s (fun _ t => SameContents s t) fun e _ => room.Refuses e :=
  ask_same fun m r h => ⟨r, m, rfl, .inr (.inr ⟨_, h⟩)⟩

theorem startItem_ends : Ends (startItem room budget) s
    (fun _ t => Tracks t .start ∧ t.arena = s.arena ∧ t.buckets = s.buckets) fun e _ => room.Refuses e := by
  refine .seq (start_same) (fun _ _ h => h) fun _ t ht => .modify ⟨?_, ht.arena, ht.buckets⟩
  have htop : TopHolds t.arena .valueStart .valueStart := ⟨rfl, rfl⟩
  have hstack : [BuildFrame.valueStart] = [] ++ [BuildFrame.valueStart] := rfl
  exact .opened hstack rfl htop .nil

theorem feedItem_steps {byte : Byte} {d e : Draft} (hd : Tracks s d) (h : d.pushByte byte = some e) :
    Ends (feedItem room budget byte) s (fun _ t => Tracks t e ∧ total t e ≤ total s d + 24 ∧ s.arena.Grows t.arena ∧
      t.buckets = s.buckets)
      (fun err _ => OutOfRoom room (total s d + 24) err) := by
  have hpush : Ends (pushByte room budget byte) s _ _ := pushByte_steps hd h
  refine .of (fun mark t hx => ?_) fun err t hx => ?_
  · have hb := feedItem_behind hx
    unfold feedItem at hx
    split at hx
    · rename_i hok
      cases hx
      exact ⟨(hpush.ok hok).1, (hpush.ok hok).2, hb.arena, hb.buckets⟩
    · cases hx
  · unfold feedItem at hx
    split at hx
    · cases hx
    · rename_i herror
      cases hx
      exact hpush.error herror

/-- The bytes of an item. -/
theorem feedAll_steps : ∀ {w : List Byte} {s : CanonicalSet μ} {d e : Draft}, Tracks s d → d.feed w = some e →
    Ends (Attempt.collect (feedItem room budget) w) s
      (fun _ t => Tracks t e ∧ total t e ≤ total s d + 24 * w.length ∧ s.arena.Grows t.arena ∧ t.buckets = s.buckets)
      (fun err _ => OutOfRoom room (total s d + 24 * w.length) err)
  | [], s, d, e, hd, h => by
    cases h
    exact .pure ⟨hd, Nat.le_refl _, .refl _, rfl⟩
  | b :: w, s, d, e, hd, h => by
    obtain ⟨d', hpush, hfeed⟩ := Option.bind_eq_some_iff.1 h
    rw [List.length_cons]
    refine .seq (feedItem_steps hd hpush) (fun _ _ h => h.le (by omega)) ?_
    rintro _ t ⟨ht, htotal, hg, hbuckets⟩
    refine .seq (feedAll_steps ht hfeed) (fun _ _ h => h.le (by omega)) ?_
    rintro _ u ⟨hu, hutotal, hug, hubuckets⟩
    exact .pure ⟨hu, by omega, hg.trans hug, hubuckets.trans hbuckets⟩

/-- **The end of an item**: whether the set holds its value, and that it does afterwards. -/
theorem finishItem_decides {d : Draft} {v : CanonicalValue} {vs : List CanonicalValue} (hd : Tracks s d)
    (h : d.finish = some v) (hkept : Kept hasher s vs) : Ends (finishItem room hasher budget) s
      (fun result t => (result = .duplicate ↔ v ∈ vs) ∧ t.arena.size ≤ total s d ∧ ∃ ws, Kept hasher t ws ∧
        ∀ x, x ∈ ws ↔ x ∈ vs ∨ x = v)
      (fun err _ => OutOfRoom room (total s d) err) := by
  have hfinish : Ends (finish room budget) s _ _ := finish_steps hd h
  refine .of (fun result t hx => ?_) fun err t hx => ?_
  · have hx' := hx
    unfold finishItem at hx
    split at hx
    · cases hx
    rename_i id u hid
    obtain ⟨hmeans, hsize⟩ := hfinish.ok hid
    have hb := finish_behind.ok hid
    have hkept' : Kept hasher u vs := hkept.grows hb.arena hb.buckets
    have hinsert : Ends (insert room hasher budget id) u _ _ := insert_decides hmeans hkept'
    split at hx
    · rename_i x hdup
      cases hx
      have hsame : SameContents s _ := finishItem_duplicate hx'
      rcases hinsert.ok hdup with ⟨-, ⟨-, hmem⟩ | ⟨hne, -⟩⟩
      · refine ⟨iff_of_true rfl hmem, ?_, vs, hsame.kept hkept, fun y => (or_iff_left_of_imp fun hy => hy ▸ hmem).symm⟩
        rw [hsame.arena]
        exact Nat.le_add_right _ _
      · exact absurd rfl hne
    · rename_i x hins
      cases hx
      obtain ⟨harena, ⟨hdup, -⟩ | ⟨-, hmem, hnew⟩⟩ := hinsert.ok hins
      · cases hdup
      · exact ⟨iff_of_false CanonicalInsert.noConfusion hmem, harena ▸ hsize, _, hnew, by simp⟩
    · cases hx
  · unfold finishItem at hx
    split at hx
    · rename_i herror
      cases hx
      exact hfinish.error herror
    rename_i id u hid
    obtain ⟨hmeans, -⟩ := hfinish.ok hid
    have hb := finish_behind.ok hid
    have hinsert : Ends (insert room hasher budget id) u _ _ := insert_decides hmeans (hkept.grows hb.arena hb.buckets)
    split at hx
    · cases hx
    · cases hx
    · rename_i herror
      cases hx
      exact .inl (hinsert.error herror)

/-! ### All items -/

section
variable (room hasher budget)

/-- An item, byte by byte. -/
def enterItem (item : List Byte) : Building μ CanonicalInsert := do
  startItem room budget
  let _ ← Attempt.collect (feedItem room budget) item
  finishItem room hasher budget

/-- The items of an array, one after the other. -/
def enterAll (items : List (List Byte)) : Building μ (List CanonicalInsert) :=
  Attempt.collect (enterItem room hasher budget) items

end

/-- The bytes of an item: a value without repeated names, with white space behind it. -/
def ItemText (text : List Byte) (a : Ast) : Prop :=
  a.Distinct ∧ ∃ w u, text = w ++ u ∧ Derives (.value a) w ∧ Whitespace u

/-- An item is a duplicate when an item before it is an equal value. -/
def Verdicts : List Ast → List Ast → List CanonicalInsert → Prop
  | _, [], results => results = []
  | _, _ :: _, [] => False
  | seen, a :: rest, result :: results => (result = .duplicate ↔ ∃ b ∈ seen, b.Same a) ∧
      Verdicts (seen ++ [a]) rest results

/-- What the items take at most. -/
def needed (items : List (List Byte)) : Nat := 24 * items.flatten.length + 4 * items.length

/-- The values seen so far, in canonical form, are those the set holds. -/
def Holds (hasher : List HashWrite → UInt64) (s : CanonicalSet μ) (seen : List Ast) : Prop :=
  (∀ a ∈ seen, a.Distinct ∧ a.Numeric) ∧ ∃ vs, Kept hasher s vs ∧ ∀ v, v ∈ vs ↔ v ∈ seen.map Ast.canon

theorem seen_iff {seen : List Ast} {a : Ast} (hseen : ∀ a ∈ seen, a.Distinct ∧ a.Numeric) (hdistinct : a.Distinct)
    (hnumeric : a.Numeric) :
    a.canon ∈ seen.map Ast.canon ↔ ∃ b ∈ seen, b.Same a := by
  rw [List.mem_map]
  refine exists_congr fun b => and_congr_right fun hb => ?_
  exact Ast.canon_eq_iff (hseen b hb).1 hdistinct (hseen b hb).2 hnumeric

theorem enterItem_decides {item : List Byte} {a : Ast} {seen : List Ast} (hitem : ItemText item a)
    (hs : Holds hasher s seen) :
    Ends (enterItem room hasher budget item) s
      (fun result t => (result = .duplicate ↔ ∃ b ∈ seen, b.Same a) ∧ t.arena.size ≤ s.arena.size + 24 * item.length +
        4 ∧ Holds hasher t (seen ++ [a]))
      (fun err _ => OutOfRoom room (s.arena.size + 24 * item.length + 4) err) := by
  obtain ⟨hdistinct, w, u, rfl, hvalue, hu⟩ := hitem
  obtain ⟨hseen, vs, hkept, hvs⟩ := hs
  obtain ⟨d, hfeed, hfinish⟩ := Draft.finish_feed hvalue hu
  have hnumeric : a.Numeric := hvalue.numeric
  refine .seq startItem_ends (fun _ _ h => .inl h) ?_
  rintro _ t ⟨ht, harena, hbuckets⟩
  have hstart : total t .start = s.arena.size + 4 := by rw [total, harena]; rfl
  refine .seq (feedAll_steps ht hfeed) (fun _ _ h => h.le (by omega)) ?_
  rintro _ x ⟨hx, htotal, hg, hxbuckets⟩
  have hgrown : s.arena.Grows x.arena := harena ▸ hg
  refine (finishItem_decides hx hfinish (hkept.grows hgrown (hxbuckets.trans hbuckets))).mono ?_ fun _ _ h =>
    h.le (by omega)
  rintro result y ⟨hresult, hsize, ws, hws, hmem⟩
  refine ⟨?_, by omega, ?_, ws, hws, fun v => ?_⟩
  · rw [hresult, hvs, seen_iff hseen hdistinct hnumeric]
  · rintro b hb
    rcases List.mem_append.1 hb with hb | hb
    · exact hseen b hb
    · rw [List.mem_singleton.1 hb]
      exact ⟨hdistinct, hnumeric⟩
  · rw [hmem, hvs, List.map_append, List.mem_append, List.map_singleton, List.mem_singleton]

theorem enterAll_decides :
    ∀ {items : List (List Byte)} {as seen : List Ast} {s : CanonicalSet μ}, List.Forall₂ ItemText items as →
    Holds hasher s seen → Ends (enterAll room hasher budget items) s
      (fun results t => Verdicts seen as results ∧ Holds hasher t (seen ++ as)) (fun err _ =>
        OutOfRoom room (s.arena.size + needed items) err)
  | [], _, seen, s, .nil, hs => .pure ⟨rfl, by rwa [List.append_nil]⟩
  | item :: items, a :: as, seen, s, .cons hitem hitems, hs => by
    have hneeded : needed (item :: items) = 24 * item.length + 4 + needed items := by
      simp only [needed, List.flatten_cons, List.length_append, List.length_cons]
      omega
    refine .seq (enterItem_decides hitem hs) (fun _ _ h => h.le (by omega)) ?_
    rintro result t ⟨hresult, hsize, ht⟩
    refine .seq (enterAll_decides hitems ht) (fun _ _ h => h.le (by omega)) ?_
    rintro results x ⟨hresults, hx⟩
    refine .pure ⟨⟨hresult, hresults⟩, ?_⟩
    rwa [List.append_assoc] at hx

/-- A set without items. -/
def newSet (m : μ) : CanonicalSet μ := ⟨m, .empty, ∅, ⟨[], none, []⟩⟩

theorem holds_new (m : μ) : Holds hasher (newSet m) [] := by
  refine ⟨fun _ h => absurd h List.not_mem_nil, [], fun hash => ?_, fun v => by simp⟩
  rw [bucketOf, newSet, Finmap.lookup_empty]
  exact .nil

/-! ### Strings among the items -/

theorem finmap_any_iff {α : Type} {β : α → Type} [DecidableEq α] {p : ∀ x, β x → Bool} (m : Finmap β) :
    m.any p = true ↔ ∃ x y, m.lookup x = some y ∧ p x y = true := by
  have hfold : ∀ (l : List (Sigma β)) (b : Bool), l.foldl (fun d e => d || p e.1 e.2) b =
    (b || l.any fun e => p e.1 e.2) := by
    intro l
    induction l with
    | nil => simp
    | cons e l ih =>
      intro b
      rw [List.foldl_cons, ih, List.any_cons, Bool.or_assoc]
  induction m using Finmap.induction_on with
  | H l =>
    have hany : Finmap.any p l.toFinmap = l.entries.any fun e => p e.1 e.2 := hfold l.entries false
    rw [hany, List.any_eq_true]
    constructor
    · rintro ⟨⟨x, y⟩, hmem, hp⟩
      exact ⟨x, y, AList.mem_lookup_iff.2 hmem, hp⟩
    · rintro ⟨x, y, hlookup, hp⟩
      exact ⟨⟨x, y⟩, AList.mem_lookup_iff.1 hlookup, hp⟩

theorem forall₂_mem {α β : Type} {R : α → β → Prop} {as : List α} {bs : List β} (h : List.Forall₂ R as bs) :
    (∀ a ∈ as, ∃ b ∈ bs, R a b) ∧ ∀ b ∈ bs, ∃ a ∈ as, R a b := by
  induction h with
  | nil => exact ⟨fun _ h => absurd h List.not_mem_nil, fun _ h => absurd h List.not_mem_nil⟩
  | cons hab _ ih =>
    refine ⟨fun a ha => ?_, fun b hb => ?_⟩
    · rcases List.mem_cons.1 ha with rfl | ha
      · exact ⟨_, List.mem_cons_self, hab⟩
      · obtain ⟨b, hb, hr⟩ := ih.1 a ha
        exact ⟨b, List.mem_cons_of_mem _ hb, hr⟩
    · rcases List.mem_cons.1 hb with rfl | hb
      · exact ⟨_, List.mem_cons_self, hab⟩
      · obtain ⟨a, ha, hr⟩ := ih.2 b hb
        exact ⟨a, List.mem_cons_of_mem _ ha, hr⟩

/-- A node of the bytes of a string. -/
theorem isString_iff {id : CanonicalId} {v : CanonicalValue} {text : List Byte} (h : s.arena.Means id v) :
    (match s.arena.nodes[id]? with
      | some (.string span) => decide (s.arena.spanBytes span = text)
      | _ => false) = true ↔ v = .string text := by
  obtain ⟨node, hnode, hv⟩ := h
  rw [hnode]
  cases node <;> cases v <;> (try exact hv.elim) <;> simp
  rw [hv.2]

theorem containsString_iff {vs : List CanonicalValue} (h : Kept hasher s vs) (text : List Byte) :
    containsString s text = true ↔ .string text ∈ vs := by
  rw [containsString, finmap_any_iff]
  constructor
  · rintro ⟨hash, ids, hlookup, hany⟩
    obtain ⟨id, hid, hstring⟩ := List.any_eq_true.1 hany
    have hbucket : bucketOf s hash = ids := by rw [bucketOf, hlookup, Option.getD_some]
    obtain ⟨v, hv, hmeans⟩ := (forall₂_mem (h hash)).1 id (hbucket ▸ hid)
    obtain rfl := (isString_iff hmeans).1 hstring
    exact (List.mem_filter.1 hv).1
  · intro hmem
    have hfiltered : .string text ∈ vs.filter fun v => hasher v.hashOf = hasher (CanonicalValue.string text).hashOf :=
      List.mem_filter.2 ⟨hmem, decide_eq_true rfl⟩
    obtain ⟨id, hid, hmeans⟩ := (forall₂_mem (h _)).2 _ hfiltered
    cases hlookup : s.buckets.lookup (hasher (CanonicalValue.string text).hashOf) with
    | none =>
      rw [bucketOf, hlookup] at hid
      exact absurd hid List.not_mem_nil
    | some ids =>
      rw [bucketOf, hlookup, Option.getD_some] at hid
      exact ⟨_, ids, hlookup, List.any_eq_true.2 ⟨id, hid, (isString_iff hmeans).2 rfl⟩⟩

/-- A string is known by its canonical value. -/
theorem canon_string_iff {a : Ast} {text : Text} : a.canon = .string (textBytes text) ↔ a = .str text := by
  cases a <;> simp [Ast.canon, CanonicalValue.objectOf]
  exact ⟨textBytes_inj, congrArg textBytes⟩

/-- **Items are unique exactly as JSON values.**  Whatever the memory and the hash are: of any items, entered byte by
byte in any spelling, one is found to be a duplicate exactly when an item before it is an equal JSON value, and a
string is found among them exactly when it is one of them; and where the set stops instead, the memory has refused a
request or the items are too long for the indices of the arena. -/
theorem unique_items_exact (room : Room μ) (hasher : List HashWrite → UInt64) (budget : Nat) (m : μ)
    {items : List (List Byte)} {as : List Ast}
    (h : List.Forall₂ ItemText items as) : Ends (enterAll room hasher budget items) (newSet m)
      (fun results t => Verdicts [] as results ∧ ∀ text : Text, containsString t (textBytes text) = true ↔
        .str text ∈ as)
      (fun e _ => room.Refuses e ∨ u32Size ≤ needed items) := by
  have hempty : (newSet m).arena.size = 0 := rfl
  refine (enterAll_decides h (holds_new m)).mono (fun results t ht => ⟨ht.1, fun text => ?_⟩) fun e _ he => ?_
  · obtain ⟨-, vs, hkept, hvs⟩ := ht.2
    rw [containsString_iff hkept, hvs, List.nil_append, List.mem_map]
    constructor
    · rintro ⟨a, ha, hcanon⟩
      exact canon_string_iff.1 hcanon ▸ ha
    · exact fun ha => ⟨_, ha, canon_string_iff.2 rfl⟩
  · rw [hempty, Nat.zero_add] at he
    exact he

/-- The second of two equal items is a duplicate. -/
theorem Verdicts.twice {a b : Ast} {results : List CanonicalInsert} (h : Verdicts [] [a, b] results)
    (hsame : a.Same b) : ∃ first, results = [first, .duplicate] ∧ first ≠ .duplicate := by
  rcases results with _ | ⟨first, _ | ⟨second, rest⟩⟩
  · exact h.elim
  · exact h.2.elim
  · obtain ⟨hfirst, hsecond, rfl⟩ := h
    obtain rfl := hsecond.2 ⟨a, List.mem_cons_self, hsame⟩
    refine ⟨first, rfl, fun hdup => ?_⟩
    obtain ⟨b, hb, -⟩ := hfirst.1 hdup
    exact List.not_mem_nil hb

def plainOne : NumberForm.NumberText := ⟨false, [0x31], none, none⟩

def pointedOne : NumberForm.NumberText := ⟨false, [0x31], some [0x30], none⟩

theorem ones_same : (Ast.num plainOne.text).Same (.num pointedOne.text) ∧ plainOne.Json ∧ pointedOne.Json := by
  have hpositive : Decimal.Positive [0x31] :=
    ⟨Decimal.allDigits_cons.2 ⟨by decide, Decimal.allDigits_nil⟩, 0x31, [], rfl, by decide⟩
  have hone : plainOne.Json :=
    ⟨⟨⟨List.cons_ne_nil _ _, hpositive.1⟩, fun _ h => (by cases h), fun _ _ _ h => (by cases h)⟩, .inr hpositive⟩
  have hnothing : pointedOne.Json := by
    refine ⟨⟨⟨List.cons_ne_nil _ _, hpositive.1⟩, fun f h => ?_, fun _ _ _ h => (by cases h)⟩, .inr hpositive⟩
    cases h
    exact ⟨List.cons_ne_nil _ _, Decimal.allDigits_cons.2 ⟨by decide, Decimal.allDigits_nil⟩⟩
  refine ⟨⟨plainOne, pointedOne, hone, hnothing, rfl, rfl, ?_⟩, hone, hnothing⟩
  have h1 : Decimal.value [0x31] = 1 := by decide
  have h10 : Decimal.value [0x31, 0x30] = 10 := by decide
  simp [NumberForm.NumberText.value, NumberForm.NumberText.exponentValue, plainOne, pointedOne, h1, h10]

/-- `1` and `1.0`, entered with a memory that grants so many requests. -/
def enteredOnes (granted : Nat) : Except CanonicalError (List CanonicalInsert) × CanonicalSet Nat :=
  enterAll countedRoom (fun _ => 0) 64 [plainOne.text, pointedOne.text] (newSet granted)

/-- `1.0` is a duplicate of `1`. -/
theorem unique_items_exact_ones : ∃ first t, enteredOnes 99 = (.ok [first, .duplicate], t) ∧ first ≠ .duplicate := by
  obtain ⟨hsame, hone, hnothing⟩ := ones_same
  have hitem : ∀ x : NumberForm.NumberText, x.Json → ItemText x.text (.num x.text) := fun x hx =>
    ⟨trivial, x.text, [], (List.append_nil _).symm, .num x hx, fun _ h => absurd h List.not_mem_nil⟩
  have hitems : List.Forall₂ ItemText [plainOne.text, pointedOne.text] [.num plainOne.text, .num pointedOne.text] :=
    .cons (hitem _ hone) (.cons (hitem _ hnothing) .nil)
  have hall : ∀ granted, (enteredOnes granted).1.isOk = true →
      ∃ first t, enteredOnes granted = (.ok [first, .duplicate], t) ∧ first ≠ .duplicate := by
    intro granted hok
    obtain ⟨results, t, hrun, hverdicts, -⟩ :=
      (unique_items_exact countedRoom (fun _ => 0) 64 granted hitems).of_isOk hok
    obtain ⟨first, rfl, hne⟩ := hverdicts.twice hsame
    exact ⟨first, t, hrun, hne⟩
  exact hall 99 (by decide +kernel)

end Building
end MaskForge
