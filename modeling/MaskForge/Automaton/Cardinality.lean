import MaskForge.Automaton.Import
import MaskForge.Automaton.Language
/-!
# Cardinality — the residual cardinality is the number of words

The states with finitely many words are those the peeling reaches: every edge of one leads to one peeled before it. 
Their counts follow the edges, class by class; what is never peeled goes round a cycle, and since no state is a dead
end, every round gives another word.
-/
namespace MaskForge

open CountingSort (slice bucket)

/-! ### Saturation -/

theorem coe_min_u64 (n : Nat) : ((min n u64Max : Nat) : ℕ∞) = min (n : ℕ∞) (u64Max : ℕ∞) := by
  rcases Nat.le_total n u64Max with h | h
  · rw [Nat.min_eq_left h, min_eq_left (Nat.cast_le.2 h)]
  · rw [Nat.min_eq_right h, min_eq_right (Nat.cast_le.2 h)]

theorem min_eq_coe {x : ℕ∞} {n : Nat} (h : (n : ℕ∞) = min x (u64Max : ℕ∞)) :
    (x = n ∧ n ≤ u64Max) ∨ (n = u64Max ∧ (u64Max : ℕ∞) ≤ x) := by
  rcases le_total x (u64Max : ℕ∞) with hx | hx
  · rw [min_eq_left hx] at h
    rw [← h] at hx
    exact .inl ⟨h.symm, Nat.cast_le.1 hx⟩
  · rw [min_eq_right hx] at h
    exact .inr ⟨Nat.cast_inj.1 h, hx⟩

/-- **One saturating round**: what is exact up to saturation stays so. -/
theorem satAdd64_satMul64 {count n k : Nat} {x y : ℕ∞} (hcount : (count : ℕ∞) = min x u64Max)
    (hn : (n : ℕ∞) = min y u64Max) :
    (satAdd64 count (satMul64 n k) : ℕ∞) = min (x + k * y) u64Max := by
  have hbig : ∀ {z : ℕ∞}, (u64Max : ℕ∞) ≤ z → ∀ {m : Nat}, u64Max ≤ m → ((min m u64Max : Nat) : ℕ∞) = min z u64Max := by
    intro z hz m hm
    rw [Nat.min_eq_right hm, min_eq_right hz]
  rw [satAdd64, satMul64]
  rcases min_eq_coe hcount with ⟨rfl, _⟩ | ⟨rfl, hx⟩
  · rcases min_eq_coe hn with ⟨rfl, _⟩ | ⟨rfl, hy⟩
    · rcases Nat.le_total (n * k) u64Max with hnk | hnk
      · rw [Nat.min_eq_left hnk, coe_min_u64]
        push_cast
        rw [mul_comm]
      · refine hbig ?_ (by rw [Nat.min_eq_right hnk]; exact Nat.le_add_left _ _)
        rw [← Nat.cast_mul, ← Nat.cast_add, Nat.cast_le, Nat.mul_comm]
        exact Nat.le_trans hnk (Nat.le_add_left _ _)
    · cases k with
      | zero =>
        rw [Nat.mul_zero, Nat.zero_min, Nat.add_zero, Nat.cast_zero, zero_mul, add_zero]
        exact coe_min_u64 count
      | succ k =>
        have hge : u64Max ≤ u64Max * (k + 1) := Nat.le_mul_of_pos_right _ (Nat.succ_pos k)
        refine hbig ?_ (by rw [Nat.min_eq_right hge]; exact Nat.le_add_left _ _)
        calc (u64Max : ℕ∞) ≤ y := hy
          _ ≤ ((k + 1 : Nat) : ℕ∞) * y := le_mul_of_one_le_left' (by exact_mod_cast Nat.succ_pos k)
          _ ≤ _ := le_add_left le_rfl
  · exact hbig (le_add_right hx) (Nat.le_add_right _ _)

/-! ### Peeling -/

/-- **A peeling under way**: of the states in `gone` every edge is off, of one more those to the sources `dropped`. -/
structure Peeling (targets : Nat → List Nat) (n : Nat) (gone dropped : List Nat) (s : Strip) : Prop where
  remaining : ∀ v, v < n → ∃ left, s.remaining[v]? = some left ∧
    left + dropped.count v = ((targets v).filter fun t => decide (t ∉ gone)).length
  nodup : (s.order ++ s.queue).Nodup
  ready : ∀ v, v ∈ s.order ++ s.queue ↔ v ≠ dead ∧ v < n ∧ s.remaining[v]? = some 0
  before : ∀ l v r, s.order = l ++ v :: r → ∀ t ∈ targets v, t ∈ l

variable {targets : Nat → List Nat} {n : Nat} {gone dropped : List Nat} {s s' : Strip}

theorem Peeling.dropEdge (h : Peeling targets n gone dropped s) (hlen : s.remaining.length = n) {source : Nat}
    (hs : MaskForge.dropEdge s source = .ok s') :
    Peeling targets n gone (dropped ++ [source]) s' ∧ s'.remaining.length = n ∧ s'.order = s.order := by
  unfold MaskForge.dropEdge at hs
  split at hs
  · rename_i left hleft
    cases hs
    have hsource : source < n := hlen ▸ (List.getElem?_eq_some_iff.1 hleft).1
    have hnot : source ∉ s.order ++ s.queue := by
      intro hmem
      have h0 := ((h.ready source).1 hmem).2.2
      rw [hleft] at h0
      cases h0
    have hself : (s.remaining.set source left)[source]? = some left := by
      rw [List.getElem?_set_self (hlen ▸ hsource)]
    have hother : ∀ v, v ≠ source → (s.remaining.set source left)[v]? = s.remaining[v]? :=
      fun v hv => List.getElem?_set_ne (Ne.symm hv)
    refine ⟨⟨fun v hv => ?_, ?_, fun v => ?_, h.before⟩, by rw [List.length_set]; exact hlen, rfl⟩
    · obtain ⟨r, hr, hcount⟩ := h.remaining v hv
      by_cases hvs : v = source
      · subst hvs
        rw [hleft] at hr
        cases hr
        refine ⟨left, hself, ?_⟩
        rw [List.count_append, List.count_singleton_self, ← hcount]
        omega
      · refine ⟨r, by rw [hother v hvs]; exact hr, ?_⟩
        rw [List.count_append, List.count_singleton, if_neg (by simpa using Ne.symm hvs)]
        exact hcount
    · dsimp only
      split
      · rw [← List.append_assoc]
        exact List.concat_eq_append ▸ List.Nodup.concat hnot h.nodup
      · exact h.nodup
    · dsimp only
      by_cases hvs : v = source
      · subst hvs
        rw [hself]
        split
        · rename_i hzero
          exact ⟨fun _ => ⟨hzero.1, hsource, by rw [hzero.2]⟩, fun _ => by simp⟩
        · rename_i hzero
          refine ⟨fun hmem => absurd hmem hnot, ?_⟩
          rintro ⟨hne, _, h0⟩
          exact absurd ⟨hne, Option.some.inj h0⟩ hzero
      · rw [hother v hvs, ← h.ready v]
        split
        · rw [← List.append_assoc, List.mem_append, List.mem_singleton, or_iff_left hvs]
        · exact Iff.rfl
  · cases hs

theorem Peeling.dropEdges :
    ∀ {sources dropped : List Nat} {s : Strip}, Peeling targets n gone dropped s → s.remaining.length = n →
    sources.foldlM MaskForge.dropEdge s = .ok s' →
      Peeling targets n gone (dropped ++ sources) s' ∧ s'.remaining.length = n ∧ s'.order = s.order
  | [], dropped, s, h, hlen, hs => by
    cases hs
    rw [List.append_nil]
    exact ⟨h, hlen, rfl⟩
  | source :: sources, dropped, s, h, hlen, hs => by
    rw [List.foldlM_cons] at hs
    obtain ⟨s₁, hs₁, hs⟩ := bind_ok hs
    obtain ⟨h₁, hlen₁, horder₁⟩ := h.dropEdge hlen hs₁
    obtain ⟨h₂, hlen₂, horder₂⟩ := h₁.dropEdges hlen₁ hs
    rw [List.append_assoc] at h₂
    exact ⟨h₂, hlen₂, horder₂.trans horder₁⟩

/-- The states peeled and those waiting are few. -/
theorem Peeling.few (h : Peeling targets n gone dropped s) : (s.order ++ s.queue).length ≤ n - 1 := by
  have hsub : s.order ++ s.queue ⊆ List.range' 1 (n - 1) := by
    intro v hv
    obtain ⟨hne, hlt, _⟩ := (h.ready v).1 hv
    rw [List.mem_range'_1]
    unfold dead at hne
    omega
  have hlen := (h.nodup.subperm hsub).length_le
  rwa [List.length_range'] at hlen

variable {predecessors : Nat → List Nat}

/-- **A round of the peeling.** -/
theorem Peeling.round (hpreds : ∀ t, t < n → ∀ v, v < n → (predecessors t).count v = (targets v).count t)
    (h : Peeling targets n s.order [] s) (hlen : s.remaining.length = n) {target : Nat} {rest : List Nat}
    (hq : s.queue = target :: rest)
    (hs : (predecessors target).foldlM MaskForge.dropEdge
      { s with queue := rest, order := s.order ++ [target] } = .ok s') :
    Peeling targets n s'.order [] s' ∧ s'.remaining.length = n ∧ s'.order = s.order ++ [target] := by
  have hall : (s.order ++ [target]) ++ rest = s.order ++ s.queue := by rw [hq, List.append_assoc]; rfl
  obtain ⟨hne, hlt, hzero⟩ := (h.ready target).1 (by rw [hq]; simp)
  obtain ⟨left, hleft, hcount⟩ := h.remaining target hlt
  have hpopped : Peeling targets n s.order [] { s with queue := rest, order := s.order ++ [target] } := by
    refine ⟨h.remaining, by
      dsimp only; rw [hall]; exact h.nodup, fun v => by dsimp only; rw [hall]; exact h.ready v, ?_⟩
    intro l v r heq t ht
    dsimp only at heq
    rcases List.eq_nil_or_concat r with rfl | ⟨r', x, rfl⟩
    · -- the state just taken: none of its edges is left
      obtain ⟨rfl, hv⟩ := List.append_inj' heq rfl
      cases hv
      rw [hzero] at hleft
      cases hleft
      rw [List.count_nil, Nat.add_zero] at hcount
      by_contra hnot
      have hmem : t ∈ (targets target).filter fun t => decide (t ∉ s.order) :=
        List.mem_filter.2 ⟨ht, decide_eq_true hnot⟩
      rw [List.length_eq_zero_iff.1 hcount.symm] at hmem
      cases hmem
    · rw [List.concat_eq_append, ← List.cons_append, ← List.append_assoc] at heq
      obtain ⟨heq', _⟩ := List.append_inj' heq rfl
      exact h.before l v r' heq' t ht
  obtain ⟨hdropped, hlen', horder⟩ := hpopped.dropEdges hlen hs
  dsimp only at horder
  refine ⟨⟨fun v hv => ?_, hdropped.nodup, hdropped.ready, hdropped.before⟩, hlen', horder⟩
  obtain ⟨left, hleft, hcount⟩ := hdropped.remaining v hv
  refine ⟨left, hleft, ?_⟩
  rw [List.nil_append, hpreds target hlt v hv] at hcount
  have hnew : target ∉ s.order := by
    intro hmem
    have hnodup := h.nodup
    rw [hq] at hnodup
    exact (List.nodup_append.1 hnodup).2.2 target hmem target List.mem_cons_self rfl
  have hsplit : ∀ l : List Nat, (l.filter fun t => decide (t ∉ s.order)).length =
      (l.filter fun t => decide (t ∉ s.order ++ [target])).length + l.count target := by
    intro l
    induction l with
    | nil => rfl
    | cons x l ih =>
      simp only [List.mem_append, List.mem_singleton, not_or, decide_not, Bool.decide_and] at ih ⊢
      by_cases hx : x = target
      · simp [hx, hnew, ih]
        omega
      · by_cases hmem : x ∈ s.order
        · simp [hx, hmem, ih]
        · simp [hx, hmem, ih]
          omega
  rw [List.count_nil, horder]
  have := hsplit (targets v)
  omega

/-- **The peeling ends with an empty queue.** -/
theorem stripAll_ok (hpreds : ∀ t, t < n → ∀ v, v < n → (predecessors t).count v = (targets v).count t) :
    ∀ {f : Nat} {s : Strip},
    Peeling targets n s.order [] s → s.remaining.length = n → n ≤ f + s.order.length →
    stripAll predecessors f s = .ok s' →
      Peeling targets n s'.order [] s' ∧ s'.queue = []
  | 0, s, h, hlen, hf, hs => by
    cases hs
    have hfew := h.few
    rw [List.length_append] at hfew
    refine ⟨h, List.length_eq_zero_iff.1 ?_⟩
    omega
  | f + 1, s, h, hlen, hf, hs => by
    rw [stripAll] at hs
    split at hs
    · rename_i hq
      cases hs
      exact ⟨h, hq⟩
    · rename_i target rest hq
      obtain ⟨s₁, hs₁, hs⟩ := bind_ok hs
      obtain ⟨h₁, hlen₁, horder⟩ := h.round hpreds hlen hq hs₁
      refine stripAll_ok hpreds h₁ hlen₁ ?_ hs
      rw [horder, List.length_append, List.length_singleton]
      omega

/-! ### Words by their first byte -/

namespace RefEngine

/-- The texts accepted from a state. -/
def words (e : RefEngine) (s : Nat) : Set (List Byte) := {w | e.acceptsFrom s w = true}

/-- How many bytes a class has. -/
def classSize (e : RefEngine) (c : Nat) : Nat := (e.classTable.members[c]?.map List.length).getD 0

/-- **An engine whose residual cardinalities were computed**, with what its builder knows: no state is a dead end, and
the classes of the edges list some bytes, each once. -/
structure Counted (e : RefEngine) : Prop where
  residual : residualCardinalities e.rowOffsets e.edges e.accepting e.classTable.members = .ok e.residualCardinality
  live : ∀ s, e.isDead s = false → ∃ w, e.acceptsFrom s w = true
  inhabited : ∀ c, c < e.classCount → ∃ b, e.classOfByte b = c
  distinct : ∀ bytes ∈ e.classTable.members, bytes.Nodup

variable {e : RefEngine}

theorem words_out_of_range {s : Nat} (h : s = dead ∨ e.stateCount ≤ s) : e.words s = ∅ := by
  rw [Set.eq_empty_iff_forall_notMem]
  intro w hw
  have hw : e.acceptsFrom s w = true := hw
  rcases h with rfl | h
  · rw [e.acceptsFrom_dead] at hw
    cases hw
  · cases w with
    | nil =>
      rw [e.acceptsFrom_nil, isAccepting, List.getElem?_eq_none (by rw [e.wf.acceptingLen]; exact h)] at hw
      cases hw
    | cons b w =>
      rw [e.acceptsFrom_cons, e.step_out_of_range _ h, e.acceptsFrom_dead] at hw
      cases hw

/-- The texts that begin with an edge of a row. -/
def through (e : RefEngine) (row : List (Nat × Nat)) : Set (List Byte) :=
  {w | ∃ a ∈ row, ∃ b u, e.classOfByte b = a.1 ∧ w = b :: u ∧ u ∈ e.words a.2}

theorem encard_class (h : e.Counted) {c : Nat} (hc : c < e.classCount) :
    {b | e.classOfByte b = c}.encard = (e.classSize c : ℕ∞) := by
  have hlt : c < e.classTable.members.length := by rw [e.wf.classes]; exact hc
  have hget := List.getElem?_eq_getElem hlt
  have hset : {b | e.classOfByte b = c} = (e.classTable.members[c].toFinset : Set Byte) := by
    ext b
    rw [Finset.mem_coe, List.mem_toFinset]
    exact (e.wf.members c _ hget b).symm
  rw [hset, Set.encard_coe_eq_coe_finsetCard, List.toFinset_card_of_nodup (h.distinct _ (List.getElem_mem hlt)),
    classSize, hget]
  rfl

theorem encard_edge (h : e.Counted) {a : Nat × Nat} (ha : a.1 < e.classCount) :
    (e.through [a]).encard = (e.classSize a.1 : ℕ∞) * (e.words a.2).encard := by
  have himage : e.through [a] = (fun p : Byte × List Byte => p.1 :: p.2) ''
    ({b | e.classOfByte b = a.1} ×ˢ e.words a.2) := by
    ext w
    constructor
    · rintro ⟨a', ha', b, u, hb, rfl, hu⟩
      rw [List.mem_singleton.1 ha'] at hb hu
      exact ⟨(b, u), ⟨hb, hu⟩, rfl⟩
    · rintro ⟨⟨b, u⟩, ⟨hb, hu⟩, rfl⟩
      exact ⟨a, List.mem_cons_self, b, u, hb, rfl, hu⟩
  have hinj : Function.Injective fun p : Byte × List Byte => p.1 :: p.2 := by
    rintro ⟨b, u⟩ ⟨b', u'⟩ heq
    obtain ⟨rfl, rfl⟩ := List.cons.inj heq
    rfl
  rw [himage, hinj.encard_image, Set.encard_prod, encard_class h ha]

/-- **The texts through a row are counted edge by edge.** -/
theorem encard_through (h : e.Counted) :
    ∀ {row : List (Nat × Nat)}, row.Pairwise (fun a b => a.1 < b.1) → (∀ a ∈ row, a.1 < e.classCount) →
    (e.through row).encard = (row.map fun a => (e.classSize a.1 : ℕ∞) * (e.words a.2).encard).sum
  | [], _, _ => by
    rw [List.map_nil, List.sum_nil, Set.encard_eq_zero, Set.eq_empty_iff_forall_notMem]
    rintro w ⟨a, ha, _⟩
    cases ha
  | a :: row, hsorted, hrange => by
    obtain ⟨hfirst, hrest⟩ := List.pairwise_cons.1 hsorted
    have hsplit : e.through (a :: row) = e.through [a] ∪ e.through row := by
      ext w
      constructor
      · rintro ⟨a', ha', hw⟩
        rcases List.mem_cons.1 ha' with rfl | ha'
        · exact .inl ⟨a', List.mem_cons_self, hw⟩
        · exact .inr ⟨a', ha', hw⟩
      · rintro (⟨a', ha', hw⟩ | ⟨a', ha', hw⟩)
        · rw [List.mem_singleton.1 ha'] at hw
          exact ⟨a, List.mem_cons_self, hw⟩
        · exact ⟨a', List.mem_cons_of_mem _ ha', hw⟩
    have hdisjoint : Disjoint (e.through [a]) (e.through row) := by
      rw [Set.disjoint_left]
      rintro w ⟨a₁, ha₁, b, u, hb, rfl, _⟩ ⟨a₂, ha₂, b', u', hb', heq, _⟩
      obtain ⟨rfl, rfl⟩ := List.cons.inj heq
      have hlt := hfirst a₂ ha₂
      rw [← hb', hb, List.mem_singleton.1 ha₁] at hlt
      exact Nat.lt_irrefl _ hlt
    rw [hsplit, Set.encard_union_eq hdisjoint, encard_edge h (hrange a List.mem_cons_self), List.map_cons,
      List.sum_cons, encard_through h hrest fun x hx => hrange x (List.mem_cons_of_mem _ hx)]

/-- **How many texts a state accepts**, from what its targets do. -/
theorem encard_words (h : e.Counted) {s : Nat} (hs : s < e.stateCount) : (e.words s).encard =
    (if e.isAccepting s = true then 1 else 0) + ((e.row s).map fun a => (e.classSize a.1 : ℕ∞) *
      (e.words a.2).encard).sum := by
  have hsplit : e.words s = {w | w = [] ∧ e.isAccepting s = true} ∪ e.through (e.row s) := by
    ext w
    constructor
    · intro hw
      have hw : e.acceptsFrom s w = true := hw
      cases w with
      | nil => exact .inl ⟨rfl, hw⟩
      | cons b u =>
        rw [e.acceptsFrom_cons] at hw
        have hne : e.step s (e.classOfByte b) ≠ dead := by
          intro hdead
          rw [hdead, e.acceptsFrom_dead] at hw
          cases hw
        exact .inr ⟨_, ((e.step_eq_iff hne).1 rfl).2, b, u, rfl, rfl, hw⟩
    · rintro (⟨rfl, hacc⟩ | ⟨a, ha, b, u, hb, rfl, hu⟩)
      · exact hacc
      · show e.acceptsFrom s (b :: u) = true
        have hne := (e.wf.targets s hs a ha).2.1
        rw [e.acceptsFrom_cons, (e.step_eq_iff hne).2 ⟨hs, by rw [hb]; exact ha⟩]
        exact hu
  have hdisjoint : Disjoint {w : List Byte | w = [] ∧ e.isAccepting s = true} (e.through (e.row s)) := by
    rw [Set.disjoint_left]
    rintro w ⟨rfl, _⟩ ⟨_, _, _, _, _, heq, _⟩
    cases heq
  have hempty : {w : List Byte | w = [] ∧ e.isAccepting s = true}.encard = if e.isAccepting s = true then 1 else 0 := by
    by_cases hacc : e.isAccepting s = true
    · simp [hacc]
    · simp [hacc]
  rw [hsplit, Set.encard_union_eq hdisjoint, hempty,
    encard_through h (e.wf.sorted s hs) fun a ha => (e.wf.targets s hs a ha).1]

/-! ### Counts along the peeling -/

theorem cardinalityOf_ok {cards : List Nat} (accepting : Bool) {row : List (Nat × Nat)}
    (hcards : ∀ a ∈ row, ((cards[a.2]?.getD 0 : Nat) : ℕ∞) = min (e.words a.2).encard u64Max) :
    (cardinalityOf e.classTable.members cards accepting row : ℕ∞) =
      min ((if accepting = true then 1 else 0) + (row.map fun a => (e.classSize a.1 : ℕ∞) * (e.words a.2).encard).sum)
      u64Max := by
  have hgen : ∀ (row : List (Nat × Nat)) (count : Nat) (x : ℕ∞), (count : ℕ∞) = min x u64Max →
      (∀ a ∈ row, ((cards[a.2]?.getD 0 : Nat) : ℕ∞) = min (e.words a.2).encard u64Max) →
      ((row.foldl (fun count edge => satAdd64 count (satMul64 (cards[edge.2]?.getD 0) (e.classSize edge.1))) count :
        Nat) : ℕ∞) =
        min (x + (row.map fun a => (e.classSize a.1 : ℕ∞) * (e.words a.2).encard).sum) u64Max := by
    intro row
    induction row with
    | nil =>
      intro count x hcount _
      rw [List.foldl_nil, List.map_nil, List.sum_nil, add_zero]
      exact hcount
    | cons a row ih =>
      intro count x hcount hrow
      have hstep := satAdd64_satMul64 (k := e.classSize a.1) hcount (hrow a List.mem_cons_self)
      rw [List.foldl_cons, ih _ _ hstep fun b hb => hrow b (List.mem_cons_of_mem _ hb), List.map_cons,
        List.sum_cons, add_assoc]
  refine hgen row _ _ ?_ hcards
  cases accepting with
  | false => exact (min_eq_left bot_le).symm
  | true => exact (min_eq_left (by exact_mod_cast (show 1 ≤ u64Max by decide))).symm

/-- **The counts written along a peeling order are exact.** -/
theorem counts_ok (h : e.Counted) {order : List Nat} (hnodup : order.Nodup) (hlt : ∀ v ∈ order, v < e.stateCount)
    (hbefore : ∀ l v r, order = l ++ v :: r → ∀ t ∈ (e.row v).map Prod.snd, t ∈ l) {init : List Nat}
    (hinit : init.length = e.stateCount) :
    ∀ (r l cards : List Nat), order = l ++ r → cards.length = e.stateCount →
      (∀ v ∈ l, ((cards[v]?.getD 0 : Nat) : ℕ∞) = min (e.words v).encard u64Max) →
      (∀ v : Nat, v ∉ l → cards[v]? = init[v]?) →
      (∀ v ∈ order, (((r.foldl (fun cards s => cards.set s
          (cardinalityOf e.classTable.members cards (e.accepting[s]?.getD false) (e.row s))) cards)[v]?.getD 0 : Nat) :
          ℕ∞) =
        min (e.words v).encard u64Max) ∧
      ∀ v : Nat, v ∉ order → (r.foldl (fun cards s => cards.set s
        (cardinalityOf e.classTable.members cards (e.accepting[s]?.getD false) (e.row s))) cards)[v]? = init[v]?
  | [], l, cards, horder, _, hdone, hother => by
    rw [List.append_nil] at horder
    rw [horder]
    exact ⟨hdone, hother⟩
  | s :: r, l, cards, horder, hlen, hdone, hother => by
    have hs := hlt s (by rw [horder]; simp)
    have htargets := hbefore l s r horder
    have hvalue : (cardinalityOf e.classTable.members cards (e.accepting[s]?.getD false) (e.row s) : ℕ∞) =
      min (e.words s).encard u64Max := by
      rw [encard_words h hs, cardinalityOf_ok (e.accepting[s]?.getD false) fun a ha =>
        hdone a.2 (htargets a.2 (List.mem_map_of_mem ha))]
      rfl
    have hself : (cards.set s (cardinalityOf e.classTable.members cards (e.accepting[s]?.getD false) (e.row s)))[s]? =
        some (cardinalityOf e.classTable.members cards (e.accepting[s]?.getD false) (e.row s)) := by
      rw [List.getElem?_set_self (hlen ▸ hs)]
    have hassoc : order = (l ++ [s]) ++ r := by rw [horder, List.append_assoc]; rfl
    refine counts_ok h hnodup hlt hbefore hinit r (l ++ [s]) _ hassoc (by rw [List.length_set]; exact hlen)
      (fun v hv => ?_) fun v hv => ?_
    · by_cases hvs : v = s
      · rw [hvs, hself]
        exact hvalue
      · rw [List.getElem?_set_ne (Ne.symm hvs)]
        exact hdone v ((List.mem_append.1 hv).resolve_right fun h => hvs (List.mem_singleton.1 h))
    · rw [List.mem_append, not_or, List.mem_singleton] at hv
      rw [List.getElem?_set_ne (Ne.symm hv.2)]
      exact hother v hv.1

/-- A state that is never peeled accepts texts of any length. -/
theorem words_infinite (h : e.Counted) {s' : Strip}
    (hpeeled : Peeling (fun v => (e.row v).map Prod.snd) e.stateCount s'.order [] s')
    (hq : s'.queue = []) {v : Nat} (hv : v ≠ dead) (hlt : v < e.stateCount) (hnot : v ∉ s'.order) :
    (e.words v).encard = ⊤ := by
  have hlong : ∀ (k v : Nat), v ≠ dead → v < e.stateCount → v ∉ s'.order → ∃ w ∈ e.words v, k ≤ w.length := by
    intro k
    induction k with
    | zero =>
      intro v hv hlt _
      have halive : e.isDead v = false := by
        rw [isDead, Bool.or_eq_false_iff, beq_eq_false_iff_ne, decide_eq_false_iff_not, Nat.not_le]
        exact ⟨hv, hlt⟩
      obtain ⟨w, hw⟩ := h.live v halive
      exact ⟨w, hw, Nat.zero_le _⟩
    | succ k ih =>
      intro v hv hlt hnot
      obtain ⟨left, hleft, hcount⟩ := hpeeled.remaining v hlt
      have hpos : left ≠ 0 := by
        rintro rfl
        have hmem := (hpeeled.ready v).2 ⟨hv, hlt, hleft⟩
        rw [hq, List.append_nil] at hmem
        exact hnot hmem
      rw [List.count_nil, Nat.add_zero] at hcount
      obtain ⟨t, ht⟩ := List.exists_mem_of_length_pos (by rw [← hcount]; exact Nat.pos_of_ne_zero hpos)
      obtain ⟨hmem, hgone⟩ := List.mem_filter.1 ht
      obtain ⟨a, ha, rfl⟩ := List.mem_map.1 hmem
      obtain ⟨hclass, hne, hta⟩ := e.wf.targets v hlt a ha
      obtain ⟨w, hw, hk⟩ := ih a.2 hne hta (of_decide_eq_true hgone)
      obtain ⟨b, hb⟩ := h.inhabited a.1 hclass
      refine ⟨b :: w, ?_, Nat.succ_le_succ hk⟩
      show e.acceptsFrom v (b :: w) = true
      rw [e.acceptsFrom_cons, (e.step_eq_iff hne).2 ⟨hlt, by rw [hb]; exact ha⟩]
      exact hw
  have hinf : (e.words v).Infinite := by
    refine Set.Infinite.of_image List.length (Set.infinite_of_forall_exists_gt fun k => ?_)
    obtain ⟨w, hw, hk⟩ := hlong (k + 1) v hv hlt hnot
    exact ⟨w.length, ⟨w, hw, rfl⟩, hk⟩
  exact hinf.encard_eq

/-! ### The table of predecessors -/

theorem row_slice {s : Nat} (hs : s < e.stateCount) :
    slice e.edges (e.rowOffsets[s]?.getD 0) (e.rowOffsets[s + 1]?.getD 0) = e.row s := by
  have hlen := e.wf.rows
  rw [EngineData.row, List.getElem?_eq_getElem (show s < e.rowOffsets.length by omega),
    List.getElem?_eq_getElem (show s + 1 < e.rowOffsets.length by omega)]
  rfl

theorem count_bucket (f : Nat → List (Nat × Nat)) (t v : Nat) : ∀ {l : List Nat}, l.Nodup →
    (bucket (l.flatMap fun s => (f s).map fun edge => (edge.2, s)) t).count v = if v ∈ l
    then ((f v).map Prod.snd).count t else 0
  | [], _ => rfl
  | s :: l, hl => by
    obtain ⟨hs, hl⟩ := List.nodup_cons.1 hl
    have hone : ∀ row : List (Nat × Nat), (bucket (row.map fun edge => (edge.2, s)) t).count v =
        if v = s then (row.map Prod.snd).count t else 0 := by
      intro row
      induction row with
      | nil => simp [bucket]
      | cons a row ih =>
        rw [List.map_cons, CountingSort.bucket_cons, List.map_cons, List.count_cons]
        by_cases ha : a.2 = t
        · rw [if_pos ha, List.count_cons, ih]
          by_cases hv : v = s
          · simp [ha, hv]
          · simp [hv, Ne.symm hv]
        · rw [if_neg ha, ih]
          simp [ha]
    rw [List.flatMap_cons, CountingSort.bucket_append, List.count_append, hone, count_bucket f t v hl]
    by_cases hv : v = s
    · subst hv
      rw [if_pos rfl, if_neg hs, if_pos List.mem_cons_self, Nat.add_zero]
    · rw [if_neg hv, Nat.zero_add]
      simp [hv]

/-- **The residual cardinality is the number of texts**, up to saturation. -/
theorem residual_min (h : e.Counted) (s : Nat) : (e.residualCardinalityAt s : ℕ∞) = min (e.words s).encard u64Max := by
  have hres := h.residual
  unfold residualCardinalities at hres
  dsimp only at hres
  obtain ⟨strip, hstrip, hres⟩ := bind_ok hres
  have hacc : e.accepting.length = e.stateCount := e.wf.acceptingLen
  have hpos : 0 < e.stateCount := Nat.lt_of_le_of_lt (Nat.zero_le _) e.wf.startLt
  rw [hacc] at hstrip hres
  have hpairs : ((List.range e.stateCount).flatMap fun s =>
    (slice e.edges (e.rowOffsets[s]?.getD 0) (e.rowOffsets[s + 1]?.getD 0)).map
      fun edge => (edge.2, s)) = (List.range e.stateCount).flatMap fun s => (e.row s).map fun edge => (edge.2, s) :=
    List.flatMap_congr fun s hs => by rw [row_slice (List.mem_range.1 hs)]
  have hremaining : ((List.range e.stateCount).map fun s =>
    (slice e.edges (e.rowOffsets[s]?.getD 0) (e.rowOffsets[s + 1]?.getD 0)).length) =
      (List.range e.stateCount).map fun s => (e.row s).length :=
    List.map_congr_left fun s hs => by rw [row_slice (List.mem_range.1 hs)]
  have hqueue : (((List.range e.stateCount).drop 1).filter fun s =>
      (slice e.edges (e.rowOffsets[s]?.getD 0) (e.rowOffsets[s + 1]?.getD 0)).isEmpty) =
      ((List.range e.stateCount).drop 1).filter fun s => (e.row s).isEmpty :=
    List.filter_congr fun s hs => by rw [row_slice (List.mem_range.1 (List.mem_of_mem_drop hs))]
  rw [hpairs, hremaining, hqueue] at hstrip
  generalize hps : ((List.range e.stateCount).flatMap fun s => (e.row s).map fun edge => (edge.2, s)) = pairs at hstrip
  have hall : ∀ x ∈ pairs, x.1 < e.stateCount := by
    rw [← hps]
    intro x hx
    obtain ⟨s, hs, hx⟩ := List.mem_flatMap.1 hx
    obtain ⟨a, ha, rfl⟩ := List.mem_map.1 hx
    exact (e.wf.targets s (List.mem_range.1 hs) a ha).2.2
  have hpreds : ∀ t, t < e.stateCount → ∀ v, v < e.stateCount →
      (slice (CountingSort.scatter 0 e.stateCount pairs).out (CountingSort.offset pairs t)
        (CountingSort.offset pairs (t + 1))).count v =
        ((e.row v).map Prod.snd).count t := by
    intro t ht v hv
    rw [CountingSort.scatter_row 0 _ _ hall t ht, ← hps, count_bucket e.row t v List.nodup_range,
      if_pos (List.mem_range.2 hv)]
  have hdrop : ∀ v, v ∈ ((List.range e.stateCount).drop 1).filter (fun s => (e.row s).isEmpty) ↔
      v ≠ dead ∧ v < e.stateCount ∧ e.row v = [] := by
    intro v
    rw [List.mem_filter, List.isEmpty_iff, List.range_eq_range', List.drop_range', List.mem_range'_1]
    unfold dead
    constructor
    · rintro ⟨⟨h1, h2⟩, h3⟩
      exact ⟨by omega, by omega, h3⟩
    · rintro ⟨h1, h2, h3⟩
      exact ⟨⟨by omega, by omega⟩, h3⟩
  have hinit : Peeling (fun v => (e.row v).map Prod.snd) e.stateCount [] []
      ⟨((List.range e.stateCount).drop 1).filter fun s => (e.row s).isEmpty, (List.range e.stateCount).map fun s =>
        (e.row s).length, []⟩ := by
    have hget : ∀ v, v < e.stateCount → ((List.range e.stateCount).map fun s => (e.row s).length)[v]? =
      some (e.row v).length := by
      intro v hv
      rw [List.getElem?_map, List.getElem?_range hv, Option.map_some]
    refine ⟨fun v hv => ⟨_, hget v hv, by simp⟩, ?_, fun v => ?_, fun l v r heq => by simp at heq⟩
    · rw [List.nil_append]
      exact (List.nodup_range.sublist (List.drop_sublist _ _)).filter _
    · rw [List.nil_append, hdrop]
      refine and_congr_right fun _ => and_congr_right fun hv => ?_
      dsimp only
      rw [hget v hv, Option.some.injEq, List.length_eq_zero_iff]
  obtain ⟨hpeeled, hq⟩ := stripAll_ok hpreds hinit (by rw [List.length_map, List.length_range])
    (Nat.le_add_right _ _) hstrip
  have horder : ∀ v, v ∈ strip.order → v ≠ dead ∧ v < e.stateCount := by
    intro v hv
    obtain ⟨hne, hlt, _⟩ := (hpeeled.ready v).1 (List.mem_append_left _ hv)
    exact ⟨hne, hlt⟩
  have hnodup : strip.order.Nodup := (List.nodup_append.1 hpeeled.nodup).1
  have hresult : e.residualCardinality = strip.order.foldl (fun cards s => cards.set s
      (cardinalityOf e.classTable.members cards (e.accepting[s]?.getD false) (e.row s)))
        ((List.replicate e.stateCount u64Max).set dead 0) := by
    rw [← Except.ok.inj hres]
    refine List.foldl_ext _ _ _ fun cards s hs => ?_
    rw [row_slice (horder s hs).2]
  have hinitLen : ((List.replicate e.stateCount u64Max).set dead 0).length = e.stateCount := by
    rw [List.length_set, List.length_replicate]
  obtain ⟨hin, hout⟩ := counts_ok h hnodup (fun v hv => (horder v hv).2) hpeeled.before hinitLen strip.order
    [] _ rfl hinitLen
    (fun v hv => absurd hv List.not_mem_nil) fun _ _ => rfl
  rw [← hresult] at hin hout
  by_cases hpeel : s ∈ strip.order
  · exact hin s hpeel
  · rw [residualCardinalityAt, hout s hpeel]
    by_cases hdead : s = dead
    · subst hdead
      rw [words_out_of_range (.inl rfl), List.getElem?_set_self (by rw [List.length_replicate]; exact hpos)]
      simp
    · rw [List.getElem?_set_ne (Ne.symm hdead), List.getElem?_replicate]
      by_cases hlt : s < e.stateCount
      · rw [if_pos hlt, words_infinite h hpeeled hq hdead hlt hpeel, min_eq_right le_top]
        rfl
      · rw [if_neg hlt, words_out_of_range (.inr (Nat.le_of_not_lt hlt))]
        simp

/-! ### The two builders -/

/-- An engine as one of the builders returned it. -/
inductive Built : RefEngine → Prop
  | graph {states : List ByteState} {start : Nat} {g : AutomatonGraph} {e : RefEngine} :
      AutomatonGraph.fromByteStates states start = .ok g → fromGraph g = .ok e → Built e
  | dense {σ : Type} [DecidableEq σ] {d : DenseDfa σ} {e : RefEngine} : d.bfsMaterialize = .ok e → Built e

theorem fromGraph_counted {states : List ByteState} {start : Nat} {g : AutomatonGraph}
    (hg : AutomatonGraph.fromByteStates states start = .ok g) (he : fromGraph g = .ok e) : e.Counted := by
  obtain ⟨_, hlays⟩ := AutomatonGraph.fromByteStates_ok hg
  obtain ⟨live, residual, _, hresidual, heq⟩ := graphToEngine_ok (fromGraph_data he)
  have hclasses : e.classTable = (graphClassTable (liveMatrix g live)).1 := by rw [heq]
  have hcount : e.classCount = (graphClassTable (liveMatrix g live)).2.length := by
    rw [heq]
    exact classCount_engineRows
  refine ⟨?_, (fromGraph_language hlays he).2, fun c hc => ?_, ?_⟩
  · rw [show e.residualCardinality = residual by rw [heq]]
    exact hresidual
  · rw [hcount] at hc
    obtain ⟨b, hb⟩ := graphClassTable_inhabited _ hc
    exact ⟨b, by rw [classOfByte, hclasses, hb]⟩
  · rw [hclasses]
    exact graphClassTable_nodup _

theorem bfsMaterialize_counted {σ : Type} [DecidableEq σ] {d : DenseDfa σ} (h : d.bfsMaterialize = .ok e) :
    e.Counted := by
  obtain ⟨_, _, _, _, _, _, _, _, _, hclass, hresidual, _⟩ := DenseDfa.bfsMaterialize_ok h
  refine ⟨hresidual, fun s hs => ?_, fun c hc => ?_, ?_⟩
  · rw [isDead, Bool.or_eq_false_iff, beq_eq_false_iff_ne, decide_eq_false_iff_not, Nat.not_le] at hs
    exact DenseDfa.bfsMaterialize_live h hs.1 hs.2
  · rw [← e.wf.classes, hclass] at hc
    obtain ⟨b, _, hb, _⟩ := DenseDfa.head_member hc
    exact ⟨b, by rw [classOfByte, hclass, hb]⟩
  · rw [hclass]
    intro bytes hbytes
    obtain ⟨c, hc⟩ := List.mem_iff_getElem?.1 hbytes
    rw [DenseDfa.getElem?_members, Option.map_eq_some_iff] at hc
    obtain ⟨r, _, rfl⟩ := hc
    exact nodup_allBytes.filter _

theorem Built.counted (h : e.Built) : e.Counted := by
  cases h with
  | graph hg he => exact fromGraph_counted hg he
  | dense h => exact bfsMaterialize_counted h

/-- A state accepts nothing exactly if it is DEAD or there is no such state. -/
theorem words_eq_empty (h : e.Counted) {s : Nat} : e.words s = ∅ ↔ e.isDead s = true := by
  constructor
  · intro hempty
    by_contra hnot
    obtain ⟨w, hw⟩ := h.live s (Bool.not_eq_true _ ▸ hnot)
    have hmem : w ∈ e.words s := hw
    rw [hempty] at hmem
    exact hmem
  · intro hdead
    rw [isDead, Bool.or_eq_true, beq_iff_eq, decide_eq_true_eq] at hdead
    exact words_out_of_range hdead

/-- **The residual cardinality is exact.**  It is 0 at DEAD and out of range only, the number of the texts accepted
from the state where they are fewer than 2^64 - 1, and 2^64 - 1 otherwise. -/
theorem residual_exact (h : e.Built) (s : Nat) : (e.residualCardinalityAt s = 0 ↔ e.isDead s = true) ∧
    ((e.words s).Finite → (e.words s).ncard < u64Max → e.residualCardinalityAt s = (e.words s).ncard) ∧
    (¬ ((e.words s).Finite ∧ (e.words s).ncard < u64Max) → e.residualCardinalityAt s = u64Max) := by
  have hcounted := h.counted
  have hmin := residual_min hcounted s
  have hfinite : (e.words s).Finite → (e.words s).encard = ((e.words s).ncard : ℕ∞) :=
    fun hfin => hfin.cast_ncard_eq.symm
  refine ⟨?_, fun hfin hlt => ?_, fun hnot => ?_⟩
  · rw [← words_eq_empty hcounted, ← Set.encard_eq_zero]
    constructor
    · intro hzero
      rw [hzero] at hmin
      rcases min_eq_coe hmin with ⟨hcard, _⟩ | ⟨hmax, _⟩
      · exact hcard
      · exact absurd hmax (by decide)
    · intro hzero
      rw [hzero, show min (0 : ℕ∞) (u64Max : ℕ∞) = 0 from min_eq_left bot_le] at hmin
      exact_mod_cast hmin
  · rw [hfinite hfin, ← coe_min_u64, Nat.min_eq_left (Nat.le_of_lt hlt)] at hmin
    exact Nat.cast_inj.1 hmin
  · have hbig : (u64Max : ℕ∞) ≤ (e.words s).encard := by
      by_cases hfin : (e.words s).Finite
      · rw [hfinite hfin, Nat.cast_le]
        exact Nat.le_of_not_lt fun hlt => hnot ⟨hfin, hlt⟩
      · rw [Set.Infinite.encard_eq hfin]
        exact le_top
    rw [min_eq_right hbig] at hmin
    exact Nat.cast_inj.1 hmin

/-- The graph of the word of one byte counts one word. -/
theorem residual_exact_letter : ∃ e : RefEngine, e.Built ∧ e.residualCardinalityAt e.start = 1 := by
  obtain ⟨g, e, hg, he, _⟩ := fromGraph_exact_letter
  have hengine : (AutomatonGraph.fromByteStates [(false, [(0x61, 1)]), (true, [])] 0 >>= fromGraph) = .ok e := by
    rw [hg]
    exact he
  have hwords : e.words e.start = {[0x61]} := by
    ext w
    show e.acceptsFrom e.start w = true ↔ w = [0x61]
    rw [← e.accepts_eq, byteStates_engine hengine]
    rcases w with _ | ⟨b, _ | ⟨b', w⟩⟩
    · simp [Explore.accepts]
    · by_cases hb : b = 0x61
      · simp [Explore.accepts, hb]
      · simp [Explore.accepts, List.lookup, beq_false_of_ne hb, hb]
    · by_cases hb : b = 0x61
      · simp [Explore.accepts, hb]
      · simp [Explore.accepts, List.lookup, beq_false_of_ne hb, hb]
  have hcard : (e.words e.start).ncard = 1 := by rw [hwords, Set.ncard_singleton]
  have hone := (residual_exact (.graph hg he) e.start).2.1 (by rw [hwords]; exact Set.finite_singleton _)
    (by rw [hcard]; decide)
  exact ⟨e, .graph hg he, hone.trans hcard⟩

end RefEngine

end MaskForge
