import MaskForge.Automaton.EngineLanguage
import MaskForge.Ir.LeafNotation
/-!
# PartExact — what is compiled from parts accepts what is put together from them

The library builds automata of what patterns stand for, and the compositions of engines are exact; so the engine of an
array, a tuple, an object or a combinator accepts the words that are put together from those of its children.
-/
namespace MaskForge
namespace Ir

open AnyJson (spaces numbers)
open Derivative (word)
open IntegerRegex (CanonicalInteger integerValue)
open Phrase (between series joined)
open Outcome (Gives)
open RegexNotation

/-- The library's automata accept what the patterns stand for. -/
def Determinizes {σ : Type} (P : Patterns) (builder : List Char → Except BuildError (DenseDfa σ)) : Prop :=
  ∀ s L d, Alternatives P s L → builder s = .ok d → d.Lawful ∧ ∀ u, d.accepts u = true ↔ u ∈ L

section
variable {w : SchemaIRWire} {env : Externals} {P : Patterns} {σ : Type} [DecidableEq σ]
  {builder : List Char → Except BuildError (DenseDfa σ)}

/-- A computation of an engine for a language, if of any. -/
abbrev Builds (L : Language Byte) (x : Compile RefEngine) : Prop := Gives (fun e => e.lang = L) x

theorem builds_need {α β : Type} {Q : β → Prop} {o : Option α} {a : α} {err : CompileError} {f : α → Compile β}
    (h : o = some a) (hf : Gives Q (f a)) :
    Gives Q (need o err >>= f) := by
  subst h
  exact hf

theorem map_of_forall₂ {α β γ : Type} {f : α → γ} {g : β → γ} {l : List α} {m : List β}
    (h : List.Forall₂ (fun a b => g b = f a) l m) :
    m.map g = l.map f := by
  induction h with
  | nil => rfl
  | cons hab _ ih => rw [List.map_cons, List.map_cons, hab, ih]

theorem map_intersperse {α β : Type} (f : α → β) (sep : α) :
    ∀ l : List α, (l.intersperse sep).map f = (l.map f).intersperse (f sep)
  | [] => rfl
  | [_] => rfl
  | _ :: b :: l => congrArg (_ :: _ :: ·) (map_intersperse f sep (b :: l))

/-! ### Parts -/

section
variable {s t : List Char} {L M : Language Byte} {e : RefEngine} {engines : List RefEngine}

theorem buildFromRegex_lang (hb : Determinizes P builder) (h : Alternatives P s L)
    (he : buildFromRegex (dense builder) s = .ok e) : e.lang = L := by
  obtain ⟨d, hd, he⟩ := bind_ok he
  unfold dense at hd
  cases hbuild : builder s with
  | error err =>
    rw [hbuild] at hd
    cases hd
  | ok d' =>
    rw [hbuild] at hd
    cases hd
    obtain ⟨hlawful, hL⟩ := hb s L d h hbuild
    exact lang_import hlawful hL he

theorem regexEngine_builds (hb : Determinizes P builder) (h : Alternatives P s L) : Builds L (regexEngine builder s) :=
  .ofExcept fun _ he => buildFromRegex_lang hb h he

theorem concatEngine_builds : Builds (engines.map RefEngine.lang).prod (concatEngine engines) :=
  .ofExcept fun _ he => lang_concat he

theorem unionEngine_builds : Builds (engines.map RefEngine.lang).sum (unionEngine engines) :=
  .ofExcept fun _ he => lang_union he

theorem repeated_builds {min : ℕ} {max : Option ℕ} (hmin : min < u32Size) :
    Builds (between e.lang min max) (repeated e min max) :=
  .ofExcept fun _ he => lang_repeat hmin he

theorem surroundEngine_builds (hb : Determinizes P builder) (hs : Alternatives P s L) (ht : Alternatives P t M) :
    Builds (L * (e.lang * M)) (surroundEngine builder e s t) := by
  refine (regexEngine_builds hb hs).bind fun before hbefore => (regexEngine_builds hb ht).bind fun after hafter =>
    concatEngine_builds.mono fun r hr => ?_
  rw [hr, List.map_cons, List.map_cons, List.map_singleton, List.prod_cons, List.prod_cons, List.prod_singleton,
    hbefore, hafter]

/-- **Between brackets.** -/
theorem surroundBy_builds (hb : Determinizes P builder) {opening closing : Byte} (hs : Sequence P s (word [opening]))
    (ht : Sequence P t (word [closing])) :
    Builds (enclosed opening closing e.lang) (surroundBy builder s t e) := by
  refine (surroundEngine_builds hb (hs.append jsonWsRe_stands).one (jsonWsRe_stands.append ht).one).mono fun r hr => ?_
  rw [hr, enclosed, mul_assoc]

theorem empty_builds (hb : Determinizes P builder) : Builds 1 (regexEngine builder []) :=
  regexEngine_builds hb Stands.nil.one

theorem bracket_stands {c : Char} {b : Byte} (h : c ∈ specials) (hb : String.utf8EncodeChar c = [b]) :
    Sequence P ['\\', c] (word [b]) := by
  have hatom := (Stands.escaped (P := P) h).single
  rw [hb] at hatom
  exact hatom

end

/-! ### Arrays -/

section
variable {item commaItem : RefEngine} {L : Language Byte}

theorem mem_series {sep : Language Byte} {position : ℕ → Language Byte} {lengths : Set ℕ} {u : List Byte} :
    u ∈ series sep position lengths ↔ ∃ n ∈ lengths, u ∈ joined sep ((List.range n).map position) := Iff.rfl

/-- One item and the others behind commas. -/
theorem mem_items {min : ℕ} {max : Option ℕ} {u : List Byte} :
    u ∈ L * between (comma * L) min max ↔ ∃ n, min ≤ n ∧ (∀ m, max = some m → n ≤ m) ∧
    u ∈ joined comma ((List.range (n + 1)).map fun _ => L) := by
  rw [Language.mem_mul]
  constructor
  · rintro ⟨a, ha, b, ⟨n, hmin, hmax, hb⟩, rfl⟩
    refine ⟨n, hmin, hmax, ?_⟩
    rw [Phrase.joined_const]
    exact Language.append_mem_mul ha hb
  · rintro ⟨n, hmin, hmax, hu⟩
    rw [Phrase.joined_const] at hu
    obtain ⟨a, ha, b, hb, rfl⟩ := Language.mem_mul.1 hu
    exact ⟨a, ha, b, ⟨n, hmin, hmax, hb⟩, rfl⟩

theorem arrayItemsEngine_builds (hb : Determinizes P builder) (hitem : item.lang = L)
    (hcomma : commaItem.lang = comma * L) {minItems : ℕ}
    {maxItems : Option ℕ} (hmin : minItems < u32Size) (hbounds : ∀ m, maxItems = some m → minItems ≤ m) :
    Builds (series comma (fun _ => L) {n | minItems ≤ n ∧ ∀ m, maxItems = some m → n ≤ m})
    (arrayItemsEngine builder item commaItem minItems maxItems) := by
  unfold arrayItemsEngine
  split
  · rename_i hzero
    refine (empty_builds hb).mono fun e he => ?_
    rw [he]
    ext u
    constructor
    · intro hu
      exact ⟨0, ⟨hbounds 0 hzero, fun m _ => Nat.zero_le m⟩, hu⟩
    · rintro ⟨n, ⟨_, hmax⟩, hu⟩
      rw [Nat.le_zero.1 (hmax 0 hzero)] at hu
      exact hu
  rename_i hsome
  -- with a comma less than items, in both bounds
  have hless : ∀ {n : ℕ}, (∀ m, maxItems.map (· - 1) = some m → n ≤ m) ↔ ∀ m, maxItems = some m → n + 1 ≤ m := by
    intro n
    cases maxItems with
    | none => simp
    | some m =>
      have hm : m ≠ 0 := fun h => hsome (congrArg some h)
      simp only [Option.map_some, Option.some.injEq, forall_eq']
      omega
  split
  · rename_i hzero
    refine (repeated_builds (by decide)).bind fun tail htail => concatEngine_builds.bind fun nonempty hnonempty =>
      (empty_builds hb).bind fun empty hempty =>
      unionEngine_builds.mono fun e he => ?_
    rw [he, List.map_cons, List.map_singleton, List.sum_cons, List.sum_singleton, hempty, hnonempty, List.map_cons,
      List.map_singleton, List.prod_cons, List.prod_singleton, hitem, htail, hcomma]
    ext u
    rw [Language.mem_add, mem_items, mem_series]
    constructor
    · rintro (hu | ⟨n, -, hmax, hu⟩)
      · exact ⟨0, ⟨Nat.le_of_eq hzero, fun m _ => Nat.zero_le m⟩, hu⟩
      · exact ⟨n + 1, ⟨hzero ▸ Nat.zero_le _, hless.1 hmax⟩, hu⟩
    · rintro ⟨n, ⟨-, hmax⟩, hu⟩
      cases n with
      | zero => exact .inl hu
      | succ n => exact .inr ⟨n, Nat.zero_le n, hless.2 hmax, hu⟩
  · rename_i hpos
    refine (repeated_builds (Nat.lt_of_le_of_lt (Nat.sub_le _ _) hmin)).bind fun tail htail =>
      concatEngine_builds.mono fun e he => ?_
    rw [he, List.map_cons, List.map_singleton, List.prod_cons, List.prod_singleton, hitem, htail, hcomma]
    ext u
    rw [mem_items, mem_series]
    constructor
    · rintro ⟨n, hmin, hmax, hu⟩
      exact ⟨n + 1, ⟨by omega, hless.1 hmax⟩, hu⟩
    · rintro ⟨n, ⟨hmin, hmax⟩, hu⟩
      obtain ⟨k, rfl⟩ : ∃ k, n = k + 1 := ⟨n - 1, by omega⟩
      exact ⟨k, by omega, hless.2 hmax, hu⟩

variable {compile : NodeId → Compile RefEngine}

theorem compileArrayNode_builds (hb : Determinizes P builder) {id : NodeId} {minItems : ℕ} {maxItems : Option ℕ}
    (hitem : Builds L (compile id)) (hmin : minItems < u32Size) (hbounds : ∀ m, maxItems = some m → minItems ≤ m) :
    Builds (enclosed 0x5b 0x5d (series comma (fun _ => L) {n | minItems ≤ n ∧ ∀ m, maxItems = some m → n ≤ m}))
      (compileArrayNode builder compile id minItems maxItems) := by
  refine hitem.bind fun item hitem => (regexEngine_builds hb commaSep_stands.one).bind fun sep hsep =>
    concatEngine_builds.bind fun commaItem hcomma =>
    (arrayItemsEngine_builds hb hitem ?_ hmin hbounds).bind fun body hbody => ?_
  · rw [hcomma, List.map_cons, List.map_singleton, List.prod_cons, List.prod_singleton, hsep, hitem]
  · rw [← hbody]
    exact surroundBy_builds hb (bracket_stands (by decide) (by decide)) (bracket_stands (by decide) (by decide))

end

/-! ### Tuples -/

section
variable {prefixes : List RefEngine} {tail : Option RefEngine}

/-- What stands at a position of a tuple. -/
def itemAt (prefixes : List RefEngine) (tail : Option RefEngine) (i : ℕ) : Language Byte :=
  ((prefixes[i]?.or tail).map RefEngine.lang).getD 0

theorem tupleExactEngine_builds (hb : Determinizes P builder) (count : ℕ) :
    Builds (joined comma ((List.range count).map (itemAt prefixes tail)))
    (tupleExactEngine builder prefixes tail count) := by
  unfold tupleExactEngine
  split
  · rename_i hzero
    rw [hzero]
    exact empty_builds hb
  refine (regexEngine_builds hb commaSep_stands.one).bind fun sep hsep =>
    Gives.bind (Gives.collect (R := fun i e => e.lang = itemAt prefixes tail i) fun i _ => ?_)
    fun items hitems => concatEngine_builds.mono fun e he => ?_
  · refine .ofExcept fun e he => ?_
    cases hat : prefixes[i]?.or tail with
    | none =>
      rw [hat] at he
      cases he
    | some e' =>
      rw [hat] at he
      cases he
      rw [itemAt, hat, Option.map_some, Option.getD_some]
  · rw [he, map_intersperse, hsep, map_of_forall₂ hitems, Phrase.prod_intersperse]

/-- **Every length beyond the prefix**, one at least. -/
theorem tupleUnboundedEngine_builds (hb : Determinizes P builder) {t : RefEngine} {base : ℕ} (hpos : base ≠ 0)
    (hbase : prefixes.length ≤ base) :
    Builds (series comma (itemAt prefixes (some t)) {n | base ≤ n}) (tupleUnboundedEngine builder prefixes t base) := by
  refine (tupleExactEngine_builds hb base).bind fun first hfirst => (regexEngine_builds hb commaSep_stands.one).bind
    fun sep hsep =>
    concatEngine_builds.bind fun commaTail hcomma => (repeated_builds (by decide)).bind fun rest hrest =>
      concatEngine_builds.mono fun e he => ?_
  have hmore : ∀ i, base ≤ i → itemAt prefixes (some t) i = t.lang := by
    intro i hi
    rw [itemAt, List.getElem?_eq_none (Nat.le_trans hbase hi)]
    rfl
  rw [he, List.map_cons, List.map_singleton, List.prod_cons, List.prod_singleton, hfirst, hrest, hcomma, List.map_cons,
    List.map_singleton, List.prod_cons, List.prod_singleton, hsep]
  ext u
  rw [Language.mem_mul, mem_series]
  constructor
  · rintro ⟨a, ha, b, ⟨k, -, -, hk⟩, rfl⟩
    refine ⟨base + k, Nat.le_add_right base k, ?_⟩
    rw [Phrase.joined_extend hpos hmore]
    exact Language.append_mem_mul ha hk
  · rintro ⟨n, hn, hu⟩
    obtain ⟨k, rfl⟩ : ∃ k, n = base + k := ⟨n - base, (Nat.add_sub_cancel' hn).symm⟩
    rw [Phrase.joined_extend hpos hmore] at hu
    obtain ⟨a, ha, b, hk, rfl⟩ := Language.mem_mul.1 hu
    exact ⟨a, ha, b, ⟨k, Nat.zero_le k, fun _ h => (by cases h), hk⟩, rfl⟩

/-- The lengths of a tuple: those up to a bound one by one, and all beyond the prefix where nothing bounds them. -/
theorem tuple_lengths (min len n : ℕ) (max : Option ℕ) (tail : Option RefEngine) :
    ((min ≤ n ∧ n ≤ if tail.isSome then max.getD len else Nat.min (max.getD len) len) ∨
      (∃ t, (if max.isNone then tail else none) = some t) ∧
      Nat.max min len ≤ n) ↔ (min ≤ n ∧ ∀ m, max = some m → n ≤ m) ∧ (tail = none → n ≤ len) := by
  have hmin : ∀ a, Nat.min a len = Min.min a len := fun _ => rfl
  have hmax : Nat.max min len = Max.max min len := rfl
  rw [hmin, hmax]
  cases tail with
  | none =>
    rw [Option.isSome_none, if_neg Bool.false_ne_true, ite_self]
    cases max with
    | none =>
      simp
    | some m =>
      simp
      omega
  | some t =>
    rw [Option.isSome_some, if_pos rfl]
    cases max with
    | none =>
      simp
      omega
    | some m => simp

theorem tupleBodyEngine_builds (hb : Determinizes P builder) {minItems : ℕ} {maxItems : Option ℕ}
    (hne : prefixes ≠ []) :
    Builds (series comma (itemAt prefixes tail) {n | (minItems ≤ n ∧ ∀ m, maxItems = some m → n ≤ m) ∧
      (tail = none → n ≤ prefixes.length)})
      (tupleBodyEngine builder prefixes tail minItems maxItems) := by
  have hlen : prefixes.length ≠ 0 := fun h => hne (List.length_eq_zero_iff.1 h)
  refine Gives.bind (P := (· = prefixes.length)) (.ofExcept fun n hn => (checkedU32_ok hn).1) ?_
  rintro _ rfl
  refine (Gives.collect fun count _ => tupleExactEngine_builds hb count).bind fun finite hfinite => ?_
  have hbase : Nat.max minItems prefixes.length ≠ 0 := Nat.pos_iff_ne_zero.1
    (Nat.lt_of_lt_of_le (Nat.pos_of_ne_zero hlen) (Nat.le_max_right _ _))
  refine (Gives.optional (R := fun t (e : RefEngine) => tail = some t ∧ e.lang = series comma (itemAt prefixes tail)
    {n | Nat.max minItems prefixes.length ≤ n})
    fun t ht => ?_).bind fun unbounded hunbounded => unionEngine_builds.mono fun e he => ?_
  · have htail : tail = some t := by
      split at ht
      · exact ht
      · cases ht
    rw [htail]
    exact (tupleUnboundedEngine_builds hb hbase (Nat.le_max_right _ _)).mono fun e he => ⟨rfl, he⟩
  rw [he, List.map_append, map_of_forall₂ hfinite, List.sum_append]
  ext u
  rw [Language.mem_add, Phrase.mem_sum, Phrase.mem_sum, mem_series]
  have hfirst : (∃ L ∈ (List.range' minItems ((if tail.isSome then maxItems.getD prefixes.length else
      Nat.min (maxItems.getD prefixes.length) prefixes.length) + 1 - minItems)).map fun n =>
        joined comma ((List.range n).map (itemAt prefixes tail)), u ∈ L) ↔
      ∃ n, (minItems ≤ n ∧ n ≤ if tail.isSome then maxItems.getD prefixes.length
        else Nat.min (maxItems.getD prefixes.length) prefixes.length) ∧
        u ∈ joined comma ((List.range n).map (itemAt prefixes tail)) := by
    simp only [List.mem_map, exists_exists_and_eq_and, List.mem_range'_1]
    refine exists_congr fun n => and_congr_left fun _ => ?_
    omega
  have hsecond : (∃ L ∈ unbounded.toList.map RefEngine.lang, u ∈ L) ↔
    ∃ n, ((∃ t, (if maxItems.isNone then tail else none) = some t) ∧
      Nat.max minItems prefixes.length ≤ n) ∧ u ∈ joined comma ((List.range n).map (itemAt prefixes tail)) := by
    generalize (if maxItems.isNone then tail else none) = rest at hunbounded
    cases hunbounded with
    | none => simp
    | some h =>
      rw [Option.toList_some, List.map_singleton]
      simp only [List.mem_singleton, exists_eq_left, h.2, mem_series, Option.some.injEq, exists_eq', true_and]
      rfl
  rw [hfirst, hsecond, ← exists_or]
  refine exists_congr fun n => ?_
  rw [← or_and_right, tuple_lengths]
  rfl

variable {compile : NodeId → Compile RefEngine} {child : NodeId → Language Byte}

theorem compileTupleNode_builds (hb : Determinizes P builder) {r : RefSlice} {ids : List NodeId} {last : Option NodeId}
    {minItems : ℕ} {maxItems : Option ℕ} (hids : w.refsAt r = some ids) (hne : ids ≠ [])
    (hchild : ∀ id ∈ ids ++ last.toList, Builds (child id) (compile id)) :
    Builds (enclosed 0x5b 0x5d (series comma (fun i => ((ids[i]?.or last).map child).getD 0)
        {n | (minItems ≤ n ∧ ∀ m, maxItems = some m → n ≤ m) ∧ (last = none → n ≤ ids.length)}))
      (compileTupleNode w builder compile r last minItems maxItems) := by
  refine builds_need hids ((Gives.collect fun id hid => hchild id (List.mem_append_left _ hid)).bind
    fun engines hengines =>
    (Gives.optional (R := fun id (e : RefEngine) => e.lang = child id) fun id hid =>
      hchild id (List.mem_append_right _ (Option.mem_toList.2 hid))).bind
      fun lastEngine hlast => ?_)
  have hlen : ids.length = engines.length := hengines.length_eq
  have hsome : engines ≠ [] := fun h => hne (List.length_eq_zero_iff.1 (by rw [hlen, h]; rfl))
  have hat : ∀ i, itemAt engines lastEngine i = ((ids[i]?.or last).map child).getD 0 := by
    intro i
    rcases Nat.lt_or_ge i ids.length with hi | hi
    · have hi' : i < engines.length := hlen ▸ hi
      have hrel := hengines.get hi hi'
      rw [itemAt, List.getElem?_eq_getElem hi, List.getElem?_eq_getElem hi']
      exact hrel
    · rw [itemAt, List.getElem?_eq_none hi, List.getElem?_eq_none (hlen ▸ hi), Option.none_or, Option.none_or]
      cases hlast with
      | none => rfl
      | some h => exact h
  have hclosed : lastEngine = none ↔ last = none := by
    cases hlast with
    | none => exact iff_of_true rfl rfl
    | some => exact iff_of_false (fun h => by cases h) fun h => by cases h
  refine (tupleBodyEngine_builds hb hsome).bind fun body hbody => ?_
  have hlang : body.lang = series comma (fun i => ((ids[i]?.or last).map child).getD 0)
      {n | (minItems ≤ n ∧ ∀ m, maxItems = some m → n ≤ m) ∧ (last = none → n ≤ ids.length)} := by
    rw [hbody, funext hat, hlen]
    simp only [hclosed]
  rw [← hlang]
  exact surroundBy_builds hb (bracket_stands (by decide) (by decide)) (bracket_stands (by decide) (by decide))

end

/-! ### Objects -/

section
variable {compile : NodeId → Compile RefEngine} {child : NodeId → Language Byte}

/-- What a field spells. -/
def fieldLang (w : SchemaIRWire) (child : NodeId → Language Byte) (f : StrRef × NodeId) : Language Byte :=
  word (quoted (w.textAt f.1)) * (colon * child f.2)

theorem nil_notMem_fieldLang (f : StrRef × NodeId) : [] ∉ fieldLang w child f := by
  intro h
  obtain ⟨_, rfl, _, _, hnil⟩ := Language.mem_mul.1 h
  cases hnil

theorem nil_notMem_comma : [] ∉ comma := by
  intro h
  obtain ⟨_, _, rest, hrest, hnil⟩ := Language.mem_mul.1 h
  obtain ⟨_, rfl, _, _, rfl⟩ := Language.mem_mul.1 hrest
  exact absurd (List.append_eq_nil_iff.1 hnil).2 (List.cons_ne_nil _ _)

theorem compileField_builds (hb : Determinizes P builder) {required : BitSlice} {field : (StrRef × NodeId) × ℕ}
    (hname : StrInRange w field.1.1) (hchild : Builds (child field.1.2) (compile field.1.2)) :
    Gives (fun r => r.1.lang = fieldLang w child field.1 ∧ r.2 = w.isRequired required field.2)
    (compileField w builder compile required field) := by
  obtain ⟨name, hname⟩ := hname
  refine builds_need hname ((regexEngine_builds hb ((escapeRegex_stands _).append colonSep_stands).one).bind
    fun before hbefore =>
    hchild.bind fun value hvalue => concatEngine_builds.bind fun engine hengine => ?_)
  refine Gives.bind (P := (· = field.2)) (.ofExcept fun n hn => (checkedU32_ok hn).1) ?_
  rintro _ rfl
  refine .pure ⟨?_, rfl⟩
  rw [hengine, List.map_cons, List.map_singleton, List.prod_cons, List.prod_singleton, hbefore, hvalue, fieldLang,
    textAt_of hname, mul_assoc]
  rfl

theorem compileObjectNode_builds (hb : Determinizes P builder) {fields : PropSlice}
    {properties : List (StrRef × NodeId)} {required : BitSlice}
    (hfields : w.propsAt fields = some properties) (hnames : ∀ f ∈ properties, StrInRange w f.1)
    (hchild : ∀ f ∈ properties, Builds (child f.2) (compile f.2)) :
    Builds (enclosed 0x7b 0x7d (objectBody w child properties (w.isRequired required)))
    (compileObjectNode w builder compile fields required) := by
  refine builds_need hfields
    ((Gives.collect (R := fun f r => r.1.lang = fieldLang w child f.1 ∧ r.2 = w.isRequired required f.2) fun f hf =>
    compileField_builds hb (hnames _ (List.fst_mem_of_mem_zipIdx hf)) (hchild _ (List.fst_mem_of_mem_zipIdx hf))).bind
      fun compiled hcompiled =>
      (regexEngine_builds hb commaSep_stands.one).bind fun sep hsep => ?_)
  have hlen : compiled.length = properties.length := by rw [← hcompiled.length_eq, List.length_zipIdx]
  have hget : ∀ {i : ℕ} {f : StrRef × NodeId}, properties[i]? = some f →
      ∃ r, compiled[i]? = some r ∧ r.1.lang = fieldLang w child f ∧ r.2 = w.isRequired required i := by
    intro i f hi
    have hlt := (List.getElem?_eq_some_iff.1 hi).1
    have hlt' : i < compiled.length := hlen ▸ hlt
    have hzip : i < properties.zipIdx.length := by rwa [List.length_zipIdx]
    have hat : properties.zipIdx.get ⟨i, hzip⟩ = (f, i) := by
      rw [List.get_eq_getElem, List.getElem_zipIdx, Nat.zero_add, (List.getElem?_eq_some_iff.1 hi).2]
    have hrel := hcompiled.get hzip hlt'
    rw [hat] at hrel
    exact ⟨_, List.getElem?_eq_getElem hlt', hrel⟩
  refine Gives.bind (P := fun body => body.lang = objectBody w child properties (w.isRequired required))
    (.ofExcept fun body hbody => ?_) fun body hbody => ?_
  · have hshuffle := mem_shuffle (fun e he => ?_) (by rw [hsep]; exact nil_notMem_comma) hbody
    · ext text
      rw [hshuffle]
      refine exists_congr fun order => and_congr_right fun _ => ?_
      rw [List.length_map, hlen, hsep]
      refine and_congr_right fun hin => and_congr ?_ ?_
      · constructor
        · intro h i hi hreq
          obtain ⟨r, hr, -, hbit⟩ := hget (List.getElem?_eq_getElem hi)
          exact h i (by rw [List.getElem?_map, hr, Option.map_some, hbit, hreq])
        · intro h i hreq
          rw [List.getElem?_map] at hreq
          obtain ⟨r, hr, htrue⟩ := Option.map_eq_some_iff.1 hreq
          have hi : i < properties.length := hlen ▸ (List.getElem?_eq_some_iff.1 hr).1
          obtain ⟨r', hr', -, hbit⟩ := hget (List.getElem?_eq_getElem hi)
          cases hr.symm.trans hr'
          exact h i hi (hbit.symm.trans htrue)
      · have hlangs : fieldLangs (compiled.map Prod.fst) order = order.map fun i =>
          (properties[i]?.map (fieldLang w child)).getD 0 := by
          refine List.map_congr_left fun i hi => ?_
          have hi := List.getElem?_eq_getElem (hin i hi)
          obtain ⟨r, hr, hlang, -⟩ := hget hi
          rw [List.getElem?_map, hr, hi]
          exact hlang
        rw [hlangs]
        rfl
    · obtain ⟨r, hr, rfl⟩ := List.mem_map.1 he
      obtain ⟨i, hi⟩ := List.mem_iff_getElem?.1 hr
      have hlt : i < properties.length := hlen ▸ (List.getElem?_eq_some_iff.1 hi).1
      obtain ⟨r', hr', hlang, -⟩ := hget (List.getElem?_eq_getElem hlt)
      cases hi.symm.trans hr'
      rw [hlang]
      exact nil_notMem_fieldLang _
  · rw [← hbody]
    exact surroundBy_builds hb (bracket_stands (by decide) (by decide)) (bracket_stands (by decide) (by decide))

end

/-! ### Branches -/

section
variable {compile : NodeId → Compile RefEngine} {child : NodeId → Language Byte} {branches : RefSlice}
  {ids : List NodeId}

theorem compileUnionNode_builds (hids : w.refsAt branches = some ids)
    (hchild : ∀ id ∈ ids, Builds (child id) (compile id)) :
    Builds (ids.map child).sum (compileUnionNode w compile branches) := by
  refine builds_need hids ((Gives.collect hchild).bind fun engines hengines => unionEngine_builds.mono fun e he => ?_)
  rw [he, map_of_forall₂ hengines]

/-- **One alone**, of a list. -/
theorem countP_eq_one {α : Type} {p : α → Bool} :
    ∀ {l : List α}, l.countP p = 1 ↔ ∃! i : ℕ, ∃ a, l[i]? = some a ∧ p a = true
  | [] => by simp
  | a :: l => by
    by_cases hp : p a = true
    · rw [List.countP_cons_of_pos hp]
      constructor
      · intro h
        have hzero := List.countP_eq_zero.1 (Nat.succ.inj h)
        refine ⟨0, ⟨a, rfl, hp⟩, fun i hi => ?_⟩
        cases i with
        | zero => rfl
        | succ i =>
          obtain ⟨b, hb, hpb⟩ := hi
          exact absurd hpb (hzero b (List.mem_of_getElem? hb))
      · rintro ⟨i, -, huniq⟩
        have hzero := huniq 0 ⟨a, rfl, hp⟩
        refine congrArg Nat.succ (List.countP_eq_zero.2 fun b hb hpb => ?_)
        obtain ⟨j, hj⟩ := List.mem_iff_getElem?.1 hb
        have hsucc := huniq (j + 1) ⟨b, hj, hpb⟩
        omega
    · rw [List.countP_cons_of_neg hp, countP_eq_one]
      constructor
      · rintro ⟨i, hi, huniq⟩
        refine ⟨i + 1, hi, fun j hj => ?_⟩
        cases j with
        | zero =>
          obtain ⟨b, hb, hpb⟩ := hj
          cases hb
          exact absurd hpb hp
        | succ j => exact congrArg Nat.succ (huniq j hj)
      · rintro ⟨i, hi, huniq⟩
        cases i with
        | zero =>
          obtain ⟨b, hb, hpb⟩ := hi
          cases hb
          exact absurd hpb hp
        | succ i => exact ⟨i, hi, fun j hj => Nat.succ.inj (huniq (j + 1) hj)⟩

theorem accepts_all {engines : List RefEngine}
    (h : List.Forall₂ (fun id (e : RefEngine) => e.lang = child id) ids engines) (u : List Byte) :
    Combinator.Accepts .all engines u ↔ ∀ id ∈ ids, u ∈ child id := by
  show (∀ e ∈ engines, u ∈ e.lang) ↔ _
  have hmap : (∀ L ∈ engines.map RefEngine.lang, u ∈ L) ↔ ∀ L ∈ ids.map child, u ∈ L := by rw [map_of_forall₂ h]
  simpa only [List.forall_mem_map] using hmap

theorem accepts_one {engines : List RefEngine}
    (h : List.Forall₂ (fun id (e : RefEngine) => e.lang = child id) ids engines) (u : List Byte) :
    Combinator.Accepts .exactlyOne engines u ↔ ∃! i : ℕ, ∃ id, ids[i]? = some id ∧ u ∈ child id := by
  show (engines.countP fun e => e.accepts u) = 1 ↔ _
  rw [countP_eq_one]
  refine existsUnique_congr fun i => ?_
  have hmap : (engines.map RefEngine.lang)[i]? = (ids.map child)[i]? := by rw [map_of_forall₂ h]
  rw [List.getElem?_map, List.getElem?_map] at hmap
  cases he : engines[i]? with
  | none =>
    rw [he] at hmap
    rw [Option.map_eq_none_iff.1 hmap.symm]
    exact iff_of_false (fun ⟨_, h, _⟩ => by cases h) fun ⟨_, h, _⟩ => by cases h
  | some e =>
    rw [he] at hmap
    obtain ⟨id, hid, hlang⟩ := Option.map_eq_some_iff.1 hmap.symm
    rw [hid]
    constructor
    · rintro ⟨_, heq, hu⟩
      cases heq
      exact ⟨id, rfl, hlang ▸ hu⟩
    · rintro ⟨_, heq, hu⟩
      cases heq
      exact ⟨e, rfl, show u ∈ e.lang from hlang ▸ hu⟩

theorem compileProductNode_builds {c : Combinator} {L : Language Byte} (hids : w.refsAt branches = some ids)
    (hchild : ∀ id ∈ ids, Builds (child id) (compile id))
    (h : ∀ engines, List.Forall₂ (fun id (e : RefEngine) => e.lang = child id) ids engines → ∀ u, c.Accepts engines u ↔
      u ∈ L) :
    Builds L (compileProductNode w compile branches c) :=
  builds_need hids ((Gives.collect hchild).bind fun engines hengines => .ofExcept fun e he => by
    ext u
    rw [mem_product he, h engines hengines])

theorem compileIntersectionNode_builds (hids : w.refsAt branches = some ids)
    (hchild : ∀ id ∈ ids, Builds (child id) (compile id)) :
    Builds {u | ∀ id ∈ ids, u ∈ child id} (compileProductNode w compile branches .all) :=
  compileProductNode_builds hids hchild fun _ hengines u => accepts_all hengines u

theorem compileExactlyOneNode_builds (hids : w.refsAt branches = some ids)
    (hchild : ∀ id ∈ ids, Builds (child id) (compile id)) :
    Builds {u | ∃! i : ℕ, ∃ id, ids[i]? = some id ∧ u ∈ child id} (compileProductNode w compile branches .exactlyOne) :=
  compileProductNode_builds hids hchild fun _ hengines u => accepts_one hengines u

end

end

end Ir
end MaskForge
