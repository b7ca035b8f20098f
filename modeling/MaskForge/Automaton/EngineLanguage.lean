import MaskForge.Automaton.MultipleOf
import MaskForge.Automaton.Shuffle
import MaskForge.Automaton.StringSet
import MaskForge.Lib.Phrase
/-!
# EngineLanguage — what the compositions of engines accept, as languages

A composition of engines accepts a product, a sum, a bounded power or another set of the languages of its engines, where
there is room to build it.
-/
namespace MaskForge

open Phrase

/-- The texts an engine accepts. -/
def RefEngine.lang (e : RefEngine) : Language Byte := {w | e.accepts w = true}

theorem RefEngine.mem_lang {e : RefEngine} {w : List Byte} : w ∈ e.lang ↔ e.accepts w = true := Iff.rfl

theorem lang_concat {engines : List RefEngine} {e : RefEngine}
    (h : (concatenate engines >>= RefEngine.fromGraph) = .ok e) :
    e.lang = (engines.map RefEngine.lang).prod := by
  obtain ⟨g, hg, he⟩ := bind_ok h
  obtain ⟨states, start, hrows⟩ := MultipleOf.concatenate_rows hg
  ext w
  rw [RefEngine.mem_lang, MultipleOf.fromGraph_accepts hrows he, concatenate_exact hg, mem_prod]
  refine exists_congr fun ws => and_congr_left fun _ => ?_
  rw [List.forall₂_map_left_iff]
  rfl

theorem lang_union {engines : List RefEngine} {e : RefEngine} (h : (union engines >>= RefEngine.fromGraph) = .ok e) :
    e.lang = (engines.map RefEngine.lang).sum := by
  obtain ⟨g, hg, he⟩ := bind_ok h
  obtain ⟨states, start, hrows⟩ := MultipleOf.union_rows hg
  ext w
  rw [RefEngine.mem_lang, MultipleOf.fromGraph_accepts hrows he, union_exact hg, mem_sum]
  simp only [List.mem_map, exists_exists_and_eq_and]
  rfl

theorem mem_product {engines : List RefEngine} {c : Combinator} {e : RefEngine}
    (h : (ProductAutomaton.build engines c >>= ProductAutomaton.intoEngine) = .ok e) (w : List Byte) :
    w ∈ e.lang ↔ c.Accepts engines w := by
  obtain ⟨p, hp, he⟩ := bind_ok h
  rw [RefEngine.mem_lang, byteStates_engine he]
  exact ProductAutomaton.buildCapped_ok hp w

theorem lang_stringSet {values : List (List Char)} {e : RefEngine}
    (h : (StringSet.stringSet values >>= RefEngine.fromGraph) = .ok e) :
    e.lang = {w | ∃ body text, w = 0x22 :: (body ++ [0x22]) ∧ Spelling body text ∧ text ∈ values} := by
  obtain ⟨g, hg, he⟩ := bind_ok h
  obtain ⟨nodes, hnodes, hrows⟩ := bind_ok hg
  obtain ⟨states, hstates, hrows⟩ := bind_ok hrows
  ext w
  rw [RefEngine.mem_lang, MultipleOf.fromGraph_accepts hrows he, StringSet.stringSet_accepts hg]
  rfl

/-- **What is built from a pattern accepts what its DFA does.** -/
theorem lang_import {σ : Type} [DecidableEq σ] {d : DenseDfa σ} {e : RefEngine} {L : Language Byte} (hd : d.Lawful)
    (hL : ∀ w, d.accepts w = true ↔ w ∈ L) (h : d.bfsMaterialize = .ok e) : e.lang = L := by
  obtain ⟨first, s, hfirst, hinv, hall, htidy, _, hstart, _, hclass, _, hnumbered⟩ := DenseDfa.bfsMaterialize_ok h
  obtain ⟨_, hlive⟩ := Explore.liveRows_spec htidy
  ext w
  have hlang : d.accepts w = Explore.accepts s.rows 0 (w.map d.buildClassTable.ofByte) := by
    rw [DenseDfa.accepts_rows hd hinv hall w hinv.first, DenseDfa.accepts, hfirst]
    rfl
  rw [RefEngine.mem_lang, ← hL, hlang, e.accepts_eq, hstart]
  by_cases h0 : (Explore.liveRows s.rows)[0]? = some true
  · rw [Explore.finalIds_live h0, Option.getD_some,
      DenseDfa.acceptsFrom_numbered htidy hclass hnumbered w 0 _ (Explore.finalIds_live h0)]
  · have hnone : Explore.accepts s.rows 0 (w.map d.buildClassTable.ofByte) = false := by
      rw [← Bool.not_eq_true]
      exact fun hw => h0 ((hlive 0).2 ⟨_, hw⟩)
    rw [Explore.finalIds_not_live h0, hnone]
    exact iff_of_eq (congrArg (· = true) (e.acceptsFrom_dead w))

/-! ### Shuffles -/

section
open ShuffleAutomaton

variable {fields : List RefEngine} {separator : RefEngine}

/-- The languages of the fields, in the order their words come. -/
def fieldLangs (fields : List RefEngine) (order : List Nat) : List (Language Byte) :=
  order.map fun i => (fields[i]?.map RefEngine.lang).getD 0

theorem Body.joined {order : List Nat} {w : List Byte} (h : Body fields separator order w) :
    (∀ i ∈ order, i < fields.length) ∧ w ∈ joined separator.lang (fieldLangs fields order) := by
  have hfield : ∀ {i : Nat} {e : RefEngine}, fields[i]? = some e → (fields[i]?.map RefEngine.lang).getD 0 = e.lang := by
    intro i e hi
    rw [hi, Option.map_some, Option.getD_some]
  induction h with
  | nil => exact ⟨fun _ h => absurd h List.not_mem_nil, rfl⟩
  | @first i e f hi hf =>
    refine ⟨fun j hj => ?_, ?_⟩
    · rw [List.mem_singleton.1 hj]
      exact (List.getElem?_eq_some_iff.1 hi).1
    · rw [fieldLangs, List.map_singleton, Phrase.joined, List.map_nil, List.prod_nil, mul_one, hfield hi]
      exact hf
  | @more order w s f i e _ hne _ hs hi hf ih =>
    obtain ⟨hin, hw⟩ := ih
    refine ⟨fun j hj => ?_, ?_⟩
    · rcases List.mem_append.1 hj with hj | hj
      · exact hin j hj
      · rw [List.mem_singleton.1 hj]
        exact (List.getElem?_eq_some_iff.1 hi).1
    · have hsome : fieldLangs fields order ≠ [] := fun h => hne (List.map_eq_nil_iff.1 h)
      have hmap : fieldLangs fields (order ++ [i]) = fieldLangs fields order ++ [e.lang] := by
        rw [fieldLangs, List.map_append, List.map_singleton, hfield hi]
        rfl
      rw [hmap, joined_concat hsome, List.append_assoc]
      exact Language.append_mem_mul hw (Language.append_mem_mul hs hf)

theorem body_of_joined {order : List Nat} : ∀ {w : List Byte}, order.Nodup → (∀ i ∈ order, i < fields.length) →
    w ∈ Phrase.joined separator.lang (fieldLangs fields order) → Body fields separator order w := by
  induction order using List.reverseRecOn with
  | nil =>
    rintro w - - rfl
    exact .nil
  | append_singleton order i ih =>
    intro w hnodup hin hw
    obtain ⟨e, hi⟩ : ∃ e, fields[i]? = some e :=
      ⟨_, List.getElem?_eq_getElem (hin i (List.mem_append_right _ List.mem_cons_self))⟩
    have hfield : (fields[i]?.map RefEngine.lang).getD 0 = e.lang := by rw [hi, Option.map_some, Option.getD_some]
    have hmap : fieldLangs fields (order ++ [i]) = fieldLangs fields order ++ [e.lang] := by
      rw [fieldLangs, List.map_append, List.map_singleton, hfield]
      rfl
    rw [hmap] at hw
    rcases List.eq_nil_or_concat order with rfl | hsome
    · rw [fieldLangs, List.map_nil, List.nil_append, Phrase.joined, List.map_nil, List.prod_nil, mul_one] at hw
      exact .first hi hw
    · have hne : order ≠ [] := by
        obtain ⟨init, last, rfl⟩ := hsome
        simp
      have hlangs : fieldLangs fields order ≠ [] := fun h => hne (List.map_eq_nil_iff.1 h)
      rw [joined_concat hlangs] at hw
      obtain ⟨u, hu, rest, hrest, rfl⟩ := Language.mem_mul.1 hw
      obtain ⟨s, hs, f, hf, rfl⟩ := Language.mem_mul.1 hrest
      have hinit := ih (List.nodup_append.1 hnodup).1 (fun j hj => hin j (List.mem_append_left _ hj)) hu
      have hnew : i ∉ order := fun hmem => (List.nodup_append.1 hnodup).2.2 i hmem i List.mem_cons_self rfl
      have hbody := hinit.more hne hnew hs hi hf
      rwa [List.append_assoc] at hbody

/-- **Shuffles accept distinct fields in any order**, the required ones among them, where fields and separators
are not empty. -/
theorem mem_shuffle {required : List Bool} {e : RefEngine} (hfields : ∀ e ∈ fields, [] ∉ e.lang)
    (hsep : [] ∉ separator.lang)
    (h : (ShuffleAutomaton.build fields required separator >>= ShuffleAutomaton.intoEngine) = .ok e) (w : List Byte) :
    w ∈ e.lang ↔ ∃ order : List Nat, order.Nodup ∧ (∀ i ∈ order, i < fields.length) ∧
    (∀ i : Nat, required[i]? = some true → i ∈ order) ∧
      w ∈ Phrase.joined separator.lang (fieldLangs fields order) := by
  obtain ⟨p, hp, he⟩ := bind_ok h
  rw [RefEngine.mem_lang, byteStates_engine he, build_ok hp, EpsilonRun.mem_accepts]
  constructor
  · rintro ⟨c, hfinal, hc⟩
    cases c with
    | ready bitset =>
      obtain ⟨order, hbits, hbody⟩ := reached_of_eval hc
      obtain ⟨hin, hw⟩ := Body.joined hbody
      exact ⟨order, hbody.nodup, hin, (covers_iff hbits required).1 (of_decide_eq_true hfinal), hw⟩
    | inComma => cases hfinal
    | afterComma => cases hfinal
    | active => cases hfinal
  · rintro ⟨order, hnodup, hin, hrequired, hw⟩
    have hsome : ∀ {e : RefEngine}, [] ∉ e.lang → e.accepts [] = false := fun h => Bool.not_eq_true _ |>.mp h
    obtain ⟨bitset, hbits, hready⟩ : ∃ bitset, ShuffleAutomaton.Holds bitset order ∧
      .ready bitset ∈ (toεNFA fields separator required).eval w :=
      (body_of_joined hnodup hin hw).eval (fun e he => hsome (hfields e he)) (hsome hsep)
    exact ⟨_, decide_eq_true ((covers_iff hbits required).2 hrequired), hready⟩

end

/-! ### Repetitions -/

section
variable {e : RefEngine} {min : Nat} {max : Option Nat}

theorem repeat_rows {g : AutomatonGraph} (h : repeatEngine e min max = .ok g) :
    ∃ states start, AutomatonGraph.fromByteStates states start = .ok g := by
  unfold repeatEngine at h
  split at h
  · cases h
  split at h
  · exact ⟨_, _, h⟩
  split at h
  · exact ⟨_, _, h⟩
  obtain ⟨_, _, h⟩ := bind_ok h
  obtain ⟨⟨states, starts, runs⟩, _, h⟩ := bind_ok h
  obtain ⟨linked, _, h⟩ := bind_ok h
  obtain ⟨start, _, h⟩ := bind_ok h
  obtain ⟨⟨id, s⟩, _, h⟩ := bind_ok h
  exact ⟨_, _, h⟩

/-- The links of a repetition, for each copy. -/
theorem repeat_links {starts : List Nat} {count : Nat}
    (hstarts : starts = (List.range count).map (entryOf 1 (List.replicate count e))) {i : Nat}
    (hi : i < count) : (if i + 1 < starts.length then starts[i + 1]? else if max.isNone then starts.getLast?
      else none).toList =
      (repeatNext count max i).map (entryOf 1 (List.replicate count e)) := by
  have hlen : starts.length = count := by rw [hstarts, List.length_map, List.length_range]
  have hstart : ∀ {j : Nat}, j < count → starts[j]? = some (entryOf 1 (List.replicate count e) j) := by
    intro j hj
    rw [hstarts, List.getElem?_map, List.getElem?_range hj, Option.map_some]
  rw [hlen, repeatNext]
  by_cases hmore : i + 1 < count
  · rw [if_pos hmore, if_pos hmore, hstart hmore]
    rfl
  · rw [if_neg hmore, if_neg hmore]
    by_cases hnone : max.isNone = true
    · rw [if_pos hnone, if_pos hnone, List.getLast?_eq_getElem?, hlen, hstart (by omega)]
      rfl
    · rw [if_neg hnone, if_neg hnone]
      rfl

/-- **A repetition is a chain of copies**, entered in front of the first. -/
theorem repeat_chain {g : AutomatonGraph} (h : repeatEngine e min max = .ok g) (hzero : max ≠ some 0)
    (halive : e.start ≠ dead) :
    ∃ nfa : ByteNfa, nfa.determinize = .ok g ∧
    Begins nfa 1 (List.replicate (repeatCopies min max) e) [0] (decide (min = 0)) ∧
      Chain nfa 1 (List.replicate (repeatCopies min max) e) (repeatNext (repeatCopies min max) max) fun i =>
      decide (min ≤ i + 1) := by
  unfold repeatEngine at h
  split at h
  · cases h
  obtain ⟨_, _, h⟩ := bind_ok h
  obtain ⟨⟨states, starts, runs⟩, happend, h⟩ := bind_ok h
  obtain ⟨hstates, hstarts, hruns⟩ := appendEngines_ok happend
  obtain ⟨out, hlink, h⟩ := bind_ok h
  dsimp only at hstates hstarts hruns hlink h
  have hpos : 0 < repeatCopies min max := Nat.lt_of_lt_of_le Nat.one_pos (Nat.le_max_right _ _)
  generalize repeatCopies min max = count at hpos hstates hstarts hruns hlink ⊢
  have hlen : (List.replicate count e).length = count := List.length_replicate
  have hget : ∀ {i : Nat} {e' : RefEngine}, (List.replicate count e)[i]? = some e' → i < count := fun h => by
    have hlt := (List.getElem?_eq_some_iff.1 h).1
    rwa [hlen] at hlt
  rw [hlen] at hstarts
  rw [List.length_singleton] at hstates hstarts hruns
  have hbefore : ∀ (i : Nat) (e' : RefEngine) (s : Nat), (List.replicate count e)[i]? = some e' → 1 ≤ s →
    s < e'.stateCount →
      (states.modify 0 fun hub => { hub with epsilon := hub.epsilon ++ starts[0]?.toList })[baseOf 1
        (List.replicate count e) i + (s - 1)]? =
        some ⟨engineEdges e' (baseOf 1 (List.replicate count e) i) s, [], e'.isAccepting s⟩ := by
    intro i e' s hi h1 hs
    have hblock := getElem?_blocks 1 hi h1 hs
    have hpast := hub_le_baseOf 1 (List.replicate count e) i
    rw [List.getElem?_modify_ne _ _ (by omega), hstates,
      List.getElem?_append_right (by rw [List.length_singleton]; omega)]
    exact hblock
  rw [hruns, repeatLinks] at hlink
  obtain ⟨hout, hfront⟩ := linkRuns_states (f := fun index state => { state with
    accepting := decide (min ≤ index + 1)
    epsilon := state.epsilon ++ (if index + 1 < starts.length then starts[index + 1]? else if max.isNone
      then starts.getLast? else none).toList })
    hbefore (Nat.le_of_eq List.length_mapIdx) hlink
  rw [List.length_mapIdx, hlen] at hout
  refine ⟨⟨out, 0⟩, h, .hub (fun i hi => by rw [List.mem_singleton.1 hi, hlen]; exact hpos) ?_, fun e' he' => ?_,
    fun i j hj => ?_,
    fun i e' s hi h1 hs => ?_⟩
  · dsimp only
    rw [hfront 0 Nat.one_pos, hstates, hstarts, List.getElem?_map, List.getElem?_range hpos]
    rfl
  · rw [List.eq_of_mem_replicate he']
    exact halive
  · rw [hlen]
    unfold repeatNext at hj
    split at hj
    · rename_i hmore
      rw [List.mem_singleton.1 hj]
      exact hmore
    split at hj
    · rw [List.mem_singleton.1 hj]
      exact Nat.sub_lt hpos Nat.one_pos
    · cases hj
  · dsimp only
    rw [hout i e' s hi h1 hs]
    by_cases hacc : e'.isAccepting s = true
    · rw [if_pos ⟨hget hi, hacc⟩, if_pos hacc, hacc, Bool.true_and, List.nil_append, repeat_links hstarts (hget hi)]
    · rw [if_neg (fun h => hacc h.2), if_neg hacc, Bool.not_eq_true _ |>.mp hacc, Bool.false_and]

/-- **A bounded repetition accepts bounded powers.** -/
theorem lang_repeat {r : RefEngine} (hmin : min < u32Size)
    (h : (repeatEngine e min max >>= RefEngine.fromGraph) = .ok r) :
    r.lang = between e.lang min max := by
  obtain ⟨g, hg, hr⟩ := bind_ok h
  obtain ⟨states, start, hrows⟩ := repeat_rows hg
  have hle : ∀ m, max = some m → min ≤ m := by
    rintro m rfl
    unfold repeatEngine at hg
    split at hg
    · cases hg
    · rename_i hbounds
      simpa using hbounds
  ext w
  rw [RefEngine.mem_lang, MultipleOf.fromGraph_accepts hrows hr, mem_between]
  by_cases hzero : max = some 0
  · have hempty := hg
    unfold repeatEngine at hempty
    split at hempty
    · cases hempty
    rw [accepts_single hempty]
    constructor
    · rintro ⟨rfl, _⟩
      exact ⟨[], fun _ h => absurd h List.not_mem_nil, rfl, hle 0 hzero, fun _ _ => Nat.zero_le _⟩
    · rintro ⟨ws, _, rfl, _, hmax⟩
      rw [List.length_eq_zero_iff.1 (Nat.le_zero.1 (hmax 0 hzero))]
      exact ⟨rfl, rfl⟩
  by_cases hdead : e.start = dead
  · have hempty := hg
    unfold repeatEngine at hempty
    split at hempty
    · cases hempty
    rw [accepts_single hempty, decide_eq_true_eq]
    constructor
    · rintro ⟨rfl, hmin⟩
      exact ⟨[], fun _ h => absurd h List.not_mem_nil, rfl, Nat.le_of_eq hmin, fun _ _ => Nat.zero_le _⟩
    · rintro ⟨ws, hall, rfl, hlen, _⟩
      cases ws with
      | nil => exact ⟨rfl, Nat.le_zero.1 hlen⟩
      | cons u ws =>
        have hu : e.accepts u = true := hall u List.mem_cons_self
        rw [e.accepts_eq, hdead, e.acceptsFrom_dead] at hu
        cases hu
  obtain ⟨nfa, hnfa, hbegin, hchain⟩ := repeat_chain hg hzero hdead
  have hpos : 0 < repeatCopies min max := Nat.lt_of_lt_of_le Nat.one_pos (Nat.le_max_right _ _)
  have hcopies : min ≤ repeatCopies min max ∧ ∀ m, max = some m → repeatCopies min max = m := by
    constructor
    · refine Nat.le_trans ?_ (Nat.le_max_left _ _)
      cases max with
      | none => exact Nat.le_min.2 ⟨Nat.le_succ _, by omega⟩
      | some m => exact hle m rfl
    · rintro m rfl
      have hm : m ≠ 0 := fun h => hzero (congrArg some h)
      exact Nat.max_eq_left (Nat.pos_of_ne_zero hm)
  rw [ByteNfa.determinize_ok hnfa, hchain.accepts_iff hbegin]
  generalize repeatCopies min max = count at hpos hcopies
  constructor
  · rintro (⟨rfl, h0⟩ | ⟨i, e', v, u, hi, hentry, hu, hlast, rfl⟩)
    · exact ⟨[], fun _ h => absurd h List.not_mem_nil, rfl, Nat.le_of_eq (of_decide_eq_true h0), fun _ _ =>
        Nat.zero_le _⟩
    · rw [List.getElem?_replicate] at hi
      split at hi
      on_goal 2 => cases hi
      rename_i hlt
      cases hi
      obtain ⟨_, ws, hall, rfl, hle', hsome⟩ := repeat_entry_sound hpos hentry
      rw [decide_eq_true_eq] at hlast
      have hlenWs : (ws ++ [u]).length = ws.length + 1 := List.length_append
      refine ⟨ws ++ [u], fun x hx => ?_, by simp, by omega, fun m hm => ?_⟩
      · rcases List.mem_append.1 hx with hx | hx
        · exact hall x hx
        · rw [List.mem_singleton.1 hx]
          exact hu
      · rw [hlenWs, hsome (by rw [hm]; rfl), ← hcopies.2 m hm]
        exact hlt
  · rintro ⟨ws, hall, rfl, hlenWs, hmax⟩
    rcases List.eq_nil_or_concat ws with rfl | ⟨ws, u, rfl⟩
    · exact .inl ⟨rfl, decide_eq_true (Nat.le_zero.1 hlenWs)⟩
    rw [List.concat_eq_append] at *
    rw [List.length_append, List.length_singleton] at hlenWs
    have hfew : max.isSome = true → ws.length < count := by
      intro hsome
      obtain ⟨m, hm⟩ := Option.isSome_iff_exists.1 hsome
      have hle' := hmax m hm
      rw [List.length_append, List.length_singleton] at hle'
      rw [hcopies.2 m hm]
      exact hle'
    have hentry := repeat_entry_complete hpos (fun x hx => hall x (List.mem_append_left _ hx)) hfew
    have hmin' : Nat.min ws.length (count - 1) = Min.min ws.length (count - 1) := rfl
    refine .inr ⟨_, e, ws.flatten, u, ?_, hentry, hall u (List.mem_append_right _ List.mem_cons_self), ?_, by simp⟩
    · rw [List.getElem?_replicate, if_pos]
      rw [hmin']
      omega
    · rw [decide_eq_true_eq, hmin']
      have := hcopies.1
      omega

end

end MaskForge
