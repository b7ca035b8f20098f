import MaskForge.Ir.PartExact
/-!
# CompileExact — a compiled node accepts its spellings

The text of a leaf stands for the leaf's spellings and parts are put together exactly, so what is compiled for a
regular node accepts the node's spellings, with white space around them, and nothing else (`compileNode_exact`).
-/
namespace MaskForge
namespace Ir

open AnyJson (spaces numbers)
open Derivative (word)
open IntegerRegex (CanonicalInteger integerValue Within)
open Phrase (between series joined)
open Outcome (Gives)
open RegexNotation

section
variable {w : SchemaIRWire} {env : Externals} {P : Patterns} {σ : Type} [DecidableEq σ]
  {builder : List Char → Except BuildError (DenseDfa σ)}

/-! ### Leaves -/

section
variable {child : NodeId → Language Byte}

theorem within_bounds {minimum maximum : Option Int64} {n : ℤ} :
    Within (minimum.map Int64.toInt) (maximum.map Int64.toInt) n ↔
    (∀ lo, minimum = some lo → lo.toInt ≤ n) ∧ ∀ hi, maximum = some hi → n ≤ hi.toInt := by
  simp [Within, Option.map_eq_some_iff]

/-- **The text of a leaf stands for its spellings.** -/
theorem lowerNode_gives (hP : Covers P w) {i : ℕ} {node : Node} {cost : CostEstimate} (hnode : w.nodes[i]? = some node)
    (hvalid : validateNode env w i node = .ok ()) (hregular : localStructuredReason w node cost = none)
    (hdirect : usesDirectCompilation w node = false) (frag : List (List Char)) :
    Gives (fun text => Sequence P text (node.spelling w P child)) (lowerNode w node frag) := by
  have hruns := (validateNode_ok hvalid).1
  cases node with
  | null => exact .pure (word_stands rfl rfl)
  | boolean =>
    have htrue : Sequence P ['t', 'r', 'u', 'e'] (word literalTrue) := word_stands rfl rfl
    have hfalse : Sequence P ['f', 'a', 'l', 's', 'e'] (word literalFalse) := word_stands rfl rfl
    exact .pure (htrue.more hfalse.one).grouped
  | never =>
    have hnone : Atom P ('[' :: '^' :: (['\\', 'x', '0', '0', '-', '\\', 'x', 'f', 'f'] ++ [']']))
      (outOfRanges [(0x00, 0xff)]) := .notCls (by decide)
    have hzero : outOfRanges [(0x00, 0xff)] = 0 := by
      ext u
      refine iff_of_false ?_ (Language.notMem_zero u)
      rintro ⟨b, -, hb⟩
      exact hb ((ByteRegex.Ranges.has_cons _ _ _).2 (.inl ⟨Nat.zero_le _, Nat.le_of_lt_succ b.toNat_lt⟩))
    rw [hzero] at hnone
    exact .pure hnone.single
  | stringConst value =>
    obtain ⟨s, hs⟩ := hruns
    refine builds_need hs (.pure ?_)
    show Sequence P _ (word (quoted (w.textAt value)))
    rw [textAt_of hs]
    exact escapeRegex_stands (jsonEncode s.chars)
  | stringPattern regex minLen maxLen charset =>
    obtain ⟨s, hs⟩ := hruns
    obtain ⟨L, hL⟩ := hP.strings i regex minLen maxLen charset hnode
    have hbase : Alternatives P s.chars L := .whole (by rw [← textAt_of hs, hL])
    have hbounds : ordered minLen maxLen = true := by
      obtain ⟨_, -, hchecks⟩ := bind_ok hvalid
      split at hchecks
      · obtain ⟨_, -, hcheck⟩ := bind_ok hchecks
        exact check_ok.1 hcheck
      · obtain ⟨_, -, hcheck⟩ := bind_ok hchecks
        exact check_ok.1 hcheck
    have hspelling : ∀ charset, Node.spelling w P child (.stringPattern regex minLen maxLen charset) = word [0x22] *
        ((if charset = .utf8Any then L else between L ((minLen.map UInt32.toNat).getD 0) (maxLen.map UInt32.toNat)) *
          word [0x22]) := fun _ => by
      show word [0x22] * ((if _ then (P.alternatives (w.textAt regex)).getD 0
        else between ((P.alternatives (w.textAt regex)).getD 0) _ _) * _) = _
      rw [hL, Option.getD_some]
    rw [hspelling]
    refine builds_need hs (.pure ?_)
    cases charset with
    | utf8Any => exact quotes_stand hbase.grouped
    | asciiPrintableNoQuoteBackslash => exact quotes_stand (quantifier_stands hbase hbounds)
    | utf8CountedCodepoints => exact quotes_stand (quantifier_stands hbase hbounds)
  | integer minimum maximum multipleOf =>
    cases multipleOf with
    | some m => cases hdirect
    | none =>
    simp only [validateNode, bind_eq_ok, check_ok] at hvalid
    obtain ⟨-, hbounds, -⟩ := hvalid
    obtain ⟨s, L, hs, hL, hmem⟩ := IntegerRegex.integerRegex_stands P minimum maximum (ordered_le hbounds)
    have hlower : lowerNode w (.integer minimum maximum none) frag = pure s := by
      rw [lowerNode, Option.isSome_none, if_neg Bool.false_ne_true, hs]
      rfl
    have hlang : L = Node.spelling w P child (.integer minimum maximum none) := by
      ext u
      rw [hmem, within_bounds]
      constructor
      · rintro ⟨h, hlo, hhi⟩
        refine ⟨h, hlo, hhi, fun _ hm => ?_⟩
        cases hm
      · rintro ⟨h, hlo, hhi, -⟩
        exact ⟨h, hlo, hhi⟩
    rw [hlower, ← hlang]
    exact .pure hL
  | number integerOnly minimum maximum multipleOf =>
    rw [localStructuredReason] at hregular
    split at hregular
    · cases hregular
    · rename_i hplain
      rw [lowerNode, if_neg hplain]
      simp only [Bool.or_eq_true, not_or, Bool.not_eq_true, Option.isSome_eq_false_iff,
        Option.isNone_iff_eq_none] at hplain
      obtain ⟨⟨⟨rfl, rfl⟩, rfl⟩, rfl⟩ := hplain
      exact .pure jsonNumberRe_stands
  | lexicalNumber regex =>
    obtain ⟨s, hs⟩ := hruns
    obtain ⟨L, hL⟩ := hP.numbers i regex hnode
    refine builds_need hs (.pure ?_)
    show Sequence P _ ((P.sequence (w.textAt regex)).getD 0)
    rw [hL, Option.getD_some]
    have hbare := Stands.bare (P := P) (s := s.chars) (by rw [← textAt_of hs, hL]) Stands.nil
    rwa [List.append_nil, mul_one] at hbare
  | enum values =>
    obtain ⟨lits, hlits⟩ := hruns
    simp only [validateNode, bind_eq_ok, fetch_ok, check_ok, Bool.not_eq_true'] at hvalid
    obtain ⟨lits', hlits', -, hne, -⟩ := hvalid
    cases hlits.symm.trans hlits'
    have hmixed : lits.all ScalarLit.isStr = false := by
      rw [usesDirectCompilation, allStrings, hlits] at hdirect
      exact hdirect
    have hspelling : Node.spelling w P child (.enum values) = (((w.litsAt values).getD []).map ScalarLit.spelling).sum
      := if_neg (by
      rw [hlits, Option.getD_some, hmixed]
      exact Bool.false_ne_true)
    rw [hspelling, hlits, Option.getD_some]
    exact builds_need hlits (.pure (longestFirst_stands (by simpa using hne) fun l _ => scalarRegex_stands l))
  | array items minItems maxItems uniqueItems contains itemsAnnotates =>
    obtain ⟨⟨id, rfl⟩, rfl, rfl⟩ := array_of_regular hregular
    cases hdirect
  | tuple prefixes tail minItems maxItems uniqueItems tailAnnotates contains =>
    obtain ⟨rfl, rfl⟩ := tuple_of_regular hregular
    cases hdirect
  | object fields required closure dependent dependentRequired =>
    exact absurd ((noDependents_of_regular hruns hregular).symm.trans hdirect) (by decide)
  | openObject | not | ref | dynamicRef | unevaluated | unsupported => cases hregular
  | union | intersection | exactlyOne => cases hdirect

/-- The text of a node that is reached alone. -/
theorem lowerNodes_gives {reachable : List Bool} {id : ℕ} {good : List Char → Prop}
    (hreach : ∀ i, reachable[i]?.getD false = true ↔ i = id) :
    ∀ {rest : List (Node × ℕ)} (frag : List (List Char)),
    (∀ p ∈ rest, p.2 = id → ∀ frag, Gives good (lowerNode w p.1 frag)) →
      (id ∈ rest.map Prod.snd ∨ ∀ text, frag[id]? = some text → good text) →
      Gives (fun frag' => ∀ text, frag'[id]? = some text → good text) (lowerNodes w reachable rest frag)
  | [], _, _, hfrag => .pure (hfrag.resolve_left List.not_mem_nil)
  | (node, i) :: rest, frag, h, hfrag => by
    rw [lowerNodes]
    split
    · rename_i hi
      obtain rfl : i = id := (hreach i).1 hi
      refine (h _ List.mem_cons_self rfl frag).bind fun text htext =>
        lowerNodes_gives hreach _ (fun p hp => h p (List.mem_cons_of_mem _ hp)) (.inr fun t ht => ?_)
      obtain ⟨hlt, ht⟩ := List.getElem?_eq_some_iff.1 ht
      rw [List.getElem_set_self] at ht
      exact ht ▸ htext
    · rename_i hi
      refine lowerNodes_gives hreach frag (fun p hp => h p (List.mem_cons_of_mem _ hp)) (hfrag.imp_left fun hmem => ?_)
      rcases List.mem_cons.1 hmem with heq | hmem
      · exact absurd ((hreach i).2 heq.symm) hi
      · exact hmem

theorem lowerReachable_gives {id : NodeId} {node : Node} {good : List Char → Prop} (hnode : w.node id = some node)
    (hkids : nodeChildren w node = .ok []) (hlower : ∀ frag, Gives good (lowerNode w node frag)) :
    Gives good (lowerReachable w id) := by
  have hlt : id.toNat < w.nodes.length := (List.getElem?_eq_some_iff.1 hnode).1
  have hreach : ∀ i, ((List.replicate w.nodes.length false).set id.toNat true)[i]?.getD false = true ↔
    i = id.toNat := by
    intro i
    constructor
    · intro h
      by_contra hne
      rw [List.getElem?_set_ne (Ne.symm hne), List.getElem?_replicate] at h
      split at h <;> cases h
    · rintro rfl
      rw [List.getElem?_set_self (by rwa [List.length_replicate]), Option.getD_some]
  rw [lowerReachable, reachableFrom_leaf hnode hkids, pure_bind]
  refine (lowerNodes_gives hreach _ (fun p hp hid => ?_) (.inl ?_)).bind fun frag hfrag => .ofExcept fun text htext =>
    hfrag text (fetch_ok.1 htext)
  · have hp := List.mem_zipIdx_iff_getElem?.1 hp
    rw [hid] at hp
    obtain rfl := Option.some.inj (hp.symm.trans hnode)
    exact hlower
  · exact List.mem_map.2 ⟨(node, id.toNat), List.mem_zipIdx_iff_getElem?.2 hnode, rfl⟩

end

/-- The text of a leaf that is lowered as the root. -/
theorem leafText_gives (hP : Covers P w) {id : NodeId} {node : Node} {cost : CostEstimate}
    (hnode : w.node id = some node)
    (hvalid : validateNode env w id.toNat node = .ok ()) (hregular : localStructuredReason w node cost = none)
    (hdirect : usesDirectCompilation w node = false) (child : NodeId → Language Byte) :
    Gives (fun text => Sequence P text (node.spelling w P child)) (lowerReachable w id) :=
  have hleaf : nodeChildren w node = .ok [] ∧ ∀ frag, Sound literally (lowerNode w node frag) :=
    lowerNode_leaf hvalid hregular hdirect
  lowerReachable_gives hnode hleaf.1 (lowerNode_gives hP hnode hvalid hregular hdirect)

/-! ### Automata of their own -/

/-- **The multiples in a range**, in their canonical spellings. -/
theorem compileIntegerMultiple_builds (hb : Determinizes P builder) {minimum maximum : Option Int64} {modulus : ℕ}
    (hbounds : ∀ l u, minimum = some l → maximum = some u → l ≤ u) :
    Builds {text | CanonicalInteger text ∧ (∀ lo, minimum = some lo → lo.toInt ≤ integerValue text) ∧
      (∀ hi, maximum = some hi → integerValue text ≤ hi.toInt) ∧ (modulus : ℤ) ∣ integerValue text}
      (ExceptT.mk (MultipleOf.compileIntegerMultiple (dense builder) minimum maximum modulus)) := by
  obtain ⟨s, L, hs, hL, hmem⟩ := IntegerRegex.integerRegex_stands P minimum maximum hbounds
  rw [MultipleOf.compileIntegerMultiple, hs, Option.map_some]
  refine Gives.ofExcept fun e he => ?_
  obtain ⟨range, hrange, he⟩ := bind_ok he
  obtain ⟨multiple, hmultiple, he⟩ := bind_ok he
  have hrange : range.lang = L := buildFromRegex_lang hb hL.one hrange
  ext u
  have hall : Combinator.Accepts .all [range, multiple] u ↔ u ∈ range.lang ∧ multiple.accepts u = true := by
    simp [Combinator.Accepts, RefEngine.mem_lang]
  rw [mem_product he, hall, hrange, hmem, within_bounds]
  constructor
  · rintro ⟨⟨hu, hlo, hhi⟩, hmul⟩
    exact ⟨hu, hlo, hhi, (MultipleOf.multipleOfEngine_accepts hmultiple
      (MultipleOf.jsonInteger_of_canonical hu)).1 hmul⟩
  · rintro ⟨hu, hlo, hhi, hdvd⟩
    exact ⟨⟨hu, hlo, hhi⟩, (MultipleOf.multipleOfEngine_accepts hmultiple
      (MultipleOf.jsonInteger_of_canonical hu)).2 hdvd⟩

theorem compileStringEnum_builds {values : LitSlice} {lits : List ScalarLit} (hlits : w.litsAt values = some lits) :
    Builds {text | ∃ s, .str s ∈ lits ∧ ∃ body, text = 0x22 :: (body ++ [0x22]) ∧ Spelling body s.chars}
    (compileStringEnum w values) := by
  refine builds_need hlits (.ofExcept fun e he => ?_)
  rw [lang_stringSet he]
  ext u
  constructor
  · rintro ⟨body, text, rfl, hspell, htext⟩
    obtain ⟨lit, hlit, hchars⟩ := List.mem_filterMap.1 htext
    cases lit with
    | str s =>
      cases hchars
      exact ⟨s, hlit, body, rfl, hspell⟩
    | null | bool | int | json => cases hchars
  · rintro ⟨s, hs, body, rfl, hspell⟩
    exact ⟨body, s.chars, rfl, hspell, List.mem_filterMap.2 ⟨.str s, hs, rfl⟩⟩

/-! ### Nodes -/

section
variable (w P)

/-- The spellings of what stands in front of a node. -/
def spellingBelow (i : ℕ) (child : NodeId) : Language Byte := if child.toNat < i then spelling w P child.toNat else 0

end

theorem spelling_of {i : ℕ} {node : Node} (h : w.nodes[i]? = some node) :
    spelling w P i = node.spelling w P (spellingBelow w P i) := by
  rw [spelling, h]
  rfl

theorem refsAt_branches {childOk : NodeId → Bool} {range empty edge : String} {branches : RefSlice}
    (h : validateBranches w childOk range empty edge branches = .ok ()) :
    w.refsAt branches = some (branchRefs w branches) := by
  obtain ⟨⟨ids, hids, -⟩, -⟩ := validateBranches_ok h
  rw [branchRefs, hids, Option.getD_some]

theorem counts_eq (min : UInt32) (max : Option UInt32) :
    counts min max = {n | min.toNat ≤ n ∧ ∀ m, max.map UInt32.toNat = some m → n ≤ m} := by
  ext n
  simp [counts, Option.map_eq_some_iff]

/-- **A regular node is compiled to its spellings.** -/
theorem compileUnwrapped_builds (hw : Validated env w) (hP : Covers P w) (hb : Determinizes P builder) :
    ∀ (depth : ℕ) (id : NodeId) {route : NodeRoute},
    (pass w).out id.toNat = some route → route.kind = .regular →
    Builds (spelling w P id.toNat) (compileUnwrapped w builder depth id)
  | 0, _, _, _, _ => .ofOption fun _ h => by cases h
  | depth + 1, id, route, hout, hk => by
    obtain ⟨node, hnode, cost, hlocal⟩ := pass_regular hout hk
    obtain ⟨-, hvalid⟩ := hw.nodes id.toNat node hnode
    obtain ⟨hruns, hback⟩ := validateNode_ok hvalid
    have hchild : ∀ c ∈ forEachChild w (some node), c ∈ checkedRefs w node →
      Builds (spellingBelow w P id.toNat c) (compileUnwrapped w builder depth c) := by
      intro c hc hcr
      have hkid : c.toNat ∈ kidsOf w id.toNat := by
        rw [kidsOf, hnode]
        exact List.mem_map_of_mem hc
      obtain ⟨-, route', hout', hk'⟩ := regular_reach hout hk (.single hkid)
      rw [spellingBelow, if_pos (hback c hcr)]
      exact compileUnwrapped_builds hw hP hb depth c hout' hk'
    have htext : usesDirectCompilation w node = false →
      Builds (node.spelling w P (spellingBelow w P id.toNat)) (compileText w builder id) := fun hdirect => by
      exact (leafText_gives hP hnode hvalid hlocal hdirect _).bind fun text htext => regexEngine_builds hb htext.one
    rw [compileUnwrapped, spelling_of hnode]
    refine builds_need hnode ?_
    cases node with
    | integer minimum maximum multipleOf =>
      cases multipleOf with
      | none => exact htext rfl
      | some modulus =>
        simp only [validateNode, bind_eq_ok, check_ok] at hvalid
        obtain ⟨-, hbounds, -⟩ := hvalid
        refine (compileIntegerMultiple_builds hb (ordered_le hbounds)).mono fun e he => he.trans ?_
        ext u
        constructor
        · rintro ⟨hu, hlo, hhi, hdvd⟩
          exact ⟨hu, hlo, hhi, fun m hm => Option.some.inj hm ▸ hdvd⟩
        · rintro ⟨hu, hlo, hhi, hdvd⟩
          exact ⟨hu, hlo, hhi, hdvd _ rfl⟩
    | intersection branches =>
      exact compileIntersectionNode_builds (refsAt_branches hvalid) fun c hc => hchild c hc hc
    | exactlyOne branches =>
      exact compileExactlyOneNode_builds (refsAt_branches hvalid) fun c hc => hchild c hc hc
    | union branches =>
      exact compileUnionNode_builds (refsAt_branches hvalid) fun c hc => hchild c hc hc
    | enum values =>
      dsimp only
      split
      · rename_i hstrings
        obtain ⟨lits, hlits⟩ := hruns
        rw [allStrings, hlits, Option.any_some] at hstrings
        refine (compileStringEnum_builds hlits).mono fun e he => he.trans ?_
        have hspelling : ∀ child, Node.spelling w P child (.enum values) =
            {text | ∃ s, .str s ∈ (w.litsAt values).getD [] ∧ ∃ body, text = 0x22 :: (body ++ [0x22]) ∧
              Spelling body s.chars} := fun _ => if_pos (by
          rw [hlits, Option.getD_some, hstrings])
        rw [hspelling, hlits, Option.getD_some]
      · rename_i hmixed
        exact htext (Bool.eq_false_of_not_eq_true hmixed)
    | object fields required closure dependent dependentRequired =>
      dsimp only
      rw [if_pos (noDependents_of_regular hruns hlocal)]
      obtain ⟨⟨properties, hproperties, hnames⟩, -⟩ := hruns
      have hprops : (w.propsAt fields).getD [] = properties := by rw [hproperties, Option.getD_some]
      subst hprops
      refine compileObjectNode_builds hb hproperties hnames fun f hf => ?_
      have hc : f.2 ∈ propRefs w fields := List.mem_map_of_mem hf
      exact hchild f.2 (List.mem_append_left _ hc) (List.mem_append_left _ hc)
    | array items minItems maxItems uniqueItems contains itemsAnnotates =>
      obtain ⟨⟨item, rfl⟩, rfl, rfl⟩ := array_of_regular hlocal
      simp only [validateNode, bind_eq_ok, check_ok] at hvalid
      obtain ⟨-, -, hbounds⟩ := hvalid
      refine (compileArrayNode_builds hb (hchild item (List.mem_append_left _ (List.mem_singleton_self _))
        (List.mem_singleton_self _))
        minItems.toNat_lt (ordered_nat hbounds)).mono fun e he => he.trans ?_
      show _ = enclosed 0x5b 0x5d (series comma _ (counts minItems maxItems))
      rw [counts_eq]
    | tuple prefixes tail minItems maxItems uniqueItems tailAnnotates contains =>
      obtain ⟨rfl, rfl⟩ := tuple_of_regular hlocal
      simp only [validateNode, bind_eq_ok, fetch_ok, check_ok, Bool.not_eq_true'] at hvalid
      obtain ⟨ids, hids, -, hne, -⟩ := hvalid
      have hrefs : branchRefs w prefixes = ids := by rw [branchRefs, hids, Option.getD_some]
      subst hrefs
      refine (compileTupleNode_builds hb hids (by simpa using hne) fun c hc =>
        hchild c (List.mem_append_left _ hc) hc).mono fun e he => he.trans ?_
      show _ = enclosed 0x5b 0x5d (series comma _ {n | n ∈ counts minItems maxItems ∧
        (tail = none → n ≤ (branchRefs w prefixes).length)})
      rw [counts_eq]
      rfl
    | null | boolean | never | stringConst | stringPattern | number | lexicalNumber => exact htext rfl
    | openObject | not | ref | dynamicRef | unevaluated | unsupported => cases hlocal

/-- **Regular compilation is exact**: the engine of a regular node accepts the node's spellings with white space
around them. -/
theorem compileNode_exact (w : SchemaIRWire) (env : Externals) (P : Patterns) {σ : Type} [DecidableEq σ]
    (builder : List Char → Except BuildError (DenseDfa σ)) (hvalid : validate env w = .ok ()) (hP : Covers P w)
    (hb : Determinizes P builder) (id : NodeId) (route : NodeRoute)
    (hroute : (analyze w)[id.toNat]? = some route) (hk : route.kind = .regular)
    (e : RefEngine) (h : (compileNode w builder id).run = some (.ok e)) :
    ∀ text, e.accepts text = true ↔ text ∈ spaces * (spelling w P id.toNat * spaces) := by
  have hw := validate_ok hvalid
  have hout := getElem_analyze hroute
  obtain ⟨node, hnode, cost, hlocal⟩ := pass_regular hout hk
  obtain ⟨-, hvalid⟩ := hw.nodes id.toNat node hnode
  have hbuilds : Builds (spaces * (spelling w P id.toNat * spaces)) (compileNode w builder id) := by
    refine builds_need hnode ?_
    split
    · refine (compileUnwrapped_builds hw hP hb w.nodes.length id hout hk).bind fun body hbody => ?_
      rw [← hbody]
      exact surroundEngine_builds hb jsonWsRe_stands.one jsonWsRe_stands.one
    · rename_i hmixed
      have hdirect := Bool.eq_false_of_not_eq_true hmixed
      rw [spelling_of hnode]
      refine (leafText_gives hP hnode hvalid hlocal hdirect (spellingBelow w P id.toNat)).bind fun text htext => ?_
      rw [← mul_assoc]
      exact regexEngine_builds hb ((jsonWsRe_stands.append htext).append jsonWsRe_stands).one
  intro text
  rw [← hbuilds e h]
  exact RefEngine.mem_lang.symm

end

/-- A library that builds white space and nothing else. -/
def blankDfa : DenseDfa Nat where
  byteClass b := if b = 0x20 ∨ b = 0x09 ∨ b = 0x0a ∨ b = 0x0d then 0 else 1
  start := some 0
  next s b := if s = 0 ∧ (b = 0x20 ∨ b = 0x09 ∨ b = 0x0a ∨ b = 0x0d) then 0 else 1
  nextEoi s := if s = 0 then 2 else 1
  isDead s := decide (s = 1)
  isQuit _ := false
  isMatch s := decide (s = 2)

def blankBuilder (pattern : List Char) : Except BuildError (DenseDfa Nat) :=
  if pattern = jsonWsRe then .ok blankDfa else .error ⟨false, false⟩

theorem blankBuilder_determinizes : Determinizes unread blankBuilder := by
  intro s L d hs hd
  unfold blankBuilder at hd
  split at hd
  · rename_i hblank
    subst hblank
    cases hd
    have hunique : ∀ {M}, Alternatives unread jsonWsRe M → M = _ := fun h => classStar_unique
      (s := ['\\', 'x', '2', '0', '\\', 'x', '0', '9', '\\', 'x', '0', 'A', '\\', 'x', '0', 'D'])
      (r := [(0x20, 0x20), (0x09, 0x09), (0x0a, 0x0a), (0x0d, 0x0d)]) (by decide) (by decide) (by decide) (by decide) h
    have hL : L = spaces := (hunique hs).trans (hunique jsonWsRe_stands.one).symm
    rw [hL]
    refine ⟨⟨fun s a b hab => ?_, fun s b hs => ?_, fun s hs => ?_⟩, fun w => ?_⟩
    · have hiff : (a = 0x20 ∨ a = 0x09 ∨ a = 0x0a ∨ a = 0x0d) ↔ (b = 0x20 ∨ b = 0x09 ∨ b = 0x0a ∨ b = 0x0d) := by
        simp only [blankDfa] at hab
        split at hab <;> split at hab <;> simp_all
      simp only [blankDfa, hiff]
    · simp only [blankDfa, decide_eq_true_eq] at hs ⊢
      simp [hs]
    · simp only [blankDfa, decide_eq_true_eq] at hs ⊢
      simp [hs]
    · have hdead : ∀ u : List Byte, u.foldl blankDfa.next 1 = 1 := fun u => by
        induction u with
        | nil => rfl
        | cons b u ih => exact ih
      show blankDfa.isMatch (blankDfa.nextEoi (w.foldl blankDfa.next 0)) = true ↔ ∀ b ∈ w, IsWhitespace b
      induction w with
      | nil => simp [blankDfa]
      | cons b w ih =>
        rw [List.foldl_cons, List.forall_mem_cons]
        by_cases hblank : IsWhitespace b
        · have hstep : blankDfa.next 0 b = 0 := if_pos ⟨rfl, hblank⟩
          rw [hstep, ih, and_iff_right hblank]
        · have hstep : blankDfa.next 0 b = 1 := if_neg fun h => hblank h.2
          rw [hstep, hdead]
          exact iff_of_false (by decide) fun h => hblank h.1
  · cases hd

/-- The arena of an enum of one letter. -/
def letterArena : SchemaIRWire := { loneArena (.enum ⟨0, 1⟩) with literals := [.str ⟨[0x61], rfl⟩] }

/-- A letter in quotes is a spelling of itself, behind white space too. -/
theorem compileNode_exact_letter :
    ∃ e, (compileNode letterArena blankBuilder 0).run = some (.ok e) ∧ e.accepts [0x20, 0x22, 0x61, 0x22] = true := by
  have hsome : ((compileNode letterArena blankBuilder 0).run.bind Except.toOption).isSome = true := by
    simp only [compileNode, surroundEngine, concatEngine, concatenate, ByteNfa.determinize, ByteNfa.subsets,
      epsilonClosure_eq]
    decide +kernel
  obtain ⟨e, he⟩ := Option.isSome_iff_exists.1 hsome
  obtain ⟨x, hx, hxe⟩ := Option.bind_eq_some_iff.1 he
  cases x with
  | error err => cases hxe
  | ok engine =>
    have hcovers : Covers unread letterArena := by
      refine ⟨fun i regex minLen maxLen charset h => ?_, fun i regex h => ?_⟩
      all_goals
        cases i with
        | zero => cases h
        | succ i => cases h
    obtain ⟨route, hout⟩ := (pass_total letterArena).2 0 (by decide)
    have hroute : (analyze letterArena)[0]? = some route := by
      rw [analyze, List.getElem?_map, List.getElem?_range (by decide), Option.map_some, hout, Option.getD_some]
    have hkind : route.kind = .regular := by
      obtain ⟨view, rfl⟩ := pass_value hout
      rfl
    have hletter : [0x22, 0x61, 0x22] ∈ spelling letterArena unread 0 := by
      have hnode : letterArena.nodes[0]? = some (.enum ⟨0, 1⟩) := rfl
      rw [spelling_of hnode]
      exact ⟨⟨[0x61], rfl⟩, List.mem_singleton_self _, [0x61], rfl,
        (JsonStringDecoder.feed_iff_spelling _ _).1 ⟨_, rfl, rfl⟩⟩
    refine ⟨engine, hx, (compileNode_exact letterArena plainExternals unread blankBuilder rfl hcovers
      blankBuilder_determinizes 0 route hroute hkind engine hx _).2 ?_⟩
    refine Language.append_mem_mul (a := [0x20]) (b := [0x22, 0x61, 0x22])
      (fun b hb => .inl (List.mem_singleton.1 hb)) ?_
    exact Language.append_mem_mul (b := []) hletter fun b hb => absurd hb List.not_mem_nil

end Ir
end MaskForge
