import Mathlib
/-!
# CycleMarks — a depth-first search that marks what lies on a cycle

The search keeps the nodes it is inside of in a stack.  A node met again while inside it closes a cycle, and the stack
is marked from that node on.  A node left unmarked is settled, and nothing marked or settled is searched again.  A
settled node may therefore lie on a cycle, but no cycle is made of settled nodes alone.
-/
namespace CycleMarks

variable {α ε : Type}

/-! ## Closed walks -/

/-- Each node leads to the next, the last back to the first. -/
def Cyclic (R : α → α → Prop) : List α → Prop
  | [] => False
  | a :: walk => (a :: (walk ++ [a])).IsChain R

/-- Every node of a closed walk leads back to itself. -/
theorem Cyclic.returns {R : α → α → Prop} : ∀ {c : List α}, Cyclic R c → ∀ a ∈ c, Relation.TransGen R a a
  | a :: walk, h => by
    have hp : (a :: (walk ++ [a])).Pairwise (Relation.TransGen R) :=
      List.isChain_iff_pairwise.1 (List.IsChain.imp (fun _ _ => Relation.TransGen.single) h)
    rw [List.pairwise_cons, List.pairwise_append] at hp
    obtain ⟨hout, -, -, hin⟩ := hp
    intro b hb
    rcases List.mem_cons.1 hb with rfl | hb
    · exact hout b (by simp)
    · exact (hin b hb a (by simp)).trans (hout b (by simp [hb]))

theorem Cyclic.mono {R S : α → α → Prop} (hRS : ∀ a b, R a b → S a b) : ∀ {c : List α}, Cyclic R c → Cyclic S c
  | _ :: _, h => List.IsChain.imp (fun a b => hRS a b) h

/-! ## The search -/

/-- What the search knows of a node: nothing, that it is settled (`false`), or that it is marked (`true`). -/
abbrev Memo (α : Type) := α → Option Bool

variable [DecidableEq α]

def Memo.mark (memo : Memo α) (nodes : List α) : Memo α := fun a => if a ∈ nodes then some true else memo a

/-- A node marked already stays marked. -/
def Memo.settle (memo : Memo α) (node : α) : Memo α := fun a => if a = node then some ((memo a).getD false) else memo a

def visit (next : α → Except ε (List α)) (exhausted : ε) : Nat → Memo α → List α → α → Except ε (Memo α)
  | fuel, memo, stack, node =>
    if (memo node).isSome then .ok memo
    else if node ∈ stack then .ok (memo.mark (stack.dropWhile fun a => !decide (a = node)))
    else
      match fuel with
      | 0 => .error exhausted
      | fuel + 1 => do
        let nodes ← next node
        let memo ← nodes.foldlM (fun memo a => visit next exhausted fuel memo (stack ++ [node]) a) memo
        return memo.settle node

def Leads (next : α → Except ε (List α)) (a b : α) : Prop := ∃ nodes, next a = .ok nodes ∧ b ∈ nodes

/-- What is known while the search is inside the nodes of `stack`. -/
structure Inv (next : α → Except ε (List α)) (memo : Memo α) (stack : List α) : Prop where
  /-- A settled node leads to marked nodes, and to nodes settled before it. -/
  settled : ∃ rank : α → Nat, ∀ a, memo a = some false → ∀ b, Leads next a b →
    memo b = some true ∨ (memo b = some false ∧ rank b < rank a)
  marked : ∀ a, memo a = some true → Relation.TransGen (Leads next) a a
  inside : ∀ a ∈ stack, memo a ≠ some false
  /-- A known node that is searched to its end leads to known nodes. -/
  closed : ∀ a, memo a ≠ none → a ∉ stack → ∀ b, Leads next a b → memo b ≠ none

variable {next : α → Except ε (List α)} {exhausted : ε} {memo memo' : Memo α} {stack : List α} {node : α}

theorem Memo.mark_of_mem {nodes : List α} {a : α} (h : a ∈ nodes) : memo.mark nodes a = some true := if_pos h

theorem Memo.mark_of_not_mem {nodes : List α} {a : α} (h : a ∉ nodes) : memo.mark nodes a = memo a := if_neg h

theorem Memo.mark_known {nodes : List α} {a : α} (h : memo a ≠ none) : memo.mark nodes a ≠ none := by
  by_cases ha : a ∈ nodes
  · rw [Memo.mark_of_mem ha]
    exact Option.some_ne_none _
  · rwa [Memo.mark_of_not_mem ha]

theorem Memo.settle_self : memo.settle node node = some ((memo node).getD false) := if_pos rfl

theorem Memo.settle_ne {a : α} (h : a ≠ node) : memo.settle node a = memo a := if_neg h

theorem Memo.settle_known {a : α} (h : memo a ≠ none) : memo.settle node a ≠ none := by
  by_cases ha : a = node
  · rw [ha, Memo.settle_self]
    exact Option.some_ne_none _
  · rwa [Memo.settle_ne ha]

omit [DecidableEq α] in
theorem Inv.empty : Inv next (fun _ => none) [] :=
  ⟨⟨fun _ => 0, by simp⟩, by simp, by simp, by simp⟩

/-- The part of the stack that is marked is the cycle that was closed. -/
theorem cyclic_dropWhile {R : α → α → Prop} (hpath : (stack ++ [node]).IsChain R) (hn : node ∈ stack) :
    Cyclic R (stack.dropWhile fun a => !decide (a = node)) := by
  obtain ⟨pre, post, rfl, hpre⟩ := List.eq_append_cons_of_mem hn
  rw [List.dropWhile_append_of_pos fun a ha => by simpa using fun h : a = node => hpre (h ▸ ha)]
  simp only [List.dropWhile_cons, decide_true, Bool.not_true, Bool.false_eq_true, if_false]
  rw [List.append_assoc] at hpath
  exact hpath.right_of_append

theorem Inv.close (h : Inv next memo stack) (hpath : (stack ++ [node]).IsChain (Leads next)) (hn : node ∈ stack) :
    Inv next (memo.mark (stack.dropWhile fun a => !decide (a = node))) stack := by
  have hsub : ∀ a ∈ stack.dropWhile fun a => !decide (a = node), a ∈ stack :=
    fun a ha => (List.dropWhile_suffix _).subset ha
  have hcycle := cyclic_dropWhile hpath hn
  generalize (stack.dropWhile fun a => !decide (a = node)) = part at hsub hcycle ⊢
  obtain ⟨rank, hrank⟩ := h.settled
  refine ⟨⟨rank, fun a ha b hab => ?_⟩, fun a ha => ?_, fun a ha => ?_, fun a ha hout b hab => ?_⟩
  · by_cases hpa : a ∈ part
    · rw [Memo.mark_of_mem hpa] at ha
      cases ha
    · rw [Memo.mark_of_not_mem hpa] at ha
      by_cases hpb : b ∈ part
      · exact .inl (Memo.mark_of_mem hpb)
      · rw [Memo.mark_of_not_mem hpb]
        exact hrank a ha b hab
  · by_cases hpa : a ∈ part
    · exact hcycle.returns a hpa
    · rw [Memo.mark_of_not_mem hpa] at ha
      exact h.marked a ha
  · by_cases hpa : a ∈ part
    · rw [Memo.mark_of_mem hpa]
      simp
    · rw [Memo.mark_of_not_mem hpa]
      exact h.inside a ha
  · rw [Memo.mark_of_not_mem fun hpa => hout (hsub a hpa)] at ha
    exact Memo.mark_known (h.closed a ha hout b hab)

/-- A node all of whose successors are known is settled after them. -/
theorem Inv.settle {nodes : List α} (h : Inv next memo (stack ++ [node])) (hn : node ∉ stack)
    (hnext : next node = .ok nodes) (hknown : ∀ b ∈ nodes, memo b ≠ none) : Inv next (memo.settle node) stack := by
  obtain ⟨rank, hrank⟩ := h.settled
  have hself : memo node = none ∨ memo node = some true := by
    have hin := h.inside node (by simp)
    rcases hm : memo node with _ | _ | _ <;> simp_all
  refine ⟨⟨fun a => if a = node then (nodes.map rank).sum + 1 else rank a, fun a ha b hab => ?_⟩, fun a ha => ?_,
    fun a ha => ?_,
    fun a ha hout b hab => Memo.settle_known ?_⟩
  · by_cases hb : b = node
    · subst hb
      -- whoever leads to the node is not settled before it
      rcases hself with hself | hself
      · have hab' : a = b := by
          by_contra hne
          rw [Memo.settle_ne hne] at ha
          rcases hrank a ha b hab with h | ⟨h, -⟩ <;> rw [hself] at h <;> cases h
        subst hab'
        obtain ⟨nodes', hnext', hmem⟩ := hab
        cases hnext.symm.trans hnext'
        exact absurd hself (hknown a hmem)
      · exact .inl (by rw [Memo.settle_self, hself]; rfl)
    · rw [Memo.settle_ne hb]
      simp only [if_neg hb]
      by_cases hane : a = node
      · subst hane
        obtain ⟨nodes', hnext', hmem⟩ := hab
        cases hnext.symm.trans hnext'
        rw [if_pos rfl]
        have hle : rank b ≤ (nodes.map rank).sum := List.le_sum_of_mem (List.mem_map_of_mem hmem)
        rcases hm : memo b with _ | _ | _
        · exact absurd hm (hknown b hmem)
        · exact .inr ⟨rfl, by omega⟩
        · exact .inl rfl
      · rw [Memo.settle_ne hane] at ha
        rw [if_neg hane]
        exact hrank a ha b hab
  · by_cases hane : a = node
    · subst hane
      rw [Memo.settle_self] at ha
      rcases hself with hself | hself
      · rw [hself] at ha
        cases ha
      · exact h.marked a hself
    · rw [Memo.settle_ne hane] at ha
      exact h.marked a ha
  · have hne : a ≠ node := by
      rintro rfl
      exact hn ha
    rw [Memo.settle_ne hne]
    exact h.inside a (List.mem_append_left _ ha)
  · by_cases hane : a = node
    · subst hane
      obtain ⟨nodes', hnext', hmem⟩ := hab
      cases hnext.symm.trans hnext'
      exact hknown b hmem
    · rw [Memo.settle_ne hane] at ha
      exact h.closed a ha (by simp [hout, hane]) b hab

/-- What a search keeps and adds. -/
structure Searched (next : α → Except ε (List α)) (stack nodes : List α) (memo memo' : Memo α) : Prop where
  inv : Inv next memo' stack
  keeps : ∀ a b, memo a = some b → memo' a = some b
  known : ∀ a ∈ nodes, memo' a ≠ none
  /-- Whoever has been searched and leads back into the stack has closed a cycle there. -/
  returns : ∀ top ∈ stack, ∀ a, memo a = none → memo' a ≠ none → a ∉ stack → Leads next a top → memo' top = some true

omit [DecidableEq α] in
theorem searched_all (f : Memo α → α → Except ε (Memo α)) :
    ∀ (nodes : List α) {memo memo' : Memo α}, Inv next memo stack →
    (∀ a ∈ nodes, ∀ memo memo', Inv next memo stack → f memo a = .ok memo' → Searched next stack [a] memo memo') →
    nodes.foldlM f memo = .ok memo' → Searched next stack nodes memo memo'
  | [], memo, memo', hi, _, h => by
    cases h
    exact ⟨hi, fun _ _ h => h, by simp, fun _ _ _ hnew hknown => absurd hnew hknown⟩
  | a :: nodes, memo, memo', hi, hf, h => by
    rw [List.foldlM_cons] at h
    cases hfa : f memo a with
    | error e => rw [hfa] at h; cases h
    | ok memo₁ =>
      rw [hfa] at h
      have hone := hf a (by simp) memo memo₁ hi hfa
      have hall := searched_all f nodes hone.inv (fun b hb => hf b (by simp [hb])) h
      refine ⟨hall.inv, fun b v hb => hall.keeps b v (hone.keeps b v hb), fun b hb => ?_,
        fun top htop b hnew hknown hout hleads => ?_⟩
      · rcases List.mem_cons.1 hb with rfl | hb
        · obtain ⟨v, hv⟩ := Option.ne_none_iff_exists'.1 (hone.known b (by simp))
          rw [hall.keeps b v hv]
          simp
        · exact hall.known b hb
      · by_cases hb : memo₁ b = none
        · exact hall.returns top htop b hb hknown hout hleads
        · exact hall.keeps top true (hone.returns top htop b hnew hb hout hleads)

/-- A node that is new is searched: its successors one after the other. -/
theorem visit_new {fuel : Nat} (hnew : memo node = none) (hout : node ∉ stack)
    (h : visit next exhausted fuel memo stack node = .ok memo') :
    ∃ f nodes memo₁, fuel = f + 1 ∧ next node = .ok nodes ∧
      nodes.foldlM (fun memo a => visit next exhausted f memo (stack ++ [node]) a) memo = .ok memo₁ ∧
      memo' = memo₁.settle node := by
  unfold visit at h
  rw [if_neg (by simp [hnew]), if_neg hout] at h
  cases fuel with
  | zero => cases h
  | succ fuel =>
    cases hnext : next node with
    | error e => simp [hnext, bind, Except.bind] at h
    | ok nodes =>
      cases hall : nodes.foldlM (fun memo a => visit next exhausted fuel memo (stack ++ [node]) a) memo with
      | error e => simp [hnext, hall, bind, Except.bind] at h
      | ok memo₁ =>
        simp only [hnext, hall, bind, Except.bind, pure, Except.pure, Except.ok.injEq] at h
        exact ⟨fuel, nodes, memo₁, rfl, rfl, hall, h.symm⟩

omit [DecidableEq α] in
/-- The search goes inside a node that is new. -/
theorem Inv.enter (h : Inv next memo stack) (hnew : memo node = none) : Inv next memo (stack ++ [node]) := by
  refine ⟨h.settled, h.marked, fun a ha => ?_, fun a ha hout => h.closed a ha fun hin =>
    hout (List.mem_append_left _ hin)⟩
  rcases List.mem_append.1 ha with ha | ha
  · exact h.inside a ha
  · rw [List.mem_singleton.1 ha, hnew]
    simp

omit [DecidableEq α] in
/-- A node the search is inside of is marked as soon as it is known. -/
theorem Inv.inside_known {a : α} (h : Inv next memo stack) (ha : a ∈ stack) (hknown : memo a ≠ none) :
    memo a = some true := by
  have hin := h.inside a ha
  rcases hm : memo a with _ | _ | _ <;> simp_all

/-- **One visit keeps what is known and comes to know its node.** -/
theorem visit_searched : ∀ (fuel : Nat) {memo memo' : Memo α} {stack : List α} {node : α}, Inv next memo stack →
    (stack ++ [node]).IsChain (Leads next) → visit next exhausted fuel memo stack node = .ok memo' →
    Searched next stack [node] memo memo'
  | fuel, memo, memo', stack, node, hi, hpath, h => by
    by_cases hnew : memo node = none
    · by_cases hin : node ∈ stack
      · unfold visit at h
        rw [if_neg (by simp [hnew]), if_pos hin] at h
        cases h
        have hsub : ∀ a ∈ stack.dropWhile fun a => !decide (a = node), a ∈ stack :=
          fun a ha => (List.dropWhile_suffix _).subset ha
        refine ⟨hi.close hpath hin, fun a b hab => ?_, ?_, fun top _ a hnone hknown hout _ => ?_⟩
        · by_cases ha : a ∈ stack.dropWhile fun a => !decide (a = node)
          · rw [Memo.mark_of_mem ha, ← hab]
            exact (hi.inside_known (hsub a ha) (by simp [hab])).symm
          · rw [Memo.mark_of_not_mem ha, hab]
        · obtain ⟨pre, post, rfl, hpre⟩ := List.eq_append_cons_of_mem hin
          rw [List.dropWhile_append_of_pos fun a ha => by simpa using fun h : a = node => hpre (h ▸ ha)]
          simp [Memo.mark]
        · exact absurd ((Memo.mark_of_not_mem fun ha => hout (hsub a ha)).trans hnone) hknown
      · obtain ⟨fuel, nodes, memo₁, rfl, hnext, hall, rfl⟩ := visit_new hnew hin h
        have hs := searched_all _ nodes (hi.enter hnew) (fun a ha memo memo' hi' h' =>
          visit_searched fuel hi' (List.isChain_append.2 ⟨hpath, by simp, by simpa using ⟨nodes, hnext, ha⟩⟩) h') hall
        refine ⟨hs.inv.settle hin hnext hs.known, fun a b hab => ?_, by simp [Memo.settle],
          fun top htop a hnone hknown hout hleads => ?_⟩
        · rw [Memo.settle_ne fun h => by rw [h, hnew] at hab; cases hab]
          exact hs.keeps a b hab
        · have htop' : top ∈ stack ++ [node] := List.mem_append_left _ htop
          have hne : top ≠ node := fun h => hin (h ▸ htop)
          rw [Memo.settle_ne hne]
          by_cases ha : a = node
          · subst ha
            obtain ⟨nodes', hnext', hmem⟩ := hleads
            cases hnext.symm.trans hnext'
            exact hs.inv.inside_known htop' (hs.known top hmem)
          · rw [Memo.settle_ne ha] at hknown
            exact hs.returns top htop' a hnone hknown (by simp [hout, ha]) hleads
    · unfold visit at h
      rw [if_pos (by simpa [Option.isSome_iff_ne_none] using hnew)] at h
      cases h
      exact ⟨hi, fun _ _ h => h, by simpa using hnew, fun _ _ _ hnone hknown => absurd hnone hknown⟩

omit [DecidableEq α] in
/-- Whatever a known node leads to is known. -/
theorem Inv.reaches_known {a b : α} (h : Inv next memo []) (ha : memo a ≠ none)
    (hab : Relation.ReflTransGen (Leads next) a b) :
    memo b ≠ none := by
  induction hab with
  | refl => exact ha
  | tail _ hlead ih => exact h.closed _ ih List.not_mem_nil _ hlead

/-- **A new node that is asked about itself is marked if it lies on a cycle.** -/
theorem visit_fresh {fuel : Nat} (hi : Inv next memo []) (hnew : memo node = none)
    (hcycle : Relation.TransGen (Leads next) node node) (h : visit next exhausted fuel memo [] node = .ok memo') :
    memo' node = some true := by
  have hafter := visit_searched fuel hi (by simp) h
  obtain ⟨fuel, nodes, memo₁, rfl, hnext, hall, rfl⟩ := visit_new hnew List.not_mem_nil h
  have hs : Searched next [node] nodes memo memo₁ := searched_all _ nodes (hi.enter hnew) (fun a ha memo memo' hi' h' =>
    visit_searched fuel hi' (List.isChain_pair.2 ⟨nodes, hnext, ha⟩) h') hall
  obtain ⟨last, hreach, hback⟩ := Relation.TransGen.tail'_iff.1 hcycle
  have hmarked : memo₁ node = some true := by
    by_cases hlast : last = node
    · subst hlast
      obtain ⟨nodes', hnext', hmem⟩ := hback
      cases hnext.symm.trans hnext'
      exact hs.inv.inside_known (List.mem_singleton_self _) (hs.known last hmem)
    · have hnone : memo last = none := by
        by_contra hknown
        exact hi.closed last hknown List.not_mem_nil node hback hnew
      have hknown : memo₁ last ≠ none := by
        have hknown := hafter.inv.reaches_known (hafter.known node (List.mem_singleton_self _)) hreach
        rwa [Memo.settle_ne hlast] at hknown
      exact hs.returns node (List.mem_singleton_self _) last hnone hknown (by simp [hlast]) hback
  rw [Memo.settle_self, hmarked]
  rfl

end CycleMarks
