import MaskForge.Structured.CanonicalDenotes
import MaskForge.Structured.CanonicalUndo
/-!
# CanonicalIdentity — hashing and comparing nodes

Both loops go over a stack of their own and read nothing but the arena.  What is written to the hasher is a function of
the value, and two nodes are found equal exactly when they stand for the same value.  Neither loop can get stuck.
-/
namespace MaskForge

open CanonicalValue (countItems)

namespace CanonicalValue

mutual

/-- What is written to the hasher for a value. -/
def hashOf : CanonicalValue → List HashWrite
  | .null => [.tag 0]
  | .bool b => [.tag 1, .bool b]
  | .number form => [.tag 2, .bool form.negative, .bool form.expNegative, .bytes form.expDigits, .bytes form.digits]
  | .string text => [.tag 3, .bytes text]
  | .array items => [.tag 4, .len items.length] ++ hashItems items
  | .object keys values => [.tag 5, .len keys.length] ++ keys.reverse.map .bytes ++ hashItems values

def hashItems : List CanonicalValue → List HashWrite
  | [] => []
  | v :: vs => v.hashOf ++ hashItems vs

end

theorem hashItems_append (us vs : List CanonicalValue) : hashItems (us ++ vs) = hashItems us ++ hashItems vs := by
  induction us with
  | nil => rfl
  | cons u us ih => rw [List.cons_append, hashItems, hashItems, ih, List.append_assoc]

end CanonicalValue

open CanonicalValue (hashItems)

namespace Building

open Attempt (Ends)

variable {μ : Type} {room : Room μ} {hasher : List HashWrite → UInt64} {budget : Nat} {s t : CanonicalSet μ}

/-- Only the memory is different. -/
def SameContents (s t : CanonicalSet μ) : Prop := contents t = contents s

theorem SameContents.arena (h : SameContents s t) : t.arena = s.arena := congrArg Prod.fst h

theorem SameContents.buckets (h : SameContents s t) : t.buckets = s.buckets := congrArg (fun c => c.2.1) h

theorem ask_same {α : Type} {x : Attempt μ RoomError α}
    (hx : ∀ (m : μ) (r : RoomError), (x m).1 = .error r → room.Refuses (.limit r.kind r.observed r.limit)) :
    Ends (ask x) s (fun _ t => SameContents s t) fun e _ => room.Refuses e := by
  refine .of (fun a t h => ?_) fun e t h => ?_
  · have ht : t = { s with mem := (x s.mem).2 } := (congrArg Prod.snd h).symm
    rw [ht]
    exact rfl
  have he := congrArg Prod.fst h
  rw [ask] at he
  dsimp only at he
  split at he
  · cases he
  · rename_i r hr
    cases he
    exact hx _ r hr

theorem grow_same (store : Store) (len additional : Nat) :
    Ends (ask (room.grow store budget len additional)) s (fun _ t => SameContents s t) fun e _ => room.Refuses e :=
  ask_same fun m r h => ⟨r, m, rfl, .inr (.inl ⟨_, _, _, _, h⟩)⟩

theorem pushEach_same {α : Type} (store : Store) : ∀ (items stack : List α) (s : CanonicalSet μ),
    Ends (pushEach room budget store items stack) s (fun out t => out = items.reverse ++ stack ∧ SameContents s t)
    fun e _ => room.Refuses e
  | [], _, _ => .pure ⟨rfl, rfl⟩
  | x :: items, stack, s => by
    refine .seq (grow_same store _ _) (fun _ _ h => h) fun _ t ht => ?_
    refine (pushEach_same store items (x :: stack) t).mono (fun out u hu => ⟨?_, hu.2.trans ht⟩) fun _ _ h => h
    rw [hu.1, List.reverse_cons, List.append_assoc]
    rfl

/-- A node of the arena that stands for a value. -/
def Stands (s : CanonicalSet μ) (id : CanonicalId) (v : CanonicalValue) : Prop := ∃ depth, s.arena.Denotes depth id v

theorem stands_of {depth : Nat} {ids : List CanonicalId} {vs : List CanonicalValue}
    (h : List.Forall₂ (s.arena.Denotes depth) ids vs) :
    List.Forall₂ (Stands s) ids vs := h.imp fun _ _ hd => ⟨depth, hd⟩

theorem SameContents.stands (h : SameContents s t) {id : CanonicalId} {v : CanonicalValue} (hs : Stands s id v) :
    Stands t id v := by
  obtain ⟨depth, hd⟩ := hs
  exact ⟨depth, h.arena ▸ hd⟩

/-- **Hashing writes what the values say**, in their order. -/
theorem hashLoop_writes :
    ∀ (fuel : Nat) (stack : List CanonicalId) (vs : List CanonicalValue) (writes : List HashWrite) (s : CanonicalSet μ),
    List.Forall₂ (Stands s) stack vs → countItems vs < fuel →
    Ends (hashLoop room budget fuel stack writes) s (fun out t => out = writes ++ hashItems vs ∧ SameContents s t)
    fun e _ => room.Refuses e
  | 0, _, _, _, _, _, hfuel => absurd hfuel (by omega)
  | fuel + 1, [], _, writes, s, .nil, _ => .pure ⟨(List.append_nil writes).symm, rfl⟩
  | fuel + 1, id :: stack, v :: vs, writes, s, .cons hid hstack, hfuel => by
    obtain ⟨depth, hdepth⟩ := hid
    cases depth with
    | zero => exact hdepth.elim
    | succ depth =>
    obtain ⟨node, hnode, hv⟩ := hdepth
    have hpos := v.count_pos
    rw [countItems] at hfuel
    rw [hashLoop]
    refine .bind (.get ?_)
    rw [hnode]
    -- a leaf, and what is inside of a container in front of the stack
    have hleaf : ∀ new : List HashWrite, new = v.hashOf → Ends (hashLoop room budget fuel stack (writes ++ new)) s
        (fun out t => out = writes ++ hashItems (v :: vs) ∧ SameContents s t) fun e _ => room.Refuses e := by
      rintro new rfl
      refine (hashLoop_writes fuel stack vs _ s hstack (by omega)).mono (fun out t h => ⟨?_, h.2⟩) fun _ _ h => h
      rw [h.1, hashItems, List.append_assoc]
    have hinner : ∀ (ids : List CanonicalId) (items : List CanonicalValue) (new : List HashWrite),
      List.Forall₂ (s.arena.Denotes depth) ids items →
        new ++ hashItems items = v.hashOf → countItems items < v.count →
        Ends (pushEach room budget .hashStack ids.reverse stack >>= fun stack =>
          hashLoop room budget fuel stack (writes ++ new)) s (fun out t => out = writes ++ hashItems (v :: vs) ∧
          SameContents s t) fun e _ => room.Refuses e := by
      intro ids items new hitems hnew hcount
      refine .seq (pushEach_same .hashStack _ _ s) (fun _ _ h => h) ?_
      rintro _ t ⟨rfl, ht⟩
      rw [List.reverse_reverse]
      have hall : List.Forall₂ (Stands t) (ids ++ stack) (items ++ vs) :=
        List.rel_append ((stands_of hitems).imp fun _ _ h => ht.stands h) (hstack.imp fun _ _ h => ht.stands h)
      refine (hashLoop_writes fuel _ _ _ t hall ?_).mono (fun out u h => ⟨?_, h.2.trans ht⟩) fun _ _ h => h
      · rw [CanonicalValue.countItems_append]
        omega
      · rw [h.1, CanonicalValue.hashItems_append, hashItems, ← hnew]
        simp only [List.append_assoc]
    cases node <;> cases v <;> (try exact hv.elim)
    case null.null => exact hleaf _ rfl
    case bool.bool => exact hleaf _ (by rw [show _ = _ from hv]; rfl)
    case number.number =>
      obtain ⟨hn, he, ⟨-, hd⟩, -, hx⟩ := hv
      refine hleaf _ ?_
      rw [CanonicalArena.hashNumber, hn, he, hd, hx]
      rfl
    case string.string => exact hleaf _ (by rw [hv.2]; rfl)
    case array.array r items =>
      refine hinner _ items _ hv.2 ?_ (Nat.lt_succ_self _)
      rw [CanonicalValue.hashOf, ← hv.2.length_eq, CanonicalArena.childrenOf_length hv.1]
    case object.object r keys values =>
      have hkeys := CanonicalArena.keysOf_eq hv.2.1
      have hassoc := hinner _ values ([.tag 5, .len r.len] ++ (s.arena.keysOf r).reverse.map .bytes) hv.2.2 ?_
        (Nat.lt_succ_self _)
      · simpa only [List.append_assoc] using hassoc
      · rw [CanonicalValue.hashOf, hkeys, ← hv.2.1.length_eq, CanonicalArena.entriesOf_length hv.1]

theorem fingerprint_ends {root : CanonicalId} {v : CanonicalValue} (h : s.arena.Means root v) :
    Ends (fingerprint room hasher budget root) s (fun hash t => hash = hasher v.hashOf ∧ SameContents s t) fun e _ =>
    room.Refuses e := by
  refine .bind (.get (.seq (grow_same .hashStack _ _) (fun _ _ h => h) fun _ t ht => ?_))
  have hall : List.Forall₂ (Stands t) [root] [v] := .cons (ht.stands ⟨_, h⟩) .nil
  refine .seq (hashLoop_writes _ [root] [v] [] t hall ?_) (fun _ _ h => h) ?_
  · rw [h.weight, countItems, countItems]
    omega
  · rintro _ u ⟨rfl, hu⟩
    exact .pure ⟨by rw [hashItems, hashItems, List.append_nil, List.nil_append], hu.trans ht⟩

/-! ### Equality -/

/-- Two nodes, and what they stand for. -/
def StandBoth (s : CanonicalSet μ) (p : CanonicalId × CanonicalId) (q : CanonicalValue × CanonicalValue) : Prop :=
  Stands s p.1 q.1 ∧ Stands s p.2 q.2

theorem standBoth_zip {depth depth' : Nat} : ∀ {xs ys : List CanonicalId} {vs ws : List CanonicalValue},
    List.Forall₂ (s.arena.Denotes depth) xs vs → List.Forall₂ (s.arena.Denotes depth') ys ws →
    List.Forall₂ (StandBoth s) (xs.zip ys) (vs.zip ws)
  | _, _, _, _, .nil, _ => by simp
  | _, _, _, _, .cons _ _, .nil => by simp
  | _, _, _, _, .cons h hs, .cons h' hs' => .cons ⟨⟨_, h⟩, ⟨_, h'⟩⟩ (standBoth_zip hs hs')

/-- Lists of one length are equal when they are, item by item. -/
theorem zip_equal_iff {α : Type} : ∀ {vs ws : List α}, vs.length = ws.length → ((∀ q ∈ vs.zip ws, q.1 = q.2) ↔ vs = ws)
  | [], [], _ => by simp
  | v :: vs, w :: ws, h => by
    rw [List.zip_cons_cons, List.forall_mem_cons, List.cons.injEq, zip_equal_iff (Nat.succ.inj h)]

/-- What a loop of comparisons has still to find out. -/
def AllEqual (vals : List (CanonicalValue × CanonicalValue)) : Prop := ∀ q ∈ vals, q.1 = q.2

theorem allEqual_append (us vs : List (CanonicalValue × CanonicalValue)) :
    AllEqual (us ++ vs) ↔ AllEqual us ∧ AllEqual vs :=
  List.forall_mem_append

/-- **The nodes are found equal when what they stand for is.** -/
theorem eqLoop_decides :
    ∀ (fuel : Nat) (stack : List (CanonicalId × CanonicalId)) (vals : List (CanonicalValue × CanonicalValue))
    (s : CanonicalSet μ), List.Forall₂ (StandBoth s) stack vals → countItems (vals.map Prod.fst) < fuel →
    Ends (eqLoop room budget fuel stack) s (fun equal t => (equal = true ↔ AllEqual vals) ∧ SameContents s t) fun e _ =>
    room.Refuses e
  | 0, _, _, _, _, hfuel => absurd hfuel (by omega)
  | fuel + 1, [], _, s, .nil, _ => .pure ⟨by simp [AllEqual], rfl⟩
  | fuel + 1, (x, y) :: stack, (v, w) :: vals, s, .cons ⟨⟨m, hx⟩, ⟨n, hy⟩⟩ hstack, hfuel => by
    have hpos := v.count_pos
    rw [List.map_cons, countItems] at hfuel
    dsimp only at hx hy hfuel
    rw [eqLoop]
    -- the pair is equal, or it is not, or it depends on what is inside
    have hgo : v = w → Ends (eqLoop room budget fuel stack) s
      (fun equal t => (equal = true ↔ AllEqual ((v, w) :: vals)) ∧ SameContents s t)
        fun e _ => room.Refuses e := by
      intro heq
      refine (eqLoop_decides fuel stack vals s hstack (by omega)).mono (fun equal t h => ⟨h.1.trans ?_, h.2⟩)
        fun _ _ h => h
      rw [AllEqual, AllEqual, List.forall_mem_cons]
      exact (and_iff_right heq).symm
    have hstop : v ≠ w → Ends (pure false : Building μ Bool) s
      (fun equal t => (equal = true ↔ AllEqual ((v, w) :: vals)) ∧ SameContents s t)
        fun e _ => room.Refuses e := by
      intro hne
      refine .pure ⟨?_, rfl⟩
      rw [AllEqual, List.forall_mem_cons]
      simp [hne]
    have hinner : ∀ {depth depth' : Nat} {xs ys : List CanonicalId} {vs ws : List CanonicalValue},
      List.Forall₂ (s.arena.Denotes depth) xs vs →
        List.Forall₂ (s.arena.Denotes depth') ys ws → vs.length = ws.length → (vs = ws ↔ v = w) →
        countItems vs < v.count →
        Ends (pushEach room budget .eqStack (xs.zip ys).reverse stack >>= fun stack => eqLoop room budget fuel stack) s
          (fun equal t => (equal = true ↔ AllEqual ((v, w) :: vals)) ∧ SameContents s t) fun e _ => room.Refuses e := by
      intro depth depth' xs ys vs ws hxs hys hlen hiff hcount
      refine .seq (pushEach_same .eqStack _ _ s) (fun _ _ h => h) ?_
      rintro _ t ⟨rfl, ht⟩
      rw [List.reverse_reverse]
      have hboth : ∀ p q, StandBoth s p q → StandBoth t p q := fun _ _ h => ⟨ht.stands h.1, ht.stands h.2⟩
      have hall : List.Forall₂ (StandBoth t) (xs.zip ys ++ stack) (vs.zip ws ++ vals) :=
        List.rel_append ((standBoth_zip hxs hys).imp hboth) (hstack.imp hboth)
      refine (eqLoop_decides fuel _ _ t hall ?_).mono (fun equal u h => ⟨h.1.trans ?_, h.2.trans ht⟩) fun _ _ h => h
      · rw [List.map_append, List.map_fst_zip (Nat.le_of_eq hlen), CanonicalValue.countItems_append]
        omega
      · rw [allEqual_append, AllEqual, AllEqual, AllEqual, zip_equal_iff hlen, hiff, List.forall_mem_cons]
    split
    · rename_i hxy
      subst hxy
      exact hgo (CanonicalArena.Denotes.functional x v w hx hy)
    cases m with
    | zero => exact hx.elim
    | succ m =>
    cases n with
    | zero => exact hy.elim
    | succ n =>
    obtain ⟨node, hnode, hv⟩ := hx
    obtain ⟨node', hnode', hw⟩ := hy
    refine .bind (.get ?_)
    rw [hnode, hnode']
    cases node <;> cases v <;> (try exact hv.elim) <;> cases node' <;> cases w <;> (try exact hw.elim) <;>
      (try exact hstop (by simp))
    case null.null.null.null => exact hgo rfl
    case bool.bool.bool.bool =>
      obtain rfl : _ = _ := hv
      obtain rfl : _ = _ := hw
      dsimp only
      split
      · rename_i heq
        exact hgo (congrArg _ heq)
      · rename_i hne
        exact hstop fun heq => hne (CanonicalValue.bool.inj heq)
    case number.number.number.number p f q g =>
      obtain ⟨hn, he, ⟨-, hd⟩, -, hx⟩ := hv
      obtain ⟨hn', he', ⟨-, hd'⟩, -, hx'⟩ := hw
      have hiff : s.arena.eqNumber p q = true ↔ f = g := by
        rw [CanonicalArena.eqNumber, hn, he, hd, hx, hn', he', hd', hx']
        cases f
        cases g
        simp only [Bool.and_eq_true, beq_iff_eq, NumberForm.Form.mk.injEq]
        tauto
      dsimp only
      split
      · rename_i heq
        exact hgo (congrArg _ (hiff.1 heq))
      · rename_i hne
        exact hstop fun heq => hne (hiff.2 (CanonicalValue.number.inj heq))
    case string.string.string.string =>
      dsimp only
      rw [hv.2, hw.2]
      split
      · rename_i heq
        exact hgo (congrArg _ heq)
      · rename_i hne
        exact hstop fun heq => hne (CanonicalValue.string.inj heq)
    case array.array.array.array p vs q ws =>
      have hp := hv.2.length_eq.symm.trans (CanonicalArena.childrenOf_length hv.1)
      have hq := hw.2.length_eq.symm.trans (CanonicalArena.childrenOf_length hw.1)
      dsimp only
      split
      · rename_i hne
        refine hstop fun heq => hne ?_
        rw [← hp, ← hq, CanonicalValue.array.inj heq]
      · rename_i heq
        refine hinner hv.2 hw.2 (by rw [hp, hq]; exact not_not.1 heq) ?_ (Nat.lt_succ_self _)
        rw [CanonicalValue.array.injEq]
    case object.object.object.object p ks vs q ls ws =>
      have hp := hv.2.1.length_eq.symm.trans (CanonicalArena.entriesOf_length hv.1)
      have hq := hw.2.1.length_eq.symm.trans (CanonicalArena.entriesOf_length hw.1)
      have hpv : vs.length = p.len := by
        rw [← hv.2.2.length_eq, CanonicalArena.valuesOf, List.length_map, CanonicalArena.entriesOf_length hv.1]
      have hqv : ws.length = q.len := by
        rw [← hw.2.2.length_eq, CanonicalArena.valuesOf, List.length_map, CanonicalArena.entriesOf_length hw.1]
      dsimp only
      rw [CanonicalArena.keysOf_eq hv.2.1, CanonicalArena.keysOf_eq hw.2.1]
      split
      · rename_i hne
        refine hstop fun heq => hne ?_
        rw [← hp, ← hq, (CanonicalValue.object.inj heq).1]
      rename_i hlen
      split
      · rename_i hne
        exact hstop fun heq => hne (CanonicalValue.object.inj heq).1
      · rename_i hkeys
        refine hinner hv.2.2 hw.2.2 (by rw [hpv, hqv]; exact not_not.1 hlen) ?_ (Nat.lt_succ_self _)
        rw [CanonicalValue.object.injEq]
        exact (and_iff_right (not_not.1 hkeys)).symm

theorem arenaEq_ends {x y : CanonicalId} {v w : CanonicalValue} (hx : s.arena.Means x v) (hy : s.arena.Means y w) :
    Ends (arenaEq room budget x y) s (fun equal t => (equal = true ↔ v = w) ∧ SameContents s t) fun e _ =>
    room.Refuses e := by
  refine .bind (.get (.seq (grow_same .eqStack _ _) (fun _ _ h => h) fun _ t ht => ?_))
  have hall : List.Forall₂ (StandBoth t) [(x, y)] [(v, w)] := .cons ⟨ht.stands ⟨_, hx⟩, ht.stands ⟨_, hy⟩⟩ .nil
  refine (eqLoop_decides _ _ _ t hall ?_).mono (fun equal u h => ⟨h.1.trans ?_, h.2.trans ht⟩) fun _ _ h => h
  · rw [hx.weight]
    exact Nat.lt_succ_self _
  · simp [AllEqual]

end Building
end MaskForge
