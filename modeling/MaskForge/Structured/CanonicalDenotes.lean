import MaskForge.Structured.CanonicalSteps
import MaskForge.Structured.CanonicalValue
/-!
# CanonicalDenotes — the value a node stands for

A node stands for a value when its texts are in the bytes and what is inside of it stands for the parts of the value. 
Nodes never change, so a node goes on to stand for its value while the arena grows; and it stands for no other one.
-/
namespace MaskForge

open NumberForm (Form)

namespace CanonicalValue

mutual

/-- How many values there are in a value, itself among them. -/
def count : CanonicalValue → Nat
  | .array items => countItems items + 1
  | .object _ values => countItems values + 1
  | _ => 1

def countItems : List CanonicalValue → Nat
  | [] => 0
  | v :: vs => v.count + countItems vs

end

theorem count_pos (v : CanonicalValue) : 0 < v.count := by cases v <;> simp [count]

theorem countItems_append (us vs : List CanonicalValue) : countItems (us ++ vs) = countItems us + countItems vs := by
  induction us with
  | nil => rw [List.nil_append, countItems, Nat.zero_add]
  | cons u us ih => rw [List.cons_append, countItems, countItems, ih, Nat.add_assoc]

end CanonicalValue

open CanonicalValue (countItems)

namespace CanonicalArena

variable {a b : CanonicalArena}

/-- A span of the bytes, and what stands there. -/
def Spells (a : CanonicalArena) (span : ByteSpan) (text : List Byte) : Prop :=
  span.start + span.len ≤ a.bytes.length ∧ a.spanBytes span = text

/-- What a node stands for, where it is known for what is inside of it. -/
def NodeDenotes (a : CanonicalArena) (inner : CanonicalId → CanonicalValue → Prop) :
    CanonicalNode → CanonicalValue → Prop
  | .null, .null => True
  | .bool p, .bool q => p = q
  | .number n, .number form =>
    n.negative = form.negative ∧ n.expNegative = form.expNegative ∧ a.Spells n.digits form.digits ∧
    a.Spells n.expDigits form.expDigits
  | .string span, .string text => a.Spells span text
  | .array r, .array items => r.start + r.len ≤ a.children.length ∧ List.Forall₂ inner (a.childrenOf r) items
  | .object r, .object keys values => r.start + r.len ≤ a.entries.length ∧
      List.Forall₂ (fun e key => a.Spells e.key key) (a.entriesOf r) keys ∧ List.Forall₂ inner (a.valuesOf r) values
  | _, _ => False

def Denotes (a : CanonicalArena) : Nat → CanonicalId → CanonicalValue → Prop
  | 0, _, _ => False
  | depth + 1, id, v => ∃ node, a.nodes[id]? = some node ∧ a.NodeDenotes (a.Denotes depth) node v

/-- **The value of a node.**  What is inside of it stands in front of it. -/
def Means (a : CanonicalArena) (id : CanonicalId) (v : CanonicalValue) : Prop := a.Denotes (id + 1) id v

/-! ### While the arena grows -/

theorem slice_grown {α : Type} {l l' : List α} (h : l <+: l') {start len : Nat} (hlen : start + len ≤ l.length) :
    (l'.drop start).take len = (l.drop start).take len := by
  obtain ⟨rest, rfl⟩ := h
  rw [List.drop_append_of_le_length (by omega), List.take_append_of_le_length (by rw [List.length_drop]; omega)]

theorem Spells.grows {span : ByteSpan} {text : List Byte} (h : a.Spells span text) (hg : a.Grows b) :
    b.Spells span text :=
  ⟨h.1.trans hg.bytes.length_le, (slice_grown hg.bytes h.1).trans h.2⟩

theorem NodeDenotes.grows {inner inner' : CanonicalId → CanonicalValue → Prop}
    (hinner : ∀ id v, inner id v → inner' id v) (hg : a.Grows b)
    {node : CanonicalNode} {v : CanonicalValue} (h : a.NodeDenotes inner node v) : b.NodeDenotes inner' node v := by
  cases node <;> cases v <;> try exact h
  case number.number => exact ⟨h.1, h.2.1, h.2.2.1.grows hg, h.2.2.2.grows hg⟩
  case string.string => exact Spells.grows h hg
  case array.array r items =>
    refine ⟨h.1.trans hg.children.length_le, ?_⟩
    rw [childrenOf, slice_grown hg.children h.1]
    exact h.2.imp hinner
  case object.object r keys values =>
    have hentries : b.entriesOf r = a.entriesOf r := slice_grown hg.entries h.1
    refine ⟨h.1.trans hg.entries.length_le, ?_, ?_⟩
    · rw [hentries]
      exact h.2.1.imp fun _ _ hs => hs.grows hg
    · rw [valuesOf, hentries]
      exact h.2.2.imp hinner

theorem Denotes.grows (hg : a.Grows b) :
    ∀ {depth depth' : Nat}, depth ≤ depth' → ∀ (id : CanonicalId) (v : CanonicalValue),
    a.Denotes depth id v → b.Denotes depth' id v
  | 0, _, _, _, _, h => h.elim
  | depth + 1, 0, hle, _, _, _ => absurd hle (by omega)
  | depth + 1, depth' + 1, hle, id, v, h => by
    obtain ⟨node, hnode, hdenotes⟩ := h
    refine ⟨node, ?_, hdenotes.grows (Denotes.grows hg (Nat.le_of_succ_le_succ hle)) hg⟩
    obtain ⟨rest, hrest⟩ := hg.nodes
    have hlt := (List.getElem?_eq_some_iff.1 hnode).1
    rw [← hrest, List.getElem?_append_left hlt, hnode]

theorem Means.grows {id : CanonicalId} {v : CanonicalValue} (h : a.Means id v) (hg : a.Grows b) : b.Means id v :=
  Denotes.grows hg (Nat.le_refl _) id v h

theorem Means.lt {id : CanonicalId} {v : CanonicalValue} (h : a.Means id v) : id < a.nodes.length := by
  obtain ⟨node, hnode, -⟩ := h
  exact (List.getElem?_eq_some_iff.1 hnode).1

/-- **A new node** stands for a value when what is inside of it does. -/
theorem means_push {node : CanonicalNode} {v : CanonicalValue} (h : a.NodeDenotes a.Means node v) :
    Means { a with nodes := a.nodes ++ [node] } a.nodes.length v := by
  have hg : a.Grows { a with nodes := a.nodes ++ [node] } := .pushNode _ _
  refine ⟨node, List.getElem?_concat_length, h.grows (fun id w hw => ?_) hg⟩
  exact Denotes.grows hg (Nat.succ_le_of_lt hw.lt) id w hw

/-! ### One value only -/

theorem forall₂_functional {α β : Type} {P Q : α → β → Prop} :
    ∀ {as : List α} {bs cs : List β}, List.Forall₂ P as bs → List.Forall₂ Q as cs →
    (∀ a b c, P a b → Q a c → b = c) → bs = cs
  | [], _, _, .nil, .nil, _ => rfl
  | _ :: _, _, _, .cons hb hbs, .cons hc hcs, h => by rw [h _ _ _ hb hc, forall₂_functional hbs hcs h]

/-- **A node stands for one value only.** -/
theorem Denotes.functional : ∀ {depth depth' : Nat} (id : CanonicalId) (v w : CanonicalValue), a.Denotes depth id v →
    a.Denotes depth' id w → v = w
  | 0, _, _, _, _, h, _ => h.elim
  | _ + 1, 0, _, _, _, _, h => h.elim
  | depth + 1, depth' + 1, id, v, w, h, h' => by
    obtain ⟨node, hnode, hv⟩ := h
    obtain ⟨node', hnode', hw⟩ := h'
    obtain rfl : node = node' := Option.some.inj (hnode.symm.trans hnode')
    cases node <;> cases v <;> (try exact hv.elim) <;> cases w <;> (try exact hw.elim)
    case null.null.null => rfl
    case bool.bool.bool => rw [← show _ = _ from hv, show _ = _ from hw]
    case number.number.number n f g =>
      obtain ⟨hn, he, ⟨-, hd⟩, -, hx⟩ := hv
      obtain ⟨hn', he', ⟨-, hd'⟩, -, hx'⟩ := hw
      cases f
      cases g
      dsimp only at *
      rw [← hn, ← he, ← hd, ← hx, ← hn', ← he', ← hd', ← hx']
    case string.string.string => rw [← hv.2, hw.2]
    case array.array.array => rw [forall₂_functional hv.2 hw.2 Denotes.functional]
    case object.object.object =>
      have hkeys := forall₂_functional hv.2.1 hw.2.1 fun e k k' (h : a.Spells e.key k) (h' : a.Spells e.key k') =>
        h.2.symm.trans h'.2
      rw [hkeys, forall₂_functional hv.2.2 hw.2.2 Denotes.functional]

/-! ### The parts of a node -/

theorem childrenOf_length {r : ChildRange} (h : r.start + r.len ≤ a.children.length) :
    (a.childrenOf r).length = r.len := by
  rw [childrenOf, List.length_take, List.length_drop]
  omega

theorem entriesOf_length {r : EntryRange} (h : r.start + r.len ≤ a.entries.length) :
    (a.entriesOf r).length = r.len := by
  rw [entriesOf, List.length_take, List.length_drop]
  omega

/-- The keys of an object. -/
theorem keysOf_eq {r : EntryRange} {keys : List (List Byte)}
    (h : List.Forall₂ (fun e key => a.Spells e.key key) (a.entriesOf r) keys) :
    a.keysOf r = keys := by
  rw [keysOf]
  generalize a.entriesOf r = entries at h
  induction h with
  | nil => rfl
  | cons hs _ ih => rw [List.map_cons, ih, hs.2]

/-- **How many values there are in a node.** -/
theorem Denotes.weight :
    ∀ {depth : Nat} (id : CanonicalId) (v : CanonicalValue), a.Denotes depth id v → a.weightWithin depth id = v.count
  | 0, _, _, h => h.elim
  | depth + 1, id, v, h => by
    obtain ⟨node, hnode, hv⟩ := h
    have hsum : ∀ {ids vs}, List.Forall₂ (a.Denotes depth) ids vs → (ids.map (a.weightWithin depth)).sum =
      countItems vs := by
      intro ids vs hall
      induction hall with
      | nil => rfl
      | cons hd _ ih => rw [List.map_cons, List.sum_cons, Denotes.weight _ _ hd, ih, countItems]
    rw [weightWithin, below, hnode]
    cases node <;> cases v <;> (try exact hv.elim) <;> simp only [CanonicalValue.count, List.map_nil, List.sum_nil]
    case array.array => rw [hsum hv.2]
    case object.object => rw [← hsum hv.2.2, valuesOf]

theorem Means.weight {id : CanonicalId} {v : CanonicalValue} (h : a.Means id v) : a.weight id = v.count :=
  Denotes.weight id v h

end CanonicalArena
end MaskForge
