import MaskForge.Lib.KeySort
import MaskForge.Structured.AnyLanguage
/-!
# CanonicalValue — when two JSON values are equal

Equal values: numbers by what they denote, strings by their characters, arrays item by item, objects member by member
in any order.  Every value has a canonical one, with numbers in canonical form and members sorted by name, and values
are equal exactly when their canonical values are the same.
-/
namespace MaskForge

open NumberForm (NumberText Form)

mutual

/-- **JSON equality.** -/
def Ast.Same : Ast → Ast → Prop
  | .null, .null => True
  | .bool a, .bool b => a = b
  | .num s, .num t => ∃ x y : NumberText, x.Json ∧ y.Json ∧ x.text = s ∧ y.text = t ∧ x.value = y.value
  | .str s, .str t => s = t
  | .arr as, .arr bs => Ast.SameItems as bs
  | .obj ms, .obj ns => ms.length = ns.length ∧ Ast.SameFields ms ns
  | _, _ => False

def Ast.SameItems : List Ast → List Ast → Prop
  | [], [] => True
  | a :: as, b :: bs => a.Same b ∧ Ast.SameItems as bs
  | _, _ => False

/-- Every member has an equal one of its name. -/
def Ast.SameFields : List (Text × Ast) → List (Text × Ast) → Prop
  | [], _ => True
  | (k, a) :: ms, ns => (∃ b, (k, b) ∈ ns ∧ a.Same b) ∧ Ast.SameFields ms ns

end

mutual

/-- Every number is one of the grammar. -/
def Ast.Numeric : Ast → Prop
  | .num t => ∃ x : NumberText, x.Json ∧ x.text = t
  | .arr as => Ast.NumericItems as
  | .obj ms => Ast.NumericFields ms
  | _ => True

def Ast.NumericItems : List Ast → Prop
  | [] => True
  | a :: as => a.Numeric ∧ Ast.NumericItems as

def Ast.NumericFields : List (Text × Ast) → Prop
  | [] => True
  | (_, a) :: ms => a.Numeric ∧ Ast.NumericFields ms

end

/-- A value without spelling: a number in canonical form, the bytes of a string, the members of an object by
sorted keys. -/
inductive CanonicalValue where
  | null
  | bool (b : Bool)
  | number (form : Form)
  | string (text : List Byte)
  | array (items : List CanonicalValue)
  | object (keys : List (List Byte)) (values : List CanonicalValue)

namespace CanonicalValue

/-- The order of keys. -/
def keyLe (x y : List Byte) : Bool := decide (x ≤ y)

/-- The object of some members. -/
def objectOf (members : List (List Byte × CanonicalValue)) : CanonicalValue :=
  .object ((KeySort.sorted keyLe members).map Prod.fst) ((KeySort.sorted keyLe members).map Prod.snd)

end CanonicalValue

open CanonicalValue (keyLe objectOf)

mutual

/-- The canonical value. -/
def Ast.canon : Ast → CanonicalValue
  | .null => .null
  | .bool b => .bool b
  | .num t => .number ((NumberForm.finishNumber t).toOption.getD .zero)
  | .str s => .string (textBytes s)
  | .arr as => .array (Ast.canonItems as)
  | .obj ms => objectOf (Ast.canonFields ms)

def Ast.canonItems : List Ast → List CanonicalValue
  | [] => []
  | a :: as => a.canon :: Ast.canonItems as

def Ast.canonFields : List (Text × Ast) → List (List Byte × CanonicalValue)
  | [] => []
  | (k, a) :: ms => (textBytes k, a.canon) :: Ast.canonFields ms

end

namespace Ast

theorem canonFields_eq : ∀ ms : List (Text × Ast), canonFields ms = ms.map fun m => (textBytes m.1, m.2.canon)
  | [] => rfl
  | (_, _) :: ms => congrArg _ (canonFields_eq ms)

theorem keys_nodup {ms : List (Text × Ast)} (h : (ms.map Prod.fst).Nodup) : ((canonFields ms).map Prod.fst).Nodup := by
  rw [canonFields_eq, List.map_map]
  have hmap : (Prod.fst ∘ fun m : Text × Ast => (textBytes m.1, m.2.canon)) = textBytes ∘ Prod.fst := rfl
  rw [hmap, ← List.map_map]
  exact h.map fun _ _ => textBytes_inj

theorem mem_distinctFields : ∀ {ms : List (Text × Ast)}, DistinctFields ms → ∀ m ∈ ms, m.2.Distinct
  | _ :: _, h, m, hm => by
    rcases List.mem_cons.1 hm with rfl | hm
    · exact h.1
    · exact mem_distinctFields h.2 m hm

theorem mem_numericFields : ∀ {ms : List (Text × Ast)}, NumericFields ms → ∀ m ∈ ms, m.2.Numeric
  | _ :: _, h, m, hm => by
    rcases List.mem_cons.1 hm with rfl | hm
    · exact h.1
    · exact mem_numericFields h.2 m hm

/-- Objects of the same members. -/
theorem objectOf_eq_iff {ms ns : List (List Byte × CanonicalValue)} (h : (ms.map Prod.fst).Nodup) :
    objectOf ms = objectOf ns ↔ ms.Perm ns := by
  have hsorted : KeySort.sorted keyLe ms = KeySort.sorted keyLe ns ↔ ms.Perm ns :=
    KeySort.sorted_eq_iff (fun a b c => by simpa [keyLe] using List.le_trans)
      (fun a b => by simpa [keyLe] using List.le_total a b)
      (fun a b => by simpa [keyLe] using List.le_antisymm) h
  rw [← hsorted, objectOf, objectOf, CanonicalValue.object.injEq]
  constructor
  · rintro ⟨hkeys, hvalues⟩
    exact (List.zip_of_prod hkeys hvalues).trans (List.zip_of_prod rfl rfl).symm
  · intro heq
    rw [heq]
    exact ⟨rfl, rfl⟩

theorem canon_num {x : NumberText} (hx : x.Json) :
    ∃ v : Form, Ast.canon (.num x.text) = .number v ∧ v.Canonical ∧ v.value = x.value := by
  obtain ⟨v, hv, hcanonical, hvalue⟩ := NumberForm.finishNumber_text hx.toLoose
  refine ⟨v, ?_, hcanonical, hvalue⟩
  rw [canon, hv]
  rfl

mutual

/-- **Values are equal when their canonical values are the same.** -/
theorem canon_eq_iff : ∀ {a b : Ast}, a.Distinct → b.Distinct → a.Numeric → b.Numeric → (a.canon = b.canon ↔ a.Same b)
  | .null, b, _, _, _, _ => by cases b <;> simp [canon, Same, objectOf]
  | .bool _, b, _, _, _, _ => by cases b <;> simp [canon, Same, objectOf]
  | .str s, b, _, _, _, _ => by
    cases b <;> simp [canon, Same, objectOf]
    exact ⟨textBytes_inj, fun h => h ▸ rfl⟩
  | .num s, b, _, _, ha, hb => by
    cases b with
    | num t =>
      obtain ⟨x, hx, rfl⟩ := ha
      obtain ⟨y, hy, rfl⟩ := hb
      obtain ⟨v, hv, hvc, hvv⟩ := canon_num hx
      obtain ⟨w, hw, hwc, hwv⟩ := canon_num hy
      rw [hv, hw, CanonicalValue.number.injEq]
      constructor
      · rintro rfl
        exact ⟨x, y, hx, hy, rfl, rfl, hvv.symm.trans hwv⟩
      · rintro ⟨x', y', hx', hy', hxt, hyt, hvalue⟩
        obtain ⟨v', hv', hvc', hvv'⟩ := canon_num hx'
        obtain ⟨w', hw', hwc', hwv'⟩ := canon_num hy'
        rw [hxt, hv, CanonicalValue.number.injEq] at hv'
        rw [hyt, hw, CanonicalValue.number.injEq] at hw'
        subst hv'
        subst hw'
        exact hvc.inj hwc (hvv'.trans (hvalue.trans hwv'.symm))
    | null | bool | str | arr | obj => simp [canon, Same, objectOf]
  | .arr as, b, hda, hdb, ha, hb => by
    cases b with
    | arr bs =>
      rw [canon, canon, CanonicalValue.array.injEq]
      exact canonItems_eq_iff hda hdb ha hb
    | null | bool | str | num | obj => simp [canon, Same, objectOf]
  | .obj ms, b, hda, hdb, ha, hb => by
    cases b with
    | obj ns =>
      rw [canon, canon, objectOf_eq_iff (keys_nodup hda.1)]
      constructor
      · intro hperm
        refine ⟨by simpa [canonFields_eq] using hperm.length_eq, ?_⟩
        exact (canonFields_subset_iff hda.2 hdb.2 ha hb).1 hperm.subset
      · rintro ⟨hlen, hsame⟩
        have hsub := (canonFields_subset_iff hda.2 hdb.2 ha hb).2 hsame
        refine (List.subperm_of_subset (keys_nodup hda.1).of_map hsub).perm_of_length_le ?_
        simp [canonFields_eq, hlen]
    | null | bool | str | num | arr => simp [canon, Same, objectOf]

theorem canonItems_eq_iff :
    ∀ {as bs : List Ast}, DistinctItems as → DistinctItems bs → NumericItems as → NumericItems bs →
    (canonItems as = canonItems bs ↔ SameItems as bs)
  | [], bs, _, _, _, _ => by cases bs <;> simp [canonItems, SameItems]
  | a :: as, bs, hda, hdb, ha, hb => by
    cases bs with
    | nil => simp [canonItems, SameItems]
    | cons b bs =>
      rw [canonItems, canonItems, List.cons.injEq, SameItems, canon_eq_iff hda.1 hdb.1 ha.1 hb.1,
        canonItems_eq_iff hda.2 hdb.2 ha.2 hb.2]

theorem canonFields_subset_iff :
    ∀ {ms ns : List (Text × Ast)}, DistinctFields ms → DistinctFields ns → NumericFields ms → NumericFields ns →
    (canonFields ms ⊆ canonFields ns ↔ SameFields ms ns)
  | [], ns, _, _, _, _ => by simp [canonFields, SameFields]
  | (k, a) :: ms, ns, hda, hdb, ha, hb => by
    rw [canonFields, List.cons_subset, SameFields, canonFields_subset_iff hda.2 hdb ha.2 hb]
    refine and_congr_left fun _ => ?_
    rw [canonFields_eq, List.mem_map]
    constructor
    · rintro ⟨⟨k', b⟩, hmem, heq⟩
      obtain ⟨hkey, hvalue⟩ := Prod.mk.inj heq
      obtain rfl := textBytes_inj hkey
      exact ⟨b, hmem, (canon_eq_iff hda.1 (mem_distinctFields hdb _ hmem) ha.1 (mem_numericFields hb _ hmem)).1
        hvalue.symm⟩
    · rintro ⟨b, hmem, hsame⟩
      refine ⟨(k, b), hmem, ?_⟩
      exact Prod.ext rfl ((canon_eq_iff hda.1 (mem_distinctFields hdb _ hmem) ha.1 (mem_numericFields hb _ hmem)).2
        hsame).symm

end

end Ast

def JsonForm.Numeric : JsonForm → Prop
  | .value a => a.Numeric
  | .items as => Ast.NumericItems as
  | .members ms => Ast.NumericFields ms

/-- The numbers of a text are numbers of the grammar. -/
theorem Derives.numeric {f : JsonForm} {w : List Byte} (h : Derives f w) : f.Numeric := by
  induction h with
  | num t json => exact ⟨t, json, rfl⟩
  | null | bool_true | bool_false | str | arr_nil | obj_nil => exact trivial
  | arr _ ih | obj _ ih => exact ih
  | item _ _ _ ih | member _ _ _ _ _ _ ih => exact ⟨ih, trivial⟩
  | items _ _ _ _ ih ihs | members _ _ _ _ _ _ _ ih ihs => exact ⟨ih, ihs⟩

end MaskForge
