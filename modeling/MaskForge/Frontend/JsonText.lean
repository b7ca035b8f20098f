import MaskForge.Frontend.Ast
import MaskForge.Structured.NumberForm
import MaskForge.Structured.Spelling
/-!
# JsonText — the grammar of JSON

One derivation for each way a value, the items of an array and the members of an object are written, with white space
where the grammar has it.  What is derived is the syntax tree: the decoded strings, the tokens of the numbers, the
members in the order of the text.
-/
namespace MaskForge

open NumberForm (NumberText)

def IsWhitespace (b : Byte) : Prop := b = 0x20 ∨ b = 0x09 ∨ b = 0x0a ∨ b = 0x0d

instance (b : Byte) : Decidable (IsWhitespace b) := inferInstanceAs (Decidable (_ ∨ _))

def Whitespace (w : List Byte) : Prop := ∀ b ∈ w, IsWhitespace b

/-- A decoded string in quotes. -/
def Quoted (w : List Byte) (s : Text) : Prop := ∃ body, Spelling body s ∧ w = 0x22 :: body ++ [0x22]

/-- What a derivation is of: a value, the items of an array that has some, the members of an object that has some. -/
inductive JsonForm where
  | value (a : Ast)
  | items (as : List Ast)
  | members (ms : List (Text × Ast))

/-- **The grammar.** -/
inductive Derives : JsonForm → List Byte → Prop
  | null : Derives (.value .null) [0x6e, 0x75, 0x6c, 0x6c]
  | bool_true : Derives (.value (.bool true)) [0x74, 0x72, 0x75, 0x65]
  | bool_false : Derives (.value (.bool false)) [0x66, 0x61, 0x6c, 0x73, 0x65]
  | num (t : NumberText) (json : t.Json) : Derives (.value (.num t.text)) t.text
  | str {w : List Byte} {s : Text} (quoted : Quoted w s) : Derives (.value (.str s)) w
  | arr_nil {u : List Byte} (hu : Whitespace u) : Derives (.value (.arr [])) (0x5b :: u ++ [0x5d])
  | arr {w : List Byte} {as : List Ast} (h : Derives (.items as) w) : Derives (.value (.arr as)) (0x5b :: w ++ [0x5d])
  | obj_nil {u : List Byte} (hu : Whitespace u) : Derives (.value (.obj [])) (0x7b :: u ++ [0x7d])
  | obj {w : List Byte} {ms : List (Text × Ast)} (h : Derives (.members ms) w) :
      Derives (.value (.obj ms)) (0x7b :: w ++ [0x7d])
  | item {u v w : List Byte} {a : Ast} (hu : Whitespace u) (h : Derives (.value a) v) (hw : Whitespace w) :
      Derives (.items [a]) (u ++ v ++ w)
  | items {u v w rest : List Byte} {a : Ast} {as : List Ast} (hu : Whitespace u) (h : Derives (.value a) v)
      (hw : Whitespace w)
      (more : Derives (.items as) rest) : Derives (.items (a :: as)) (u ++ v ++ w ++ 0x2c :: rest)
  | member {u k u' w v w' : List Byte} {key : Text} {a : Ast} (hu : Whitespace u) (quoted : Quoted k key)
      (hu' : Whitespace u')
      (hw : Whitespace w) (h : Derives (.value a) v) (hw' : Whitespace w') :
      Derives (.members [(key, a)]) (u ++ k ++ u' ++ 0x3a :: (w ++ v ++ w'))
  | members {u k u' w v w' rest : List Byte} {key : Text} {a : Ast} {ms : List (Text × Ast)} (hu : Whitespace u)
      (quoted : Quoted k key)
      (hu' : Whitespace u') (hw : Whitespace w) (h : Derives (.value a) v) (hw' : Whitespace w')
      (more : Derives (.members ms) rest) :
      Derives (.members ((key, a) :: ms)) (u ++ k ++ u' ++ 0x3a :: (w ++ v ++ w') ++ 0x2c :: rest)

/-- A JSON text: a value, with white space around it. -/
def JsonText (a : Ast) (text : List Byte) : Prop :=
  ∃ u w v, Whitespace u ∧ Derives (.value a) w ∧ Whitespace v ∧ text = u ++ w ++ v

mutual

/-- How deep arrays and objects are nested. -/
def Ast.depth : Ast → Nat
  | .arr items => Ast.depthItems items + 1
  | .obj fields => Ast.depthFields fields + 1
  | _ => 0

def Ast.depthItems : List Ast → Nat
  | [] => 0
  | a :: as => max a.depth (Ast.depthItems as)

def Ast.depthFields : List (Text × Ast) → Nat
  | [] => 0
  | (_, a) :: ms => max a.depth (Ast.depthFields ms)

end

end MaskForge
