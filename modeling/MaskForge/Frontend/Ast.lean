import MaskForge.Primitives
import MaskForge.Structured.Plan
/-!
# Ast — the syntax tree of a schema and the errors of the frontend

A number keeps its token, an object its members in source order with their repetitions.  An error of the frontend
carries the JSON Pointer and the keyword it is about, where it is about one.
-/
namespace MaskForge

inductive Ast where
  | null
  | bool (b : Bool)
  | num (token : List Byte)
  | str (s : Text)
  | arr (items : List Ast)
  | obj (fields : List (Text × Ast))

namespace Frontend

/-- The first member of a name. -/
def get (fields : List (Text × Ast)) (key : Text) : Option Ast :=
  (fields.find? fun f => decide (f.1 = key)).map Prod.snd

def objHas (fields : List (Text × Ast)) (key : Text) : Bool := fields.any fun f => decide (f.1 = key)

/-- A tilde is written `~0`, a slash `~1`. -/
def ptrEscape (segment : Text) : Text :=
  segment.flatMap fun c => if c = '~' then ['~', '0'] else if c = '/' then ['~', '1'] else [c]

def childPtr (ptr segment : Text) : Text := ptr ++ '/' :: ptrEscape segment

/-- An error of the first stage. -/
structure FrontendError where
  code : ErrorCode
  message : String
  pointer : Option Text
  keyword : Option Text
  deriving DecidableEq, Repr

def malformed (ptr keyword : Text) (message : String) : FrontendError := ⟨.malformed, message, some ptr, some keyword⟩

end Frontend
end MaskForge
