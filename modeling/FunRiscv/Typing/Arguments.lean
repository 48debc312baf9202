import FunRiscv.Surface.Location
import FunRiscv.Ty.Error

/-!
# Named arguments

* `placeArguments`: puts named arguments into the order of a constructor's fields, after
  the positional ones.
-/

namespace FunRiscv

/-- An argument given by the name of a field, and its place. -/
structure Labelled (α : Type) where
  loc : Location
  name : String
  value : α

/-- Puts a value at the first field of a name, which must still be free. -/
def placeOne {α : Type} (fields : List String) (slots : List (Option α)) (a : Labelled α) :
    Except TypeError (List (Option α)) :=
  match fields.findIdx? (· == a.name) with
  | none => .error { cause := .unknownField a.name, loc := a.loc }
  | some i =>
    match slots[i]? with
    | some (some _) => .error { cause := .fieldTwice a.name, loc := a.loc }
    | _ => .ok (slots.set i (some a.value))

/-- The arguments of a constructor in the order of its fields. Without named ones the
positional arguments are taken as they are; otherwise there must be as many arguments as
fields, and at least one field. -/
def placeArguments {α : Type} (loc : Location) (fields : List String) (positional : List α)
    (named : List (Labelled α)) : Except TypeError (List α) :=
  if named.isEmpty then .ok positional
  else if fields.isEmpty then .error { cause := .namedArguments, loc }
  else if positional.length + named.length ≠ fields.length then
    .error { cause := .fieldCount fields.length (positional.length + named.length), loc }
  else do
    let free := List.replicate (fields.length - positional.length) none
    let slots ← named.foldlM (placeOne fields) (positional.map some ++ free)
    return slots.filterMap id

end FunRiscv
