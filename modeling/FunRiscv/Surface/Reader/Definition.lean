import FunRiscv.Surface.Reader.Expression

/-!
# Reading definitions and programs

* `definition`: a function, a type, an object, an alias or, at the top level only, a module.
* `Program.parse`: a whole source text.
-/

namespace FunRiscv

namespace Reading

variable (src : Source)

/-- Type parameters between angle brackets, if there are any. -/
def typeParams : Reading (List String) := do
  if ← punct src .less then
    let ps ← commaList src (inContext "type param" (name src)) (rounds src)
    closeAngle src
    return ps
  else return []

/-- A function, after its keyword. -/
def funcTail (start : Nat) : Reading FuncDef := do
  let n ← inContext "func name" (name src)
  let ps ← inContext ("func " ++ n) (params src (tree src))
  let ret ← if ← punct src .arrow then
      some <$> inContext ("func " ++ n ++ ": return type") (tree src .type)
    else pure none
  let body ← inContext ("func " ++ n) (tree src .block)
  return { loc := ← locationFrom src start, name := n, params := ps, ret, body, checked := false }

/-- A field with its type. -/
def field : Reading Field := do
  let start ← tokenStart src
  let n ← inContext "field" (name src)
  expect src .colon
  let type ← inContext ("field " ++ n) (tree src .type)
  return { loc := ← locationFrom src start, name := n, type }

/-- Fields divided by commas, up to a closing brace or a function, neither of which is read. -/
def fields : (fuel : Nat) → Reading (List Field)
  | 0 => failWith ReadCause.exhausted
  | fuel + 1 => do
    if ← nextIs src .closeBrace then return []
    else if ← nextIsKeyword src "fn" then return []
    else
      let f ← field src
      if ← punct src .comma then
        let fs ← fields fuel
        return f :: fs
      else return [f]

/-- A variant of the type named `owner`. -/
def variant (owner : String) : Reading Variant := do
  let start ← tokenStart src
  let n ← inContext ("type " ++ owner ++ ": variant") (name src)
  let fs ← if ← punct src .openBrace then do
      let fs ← inContext ("variant " ++ n) (fields src (rounds src))
      expect src .closeBrace
      pure fs
    else pure []
  return { loc := ← locationFrom src start, name := n, fields := fs }

/-- A type definition, after its keyword. -/
def typeTail (start : Nat) : Reading TypeDef := do
  let n ← inContext "type name" (name src)
  let ps ← inContext ("type " ++ n) (typeParams src)
  expect src .openBrace
  let vs ← closedList src (variant src n) .closeBrace (rounds src)
  return { loc := ← locationFrom src start, name := n, typeParams := ps, variants := vs }

/-- A group of members of an object: one function, or some fields. -/
def objectMembers : Reading (List Field × List FuncDef) := do
  let start ← tokenStart src
  if ← keyword src "fn" then
    let f ← funcTail src start
    return ([], [f])
  else
    let fs ← fields src (rounds src)
    return (fs, [])

/-- An object definition, after its keyword. -/
def objectTail (start : Nat) : Reading ObjectDef := do
  let n ← inContext "object name" (name src)
  let ps ← inContext ("object " ++ n) (typeParams src)
  expect src .openBrace
  let group : Reading (List Field × List FuncDef) := do
    let g ← inContext ("object " ++ n) (objectMembers src)
    if g.1.isEmpty && g.2.isEmpty then unexpected src "field or fn" else return g
  let groups ← manyUntil src group .closeBrace (rounds src)
  return { loc := ← locationFrom src start, name := n, typeParams := ps
           fields := groups.flatMap (·.1), funcs := groups.flatMap (·.2) }

/-- An alias, after its keyword. -/
def aliasTail (start : Nat) : Reading TypeAlias := do
  let n ← inContext "alias name" (name src)
  let ps ← inContext ("alias " ++ n) (typeParams src)
  expect src .equals
  let type ← inContext ("alias " ++ n) (tree src .type)
  let _ ← punct src .semicolon
  return { loc := ← locationFrom src start, name := n, typeParams := ps, type }

/-- A definition that is no module. -/
def member : Reading Definition := do
  let start ← tokenStart src
  if ← keyword src "fn" then return .func (← funcTail src start)
  else if ← keyword src "type" then return .type (← typeTail src start)
  else if ← keyword src "object" then return .object (← objectTail src start)
  else if ← keyword src "alias" then return .alias (← aliasTail src start)
  else unexpected src "definition"

/-- A module, after its keyword. -/
def moduleTail (start : Nat) : Reading Definition := do
  let n ← inContext "module name" (name src)
  expect src .openBrace
  let defs ← manyUntil src (inContext ("module " ++ n) (member src)) .closeBrace (rounds src)
  return .module (← locationFrom src start) n defs

/-- A definition at the top level. -/
def definition : Reading Definition := do
  let start ← tokenStart src
  if ← keyword src "module" then moduleTail src start else member src

/-- An import, after its keyword. -/
def importTail (start : Nat) : Reading Import := do
  let path ← inContext "import path" (name src)
  let names ← if ← punct src .openBrace then do
      let names ← commaList src (inContext "import" (name src)) (rounds src)
      expect src .closeBrace
      pure names
    else pure []
  let _ ← punct src .semicolon
  return { loc := ← locationFrom src start, path, names }

/-- Imports and definitions up to the end of the text. -/
def items : (fuel : Nat) → Reading Program
  | 0 => failWith ReadCause.exhausted
  | fuel + 1 => do
    let start ← tokenStart src
    if start = src.size then return { imports := [], defs := [] }
    else if ← keyword src "import" then
      let i ← importTail src start
      let p ← items fuel
      return { p with imports := i :: p.imports }
    else
      let d ← definition src
      let p ← items fuel
      return { p with defs := d :: p.defs }

end Reading

/-- Reads a whole source text as a program. -/
def Program.parse (src : Source) : Except ReadError Program :=
  (Reading.items src (Reading.rounds src)).run' 0

end FunRiscv
