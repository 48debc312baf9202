/-!
# TOML documents

* `Toml`: a value of a document. A document is a table.
* `Toml.find?`: the value at a path of keys.
* `Toml.open?`: makes sure that a table stands at a path.
* `Toml.put`: puts a value at a path.

A path that meets an array of tables goes on in the last of them.
-/

namespace FunRiscv

/-- A value of a document. -/
inductive Toml where
  | string (s : String)
  | integer (n : Int)
  | boolean (b : Bool)
  /-- A float, as it is written. -/
  | float (text : String)
  /-- A date or a time, as it is written. -/
  | date (text : String)
  | array (items : List Toml)
  /-- A table. One that is written in line cannot be extended later. -/
  | table (inline : Bool) (fields : List (String × Toml))
  /-- An array of tables, the latest first. It is never empty. -/
  | tables (items : List Toml)
deriving Inhabited

namespace Toml

/-- The empty table. -/
def empty : Toml := .table false []

/-- The table that a path goes on in. -/
def inner? : Toml → Option (Bool × List (String × Toml))
  | table inline fields => some (inline, fields)
  | tables (table inline fields :: _) => some (inline, fields)
  | _ => none

/-- Puts other fields into the table that a path goes on in. -/
def withFields (fields : List (String × Toml)) : Toml → Toml
  | table inline _ => table inline fields
  | tables (table inline _ :: rest) => tables (table inline fields :: rest)
  | t => t

/-- The fields with one of them set. -/
def setField (key : String) (v : Toml) : List (String × Toml) → List (String × Toml)
  | [] => [(key, v)]
  | (k, w) :: rest => if k == key then (key, v) :: rest else (k, w) :: setField key v rest

/-- The value at a path. -/
def find? : List String → Toml → Option Toml
  | [], t => some t
  | k :: ks, t =>
    match t.inner? with
    | some (_, fields) =>
      match fields.lookup k with
      | some v => find? ks v
      | none => none
    | none => none

/-- Makes sure that a table, or an array of tables, stands at a path. Tables made on the way in a
table written in line count as written in line. -/
def open? : List String → Toml → Option Toml
  | [], t => if t.inner?.isSome then some t else none
  | k :: ks, t =>
    match t.inner? with
    | some (inline, fields) =>
      match open? ks ((fields.lookup k).getD (.table inline [])) with
      | some v => some (t.withFields (setField k v fields))
      | none => none
    | none => none

/-- Changes the table at a path. -/
def alter? (f : Toml → Option Toml) : List String → Toml → Option Toml
  | [], t => f t
  | k :: ks, t =>
    match t.inner? with
    | some (_, fields) =>
      match fields.lookup k with
      | some v =>
        match alter? f ks v with
        | some v => some (t.withFields (setField k v fields))
        | none => none
      | none => none
    | none => none

/-- Adds a field to a table that was not written in line and does not have it yet. -/
def define? (t : Toml) (key : String) (v : Toml) : Option Toml :=
  match t.inner? with
  | some (false, fields) =>
    if (fields.lookup key).isSome then none else some (t.withFields ((key, v) :: fields))
  | _ => none

/-- Puts a value at a path, in place of one that stands there. A key on the way that has a plain
value is passed over. -/
def put (v : Toml) : List String → Toml → Toml
  | [], _ => v
  | [k], t =>
    match t.inner? with
    | some (_, fields) => t.withFields (setField k v fields)
    | none => t
  | k :: ks, t =>
    match t.inner? with
    | some (_, fields) =>
      match fields.lookup k with
      | none => t.withFields (setField k (put v ks empty) fields)
      | some w => if w.inner?.isSome then t.withFields (setField k (put v ks w) fields)
        else put v ks t
    | none => t

end Toml

end FunRiscv
