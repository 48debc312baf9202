import FunRiscv.Pass.Revise

/-!
# Unreachable statements

* `Stmt.terminates`: a statement after which nothing of its block runs: a return, or a conditional
  both of whose arms end in such a statement.
* `trimStmts`: drops what follows such a statement, in every block.
* `Program.dropUnreachable`: the same in every function.
-/

namespace FunRiscv

mutual

/-- Whether nothing of the block runs after a statement. -/
def Stmt.terminates : Stmt → Bool
  | .ret .. => true
  | .ifElse _ _ _ t _ e => stmtsTerminate t && stmtsTerminate e
  | .assign .. | .use .. | .ifThen .. | .expr .. | .missing => false

/-- Whether the last of some statements terminates. -/
def stmtsTerminate : List Stmt → Bool
  | [] => false
  | [s] => s.terminates
  | _ :: s :: ss => stmtsTerminate (s :: ss)

end

mutual

/-- Drops unreachable statements inside a statement. -/
def Stmt.trim : Stmt → Revised Stmt
  | .ifThen loc c tl t => do
    let t ← trimStmts t
    pure (.ifThen loc c tl t)
  | .ifElse loc c tl t el e => do
    let t ← trimStmts t
    let e ← trimStmts e
    pure (.ifElse loc c tl t el e)
  | .ret loc v => pure (.ret loc v)
  | .assign loc n t v => pure (.assign loc n t v)
  | .use loc n v => pure (.use loc n v)
  | .expr loc v => pure (.expr loc v)
  | .missing => pure .missing

/-- Drops unreachable statements of a block. -/
def trimStmts : List Stmt → Revised (List Stmt)
  | [] => pure []
  | s :: ss => do
    let s ← s.trim
    if s.terminates && !ss.isEmpty then Revised.replaced [s]
    else
      let ss ← trimStmts ss
      pure (s :: ss)

end

/-- Drops unreachable statements. -/
def Program.dropUnreachable (p : Program) : Revised Program :=
  p.mapFunctions fun f => do
    let stmts ← trimStmts f.body.stmts
    pure { f with body := { f.body with stmts } }

end FunRiscv
