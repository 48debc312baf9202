import FunRiscv.Typing.Infer

/-!
# Types of programs

A program is checked in four rounds: the names of types and modules, then constructors, fields and
aliases, then the signatures of functions, and last the bodies of functions in definition order.

* `Checking.checkProgram`: the four rounds.
* `Checker.checkExpr`, `Checker.inferExpr`: single expressions against a checker, which
  keeps what it learned.
-/

namespace FunRiscv.Checking

/-! ### Declarations -/

mutual

/-- Declares the names of types and modules, so that definitions may refer to each
other in any order. -/
def declareTypes (path : String) : List Definition → Checking Unit
  | [] => return
  | d :: ds => do
    declareType path d
    declareTypes path ds

/-- Declares the name of a type, or of a module and its types. -/
def declareType (path : String) : Definition → Checking Unit
  | .func _ => return
  | .type d =>
    declareName (path ++ d.name) (.type { name := path ++ d.name, params := d.typeParams }) d.loc
  | .object d =>
    declareName (path ++ d.name) (.type { name := path ++ d.name, params := d.typeParams }) d.loc
  | .alias d =>
    declareName (path ++ d.name) (.type { name := path ++ d.name, params := d.typeParams }) d.loc
  | .module loc n defs => do
    let name := path ++ n
    declareName name (.module name (defs.map fun d => name ++ "/" ++ d.name)) loc
    inContext ("module " ++ name) (declareTypes (name ++ "/") defs)

end

/-- The types of fields, by name. -/
def fieldTypes (params : List String) (fields : List Field) : Checking (List (String × Ty)) :=
  fields.mapM fun f => do return (f.name, ← inContext ("field " ++ f.name) (resolve params f.type))

/-- The type that a definition with type parameters introduces. -/
def selfType (name : String) (params : List String) : Ty := .named name (params.map Ty.var)

/-- A constructor from the types of its fields. -/
def constructorOf (name owner : String) (params : List String) (fields : List (String × Ty)) :
    Constructor :=
  { name, owner, params, fields := fields.map (·.1)
    signature := Ty.curry (fields.map (·.2)) (selfType owner params) }

/-- Declares the constructors of a type. -/
def declareVariants (name : String) (d : TypeDef) : Checking Unit := do
  for v in d.variants do
    let full := name ++ "/" ++ v.name
    let fields ← inContext ("variant " ++ v.name) (fieldTypes d.typeParams v.fields)
    declareName full (.constructor (constructorOf full name d.typeParams fields)) v.loc
  insertGlobal name (.type
    { name, params := d.typeParams, variants := d.variants.map fun v => name ++ "/" ++ v.name })

/-- Declares the fields and the constructor of an object. -/
def declareObject (name : String) (d : ObjectDef) : Checking Unit := do
  let fields ← fieldTypes d.typeParams d.fields
  insertGlobal name
    (.type { name, params := d.typeParams, fields,
             constructor? := some (constructorOf name name d.typeParams fields) })

/-- Declares the target of an alias. -/
def declareAlias (name : String) (d : TypeAlias) : Checking Unit := do
  let target ← resolve d.typeParams d.type
  insertGlobal name (.type { name, params := d.typeParams, target? := some target })

/-- Runs an action under a scope path, which is put back afterwards, also after a failure. -/
def underPath {α : Type} (path : String) (act : Checking α) : Checking α := do
  let saved := (← get).scopePath
  modify fun c => { c with scopePath := path }
  tryFinally act (modify fun c => { c with scopePath := saved })

mutual

/-- Declares the constructors, fields and aliases of definitions. -/
def declareMembers (path : String) : List Definition → Checking Unit
  | [] => return
  | d :: ds => do
    inContext (path ++ d.name) (declareMember path d)
    declareMembers path ds

/-- Declares the constructors, fields or target of a definition. -/
def declareMember (path : String) : Definition → Checking Unit
  | .func _ => return
  | .type d => declareVariants (path ++ d.name) d
  | .object d => declareObject (path ++ d.name) d
  | .alias d => declareAlias (path ++ d.name) d
  | .module _ n defs => underPath (path ++ n ++ "/") (declareMembers (path ++ n ++ "/") defs)

end

/-- The types of a function's parameters. One without an annotation is dynamic. -/
def paramTypes (params : List Param) : Checking (List Ty) :=
  params.mapM fun p =>
    match p.type with
    | none => return .any
    | some t => inContext ("param " ++ p.name) (resolve [] t)

/-- The written result type of a function. -/
def resultType? (d : FuncDef) : Checking (Option Ty) :=
  match d.ret with
  | none => return none
  | some t => do return some (← inContext "return type" (resolve [] t))

/-- Declares the signature of a function. -/
def declareFunc (name : String) (d : FuncDef) : Checking Unit := do
  let params ← paramTypes d.params
  let result ← resultType? d
  declareName name (.function name (Ty.curry params (result.getD .any)) true) d.loc

mutual

/-- Declares the signatures of the functions of definitions. -/
def declareFuncs (path : String) : List Definition → Checking Unit
  | [] => return
  | d :: ds => do
    inContext (path ++ d.name) (declareFuncsOf path d)
    declareFuncs path ds

/-- Declares the signatures of the functions of a definition. -/
def declareFuncsOf (path : String) : Definition → Checking Unit
  | .func d => declareFunc (path ++ d.name) d
  | .object d => d.funcs.forM fun f => declareFunc (path ++ d.name ++ "/" ++ f.name) f
  | .module _ n defs => underPath (path ++ n ++ "/") (declareFuncs (path ++ n ++ "/") defs)
  | .type _ | .alias _ => return

end

/-! ### Statements -/

/-- Assigns to a local variable that some frame has, or else binds it in the innermost frame. -/
def assignLocal (locals : List Frame) (name : String) (t : Ty) (loc : Location) :
    Checking (List Frame) := do
  match findIn? locals name with
  | some (.variable _ old) =>
    unifyAt old t loc
    return locals
  | _ => return bindLocal locals name t

mutual

/-- Checks a statement whose expressions are numbered from `i` on, in a function with result type
`result`. Gives the frames after it, and whether it contains a return. -/
def checkStmt (result : Ty) (locals : List Frame) (i : Nat) : Stmt → Checking (List Frame × Bool)
  | .ret loc none => do
    unifyAt result .none loc
    return (locals, true)
  | .ret _ (some x) => do
    expectType locals i result x
    return (locals, true)
  | .assign loc target type x => do
    let t ← match type with
      | some t => do
        let t ← resolve [] t
        expectType locals i t x
        pure t
      | none => infer locals i none x
    return (← assignLocal locals target t loc, false)
  | .use _ n x => do
    let t ← infer locals i none x
    return (bindLocal locals n t, false)
  | .ifThen _ c _ thenArm => do
    let cond ← infer locals i none c
    conditionType c.loc cond
    let returned ← checkStmts result ([] :: locals) (i + c.nodeCount) thenArm
    return (locals, returned)
  | .ifElse _ c _ thenArm _ elseArm => do
    let cond ← infer locals i none c
    conditionType c.loc cond
    let start := i + c.nodeCount
    let a ← checkStmts result ([] :: locals) start thenArm
    let b ← checkStmts result ([] :: locals) (start + stmtsNodeCount thenArm) elseArm
    return (locals, a || b)
  | .expr _ x => do
    let _ ← infer locals i none x
    return (locals, false)
  | .missing => fail {} (.gap "statement")

/-- Checks statements one after the other, and says whether they contain a return. -/
def checkStmts (result : Ty) (locals : List Frame) (i : Nat) : List Stmt → Checking Bool
  | [] => return false
  | s :: ss => do
    let (locals, a) ← checkStmt result locals i s
    let b ← checkStmts result locals (i + s.nodeCount) ss
    return a || b

end

/-! ### Functions and programs -/

/-- Checks the body of a function against its signature, and settles its type. -/
def checkFunc (name : String) (d : FuncDef) : Checking Unit := do
  modify fun c => { c with scopePath := pathOf name }
  let i := (← get).nextNode
  modify fun c => { c with nextNode := i + stmtsNodeCount d.body.stmts }
  let params ← paramTypes d.params
  let locals := (d.params.zip params).foldl (fun fs (p, t) => bindLocal fs p.name t) [[]]
  let result ← match ← resultType? d with
    | some t => pure t
    | none => fresh
  let returned ← checkStmts result locals i d.body.stmts
  if !returned then unifyAt result .none d.loc
  let t := (← get).settle (Ty.curry params result)
  modify fun c => { c with funcs := (name, t) :: c.funcs }
  insertGlobal name (.function name t true)

/-- Checks a program from the start. -/
def checkProgram (p : Program) : Checking Unit := do
  modify Checker.reset
  inContext "declare types" (declareTypes "" p.defs)
  inContext "declare" (underPath "" (declareMembers "" p.defs))
  inContext "declare" (underPath "" (declareFuncs "" p.defs))
  p.functions.forM fun f => inContext ("func " ++ f.name) (checkFunc f.name f.func)

end FunRiscv.Checking

namespace FunRiscv

/-- Checks a program with a new checker, and gives its state afterwards, also after a failure. -/
def Program.check (p : Program) (o : CheckOptions) : Except (Traced TypeError) Unit × Checker :=
  (Checking.checkProgram p).run (Checker.new o)

namespace Checker

/-- The types of functions that were checked, in definition order. -/
def funcTypes (c : Checker) (p : Program) : List (String × Ty) :=
  p.functions.filterMap fun f => (c.funcType? f.name).map (f.name, ·)

/-- Expressions numbered from `i` on, each with the type found for it. -/
def typed (c : Checker) (i : Nat) (nodes : List Expr) : List (Expr × Option Ty) :=
  nodes.zipIdx.map fun (e, k) => (e, c.typeOf? (i + k))

/-- The global symbols that are not builtin, by name. -/
def declared (c : Checker) : List (String × Symbol) :=
  ((namesIn [c.globals]).filter (!isBuiltin ·)).filterMap fun n => (c.globals.find? n).map (n, ·)

/-- Infers an expression under some frames. Its nodes are numbered from the next number on. -/
def inferExpr (c : Checker) (locals : List Frame) (x : Expr) :
    Except (Traced TypeError) Ty × Checker :=
  (Checking.infer locals c.nextNode none x).run { c with nextNode := c.nextNode + x.nodeCount }

/-- Infers an expression under some frames and unifies its type with an expected one. -/
def checkExpr (c : Checker) (locals : List Frame) (x : Expr) (t : Ty) :
    Except (Traced TypeError) Unit × Checker :=
  (Checking.expectType locals c.nextNode t x).run { c with nextNode := c.nextNode + x.nodeCount }

end Checker

end FunRiscv
