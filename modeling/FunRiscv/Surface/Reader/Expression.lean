import FunRiscv.Surface.Reader.Literal

/-!
# Reading types, expressions, patterns and statements

The rules of the grammar, each a reading action that takes the reader of nested parts as an
argument. Every rule calls that reader only after it has read a byte of its own, so nesting is
bounded by the length of the text.

* `Nonterminal`: the parts that nest, and `Nonterminal.Tree`: what each of them reads.
* `precedence`: the binary operators from the loosest level to the tightest. All levels associate to
  the left; the power operator binds tighter than any of them and associates to the right.
* `rule`: the rule of each nonterminal.
-/

namespace FunRiscv

/-- The parts of the grammar that nest. -/
inductive Nonterminal where
  | type | expr | power | ifExpr | pattern | block | ifStmt
deriving DecidableEq, Repr

/-- What a nonterminal reads. -/
abbrev Nonterminal.Tree : Nonterminal → Type
  | type => TypeExpr
  | expr => Expr
  | power => Expr
  | ifExpr => Expr
  | pattern => Pattern
  | block => Block
  | ifStmt => Stmt

/-- A reader of nested parts. -/
abbrev SubReader := (k : Nonterminal) → Reading k.Tree

/-- The binary operators by level, from the loosest to the tightest. -/
def precedence : List (List Operator) :=
  [[.eq, .ne, .lt, .le, .gt, .ge], [.or], [.xor], [.and], [.shl, .shr], [.add, .sub],
    [.mul, .div, .mod]]

namespace Reading

variable (src : Source) (sub : SubReader)

/-- Enough rounds for any repetition. -/
def rounds : Nat := src.size + 1

/-! ### Types and parameters -/

/-- A parenthesised type, a tuple type, or a named type with its arguments. -/
def typeAtom : Reading TypeExpr := do
  let start ← tokenStart src
  if ← punct src .openParen then
    let elems ← if ← punct src .closeParen then pure [] else do
      let elems ← commaList src (sub .type) (rounds src)
      expect src .closeParen
      pure elems
    match elems with
    | [t] => return t
    | _ => return .tuple (← locationFrom src start) elems
  else
    let n ← inContext "type" (name src)
    let args ← if ← punct src .less then do
        let args ← commaList src (sub .type) (rounds src)
        closeAngle src
        pure args
      else pure []
    return .name (← locationFrom src start) n args

/-- A type: an atom, or a function type, whose arrow associates to the right. -/
def typeExpr : Reading TypeExpr := do
  let start ← tokenStart src
  let t ← typeAtom src sub
  if ← punct src .arrow then
    let result ← inContext "result type" (sub .type)
    return .func (← locationFrom src start) t result
  else return t

/-- A parameter, with its annotation if it has one. -/
def param : Reading Param := do
  let start ← tokenStart src
  let n ← inContext "param" (name src)
  let type ← if ← punct src .colon then some <$> inContext ("param " ++ n) (sub .type)
    else pure none
  return { loc := ← locationFrom src start, name := n, type }

/-- Parameters between parentheses. -/
def params : Reading (List Param) := do
  expect src .openParen
  if ← punct src .closeParen then return []
  else
    let ps ← commaList src (param src sub) (rounds src)
    expect src .closeParen
    return ps

/-! ### Expressions -/

/-- Whether a comma stands before a position, blanks aside. -/
def commaBefore (src : Source) : (i : Nat) → Look Bool
  | 0 => pure false
  | i + 1 => do
    if (← src.passBlanks .all i) ≠ i then commaBefore src i else return (← src.index i) == 0x2c

/-- Whether a comma stands before the bracket that ends at `stop`, blanks aside. -/
def closesAfterComma (stop : Nat) : Look Bool := commaBefore src (stop - 1)

/-- An expression between parentheses, or a tuple. A single element is a tuple only if a
comma follows it. -/
def parenthesised (start : Nat) : Reading Expr := do
  let elems ← closedList src (sub .expr) .closeParen (rounds src)
  match elems with
  | [x] =>
    if ← look (closesAfterComma src (← get)) then return .tuple (← locationFrom src start) elems
    else return x
  | _ => return .tuple (← locationFrom src start) elems

/-- An expression between braces. -/
def braced : Reading Expr := do
  expect src .openBrace
  let x ← sub .expr
  expect src .closeBrace
  return x

/-- A lambda, after its keyword. -/
def lambda (start : Nat) : Reading Expr := do
  let ps ← inContext "lambda" (params src sub)
  expect src .openBrace
  let body ← inContext "lambda body" (sub .expr)
  expect src .closeBrace
  return .lambda (← locationFrom src start) ps body

/-- A conditional expression, after its keyword. -/
def ifExprTail (start : Nat) : Reading Expr := do
  let cond ← inContext "if condition" (sub .expr)
  let thenArm ← inContext "then" (braced src sub)
  if ← keyword src "else" then
    let elseArm ← inContext "else" do
      if ← nextIsKeyword src "if" then sub .ifExpr else braced src sub
    return .ifElse (← locationFrom src start) cond thenArm elseArm
  else unexpected src "else"

/-- A conditional expression. -/
def ifExpr : Reading Expr := do
  let start ← tokenStart src
  if ← keyword src "if" then ifExprTail src sub start else unexpected src "expression"

/-- One arm of a match. -/
def matchCase : Reading Case := do
  let start ← tokenStart src
  let p ← inContext "case" (sub .pattern)
  expect src .fatArrow
  let body ← inContext "case body" (sub .expr)
  return .mk (← locationFrom src start) p body

/-- A match, after its keyword. -/
def matchTail (start : Nat) : Reading Expr := do
  let scrutinee ← inContext "match" (sub .expr)
  expect src .openBrace
  let cases ← closedList src (matchCase src sub) .closeBrace (rounds src)
  return .matchOn (← locationFrom src start) scrutinee cases

/-- An expression that starts with a word. -/
def wordExpr (start : Nat) (w : String) (stop : Nat) : Reading Expr := do
  let loc := src.locate start stop
  set stop
  if w == "true" then return .bool loc true
  else if w == "false" then return .bool loc false
  else if w == "lambda" then lambda src sub start
  else if w == "if" then ifExprTail src sub start
  else if w == "match" then matchTail src sub start
  else if isKeyword w then unexpectedAt src start "expression"
  else return .var loc w

/-- An expression that starts with punctuation. -/
def punctExpr (start : Nat) : Reading Expr := do
  if ← punct src .star then return .eraser (← locationFrom src start)
  else if ← punct src .openParen then parenthesised src sub start
  else if ← punct src .openBracket then
    let elems ← closedList src (sub .expr) .closeBracket (rounds src)
    return .list (← locationFrom src start) elems
  else unexpected src "expression"

/-- A primary expression at the start of a token. -/
def primaryAt (start : Nat) : Reading Expr := do
  if start = src.size then unexpectedAt src start "expression"
  else
    let b ← look (src.index start)
    if isDigit b then number src start start
    else if ← look (pure (b == 0x2d || b == 0x2b) <&&> src.holdsAt isDigit (start + 1)) then
      number src start (start + 1)
    else if b == 0x22 then string src start
    else match ← look (src.wordAt? start) with
      | some (w, stop) => wordExpr src sub start w stop
      | none => punctExpr src sub start

/-- A primary expression: a literal, a name, a bracketed expression or one that starts
with a keyword. -/
def primary : Reading Expr := do primaryAt src sub (← tokenStart src)

/-- An argument given by name, or nothing if the argument is positional. -/
def namedArg? : Reading (Option NamedArg) := do
  let start ← tokenStart src
  match ← look (src.nameAfter? start) with
  | none => return none
  | some (n, stop) =>
    match ← look (src.punctAfter? stop) with
    | some (.colon, j) => do
      set j
      let value ← inContext ("argument " ++ n) (sub .expr)
      return some (.mk (← locationFrom src start) n value)
    | _ => return none

/-- Arguments after an opening parenthesis, up to the closing one. `named` holds whether a
named one came before. -/
def arguments : (fuel : Nat) → (named : Bool) → Reading (List Expr × List NamedArg)
  | 0, _ => failWith ReadCause.exhausted
  | fuel + 1, named => do
    match ← namedArg? src sub with
    | some a =>
      if ← punct src .comma then
        let (xs, as) ← arguments fuel true
        return (xs, a :: as)
      else
        expect src .closeParen
        return ([], [a])
    | none =>
      if named then unexpected src "named argument"
      else
        let x ← inContext "argument" (sub .expr)
        if ← punct src .comma then
          let (xs, as) ← arguments fuel false
          return (x :: xs, as)
        else
          expect src .closeParen
          return ([x], [])

/-- The name of a field, a word or a number. -/
def fieldName : Reading String := do
  let i ← tokenStart src
  match ← look (src.wordAt? i) with
  | some (w, j) =>
    set j
    return w
  | none =>
    let j ← look (src.pass isDigit i)
    if i = j then unexpectedAt src i "field"
    else
      let digits ← look (src.cut i j)
      set j
      return Text.ofAscii digits

/-- Calls and field accesses after an expression that starts at `start`. -/
def postfixes (start : Nat) : (fuel : Nat) → Expr → Reading Expr
  | 0, _ => failWith ReadCause.exhausted
  | fuel + 1, x => do
    if ← punct src .openParen then
      let (args, named) ← if ← punct src .closeParen then pure ([], [])
        else arguments src sub (rounds src) false
      let call := .call (← locationFrom src start) x args named
      postfixes start fuel call
    else if ← punct src .dot then
      let f ← fieldName src
      let access := .access (← locationFrom src start) x f
      postfixes start fuel access
    else return x

/-- A primary expression with its calls and field accesses. -/
def postfixed : Reading Expr := do
  let start ← tokenStart src
  let x ← primary src sub
  postfixes src sub start (rounds src) x

/-- Powers, which associate to the right. -/
def powerExpr : Reading Expr := do
  let start ← tokenStart src
  let x ← postfixed src sub
  if ← punct src .starStar then
    let y ← inContext "operand of **" (sub .power)
    return .binOp (← locationFrom src start) .pow x y
  else return x

/-- The operator of a level that a token writes, with the end of the token. -/
def levelOperator? (ops : List Operator) (token : Punct × Nat) : Option (Operator × Nat) := do
  let op ← Operator.ofSymbol? token.1.spelling
  if ops.contains op then some (op, token.2) else none

/-- Further operands of one level after a left operand that starts at `start`. -/
def operands (operand : Reading Expr) (ops : List Operator) (start : Nat) :
    (fuel : Nat) → Expr → Reading Expr
  | 0, _ => failWith ReadCause.exhausted
  | fuel + 1, x => do
    match (← look (src.punctAfter? (← get))).bind (levelOperator? ops) with
    | none => return x
    | some (op, j) => do
      set j
      let y ← inContext ("operand of " ++ op.symbol) operand
      let whole := .binOp (← locationFrom src start) op x y
      operands operand ops start fuel whole

/-- Binary operations of the given levels, loosest first. -/
def binary : (levels : List (List Operator)) → Reading Expr
  | [] => powerExpr src sub
  | ops :: tighter => do
    let start ← tokenStart src
    let x ← binary tighter
    operands src (binary tighter) ops start (rounds src) x

/-! ### Patterns -/

/-- A pattern that starts with a name: a wildcard, a constructor or a variable. A name with
parentheses or a capital is a constructor. -/
def namePattern (start : Nat) (n : String) : Reading Pattern := do
  let loc ← locationFrom src start
  if n == "_" then return .wild loc
  else if ← punct src .openParen then
    let args ← closedList src (sub .pattern) .closeParen (rounds src)
    return .cons (← locationFrom src start) n args
  else if ← look (isCapital <$> src.index start) then return .cons loc n []
  else return .var loc n

/-- A pattern: a name, a tuple or a literal. -/
def pattern : Reading Pattern := do
  let here ← get
  let start ← tokenStart src
  match ← look (src.nameAfter? start) with
  | some (n, j) => do
    set j
    namePattern src sub start n
  | none =>
    if ← punct src .openParen then
      let elems ← closedList src (sub .pattern) .closeParen (rounds src)
      return .tuple (← locationFrom src start) elems
    else
      let x ← inContext "pattern" (primary src sub)
      if x.isLiteral then return .lit x.loc x else unexpectedAt src here "pattern"

/-! ### Statements -/

/-- The part of an assignment up to its equals sign. It fails if it does not start with a name. -/
def assignHead : Reading (Option (String × Option TypeExpr)) := do
  let target ← name src
  let type ← if ← punct src .colon then some <$> sub .type else pure none
  if ← punct src .equals then return some (target, type) else return none

/-- The part of an assignment up to its equals sign, or nothing if what stands here is none. To
leave the text is no way to find that out. -/
def assignHead? : Reading (Option (String × Option TypeExpr)) := fun i =>
  match assignHead src sub i with
  | .ok (some h, j) => .ok (some h, j)
  | .error ⟨trail, .outside access⟩ => .error ⟨trail, .outside access⟩
  | _ => .ok (none, i)

/-- A conditional statement, after its keyword. -/
def ifTail (start : Nat) : Reading Stmt := do
  let cond ← inContext "if condition" (sub .expr)
  let thenArm ← inContext "if" (sub .block)
  if ← keyword src "else" then
    let elseArm ← if ← nextIsKeyword src "if" then do
        let nested ← sub .ifStmt
        pure { loc := nested.loc, stmts := [nested] : Block }
      else inContext "else" (sub .block)
    return .ifElse (← locationFrom src start) cond thenArm.loc thenArm.stmts elseArm.loc
      elseArm.stmts
  else return .ifThen (← locationFrom src start) cond thenArm.loc thenArm.stmts

/-- A conditional statement. -/
def ifStmt : Reading Stmt := do
  let start ← tokenStart src
  if ← keyword src "if" then ifTail src sub start else unexpected src "if"

/-- A return, after its keyword. -/
def returnTail (start : Nat) : Reading Stmt := do
  if ← punct src .semicolon then return .ret (← locationFrom src start) none
  else
    let x ← inContext "return" (sub .expr)
    expect src .semicolon
    return .ret (← locationFrom src start) (some x)

/-- A local definition, after its keyword. -/
def useTail (start : Nat) : Reading Stmt := do
  let n ← inContext "use" (name src)
  expect src .equals
  let x ← inContext ("use " ++ n) (sub .expr)
  expect src .semicolon
  return .use (← locationFrom src start) n x

/-- A statement. -/
def stmt : Reading Stmt := do
  let start ← tokenStart src
  if ← keyword src "return" then returnTail src sub start
  else if ← keyword src "use" then useTail src sub start
  else if ← keyword src "if" then ifTail src sub start
  else match ← assignHead? src sub with
    | some (target, type) => do
      let x ← inContext ("assign " ++ target) (sub .expr)
      expect src .semicolon
      return .assign (← locationFrom src start) target type x
    | none =>
      let x ← inContext "statement" (sub .expr)
      expect src .semicolon
      return .expr (← locationFrom src start) x

/-- Statements between braces. -/
def block : Reading Block := do
  let start ← tokenStart src
  expect src .openBrace
  let stmts ← manyUntil src (stmt src sub) .closeBrace (rounds src)
  return { loc := ← locationFrom src start, stmts }

/-! ### The rules together -/

/-- The rule of each nonterminal. -/
def rule : (k : Nonterminal) → Reading k.Tree
  | .type => typeExpr src sub
  | .expr => binary src sub precedence
  | .power => powerExpr src sub
  | .ifExpr => ifExpr src sub
  | .pattern => pattern src sub
  | .block => block src sub
  | .ifStmt => ifStmt src sub

/-- Reads a nonterminal with at most `fuel` levels of nesting. -/
def nested : (fuel : Nat) → SubReader
  | 0, _ => failWith ReadCause.exhausted
  | fuel + 1, k => rule src (nested fuel) k

/-- Reads a nonterminal. Each level of nesting reads a byte, so the length of the text
bounds their number. -/
def tree : SubReader := nested src (src.size + 1)

end Reading

end FunRiscv
