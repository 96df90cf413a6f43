import Fermata.Number.Text
import Fermata.Syntax.Error
import Fermata.Syntax.Lexeme
import Fermata.Syntax.Literal
import Fermata.Syntax.Tree

/-!
# The grammar

One matcher for each rule of the guest language, with the tree it stands for. A rule that matches
may still have no tree (an assignment to a call, a `let`): its value is then a `BuildError`, and the
first one in reading order is reported, but only when the whole text matches.

* `parse` (`parse_program`) reads a program. `fuel` bounds the nesting of rules; `parse` gives enough of
  it for any text of the given length.
* `statement` and what is above it (`build_statement`, `build_var_decls`, `build_for_stmt`,
  `build_for_in_stmt`, `build_try_stmt`) read statements, `functionExpr` (`build_function`) a literal.
* `expression` and what is above it (`build_expression`, `build_binary_expr`, `build_unary`,
  `build_chain`) read expressions; `precedence` orders the operators, `groupLeft` groups them.
* `numberValue` (`parse_number`) is the value of a number, which may have none.

An assignment and a plain expression both start with a left-hand side. It is read once, and its
reply is handed down to the place where the expression needs it (`head`).
-/

namespace Fermata.Grammar

open Matcher

/-- A tree, or the reason why there is none. -/
abbrev Built (α : Type) := Except BuildError α

/-- A reply for an expression that was already matched at a cursor. -/
abbrev Head := Option (Reply (Built Expr))

/-- What was already matched here, or else `p`. -/
def given (head : Head) (p : Matcher (Built Expr)) : Matcher (Built Expr) :=
  match head with
  | some reply => fun _ => reply
  | none => p

/-- A keyword. -/
def kw (k : String) : Matcher Token := token (.keyword k)

/-- A piece of text. -/
def sym (s : String) : Matcher Unit := text s.toList

/-- An identifier. -/
def ident : Matcher Token := token .identifier

/-- One token of a table, as one named rule. -/
def pick (table : List (Lexeme × α)) : Matcher α := fun c =>
  go table c
where
  /-- Try the rest of the table. -/
  go : List (Lexeme × α) → Matcher α
    | [], c => ⟨c.pos, none⟩
    | (l, a) :: rest, c =>
      match l c.rest with
      | some (text, after) => ⟨{}, some (a, c.passText text after)⟩
      | none => go rest c

/-- One or more, with commas between. -/
def commaList (fuel : Nat) (p : Matcher α) : Matcher (List α) :=
  p.andThen fun first => (many fuel ((sym ",").before p)).map (first :: ·)

/-- A list in brackets that may be empty and may end with a comma. -/
def bracketed (fuel : Nat) (opening closing : String) (p : Matcher α) : Matcher (List α) :=
  (sym opening).andThen fun _ =>
    ((optional ((commaList fuel p).closedBy (optional (sym ",")))).map (·.getD [])).closedBy
      (sym closing)

/-- Fail with a cause at a span. -/
def refuse (cause : BuildCause) (span : Span) : Built α := .error ⟨cause, span⟩

/-- The value of a number token. -/
def numberValue (t : Token) (span : Span) : Built Float :=
  match Literal.number? t.chars with
  | some x => .ok x
  | none => refuse (.numberTooLarge t.text) span

/-! ## Operators -/

/-- An operator between two operands. -/
inductive Operator where
  | binary (op : BinaryOp)
  | logical (op : LogicalOp)
deriving DecidableEq, Repr

/-- The operators between operands, loosest first; those of one level group to the left. The power
operator binds tighter than all of them and groups to the right. -/
def precedence : List (List (Lexeme × Operator)) :=
  [ [(.operator "??" ['='], .logical .nullish)],
    [(.operator "||" ['='], .logical .or)],
    [(.operator "&&" ['='], .logical .and)],
    [(.operator "|" ['|', '='], .binary .bitOr)],
    [(.operator "^" ['='], .binary .bitXor)],
    [(.operator "&" ['&', '='], .binary .bitAnd)],
    [(.operator "===" [], .binary .strictEq), (.operator "!==" [], .binary .strictNe),
     (.operator "==" [], .binary .eq), (.operator "!=" [], .binary .ne)],
    [(.operator "<=" [], .binary .lte), (.operator ">=" [], .binary .gte),
     (.operator "<" ['<', '='], .binary .lt), (.operator ">" ['>', '='], .binary .gt),
     (.keyword "instanceof", .binary .instanceOf), (.keyword "in", .binary .hasKey)],
    [(.operator ">>>" ['='], .binary .ushr), (.operator "<<" ['='], .binary .shl),
     (.operator ">>" ['=', '>'], .binary .shr)],
    [(.operator "+" ['+', '='], .binary .add), (.operator "-" ['-', '='], .binary .sub)],
    [(.operator "*" ['*', '='], .binary .mul), (.operator "/" ['/', '*', '='], .binary .div),
     (.operator "%" ['='], .binary .mod)] ]

/-- The power operator. -/
def power : Matcher Token := token (.operator "**" ['='])

/-- The operators in front of an operand. -/
def unaryOps : List (Lexeme × UnaryOp) :=
  [(.operator "!" [], .not), (.operator "~" [], .bitNot), (.operator "-" ['-'], .neg),
   (.operator "+" ['+'], .plus), (.keyword "typeof", .typeOf), (.keyword "void", .void),
   (.keyword "delete", .delete)]

/-- Increment and decrement. -/
def updateOps : List (Lexeme × UpdateOp) := [(.operator "++" [], .inc), (.operator "--" [], .dec)]

/-- The assignment operators; the plain one must not be the start of a comparison. -/
def assignOps : List (Lexeme × AssignOp) :=
  [(.operator ">>>=" [], .compound .ushr), (.operator "<<=" [], .compound .shl),
   (.operator ">>=" [], .compound .shr), (.operator "**=" [], .compound .pow),
   (.operator "&&=" [], .logical .and), (.operator "||=" [], .logical .or),
   (.operator "??=" [], .logical .nullish), (.operator "+=" [], .compound .add),
   (.operator "-=" [], .compound .sub), (.operator "*=" [], .compound .mul),
   (.operator "/=" [], .compound .div), (.operator "%=" [], .compound .mod),
   (.operator "&=" [], .compound .bitAnd), (.operator "|=" [], .compound .bitOr),
   (.operator "^=" [], .compound .bitXor), (.operator "=" ['='], .plain)]

/-- The node of an operator between two operands. -/
def Operator.node (op : Operator) (left right : Expr) : Expr :=
  let span := left.span.merge right.span
  match op with
  | .binary op => .binary span op left right
  | .logical op => .logical span op left right

/-- Operands and operators of one level, grouped to the left. -/
def groupLeft (first : Built Expr) (rest : List (Operator × Built Expr)) : Built Expr := do
  rest.foldlM (fun left (op, right) => return op.node left (← right)) (← first)

/-! ## Suffixes -/

/-- What can follow an operand: arguments, a named member, a computed member. -/
inductive Suffix where
  | arguments (span : Span) (args : List (Built Expr))
  | named (span : Span) (name : String)
  | computed (span : Span) (key : Built Expr)

/-- An operand with one suffix. -/
def Suffix.apply (base : Expr) : Suffix → Built Expr
  | .arguments span args => return .call (base.span.merge span) base (← args.mapM id)
  | .named span name => .ok (.member (base.span.merge span) base (.named name) false)
  | .computed span key =>
    return .member (base.span.merge span) base (.computed (← key)) false

/-- An operand with its suffixes. -/
def chain (base : Built Expr) (suffixes : List Suffix) : Built Expr := do
  suffixes.foldlM Suffix.apply (← base)

/-! ## Targets -/

/-- An assignment; its target is checked before the value. -/
def assignNode (op : AssignOp) (target value : Built Expr) (span : Span) : Built Expr := do
  let target ← target
  if target.isAssignable then return .assign span op target (← value)
  else refuse .assignTarget target.span

/-- An increment or decrement. -/
def updateNode (op : UpdateOp) (before : Bool) (target : Built Expr) (span : Span) :
    Built Expr := do
  let target ← target
  if target.isAssignable then return .update span op before target
  else refuse .updateTarget span

/-! ## Leaves -/

/-- `this`. -/
def thisExpr : Matcher (Built Expr) := (kw "this").map fun t => .ok (.this t.span)

/-- A literal of one token. -/
def literal : Matcher (Built Expr) :=
  rule
    (firstOf
      [(token .number).map fun t => return .number t.span (← numberValue t t.span),
       (token .string).map fun t => .ok (.string t.span (Literal.string t.chars)),
       (kw "true").map fun t => .ok (.bool t.span true),
       (kw "false").map fun t => .ok (.bool t.span false),
       (kw "null").map fun t => .ok (.null t.span)])
    fun _ e => e

/-- A name as an expression. -/
def nameExpr : Matcher (Built Expr) := ident.map fun t => .ok (.ident t.span t.text)

/-- The key of a property, given the span of the property. -/
def propertyKey : Matcher (Span → Built String) :=
  rule
    (firstOf
      [(token .string).map fun t _ => .ok (Literal.string t.chars),
       (token .number).map fun t span => return Number.display (← numberValue t span),
       (token .word).map fun t _ => .ok t.text])
    fun _ k => k

/-- A parameter list. -/
def params (fuel : Nat) : Matcher (List String) :=
  rule
    ((sym "(").andThen fun _ => ((optional (commaList fuel ident)).closedBy (sym ")")))
    fun _ names => (names.getD []).map Token.text

/-- `break` or `continue`, with a label on the same line. -/
def jump (k : String) (node : Span → Option String → Stmt) : Matcher (Built Stmt) :=
  rule
    ((rule
      ((kw k).tight fun _ => optional ((silent .inlineBlanks).tight fun _ => ident))
      fun _ label => label).closedBy (optional (sym ";")))
    fun span label => .ok (node span (label.map Token.text))

/-- `.name` behind an operand. -/
def dotMember : Matcher Suffix :=
  rule ((sym ".").before (token .word)) fun span t => .named span t.text

mutual

/-- Expressions with commas between. -/
def expression : Nat → Matcher (Built Expr)
  | 0 => fail
  | n + 1 =>
    rule (commaList n (assignment n)) fun span es => do
      match ← es.mapM id with
      | [e] => return e
      | es => return .sequence span es

/-- An assignment, or an expression that is none. -/
def assignment : Nat → Matcher (Built Expr)
  | 0 => fail
  | n + 1 =>
    rule
      (fun c =>
        let head := lhsExpr n c
        ((andThen (fun _ => head) fun target =>
            (pick assignOps).andThen fun op =>
              (assignment n).map fun value => assignNode op target value).or
          ((conditional n (some head)).map fun e _ => e)) c)
      fun span node => node span

/-- A choice between two expressions, or an expression that is none. -/
def conditional : Nat → Head → Matcher (Built Expr)
  | 0, _ => fail
  | n + 1, head =>
    rule
      ((level n precedence head).andThen fun test =>
        (optional ((sym "?").andThen fun _ => (assignment n).andThen fun yes =>
          (sym ":").before ((assignment n).map fun no => (yes, no)))).map fun arms => (test, arms))
      fun span (test, arms) =>
        match arms with
        | none => test
        | some (yes, no) => return .conditional span (← test) (← yes) (← no)

/-- Operands joined by the operators of a level and of the tighter ones after it. -/
def level : Nat → List (List (Lexeme × Operator)) → Head → Matcher (Built Expr)
  | 0, _, _ => fail
  | n + 1, [], head => exponent n head
  | n + 1, ops :: tighter, head =>
    rule
      ((level n tighter head).andThen fun first =>
        (many n ((pick ops).andThen fun op => (level n tighter none).map fun e => (op, e))).map
          fun rest => groupLeft first rest)
      fun _ e => e

/-- A power, grouped to the right. -/
def exponent : Nat → Head → Matcher (Built Expr)
  | 0, _ => fail
  | n + 1, head =>
    rule
      ((unary n head).andThen fun base =>
        (optional (power.before (exponent n none))).map fun e => (base, e))
      fun span (base, e) =>
        match e with
        | none => base
        | some e => return .binary span .pow (← base) (← e)

/-- An operand with operators in front. -/
def unary : Nat → Head → Matcher (Built Expr)
  | 0, _ => fail
  | n + 1, head =>
    rule
      (firstOf
        [(rule (pick unaryOps) fun _ op => op).andThen fun op =>
            (unary n none).map fun arg span => return .unary span op (← arg),
         (pick updateOps).andThen fun op =>
            (unary n none).map fun target span => updateNode op true target span,
         (updated n head).map fun e _ => e])
      fun span node => node span

/-- An operand with an update operator behind. -/
def updated : Nat → Head → Matcher (Built Expr)
  | 0, _ => fail
  | n + 1, head =>
    rule
      ((given head (lhsExpr n)).andThen fun target =>
        (optional (pick updateOps)).map fun op => (target, op))
      fun span (target, op) =>
        match op with
        | none => target
        | some op => updateNode op false target span

/-- An operand with calls and members behind. -/
def lhsExpr : Nat → Matcher (Built Expr)
  | 0 => fail
  | n + 1 =>
    rule
      (((newExpr n).or (primary n)).andThen fun base =>
        (many n (firstOf [arguments n, dotMember, indexMember n])).map fun ss => chain base ss)
      fun _ e => e

/-- `new` with a callee and perhaps arguments. -/
def newExpr : Nat → Matcher (Built Expr)
  | 0 => fail
  | n + 1 =>
    rule
      ((kw "new").andThen fun _ => (memberChain n).andThen fun callee =>
        (optional (arguments n)).map fun args => (callee, args))
      fun span (callee, args) => do
        let callee ← callee
        match args with
        | some (.arguments _ args) => return .construct span callee (← args.mapM id)
        | _ => return .construct span callee []

/-- An operand with members behind. -/
def memberChain : Nat → Matcher (Built Expr)
  | 0 => fail
  | n + 1 =>
    rule
      ((primary n).andThen fun base =>
        (many n (dotMember.or (indexMember n))).map fun ss => chain base ss)
      fun _ e => e

/-- Arguments in parentheses. -/
def arguments : Nat → Matcher Suffix
  | 0 => fail
  | n + 1 => rule (bracketed n "(" ")" (assignment n)) fun span args => .arguments span args

/-- A key in brackets. -/
def indexMember : Nat → Matcher Suffix
  | 0 => fail
  | n + 1 =>
    rule ((sym "[").andThen fun _ => (expression n).closedBy (sym "]"))
      fun span key => .computed span key

/-- An operand. -/
def primary : Nat → Matcher (Built Expr)
  | 0 => fail
  | n + 1 =>
    rule
      (firstOf
        [functionExpr n, thisExpr, literal, nameExpr,
         rule (bracketed n "[" "]" (assignment n)) fun span es =>
            return .array span (← es.mapM id),
         rule (bracketed n "\x7b" "\x7d" (property n)) fun span ps =>
            return .object span (← ps.mapM id),
         rule ((sym "(").andThen fun _ => (expression n).closedBy (sym ")")) fun _ e => e])
      fun _ e => e

/-- A property of an object literal; a name alone stands for itself. -/
def property : Nat → Matcher (Built PropertyDef)
  | 0 => fail
  | n + 1 =>
    rule
      (((propertyKey.closedBy (sym ":")).andThen fun key => (assignment n).map
          fun value (span : Span) => (return ⟨← key span, ← value, span⟩ : Built PropertyDef)).or
        (ident.map fun t (span : Span) =>
          (.ok ⟨t.text, .ident span t.text, span⟩ : Built PropertyDef)))
      fun span node => node span

/-- A function as an expression. -/
def functionExpr : Nat → Matcher (Built Expr)
  | 0 => fail
  | n + 1 => fun c =>
    rule
      ((kw "function").andThen fun _ => (optional ident).andThen fun name =>
        (params n).andThen fun ps => (functionBody n).map fun body => (name, ps, body))
      (fun span (name, ps, body) => do
        let body ← body
        return .function span ⟨c.nextFunction, name.map Token.text, ps, body, false, span⟩)
      { c with nextFunction := c.nextFunction + 1 }

/-- The statements of a function. -/
def functionBody : Nat → Matcher (Built (List Stmt))
  | 0 => fail
  | n + 1 =>
    rule ((sym "\x7b").andThen fun _ => (many n (statement n)).closedBy (sym "\x7d"))
      fun _ body => body.mapM id

/-- A statement. -/
def statement : Nat → Matcher (Built Stmt)
  | 0 => fail
  | n + 1 =>
    rule
      (firstOf
        [block n, varStmt n, letStmt n, functionDecl n, ifStmt n, doStmt n, whileStmt n,
         forEachStmt n, forStmt n, returnStmt n, jump "break" .leave, jump "continue" .next,
         throwStmt n, tryStmt n, labeledStmt n, rule (sym ";") fun span _ => .ok (.empty span),
         rule ((expression n).closedBy (optional (sym ";"))) fun span e =>
            return .expression span (← e)])
      fun _ s => s

/-- Statements in braces. -/
def block : Nat → Matcher (Built Stmt)
  | 0 => fail
  | n + 1 =>
    rule ((sym "\x7b").andThen fun _ => (many n (statement n)).closedBy (sym "\x7d"))
      fun span body => return .block span (← body.mapM id)

/-- A name with an optional value. -/
def varDecl : Nat → Matcher (Built VarDecl)
  | 0 => fail
  | n + 1 =>
    rule
      (ident.andThen fun name =>
        (optional ((sym "=").andThen fun _ => (notNext '=').before (assignment n))).map
          fun init => (name, init))
      fun span (name, init) =>
        match init with
        | none => .ok ⟨name.text, none, span⟩
        | some e => return ⟨name.text, some (← e), span⟩

/-- A `var` statement. -/
def varStmt : Nat → Matcher (Built Stmt)
  | 0 => fail
  | n + 1 =>
    rule
      ((kw "var").andThen fun _ => (commaList n (varDecl n)).closedBy (optional (sym ";")))
      fun span decls => return .declare span (← decls.mapM id)

/-- A declaration that is bound to its block. -/
def letStmt : Nat → Matcher (Built Stmt)
  | 0 => fail
  | n + 1 =>
    rule
      (((kw "let").or (kw "const")).andThen fun _ =>
        (commaList n (varDecl n)).closedBy (optional (sym ";")))
      fun span _ => refuse .blockScoped span

/-- A function as a statement. -/
def functionDecl : Nat → Matcher (Built Stmt)
  | 0 => fail
  | n + 1 => fun c =>
    rule
      ((kw "function").andThen fun _ => ident.andThen fun name =>
        (params n).andThen fun ps => (functionBody n).map fun body => (name, ps, body))
      (fun span (name, ps, body) => do
        let body ← body
        return .function span ⟨c.nextFunction, some name.text, ps, body, true, span⟩)
      { c with nextFunction := c.nextFunction + 1 }

/-- A condition in parentheses. -/
def condition : Nat → Matcher (Built Expr)
  | 0 => fail
  | n + 1 => (sym "(").andThen fun _ => (expression n).closedBy (sym ")")

/-- A conditional statement. -/
def ifStmt : Nat → Matcher (Built Stmt)
  | 0 => fail
  | n + 1 =>
    rule
      ((kw "if").andThen fun _ => (condition n).andThen fun test =>
        (statement n).andThen fun yes =>
          (optional (rule ((kw "else").before (statement n)) fun _ s => s)).map
            fun no => (test, yes, no))
      fun span (test, yes, no) => do
        let test ← test
        let yes ← yes
        match no with
        | none => return .cond span test yes none
        | some no => return .cond span test yes (some (← no))

/-- A loop that tests first. -/
def whileStmt : Nat → Matcher (Built Stmt)
  | 0 => fail
  | n + 1 =>
    rule
      ((kw "while").andThen fun _ => (condition n).andThen fun test =>
        (statement n).map fun body => (test, body))
      fun span (test, body) => return .whileLoop span (← test) (← body)

/-- A loop that tests last. -/
def doStmt : Nat → Matcher (Built Stmt)
  | 0 => fail
  | n + 1 =>
    rule
      ((kw "do").andThen fun _ => (statement n).andThen fun body =>
        (kw "while").andThen fun _ => ((condition n).map fun test => (body, test)).closedBy
          (optional (sym ";")))
      fun span (body, test) => return .doLoop span (← body) (← test)

/-- What a loop over a collection assigns, given the span of the target. -/
def forTarget : Nat → Matcher (Built ForTarget)
  | 0 => fail
  | n + 1 =>
    rule
      ((((kw "var").before ident).map fun t (span : Span) =>
          (.ok (.declare span t.text) : Built ForTarget)).or
        ((lhsExpr n).map fun e (span : Span) => do
          let e ← e
          if e.isAssignable then return ForTarget.expression e else refuse .eachTarget span))
      fun span node => node span

/-- A loop over a collection. -/
def forEachStmt : Nat → Matcher (Built Stmt)
  | 0 => fail
  | n + 1 =>
    rule
      ((kw "for").andThen fun _ => (sym "(").andThen fun _ => (forTarget n).andThen fun target =>
        (((kw "of").map fun _ => EachKind.values).or ((kw "in").map fun _ => .keys)).andThen
          fun kind => (expression n).andThen fun source => (sym ")").andThen fun _ =>
            (statement n).map fun body => (target, kind, source, body))
      fun span (target, kind, source, body) =>
        return .forEach span kind (← target) (← source) (← body)

/-- The first part of a three-part loop. -/
def forInit : Nat → Matcher (Built ForInit)
  | 0 => fail
  | n + 1 =>
    rule
      ((rule ((kw "var").before (commaList n (varDecl n))) fun _ decls =>
          (return .declare (← decls.mapM id) : Built ForInit)).or
        ((expression n).map fun e => return .expression (← e)))
      fun _ i => i

/-- A named expression. -/
def part : Nat → Matcher (Built Expr)
  | 0 => fail
  | n + 1 => rule (expression n) fun _ e => e

/-- A three-part loop. -/
def forStmt : Nat → Matcher (Built Stmt)
  | 0 => fail
  | n + 1 =>
    rule
      ((kw "for").andThen fun _ => (sym "(").andThen fun _ =>
        ((optional (forInit n)).closedBy (sym ";")).andThen fun init =>
          ((optional (part n)).closedBy (sym ";")).andThen fun test =>
            ((optional (part n)).closedBy (sym ")")).andThen fun update =>
              (statement n).map fun body => (init, test, update, body))
      fun span (init, test, update, body) =>
        return .forLoop span (← init.mapM id) (← test.mapM id) (← update.mapM id) (← body)

/-- A `return` statement. -/
def returnStmt : Nat → Matcher (Built Stmt)
  | 0 => fail
  | n + 1 =>
    rule
      ((kw "return").andThen fun _ => (optional (expression n)).closedBy (optional (sym ";")))
      fun span arg => return .ret span (← arg.mapM id)

/-- A `throw` statement. -/
def throwStmt : Nat → Matcher (Built Stmt)
  | 0 => fail
  | n + 1 =>
    rule
      ((kw "throw").andThen fun _ => (expression n).closedBy (optional (sym ";")))
      fun span arg => return .raise span (← arg)

/-- A guarded block. -/
def tryStmt : Nat → Matcher (Built Stmt)
  | 0 => fail
  | n + 1 =>
    rule
      ((kw "try").andThen fun _ => (block n).andThen fun body =>
        (optional (rule
          ((kw "catch").andThen fun _ =>
            (optional ((sym "(").andThen fun _ => ident.closedBy (sym ")"))).andThen fun param =>
              (block n).map fun handler => (param, handler))
          fun _ clause => clause)).andThen fun handler =>
            (optional (rule ((kw "finally").before (block n)) fun _ b => b)).map
              fun finalizer => (body, handler, finalizer))
      fun span (body, handler, finalizer) => do
        let body ← body
        let handler ← handler.mapM fun (param, handler) =>
          (return ⟨param.map Token.text, ← handler⟩ : Built CatchClause)
        return .guarded span body handler (← finalizer.mapM id)

/-- A statement with a label. -/
def labeledStmt : Nat → Matcher (Built Stmt)
  | 0 => fail
  | n + 1 =>
    rule
      ((ident.closedBy (sym ":")).andThen fun label => (statement n).map fun body => (label, body))
      fun span (label, body) => return .labeled span label.text (← body)

end

/-- The end of the text, as a named rule. -/
def atEnd : Matcher Unit := fun c =>
  if c.rest.isEmpty then ⟨{}, some ((), c)⟩ else ⟨c.pos, none⟩

/-- A whole program. -/
def program (fuel : Nat) : Matcher (Built Program) := fun c =>
  let body := (succeed ()).andThen fun _ => (many fuel (statement fuel)).closedBy atEnd
  match body c with
  | ⟨reach, none⟩ => ⟨reach, none⟩
  | ⟨reach, some (stmts, c')⟩ =>
    let built : Built Program := do
      return ⟨← stmts.mapM id, ⟨c.pos, c'.pos⟩, c'.nextFunction⟩
    ⟨reach, some (built, c')⟩

/-- Rules nest less than 32 deep between two characters. -/
def fuelFor (text : List Char) : Nat := 32 * (text.length + 2)

/-- Read a program. -/
def parse (source : String) : Except CompileError Program :=
  let text := source.toList
  match program (fuelFor text) ⟨text, {}, 1⟩ with
  | ⟨reach, none⟩ => .error (.unmatched reach)
  | ⟨_, some (built, _)⟩ => built.mapError .unbuildable

end Fermata.Grammar
