import ThingsDB.Lib.Transition
import ThingsDB.Util.Move

/-!
# Closure calls

The variable stack of a query with `ti_closure_inc`, `ti_closure_dec` and what a body does
to variables. A closure has one set of parameters; while it is active more than once, the
values of the outer activations are on `stacked` and the parameters are moved to the end of
the stack. A call either ends with a new position in `stack_pos`, or it fails since the
maximum recursion depth is exceeded.
-/

namespace ThingsDB.Closures

open Util

def maxRecursionDepth : ℕ := 24

/-- A slot of the variable stack: a parameter of a closure, or a variable which a body has
created. -/
inductive Var
  | param (closure i : ℕ)
  | loc (id : ℕ)
  deriving DecidableEq, Repr, Inhabited

variable {N V : Type}

/-- An activation of a closure. The first three fields are what its call has on the C stack,
the others only record its history. -/
structure Frame (V : Type) where
  closure : ℕ
  /-- The size of the stack when the body starts. -/
  n : ℕ
  prevLocalStack : ℕ
  /-- The stack before `ti_closure_inc`. -/
  before : List Var
  /-- The arguments, with what the program has assigned to them with `+=` and alike. -/
  args : List V
  /-- The variables its body has created. -/
  locals : List ℕ

structure Query (N V : Type) where
  vars : List Var
  localStack : ℕ
  val : Var → V
  /-- The names of the variables which are not parameters. -/
  name : ℕ → N
  next : ℕ
  depth : ℕ → ℕ
  stackPos : ℕ → ℕ → ℕ
  stacked : ℕ → List V
  /-- The active calls, the innermost first. -/
  calls : List (Frame V)
  /-- The variables which are created outside of all closures. -/
  outer : List ℕ

section

variable (params : ℕ → List N)

/-- `closure->vars` -/
def block (c : ℕ) : List Var := (List.range (params c).length).map (Var.param c)

namespace Query

def paramVals (q : Query N V) (c : ℕ) : List V := (block params c).map q.val

def setParams (q : Query N V) (c : ℕ) (vals : List V) : Query N V :=
  { q with
    val := fun v =>
      match v with
      | .param d i => if d = c then vals.getD i (q.val v) else q.val v
      | .loc _ => q.val v }

def closureInc (q : Query N V) (c : ℕ) : Option (Query N V) :=
  let n := (params c).length
  let depth := q.depth c
  if depth = maxRecursionDepth then none
  else
    let vars :=
      if depth = 0 then q.vars ++ block params c
      else vecMove q.vars (q.stackPos c (depth - 1)) n (q.vars.length - n)
    let stacked :=
      if depth = 0 then q.stacked
      else Function.update q.stacked c (q.stacked c ++ q.paramVals params c)
    some
      { q with
        vars := vars
        stacked := stacked
        stackPos := Function.update q.stackPos c
          (Function.update (q.stackPos c) depth (vars.length - n))
        depth := Function.update q.depth c (depth + 1) }

variable [Inhabited V]

def closureDec (q : Query N V) (c : ℕ) : Query N V :=
  let n := (params c).length
  let depth := q.depth c - 1
  let q := { q with depth := Function.update q.depth c depth }
  if depth ≠ 0 then
    let m := (q.stacked c).length - n
    { q.setParams c ((q.stacked c).drop m) with
      stacked := Function.update q.stacked c ((q.stacked c).take m)
      vars := vecMove q.vars (q.stackPos c depth) n (q.stackPos c (depth - 1)) }
  else
    { q.setParams c (List.replicate n default) with
      vars := q.vars.take (q.vars.length - n) }

def nameOf (q : Query N V) : Var → Option N
  | .param c i => (params c)[i]?
  | .loc id => some (q.name id)

variable [DecidableEq N]

def varGet (q : Query N V) (name : N) : Option Var :=
  q.vars.reverse.find? fun v => q.nameOf params v = some name

def propScope (q : Query N V) (name : N) : Option Var :=
  (q.vars.drop q.localStack).reverse.find? fun v => q.nameOf params v = some name

def setVal (q : Query N V) (v : Var) (x : V) : Query N V :=
  { q with val := Function.update q.val v x }

def push (q : Query N V) (name : N) (x : V) : Query N V :=
  { q with
    vars := q.vars ++ [.loc q.next]
    name := Function.update q.name q.next name
    val := Function.update q.val (.loc q.next) x
    next := q.next + 1
    calls :=
      match q.calls with
      | [] => []
      | f :: fs => { f with locals := f.locals ++ [q.next] } :: fs
    outer := if q.calls.isEmpty then q.outer ++ [q.next] else q.outer }

end Query

/-- Record an assignment to a parameter at the activation which has it. -/
def setArg (v : Var) (x : V) : List (Frame V) → List (Frame V)
  | [] => []
  | f :: fs =>
    match v with
    | .param c i =>
      if f.closure = c then { f with args := f.args.set i x } :: fs else f :: setArg v x fs
    | .loc _ => f :: fs

inductive Action (N V : Type)
  /-- A closure is called with arguments. A parameter which is not given one by the caller
  has its present value for an argument. -/
  | enter (closure : ℕ) (args : List V)
  /-- The body has ended and is started again with other arguments, for the next element. -/
  | again (args : List V)
  /-- `name = x` -/
  | assign (name : N) (x : V)
  /-- `name += ..` and alike, with the result `x`. -/
  | update (name : N) (x : V)
  /-- The body has ended and the call returns. -/
  | leave

variable [Inhabited V] [DecidableEq N]

def step (q : Query N V) : Action N V → Option (Query N V)
  | .enter c args =>
    if (params c).length ≤ args.length then
      (q.closureInc params c).map fun r =>
        { r.setParams c args with
          localStack := r.vars.length
          calls := ⟨c, r.vars.length, q.localStack, q.vars, args.take (params c).length, []⟩ ::
            q.calls }
    else none
  | .again args =>
    match q.calls with
    | [] => none
    | f :: fs =>
      if (params f.closure).length ≤ args.length then
        some
          { q.setParams f.closure args with
            vars := q.vars.take f.n
            calls := { f with args := args.take (params f.closure).length, locals := [] } :: fs }
      else none
  | .assign name x =>
    match q.propScope params name with
    | some v => some { q.setVal v x with calls := setArg v x q.calls }
    | none => some (q.push name x)
  | .update name x =>
    (q.varGet params name).map fun v => { q.setVal v x with calls := setArg v x q.calls }
  | .leave =>
    match q.calls with
    | [] => none
    | f :: fs =>
      some
        { ({ q with vars := q.vars.take f.n } : Query N V).closureDec params f.closure with
          localStack := f.prevLocalStack
          calls := fs }

end

end ThingsDB.Closures
