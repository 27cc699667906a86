import Choreography.Elaborate.Primitive
import Choreography.Elaborate.Sequence

/-!
Rounds of the protocol. A round publishes some of a participant's knowledge under new variables
that everyone shares, moves an amount, and goes on in consensus. Committing it makes what the
round has bound known to every participant.
-/

namespace Choreography

/-- The display name of a received variable: that of the sent one, if a variable is sent. -/
def Ir.Arg.messageName : Ir.Arg → String
  | .var v => v.name
  | _ => "msg"

/-- The messages of a round: the operands that are sent from the sender's view, each with the
variable by which it is received, and the names that the messages go by. Each name is published
once, and only what the sender has made public. The names published before are in `sent`. -/
def Ctx.messages (ctx : Ctx) (loc roundLoc : Loc) (view sent : Bindings) :
    List String → Eval (List (Ir.Arg × Ir.Var) × Bindings)
  | [] => pure ([], sent)
  | name :: names => do
    let sv ← view.lookup roundLoc name
    let value ← sv.requirePublic roundLoc
    let (type, arg) ← value.typeOf roundLoc
    let id ← ctx.alloc roundLoc
    let var : Ir.Var := { loc := roundLoc, name := arg.messageName, type, id }
    let sent ← sent.bind loc name (.pub (.var var))
    let (rest, sent) ← ctx.messages loc roundLoc view sent names
    return ((arg, var) :: rest, sent)

/-- The address variable of a participant, and whether it is new: the first round of a participant
joins it to the ledger. -/
def Ctx.addressOf (ctx : Ctx) (loc : Loc) (joined : NameMap Ir.Var) (who : String) :
    Eval (Bool × Ir.Var) := do
  match joined.get? who with
  | some v => return (false, v)
  | none =>
    let id ← ctx.alloc loc
    return (true, { loc, name := who, type := .address, id })

/-- The sender's own binding with the address it joined with, when the program refers to the
sender by a name. -/
def joinedSender (loc : Loc) (env : Bindings) (displayName : Option String) (address : Ir.Var) :
    Eval (Option (String × SecValue)) := do
  match displayName with
  | none => return none
  | some name =>
    let sv ← env.lookup loc name
    match sv.value with
    | .participant _ p =>
      let tag ← Eval.freshTag
      return some (name, { sv with value := .participant tag { p with address := some address } })
    | _ => Eval.fail (.notAParticipant loc name)

/-- Replaces the binding of the sender. -/
def Bindings.withSender (env : Bindings) (sender : Option (String × SecValue)) : Bindings :=
  match sender with
  | some (name, sv) => env.set name sv
  | none => env

/-- The check that consensus makes of every round: the transaction carries the amount that the
sender announced. -/
def amountCheck (loc : Loc) (amount : Surface.Expr) : Surface.Expr :=
  .call loc (.ident loc "require")
    [.binary loc .eq amount (.call loc (.ident loc "__txn.value__") [])]

namespace Evaluator

/-- The amount that the sender pays, computed in its own view. -/
def payment (ev : Evaluator) (ctx : Ctx) (view : Bindings) :
    Option Surface.Expr → Eval (Lifted Ir.Arg)
  | none => pure (.plain (.int 0))
  | some e => do
    let amount ← ev.expr ctx view e
    let value ← amount.value.requirePublic e.loc
    let arg ← value.checkType e.loc .uint256
    return { code := amount.code, value := arg }

/-- What happens when the sender stays away: the code that computes the delay, the deadline, and
the ways in which its handler returns. -/
def deadline (ev : Evaluator) (ctx : Ctx) (scope : Scope) :
    Option Timeout → Eval (Lifted (Option Ir.Deadline × List Exit))
  | none => pure (.plain (none, []))
  | some t => do
    let delay ← ev.expr ctx scope.env t.delay
    let value ← delay.value.requirePublic t.loc
    let arg ← value.checkType t.loc .uint256
    let handler ← ev.stmts ctx t.handler.loc scope t.handler.stmts
    return { code := delay.code,
             value := (some { delay := arg, body := handler.code }, handler.value.exits) }

/-- Takes a round, and goes on in consensus. -/
def takeRound (ev : Evaluator) (ctx : Ctx) (parties : Parties) (loc : Loc) (scope : Scope)
    (before : Ir.Code) (roundLoc : Loc) (r : Round) (rest : List Surface.Stmt) :
    Eval (Lifted Outcome) := do
  let view ← Eval.orFail (parties.views.get? r.who) (.noView roundLoc r.who)
  let (messages, sent) ← ctx.messages loc roundLoc view {} (r.publish.getD [])
  let (join, whoVar) ← ctx.addressOf roundLoc parties.joined r.who
  let sender ← joinedSender roundLoc scope.env r.displayName whoVar
  -- what everyone knows, and what each participant knows, once the messages are out
  let shared ← scope.env.merge loc sent
  let shared := shared.withSender sender
  let views ← parties.views.traverse fun who old => do
    if who = r.who then return old.withSender sender
    else
      let received ← old.merge loc sent
      return received.withSender sender
  let senderView := (views.get? r.who).getD {}
  let amount ← ev.payment ctx senderView r.pay
  let check ← ev.expr ctx shared (amountCheck roundLoc (r.pay.getD (.int roundLoc "0" 10)))
  let late ← ev.deadline ctx scope r.timeout
  let joined := parties.joined.insertNew r.who whoVar
  let inConsensus := { ctx with mode := .consensus shared { joined, views } }
  let next ← ev.stmts inConsensus loc { scope with env := shared } rest
  let transition : Ir.Transition :=
    { who := r.who, join, whoVar, messages, amount := amount.value, timeout := late.value.1,
      body := check.code ++ next.code }
  let payCode := if amount.code.isEmpty then [] else [.only loc r.who amount.code]
  return { code := before ++ late.code ++ payCode ++ [.toConsensus roundLoc transition],
           value := { env := next.value.env,
                      exits := Exit.combine loc .pub late.value.2 next.value.exits } }

/-- Commits a round: what it has bound becomes known to every participant, and the protocol goes
on between rounds. -/
def commitRound (ev : Evaluator) (ctx : Ctx) (opened : Bindings) (parties : Parties) (loc : Loc)
    (scope : Scope) (before : Ir.Code) (rest : List Surface.Stmt) : Eval (Lifted Outcome) := do
  let learned := scope.env.difference opened
  let views ← parties.views.traverse fun _ view => Bindings.merge view loc learned
  let next ← ev.stmts { ctx with mode := .step { parties with views } } loc scope rest
  return { code := before ++ [.fromConsensus loc next.code], value := next.value }

end Evaluator

end Choreography
