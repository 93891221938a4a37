import Coercive.Member
import Coercive.Operation

namespace Coercive

/-- What a script sees of the call that runs it. -/
structure Frame where
  receiver : Value
  args : List Value
  hint : Option Hint

namespace Script

variable (invoke : Invoker) (frame : Frame)

mutual

def run : Script Value → Run Value
  | .ret v => pure v
  | .receiver => pure frame.receiver
  | .fresh => Run.allocate (.record {})
  | .member target name => do (← run target).member name
  | .method target name args => do
    let receiver ← run target
    let f ← receiver.member name
    let args ← runAll args
    f.call invoke receiver args
  | .fail message => .fail (.host message)
  | .byHint string number default =>
    match frame.hint with
    | some .string => run string
    | some .number => run number
    | some .default | none => run default
  | .coerce target wanted => do
    let v ← run target
    .primitive <$> v.reduce invoke (wanted.getD (frame.hint.getD .default))
  | .count counter => do return .number (.ofNat (← Run.count counter))
  | .sequence counter parts => do runAt ((← Run.count counter) - 1) parts
  | .cast c operand => do
    let v ← run operand
    .primitive <$> c.apply invoke v
  | .operate op left right => do
    let v ← run left
    let w ← run right
    .primitive <$> op.apply invoke v w
  | .depth => do return .number (.ofNat (← Run.get).depth)
  | .hint => pure (frame.hint.elim .undefined fun h => .string h.name)
  | .argument i => pure (frame.args[i]?.getD .undefined)
  | .argumentCount => pure (.number (.ofNat frame.args.length))
  | .read x => do return (← Run.lookup? x).getD .undefined

def runAll : List (Script Value) → Run (List Value)
  | [] => pure []
  | b :: bs => do
    let v ← run b
    let vs ← runAll bs
    return v :: vs

/-- Runs the script at a position, or the last one past the end. -/
def runAt : Nat → List (Script Value) → Run Value
  | _, [] => pure .undefined
  | _, [b] => run b
  | 0, b :: _ :: _ => run b
  | n + 1, _ :: b :: bs => runAt n (b :: bs)

end

end Script

/-- Checks the arguments of a call against a role, and finds the hint that they carry. -/
def Role.accept (role : Role) (args : List Value) : Except Failure (Option Hint) :=
  match role with
  | .function => .ok none
  | .stringify | .valuate | .nullary => if args.isEmpty then .ok none else .error (.arity .zero)
  | .hook | .hinted =>
    match args with
    | [.primitive (.string name)] =>
      match Hint.ofName name with
      | .ok h => .ok (some h)
      | .error m => .error (.mismatch m)
    | [.primitive _] => .error (.mismatch .hintNotString)
    | _ => .error (.arity .one)

def Role.argCount (role : Role) (args : List Value) : Nat :=
  match role with
  | .function => args.length
  | _ => 0

def Routine.run (invoke : Invoker) (r : Routine) (role : Role) (frame : Frame) : Run Value := do
  let call : Call :=
    { id := r.id, role, hint := frame.hint, depth := (← Run.get).depth,
      argCount := role.argCount frame.args }
  Run.traced call (r.body.run invoke frame)

/-- Runs an inherited conversion method: `valuate` returns its receiver and `stringify` names the
class of an object. -/
def Conversion.inherited (c : Conversion) (receiver : Value) : Run Value :=
  match c, receiver with
  | .valuate, v => pure v
  | .stringify, .primitive p => pure (.string p.display)
  | .stringify, .object ref => do
    return .string ("[object " ++ (← Run.object ref).className ++ "]")

def Builtin.run (invoke : Invoker) (b : Builtin) (args : List Value) : Run Value :=
  match b, args with
  | .number, [] => pure (.number .zero)
  | .number, v :: _ => .primitive <$> Cast.apply invoke .number v
  | .string, [] => pure (.string "")
  | .string, v :: _ => .primitive <$> Cast.apply invoke .string v

def Method.run (invoke : Invoker) : Invoker
  | .inherited c, receiver, _ => c.inherited receiver
  | .builtin b, _, args => b.run invoke args
  | .routine role r, receiver, args => do
    let hint ← Run.ofExcept (role.accept args)
    r.run invoke role { receiver, args, hint }

/-- Runs a method with calls nested at most `budget` deep. -/
def invokeWithin : Nat → Invoker
  | 0 => fun _ _ _ => .stop .exhausted
  | budget + 1 => Method.run (invokeWithin budget)

end Coercive
