import Coercive.Run

namespace Coercive

/-- The description of a value. Building it makes its objects and takes the values of the variables
that it names at that time. -/
inductive Blueprint where
  | primitive (p : Primitive)
  | read (x : String)
  | plain (typeName className : String)
  | function (role : Role) (id : String) (body : Script Blueprint)
  | record (id className : String) (fields : List (String × Blueprint))
      (hook : Option (Script Blueprint)) (stringify valuate : Slot (Script Blueprint))

namespace Blueprint

mutual

def build : Blueprint → Run Value
  | .primitive p => pure (.primitive p)
  | .read x => do return (← Run.lookup? x).getD .undefined
  | .plain typeName className => Run.allocate (.plain typeName className)
  | .function role id body => do
    let body ← buildScript body
    Run.allocate (.function (.routine role { id, body }))
  | .record id className fields hook stringify valuate => do
    let fields ← buildFields fields
    let hook ← buildHook hook
    let stringify ← buildSlot stringify
    let valuate ← buildSlot valuate
    Run.allocate (.record (.ofEdits
      (.className className :: fields.map (fun (name, v) => .field name v)
        ++ (hook.map (Routine.mk id)).toList.map .hook
        ++ Record.slotEdits .stringify (stringify.map (Routine.mk id))
        ++ Record.slotEdits .valuate (valuate.map (Routine.mk id)))))

def buildFields : List (String × Blueprint) → Run (List (String × Value))
  | [] => pure []
  | (name, b) :: rest => do
    let v ← build b
    let vs ← buildFields rest
    return (name, v) :: vs

def buildHook : Option (Script Blueprint) → Run (Option (Script Value))
  | none => pure none
  | some body => do return some (← buildScript body)

def buildSlot : Slot (Script Blueprint) → Run (Slot (Script Value))
  | .inherited => pure .inherited
  | .removed => pure .removed
  | .custom body => do return .custom (← buildScript body)

def buildScript : Script Blueprint → Run (Script Value)
  | .ret b => do return .ret (← build b)
  | .receiver => pure .receiver
  | .fresh => pure .fresh
  | .member target name => do return .member (← buildScript target) name
  | .method target name args => do
    return .method (← buildScript target) name (← buildScripts args)
  | .fail message => pure (.fail message)
  | .byHint string number default => do
    return .byHint (← buildScript string) (← buildScript number) (← buildScript default)
  | .coerce target hint => do return .coerce (← buildScript target) hint
  | .count counter => pure (.count counter)
  | .sequence counter parts => do return .sequence counter (← buildScripts parts)
  | .cast c operand => do return .cast c (← buildScript operand)
  | .operate op left right => do
    return .operate op (← buildScript left) (← buildScript right)
  | .depth => pure .depth
  | .hint => pure .hint
  | .argument i => pure (.argument i)
  | .argumentCount => pure .argumentCount
  | .read x => pure (.read x)

def buildScripts : List (Script Blueprint) → Run (List (Script Value))
  | [] => pure []
  | b :: bs => do
    let c ← buildScript b
    let cs ← buildScripts bs
    return c :: cs

end

end Blueprint

end Coercive
