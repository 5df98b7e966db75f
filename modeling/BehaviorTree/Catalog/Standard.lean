import BehaviorTree.Catalog.Definition

/-! # Standard definitions

The action kinds that every catalog knows unless it starts empty. -/

namespace BehaviorTree.ActionDefinition

/-- Waits for a time. -/
def wait : ActionDefinition :=
  (ofName "Wait")
    |>.param .float "seconds" "0.5" "Wait duration in seconds"
    |>.labeled "Wait Duration"
    |>.withMapper fun p s => s.setFloat 0 (p.numberD "seconds" 0.5)

/-- Fades to an animator state. -/
def animatorSetState : ActionDefinition :=
  (ofName "AnimatorSetState")
    |>.param .string "state" "Idle" "Animator state name"
    |>.labeled "State Name"
    |>.param .float "fade" "0.1" "Cross-fade duration in seconds"
    |>.labeled "Fade Duration"
    |>.withMapper fun p s =>
      (s.setInt 1 (p.keyD "state" "Idle")).setFloat 0 (p.numberD "fade" 0.1)

/-- Sets a number of the animator. -/
def animatorSetFloat : ActionDefinition :=
  (ofName "AnimatorSetFloat")
    |>.param .string "param" "Speed" "Animator parameter name"
    |>.labeled "Parameter"
    |>.param .float "value" "1.0" "Parameter value"
    |>.withMapper fun p s =>
      (s.setInt 1 (p.keyD "param" "Speed")).setFloat 0 (p.numberD "value" 1)

/-- Sets an integer of the animator; the record holds it in a number slot. -/
def animatorSetInt : ActionDefinition :=
  (ofName "AnimatorSetInt")
    |>.param .string "param" "Phase" "Animator parameter name"
    |>.labeled "Parameter"
    |>.param .int "value" "0" "Parameter value"
    |>.withMapper fun p s =>
      (s.setInt 1 (p.keyD "param" "Phase")).setFloat 0 (p.numberD "value" 0)

/-- Sets a truth value of the animator; the record holds 1 or 0. -/
def animatorSetBool : ActionDefinition :=
  (ofName "AnimatorSetBool")
    |>.param .string "param" "IsRunning" "Animator parameter name"
    |>.labeled "Parameter"
    |>.param .bool "value" "true" "Parameter value"
    |>.withMapper fun p s =>
      (s.setInt 1 (p.keyD "param" "IsRunning")).setFloat 0 (if p.boolD "value" true then 1 else 0)

/-- Fires a trigger of the animator. -/
def animatorSetTrigger : ActionDefinition :=
  (ofName "AnimatorSetTrigger")
    |>.param .string "param" "Fire" "Animator trigger name"
    |>.labeled "Parameter"
    |>.withMapper fun p s => s.setInt 1 (p.keyD "param" "Fire")

/-- Waits for an animation event. -/
def waitAnimEvent : ActionDefinition :=
  (ofName "WaitAnimEvent")
    |>.param .string "event" "OnRecover" "Animation event to wait for"
    |>.labeled "Event Name"
    |>.withMapper fun p s => s.setInt 1 (p.keyD "event" "OnRecover")

/-- Writes a number into memory. -/
def setBlackboard : ActionDefinition :=
  (ofName "SetBlackboard")
    |>.param .string "key" "" "Blackboard key"
    |>.param .float "value" "0" "Value to write"
    |>.withMapper fun p s =>
      ((s.withKind .setBlackboard).setInt 0 (p.keyD "key" "")).setFloat 0 (p.numberD "value" 0)

/-- Removes a number from memory, or every number for the empty key. -/
def clearBlackboard : ActionDefinition :=
  (ofName "ClearBlackboard")
    |>.param .string "key" "" "Blackboard key, empty clears everything"
    |>.withMapper fun p s => (s.withKind .clearBlackboard).setInt 0 (p.keyD "key" "")

/-- The standard definitions, in the order in which they are registered. -/
def standard : List ActionDefinition :=
  [wait, animatorSetState, animatorSetFloat, animatorSetInt, animatorSetBool, animatorSetTrigger,
    waitAnimEvent, setBlackboard, clearBlackboard]

end BehaviorTree.ActionDefinition
