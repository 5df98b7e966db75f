/-! # Status

What a node answers when it is evaluated. -/

namespace BehaviorTree

/-- The answer of a node: settled well, settled badly, or not settled yet. -/
inductive Status
  | success
  | failure
  | running
deriving DecidableEq, Inhabited

namespace Status

/-- The word for a status in stored forms. -/
def name : Status → String
  | success => "Success"
  | failure => "Failure"
  | running => "Running"

/-- Every status, in the order in which stored forms list them. -/
def all : List Status := [success, failure, running]

/-- The status with a given word. -/
def ofName? (word : String) : Option Status := all.find? (·.name = word)

theorem ofName?_name (s : Status) : ofName? s.name = some s := by cases s <;> decide

end Status

end BehaviorTree
