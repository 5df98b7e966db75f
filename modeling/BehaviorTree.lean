import BehaviorTree.Bake.Behavior
import BehaviorTree.Baked.Forest
import BehaviorTree.Proofs.Bake.Account
import BehaviorTree.Proofs.Bake.Layout
import BehaviorTree.Proofs.Bake.Meaning
import BehaviorTree.Proofs.Bake.Named
import BehaviorTree.Proofs.Bake.Placement
import BehaviorTree.Proofs.Bake.Reorder
import BehaviorTree.Proofs.Bake.Search
import BehaviorTree.Proofs.Bake.Siblings
import BehaviorTree.Proofs.Bake.Unknown
import BehaviorTree.Proofs.Baked.Accepted
import BehaviorTree.Proofs.Baked.Refused
import BehaviorTree.Proofs.Catalog.Declared
import BehaviorTree.Proofs.Literal.Vector
import BehaviorTree.Proofs.Memory.History
import BehaviorTree.Proofs.Stored.Blackboard
import BehaviorTree.Proofs.Stored.Graph
import BehaviorTree.Proofs.Stored.Spelling
import BehaviorTree.Proofs.Stored.Tree
import BehaviorTree.Proofs.Tick.Interrupt
import BehaviorTree.Proofs.Tick.Memory
import BehaviorTree.Proofs.Tick.Outermost
import BehaviorTree.Proofs.Tick.Repeater
import BehaviorTree.Proofs.Tick.Running
import BehaviorTree.Stored.Blackboard
import BehaviorTree.Stored.Graph.Json
import BehaviorTree.Stored.Graph.Yaml
import BehaviorTree.Stored.Trace
import BehaviorTree.Tick.Agent
import BehaviorTree.Tick.Behavior
