import AgentChain.Main
import AgentChain.Proofs.Workflow.StopRule
import AgentChain.Proofs.Engine.Events
import AgentChain.Proofs.Engine.ScriptedRun
import AgentChain.Proofs.Engine.HandOff
import AgentChain.Proofs.Engine.Freshness
import AgentChain.Proofs.Catalog.Spelling
import AgentChain.Proofs.Package.Containment
import AgentChain.Proofs.Stage.Opened
import AgentChain.Proofs.Stage.Order
import AgentChain.Proofs.Engine.BuiltinChain
import AgentChain.Proofs.Vendor.Effects
import AgentChain.Proofs.Engine.NativeTrace
import AgentChain.Proofs.Archive.RoundTrip
import AgentChain.Proofs.Package.Registered
import AgentChain.Proofs.Requirement
import AgentChain.Proofs.Sandbox.HostPath
