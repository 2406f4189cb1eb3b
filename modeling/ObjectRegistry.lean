import ObjectRegistry.LogSetup
import ObjectRegistry.Main
import ObjectRegistry.Script.Lap
import ObjectRegistry.Script.Play
import ObjectRegistry.Script.Render
import ObjectRegistry.Trial.Teardown
import ObjectRegistry.Proofs.History
import ObjectRegistry.Proofs.Calls
import ObjectRegistry.Proofs.Obtain
import ObjectRegistry.Proofs.Finished
import ObjectRegistry.Proofs.Nesting
import ObjectRegistry.Proofs.Visits
import ObjectRegistry.Proofs.Weave
import ObjectRegistry.Proofs.Circular
import ObjectRegistry.Proofs.Adjacency
import ObjectRegistry.Proofs.Quiet
import ObjectRegistry.Proofs.Orderly
import ObjectRegistry.Proofs.TeardownOrder
import ObjectRegistry.Proofs.Coverage
import ObjectRegistry.Proofs.Search
import ObjectRegistry.Proofs.Chains
import ObjectRegistry.Proofs.Tiers
import ObjectRegistry.Proofs.Disposal
import ObjectRegistry.Proofs.Sweeping
import ObjectRegistry.Proofs.Between
import ObjectRegistry.Proofs.Erasure
import ObjectRegistry.Proofs.Closure
import ObjectRegistry.Proofs.CreateOnce
import ObjectRegistry.Proofs.BothEnds
import ObjectRegistry.Proofs.Recursion
import ObjectRegistry.Proofs.Probes
import ObjectRegistry.Proofs.Midway
import ObjectRegistry.Proofs.Unresolvable
import ObjectRegistry.Proofs.Noted
import ObjectRegistry.Proofs.Shutdown
import ObjectRegistry.Proofs.Namesakes
import ObjectRegistry.Proofs.Addressable
import ObjectRegistry.Proofs.Renaming
import ObjectRegistry.Proofs.Exempted
import ObjectRegistry.Proofs.Latecomers
import ObjectRegistry.Proofs.Postorder
import ObjectRegistry.Proofs.RenamedLinks
import ObjectRegistry.Proofs.FreshNames
import ObjectRegistry.Proofs.Backtrack
import ObjectRegistry.Proofs.Redirection
import ObjectRegistry.Proofs.Batches
import ObjectRegistry.Proofs.TransitiveDependents
import ObjectRegistry.Proofs.Forgetting
import ObjectRegistry.Proofs.EarlyObjects
import ObjectRegistry.Proofs.Ownership
import ObjectRegistry.Proofs.Failures
import ObjectRegistry.Proofs.Listing
import ObjectRegistry.Proofs.Interchange
