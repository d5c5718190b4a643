import OrasGo.Oci.SaveLoad
import OrasGo.Oci.Concurrent
import OrasGo.Syncutil.Structured
import OrasGo.Cas.Transparent
import OrasGo.Copy.Deadlock
import OrasGo.Syncutil.MergeProtocol
import OrasGo.Auth.SingleContext
import OrasGo.MemoryStore.Index
import OrasGo.Oci.Completion
import OrasGo.Copy.Reference
import OrasGo.Graph.Indexing
import OrasGo.Graph.Removal
import OrasGo.ExtendedCopy.Roots
import OrasGo.Registry.ReferrerOrder
import OrasGo.Oci.Ingest
import OrasGo.Auth.Containment
import OrasGo.Credentials.Saving
import OrasGo.Credentials.Logout
import OrasGo.Content.VerifyCalls
import OrasGo.Syncutil.OnceProtocol
import OrasGo.Auth.CleanScopes
import OrasGo.Auth.Challenge
import OrasGo.Copy.Mounting
import OrasGo.Remote.GenerateDescriptor
import OrasGo.File.Concurrent
import OrasGo.Remote.ParseReference
import OrasGo.Content.LimitedStorage
import OrasGo.Remote.Retry
import OrasGo.Remote.Seek
import OrasGo.Syncutil.KeyedPool
import OrasGo.Remote.Pagination
import OrasGo.Remote.Capability
import OrasGo.Content.ReadProgram
