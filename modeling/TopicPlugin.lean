import TopicPlugin.Descriptor.Encode
import TopicPlugin.Main
import TopicPlugin.Namespace.Listing
import TopicPlugin.Proofs.Dotted.QualifiedName
import TopicPlugin.Proofs.Namespace.Growth
import TopicPlugin.Proofs.Namespace.Paths
import TopicPlugin.Proofs.Namespace.Registration
import TopicPlugin.Proofs.Namespace.LookUp
import TopicPlugin.Proofs.Namespace.References
import TopicPlugin.Proofs.Generation.FailFast
import TopicPlugin.Proofs.Namespace.Linkage
import TopicPlugin.Proofs.Namespace.Renumbering
import TopicPlugin.Proofs.Namespace.RegistrationOrder
import TopicPlugin.Proofs.Namespace.Listings
import TopicPlugin.Proofs.Generation.FileOrder
import TopicPlugin.Proofs.Generation.ArtifactNames
import TopicPlugin.Proofs.Generation.DuplicateCheck
import TopicPlugin.Proofs.Namespace.CanonicalNames
import TopicPlugin.Proofs.Generation.SchemaTypes
import TopicPlugin.Proofs.Generation.Dependencies
import TopicPlugin.Proofs.Descriptor.RoundTrip
import TopicPlugin.Proofs.Descriptor.Serializations
import TopicPlugin.Proofs.Descriptor.Concatenation
import TopicPlugin.Proofs.Wire.Accepted
import TopicPlugin.Proofs.Descriptor.NormalForm
import TopicPlugin.Proofs.Descriptor.ResponseRoundTrip
import TopicPlugin.Proofs.Plugin.Delivery
import TopicPlugin.Proofs.Plugin.Stages
import TopicPlugin.Proofs.Generation.Directories
import TopicPlugin.Proofs.Generation.Scopes
import TopicPlugin.Proofs.Traversal
import TopicPlugin.Proofs.Generation.SchemaFaults
import TopicPlugin.Proofs.Json.Layout
import TopicPlugin.Proofs.Generation.SchemaContent
import TopicPlugin.Proofs.Namespace.StrictLookUp
import TopicPlugin.Proofs.Namespace.TrailingDots
import TopicPlugin.Proofs.Settings.Assignments
import TopicPlugin.Proofs.Settings.Composition
import TopicPlugin.Proofs.Settings.Reachable
import TopicPlugin.Proofs.Namespace.Declarations
import TopicPlugin.Proofs.Text.Trimming
import TopicPlugin.Proofs.Generation.ArtifactPaths
