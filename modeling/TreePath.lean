import TreePath.CommandLine.Run
import TreePath.Main
import TreePath.Proofs.Navigation.LensLaws
import TreePath.Proofs.Navigation.Composition
import TreePath.Proofs.Navigation.Divergence
import TreePath.Proofs.Navigation.Keys
import TreePath.Proofs.Tree.Runs
import TreePath.Proofs.Decimal.Integer
import TreePath.Proofs.Path.Group
import TreePath.Proofs.Path.Tokens
import TreePath.Proofs.Path.RoundTrip
import TreePath.Proofs.Path.Search
import TreePath.Proofs.Path.Pointed
import TreePath.Proofs.Template
import TreePath.Proofs.Checked.Operation
import TreePath.Proofs.Checked.Positions
import TreePath.Proofs.Checked.Mutation
import TreePath.Proofs.Json.Number
import TreePath.Proofs.Json.Text
import TreePath.Proofs.Json.Value
import TreePath.Proofs.Json.Reader
import TreePath.Proofs.Json.RoundTrip
import TreePath.Proofs.Json.Loaded
import TreePath.Proofs.Navigation.Depth
import TreePath.Proofs.Gzip.RoundTrip
import TreePath.Proofs.Storage.FileSystem
import TreePath.Proofs.Storage.Name
import TreePath.Proofs.Storage.Saving
import TreePath.Proofs.CommandLine.Run
import TreePath.Proofs.CommandLine.PathLimit
import TreePath.Proofs.CommandLine.Storing
import TreePath.Proofs.Slice.Progression
import TreePath.Proofs.CommandLine.FileEffects
import TreePath.Proofs.Slice.Assignment
import TreePath.Proofs.Slice.Deletion
import TreePath.Proofs.Navigation.RootToken
import TreePath.Proofs.Path.Bracket
import TreePath.Proofs.Path.Grammar
import TreePath.Proofs.Template.Refilling
import TreePath.Proofs.Yaml.Value
import TreePath.Proofs.Json.Conversion
import TreePath.Proofs.Storage.Loading
import TreePath.Proofs.Navigation.Equality
import TreePath.Proofs.Json.Fitting
import TreePath.Proofs.Storage.Settings
