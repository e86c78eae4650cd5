import Schemata.Conversion.Recipe
import Schemata.Conversion.Summary
import Schemata.Converter
import Schemata.Description.Build
import Schemata.Description.Encode
import Schemata.Description.Equality
import Schemata.Proofs.Factoring
import Schemata.Proofs.Failure
import Schemata.Proofs.History
import Schemata.Proofs.References
import Schemata.Proofs.Refusal
import Schemata.Proofs.Settled
import Schemata.Proofs.Tolerance
import Schemata.Proofs.Transparency
import Schemata.Registry.Document
import Schemata.Settings.File
import Schemata.Proofs.Frame
import Schemata.Proofs.Success
import Schemata.Proofs.Registration
import Schemata.Proofs.Document
import Schemata.Proofs.Pointer
import Schemata.Proofs.Common
import Schemata.Proofs.Renaming
import Schemata.Proofs.Reading
import Schemata.Proofs.Records
import Schemata.Proofs.RoundTrip
import Schemata.Proofs.Decoded
import Schemata.Proofs.Image
import Schemata.Proofs.Delegates
import Schemata.Proofs.Nesting
import Schemata.Proofs.Rounding
import Schemata.Proofs.Folds
import Schemata.Proofs.Output
import Schemata.Proofs.Bounds
import Schemata.Proofs.Limits
import Schemata.Proofs.Dependencies
import Schemata.Proofs.Gathering
import Schemata.Proofs.Children
import Schemata.Proofs.Collisions
import Schemata.Proofs.Looks
import Schemata.Proofs.Combinator
import Schemata.Proofs.Delimiters
import Schemata.Proofs.Layout
import Schemata.Proofs.DateLimits
import Schemata.Proofs.Metadata
import Schemata.Proofs.Overlay
import Schemata.Proofs.Items
import Schemata.Proofs.Media
