import UrlRouting.Definition.Reader
import UrlRouting.Definition.Writer
import UrlRouting.Route.Rendering
import UrlRouting.Scalar
import UrlRouting.Proofs.Matching
import UrlRouting.Proofs.Assembly
import UrlRouting.Proofs.Escapes
import UrlRouting.Proofs.Queries
import UrlRouting.Proofs.Sequence
import UrlRouting.Proofs.Segments
import UrlRouting.Proofs.Rereading
import UrlRouting.Proofs.Sliding
import UrlRouting.Proofs.RoundTrip
import UrlRouting.Proofs.Links
import UrlRouting.Proofs.Separated
import UrlRouting.Proofs.Scanning
import UrlRouting.Proofs.Strays
import UrlRouting.Proofs.Gaps
import UrlRouting.Proofs.Balance
import UrlRouting.Proofs.Brackets
import UrlRouting.Proofs.Groups
import UrlRouting.Proofs.Levels
import UrlRouting.Proofs.Grammar
import UrlRouting.Proofs.Acceptance
import UrlRouting.Proofs.Urls
import UrlRouting.Proofs.Runs
import UrlRouting.Proofs.Yields
import UrlRouting.Proofs.Definitions
import UrlRouting.Proofs.Tables
import UrlRouting.Proofs.Dependence
import UrlRouting.Proofs.Entries
import UrlRouting.Proofs.Merging
import UrlRouting.Proofs.LastValues
import UrlRouting.Proofs.Equality
import UrlRouting.Proofs.Monotone
import UrlRouting.Proofs.Decoding
import UrlRouting.Proofs.Barriers
import UrlRouting.Proofs.Delimiters
import UrlRouting.Proofs.Required
import UrlRouting.Proofs.Expressions
import UrlRouting.Proofs.Outlines
import UrlRouting.Proofs.Texts
import UrlRouting.Proofs.Numerals
import UrlRouting.Proofs.Readers
import UrlRouting.Proofs.Spellings
import UrlRouting.Proofs.Skipping
import UrlRouting.Proofs.Values
import UrlRouting.Proofs.Fields
import UrlRouting.Proofs.Configurations
import UrlRouting.Proofs.Rounding
import UrlRouting.Proofs.Intervals
import UrlRouting.Proofs.Shortest
import UrlRouting.Proofs.Layouts
