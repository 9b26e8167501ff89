import Stencil.Options.Config
import Stencil.Template.Paths
import Stencil.Proofs.Template.Linear
import Stencil.Proofs.Template.RoundTrip
import Stencil.Proofs.Template.Overlap
import Stencil.Proofs.Line.Print
import Stencil.Proofs.Line.Values
import Stencil.Proofs.Line.LastWrite
import Stencil.Proofs.Line.Refill
import Stencil.Proofs.Line.Faults
import Stencil.Proofs.Line.Greedy
import Stencil.Proofs.Template.Faults
import Stencil.Proofs.Template.Lenient
import Stencil.Proofs.Template.Plain
import Stencil.Proofs.Template.Paths
import Stencil.Proofs.Template.Origin
import Stencil.Proofs.Template.Reorder
import Stencil.Proofs.Template.Root
import Stencil.Proofs.Template.Skeleton
import Stencil.Proofs.Template.MemberOrder
import Stencil.Proofs.Path.Print
import Stencil.Proofs.Path.Blank
import Stencil.Proofs.Template.Integer
import Stencil.Proofs.Json.Lens
import Stencil.Proofs.Json.Refused
import Stencil.Proofs.Json.InPlace
import Stencil.Proofs.Json.Again
import Stencil.Proofs.Line.Spans
import Stencil.Proofs.Line.Parts
import Stencil.Proofs.Options.Config
import Stencil.Proofs.Token.Default
