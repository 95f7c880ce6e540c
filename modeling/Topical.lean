import Topical.Event
import Topical.Main
import Topical.Match.Text
import Topical.Params.Json
import Topical.Proofs.Formatting
import Topical.Proofs.LiteralMulti
import Topical.Proofs.Subscription
import Topical.Proofs.Compiling
import Topical.Proofs.Editing
import Topical.Proofs.Extraction
import Topical.Proofs.Reformatting
import Topical.Proofs.Denotation
import Topical.Proofs.Unnamed
import Topical.Proofs.Widening
import Topical.Proofs.TrailingSlash
import Topical.Proofs.NormalForm
import Topical.Proofs.Faults
import Topical.Proofs.Renaming
import Topical.Proofs.CapturedText
import Topical.Proofs.LevelValues
import Topical.Proofs.Collecting
import Topical.Proofs.JsonText
import Topical.Proofs.OwnNames
import Topical.Proofs.Rejection
