import Inlay.Host.Page
import Inlay.Host.Reader
import Inlay.Host.Trial
import Inlay.Proofs.Host.Updates
import Inlay.Proofs.Host.Sharing
import Inlay.Proofs.Host.Presence
import Inlay.Proofs.Host.Containment
import Inlay.Proofs.Host.Deadline
import Inlay.Proofs.Data.Exchange
import Inlay.Proofs.Data.Walk
import Inlay.Proofs.Document.Attempt
import Inlay.Proofs.Document.Duplicate
import Inlay.Proofs.Document.Identity
import Inlay.Proofs.Document.Insertion
import Inlay.Proofs.Document.Preorder
import Inlay.Proofs.Document.Refused
import Inlay.Proofs.Markup.Canonical
import Inlay.Proofs.Markup.Decoding
import Inlay.Proofs.Markup.Locating
import Inlay.Proofs.Markup.RawText
import Inlay.Proofs.Markup.Tiling
import Inlay.Proofs.Render.Differences
import Inlay.Proofs.Render.Leaks
import Inlay.Proofs.Render.Led
import Inlay.Proofs.Render.Occurrences
import Inlay.Proofs.Render.Placing
import Inlay.Proofs.Render.Screening
import Inlay.Proofs.Render.Ordinals
import Inlay.Proofs.Render.Lifetime
import Inlay.Proofs.Render.History
import Inlay.Proofs.Render.Isolation
import Inlay.Proofs.Template.Interleaving
import Inlay.Proofs.Template.Partition
