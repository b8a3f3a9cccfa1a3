import Repertoire.CommandLine.Run
import Repertoire.CommandLine.Snapshot
import Repertoire.Main
import Repertoire.Proofs.Catalog.FailedSync
import Repertoire.Proofs.Catalog.InOrder
import Repertoire.Proofs.Catalog.Refetching
import Repertoire.Proofs.Catalog.Sources
import Repertoire.Proofs.CommandLine.Pairs
import Repertoire.Proofs.CommandLine.Priority
import Repertoire.Proofs.Manifest.ClosingFence
import Repertoire.Proofs.Manifest.FirstDefect
import Repertoire.Proofs.Manifest.SameContent
import Repertoire.Proofs.Registry.OneByOne
import Repertoire.Proofs.Registry.Refusal
import Repertoire.Proofs.Registry.Reloading
import Repertoire.Proofs.Registry.SystemPrompt
import Repertoire.Proofs.Settings.Placeholder
import Repertoire.Proofs.Settings.Substitution
import Repertoire.Proofs.Shell.Truncation
import Repertoire.Proofs.Skill.Accounting
import Repertoire.Proofs.Tools.Calling
import Repertoire.Proofs.Tools.Hosting
import Repertoire.Proofs.Tools.Merging
