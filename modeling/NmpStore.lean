import NmpStore.Postings.ScanRefines
import NmpStore.Coverage.Run
import NmpStore.Semantic.Terminal
import NmpStore.Store.Convergence
import NmpStore.Router.Budget
import NmpStore.Router.Replacements
import NmpStore.Engine.CoverageRun
import NmpStore.Engine.CoveredEvents
import NmpStore.Engine.AuthRun
import NmpStore.Engine.HistoryAdvance
import NmpStore.Router.Covering
import NmpStore.Coverage.Gc
import NmpStore.Store.Undeletion
import NmpStore.Router.Solver
import NmpStore.Runtime.HistoryMailbox
import NmpStore.Signer.Door
import NmpStore.Content.Markdown
import NmpStore.Lists.Materializers
import NmpStore.Engine.Deadlines
import NmpStore.Engine.Verdicts
import NmpStore.Nip11.Service
import NmpStore.Resolver.Failures
