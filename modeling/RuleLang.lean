import RuleLang.Json.Host
import RuleLang.Json.Program
import RuleLang.Proofs.Assignments
import RuleLang.Proofs.Ceiling
import RuleLang.Proofs.FaultCategories
import RuleLang.Proofs.Isolation
import RuleLang.Proofs.Journal
import RuleLang.Proofs.LineComments
import RuleLang.Proofs.Listings
import RuleLang.Proofs.LoopForms
import RuleLang.Proofs.Moments
import RuleLang.Proofs.Pieces
import RuleLang.Proofs.Precedence
import RuleLang.Proofs.Reached
import RuleLang.Proofs.Renumbering
import RuleLang.Proofs.Reports
import RuleLang.Proofs.Room
import RuleLang.Proofs.RoundTrip
import RuleLang.Proofs.SameSpacing
import RuleLang.Proofs.StoredForm
import RuleLang.Proofs.SymbolNames
import RuleLang.Proofs.UniqueText
import RuleLang.Proofs.Walks
