import TypeSearch.Issue.Ledger
import TypeSearch.Log
import TypeSearch.Main
import TypeSearch.Proofs.Inference.Balance
import TypeSearch.Proofs.Inference.Branches
import TypeSearch.Proofs.Inference.Coverage
import TypeSearch.Proofs.Inference.Generalize
import TypeSearch.Proofs.Inference.Report
import TypeSearch.Proofs.Inference.Settle
import TypeSearch.Proofs.Scope.RoundTrip
import TypeSearch.Proofs.Tree.Readback
import TypeSearch.Stack
import TypeSearch.Proofs.Project.Load
import TypeSearch.Proofs.Inference.Comprehension
import TypeSearch.Proofs.Classes.Representation
import TypeSearch.Proofs.Order.Topological
import TypeSearch.Proofs.Type.Instance
import TypeSearch.Proofs.Alternatives.Distribute
import TypeSearch.Proofs.Facts.Trace
import TypeSearch.Proofs.Tree.Positions
