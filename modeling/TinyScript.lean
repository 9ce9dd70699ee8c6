import TinyScript.Main
import TinyScript.Notebook
import TinyScript.Proofs.Code.StrayFlow
import TinyScript.Proofs.Control.Reordered
import TinyScript.Proofs.Grammar.Locality
import TinyScript.Proofs.Grammar.Nesting
import TinyScript.Proofs.Grammar.Spans
import TinyScript.Proofs.Grammar.Watched
import TinyScript.Proofs.Loader.Cache
import TinyScript.Proofs.Number.ReadBack
import TinyScript.Proofs.Scoping.Exporting
import TinyScript.Proofs.Scoping.Leftover
import TinyScript.Proofs.Scoping.Libraries
import TinyScript.Proofs.Store.Ancestors
import TinyScript.Proofs.Store.Capturing
import TinyScript.Proofs.Store.Indexing
import TinyScript.Proofs.Store.Weighing
import TinyScript.Proofs.Termination.Ending
import TinyScript.Proofs.Termination.Endless
import TinyScript.Proofs.Token.Lines
import TinyScript.Proofs.Twin.Notebook
import TinyScript.Store.Bench
