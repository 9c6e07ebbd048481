import Mudscript.Main
import Mudscript.Proofs.Acceptance
import Mudscript.Proofs.Aftermath
import Mudscript.Proofs.Backtraces
import Mudscript.Proofs.Braces
import Mudscript.Proofs.DeclaredObjects
import Mudscript.Proofs.Diagnosis
import Mudscript.Proofs.Entries
import Mudscript.Proofs.Forms
import Mudscript.Proofs.Frames
import Mudscript.Proofs.Jumps
import Mudscript.Proofs.Lexical
import Mudscript.Proofs.Listings
import Mudscript.Proofs.Numerals
import Mudscript.Proofs.Paths
import Mudscript.Proofs.PrivateChains
import Mudscript.Proofs.Requests
import Mudscript.Proofs.Returns
import Mudscript.Proofs.Sandbox
import Mudscript.Proofs.Shadowing
import Mudscript.Proofs.SharedVariables
import Mudscript.Proofs.Spellings
import Mudscript.Proofs.Transient
import Mudscript.Proofs.Writing
import Mudscript.Text.Quoted
