import DocPath.Proofs.Config.Nesting
import DocPath.Proofs.Config.Sources
import DocPath.Proofs.ContentType
import DocPath.Proofs.Log.Refusal
import DocPath.Proofs.Payload.Faults
import DocPath.Proofs.Payload.Keys
import DocPath.Proofs.Payload.Names
import DocPath.Proofs.Payload.Reread
import DocPath.Proofs.Payload.Rules
import DocPath.Proofs.Payload.Standard
import DocPath.Proofs.Query.Normal
import DocPath.Proofs.Query.Substitution
import DocPath.Proofs.Query.Trace
import DocPath.Proofs.Query.Unhandled
import DocPath.Proofs.Stash.Session
import DocPath.Session
