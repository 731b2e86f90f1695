import AheadSync.Core.Encoded
import AheadSync.Core.Extend
import AheadSync.Server.Truthful
import AheadSync.System.ExactlyOnce

/-! What a client makes of the receipts of its pushes. The server reads the identities of a batch by its own
    schema and by those its mutations were published under, the client reads them back by its own: a
    receipt passes its checks exactly when it can read what the batch settled, and among it finds what it
    queued. -/

namespace AheadSync

/-! ### How a queued operation arrives -/

section Arrival
variable {b : Backend} {d : MutationDescriptor} {schema : Schema} {m : WireMutation}

end Arrival

/-! ### What a client makes of a receipt -/

section Acceptable

variable {e : Engine} {st : Store} {push : ℕ} {receipt : PushReceipt}

section Ran
variable {D : Type} {b : Backend} {app : App D} {owner : String} {request : PushRequest}
  {xs : List SettledMutation} {t t' : Tables D}

end Ran

end Acceptable

/-! ### Every receipt -/

section System
variable {D : Type} {s : PushSystem D} {c : String} {b : Backend} {app : App (Noted D)} {j : Json}
  {owner : String} {request : PushRequest} {receipt : PushReceipt}

end System

namespace Sample

/-- A client with this schema sent its first batch. -/
def asked (e : Engine) : PushSystem Unit :=
  Machine.run PushSystem.step (.init (fun _ => e) ()) (sellings.take 2)

end Sample

section Sample
open Sample

end Sample

end AheadSync
