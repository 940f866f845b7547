/-
Module: SotFs.Spec.DurableService
Layer: Spec
Purpose: The service that a mount over a store is meant to give: the file service, and beside it the tree that the
  store holds. An unmount or a crash at any point ends in that tree with no file handle open, and nothing else of
  the service is left; with nothing stored it ends in the empty tree.
Trusted boundary: human-reviewed specification
Main exports: StoreEvent, DurableService, DurableService.Step
-/
import SotFs.Spec.FileService

namespace SotFs

/-- What is seen of a mount over a store. A save without a reply is that of an unmount, or of an fsync that a crash
    cuts off after the commit; `stored` tells whether the store took it. -/
inductive StoreEvent where
  | changed (req : FuseCaller) (now : Nat → Nat → Timestamp) (request : FuseRequest) (reply : FuseReply)
  | answered (req : FuseCaller) (query : FuseQuery) (reply : QueryReply)
  | synced (stored : Bool)
  | saved (stored : Bool)
  | restarted

/-- The files that are served and the files that a crash leaves. -/
structure DurableService where
  service : FileService
  saved : Option FileTree

namespace DurableService

/-- The tree is stored if the store takes it. -/
def save (s : DurableService) (stored : Bool) : DurableService :=
  { s with saved := if stored then some s.service.tree else s.saved }

/-- What is served from a stored tree on. -/
def reopen (saved : FileTree) : FileService := ⟨saved, fun _ => none, 1⟩

/-- fsync replies whether or not the store took the tree. -/
inductive Step (s : DurableService) : StoreEvent → DurableService → Prop where
  | changed {req : FuseCaller} {now : Nat → Nat → Timestamp} {request : FuseRequest} :
      Step s (.changed req now request (s.service.serve now req request).1)
        { s with service := (s.service.serve now req request).2 }
  | answered {req : FuseCaller} {query : FuseQuery} {reply : QueryReply} {service : FileService}
      (hanswer : s.service.Answers req query reply service) :
      Step s (.answered req query reply) { s with service := service }
  | synced {stored : Bool} : Step s (.synced stored) (s.save stored)
  | saved {stored : Bool} : Step s (.saved stored) (s.save stored)
  | restarted (now : Timestamp) : Step s .restarted { s with service := reopen (s.saved.getD (.new now)) }

end DurableService

end SotFs
