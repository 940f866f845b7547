/-
Module: SotFs.Core.Queries
Layer: Core
Purpose: The reads of a graph as one type of queries: name lookup and path resolution, directory listings,
  file content, extended attributes, ACLs, quotas and the two verifiers; and what a client sees of a graph:
  the responses to a sequence of requests, operations and queries in any order.
Trusted boundary: human-reviewed model
Main exports: Query, Answer, Query.answer, Request, Response, TypeGraph.responses, ObservablyEqual
-/
import SotFs.Core.Runs
import SotFs.Core.Fsck

namespace SotFs

/-- A read with its arguments. -/
inductive Query where
  | lookupName (dir : DirId) (name : String)
  | resolveName (dir : DirId) (name : String)
  | listDir (dir : DirId)
  | dirForInode (inodeId : InodeId)
  | parentDir (dir : DirId)
  | isAncestor (ancestorDir descendantDir : DirId)
  | resolvePath (path : String)
  | getInode (inodeId : InodeId)
  | readData (inodeId : InodeId) (offset size : Nat)
  | getxattr (inodeId : InodeId) (ns : XAttrNamespace) (name : String)
  | listxattr (inodeId : InodeId)
  | readlink (inodeId : InodeId)
  | getacl (inodeId : InodeId)
  | getQuota (dirId : DirId)
  | checkInvariants
  | fsck
deriving DecidableEq, Repr

/-- What a read returns. -/
inductive Answer where
  | edge (found : Option Edge)
  | inodeId (found : Option InodeId)
  | entries (names : List (String × InodeId))
  | dir (found : Option DirId)
  | holds (answer : Bool)
  | location (found : Except GraphError (DirId × InodeId))
  | inode (found : Option Inode)
  | bytes (content : Outcome (List UInt8))
  | attributes (names : Outcome (List (XAttrNamespace × String)))
  | target (path : Outcome String)
  | acl (entries : Outcome (List AclEntry))
  | quota (limits : Outcome (Option Quota))
  | verdict (result : Except GraphError Unit)
  | report (result : FsckReport)

def Query.answer (g : TypeGraph) : Query → Answer
  | .lookupName d n => .edge (g.lookupName d n)
  | .resolveName d n => .inodeId (g.resolveName d n)
  | .listDir d => .entries (g.listDir d)
  | .dirForInode t => .dir (g.dirForInode t)
  | .parentDir d => .dir (g.parentDir d)
  | .isAncestor a d => .holds (g.isAncestor a d)
  | .resolvePath path => .location (g.resolvePath path)
  | .getInode t => .inode (g.getInode t)
  | .readData t offset size => .bytes (SotFs.readData g t offset size)
  | .getxattr t ns name => .bytes (SotFs.getxattr g t ns name)
  | .listxattr t => .attributes (SotFs.listxattr g t)
  | .readlink t => .target (SotFs.readlink g t)
  | .getacl t => .acl (SotFs.getacl g t)
  | .getQuota d => .quota (SotFs.getQuota g d)
  | .checkInvariants => .verdict g.checkInvariants
  | .fsck => .report (SotFs.fsck g)

/-- A request of a client: an operation, a query, or a switch of the context or of the log. -/
inductive Request where
  | call (now : Nat → Timestamp) (op : Op)
  | ask (query : Query)
  | setCapCtx (ctx : CapContext)
  | enableProvLog
  | disableProvLog

inductive Response where
  | outcome (result : Outcome Reply)
  | answer (result : Answer)
  | done

def Request.serve (g : TypeGraph) : Request → Response × TypeGraph
  | .call now op => (.outcome (op.apply now g).1, (op.apply now g).2)
  | .ask query => (.answer (query.answer g), g)
  | .setCapCtx ctx => (.done, g.setCapCtx ctx)
  | .enableProvLog => (.done, g.enableProvLog)
  | .disableProvLog => (.done, g.disableProvLog)

/-- The responses to a sequence of requests, one by one. -/
def TypeGraph.responses (g : TypeGraph) : List Request → List Response
  | [] => []
  | request :: requests => (request.serve g).1 :: (request.serve g).2.responses requests

/-- No sequence of requests tells the graphs apart. -/
def ObservablyEqual (g g' : TypeGraph) : Prop := ∀ requests, g.responses requests = g'.responses requests

end SotFs
