import Codo.Storage.Page
import Codo.Support.Program

/-!
# The interface the tree code uses

`db.c` reaches the rest of the engine through the pager and the log.  Each
call it makes is a command here, so the tree code is one program text that
can be run against the page store of `Codo.Storage.PageStore` and against the
buffer pool.

`db.c` edits a page through the pointer `get_page` returned.  `updatePage`
is such an edit followed by `mark_page_dirty`; `scribblePage` is an edit that
the source does not mark, which happens on two error paths only.
-/

namespace Codo.Storage

open Codo.Support Program

inductive LockType
  | none
  | shared
  | exclusive
  deriving DecidableEq

inductive WalRecordType
  | insert
  | update
  | delete
  | commit
  | abort
  | checkout
  deriving DecidableEq

def WalRecordType.code : WalRecordType → ℕ
  | insert => 1
  | update => 2
  | delete => 3
  | commit => 4
  | abort => 5
  | checkout => 6

/-- One call from `db.c` into the pager or the log. -/
inductive PagerCmd
  | getPage (id : UInt32) (lock : LockType)
  | releasePage (id : UInt32) (lock : LockType)
  | updatePage (id : UInt32) (page : BtreePage)
  | scribblePage (id : UInt32) (page : BtreePage)
  | allocatePage
  | deallocatePage (id : UInt32)
  | writeWalRecord (txnId : UInt64) (type : WalRecordType) (pageId : UInt32) (data : Bytes)

/-- What each call returns; `get_page` returns `none` for `NULL`. -/
def PagerCmd.Reply : PagerCmd → Type
  | getPage _ _ => Option BtreePage
  | releasePage _ _ => Unit
  | updatePage _ _ => Unit
  | scribblePage _ _ => Unit
  | allocatePage => UInt32
  | deallocatePage _ => Unit
  | writeWalRecord _ _ _ _ => ℤ

abbrev PagerM := Program PagerCmd PagerCmd.Reply

def getPage (id : UInt32) (lock : LockType) : PagerM (Option BtreePage) :=
  issue (R := PagerCmd.Reply) (PagerCmd.getPage id lock)

def releasePage (id : UInt32) (lock : LockType) : PagerM Unit :=
  issue (R := PagerCmd.Reply) (PagerCmd.releasePage id lock)

def updatePage (id : UInt32) (page : BtreePage) : PagerM Unit :=
  issue (R := PagerCmd.Reply) (PagerCmd.updatePage id page)

def scribblePage (id : UInt32) (page : BtreePage) : PagerM Unit :=
  issue (R := PagerCmd.Reply) (PagerCmd.scribblePage id page)

def allocatePage : PagerM UInt32 :=
  issue (R := PagerCmd.Reply) PagerCmd.allocatePage

def deallocatePage (id : UInt32) : PagerM Unit :=
  issue (R := PagerCmd.Reply) (PagerCmd.deallocatePage id)

def writeWalRecord (txnId : UInt64) (type : WalRecordType) (pageId : UInt32)
    (data : Bytes) : PagerM ℤ :=
  issue (R := PagerCmd.Reply) (PagerCmd.writeWalRecord txnId type pageId data)

end Codo.Storage
