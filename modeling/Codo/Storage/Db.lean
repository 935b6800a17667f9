import Codo.Storage.Commands

/-!
# The key-value API

The tree code of `db.c` as programs over the pager interface.  The lock of
the tree's shape (`tree_lock`) is taken around every operation and is not
modelled: an operation runs alone.

`descend_to_leaf` and the leaf walk of `scan_range` loop without a bound in
the source.  They take a number of rounds here and report `none` when the
loop has not ended within it.
-/

namespace Codo.Storage

open Codo.Support

/-- `g_storage.root_page_id`, set by `init_storage_engine` and never changed. -/
def rootPageId : UInt32 := 1

/-- `transaction_state_t`, in the source's spelling. -/
inductive TransactionState
  | active
  | commited
  | aborted
  deriving DecidableEq

/-- The part of `struct transaction` the storage calls look at. -/
structure Transaction where
  txnId : UInt64
  state : TransactionState
  deriving DecidableEq

/-- `!txn || txn->state != TXN_STATE_ACTIVE` does not hold. -/
def activeTxn : Option Transaction → Option Transaction
  | some txn => if txn.state = .active then some txn else none
  | none => none

/-! ## Descents -/

/-- The child a lookup of `key` follows: that of the first separator not
below `key`, else the rightmost child. -/
def childFor (page : BtreePage) (key : Bytes) : UInt32 :=
  match getKvPair page (findKeyPosition page key) with
  | some kv => page.kvChildPageId kv
  | none => page.header.nextPageId

/-- The loop of `descend_path`, with `n` levels left. -/
def descendPathFrom (key : Bytes) :
    ℕ → List UInt32 → UInt32 → PagerM (Option (List UInt32))
  | 0, _, _ => pure none
  | n + 1, path, pageId => do
    match ← getPage pageId .none with
    | none => pure none
    | some page =>
      if page.header.pageType ≠ pageTypeInternal then do
        releasePage pageId .none
        pure (some (path ++ [pageId]))
      else do
        let childPageId := childFor page key
        releasePage pageId .none
        if childPageId = 0 ∨ childPageId = pageId then pure none
        else descendPathFrom key n (path ++ [pageId]) childPageId

/-- `descend_path`: the page ids from the root to the leaf owning `key`. -/
def descendPath (key : Bytes) : PagerM (Option (List UInt32)) :=
  descendPathFrom key btreeMaxDepth [] rootPageId

/-- `descend_to_leaf`: the pinned leaf, or `some none` for `NULL`. -/
def descendToLeafFrom (key : Bytes) (lock : LockType) :
    ℕ → UInt32 → BtreePage → PagerM (Option (Option (UInt32 × BtreePage)))
  | 0, _, _ => pure none
  | rounds + 1, pageId, page =>
    if page.header.pageType = pageTypeInternal then do
      let childPageId := childFor page key
      releasePage pageId lock
      match ← getPage childPageId lock with
      | none => pure (some none)
      | some child => descendToLeafFrom key lock rounds childPageId child
    else
      pure (some (some (pageId, page)))

def descendToLeaf (rounds : ℕ) (key : Bytes) (lock : LockType) :
    PagerM (Option (Option (UInt32 × BtreePage))) := do
  match ← getPage rootPageId lock with
  | none => pure (some none)
  | some page => descendToLeafFrom key lock rounds rootPageId page

/-! ## Splitting -/

/-- `grow_root`: the id of the page the root's contents moved to. -/
def growRoot : PagerM (Option UInt32) := do
  let leftId ← allocatePage
  if leftId = 0 then pure none
  else
    match ← getPage rootPageId .exclusive with
    | none => pure none
    | some root =>
      match ← getPage leftId .exclusive with
      | none => do
        releasePage rootPageId .exclusive
        pure none
      | some _ => do
        let left := { root with
          header := { root.header with pageId := leftId } }
        let emptied : BtreePage :=
          { header :=
              { root.header with
                pageType := pageTypeInternal
                keyCount := 0
                freeSpace := UInt16.ofNat btreePageCapacity
                nextPageId := leftId
                prevPageId := 0 }
            data := Block.zero btreePageCapacity }
        updatePage leftId left
        updatePage rootPageId emptied
        releasePage leftId .exclusive
        releasePage rootPageId .exclusive
        pure (some leftId)

/-- The loop of `insert_separator` that looks for the entry reaching
`nodeId`, from entry `i` on.  The outer `none` is an unreadable entry. -/
def findChildFrom (parent : BtreePage) (nodeId : UInt32) :
    ℕ → ℕ → Option (Option ℕ)
  | 0, _ => some none
  | n + 1, i =>
    match getKvPair parent i with
    | none => none
    | some kv =>
      if parent.kvChildPageId kv = nodeId then some (some i)
      else findChildFrom parent nodeId n (i + 1)

/-- The empty page `btree_split_node` hands to `btree_split_page`. -/
def emptyRight : BtreePage :=
  { BtreePage.zero with
    header :=
      { BtreePage.zero.header with
        freeSpace := UInt16.ofNat btreePageCapacity } }

/-- The middle of `btree_split_node`: allocate the right sibling and carve
`nodeId`.  Returns the sibling's id and the separator. -/
def splitOff (nodeId : UInt32) : PagerM (Option (UInt32 × Bytes)) := do
  let rightId ← allocatePage
  if rightId = 0 then pure none
  else
    match ← getPage nodeId .exclusive with
    | none => pure none
    | some node =>
      match ← getPage rightId .exclusive with
      | none => do
        releasePage nodeId .exclusive
        pure none
      | some _ =>
        match btreeSplitPage node emptyRight rightId maxKeySize with
        | none => do
          scribblePage rightId emptyRight
          releasePage rightId .exclusive
          releasePage nodeId .exclusive
          deallocatePage rightId
          pure none
        | some (node', right, sep) => do
          updatePage nodeId node'
          updatePage rightId right
          releasePage rightId .exclusive
          releasePage nodeId .exclusive
          pure (some (rightId, sep))

/-- The start of `insert_separator`: re-descend towards `sep` and return the
page above `nodeId` on that path. -/
def findParent (nodeId : UInt32) (sep : Bytes) : PagerM (Option UInt32) := do
  match ← descendPath sep with
  | none => pure none
  | some path =>
    match path.idxOf? nodeId with
    | none => pure none
    | some 0 => pure none
    | some (level + 1) => pure path[level]?

/-- The end of `insert_separator`: `parent` already has the new entry, and
the pointer that reached the split node is moved to `rightId`. -/
def repoint (parentId : UInt32) (parent : BtreePage) (oldPos : Option ℕ)
    (rightId : UInt32) : PagerM ℤ :=
  match oldPos with
  | some pos =>
    match getKvPair parent (pos + 1) with
    | none => do
      scribblePage parentId parent
      releasePage parentId .exclusive
      pure (-1)
    | some moved => do
      updatePage parentId (parent.setKvChild moved rightId)
      releasePage parentId .exclusive
      pure 0
  | none => do
    updatePage parentId { parent with header := { parent.header with nextPageId := rightId } }
    releasePage parentId .exclusive
    pure 0

mutual

def insertSeparator (nodeId : UInt32) (sep : Bytes) (rightId : UInt32) :
    ℕ → PagerM ℤ
  | 0 => pure (-1)
  | depth + 1 => do
    match ← findParent nodeId sep with
    | none => pure (-1)
    | some parentId =>
      match ← getPage parentId .exclusive with
      | none => pure (-1)
      | some parent =>
        match findChildFrom parent nodeId parent.keyCount 0 with
        | none => do
          releasePage parentId .exclusive
          pure (-1)
        | some oldPos =>
          if oldPos = none ∧ parent.header.nextPageId ≠ nodeId then do
            releasePage parentId .exclusive
            pure (-1)
          else
            match insertKvPair parent (oldPos.getD parent.keyCount) sep [] nodeId with
            | none => do
              releasePage parentId .exclusive
              let rc ← btreeSplitNode parentId depth
              if rc ≠ 0 then pure (-1)
              else insertSeparator nodeId sep rightId depth
            | some parent' => repoint parentId parent' oldPos rightId

def btreeSplitNode (nodeId : UInt32) : ℕ → PagerM ℤ
  | 0 => pure (-1)
  | depth + 1 => do
    let moved ←
      if nodeId = rootPageId then growRoot else pure (some nodeId)
    match moved with
    | none => pure (-1)
    | some nodeId =>
      match ← splitOff nodeId with
      | none => pure (-1)
      | some (rightId, sep) => insertSeparator nodeId sep rightId depth

end

/-- The part of `btree_split_node` after the root has been dealt with. -/
def splitBelow (nodeId : UInt32) (depth : ℕ) : PagerM ℤ := do
  match ← splitOff nodeId with
  | none => pure (-1)
  | some (rightId, sep) => insertSeparator nodeId sep rightId depth

theorem btreeSplitNode_root (depth : ℕ) :
    btreeSplitNode rootPageId (depth + 1) = (do
      match ← growRoot with
      | none => pure (-1)
      | some nodeId => splitBelow nodeId depth) := by
  rw [btreeSplitNode, if_pos rfl]
  rfl

theorem btreeSplitNode_of_ne {nodeId : UInt32} (h : nodeId ≠ rootPageId) (depth : ℕ) :
    btreeSplitNode nodeId (depth + 1) = splitBelow nodeId depth := by
  rw [btreeSplitNode, if_neg h]
  rfl

/-! ## Insert, search, delete -/

/-- The entry of `page` at `pos`, when its key is `key`. -/
def matchingEntry (page : BtreePage) (pos : ℤ) (key : Bytes) : Option ℕ :=
  match getKvPair page pos with
  | some kv => if compareKeys key (page.kvKey kv) = 0 then some kv else none
  | none => none

/-- The payload `db_insert` logs. -/
def insertPayload (key value : Bytes) : Bytes :=
  leBytes 8 key.length ++ leBytes 8 value.length ++ key ++ value

/-- The payload `db_delete` logs; the value length is a `uint16_t` here. -/
def deletePayload (key oldValue : Bytes) : Bytes :=
  leBytes 8 key.length ++ leBytes 2 oldValue.length ++ key ++ oldValue

/-- The retry loop of `db_insert`, with some attempts left. -/
def dbInsertLoop (txnId : UInt64) (key value : Bytes) : ℕ → PagerM ℤ
  | 0 => pure (-1)
  | attempts + 1 => do
    match ← descendPath key with
    | none => pure (-1)
    | some path =>
      match path.getLast? with
      | none => pure (-1)
      | some pageId =>
        match ← getPage pageId .exclusive with
        | none => pure (-1)
        | some page => do
          let pos := findKeyPosition page key
          if (matchingEntry page pos key).isSome then do
            releasePage pageId .exclusive
            pure (-1)
          else if page.freeSpace < kvPairSize + key.length + value.length then do
            releasePage pageId .exclusive
            let rc ← btreeSplitNode pageId btreeMaxDepth
            if rc ≠ 0 then pure (-1)
            else dbInsertLoop txnId key value attempts
          else do
            let _ ← writeWalRecord txnId .insert pageId (insertPayload key value)
            match insertKvPair page pos.toNat key value 0 with
            | none => do
              releasePage pageId .exclusive
              pure (-1)
            | some page' => do
              updatePage pageId page'
              releasePage pageId .exclusive
              pure 0

def dbInsert (txn : Option Transaction) (key value : Bytes) : PagerM ℤ :=
  match activeTxn txn with
  | none => pure (-1)
  | some txn =>
    if key.length = 0 ∨ maxKeySize < key.length ∨ maxValueSize < value.length then pure (-1)
    else dbInsertLoop txn.txnId key value btreeMaxDepth

/-- `db_search` with a caller's buffer of `capacity` bytes.  A find returns
the stored value's full length and the bytes copied; `some none` is `-1`. -/
def dbSearch (rounds : ℕ) (txn : Option Transaction) (key : Bytes)
    (capacity : ℕ) : PagerM (Option (Option (ℕ × Bytes))) :=
  match activeTxn txn with
  | none => pure (some none)
  | some _ => do
    match ← descendToLeaf rounds key .shared with
    | none => pure none
    | some none => pure (some none)
    | some (some (pageId, page)) =>
      match matchingEntry page (findKeyPosition page key) key with
      | some kv => do
        releasePage pageId .shared
        pure (some (some (page.kvValueLength kv, (page.kvValue kv).take capacity)))
      | none => do
        releasePage pageId .shared
        pure (some none)

def dbDelete (rounds : ℕ) (txn : Option Transaction) (key : Bytes) : PagerM (Option ℤ) :=
  match activeTxn txn with
  | none => pure (some (-1))
  | some txn => do
    match ← descendToLeaf rounds key .exclusive with
    | none => pure none
    | some none => pure (some (-1))
    | some (some (pageId, page)) => do
      let pos := findKeyPosition page key
      match matchingEntry page pos key with
      | none => do
        releasePage pageId .exclusive
        pure (some (-1))
      | some kv => do
        let _ ← writeWalRecord txn.txnId .delete pageId (deletePayload key (page.kvValue kv))
        match deleteKvPair page pos with
        | none => do
          releasePage pageId .exclusive
          pure (some (-1))
        | some page' => do
          updatePage pageId page'
          releasePage pageId .exclusive
          pure (some 0)

/-! ## Scans -/

/-- How the pass over one leaf ended: the scan is over, or it goes on to the
next leaf. -/
inductive ScanPass (κ : Type)
  | stop (ctx : κ)
  | next (ctx : κ)

section Scan

variable {κ : Type}

/-- The inner loop of `scan_range`, with `n` entries left from entry `i`.
An unreadable entry ends the pass, not the scan. -/
def scanPage (page : BtreePage) (pfx : Bytes)
    (callback : Bytes → Bytes → κ → ℤ × κ) : ℕ → ℤ → κ → ScanPass κ
  | 0, _, ctx => .next ctx
  | n + 1, i, ctx =>
    match getKvPair page i with
    | none => .next ctx
    | some kv =>
      if 0 < pfx.length ∧ (page.kvKeyLength kv < pfx.length ∨
          memcmp ((page.kvKey kv).take pfx.length) pfx ≠ 0) then
        .stop ctx
      else
        let result := callback (page.kvKey kv) (page.kvValue kv) ctx
        if result.1 ≠ 0 then .stop result.2
        else scanPage page pfx callback n (i + 1) result.2

/-- The leaf walk of `scan_range`, from entry `start` of a pinned leaf. -/
def scanLeaves (pfx : Bytes) (callback : Bytes → Bytes → κ → ℤ × κ) :
    ℕ → UInt32 → BtreePage → ℤ → κ → PagerM (Option (ℤ × κ))
  | 0, _, _, _, _ => pure none
  | rounds + 1, pageId, page, start, ctx =>
    match scanPage page pfx callback (page.keyCount - start).toNat start ctx with
    | .stop ctx => do
      releasePage pageId .shared
      pure (some (0, ctx))
    | .next ctx => do
      let nextPageId := page.header.nextPageId
      releasePage pageId .shared
      if nextPageId = 0 then pure (some (0, ctx))
      else
        match ← getPage nextPageId .shared with
        | none => pure (some (-1, ctx))
        | some next => scanLeaves pfx callback rounds nextPageId next 0 ctx

/-- `scan_range`: the return code and the callback's final context. -/
def scanRange (rounds : ℕ) (txn : Option Transaction) (pfx : Bytes)
    (callback : Bytes → Bytes → κ → ℤ × κ) (ctx : κ) : PagerM (Option (ℤ × κ)) :=
  match activeTxn txn with
  | none => pure (some (-1, ctx))
  | some _ =>
    if maxKeySize < pfx.length then pure (some (-1, ctx))
    else do
      match ← descendToLeaf rounds pfx .shared with
      | none => pure none
      | some none => pure (some (-1, ctx))
      | some (some (pageId, page)) =>
        scanLeaves pfx callback rounds pageId page (findKeyPosition page pfx) ctx

def dbScanPrefix (rounds : ℕ) (txn : Option Transaction) (pfx : Bytes)
    (callback : Bytes → Bytes → κ → ℤ × κ) (ctx : κ) : PagerM (Option (ℤ × κ)) :=
  scanRange rounds txn pfx callback ctx

def dbScan (rounds : ℕ) (txn : Option Transaction)
    (callback : Bytes → Bytes → κ → ℤ × κ) (ctx : κ) : PagerM (Option (ℤ × κ)) :=
  scanRange rounds txn [] callback ctx

end Scan

end Codo.Storage
