import Codo.Storage.Db
import Codo.Storage.PageLayout
import Codo.Storage.Wal

/-!
# How the tree code uses the pager

Every program of `db.c` keeps to the pager's contract, whatever the replies
are: it edits and releases only pages it holds, it holds at most one page
when it asks for another, and it has released all of them when it returns.
The records it logs carry its own transaction id and fit into the log buffer.
-/

namespace Codo.Storage

open Codo.Support List

/-- The calls transaction `txnId` may make while it holds the pages `held`. -/
def mayIssue (txnId : UInt64) : PagerCmd → List UInt32 → Prop
  | .getPage _ _, held => held.length ≤ 1
  | .releasePage id _, held => id ∈ held
  | .updatePage id _, held => id ∈ held
  | .scribblePage id _, held => id ∈ held
  | .allocatePage, _ => True
  | .deallocatePage _, _ => True
  | .writeWalRecord id _ _ data, _ => id = txnId ∧ Storable data

/-- The pages held after a call. -/
def heldAfter : (c : PagerCmd) → c.Reply → List UInt32 → List UInt32
  | .getPage id _, reply, held =>
    match (reply : Option BtreePage) with
    | none => held
    | some _ => id :: held
  | .releasePage id _, _, held => held.erase id
  | .updatePage _ _, _, held => held
  | .scribblePage _ _, _, held => held
  | .allocatePage, _, held => held
  | .deallocatePage _, _, held => held
  | .writeWalRecord _ _ _ _, _, held => held

/-- The program makes only calls it may make, and `Q` holds of what it returns
and of the pages it then holds. -/
def Polite {α : Type} (txnId : UInt64) (p : PagerM α) (held : List UInt32)
    (Q : α → List UInt32 → Prop) : Prop :=
  Program.Obeys (mayIssue txnId) heldAfter p held Q

namespace Polite

variable {α β : Type} {txnId : UInt64} {held : List UInt32} {id : UInt32}
  {lock : LockType} {page : BtreePage}
variable {Q : β → List UInt32 → Prop} {f : Unit → PagerM β}

/-! ## Rules -/

theorem ret {a : α} {Q : α → List UInt32 → Prop} (h : Q a held) : Polite txnId (pure a) held Q :=
  h

theorem bind {p : PagerM α} {f : α → PagerM β} {P : α → List UInt32 → Prop}
    (hp : Polite txnId p held P) (hf : ∀ a held', P a held' → Polite txnId (f a) held' Q) :
    Polite txnId (p >>= f) held Q :=
  Program.obeys_bind.mpr (hp.mono hf)

theorem getPage {f : Option BtreePage → PagerM β} (hroom : held.length ≤ 1)
    (hnone : Polite txnId (f none) held Q)
    (hsome : ∀ page, Polite txnId (f (some page)) (id :: held) Q) :
    Polite txnId (Storage.getPage id lock >>= f) held Q := by
  refine ⟨hroom, ?_⟩
  rintro (_ | page)
  · exact hnone
  · exact hsome page

theorem getFirst {f : Option BtreePage → PagerM β} (hnone : Polite txnId (f none) [] Q)
    (hsome : ∀ page, Polite txnId (f (some page)) [id] Q) :
    Polite txnId (Storage.getPage id lock >>= f) [] Q :=
  getPage (Nat.zero_le 1) hnone hsome

theorem getSecond {id' : UInt32} {f : Option BtreePage → PagerM β}
    (hnone : Polite txnId (f none) [id'] Q)
    (hsome : ∀ page, Polite txnId (f (some page)) [id, id'] Q) :
    Polite txnId (Storage.getPage id lock >>= f) [id'] Q :=
  getPage (le_refl 1) hnone hsome

theorem releasePage (hmem : id ∈ held) (h : Polite txnId (f ()) (held.erase id) Q) :
    Polite txnId (Storage.releasePage id lock >>= f) held Q :=
  ⟨hmem, fun _ => h⟩

theorem updatePage (hmem : id ∈ held) (h : Polite txnId (f ()) held Q) :
    Polite txnId (Storage.updatePage id page >>= f) held Q :=
  ⟨hmem, fun _ => h⟩

theorem scribblePage (hmem : id ∈ held) (h : Polite txnId (f ()) held Q) :
    Polite txnId (Storage.scribblePage id page >>= f) held Q :=
  ⟨hmem, fun _ => h⟩

theorem allocatePage {f : UInt32 → PagerM β} (h : ∀ id, Polite txnId (f id) held Q) :
    Polite txnId (Storage.allocatePage >>= f) held Q :=
  ⟨trivial, h⟩

theorem deallocatePage (h : Polite txnId (f ()) held Q) :
    Polite txnId (Storage.deallocatePage id >>= f) held Q :=
  ⟨trivial, fun _ => h⟩

theorem writeWalRecord {type : WalRecordType} {data : Bytes} {f : ℤ → PagerM β}
    (hdata : Storable data) (h : ∀ rc, Polite txnId (f rc) held Q) :
    Polite txnId (Storage.writeWalRecord txnId type id data >>= f) held Q :=
  ⟨⟨rfl, hdata⟩, h⟩

theorem releaseLast (h : Polite txnId (f ()) [] Q) :
    Polite txnId (Storage.releasePage id lock >>= f) [id] Q := by
  apply releasePage mem_cons_self
  rwa [erase_cons_head]

end Polite

/-- The program starts and ends without holding a page. -/
def Balanced {α : Type} (txnId : UInt64) (p : PagerM α) : Prop :=
  Polite txnId p [] fun _ held => held = []

section Programs

variable {txnId : UInt64}
variable {key : Bytes}

/-! ## Descents -/

theorem balanced_descendPathFrom (key : Bytes) (n : ℕ) (path : List UInt32)
    (pageId : UInt32) : Balanced txnId (descendPathFrom key n path pageId) := by
  induction n generalizing path pageId with
  | zero => exact .ret rfl
  | succ n ih =>
    apply Polite.getFirst
    · exact .ret rfl
    · intro page
      simp only
      split
      next => exact .releaseLast (.ret rfl)
      next =>
        apply Polite.releaseLast
        split
        next => exact .ret rfl
        next => exact ih _ _

theorem balanced_descendPath (key : Bytes) : Balanced txnId (descendPath key) :=
  balanced_descendPathFrom key _ _ _

/-- What `descend_to_leaf` returns is what it holds. -/
def HoldsLeaf (r : Option (Option (UInt32 × BtreePage))) (held : List UInt32) : Prop :=
  match r with
  | some (some (pageId, _)) => held = [pageId]
  | some none => held = []
  | none => True

theorem polite_descendToLeafFrom (key : Bytes) (lock : LockType) (rounds : ℕ)
    (pageId : UInt32) (page : BtreePage) :
    Polite txnId (descendToLeafFrom key lock rounds pageId page) [pageId] HoldsLeaf := by
  induction rounds generalizing pageId page with
  | zero => exact .ret trivial
  | succ rounds ih =>
    rw [descendToLeafFrom]
    split
    next =>
      apply Polite.releaseLast
      apply Polite.getFirst
      · exact .ret rfl
      · exact fun child => ih _ child
    next => exact .ret rfl

theorem polite_descendToLeaf (rounds : ℕ) (key : Bytes) (lock : LockType) :
    Polite txnId (descendToLeaf rounds key lock) [] HoldsLeaf := by
  apply Polite.getFirst
  · exact .ret rfl
  · exact fun page => polite_descendToLeafFrom key lock rounds _ page

/-! ## Splitting -/

theorem balanced_growRoot : Balanced txnId growRoot := by
  apply Polite.allocatePage
  intro leftId
  simp only
  split
  next => exact .ret rfl
  next =>
    apply Polite.getFirst
    · exact .ret rfl
    · intro root
      apply Polite.getSecond
      · exact .releaseLast (.ret rfl)
      · intro old
        apply Polite.updatePage mem_cons_self
        apply Polite.updatePage (mem_cons_of_mem _ mem_cons_self)
        apply Polite.releasePage mem_cons_self
        rw [erase_cons_head]
        exact .releaseLast (.ret rfl)

theorem balanced_splitOff (nodeId : UInt32) : Balanced txnId (splitOff nodeId) := by
  apply Polite.allocatePage
  intro rightId
  split
  next => exact .ret rfl
  next =>
    apply Polite.getFirst
    · exact .ret rfl
    · intro node
      apply Polite.getSecond
      · exact .releaseLast (.ret rfl)
      · intro old
        simp only
        split
        next =>
          apply Polite.scribblePage mem_cons_self
          apply Polite.releasePage mem_cons_self
          rw [erase_cons_head]
          apply Polite.releaseLast
          exact .deallocatePage (.ret rfl)
        next =>
          apply Polite.updatePage (mem_cons_of_mem _ mem_cons_self)
          apply Polite.updatePage mem_cons_self
          apply Polite.releasePage mem_cons_self
          rw [erase_cons_head]
          exact .releaseLast (.ret rfl)

theorem balanced_findParent (nodeId : UInt32) (sep : Bytes) :
    Balanced txnId (findParent nodeId sep) := by
  apply Polite.bind (balanced_descendPath sep)
  rintro path held rfl
  split
  next => exact .ret rfl
  next =>
    split <;> exact .ret rfl

theorem polite_repoint (parentId : UInt32) (parent : BtreePage)
    (oldPos : Option ℕ) (rightId : UInt32) :
    Polite txnId (repoint parentId parent oldPos rightId) [parentId] fun _ held => held = [] := by
  cases oldPos with
  | none =>
    apply Polite.updatePage mem_cons_self
    exact .releaseLast (.ret rfl)
  | some pos =>
    rw [repoint]
    split
    next =>
      apply Polite.scribblePage mem_cons_self
      exact .releaseLast (.ret rfl)
    next =>
      apply Polite.updatePage mem_cons_self
      exact .releaseLast (.ret rfl)

/-- Both functions of the cascade, by induction on the depth that is left. -/
theorem balanced_cascade (depth : ℕ) :
    (∀ nodeId sep rightId, Balanced txnId (insertSeparator nodeId sep rightId depth)) ∧
    ∀ nodeId, Balanced txnId (btreeSplitNode nodeId depth) := by
  induction depth with
  | zero =>
    constructor
    · intro nodeId sep rightId
      rw [insertSeparator]
      exact .ret rfl
    · intro nodeId
      rw [btreeSplitNode]
      exact .ret rfl
  | succ depth ih =>
    constructor
    · intro nodeId sep rightId
      rw [insertSeparator]
      apply Polite.bind (balanced_findParent nodeId sep)
      rintro parentId held rfl
      split
      next => exact .ret rfl
      apply Polite.getFirst
      · exact .ret rfl
      · intro parent
        simp only
        split
        next => exact .releaseLast (.ret rfl)
        split
        next => exact .releaseLast (.ret rfl)
        split
        next =>
          apply Polite.releaseLast
          apply Polite.bind (ih.2 _)
          rintro rc held rfl
          split
          next => exact .ret rfl
          next => exact ih.1 _ _ _
        next => exact polite_repoint _ _ _ _
    · intro nodeId
      have hbelow : ∀ nodeId, Balanced txnId (splitBelow nodeId depth) := by
        intro nodeId
        apply Polite.bind (balanced_splitOff nodeId)
        rintro carved held rfl
        split
        next => exact .ret rfl
        next => exact ih.1 _ _ _
      by_cases hroot : nodeId = rootPageId
      · rw [hroot, btreeSplitNode_root]
        apply Polite.bind balanced_growRoot
        rintro moved held rfl
        split
        next => exact .ret rfl
        next => exact hbelow _
      · rw [btreeSplitNode_of_ne hroot]
        exact hbelow nodeId

/-! ## The interface -/

theorem eq_of_activeTxn {txn : Option Transaction} {t : Transaction}
    (h : activeTxn txn = some t) : txn = some t := by
  cases txn with
  | none => cases h
  | some t' =>
    rw [activeTxn] at h
    split at h
    next => exact h
    next => cases h

theorem storable_of_length_le {data : Bytes} (h : data.length ≤ 10000) : Storable data := by
  have hlt : data.length < 2 ^ 63 := by omega
  refine ⟨hlt, ?_⟩
  rw [walStride_of_lt hlt, walBufferSize]
  omega

theorem storable_insertPayload {value : Bytes} (hkey : key.length ≤ maxKeySize)
    (hvalue : value.length ≤ maxValueSize) : Storable (insertPayload key value) := by
  apply storable_of_length_le
  simp only [insertPayload, length_append, length_leBytes]
  rw [maxKeySize] at hkey
  rw [maxValueSize] at hvalue
  omega

/-- The key and the value of an entry lie within its page. -/
theorem storable_deletePayload {page : BtreePage} {pos : ℤ} {kv : ℕ}
    (h : matchingEntry page pos key = some kv) :
    Storable (deletePayload key (page.kvValue kv)) := by
  have hbound : ∀ i n, (slice page.data.bytes i n).length ≤ 4024 := by
    intro i n
    have hdata : page.data.bytes.length = 4024 := page.data.length_eq
    rw [slice, length_take, length_drop, hdata]
    omega
  have hkey : key.length ≤ 4024 := by
    rw [matchingEntry] at h
    split at h
    next kv' _ =>
      split at h
      next hsame =>
        rw [(compareKeys_eq_zero_iff _ _).mp hsame]
        exact hbound _ _
      next => cases h
    next => cases h
  have hvalue : (page.kvValue kv).length ≤ 4024 := hbound _ _
  apply storable_of_length_le
  simp only [deletePayload, length_append, length_leBytes]
  omega

theorem balanced_dbInsertLoop {value : Bytes} (hkey : key.length ≤ maxKeySize)
    (hvalue : value.length ≤ maxValueSize) (attempts : ℕ) :
    Balanced txnId (dbInsertLoop txnId key value attempts) := by
  induction attempts with
  | zero => exact .ret rfl
  | succ attempts ih =>
    apply Polite.bind (balanced_descendPath key)
    rintro path held rfl
    split
    next => exact .ret rfl
    split
    next => exact .ret rfl
    apply Polite.getFirst
    · exact .ret rfl
    · intro page
      simp only
      split
      next => exact .releaseLast (.ret rfl)
      split
      next =>
        apply Polite.releaseLast
        apply Polite.bind ((balanced_cascade btreeMaxDepth).2 _)
        rintro rc held rfl
        split
        next => exact .ret rfl
        next => exact ih
      apply Polite.writeWalRecord (storable_insertPayload hkey hvalue)
      intro rc
      split
      next => exact .releaseLast (.ret rfl)
      apply Polite.updatePage mem_cons_self
      exact .releaseLast (.ret rfl)

theorem balanced_dbInsert (txn : Option Transaction) (key value : Bytes)
    (htxn : ∀ t, txn = some t → t.txnId = txnId) : Balanced txnId (dbInsert txn key value) := by
  rw [dbInsert]
  split
  next => exact .ret rfl
  next t ht =>
    split
    next => exact .ret rfl
    next hsizes =>
      rw [not_or, not_or, not_lt, not_lt] at hsizes
      have hid := htxn t (eq_of_activeTxn ht)
      rw [hid]
      exact balanced_dbInsertLoop hsizes.2.1 hsizes.2.2 btreeMaxDepth

theorem balanced_dbSearch (rounds : ℕ) (txn : Option Transaction) (key : Bytes) (capacity : ℕ) :
    Polite txnId (dbSearch rounds txn key capacity) [] fun r held =>
      r ≠ none → held = [] := by
  rw [dbSearch]
  split
  next => exact .ret fun _ => rfl
  next =>
    apply Polite.bind (polite_descendToLeaf rounds key .shared)
    intro r held hleaf
    split
    next => exact .ret fun h => absurd rfl h
    next => exact .ret fun _ => hleaf
    next =>
      obtain rfl : held = [_] := hleaf
      split <;> exact .releaseLast (.ret fun _ => rfl)

theorem balanced_dbDelete (rounds : ℕ) (txn : Option Transaction)
    (key : Bytes) (htxn : ∀ t, txn = some t → t.txnId = txnId) :
    Polite txnId (dbDelete rounds txn key) [] fun r held =>
      r ≠ none → held = [] := by
  rw [dbDelete]
  split
  next => exact .ret fun _ => rfl
  next t ht =>
    apply Polite.bind (polite_descendToLeaf rounds key .exclusive)
    intro r held hleaf
    split
    next => exact .ret fun h => absurd rfl h
    next => exact .ret fun _ => hleaf
    next =>
      obtain rfl : held = [_] := hleaf
      simp only
      split
      next => exact .releaseLast (.ret fun _ => rfl)
      next kv hkv =>
        rw [htxn t (eq_of_activeTxn ht)]
        apply Polite.writeWalRecord (storable_deletePayload hkv)
        intro rc
        split
        next => exact .releaseLast (.ret fun _ => rfl)
        next =>
          apply Polite.updatePage mem_cons_self
          exact .releaseLast (.ret fun _ => rfl)

section Scan

variable {κ : Type}

theorem polite_scanLeaves (pfx : Bytes) (callback : Bytes → Bytes → κ → ℤ × κ)
    (rounds : ℕ) (pageId : UInt32) (page : BtreePage) (start : ℤ) (ctx : κ) :
    Polite txnId (scanLeaves pfx callback rounds pageId page start ctx)
      [pageId] fun r held => r ≠ none → held = [] := by
  induction rounds generalizing pageId page start ctx with
  | zero => exact .ret fun h => absurd rfl h
  | succ rounds ih =>
    rw [scanLeaves]
    split
    next => exact .releaseLast (.ret fun _ => rfl)
    next =>
      apply Polite.releaseLast
      split
      next => exact .ret fun _ => rfl
      next =>
        apply Polite.getFirst
        · exact .ret fun _ => rfl
        · exact fun next => ih _ next 0 _

theorem balanced_scanRange (rounds : ℕ) (txn : Option Transaction)
    (pfx : Bytes) (callback : Bytes → Bytes → κ → ℤ × κ) (ctx : κ) :
    Polite txnId (scanRange rounds txn pfx callback ctx) [] fun r held =>
      r ≠ none → held = [] := by
  rw [scanRange]
  split
  next => exact .ret fun _ => rfl
  next =>
    split
    next => exact .ret fun _ => rfl
    next =>
      apply Polite.bind (polite_descendToLeaf rounds pfx .shared)
      intro r held hleaf
      split
      next => exact .ret fun h => absurd rfl h
      next => exact .ret fun _ => hleaf
      next =>
        obtain rfl : held = [_] := hleaf
        exact polite_scanLeaves pfx callback rounds _ _ _ ctx

end Scan

end Programs

end Codo.Storage
