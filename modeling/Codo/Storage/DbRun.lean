import Codo.Storage.Operations

/-!
# Runs of the key-value API

A run is a sequence of `db_insert`, `db_search` and `db_delete` calls in
active transactions on a fresh engine.  The specification is a machine with
one finite map as its state.  As long as no page load fails and the page ids
last, the replies of a run are those of the map machine.
-/

namespace Codo.Storage

open Support Support.Levels Program List Option Function Store

variable {s : Store} {rounds : ℕ}

/-! ## Calls and their specification -/

/-- One call of the key-value API. -/
inductive DbOp
  | insert (txnId : UInt64) (key value : Bytes)
  | search (txnId : UInt64) (key : Bytes) (capacity : ℕ)
  | delete (txnId : UInt64) (key : Bytes)

/-- What the caller sees: a return code, or for a search the stored length and
the bytes copied. -/
inductive DbReply
  | code (rc : ℤ)
  | found (result : Option (ℕ × Bytes))
  deriving DecidableEq

/-- The handle of an active transaction. -/
def activeHandle (txnId : UInt64) : Option Transaction :=
  some ⟨txnId, .active⟩

theorem isSome_activeHandle (txnId : UInt64) :
    (activeTxn (activeHandle txnId)).isSome := rfl

/-- The program behind a call.  `none` is a descent that did not end within
`rounds` levels. -/
def DbOp.program (rounds : ℕ) : DbOp → PagerM (Option DbReply)
  | .insert txnId key value => do
    let rc ← dbInsert (activeHandle txnId) key value
    pure (some (.code rc))
  | .search txnId key capacity => do
    let r ← dbSearch rounds (activeHandle txnId) key capacity
    pure (r.map .found)
  | .delete txnId key => do
    let r ← dbDelete rounds (activeHandle txnId) key
    pure (r.map .code)

/-- Run a list of calls and collect the replies. -/
def runOps (rounds : ℕ) : List DbOp → PagerM (List (Option DbReply))
  | [] => pure []
  | op :: ops => do
    let reply ← op.program rounds
    let replies ← runOps rounds ops
    pure (reply :: replies)

/-- The sizes `db_insert` accepts. -/
def LegalSizes (key value : Bytes) : Prop :=
  0 < key.length ∧ key.length ≤ maxKeySize ∧ value.length ≤ maxValueSize

instance (key value : Bytes) : Decidable (LegalSizes key value) :=
  inferInstanceAs (Decidable (_ ∧ _ ∧ _))

theorem illegalSizes {key value : Bytes} (h : ¬ LegalSizes key value) :
    key.length = 0 ∨ maxKeySize < key.length ∨ maxValueSize < value.length := by
  by_contra hnot
  push Not at hnot
  exact h ⟨Nat.pos_of_ne_zero hnot.1, hnot.2.1, hnot.2.2⟩

/-- One call on a finite map. -/
def mapStep (m : Bytes → Option Bytes) :
    DbOp → DbReply × (Bytes → Option Bytes)
  | .insert _ key value =>
    if LegalSizes key value ∧ m key = none then
      (.code 0, update m key (some value))
    else (.code (-1), m)
  | .search _ key capacity =>
    (.found ((m key).map fun value => (value.length, value.take capacity)), m)
  | .delete _ key =>
    if m key = none then (.code (-1), m)
    else (.code 0, update m key none)

def mapRun (m : Bytes → Option Bytes) :
    List DbOp → List DbReply × (Bytes → Option Bytes)
  | [] => ([], m)
  | op :: ops =>
    let step := mapStep m op
    let rest := mapRun step.2 ops
    (step.1 :: rest.1, rest.2)

/-! ## The fresh engine -/

/-- The store after `init_storage_engine` on an empty file: the root is an
empty leaf, stamped by `mark_page_dirty`, and ids start after it. -/
def Store.fresh (lsn : UInt64) (checksum : UInt32) : Store :=
  { pages := update (fun _ => none) rootPageId (some ((freshPage rootPageId).stamp lsn checksum))
    freePages := []
    nextPageId := rootPageId + 1
    exhausted := false }

theorem holds_freshPage (id : UInt32) (lsn : UInt64) (checksum : UInt32) :
    Holds ((freshPage id).stamp lsn checksum) [] :=
  ⟨by simp, ⟨_, rfl⟩, rfl, rfl⟩

theorem leafPage_freshPage (id : UInt32) (lsn : UInt64) (checksum : UInt32) :
    LeafPage ((freshPage id).stamp lsn checksum) :=
  LeafPage.of_holds (holds_freshPage id lsn checksum) rfl List.Pairwise.nil (by simp)

section Fresh

variable (lsn : UInt64) (checksum : UInt32)

theorem Store.fresh_pages : (Store.fresh lsn checksum).pages rootPageId =
    some ((freshPage rootPageId).stamp lsn checksum) := by
  simp [Store.fresh]

theorem Store.fresh_nextPageId :
    (Store.fresh lsn checksum).nextPageId.toNat = 2 := rfl

theorem tree_fresh : Tree (Store.fresh lsn checksum) 0 rootSlots := by
  have hroot := fresh_pages lsn checksum
  have hleaf := leafPage_freshPage rootPageId lsn checksum
  have hpairs := (holds_freshPage rootPageId lsn checksum).pairs_eq
  constructor
  · refine ⟨nodup_nil, by simp [Store.fresh], ?_, ?_⟩
    · rw [fresh_nextPageId]
      decide
    · rw [fresh_nextPageId]
      decide
  · refine ⟨rfl, ?_, ?_⟩
    · intro i hi
      exact absurd hi (Nat.not_lt_zero i)
    · intro i hi
      exact absurd hi (Nat.not_lt_zero i)
  · refine ⟨?_, ?_, pairwise_singleton _ _, nodup_singleton _, ?_⟩
    · intro i hi
      exact absurd hi (Nat.not_lt_zero i)
    · intro slot hslot
      rw [mem_singleton.mp hslot]
      exact ⟨_, hroot, hleaf.type⟩
    · intro i hi slot hslot
      obtain rfl : i = 0 := Nat.le_zero.mp hi
      rw [mem_singleton.mp hslot]
      refine ⟨by decide, ?_, by simp [Store.fresh]⟩
      rw [fresh_nextPageId]
      decide
  · constructor
    · intro slot hslot
      rw [mem_singleton.mp hslot]
      exact ⟨_, hroot, hleaf⟩
    · intro slot hslot p hp
      rw [mem_singleton.mp hslot, leafPairs_eq hroot, hpairs] at hp
      simp at hp

theorem pairsOf_fresh : (Store.fresh lsn checksum).pairsOf rootSlots = [] := by
  rw [rootSlots, pairsOf_cons, leafPairs_eq (fresh_pages lsn checksum),
    (holds_freshPage rootPageId lsn checksum).pairs_eq]
  rfl

theorem linked_fresh : Linked (Store.fresh lsn checksum) rootSlots := by
  refine ⟨?_, trivial⟩
  rw [nextId_eq (fresh_pages lsn checksum)]
  rfl

theorem enclosed_fresh : Enclosed (Store.fresh lsn checksum) rootSlots := by
  have hroot := fresh_pages lsn checksum
  refine ⟨{rootPageId}, ⟨?_, ?_, ?_, ?_⟩, ?_⟩
  · rintro id rfl
    exact (tree_fresh lsn checksum).owned_root
  · rintro id rfl
    exact ⟨_, hroot, rfl⟩
  · rintro id rfl
    rw [nextId_eq hroot]
    exact .inl rfl
  · rintro id rfl
    rw [nextId_eq hroot]
    exact (by decide : (0 : UInt32) ≠ rootPageId)
  · intro slot hslot
    rw [mem_singleton.mp hslot]
    exact Set.mem_singleton _

end Fresh

/-! ## One call -/

/-- The reply of a call that was refused. -/
def DbOp.refusal : DbOp → DbReply
  | .insert _ _ _ => .code (-1)
  | .search _ _ _ => .found none
  | .delete _ _ => .code (-1)

/-- The call did to the tree what it does to the map. -/
def Followed (s : Store) (L : List (UInt32 × WithTop Bytes)) (s' : Store)
    (op : DbOp) (reply : Option DbReply) : Prop :=
  reply = some (mapStep (lookup (s.pairsOf L)) op).1 ∧
    s'.exhausted = s.exhausted ∧ s.idsLeft ≤ s'.idsLeft + 40 ∧
    ∃ h' L', Tree s' h' L' ∧ (Linked s L → Linked s' L') ∧ (Enclosed s L → Enclosed s' L') ∧
      lookup (s'.pairsOf L') = (mapStep (lookup (s.pairsOf L)) op).2

/-- The call was refused for want of a page. -/
def Refused (F : Faults) (s : Store) (h : ℕ)
    (L : List (UInt32 × WithTop Bytes)) (s' : Store) (op : DbOp) (reply : Option DbReply) : Prop :=
  reply = some op.refusal ∧ Starved F s s' 40 ∧
    ∃ h' L', Tree s' h' L' ∧ (Enclosed s L → Enclosed s' L') ∧
      (carveNeed h ≤ s.idsLeft ∨ Kept s L s' L')

namespace Tree

variable {h : ℕ} {L : Slots} {F : Faults} {T : StoreRel} [StoreLike F T]

theorem refused_of_pages (ht : Tree s h L) (hF : F.pages = true) (op : DbOp) :
    Refused F s h L s op (some op.refusal) :=
  ⟨rfl, .inl hF, h, L, ht, fun henclosed => henclosed, .inr (Kept.refl s L)⟩

theorem always_insert (ht : Tree s h L) (rounds : ℕ) (txnId : UInt64) (key value : Bytes) :
    Always T ((DbOp.insert txnId key value).program rounds)
      s fun reply s' => Followed s L s' (.insert txnId key value) reply ∨
        Refused F s h L s' (.insert txnId key value) reply := by
  rw [DbOp.program]
  refine always_bind.mpr ?_
  by_cases hlegal : LegalSizes key value
  · refine (ht.always_dbInsert hlegal (isSome_activeHandle txnId)).mono ?_
    rintro rc s' (⟨rfl, hex, hids, hnone, h', L', X, Y, ht', hlink, henclosed, -,
      hbefore, hafter⟩ | ⟨rfl, rfl, hfound⟩ | ⟨rfl, hstarved, hleft⟩)
    · refine always_pure.mpr ?_
      have hstep : mapStep (lookup (s.pairsOf L)) (.insert txnId key value) =
          (.code 0, update (lookup (s.pairsOf L)) key (some value)) := if_pos ⟨hlegal, hnone⟩
      refine .inl ⟨by rw [hstep], hex, hids, h', L', ht', hlink, henclosed, ?_⟩
      rw [hstep, hafter, hbefore]
      apply lookup_insert
      rw [← hbefore]
      exact lookup_eq_none_iff.mp hnone
    · refine always_pure.mpr ?_
      have hstep : mapStep (lookup (s'.pairsOf L)) (.insert txnId key value) =
          (.code (-1), lookup (s'.pairsOf L)) := if_neg fun hboth => hfound hboth.2
      exact .inl ⟨by rw [hstep], rfl, Nat.le_add_right _ _, h, L, ht,
        fun hlink => hlink, fun henclosed => henclosed, by rw [hstep]⟩
    · refine always_pure.mpr ?_
      exact .inr ⟨rfl, hstarved, hleft⟩
  · have hstep : mapStep (lookup (s.pairsOf L)) (.insert txnId key value) =
        (.code (-1), lookup (s.pairsOf L)) := if_neg fun hboth => hlegal hboth.1
    rw [dbInsert, show activeTxn (activeHandle txnId) = some ⟨txnId, .active⟩ from rfl]
    simp only [if_pos (illegalSizes hlegal)]
    refine always_pure.mpr ?_
    refine always_pure.mpr ?_
    exact .inl ⟨by rw [hstep], rfl, Nat.le_add_right _ _, h, L, ht,
      fun hlink => hlink, fun henclosed => henclosed, by rw [hstep]⟩

theorem always_search (ht : Tree s h L) (hrounds : 9 ≤ rounds) (txnId : UInt64)
    (key : Bytes) (capacity : ℕ) :
    Always T ((DbOp.search txnId key capacity).program rounds) s fun reply s' =>
        Followed s L s' (.search txnId key capacity) reply ∨
          Refused F s h L s' (.search txnId key capacity) reply := by
  rw [DbOp.program]
  refine always_bind.mpr ?_
  have hlt : h < rounds := ht.height_lt.trans_le hrounds
  refine (ht.always_dbSearch (isSome_activeHandle txnId) key capacity hlt).mono ?_
  rintro r s' ⟨rfl, ⟨rfl, hF⟩ | rfl⟩
  · refine always_pure.mpr ?_
    exact .inr (ht.refused_of_pages hF _)
  · refine always_pure.mpr ?_
    exact .inl ⟨rfl, rfl, Nat.le_add_right _ _, h, L, ht,
      fun hlink => hlink, fun henclosed => henclosed, rfl⟩

theorem always_delete (ht : Tree s h L) (hrounds : 9 ≤ rounds) (txnId : UInt64) (key : Bytes) :
    Always T ((DbOp.delete txnId key).program rounds) s
      fun reply s' => Followed s L s' (.delete txnId key) reply ∨
        Refused F s h L s' (.delete txnId key) reply := by
  rw [DbOp.program]
  refine always_bind.mpr ?_
  have hlt : h < rounds := ht.height_lt.trans_le hrounds
  refine (ht.always_dbDelete (isSome_activeHandle txnId) key hlt).mono ?_
  rintro r s' (⟨rfl, rfl, hF | hnone⟩ | ⟨rfl, slot, xs, p, ys, -, hkey, hw⟩)
  · refine always_pure.mpr ?_
    exact .inr (ht.refused_of_pages hF _)
  · refine always_pure.mpr ?_
    have hstep : mapStep (lookup (s'.pairsOf L)) (.delete txnId key) =
        (.code (-1), lookup (s'.pairsOf L)) := if_pos hnone
    exact .inl ⟨by rw [hstep]; rfl, rfl, Nat.le_add_right _ _, h, L, ht,
      fun hlink => hlink, fun henclosed => henclosed, by rw [hstep]⟩
  · refine always_pure.mpr ?_
    obtain ⟨X, Y, hbefore, hafter⟩ := hw.around
    rw [show X ++ (xs ++ p :: ys) ++ Y = (X ++ xs) ++ p :: (ys ++ Y) by simp]
      at hbefore
    rw [show X ++ (xs ++ ys) ++ Y = (X ++ xs) ++ (ys ++ Y) by simp] at hafter
    have hsorted : SortedPairs ((X ++ xs) ++ p :: (ys ++ Y)) := hbefore ▸ ht.sorted
    have hfound : lookup (s.pairsOf L) key ≠ none := by
      have hp : p ∈ s.pairsOf L := by
        rw [hbefore]
        simp
      rw [← hkey, ht.sorted.lookup_eq_some hp]
      exact some_ne_none _
    have hstep : mapStep (lookup (s.pairsOf L)) (.delete txnId key) =
        (.code 0, update (lookup (s.pairsOf L)) key none) := if_neg hfound
    refine .inl ⟨by rw [hstep]; rfl, hw.exhausted, ?_, h, L, hw.tree, hw.linked, hw.enclosed, ?_⟩
    · rw [hw.idsLeft]
      exact Nat.le_add_right _ _
    · rw [hstep, hafter, lookup_delete hsorted, ← hbefore, hkey]

/-- Every call either does what it does to the map, or is refused. -/
theorem always_program (ht : Tree s h L) (hrounds : 9 ≤ rounds) (op : DbOp) :
    Always T (op.program rounds) s fun reply s' =>
      Followed s L s' op reply ∨ Refused F s h L s' op reply := by
  cases op with
  | insert txnId key value => exact ht.always_insert rounds txnId key value
  | search txnId key capacity => exact ht.always_search hrounds txnId key capacity
  | delete txnId key => exact ht.always_delete hrounds txnId key

end Tree

/-! ## Whole runs -/

/-- Once an id has been refused, the record of it stays. -/
theorem always_exhausted {α : Type} {F : Faults} (p : PagerM α) (hs : s.exhausted = true) :
    Always (pageStep F) p s fun _ s' => s'.exhausted = true := by
  refine always_invariant ?_ p hs
  intro c s r s' hstep hex
  cases c with
  | getPage id lock =>
    rcases hstep with ⟨-, -, rfl⟩ | ⟨page, -, -, rfl⟩ <;> exact hex
  | releasePage id lock =>
    obtain rfl := hstep
    exact hex
  | updatePage id page =>
    obtain ⟨lsn, checksum, rfl⟩ := hstep
    exact hex
  | scribblePage id page =>
    obtain rfl := hstep
    exact hex
  | allocatePage =>
    rcases hstep with ⟨-, -, rfl⟩ | ⟨-, rfl⟩
    · rfl
    · rw [Store.allocate]
      split
      · exact hex
      · split
        · exact hex
        · rfl
  | deallocatePage id =>
    rcases hstep with rfl | rfl <;> exact hex
  | writeWalRecord txnId type pageId data =>
    obtain ⟨-, rfl⟩ := hstep
    exact hex

/-- A refusal without injected faults means the ids ran out. -/
theorem Refused.exhausted {s' : Store} {h : ℕ} {L : Slots} {op : DbOp}
    {reply : Option DbReply} (hr : Refused Faults.none s h L s' op reply) :
    s'.exhausted = true := by
  obtain ⟨-, hF | ⟨hex, -⟩, -⟩ := hr
  · exact absurd hF (by decide)
  · exact hex

/-- A run whose page loads succeed and whose ids last is a run of the map
machine. -/
theorem Tree.always_runOps (hrounds : 9 ≤ rounds) (ops : List DbOp) :
    ∀ {s : Store} {h : ℕ} {L : Slots}, Tree s h L →
      Always (pageStep Faults.none) (runOps rounds ops) s fun replies s' => s'.exhausted = false →
          replies = (mapRun (lookup (s.pairsOf L)) ops).1.map some ∧
          ∃ h' L', Tree s' h' L' ∧ (Linked s L → Linked s' L') ∧ lookup (s'.pairsOf L') =
              (mapRun (lookup (s.pairsOf L)) ops).2 := by
  induction ops with
  | nil =>
    intro s h L ht
    refine always_pure.mpr ?_
    intro _
    exact ⟨rfl, h, L, ht, fun hlink => hlink, rfl⟩
  | cons op ops ih =>
    intro s h L ht
    rw [runOps]
    refine always_bind.mpr ?_
    refine (ht.always_program hrounds op).mono ?_
    rintro reply s₁ (⟨hreply, -, -, h₁, L₁, ht₁, hlink₁, -, hmap₁⟩ | hrefused)
    · refine always_bind.mpr ?_
      refine (ih ht₁).mono ?_
      intro replies s' hrest
      refine always_pure.mpr ?_
      intro hex
      obtain ⟨hreplies, h', L', ht', hlink', hmap'⟩ := hrest hex
      refine ⟨?_, h', L', ht', fun hl => hlink' (hlink₁ hl), ?_⟩
      · rw [hreply, hreplies, hmap₁]
        rfl
      · rw [hmap', hmap₁]
        rfl
    · intro replies s' hrun hex
      have hstays : s'.exhausted = true := always_exhausted _ hrefused.exhausted replies s' hrun
      rw [hex] at hstays
      exact absurd hstays (by decide)

/-- Forty ids for each call are always enough. -/
theorem Tree.always_runOps_lasts (hrounds : 9 ≤ rounds) (ops : List DbOp) :
    ∀ {s : Store} {h : ℕ} {L : Slots}, Tree s h L →
      s.exhausted = false → 40 * ops.length ≤ s.idsLeft →
      Always (pageStep Faults.none) (runOps rounds ops) s fun _ s' => s'.exhausted = false := by
  induction ops with
  | nil =>
    intro s h L _ hex _
    exact always_pure.mpr hex
  | cons op ops ih =>
    intro s h L ht hex hids
    rw [length_cons] at hids
    rw [runOps]
    refine (ht.always_program hrounds op).bind ?_
    rintro reply s₁ (⟨-, hex₁, hids₁, h₁, L₁, ht₁, -⟩ | ⟨-, hstarved, -⟩)
    · refine (ih ht₁ (hex₁.trans hex) (by omega)).bind ?_
      intro replies s' hlasts
      exact always_pure.mpr hlasts
    · exact absurd hstarved.lt (by omega)

/-- A run of successful inserts and deletes was never refused an id. -/
theorem Tree.always_runOps_succeeds (hrounds : 9 ≤ rounds) (ops : List DbOp) :
    ∀ {s : Store} {h : ℕ} {L : Slots}, Tree s h L → s.exhausted = false →
      Always (pageStep Faults.none) (runOps rounds ops) s
        fun replies s' => (∀ reply ∈ replies, reply = some (.code 0)) → s'.exhausted = false := by
  induction ops with
  | nil =>
    intro s h L _ hex
    refine always_pure.mpr ?_
    intro _
    exact hex
  | cons op ops ih =>
    intro s h L ht hex
    rw [runOps]
    refine (ht.always_program hrounds op).bind ?_
    rintro reply s₁ (⟨-, hex₁, -, h₁, L₁, ht₁, -⟩ | ⟨hreply, -⟩)
    · refine (ih ht₁ (hex₁.trans hex)).bind ?_
      intro replies s' hrest
      refine always_pure.mpr ?_
      intro hall
      apply hrest
      intro r hr
      exact hall r (mem_cons_of_mem _ hr)
    · refine always_bind.mpr ?_
      intro replies s' _
      refine always_pure.mpr ?_
      intro hall
      have hzero := hall reply (by simp)
      rw [hreply] at hzero
      cases op <;> simp [DbOp.refusal] at hzero

theorem Store.fresh_idsLeft (lsn : UInt64) (checksum : UInt32) :
    (Store.fresh lsn checksum).idsLeft = 999998 := by
  rw [Store.idsLeft, fresh_nextPageId]
  simp [Store.fresh, maxPages]

/-! ## What a caller can observe -/

/-- A search with a large enough buffer finds `value` for `key`. -/
def Finds (s : Store) (key value : Bytes) : Prop :=
  Outcome (pageStep Faults.none) (dbSearch btreeMaxDepth (activeHandle 0) key value.length) s
    (some (some (value.length, value))) s

theorem Tree.finds_iff {h : ℕ} {L : Slots} (ht : Tree s h L) (key value : Bytes) :
    Finds s key value ↔ lookup (s.pairsOf L) key = some value := by
  have hdepth : h < btreeMaxDepth := ht.height_lt.trans (by decide)
  have hsearch := ht.always_dbSearch (isSome_activeHandle 0) key value.length
    hdepth (T := pageStep Faults.none)
  constructor
  · intro hfinds
    obtain ⟨-, ⟨-, hF⟩ | hresult⟩ := hsearch _ _ hfinds
    · exact absurd hF (by decide)
    · rw [some_inj] at hresult
      obtain ⟨v, hv, hpair⟩ := map_eq_some_iff.mp hresult.symm
      obtain ⟨hlen, htake⟩ := Prod.mk.inj hpair
      rw [hv, ← htake, ← hlen, take_length]
  · intro hlookup
    obtain ⟨r, s', hrun⟩ := exists_outcome (exists_pageStep Faults.none)
      (dbSearch btreeMaxDepth (activeHandle 0) key value.length) s
    obtain ⟨rfl, ⟨-, hF⟩ | hresult⟩ := hsearch r s' hrun
    · exact absurd hF (by decide)
    · rw [hlookup, map_some, take_length] at hresult
      rw [hresult] at hrun
      exact hrun

/-- The engine behaves as one finite map: as long as every page is loaded and
the ids last, a run replies what the map machine replies, and searching the
final state finds what the map holds. -/
theorem db_run_refines_map {rounds : ℕ} (hrounds : 9 ≤ rounds)
    (ops : List DbOp) (lsn : UInt64) (checksum : UInt32) :
    Always (pageStep Faults.none) (runOps rounds ops)
      (Store.fresh lsn checksum) fun replies s' => s'.exhausted = false →
        replies = (mapRun (fun _ => none) ops).1.map some ∧
        ∀ key value, Finds s' key value ↔
          (mapRun (fun _ => none) ops).2 key = some value := by
  have hempty : lookup ((Store.fresh lsn checksum).pairsOf rootSlots) = fun _ => none := by
    rw [pairsOf_fresh]
    rfl
  have hrun := (tree_fresh lsn checksum).always_runOps hrounds ops
  rw [hempty] at hrun
  refine hrun.mono ?_
  intro replies s' hend hex
  obtain ⟨hreplies, h', L', ht', -, hmap⟩ := hend hex
  refine ⟨hreplies, ?_⟩
  intro key value
  rw [ht'.finds_iff, hmap]

theorem db_run_refines_map_five_calls :
    ∃ s', s'.exhausted = false ∧ Outcome (pageStep Faults.none)
      (runOps 9 [.insert 1 [7] [1, 2, 3], .search 1 [7] 2,
        .insert 2 [7] [9], .delete 2 [7], .search 2 [7] 8])
      (Store.fresh 0 0)
      [some (.code 0), some (.found (some (3, [1, 2]))), some (.code (-1)),
        some (.code 0), some (.found none)] s' := by
  obtain ⟨replies, s', hout⟩ := exists_outcome (exists_pageStep Faults.none)
    (runOps 9 [.insert 1 [7] [1, 2, 3], .search 1 [7] 2,
      .insert 2 [7] [9], .delete 2 [7], .search 2 [7] 8]) (Store.fresh 0 0)
  have hex : s'.exhausted = false := (tree_fresh 0 0).always_runOps_lasts (le_refl 9) _ rfl
      (by rw [fresh_idsLeft]; decide) replies s' hout
  have hreplies := (db_run_refines_map (le_refl 9) _ 0 0 replies s' hout hex).1
  refine ⟨s', hex, ?_⟩
  rw [hreplies] at hout
  exact hout

/-- The bounds of the insert path never cause a failure: in every state a run
reaches, inserting an absent key of legal size returns `0` while pages load
and ids last. -/
theorem db_insert_bounds_suffice {rounds : ℕ} (hrounds : 9 ≤ rounds)
    (ops : List DbOp) (lsn : UInt64) (checksum : UInt32) (txnId : UInt64)
    {key value : Bytes} (hlegal : LegalSizes key value) :
    Always (pageStep Faults.none) (runOps rounds ops)
      (Store.fresh lsn checksum) fun _ s =>
        (∀ v, ¬ Finds s key v) →
        Always (pageStep Faults.none)
          (dbInsert (activeHandle txnId) key value) s fun rc s' =>
            s'.exhausted = false → rc = 0 := by
  refine ((tree_fresh lsn checksum).always_runOps hrounds ops).mono ?_
  intro replies s hreached habsent rc s' hinsert hex
  have hbefore : s.exhausted = false := by
    by_contra hused
    have hstays : s'.exhausted = true := always_exhausted _ (by simpa using hused) rc s' hinsert
    rw [hex] at hstays
    exact absurd hstays (by decide)
  obtain ⟨-, h, L, ht, -, -⟩ := hreached hbefore
  rcases ht.always_dbInsert hlegal (isSome_activeHandle txnId) rc s' hinsert
    with ⟨hrc, -⟩ | ⟨-, -, hfound⟩ | ⟨-, hF | ⟨hused, -⟩, -⟩
  · exact hrc
  · obtain ⟨v, hv⟩ := ne_none_iff_exists'.mp hfound
    exact absurd ((ht.finds_iff key v).mpr hv) (habsent v)
  · exact absurd hF (by decide)
  · rw [hex] at hused
    exact absurd hused (by decide)

theorem db_insert_bounds_suffice_fresh :
    ∃ s', s'.exhausted = false ∧ Outcome (pageStep Faults.none)
      (dbInsert (activeHandle 2) [8] [2]) (Store.fresh 0 0) 0 s' := by
  obtain ⟨rc, s', hinsert⟩ := exists_outcome
    (exists_pageStep Faults.none) (dbInsert (activeHandle 2) [8] [2]) (Store.fresh 0 0)
  have hex : s'.exhausted = false := by
    rcases (tree_fresh 0 0).always_dbInsert
      (by decide : LegalSizes [8] [2]) (isSome_activeHandle 2) rc s' hinsert with
      ⟨-, hex, -⟩ | ⟨-, rfl, -⟩ | ⟨-, hstarved, -⟩
    · exact hex
    · rfl
    · have hfew := hstarved.lt
      rw [fresh_idsLeft] at hfew
      exact absurd hfew (by decide)
  have habsent : ∀ v, ¬ Finds (Store.fresh 0 0) [8] v := by
    intro v hfinds
    rw [(tree_fresh 0 0).finds_iff, pairsOf_fresh] at hfinds
    exact absurd hfinds (by simp [lookup])
  have hrc : rc = 0 := db_insert_bounds_suffice (le_refl 9) [] 0 0 2
    (by decide : LegalSizes [8] [2]) [] (Store.fresh 0 0) ⟨rfl, rfl⟩ habsent rc s' hinsert hex
  rw [hrc] at hinsert
  exact ⟨s', hex, hinsert⟩

end Codo.Storage
