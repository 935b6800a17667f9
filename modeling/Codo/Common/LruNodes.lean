import Codo.Common.Lru
import Codo.Support.LinkedList

/-!
# The nodes of the read cache

`lru.c` as it works on memory: every entry is a node that stands in the recency
list, by `prev` and `next`, and in the chain of its bucket, by `hash_next`.  A
node is its address.  `Sound` says that the two structures hold the same nodes;
every operation keeps it, and the nodes in the order of the recency list are
the entries of `LruCache`.

The loops along a chain are bounded by the number of allocated nodes.  No chain
has more, so the bound is never met.
-/

namespace Codo.Common

open Support List Function

/-! ## The code -/

/-- `malloc`: an address that is not in use. -/
structure Allocator where
  choose : List ℕ → ℕ
  fresh : ∀ live, choose live ∉ live

/-- `get_hash_code`: FNV-1a. -/
def getHashCode (tableCapacity : ℕ) (source : Bytes) : ℕ :=
  let hash : UInt64 := source.foldl
    (fun hash c => (hash ^^^ c.toUInt64) * 1099511628211) 1469598103934665603
  (hash % UInt64.ofNat tableCapacity).toNat

/-- `lru_cache_t` with its table, its list and the nodes. -/
structure LruNodes where
  tableCapacity : ℕ
  chains : Chains ℕ ℕ
  list : LinkedList ℕ
  size : ℤ
  capacity : ℤ
  key : ℕ → Bytes
  value : ℕ → Bytes
  live : List ℕ
  generation : UInt64

variable {n : LruNodes} {l xs ys spare : List ℕ} {v : ℕ} {key : Bytes}
  {c : LruCache} {value : Bytes}

namespace LruNodes

def bucket (n : LruNodes) (v : ℕ) : ℕ :=
  getHashCode n.tableCapacity (n.key v)

/-- `lru_cache_create`. -/
def create (capacity : ℤ) : Option LruNodes :=
  if capacity ≤ 0 then none
  else some {
    tableCapacity := (capacity * 2).toNat
    chains := ⟨fun _ => none, fun _ => none⟩
    list := .empty
    size := 0
    capacity := capacity
    key := fun _ => []
    value := fun _ => []
    live := []
    generation := 0 }

/-- `create_node`: the node is new and cleared. -/
def createNode (al : Allocator) (n : LruNodes) (key value : Bytes) : ℕ × LruNodes :=
  let v := al.choose n.live
  (v, { n with
    chains := n.chains.clear v
    list := n.list.clear v
    key := update n.key v key
    value := update n.value v value
    live := v :: n.live })

def freeNode (n : LruNodes) (v : ℕ) : LruNodes :=
  { n with live := n.live.erase v }

def hashFind (n : LruNodes) (key : Bytes) : Option ℕ :=
  n.chains.find (fun v => decide (n.key v = key)) n.live.length (getHashCode n.tableCapacity key)

def hashInsert (n : LruNodes) (v : ℕ) : LruNodes :=
  { n with chains := n.chains.push (n.bucket v) v }

def hashRemove (n : LruNodes) (v : ℕ) : LruNodes :=
  { n with chains := (n.chains.remove n.live.length (n.bucket v) v).clear v }

def listUnlink (n : LruNodes) (v : ℕ) : LruNodes :=
  { n with list := n.list.unlink v, size := n.size - 1 }

def listPushBack (n : LruNodes) (v : ℕ) : LruNodes :=
  { n with list := n.list.pushBack v, size := n.size + 1 }

def touch (n : LruNodes) (v : ℕ) : LruNodes :=
  (n.listUnlink v).listPushBack v

/-- A node is taken out of both structures and freed. -/
def discard (n : LruNodes) (v : ℕ) : LruNodes :=
  ((n.listUnlink v).hashRemove v).freeNode v

def evictLru (n : LruNodes) : LruNodes :=
  match n.list.head with
  | none => n
  | some victim => n.discard victim

/-- `lru_get` into a buffer of `valueLength` bytes: on a hit the full length and
the bytes copied. -/
def get (n : LruNodes) (key : Bytes) (valueLength : ℕ) : Option (ℕ × Bytes) × LruNodes :=
  match n.hashFind key with
  | none => (none, n)
  | some v => (some ((n.value v).length, (n.value v).take valueLength), n.touch v)

def setValue (n : LruNodes) (v : ℕ) (value : Bytes) : LruNodes :=
  { n with value := update n.value v value }

def makeRoom (n : LruNodes) : LruNodes :=
  if n.size ≥ n.capacity then n.evictLru else n

def store (al : Allocator) (n : LruNodes) (key value : Bytes) : LruNodes :=
  match n.hashFind key with
  | some existing => (n.setValue existing value).touch existing
  | none =>
    let (v, n) := createNode al n key value
    (n.makeRoom.hashInsert v).listPushBack v

def bump (n : LruNodes) : LruNodes :=
  { n with generation := n.generation + 1 }

def put (al : Allocator) (n : LruNodes) (key value : Bytes) : ℤ × LruNodes :=
  (0, store al n.bump key value)

def fill (al : Allocator) (n : LruNodes) (key value : Bytes) (generation : UInt64) : ℤ × LruNodes :=
  if n.generation ≠ generation then (1, n) else (0, store al n key value)

def invalidate (n : LruNodes) (key : Bytes) : Bool × LruNodes :=
  let n := n.bump
  match n.hashFind key with
  | some v => (true, n.discard v)
  | none => (false, n)

/-! ## What the two structures hold -/

/-- The recency list holds the nodes `l`, the chains hold the same nodes, each
in the chain of its key, and no key occurs twice.  The nodes `spare` are
allocated and in neither structure. -/
structure Sound (n : LruNodes) (l spare : List ℕ) : Prop where
  list : n.list.Holds l
  chains : ∃ L, n.chains.Holds L ∧ ∀ b v, v ∈ L b ↔ v ∈ l ∧ n.bucket v = b
  keys : (l.map n.key).Nodup
  size : n.size = l.length
  live : n.live.Nodup ∧ ∀ v, v ∈ n.live ↔ v ∈ l ∨ v ∈ spare
  apart : ∀ v ∈ spare, v ∉ l

def entriesOf (n : LruNodes) (l : List ℕ) : List (Bytes × Bytes) :=
  l.map fun v => (n.key v, n.value v)

theorem Sound.length_le (h : n.Sound l spare) {L : ℕ → List ℕ}
    (hL : n.chains.Holds L) (hmem : ∀ b v, v ∈ L b ↔ v ∈ l ∧ n.bucket v = b)
    (b : ℕ) : (L b).length ≤ n.live.length := by
  refine (subperm_of_subset (hL.nodup b) fun v hv => ?_).length_le
  exact (h.live.2 v).mpr (.inl ((hmem b v).mp hv).1)

theorem Sound.eq_of_key (h : n.Sound l spare) {u : ℕ} (hu : u ∈ l) (hv : v ∈ l)
    (hkey : n.key u = n.key v) : u = v :=
  inj_on_of_nodup_map h.keys hu hv hkey

theorem Sound.hashFind_eq_some_iff (h : n.Sound l spare) :
    n.hashFind key = some v ↔ v ∈ l ∧ n.key v = key := by
  obtain ⟨L, hL, hmem⟩ := h.chains
  rw [hashFind, hL.find_eq (h.length_le hL hmem _)]
  constructor
  · intro hfind
    have hkey : n.key v = key := by simpa using List.find?_some hfind
    exact ⟨((hmem _ v).mp (mem_of_find?_eq_some hfind)).1, hkey⟩
  · rintro ⟨hv, rfl⟩
    have hchain : v ∈ L (getHashCode n.tableCapacity (n.key v)) := (hmem _ v).mpr ⟨hv, rfl⟩
    have hsome : ((L (getHashCode n.tableCapacity (n.key v))).find? fun u =>
        decide (n.key u = n.key v)).isSome := by
      rw [List.find?_isSome]
      exact ⟨v, hchain, decide_eq_true rfl⟩
    obtain ⟨u, hu⟩ := Option.isSome_iff_exists.mp hsome
    have hkey : n.key u = n.key v := by simpa using List.find?_some hu
    have hul := ((hmem _ u).mp (mem_of_find?_eq_some hu)).1
    rw [hu, h.eq_of_key hul hv hkey]

theorem Sound.hashFind_eq_none_iff (h : n.Sound l spare) :
    n.hashFind key = none ↔ key ∉ l.map n.key := by
  rw [Option.eq_none_iff_forall_not_mem]
  constructor
  · intro hnone hmem
    obtain ⟨v, hv, hkey⟩ := mem_map.mp hmem
    exact hnone v (h.hashFind_eq_some_iff.mpr ⟨hv, hkey⟩)
  · intro hmem v hv
    obtain ⟨hl, hkey⟩ := h.hashFind_eq_some_iff.mp hv
    exact hmem (mem_map.mpr ⟨v, hl, hkey⟩)

/-! ## What the steps keep -/

theorem sound_create {capacity : ℤ} (h : create capacity = some n) : n.Sound [] [] := by
  rw [create] at h
  obtain ⟨-, hn⟩ := Option.ite_none_left_eq_some.mp h
  obtain rfl := Option.some.inj hn
  exact ⟨LinkedList.holds_empty, ⟨fun _ => [], ⟨fun _ => rfl, fun _ => nodup_nil, nofun⟩, by simp⟩,
    nodup_nil, rfl, ⟨nodup_nil, by simp⟩, nofun⟩

/-- The order of the nodes does not matter to the chains. -/
theorem Sound.relink (h : n.Sound l spare) {l' : List ℕ} {d : LinkedList ℕ}
    (hd : d.Holds l') (hperm : l'.Perm l) : Sound { n with list := d } l' spare := by
  obtain ⟨L, hL, hmem⟩ := h.chains
  refine ⟨hd, ⟨L, hL, ?_⟩, ?_, ?_, ?_, ?_⟩
  · intro b v
    rw [hperm.mem_iff]
    exact hmem b v
  · exact (hperm.map n.key).nodup_iff.mpr h.keys
  · rw [hperm.length_eq]
    exact h.size
  · refine ⟨h.live.1, fun v => ?_⟩
    rw [hperm.mem_iff]
    exact h.live.2 v
  · intro v hv
    rw [hperm.mem_iff]
    exact h.apart v hv

theorem Sound.touch (h : n.Sound (xs ++ v :: ys) spare) :
    (n.touch v).Sound (xs ++ ys ++ [v]) spare := by
  have hv : v ∉ xs ++ ys := (nodup_cons.mp (nodup_middle.mp h.list.nodup)).1
  have hperm : (xs ++ ys ++ [v]).Perm (xs ++ v :: ys) := by
    rw [append_assoc]
    exact (perm_append_singleton v ys).append_left xs
  have hsound := h.relink (h.list.unlink.pushBack hv) hperm
  have hsize : n.size - 1 + 1 = n.size := by omega
  rw [LruNodes.touch, listPushBack, listUnlink]
  dsimp only
  rw [hsize]
  exact hsound

theorem Sound.discard (h : n.Sound (xs ++ v :: ys) spare) :
    (n.discard v).Sound (xs ++ ys) spare := by
  obtain ⟨L, hL, hmem⟩ := h.chains
  have hnodup := nodup_cons.mp (nodup_middle.mp h.list.nodup)
  have hrest : ∀ u, u ∈ xs ++ ys ↔ u ≠ v ∧ u ∈ xs ++ v :: ys := by
    intro u
    rw [mem_append, mem_append, mem_cons]
    constructor
    · intro hu
      refine ⟨?_, by tauto⟩
      rintro rfl
      exact hnodup.1 (mem_append.mpr hu)
    · tauto
  have hchain : ∀ b u, u ∈ update L (n.bucket v)
      ((L (n.bucket v)).erase v) b ↔ u ∈ xs ++ ys ∧ n.bucket u = b := by
    intro b u
    rw [hrest]
    by_cases hb : b = n.bucket v
    · subst hb
      rw [update_self, (hL.nodup _).mem_erase_iff, hmem, and_assoc]
    · rw [update_of_ne hb, hmem]
      constructor
      · rintro ⟨hu, rfl⟩
        exact ⟨⟨fun heq => hb (heq ▸ rfl), hu⟩, rfl⟩
      · rintro ⟨⟨-, hu⟩, hbu⟩
        exact ⟨hu, hbu⟩
  have hremoved : (n.chains.remove n.live.length (n.bucket v) v).Holds _ :=
    hL.remove (h.length_le hL hmem (n.bucket v))
  refine ⟨h.list.unlink, ⟨_, hremoved.clear fun b hv => ?_, hchain⟩, ?_, ?_, ?_, ?_⟩
  · exact hnodup.1 ((hchain b v).mp hv).1
  · have hkeys := h.keys
    rw [map_append, map_cons, nodup_middle, ← map_append] at hkeys
    exact (nodup_cons.mp hkeys).2
  · change n.size - 1 = _
    rw [h.size]
    simp only [length_append, length_cons]
    omega
  · refine ⟨h.live.1.erase v, fun u => ?_⟩
    change u ∈ n.live.erase v ↔ _
    rw [h.live.1.mem_erase_iff, h.live.2, hrest]
    constructor
    · rintro ⟨hne, hu | hu⟩
      · exact .inl ⟨hne, hu⟩
      · exact .inr hu
    · rintro (⟨hne, hu⟩ | hu)
      · exact ⟨hne, .inl hu⟩
      · refine ⟨?_, .inr hu⟩
        rintro rfl
        exact h.apart u hu (by simp)
  · intro u hu hmem'
    exact h.apart u hu ((hrest u).mp hmem').2

theorem Sound.createNode (h : n.Sound l []) (al : Allocator) (key value : Bytes) :
    (createNode al n key value).2.Sound l [al.choose n.live] := by
  have hfresh : al.choose n.live ∉ l := fun hmem => al.fresh n.live ((h.live.2 _).mpr (.inl hmem))
  have hne : ∀ u ∈ l, u ≠ al.choose n.live := by
    rintro u hu rfl
    exact hfresh hu
  have hkey : ∀ u ∈ l, update n.key (al.choose n.live) key u = n.key u :=
    fun u hu => update_of_ne (hne u hu) _ _
  obtain ⟨L, hL, hmem⟩ := h.chains
  refine ⟨⟨?_, ?_, h.list.nodup⟩, ⟨L, hL.clear fun b hb => ?_, ?_⟩, ?_, h.size, ?_, ?_⟩
  · exact h.list.forward.congr fun u hu => update_of_ne (hne u hu) _ _
  · exact h.list.backward.congr fun u hu => update_of_ne (hne u (mem_reverse.mp hu)) _ _
  · exact hfresh ((hmem b _).mp hb).1
  · intro b u
    rw [hmem]
    refine and_congr_right fun hu => ?_
    change _ ↔ getHashCode _ (update n.key _ key u) = b
    rw [hkey u hu]
    rfl
  · change (l.map (update n.key _ key)).Nodup
    rw [map_congr_left hkey]
    exact h.keys
  · refine ⟨nodup_cons.mpr ⟨al.fresh _, h.live.1⟩, fun u => ?_⟩
    change u ∈ al.choose n.live :: n.live ↔ _
    rw [mem_cons, h.live.2, mem_singleton, or_comm]
    simp
  · intro u hu
    rw [mem_singleton.mp hu]
    exact hfresh

theorem Sound.insert (h : n.Sound l [v]) (hkey : n.key v ∉ l.map n.key) :
    ((n.hashInsert v).listPushBack v).Sound (l ++ [v]) [] := by
  have hv : v ∉ l := h.apart v mem_cons_self
  obtain ⟨L, hL, hmem⟩ := h.chains
  have hout : ∀ b, v ∉ L b := fun b hb => hv ((hmem b v).mp hb).1
  refine ⟨h.list.pushBack hv, ⟨_, hL.push hout (n.bucket v), ?_⟩, ?_, ?_, ?_,
    nofun⟩
  · intro b u
    rw [mem_append, mem_singleton]
    by_cases hb : b = n.bucket v
    · subst hb
      rw [update_self, mem_cons, hmem]
      constructor
      · rintro (rfl | ⟨hu, hbu⟩)
        · exact ⟨.inr rfl, rfl⟩
        · exact ⟨.inl hu, hbu⟩
      · rintro ⟨hu | rfl, hbu⟩
        · exact .inr ⟨hu, hbu⟩
        · exact .inl rfl
    · rw [update_of_ne hb, hmem]
      constructor
      · rintro ⟨hu, hbu⟩
        exact ⟨.inl hu, hbu⟩
      · rintro ⟨hu | rfl, hbu⟩
        · exact ⟨hu, hbu⟩
        · exact absurd hbu.symm hb
  · rw [map_append, nodup_append]
    refine ⟨h.keys, nodup_singleton _, ?_⟩
    rintro a ha b hb rfl
    exact hkey (mem_singleton.mp hb ▸ ha)
  · change n.size + 1 = _
    rw [h.size]
    simp
  · refine ⟨h.live.1, fun u => ?_⟩
    change u ∈ n.live ↔ _
    rw [h.live.2, mem_append]
    simp

/-! ## The entries -/

theorem entriesOf_append (n : LruNodes) (xs ys : List ℕ) :
    n.entriesOf (xs ++ ys) = n.entriesOf xs ++ n.entriesOf ys :=
  map_append

theorem entriesOf_cons (n : LruNodes) (v : ℕ) (l : List ℕ) :
    n.entriesOf (v :: l) = (n.key v, n.value v) :: n.entriesOf l :=
  rfl

theorem entriesOf_congr {n' : LruNodes} (hkey : ∀ v ∈ l, n'.key v = n.key v)
    (hvalue : ∀ v ∈ l, n'.value v = n.value v) : n'.entriesOf l = n.entriesOf l :=
  map_congr_left fun v hv => by rw [hkey v hv, hvalue v hv]

theorem Sound.unlink_entriesOf (h : n.Sound (xs ++ v :: ys) spare) :
    LruCache.unlink (n.entriesOf (xs ++ v :: ys)) (n.key v) = n.entriesOf (xs ++ ys) := by
  have hkeys := h.keys
  rw [map_append, map_cons, nodup_middle, ← map_append, nodup_cons] at hkeys
  have hother : ∀ e ∈ n.entriesOf (xs ++ ys), decide (e.1 ≠ n.key v) = true := by
    intro e he
    obtain ⟨u, hu, rfl⟩ := mem_map.mp he
    refine decide_eq_true fun heq => hkeys.1 ?_
    rw [← heq]
    exact mem_map_of_mem hu
  rw [entriesOf_append] at hother
  rw [entriesOf_append, LruCache.unlink, filter_append, entriesOf_cons,
    filter_cons_of_neg (by simp), ← filter_append]
  rw [entriesOf_append]
  exact filter_eq_self.mpr hother

/-- The nodes are the entries of the cache, in the same order. -/
def Represents (n : LruNodes) (c : LruCache) : Prop :=
  ∃ l, n.Sound l [] ∧ c.entries = n.entriesOf l ∧ n.capacity = c.capacity ∧
    n.generation = c.generation

theorem Sound.find_eq (h : n.Sound l spare) (he : c.entries = n.entriesOf l)
    (key : Bytes) : c.find key = (n.hashFind key).map n.value := by
  apply Option.ext
  intro value
  rw [LruCache.find_eq_some_iff, he, Option.map_eq_some_iff, entriesOf, mem_map]
  simp only [h.hashFind_eq_some_iff, Prod.mk.injEq]
  constructor
  · rintro ⟨v, hv, rfl, rfl⟩
    exact ⟨v, ⟨hv, rfl⟩, rfl⟩
  · rintro ⟨v, ⟨hv, rfl⟩, rfl⟩
    exact ⟨v, hv, rfl, rfl⟩

end LruNodes

namespace LruCache

variable {cache : LruCache}

theorem entries_get_of_none (h : cache.find key = none) :
    (cache.get key).2.entries = cache.entries := by
  rw [get]
  split
  · rfl
  case h_2 value hsome => cases h.symm.trans hsome

theorem entries_get_of_some (h : cache.find key = some value) :
    (cache.get key).2.entries = unlink cache.entries key ++ [(key, value)] := by
  rw [get]
  split
  case h_1 hnone => cases h.symm.trans hnone
  case h_2 value' hsome =>
    obtain rfl := Option.some.inj (h.symm.trans hsome)
    rfl

theorem entries_store (cache : LruCache) (key value : Bytes) :
    (cache.store key value).entries = (if cache.find key = none then
        if cache.capacity ≤ cache.entries.length then cache.entries.tail
        else cache.entries
      else unlink cache.entries key) ++ [(key, value)] := by
  rw [store]
  split
  · split <;> rfl
  · rfl

@[simp] theorem capacity_get (cache : LruCache) (key : Bytes) :
    (cache.get key).2.capacity = cache.capacity := by
  rw [get]
  split <;> rfl

@[simp] theorem capacity_store (cache : LruCache) (key value : Bytes) :
    (cache.store key value).capacity = cache.capacity := by
  rw [store]
  split
  · split <;> rfl
  · rfl

end LruCache

namespace LruNodes

/-! ## Refinement -/

theorem represents_create {capacity : ℕ} {cache : LruCache} (hn : create capacity = some n)
    (hc : LruCache.create capacity = some cache) : n.Represents cache := by
  have hsound := sound_create hn
  rw [create] at hn
  rw [LruCache.create] at hc
  obtain ⟨-, hn⟩ := Option.ite_none_left_eq_some.mp hn
  obtain ⟨hpos, hc⟩ := Option.dite_none_right_eq_some.mp hc
  obtain rfl := Option.some.inj hn
  obtain rfl := Option.some.inj hc
  exact ⟨[], hsound, rfl, rfl, rfl⟩

theorem Represents.get (h : n.Represents c) (key : Bytes) (valueLength : ℕ) :
    (n.get key valueLength).1 = (c.find key).map (fun v => (v.length, v.take valueLength)) ∧
      (n.get key valueLength).2.Represents (c.get key).2 := by
  obtain ⟨l, hsound, hentries, hcapacity, hgeneration⟩ := h
  have hfind := hsound.find_eq hentries key
  rw [LruNodes.get]
  cases hnode : n.hashFind key with
  | none =>
    rw [hnode, Option.map_none] at hfind
    refine ⟨by rw [hfind]; rfl, l, hsound, ?_, ?_, ?_⟩
    · rw [LruCache.entries_get_of_none hfind, hentries]
    · rw [LruCache.capacity_get, hcapacity]
    · rw [LruCache.generation_get, hgeneration]
  | some v =>
    rw [hnode, Option.map_some] at hfind
    obtain ⟨hv, hkey⟩ := hsound.hashFind_eq_some_iff.mp hnode
    obtain ⟨xs, ys, rfl⟩ := append_of_mem hv
    refine ⟨by rw [hfind]; rfl, _, hsound.touch, ?_, ?_, ?_⟩
    · rw [LruCache.entries_get_of_some hfind, hentries, ← hkey, hsound.unlink_entriesOf]
      exact (entriesOf_append n (xs ++ ys) [v]).symm
    · rw [LruCache.capacity_get, ← hcapacity]
      rfl
    · rw [LruCache.generation_get, ← hgeneration]
      rfl

theorem Represents.store_present (h : n.Represents c) (al : Allocator)
    (hnode : n.hashFind key = some v) (value : Bytes) :
    (LruNodes.store al n key value).Represents (c.store key value) := by
  obtain ⟨l, hsound, hentries, hcapacity, hgeneration⟩ := h
  have hfind := hsound.find_eq hentries key
  rw [hnode, Option.map_some] at hfind
  obtain ⟨hv, rfl⟩ := hsound.hashFind_eq_some_iff.mp hnode
  obtain ⟨xs, ys, rfl⟩ := append_of_mem hv
  have hout := (nodup_cons.mp (nodup_middle.mp hsound.list.nodup)).1
  have hvalued : (n.setValue v value).Sound (xs ++ v :: ys) [] :=
    ⟨hsound.list, hsound.chains, hsound.keys, hsound.size, hsound.live, hsound.apart⟩
  have hkept : (n.setValue v value).entriesOf (xs ++ ys) = n.entriesOf (xs ++ ys) := by
    refine entriesOf_congr (fun u _ => rfl) fun u hu => ?_
    refine update_of_ne ?_ _ _
    rintro rfl
    exact hout hu
  have hnew : (n.setValue v value).entriesOf [v] = [(n.key v, value)] :=
    congrArg (fun value' => [(n.key v, value')]) (update_self _ _ _)
  rw [LruNodes.store, hnode]
  refine ⟨_, hvalued.touch, ?_, ?_, ?_⟩
  · rw [LruCache.entries_store, hfind, if_neg (Option.some_ne_none _), hentries,
      hsound.unlink_entriesOf, ← hkept, ← hnew]
    exact (entriesOf_append _ (xs ++ ys) [v]).symm
  · rw [LruCache.capacity_store, ← hcapacity]
    rfl
  · rw [LruCache.generation_store, ← hgeneration]
    rfl

theorem Sound.makeRoom (h : n.Sound l spare) (hpos : 0 < n.capacity) :
    n.makeRoom.Sound (if n.capacity ≤ l.length then l.tail else l) spare ∧
      n.makeRoom.key = n.key ∧ n.makeRoom.value = n.value ∧ n.makeRoom.capacity = n.capacity ∧
      n.makeRoom.generation = n.generation := by
  rw [LruNodes.makeRoom, h.size]
  by_cases hfull : n.capacity ≤ l.length
  · rw [if_pos hfull, if_pos hfull]
    cases l with
    | nil =>
      rw [length_nil] at hfull
      omega
    | cons u l =>
      have hhead : n.list.head = some u := h.list.forward.1
      rw [evictLru, hhead]
      have hcut : n.Sound ([] ++ u :: l) spare := h
      exact ⟨hcut.discard, rfl, rfl, rfl, rfl⟩
  · rw [if_neg hfull, if_neg hfull]
    exact ⟨h, rfl, rfl, rfl, rfl⟩

theorem Represents.store_absent (h : n.Represents c) (al : Allocator)
    (hnode : n.hashFind key = none) (value : Bytes) :
    (LruNodes.store al n key value).Represents (c.store key value) := by
  obtain ⟨l, hsound, hentries, hcapacity, hgeneration⟩ := h
  have hfind := hsound.find_eq hentries key
  rw [hnode, Option.map_none] at hfind
  have hkey := hsound.hashFind_eq_none_iff.mp hnode
  have hfresh : ∀ u ∈ l, u ≠ al.choose n.live := by
    rintro u hu rfl
    exact al.fresh n.live ((hsound.live.2 _).mpr (.inl hu))
  obtain ⟨n₁, hn₁⟩ : ∃ n₁, n₁ = (createNode al n key value).2 := ⟨_, rfl⟩
  have hcreated : n₁.Sound l [al.choose n.live] := hn₁ ▸ hsound.createNode al key value
  have hkey₁ : n₁.key = update n.key (al.choose n.live) key := by
    rw [hn₁]
    rfl
  have hvalue₁ : n₁.value = update n.value (al.choose n.live) value := by
    rw [hn₁]
    rfl
  have hcapacity₁ : n₁.capacity = c.capacity := by
    rw [hn₁, ← hcapacity]
    rfl
  have hgeneration₁ : n₁.generation = c.generation := by
    rw [hn₁, ← hgeneration]
    rfl
  have hpos : 0 < n₁.capacity := by
    rw [hcapacity₁]
    exact_mod_cast c.positive
  obtain ⟨hroom, hkey₂, hvalue₂, hcapacity₂, hgeneration₂⟩ := hcreated.makeRoom hpos
  have hstore : LruNodes.store al n key value =
      (n₁.makeRoom.hashInsert (al.choose n.live)).listPushBack (al.choose n.live) := by
    rw [LruNodes.store, hnode, hn₁]
    rfl
  generalize hl₂ : (if n₁.capacity ≤ l.length then l.tail else l) = l₂ at hroom
  -- the nodes that stay have their old keys and values
  have hsub : ∀ u ∈ l₂, u ∈ l := by
    intro u hu
    rw [← hl₂] at hu
    split at hu
    · exact mem_of_mem_tail hu
    · exact hu
  have hkeyOld : ∀ u ∈ l₂, n₁.makeRoom.key u = n.key u := by
    intro u hu
    rw [hkey₂, hkey₁]
    exact update_of_ne (hfresh u (hsub u hu)) _ _
  have hvalueOld : ∀ u ∈ l₂, n₁.makeRoom.value u = n.value u := by
    intro u hu
    rw [hvalue₂, hvalue₁]
    exact update_of_ne (hfresh u (hsub u hu)) _ _
  have hkeyNew : n₁.makeRoom.key (al.choose n.live) = key := by rw [hkey₂, hkey₁, update_self]
  have hvalueNew : n₁.makeRoom.value (al.choose n.live) = value := by
    rw [hvalue₂, hvalue₁, update_self]
  have habsent : n₁.makeRoom.key (al.choose n.live) ∉ l₂.map n₁.makeRoom.key := by
    rw [hkeyNew, map_congr_left hkeyOld]
    intro hmem
    obtain ⟨u, hu, heq⟩ := mem_map.mp hmem
    exact hkey (mem_map.mpr ⟨u, hsub u hu, heq⟩)
  have hroomEntries : n.entriesOf l₂ =
      if c.capacity ≤ c.entries.length then c.entries.tail else c.entries := by
    have hlength : c.entries.length = l.length := by rw [hentries, entriesOf, length_map]
    rw [← hl₂, hcapacity₁, hlength]
    simp only [Nat.cast_le]
    split
    · rw [hentries, entriesOf, entriesOf, map_tail]
    · rw [hentries]
  rw [hstore]
  refine ⟨_, hroom.insert habsent, ?_, ?_, ?_⟩
  · rw [LruCache.entries_store, if_pos hfind, ← hroomEntries,
      ← entriesOf_congr hkeyOld hvalueOld, ← hkeyNew, ← hvalueNew]
    exact (entriesOf_append _ l₂ [al.choose n.live]).symm
  · rw [LruCache.capacity_store, ← hcapacity₁, ← hcapacity₂]
    rfl
  · rw [LruCache.generation_store, ← hgeneration₁, ← hgeneration₂]
    rfl

theorem Represents.store (h : n.Represents c) (al : Allocator) (key value : Bytes) :
    (LruNodes.store al n key value).Represents (c.store key value) := by
  cases hnode : n.hashFind key with
  | some v => exact h.store_present al hnode value
  | none => exact h.store_absent al hnode value

theorem Represents.bump (h : n.Represents c) : n.bump.Represents c.bump := by
  obtain ⟨l, hsound, hentries, hcapacity, hgeneration⟩ := h
  refine ⟨l, ⟨hsound.list, hsound.chains, hsound.keys, hsound.size, hsound.live,
    hsound.apart⟩, hentries, hcapacity, ?_⟩
  exact congrArg (· + 1) hgeneration

theorem Represents.invalidate (h : n.Represents c) (key : Bytes) :
    (n.invalidate key).1 = (c.find key).isSome ∧
      (n.invalidate key).2.Represents (c.invalidate key) := by
  obtain ⟨l, hsound, hentries, hcapacity, hgeneration⟩ := h.bump
  have hfind := hsound.find_eq hentries key
  rw [LruNodes.invalidate]
  cases hnode : n.bump.hashFind key with
  | none =>
    rw [hnode, Option.map_none] at hfind
    have habsent : LruCache.unlink c.entries key = c.entries := by
      refine filter_eq_self.mpr fun e he => decide_eq_true ?_
      rintro rfl
      exact LruCache.find_eq_none_iff.mp hfind (mem_map_of_mem he)
    refine ⟨by rw [show c.find key = none from hfind]; rfl, l, hsound, ?_, hcapacity, hgeneration⟩
    exact habsent.trans hentries
  | some v =>
    rw [hnode, Option.map_some] at hfind
    obtain ⟨hv, rfl⟩ := hsound.hashFind_eq_some_iff.mp hnode
    obtain ⟨xs, ys, rfl⟩ := append_of_mem hv
    refine ⟨by rw [show c.find _ = _ from hfind]; rfl, _, hsound.discard, ?_,
      hcapacity, hgeneration⟩
    change LruCache.unlink c.bump.entries _ = _
    rw [hentries, hsound.unlink_entriesOf]
    rfl

end LruNodes

end Codo.Common
