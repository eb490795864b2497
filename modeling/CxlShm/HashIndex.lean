import CxlShm.Alloc
import CxlShm.RefStep

/-! # HashIndex — `put` and `get`

The key-value index of `hash_index.cpp`: a bucket word in the hash area heads a chain of objects, each
with a key, a value and the link to the next. `put` takes the partition of the bucket from its client's
id, `get` from the top byte of the key; the partitions of the larger ids and bytes lie past the hash area,
among the segments.
-/

namespace CxlShm

/-! ## §1 — the code -/

/-- The bucket of `put`: `HASH_TABLE_START + (thread_id-1)*HASH_TABLE_SIZE` plus `hash_offset` words. -/
def putBucket (tid key : Nat) : Nat :=
  hashTableStart + (tid - 1) * hashTableSize + 8 * (key % 2 ^ 17)

/-- The bucket of `get`: the partition is `key >> 56`. -/
def getBucket (key : Nat) : Nat :=
  hashTableStart + key / 2 ^ 56 * hashTableSize + 8 * (key % 2 ^ 17)

/-- Where the loop over a chain stops: at the data of the key, or at an empty link. -/
inductive Search
  | found (data : Nat)
  | vacant (entry : Nat)
  deriving DecidableEq, Repr

/-- `while(*entry != 0) { … entry = data+2; }`. -/
def findEntry (key : Nat) : Nat → Nat → Shm → Option Search
  | 0, _, _ => none
  | fuel + 1, entry, m =>
    if m.word entry = 0 then some (.vacant entry)
    else
      let data := m.word entry + sizeofCxlObj
      if m.word data = key then some (.found data) else findEntry key fuel (data + 16) m

/-- The object of a new pair; its count is 0 until it is linked. -/
def newEntry (tid key value block : Nat) (pg : Nat × Nat) (m : Shm) : Shm :=
  let m₁ := popBlock block pg m
  let m₂ := (m₁.store (block + 8) (packRefInfo tid 0 (m₁.era tid tid))).store (block + 16) 0
  let data := block + sizeofCxlObj
  ((m₂.store data key).store (data + 8) value).store (data + 16) 0

/-- `put(key, value)`. -/
def put (fuel tid size key value : Nat) (m : Shm) : Option Shm := do
  match ← findEntry key fuel (putBucket tid key) m with
  | .found data => some (m.store (data + 8) value)
  | .vacant entry =>
    let pq := QueuePtr.bin (cxlPageQueue false (3 * 8 + sizeofCxlObj))
    let (block, pg, m') ← cxlPageMalloc fuel tid size pq (cxlFindPage tid pq m) m
    some (linkReference tid entry block (newEntry tid key value block pg m'))

/-- `get(key, value)`: the value, or that there is none. -/
def get (fuel key : Nat) (m : Shm) : Option (Option Nat) :=
  (findEntry key fuel (getBucket key) m).map fun s =>
    match s with
    | .found data => some (m.word (data + 8))
    | .vacant _ => none

/-! ## §2 — chains -/

/-- The objects linked from the word at `e`. -/
inductive ChainEntry (m : Shm) : Nat → Nat → Prop
  | here {e : Nat} : m.word e ≠ 0 → ChainEntry m e (m.word e)
  | next {e o : Nat} : m.word e ≠ 0 → ChainEntry m (m.word e + sizeofCxlObj + 16) o → ChainEntry m e o

/-- The key, value and link words of these objects. -/
def ChainWord (m : Shm) (e a : Nat) : Prop :=
  ∃ o, ChainEntry m e o ∧ ∃ k < 3, a = o + sizeofCxlObj + 8 * k

section Search

variable {m : Shm} {key fuel e e' data a : Nat}

theorem findEntry_vacant (h : findEntry key fuel e m = some (.vacant e')) :
    m.word e' = 0 ∧ (e' = e ∨ ChainWord m e e') := by
  induction fuel generalizing e with
  | zero => cases h
  | succ fuel ih =>
    unfold findEntry at h
    split at h
    case isTrue hz =>
      cases h
      exact ⟨hz, Or.inl rfl⟩
    case isFalse hz =>
      simp only at h
      split at h
      · cases h
      · obtain ⟨hw, rfl | ⟨o, ho, hk⟩⟩ := ih h
        · exact ⟨hw, Or.inr ⟨_, .here hz, 2, by decide, rfl⟩⟩
        · exact ⟨hw, Or.inr ⟨o, .next hz ho, hk⟩⟩

theorem findEntry_found (h : findEntry key fuel e m = some (.found data)) :
    ∃ o, ChainEntry m e o ∧ data = o + sizeofCxlObj ∧ m.word data = key := by
  induction fuel generalizing e with
  | zero => cases h
  | succ fuel ih =>
    unfold findEntry at h
    split at h
    case isTrue hz => cases h
    case isFalse hz =>
      simp only at h
      split at h
      case isTrue hk =>
        cases h
        exact ⟨_, .here hz, rfl, hk⟩
      case isFalse =>
        obtain ⟨o, ho, hrest⟩ := ih h
        exact ⟨o, .next hz ho, hrest⟩

/-- A search reads the first link and the words of the chain, nothing else. -/
theorem findEntry_store (v : Nat) (he : e ≠ a) (hc : ¬ ChainWord m e a) :
    findEntry key fuel e (m.store a v) = findEntry key fuel e m := by
  induction fuel generalizing e with
  | zero => rfl
  | succ fuel ih =>
    have hw : ∀ w, w ≠ a → (m.store a v).word w = m.word w := fun w hwa => Function.update_of_ne hwa ..
    unfold findEntry
    rw [hw e he]
    by_cases hz : m.word e = 0
    · rw [if_pos hz, if_pos hz]
    · have hoff : ∀ k < 3, m.word e + sizeofCxlObj + 8 * k ≠ a := fun k hk hka =>
        hc ⟨_, .here hz, k, hk, hka.symm⟩
      have hrest : ¬ ChainWord m (m.word e + sizeofCxlObj + 16) a := fun ⟨o, ho, hk⟩ =>
        hc ⟨o, .next hz ho, hk⟩
      have hdata : (m.store a v).word (m.word e + sizeofCxlObj) = m.word (m.word e + sizeofCxlObj) :=
        hw _ (hoff 0 (by decide))
      simp only [hdata, if_neg hz]
      split
      · rfl
      · exact ih (hoff 2 (by decide)) hrest

end Search

/-! ## §3 — the hash area and the segments -/

/-- The word at `a` lies in the hash area. -/
def InHashArea (a : Nat) : Prop := hashTableStart ≤ a ∧ a + 8 ≤ segmentsAreaStart

/-- From the search on, the words past `SEGMENTS_AREA_START` that `put` changes are those of the block it
was given and of the objects on its chain. -/
def PutApart (tid key : Nat) : Prop :=
  ∀ (fuel value : Nat) (m : Shm),
    (∀ data, findEntry key fuel (putBucket tid key) m = some (.found data) →
      ∀ a, segmentsAreaStart ≤ a → (m.store (data + 8) value).word a ≠ m.word a →
        ChainWord m (putBucket tid key) a) ∧
    ∀ entry, findEntry key fuel (putBucket tid key) m = some (.vacant entry) →
      ∀ (block : Nat) (pg : Nat × Nat) (m' : Shm) (a : Nat), segmentsAreaStart ≤ a →
        (linkReference tid entry block (newEntry tid key value block pg m')).word a ≠ m'.word a →
        (∃ k < 6, a = block + 8 * k) ∨ ChainWord m (putBucket tid key) a

/-- Past `SEGMENTS_AREA_START`, `get` depends on the objects on its chain only. -/
def GetApart (key : Nat) : Prop :=
  ∀ (fuel : Nat) (m : Shm) (a v : Nat), segmentsAreaStart ≤ a → ¬ ChainWord m (getBucket key) a →
    get fuel key (m.store a v) = get fuel key m

theorem InHashArea.lt {a : Nat} (h : InHashArea a) : a < segmentsAreaStart := by
  unfold InHashArea at h
  omega

theorem putBucket_inHashArea_iff {tid : Nat} (htid : 1 ≤ tid) (key : Nat) :
    InHashArea (putBucket tid key) ↔ tid ≤ 64 := by
  have hlt : key % 2 ^ 17 < 2 ^ 17 := Nat.mod_lt _ (by decide)
  simp only [InHashArea, putBucket, hashTableStart, hashTableSize, segmentsAreaStart]
  omega

theorem getBucket_inHashArea_iff (key : Nat) : InHashArea (getBucket key) ↔ key / 2 ^ 56 < 64 := by
  have hlt : key % 2 ^ 17 < 2 ^ 17 := Nat.mod_lt _ (by decide)
  simp only [InHashArea, getBucket, hashTableStart, hashTableSize, segmentsAreaStart]
  omega

/-- The words of a new pair and its link. -/
theorem linked_newEntry_word {tid key value block entry a : Nat} (pg : Nat × Nat) (m : Shm)
    (he : a ≠ entry) (hb : ∀ k < 6, a ≠ block + 8 * k) :
    (linkReference tid entry block (newEntry tid key value block pg m)).word a = m.word a := by
  have h1 : a ≠ block + 8 := hb 1 (by decide)
  have h2 : a ≠ block + 16 := hb 2 (by decide)
  have h3 : a ≠ block + sizeofCxlObj := hb 3 (by decide)
  have h4 : a ≠ block + sizeofCxlObj + 8 := hb 4 (by decide)
  have h5 : a ≠ block + sizeofCxlObj + 16 := hb 5 (by decide)
  rw [linkReference_word, Function.update_of_ne he, Function.update_of_ne h1]
  simp only [newEntry, Shm.store_word]
  rw [Function.update_of_ne h5, Function.update_of_ne h4, Function.update_of_ne h3,
    Function.update_of_ne h2, Function.update_of_ne h1]
  rfl

theorem InHashArea.putApart {tid key : Nat} (h : InHashArea (putBucket tid key)) : PutApart tid key := by
  intro fuel value m
  refine ⟨?_, ?_⟩
  · intro data hrun a _ hne
    obtain ⟨o, ho, rfl, -⟩ := findEntry_found hrun
    by_cases ha : a = o + sizeofCxlObj + 8
    · exact ⟨o, ho, 1, by decide, ha⟩
    · exact absurd (Function.update_of_ne ha ..) hne
  · intro entry hrun block pg m' a ha hne
    by_cases hb : ∃ k < 6, a = block + 8 * k
    · exact Or.inl hb
    · right
      by_cases he : a = entry
      · rcases (findEntry_vacant hrun).2 with hbucket | hchain
        · have := h.lt
          omega
        · exact he ▸ hchain
      · refine absurd (linked_newEntry_word pg m' he ?_) hne
        exact fun k hk hak => hb ⟨k, hk, hak⟩

theorem InHashArea.getApart {key : Nat} (h : InHashArea (getBucket key)) : GetApart key := by
  intro fuel m a v ha hc
  have hne : getBucket key ≠ a := by
    have := h.lt
    omega
  unfold get
  rw [findEntry_store v hne hc]
  cases hrun : findEntry key fuel (getBucket key) m with
  | none => rfl
  | some s =>
    cases s with
    | vacant e => rfl
    | found data =>
      obtain ⟨o, ho, rfl, -⟩ := findEntry_found hrun
      have hval : o + sizeofCxlObj + 8 ≠ a := fun hoa => hc ⟨o, ho, 1, by decide, hoa.symm⟩
      have hw : (m.store a v).word (o + sizeofCxlObj + 8) = m.word (o + sizeofCxlObj + 8) :=
        Function.update_of_ne hval ..
      simp only [Option.map_some, hw]

/-- **The hash area is apart from the segments** exactly for the first 64 ids and top bytes. -/
theorem hash_area_apart_iff {tid key : Nat} (htid : 1 ≤ tid ∧ tid ≤ maxThread) :
    (InHashArea (putBucket tid key) ∧ InHashArea (getBucket key) ∧ PutApart tid key ∧ GetApart key) ↔
      tid ≤ 64 ∧ key / 2 ^ 56 < 64 := by
  constructor
  · rintro ⟨hp, hg, -⟩
    exact ⟨(putBucket_inHashArea_iff htid.1 key).mp hp, (getBucket_inHashArea_iff key).mp hg⟩
  · rintro ⟨hp, hg⟩
    have hp := (putBucket_inHashArea_iff htid.1 key).mpr hp
    have hg := (getBucket_inHashArea_iff key).mpr hg
    exact ⟨hp, hg, hp.putApart, hg.getApart⟩

theorem hash_area_apart_iff_first : InHashArea (putBucket 64 8192) ∧ InHashArea (getBucket 8192) ∧
    PutApart 64 8192 ∧ GetApart 8192 :=
  (hash_area_apart_iff (by decide)).mpr (by decide)

/-- Client 65 has a page of 48-byte blocks in segment 1; segment 0 is client 1's. -/
def crowdedArea : Shm :=
  { Shm.zero with
    tls := Function.update Shm.zero.tls 65
      { Shm.zero.tls 65 with pages := fun i => if i = 4 then ⟨some (1, 1), some (1, 1), 48⟩ else ⟨none, none, 0⟩ }
    segment := fun i =>
      if i = 0 then { Segment.zero with threadId := 1 }
      else if i = 1 then
        ⟨65, 1, fun j => if j = 1 then ⟨pageStart (1, 1), 0, 48, 0, none, none, false⟩ else Page.zero⟩
      else Segment.zero }

/-- Client 65 puts a key: its bucket is the first word of the first page of client 1. -/
theorem hash_area_not_apart : ¬ (InHashArea (putBucket 65 8192) ∧ InHashArea (getBucket 8192) ∧
    PutApart 65 8192 ∧ GetApart 8192) ∧
    crowdedArea.word (pageStart (0, 1)) = 0 ∧ (crowdedArea.segment 0).threadId = 1 ∧
    ∃ m', put 1 65 (2 ^ 28) 8192 7 crowdedArea = some m' ∧ m'.word (pageStart (0, 1)) = pageStart (1, 1) := by
  refine ⟨fun h => absurd h.1 (by unfold InHashArea; decide), rfl, rfl,
    linkReference 65 (putBucket 65 8192) (pageStart (1, 1))
      (newEntry 65 8192 7 (pageStart (1, 1)) (1, 1) crowdedArea), ?_, ?_⟩
  · have hpage : cxlFindPage 65 (.bin (cxlPageQueue false (3 * 8 + sizeofCxlObj))) crowdedArea =
        some (1, 1) := by decide
    have hsearch : findEntry 8192 1 (putBucket 65 8192) crowdedArea =
        some (.vacant (putBucket 65 8192)) := rfl
    have hblock : (crowdedArea.page (1, 1)).free = pageStart (1, 1) := rfl
    simp only [put, hsearch, hpage, cxlPageMalloc, hblock, bind, Option.bind_some]
  · rw [linkReference_word]
    exact Function.update_self ..

end CxlShm
