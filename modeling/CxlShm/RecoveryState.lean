import CxlShm.RecoveryUnlink

/-! # RecoveryState — what a crash leaves and what recovery keeps

`CrashWorld` is the layout around one crashed client: its pages, its queues, the slots of everybody
else. `Crashed` is the state recovery starts from: counts equal the slots, and everything the client
has is reachable from its thread-local state. `Kept` is what every stage of recovery leaves alone.
-/

namespace CxlShm

open SlotCount Loop

/-! ## §1 — blocks of a page -/

theorem pageOf_offset {pg : Nat × Nat} {d : Nat} (hpg : pg.2 < pagesPerSegment) (hd : d < pageSize) :
    pageOf (pageStart pg + d) = pg := by
  obtain ⟨i, j⟩ := pg
  simp only [pageOf, pageStart, segmentIdx, segmentsAreaStart, segmentSize, pageSize,
    pagesPerSegment] at *
  have hdiv : (2 ^ 27 + i * 2 ^ 26 + j * 2 ^ 16 + d) / 2 ^ 26 = i + 2 := by omega
  have hmod : (2 ^ 27 + i * 2 ^ 26 + j * 2 ^ 16 + d) % 2 ^ 26 = j * 2 ^ 16 + d := by omega
  rw [hdiv, hmod]
  exact Prod.ext (by simp only; omega) (by simp only; omega)

theorem mem_pageBlocks {pg : Nat × Nat} {bs b : Nat} :
    b ∈ pageBlocks pg bs ↔ ∃ i < pageSize / bs, b = pageStart pg + i * bs := by
  unfold pageBlocks blockAt
  simp only [List.mem_map, List.mem_range]
  constructor
  · rintro ⟨i, hi, rfl⟩
    exact ⟨i, hi, rfl⟩
  · rintro ⟨i, hi, rfl⟩
    exact ⟨i, hi, rfl⟩

/-- A block lies in its page. -/
theorem pageBlocks_bounds {pg : Nat × Nat} {bs b : Nat} (h : b ∈ pageBlocks pg bs) :
    pageStart pg ≤ b ∧ b + bs ≤ pageStart pg + pageSize := by
  obtain ⟨i, hi, rfl⟩ := mem_pageBlocks.mp h
  have hle : (i + 1) * bs ≤ pageSize :=
    Nat.le_trans (Nat.mul_le_mul_right bs hi) (Nat.div_mul_le_self pageSize bs)
  rw [Nat.add_mul, Nat.one_mul] at hle
  exact ⟨Nat.le_add_right _ _, by omega⟩

theorem pageOf_block {pg : Nat × Nat} {bs b : Nat} (hpg : pg.2 < pagesPerSegment) (hbs : 0 < bs)
    (h : b ∈ pageBlocks pg bs) : pageOf b = pg := by
  obtain ⟨hlo, hhi⟩ := pageBlocks_bounds h
  obtain ⟨d, rfl⟩ := Nat.exists_eq_add_of_le hlo
  exact pageOf_offset hpg (by omega)

theorem pageBlocks_nodup {pg : Nat × Nat} {bs : Nat} (hbs : 0 < bs) : (pageBlocks pg bs).Nodup := by
  unfold pageBlocks
  refine List.Nodup.map ?_ List.nodup_range
  intro i j hij
  simp only [blockAt] at hij
  exact Nat.eq_of_mul_eq_mul_right hbs (by omega)

/-- RootRefs are 16 bytes apart. -/
theorem rootRef_aligned {pg : Nat × Nat} {b : Nat} (h : b ∈ pageBlocks pg 16) : b % 16 = 0 := by
  obtain ⟨i, -, rfl⟩ := mem_pageBlocks.mp h
  simp only [pageStart, segmentsAreaStart, segmentSize, pageSize]
  omega

/-! ## §2 — the layout -/

/-- Two stretches of memory do not meet. -/
def Apart (a n b k : Nat) : Prop := a + n ≤ b ∨ b + k ≤ a

/-- The bytes of `cxl_message_queue_t` that carry fields. -/
def messageQueueFields : Nat := 168

def queueEntries (q : Nat) : Finset Nat := (Finset.range messageBufferSize).image (bufferSlot q)

theorem mem_queueEntries {q a : Nat} :
    a ∈ queueEntries q ↔ ∃ k < messageBufferSize, a = bufferSlot q k := by
  simp only [queueEntries, Finset.mem_image, Finset.mem_range]
  constructor
  · rintro ⟨k, hk, rfl⟩
    exact ⟨k, hk, rfl⟩
  · rintro ⟨k, hk, rfl⟩
    exact ⟨k, hk, rfl⟩

/-- Objects, slots, pages and queues around one crashed client. `rootRefs` are its RootRefs in use,
`unfinished` those whose `cxl_malloc` was cut short, `others` the slots of everybody else: RootRefs
and the buckets of the hash table. -/
structure CrashWorld extends ObjHeap where
  rootPages : List (Nat × Nat)
  binPages : Nat → List (Nat × Nat)
  rootRefs : Finset Nat
  unfinished : Finset Nat
  queues : Finset Nat
  senders : List Nat
  receivers : List Nat
  others : Finset Nat
  roots_eq : roots = rootRefs ∪ queues.biUnion queueEntries ∪ others
  pages_nodup : (rootPages ++ (List.range' 2 (cxlBinSize - 2)).flatMap binPages).Nodup
  objs_area : ∀ o ∈ objs, segmentsAreaStart ≤ o
  page_lt : ∀ pg ∈ rootPages ++ (List.range' 2 (cxlBinSize - 2)).flatMap binPages,
    pg.2 < pagesPerSegment
  rootRef_block : ∀ b ∈ rootRefs ∪ unfinished, ∃ pg ∈ rootPages, b ∈ pageBlocks pg 16
  unfinished_apart : Disjoint rootRefs unfinished
  rootPage_obj : ∀ pg ∈ rootPages, ∀ o ∈ objs,
    Apart (pageStart pg) pageSize o (sizeofCxlObj + 8 * emb o)
  rootPage_queue : ∀ pg ∈ rootPages, ∀ q ∈ queues, Apart (pageStart pg) pageSize q messageQueueFields
  rootPage_other : ∀ pg ∈ rootPages, ∀ a ∈ others, Apart (pageStart pg) pageSize a 8
  queue_obj : ∀ q ∈ queues, ∀ o ∈ objs, Apart q messageQueueFields o (sizeofCxlObj + 8 * emb o)
  queue_other : ∀ q ∈ queues, ∀ a ∈ others, Apart q messageQueueFields a 8
  queues_apart : ∀ q ∈ queues, ∀ q' ∈ queues, q ≠ q' → Apart q messageQueueFields q' messageQueueFields
  senders_mem : ∀ q ∈ senders, q ∈ queues ∧ q ≠ 0
  senders_nodup : senders.Nodup
  receivers_mem : ∀ q ∈ receivers, q ∈ queues ∧ q ≠ 0
  receivers_nodup : receivers.Nodup

namespace CrashWorld

variable {W : CrashWorld}

/-- The slots recovery may release: the RootRefs of the client and the entries of its queues. -/
def Own (W : CrashWorld) (a : Nat) : Prop :=
  a ∈ W.rootRefs ∨ ∃ q ∈ W.senders ++ W.receivers, ∃ k < messageBufferSize, a = bufferSlot q k

/-- The blocks of the RootRef pages. -/
def blocks (_ : CrashWorld) (l : List (Nat × Nat)) : List Nat := l.flatMap fun pg => pageBlocks pg 16

def InRootPage (W : CrashWorld) (w : Nat) : Prop :=
  ∃ pg ∈ W.rootPages, pageStart pg ≤ w ∧ w < pageStart pg + pageSize

theorem rootRef_mem {b : Nat} (h : b ∈ W.rootRefs) : b ∈ W.roots := by
  rw [W.roots_eq]
  exact Finset.mem_union_left _ (Finset.mem_union_left _ h)

theorem other_mem {a : Nat} (h : a ∈ W.others) : a ∈ W.roots := by
  rw [W.roots_eq]
  exact Finset.mem_union_right _ h

theorem entry_mem {q k : Nat} (hq : q ∈ W.queues) (hk : k < messageBufferSize) :
    bufferSlot q k ∈ W.roots := by
  rw [W.roots_eq]
  refine Finset.mem_union_left _ (Finset.mem_union_right _ ?_)
  exact Finset.mem_biUnion.mpr ⟨q, hq, mem_queueEntries.mpr ⟨k, hk, rfl⟩⟩

theorem root_cases {a : Nat} (h : a ∈ W.roots) : a ∈ W.rootRefs ∨
    (∃ q ∈ W.queues, ∃ k < messageBufferSize, a = bufferSlot q k) ∨ a ∈ W.others := by
  rw [W.roots_eq] at h
  rcases Finset.mem_union.mp h with h | h
  · rcases Finset.mem_union.mp h with h | h
    · exact Or.inl h
    · obtain ⟨q, hq, ha⟩ := Finset.mem_biUnion.mp h
      exact Or.inr (Or.inl ⟨q, hq, mem_queueEntries.mp ha⟩)
  · exact Or.inr (Or.inr h)

theorem queue_mem {q : Nat} (h : q ∈ W.senders ++ W.receivers) : q ∈ W.queues := by
  rcases List.mem_append.mp h with h | h
  · exact (W.senders_mem q h).1
  · exact (W.receivers_mem q h).1

theorem own_mem {a : Nat} (h : W.Own a) : a ∈ W.roots := by
  rcases h with h | ⟨q, hq, k, hk, rfl⟩
  · exact rootRef_mem h
  · exact entry_mem (queue_mem hq) hk

theorem mem_blocks {l : List (Nat × Nat)} {b : Nat} :
    b ∈ W.blocks l ↔ ∃ pg ∈ l, b ∈ pageBlocks pg 16 := List.mem_flatMap

/-- Inside a RootRef page the heap is about nothing but the `pptr` words of RootRefs in use. -/
theorem touches_rootPage {w : Nat} (hw : W.InRootPage w) (h : W.Touches w) : w ∈ W.rootRefs := by
  obtain ⟨pg, hpg, hlo, hhi⟩ := hw
  have hobj : ∀ o ∈ W.objs, ∀ d < sizeofCxlObj + 8 * W.emb o, w ≠ o + d := by
    intro o ho d hd
    have := W.rootPage_obj pg hpg o ho
    unfold Apart at this
    omega
  rcases h with hs | ⟨o, ho, j, hj, he⟩
  · rcases ObjHeap.mem_slots.mp hs with hr | ⟨o, ho, k, hk, he⟩
    · rcases root_cases hr with hr | ⟨q, hq, k, hk, he⟩ | ha
      · exact hr
      · have := W.rootPage_queue pg hpg q hq
        simp only [Apart, bufferSlot, messageQueueFields, messageBufferSize] at *
        omega
      · have := W.rootPage_other pg hpg w ha
        unfold Apart at this
        omega
    · refine absurd he ?_
      unfold embeddedSlot
      rw [Nat.add_assoc]
      exact hobj o ho _ (by omega)
  · exact absurd he (hobj o ho _ (by simp only [sizeofCxlObj]; omega))

theorem block_inRootPage {l : List (Nat × Nat)} (hl : ∀ pg ∈ l, pg ∈ W.rootPages) {b d : Nat}
    (hb : b ∈ W.blocks l) (hd : d < 16) : W.InRootPage (b + d) := by
  obtain ⟨pg, hpg, hmem⟩ := mem_blocks.mp hb
  have := pageBlocks_bounds hmem
  exact ⟨pg, hl pg hpg, by omega, by omega⟩

/-- The second word of a RootRef is not the heap's. -/
theorem inUse_not_touches {b : Nat} (hb : b ∈ W.blocks W.rootPages) : ¬ W.Touches (b + 8) := by
  intro h
  have hroot := touches_rootPage (block_inRootPage (fun _ h => h) hb (by decide)) h
  obtain ⟨pg, -, hmem⟩ := W.rootRef_block _ (Finset.mem_union_left _ hroot)
  obtain ⟨pg', -, hmem'⟩ := mem_blocks.mp hb
  have h₁ := rootRef_aligned hmem
  have h₂ := rootRef_aligned hmem'
  omega

theorem blocks_nodup {l : List (Nat × Nat)} (hl : l.Nodup) (hlt : ∀ pg ∈ l, pg.2 < pagesPerSegment) :
    (W.blocks l).Nodup := by
  unfold blocks
  induction l with
  | nil => exact List.nodup_nil
  | cons pg l ih =>
    obtain ⟨hnot, hl⟩ := List.nodup_cons.mp hl
    rw [List.flatMap_cons]
    refine List.nodup_append'.mpr ⟨pageBlocks_nodup (by decide), ?_, ?_⟩
    · exact ih hl fun pg' h => hlt pg' (List.mem_cons_of_mem _ h)
    · intro b hb hb'
      obtain ⟨pg', hpg', hb'⟩ := List.mem_flatMap.mp hb'
      have h₁ := pageOf_block (hlt pg List.mem_cons_self) (by decide) hb
      have h₂ := pageOf_block (hlt pg' (List.mem_cons_of_mem _ hpg')) (by decide) hb'
      exact hnot (h₁.symm.trans h₂ ▸ hpg')

/-- A field of a queue below its buffer is not the heap's. -/
theorem queueWord_not_touches {q j : Nat} (hq : q ∈ W.queues) (hj : j < 5) :
    ¬ W.Touches (q + 8 * j) := by
  have hobj : ∀ o ∈ W.objs, ∀ d < sizeofCxlObj + 8 * W.emb o, q + 8 * j ≠ o + d := by
    intro o ho d hd
    have := W.queue_obj q hq o ho
    simp only [Apart, messageQueueFields] at this
    omega
  rintro (hs | ⟨o, ho, l, hl, he⟩)
  · rcases ObjHeap.mem_slots.mp hs with hr | ⟨o, ho, k, hk, he⟩
    · rcases root_cases hr with hr | ⟨q', hq', k, hk, he⟩ | ha
      · obtain ⟨pg, hpg, hmem⟩ := W.rootRef_block _ (Finset.mem_union_left _ hr)
        have hb := pageBlocks_bounds hmem
        have := W.rootPage_queue pg hpg q hq
        simp only [Apart, messageQueueFields] at this
        omega
      · by_cases hqq : q = q'
        · subst hqq
          simp only [bufferSlot] at he
          omega
        · have := W.queues_apart q hq q' hq' hqq
          simp only [Apart, bufferSlot, messageQueueFields, messageBufferSize] at *
          omega
      · have := W.queue_other q hq _ ha
        simp only [Apart, messageQueueFields] at this
        omega
    · refine absurd he ?_
      unfold embeddedSlot
      rw [Nat.add_assoc]
      exact hobj o ho _ (by omega)
  · exact absurd he (hobj o ho _ (by simp only [sizeofCxlObj]; omega))

/-- A field of a queue is in no RootRef page. -/
theorem queueWord_not_inRootPage {q j : Nat} (hq : q ∈ W.queues) (hj : j < 5) :
    ¬ W.InRootPage (q + 8 * j) := by
  rintro ⟨pg, hpg, hlo, hhi⟩
  have := W.rootPage_queue pg hpg q hq
  simp only [Apart, messageQueueFields] at this
  omega

theorem queueWord_inj {q q' j j' : Nat} (hq : q ∈ W.queues) (hq' : q' ∈ W.queues) (hj : j < 5)
    (hj' : j' < 5) (h : q + 8 * j = q' + 8 * j') : q = q' ∧ j = j' := by
  by_cases hqq : q = q'
  · exact ⟨hqq, by omega⟩
  · have := W.queues_apart q hq q' hq' hqq
    simp only [Apart, messageQueueFields] at this
    omega

theorem bufferSlot_inj {q q' k k' : Nat} (hq : q ∈ W.queues) (hq' : q' ∈ W.queues)
    (hk : k < messageBufferSize) (hk' : k' < messageBufferSize)
    (h : bufferSlot q k = bufferSlot q' k') : q = q' ∧ k = k' := by
  by_cases hqq : q = q'
  · subst hqq
    simp only [bufferSlot] at h
    exact ⟨rfl, by omega⟩
  · have := W.queues_apart q hq q' hq' hqq
    simp only [Apart, bufferSlot, messageQueueFields, messageBufferSize] at *
    omega

end CrashWorld

/-! ## §3 — the state a crash leaves -/

/-- Entry `k` lies between `start` (inclusive) and `end` (exclusive), around the ring. -/
def Published (m : Shm) (q k : Nat) : Prop :=
  (k + messageBufferSize - m.queueStart q) % messageBufferSize <
    (m.queueEnd q + messageBufferSize - m.queueStart q) % messageBufferSize

/-- A RootRef whose `cxl_malloc` was cut short: it holds 0, a free-list link into its own page, the head
of a free list, or a block whose count is still 0. -/
def Unfinished (W : CrashWorld) (m : Shm) (b : Nat) : Prop :=
  m.word b = 0 ∨
  (∃ pg ∈ W.rootPages, b ∈ pageBlocks pg 16 ∧ pageStart pg ≤ m.word b ∧
    m.word b ≤ blockAt (pageStart pg) 16 (pageSize / 16 - 1)) ∨
  (pageOf (m.word b) ∉ W.rootPages ∧ m.word b = (m.page (pageOf (m.word b))).free) ∨
  (m.refCnt (m.word b) = 0 ∧ ¬ W.Touches (m.word b + 8) ∧ ¬ W.InRootPage (m.word b + 8))

/-- The client `tid` has crashed and its log is replayed: counts equal slots, its pages, queues and
RootRefs are where its thread-local state says, and everybody else is between operations. -/
structure Crashed (W : CrashWorld) (tid id : Nat) (m : Shm) : Prop where
  exact : HeapExact W.toObjHeap m
  era : EraBounded m
  tid_lt : tid < 2 ^ 16
  slotId : (m.tls tid).packedMachineProcessId = id
  rootChain : Chained (fun pg => (m.page pg).next) ((m.tls tid).pages 0).first W.rootPages
  rootSize : ∀ pg ∈ W.rootPages, (m.page pg).blockSize = 16
  rootOwner : ∀ pg ∈ W.rootPages, (m.segment pg.1).threadId = tid
  inUse : ∀ b ∈ W.blocks W.rootPages, m.inUse b ≠ 0 ↔ b ∈ W.rootRefs ∪ W.unfinished
  cutShort : ∀ b ∈ W.unfinished, Unfinished W m b
  allocated : ∀ o ∈ W.objs, (m.page (pageOf o)).free ≠ o
  binChain : ∀ i ∈ List.range' 2 (cxlBinSize - 2),
    Chained (fun pg => (m.page pg).next) ((m.tls tid).pages i).first (W.binPages i)
  binSize : ∀ i ∈ List.range' 2 (cxlBinSize - 2), ∀ pg ∈ W.binPages i, (m.page pg).blockSize ≠ 0
  freeHead : ∀ i ∈ List.range' 2 (cxlBinSize - 2), ∀ pg ∈ W.binPages i, (m.page pg).free ≠ 0 →
    ¬ W.Touches ((m.page pg).free + 8) ∧ ¬ W.InRootPage ((m.page pg).free + 8)
  senderChain : Chained (fun q => linkPtr (m.senderNext q)) (linkPtr (m.tls tid).senderQueue) W.senders
  receiverChain : Chained (fun q => linkPtr (m.receiverNext q)) (linkPtr (m.tls tid).receiverQueue)
    W.receivers
  ring : ∀ q ∈ W.queues, m.queueStart q < messageBufferSize ∧ m.queueEnd q < messageBufferSize
  sending : ∀ q ∈ W.queues, m.senderId q = tid → q ∈ W.senders
  receiving : ∀ q ∈ W.queues, m.receiverId q = tid → q ∈ W.receivers
  objPage : ∀ o ∈ W.objs, m.refCnt o ≠ 0 → (m.sas (segmentIdx o)).threadId = tid →
    (m.sas (segmentIdx o)).state = .abandon ∨ ∃ i ∈ List.range' 2 (cxlBinSize - 2),
      ∃ pg ∈ W.binPages i, o ∈ pageBlocks pg (m.page pg).blockSize
  queueSegment : ∀ q ∈ W.queues, (m.sas (segmentIdx q)).threadId = tid →
    (m.sas (segmentIdx q)).state = .abandon ∨ m.senderId q = tid

/-! ## §4 — what the stages of recovery keep -/

/-- What every stage leaves alone; `X` are the words outside the heap it may write. -/
structure Kept (W : CrashWorld) (X : Nat → Prop) (m m' : Shm) : Prop where
  tls : m'.tls = m.tls
  threadId : ∀ i, (m'.sas i).threadId = (m.sas i).threadId
  state : ∀ i, (m'.sas i).state = (m.sas i).state ∨ (m'.sas i).state = .abandon
  owner : ∀ i, (m'.segment i).threadId = (m.segment i).threadId
  word : ∀ w, ¬ W.Touches w → ¬ X w → m'.word w = m.word w
  shrunk : Shrunk W.toObjHeap m W.Own W.Own m'

section KeptLemmas

variable {W : CrashWorld} {X Y Z : Nat → Prop} {m m₁ m₂ : Shm}

theorem Kept.refl : Kept W X m m :=
  ⟨rfl, fun _ => rfl, fun _ => Or.inl rfl, fun _ => rfl, fun _ _ _ => rfl, Shrunk.refl _ _⟩

theorem Kept.trans (h₁ : Kept W X m m₁) (h₂ : Kept W Y m₁ m₂) (hX : ∀ w, X w → Z w)
    (hY : ∀ w, Y w → Z w) : Kept W Z m m₂ := by
  refine ⟨h₂.tls.trans h₁.tls, ?_, ?_, ?_, ?_, ?_⟩
  · intro i
    rw [h₂.threadId, h₁.threadId]
  · intro i
    rcases h₂.state i with h | h
    · rcases h₁.state i with h' | h'
      · exact Or.inl (h.trans h')
      · exact Or.inr (h.trans h')
    · exact Or.inr h
  · intro i
    rw [h₂.owner, h₁.owner]
  · intro w hw hz
    rw [h₂.word w hw fun h => hz (hY w h), h₁.word w hw fun h => hz (hX w h)]
  · refine h₁.shrunk.trans h₂.shrunk (fun _ h => h) (fun _ h => h) ?_
    intro o hr
    exact hr.mono h₁.shrunk.word (fun _ ha => ObjHeap.root_mem (CrashWorld.own_mem ha))
      fun _ ha => Reaches.here ha

theorem Kept.abandon (h : Kept W X m m₁) {i : Nat} (hi : (m.sas i).state = .abandon) :
    (m₁.sas i).state = .abandon := by
  rcases h.state i with h | h
  · exact h.trans hi
  · exact h

/-- A slot that is 0 stays 0. -/
theorem Kept.zero (h : Kept W X m m₁) {a : Nat} (ha : a ∈ W.roots) (hz : m.word a = 0) :
    m₁.word a = 0 := by
  rcases h.shrunk.word a (ObjHeap.root_mem ha) with hs | hs
  · exact hs.trans hz
  · exact hs

/-- Releasing a slot of the client. -/
theorem Kept.release {a : Nat} (ha : W.Own a) (hrel : Released W.toObjHeap m a m₁)
    (hf : ReleaseFrame W.toObjHeap m m₁) : Kept W X m m₁ := by
  refine ⟨hf.tls, hf.threadId, fun i => Or.inl (hf.state i), fun i => by rw [hf.segment],
    fun w hw _ => hf.word w hw, ?_⟩
  refine ⟨?_, ?_, hrel.mono⟩
  · intro b hb
    rcases hrel.slot b hb with hs | ⟨hz, rfl | ⟨o, hr, hd⟩⟩
    · exact Or.inl hs
    · exact Or.inr ⟨hz, Or.inl ha⟩
    · refine Or.inr ⟨hz, Or.inr ⟨o, ?_, hd⟩⟩
      exact hr.mono (fun _ _ => Or.inl rfl) (fun _ h => h ▸ ObjHeap.root_mem (CrashWorld.own_mem ha))
        fun _ h => Reaches.here (h ▸ ha)
  · intro o ho hn
    refine hrel.header o ho fun hr => hn ?_
    exact hr.mono (fun _ _ => Or.inl rfl) (fun _ h => h ▸ ObjHeap.root_mem (CrashWorld.own_mem ha))
      fun _ h => Reaches.here (h ▸ ha)

/-- Writing words outside the heap. -/
theorem Kept.write (ht : m₁.tls = m.tls) (hid : ∀ i, (m₁.sas i).threadId = (m.sas i).threadId)
    (hst : ∀ i, (m₁.sas i).state = (m.sas i).state ∨ (m₁.sas i).state = .abandon)
    (ho : ∀ i, (m₁.segment i).threadId = (m.segment i).threadId)
    (hw : ∀ w, ¬ X w → m₁.word w = m.word w) (hX : ∀ w, X w → W.Touches w → m₁.word w = m.word w) :
    Kept W X m m₁ := by
  have hheap : ∀ w, W.Touches w → m₁.word w = m.word w := by
    intro w htouch
    by_cases hx : X w
    · exact hX w hx htouch
    · exact hw w hx
  refine ⟨ht, hid, hst, ho, fun w _ hx => hw w hx, (Shrunk.refl _ _).congr ?_ ?_⟩
  · intro a ha
    exact hheap a (Or.inl ha)
  · intro o ho j hj
    exact hheap _ (Or.inr ⟨o, ho, j, hj, rfl⟩)

theorem Kept.setPage {pg : Nat × Nat} {p : Page} : Kept W X m (m.setPage pg p) :=
  Kept.write rfl (fun _ => rfl) (fun _ => Or.inl rfl) (Shm.threadId_setPage _ _ _) (fun _ _ => rfl)
    fun _ _ _ => rfl

theorem Kept.setAbandon {j : Nat} : Kept W X m (m.setSegmentState j .abandon) := by
  refine Kept.write rfl ?_ ?_ (fun _ => rfl) (fun _ _ => rfl) fun _ _ _ => rfl
  · intro i
    by_cases hi : i = j
    · simp [Shm.setSegmentState, hi]
    · simp [Shm.setSegmentState, hi]
  · intro i
    by_cases hi : i = j
    · exact Or.inr (by simp [Shm.setSegmentState, hi])
    · exact Or.inl (by simp [Shm.setSegmentState, hi])

/-- Writing words outside the heap keeps it exact. -/
theorem HeapExact.write (h : HeapExact W.toObjHeap m) (hw : ∀ w, W.Touches w → m₁.word w = m.word w) :
    HeapExact W.toObjHeap m₁ :=
  h.congr (fun a ha => hw a (Or.inl ha)) fun o ho j hj => hw _ (Or.inr ⟨o, ho, j, hj, rfl⟩)

end KeptLemmas

end CxlShm
