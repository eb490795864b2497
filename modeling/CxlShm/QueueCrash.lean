import CxlShm.PageQueue

/-! # QueueCrash — page queues under a crash between two stores

`recovery_garbage_collection` walks the page queues of a crashed client by `next` only. Both queue
operations order their stores so that this walk finds the list before the operation or the list after
it, wherever the client stopped.
-/

namespace CxlShm

open DoublyLinked Loop

/-! ## §1 — the operations store by store -/

/-- The area before the first store of `cxl_page_queue_push` and after each of them. -/
def cxlPageQueuePushStores (tid : Nat) (pq : QueuePtr) (page : Nat × Nat) (m : Shm) : List Shm :=
  let m₁ := m.setNext page (m.queue tid pq).first
  let m₂ := m₁.setPrev page none
  match (m₂.queue tid pq).first with
  | some firstPage =>
    let m₃ := m₂.setPrev firstPage (some page)
    [m, m₁, m₂, m₃, m₃.setFirst tid pq (some page)]
  | none =>
    let m₃ := m₂.setFirst tid pq (some page)
    [m, m₁, m₂, m₃, m₃.setLast tid pq (some page)]

/-- `if(page_offset == last) last = page->prev`. -/
def Shm.dropLast (m : Shm) (tid : Nat) (pq : QueuePtr) (page : Nat × Nat) : Shm :=
  if (m.queue tid pq).last = some page then m.setLast tid pq (m.page page).prev else m

/-- `if(page_offset == first) first = page->next`. -/
def Shm.dropFirst (m : Shm) (tid : Nat) (pq : QueuePtr) (page : Nat × Nat) : Shm :=
  if (m.queue tid pq).first = some page then m.setFirst tid pq (m.page page).next else m

/-- The area before the first store of `cxl_page_queue_remove` and after each of them. A store behind
a test that fails leaves the area as it was. -/
def cxlPageQueueRemoveStores (tid : Nat) (pq : QueuePtr) (page : Nat × Nat) (m : Shm) : List Shm :=
  let prevPage := (m.page page).prev
  let nextPage := (m.page page).next
  let m₁ := m.linkNext prevPage (m.page page).next
  let m₂ := m₁.linkPrev nextPage (m₁.page page).prev
  let m₃ := m₂.dropLast tid pq page
  let m₄ := m₃.dropFirst tid pq page
  let m₅ := m₄.setNext page none
  [m, m₁, m₂, m₃, m₄, m₅, m₅.setPrev page none]

/-- The pages that the recovery's walk over a queue comes by. -/
def pageWalk (tid : Nat) (pq : QueuePtr) (fuel : Nat) (m : Shm) : Option (List (Nat × Nat)) :=
  walk (fun _ page => (m.page page).next) (fun page (seen : List (Nat × Nat)) => some (seen ++ [page]))
    fuel (m.queue tid pq).first []

/-- The walk ends, and the pages other than `page` that it visits are those of `l`, each once and in
their order. -/
def VisitsOthers (tid : Nat) (pq : QueuePtr) (page : Nat × Nat) (l : List (Nat × Nat)) (m : Shm) : Prop :=
  ∃ seen, (∀ fuel, l.length + 1 < fuel → pageWalk tid pq fuel m = some seen) ∧ seen.Nodup ∧
    seen.filter (· ≠ page) = l.filter (· ≠ page)

/-! ## §2 — the stores seen by the queue -/

section View

variable {m c : Shm} {tid : Nat} {q : QueuePtr} {pg : Nat × Nat} {l : List (Nat × Nat)}

theorem pushStores_head : (cxlPageQueuePushStores tid q pg m).head? = some m := by
  unfold cxlPageQueuePushStores
  simp only
  split <;> rfl

theorem pushStores_getLast :
    (cxlPageQueuePushStores tid q pg m).getLast? = some (cxlPageQueuePush tid q pg m) := by
  cases hf : (m.queue tid q).first with
  | none => simp [cxlPageQueuePushStores, cxlPageQueuePush, hf]
  | some f => simp [cxlPageQueuePushStores, cxlPageQueuePush, hf]

theorem removeStores_head : (cxlPageQueueRemoveStores tid q pg m).head? = some m := rfl

theorem removeStores_getLast :
    (cxlPageQueueRemoveStores tid q pg m).getLast? = some (cxlPageQueueRemove tid q pg m) := rfl

theorem links_pushStores : (cxlPageQueuePushStores tid q pg m).map (fun c => c.links tid q) =
    (m.links tid q).pushSteps pg := by
  have hiff : (m.links tid q).first = (m.queue tid q).first := rfl
  cases hf : (m.queue tid q).first with
  | none =>
    simp only [cxlPageQueuePushStores, Shm.queue_setPrev, Shm.queue_setNext, hf, Links.pushSteps, hiff,
      List.map_cons, List.map_nil, links_setLast, links_setFirst, links_setPrev, links_setNext, if_true]
  | some f =>
    simp only [cxlPageQueuePushStores, Shm.queue_setPrev, Shm.queue_setNext, hf, Links.pushSteps, hiff,
      List.map_cons, List.map_nil, links_setFirst, links_setPrev, links_setNext, if_true]

theorem links_removeStores : (cxlPageQueueRemoveStores tid q pg m).map (fun c => c.links tid q) =
    (m.links tid q).removeSteps pg := by
  have hprev : ∀ p v, ((m.linkNext p v).page pg).prev = (m.page pg).prev := by
    intro p v
    cases p with
    | none => rfl
    | some p => by_cases hp : pg = p <;> simp [Shm.linkNext, hp]
  have hlast : ∀ m : Shm, (m.dropLast tid q pg).links tid q = (m.links tid q).dropLast pg :=
    fun _ => links_dropLast
  have hfirst : ∀ m : Shm, (m.dropFirst tid q pg).links tid q = (m.links tid q).dropFirst pg :=
    fun _ => links_dropFirst
  simp only [cxlPageQueueRemoveStores, List.map_cons, List.map_nil, links_setPrev, links_setNext, hfirst,
    hlast, links_linkPrev, links_linkNext, hprev]
  rfl

/-! ## §3 — the walk after a crash -/

/-- A walk over links that spell a list visits that list. -/
theorem pageWalk_chained {fuel : Nat} (hc : Chained (c.links tid q).next (c.links tid q).first l)
    (hfuel : l.length < fuel) : pageWalk tid q fuel c = some l :=
  walk_collect hfuel hc

theorem visitsOthers_of_chained {l' : List (Nat × Nat)}
    (hc : Chained (c.links tid q).next (c.links tid q).first l') (hnd : l'.Nodup)
    (hlen : l'.length ≤ l.length + 1) (hl : l'.filter (· ≠ pg) = l.filter (· ≠ pg)) :
    VisitsOthers tid q pg l c :=
  ⟨l', fun _ hfuel => pageWalk_chained hc (Nat.lt_of_le_of_lt hlen hfuel), hnd, hl⟩

theorem visitsOthers_pushStores (h : Listed (m.links tid q) l) (hpg : pg ∉ l)
    (hc : c ∈ cxlPageQueuePushStores tid q pg m) : VisitsOthers tid q pg l c := by
  have hmem : c.links tid q ∈ (m.links tid q).pushSteps pg := by
    rw [← links_pushStores]
    exact List.mem_map_of_mem hc
  rcases h.pushSteps hpg hmem with hold | hnew
  · exact visitsOthers_of_chained hold h.nodup (Nat.le_succ _) rfl
  · apply visitsOthers_of_chained hnew
    · exact List.nodup_cons.mpr ⟨hpg, h.nodup⟩
    · exact Nat.le_refl _
    · simp

theorem visitsOthers_removeStores (h : Listed (m.links tid q) l) (hpg : pg ∈ l)
    (hc : c ∈ cxlPageQueueRemoveStores tid q pg m) : VisitsOthers tid q pg l c := by
  have hmem : c.links tid q ∈ (m.links tid q).removeSteps pg := by
    rw [← links_removeStores]
    exact List.mem_map_of_mem hc
  rcases h.removeSteps hpg hmem with hold | hnew
  · exact visitsOthers_of_chained hold h.nodup (Nat.le_succ _) rfl
  · apply visitsOthers_of_chained hnew
    · exact h.nodup.erase _
    · exact (List.length_erase_le).trans (Nat.le_succ _)
    · rw [h.nodup.erase_eq_filter, List.filter_filter]
      apply List.filter_congr
      intro x _
      by_cases hx : x = pg <;> simp [hx]

end View

/-- Two pages put on the free queue of client 1 of a new area. -/
def twoFreePages : Shm :=
  cxlPageQueuePush 1 .freePage (0, 2) (cxlPageQueuePush 1 .freePage (0, 1) Shm.zero)

theorem twoFreePages_listed : Listed (twoFreePages.links 1 .freePage) [(0, 2), (0, 1)] := by
  have hempty : Listed (Shm.zero.links 1 .freePage) [] := Listed.empty rfl rfl
  unfold twoFreePages
  rw [links_cxlPageQueuePush, links_cxlPageQueuePush]
  exact (hempty.push List.not_mem_nil).push (by decide)

/-- **Page queues are lists, and a crash loses no page.** A push prepends, a removal deletes, with the
ends and the links both ways in order. The areas between their stores lead from the one before the call to
the one after it; broken off in any of them, either leaves a queue that the recovery's walk gets through, and
every other page is visited once, in the old order. -/
theorem page_queue_list_crash {m : Shm} {tid : Nat} {q : QueuePtr} {pg : Nat × Nat}
    {l : List (Nat × Nat)} (h : Listed (m.links tid q) l) :
    (pg ∉ l → Listed ((cxlPageQueuePush tid q pg m).links tid q) (pg :: l) ∧
      ((cxlPageQueuePushStores tid q pg m).head? = some m ∧
        (cxlPageQueuePushStores tid q pg m).getLast? = some (cxlPageQueuePush tid q pg m)) ∧
      ∀ c ∈ cxlPageQueuePushStores tid q pg m, VisitsOthers tid q pg l c) ∧
    (pg ∈ l → Listed ((cxlPageQueueRemove tid q pg m).links tid q) (l.erase pg) ∧
      ((cxlPageQueueRemoveStores tid q pg m).head? = some m ∧
        (cxlPageQueueRemoveStores tid q pg m).getLast? = some (cxlPageQueueRemove tid q pg m)) ∧
      ∀ c ∈ cxlPageQueueRemoveStores tid q pg m, VisitsOthers tid q pg l c) := by
  constructor
  · intro hpg
    refine ⟨?_, ⟨pushStores_head, pushStores_getLast⟩, fun c hc => visitsOthers_pushStores h hpg hc⟩
    rw [links_cxlPageQueuePush]
    exact h.push hpg
  · intro hpg
    refine ⟨?_, ⟨removeStores_head, removeStores_getLast⟩, fun c hc => visitsOthers_removeStores h hpg hc⟩
    rw [links_cxlPageQueueRemove]
    exact h.remove hpg

/-- On the two pages: a third is put in front, or the first is taken out. -/
theorem page_queue_list_crash_two :
    (∀ c ∈ cxlPageQueuePushStores 1 .freePage (0, 3) twoFreePages,
      VisitsOthers 1 .freePage (0, 3) [(0, 2), (0, 1)] c) ∧
    Listed ((cxlPageQueueRemove 1 .freePage (0, 2) twoFreePages).links 1 .freePage) [(0, 1)] ∧
    ∀ c ∈ cxlPageQueueRemoveStores 1 .freePage (0, 2) twoFreePages,
      VisitsOthers 1 .freePage (0, 2) [(0, 2), (0, 1)] c := by
  obtain ⟨-, -, hpush⟩ := (page_queue_list_crash twoFreePages_listed).1 (by decide : (0, 3) ∉ _)
  obtain ⟨hremoved, -, hremove⟩ := (page_queue_list_crash twoFreePages_listed).2 (by decide : (0, 2) ∈ _)
  exact ⟨hpush, hremoved, hremove⟩

end CxlShm
