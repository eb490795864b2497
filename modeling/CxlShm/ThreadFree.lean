import CxlShm.BlockLists
import CxlShm.LeakFlag
import CxlShm.Lib.LinkedStack

/-! # ThreadFree — the blocks others give back

The clients that do not own a segment push the blocks they free on its `thread_free` list; the owner takes the
whole list and walks it; recovery changes the state of the segment in the same word. Each of them reads the word
and exchanges it with a weak compare-exchange. One step here is one access.
-/

namespace CxlShm

open Transition LinkedStack

/-! ## §1 — the machine -/

/-- Where a block is: in use, on the lists of the owner, in the hands of a client that frees it, on `thread_free`,
taken by the owner, or given up. -/
inductive Place
  | used
  | owned
  | freeing (u : Nat)
  | listed
  | taken
  | leaked
  deriving DecidableEq, Repr

/-- In use, or on the owner's lists. -/
def Place.elsewhere : Place → Prop
  | .used => True
  | .owned => True
  | _ => False

/-- Where the owner stands in `cxl_thread_free_collect`. -/
inductive CollectPc
  | idle
  | firstLoad
  | loadInfo
  | cas (state : SegmentState) (head : Nat)
  | readNext (tail : Nat)
  | storeNext (tail next : Nat)
  | storeHead (tail next : Nat)
  | storeUsed (tail next : Nat)
  deriving DecidableEq, Repr

/-- Where recovery stands in the loop that sets the state of the segment. -/
inductive FlagPc
  | idle
  | loadInfo (v : SegmentState)
  | cas (v state : SegmentState) (head : Nat)
  deriving DecidableEq, Repr

/-- `free` has, for each client, the block it frees and where it stands in `cxl_free`. -/
structure ShareSys where
  shm : Shm
  free : Nat → Option (Nat × FreePc)
  collect : CollectPc
  flag : Nat → FlagPc
  place : Nat → Place

inductive ShareMove
  | free (u b : Nat)
  /-- the next access of a client in `cxl_free` -/
  | access (u : Nat) (spurious : Bool)
  | collect
  /-- the next access of the owner in `cxl_thread_free_collect` -/
  | collector (spurious : Bool)
  | flag (k : Nat) (v : SegmentState)
  | flagger (k : Nat) (spurious : Bool)
  | env (m : Shm) (place : Nat → Place)

/-- The owner hands blocks out and frees its own, and applications write what they hold. -/
structure ShareSys.Elsewhere (i : Nat) (s : ShareSys) (m : Shm) (place : Nat → Place) : Prop where
  sas : m.sas i = s.shm.sas i
  block : ∀ x, place x = s.place x ∧ m.word x = s.shm.word x ∨ (s.place x).elsewhere ∧ (place x).elsewhere

def ShareMove.enabled (i : Nat) (s : ShareSys) : ShareMove → Prop
  | .free u b => s.free u = none ∧ s.place b = .used ∧ segmentIdx b = i ∧ b ≠ 0
  | .access u _ => s.free u ≠ none
  | .collect => s.collect = .idle
  | .collector _ => s.collect ≠ .idle
  | .flag k _ => s.flag k = .idle
  | .flagger k _ => s.flag k ≠ .idle
  | .env m place => s.Elsewhere i m place

/-- The segment's word holds what has been read, and the exchange does not fail for no reason. -/
def ShareSys.swaps (i : Nat) (s : ShareSys) (state : SegmentState) (head : Nat) (spurious : Bool) : Prop :=
  (s.shm.sas i).state = state ∧ (s.shm.sas i).threadFree = head ∧ spurious = false

instance (i : Nat) (s : ShareSys) (state : SegmentState) (head : Nat) (spurious : Bool) :
    Decidable (s.swaps i state head spurious) := inferInstanceAs (Decidable (_ ∧ _ ∧ _))

/-- The next access of a client that frees the block `b`. What `cxl_free` leaves behind at its end is on the list,
unless the segment was marked leaking. -/
def ShareSys.access (u : Nat) (spurious : Bool) (s : ShareSys) : ShareSys :=
  match s.free u with
  | none => s
  | some (b, pc) =>
    { s with
      shm := (freeStep u spurious b pc s.shm).2
      free := Function.update s.free u
        (if (freeStep u spurious b pc s.shm).1 = .done then none else some (b, (freeStep u spurious b pc s.shm).1))
      place := if (freeStep u spurious b pc s.shm).1 = .done then
          Function.update s.place b (if pc = .loadInfo then .leaked else .listed)
        else s.place }

/-- An access of one client leaves the others where they are in `cxl_free`. -/
theorem ShareSys.access_free_ne {u v : Nat} {spurious : Bool} {s : ShareSys} (hv : v ≠ u) :
    (s.access u spurious).free v = s.free v := by
  unfold ShareSys.access
  cases hu : s.free u with
  | none => rfl
  | some bpc => exact Function.update_of_ne hv _ _

/-- The next access of the owner. -/
def ShareSys.collector (i : Nat) (spurious : Bool) (s : ShareSys) : ShareSys :=
  match s.collect with
  | .idle => s
  | .firstLoad => { s with collect := if (s.shm.sas i).threadFree = 0 then .idle else .loadInfo }
  | .loadInfo => { s with collect := .cas (s.shm.sas i).state (s.shm.sas i).threadFree }
  | .cas state head =>
    if s.swaps i state head spurious then
      { s with
        shm := takeThreadFree i s.shm
        collect := if head = 0 then .idle else .readNext head
        place := fun x => if s.place x = .listed then .taken else s.place x }
    else { s with collect := .loadInfo }
  | .readNext tail => { s with collect := .storeNext tail (s.shm.word tail) }
  | .storeNext tail next =>
    { s with collect := .storeHead tail next, shm := s.shm.store tail (s.shm.page (pageOf tail)).localFree }
  | .storeHead tail next =>
    { s with
      collect := .storeUsed tail next
      shm := s.shm.setPage (pageOf tail) { s.shm.page (pageOf tail) with localFree := tail } }
  | .storeUsed tail next =>
    { s with
      collect := if next = 0 then .idle else .readNext next
      shm := s.shm.setPage (pageOf tail) { s.shm.page (pageOf tail) with
        used := ((s.shm.page (pageOf tail)).used + (2 ^ 32 - 1)) % 2 ^ 32 }
      place := Function.update s.place tail .owned }

/-- The next access of recovery. -/
def ShareSys.flagger (i k : Nat) (spurious : Bool) (s : ShareSys) : ShareSys :=
  match s.flag k with
  | .idle => s
  | .loadInfo v => { s with flag := Function.update s.flag k (.cas v (s.shm.sas i).state (s.shm.sas i).threadFree) }
  | .cas v state head =>
    if s.swaps i state head spurious then
      { s with flag := Function.update s.flag k .idle, shm := s.shm.setSegmentState i v }
    else { s with flag := Function.update s.flag k (.loadInfo v) }

def ShareSys.next (i : Nat) (s : ShareSys) : ShareMove → ShareSys
  | .free u b =>
    { s with
      free := Function.update s.free u (some (b, .firstLoad))
      place := Function.update s.place b (.freeing u) }
  | .access u spurious => s.access u spurious
  | .collect => { s with collect := .firstLoad }
  | .collector spurious => s.collector i spurious
  | .flag k v => { s with flag := Function.update s.flag k (.loadInfo v) }
  | .flagger k spurious => s.flagger i k spurious
  | .env m place => { s with shm := m, place := place }

/-- A segment nobody has given a block back to. -/
structure ShareInit (i : Nat) (s : ShareSys) : Prop where
  head : (s.shm.sas i).threadFree = 0
  free : ∀ u, s.free u = none
  collect : s.collect = .idle
  flag : ∀ k, s.flag k = .idle
  place : ∀ x, (s.place x).elsewhere

def ShareStep (i : Nat) (s s' : ShareSys) : Prop := ∃ mv : ShareMove, mv.enabled i s ∧ s' = s.next i mv

def ShareReach (i : Nat) : ShareSys → Prop := Reach (ShareInit i) (ShareStep i) fun _ => True

/-! ## §2 — the invariant -/

/-- A client that frees `b` has not passed the exchange; before the exchange the block is linked to what was read. -/
def FreePc.Linked (m : Shm) (b : Nat) : FreePc → Prop
  | .firstLoad => True
  | .loadInfo => True
  | .storeNext _ _ => True
  | .cas _ head => m.word b = head
  | _ => False

/-- The blocks the owner has taken: those on its way, from the one it is at. -/
def CollectPc.Walks (s : ShareSys) : CollectPc → Prop
  | .readNext tail => ∃ l, Spells (blockNext s.shm) (some tail) l ∧ ∀ x, x ∈ l ↔ s.place x = .taken
  | .storeNext tail next => ∃ l, Spells (blockNext s.shm) (linkPtr next) l ∧ tail ∉ l ∧
      ∀ x, x = tail ∨ x ∈ l ↔ s.place x = .taken
  | .storeHead tail next => ∃ l, Spells (blockNext s.shm) (linkPtr next) l ∧ tail ∉ l ∧
      ∀ x, x = tail ∨ x ∈ l ↔ s.place x = .taken
  | .storeUsed tail next => ∃ l, Spells (blockNext s.shm) (linkPtr next) l ∧ tail ∉ l ∧
      ∀ x, x = tail ∨ x ∈ l ↔ s.place x = .taken
  | _ => ∀ x, s.place x ≠ .taken

/-- **The invariant** of the `thread_free` list of segment `i`. -/
structure ShareInv (i : Nat) (s : ShareSys) : Prop where
  stack : ∃ l, Spells (blockNext s.shm) (linkPtr (s.shm.sas i).threadFree) l ∧ ∀ x, x ∈ l ↔ s.place x = .listed
  walk : s.collect.Walks s
  freeing : ∀ u b pc, s.free u = some (b, pc) →
    s.place b = .freeing u ∧ segmentIdx b = i ∧ b ≠ 0 ∧ pc.Linked s.shm b
  freer : ∀ u b, s.place b = .freeing u → ∃ pc, s.free u = some (b, pc)

/-! ## §3 — one step -/

section Steps

variable {i : Nat} {s s' : ShareSys}

/-- The list stands while its cells, and what is on it, stay. -/
theorem ShareInv.stack_frame (h : ShareInv i s) (hhead : (s'.shm.sas i).threadFree = (s.shm.sas i).threadFree)
    (hword : ∀ x, s.place x = .listed → s'.shm.word x = s.shm.word x)
    (hplace : ∀ x, s'.place x = .listed ↔ s.place x = .listed) :
    ∃ l, Spells (blockNext s'.shm) (linkPtr (s'.shm.sas i).threadFree) l ∧ ∀ x, x ∈ l ↔ s'.place x = .listed := by
  obtain ⟨l, hl, hmem⟩ := h.stack
  refine ⟨l, ?_, fun x => by rw [hmem, hplace]⟩
  rw [hhead]
  refine hl.congr fun x hx => ?_
  rw [blockNext, blockNext, hword x ((hmem x).mp hx)]

/-- So does what is left of the owner's way. -/
theorem CollectPc.Walks.frame {c : CollectPc} (h : c.Walks s)
    (hword : ∀ x, s.place x = .taken → s'.shm.word x = s.shm.word x)
    (hplace : ∀ x, s'.place x = .taken ↔ s.place x = .taken) : c.Walks s' := by
  have hnext : ∀ x, s.place x = .taken → blockNext s'.shm x = blockNext s.shm x := by
    intro x hx
    rw [blockNext, blockNext, hword x hx]
  have hrest : ∀ {tail next : Nat}, (∃ l, Spells (blockNext s.shm) (linkPtr next) l ∧ tail ∉ l ∧
      ∀ x, x = tail ∨ x ∈ l ↔ s.place x = .taken) → ∃ l, Spells (blockNext s'.shm) (linkPtr next) l ∧ tail ∉ l ∧
      ∀ x, x = tail ∨ x ∈ l ↔ s'.place x = .taken := by
    rintro tail next ⟨l, hl, hnot, hmem⟩
    exact ⟨l, hl.congr fun x hx => hnext x ((hmem x).mp (Or.inr hx)), hnot, fun x => by rw [hmem, hplace]⟩
  have hnone : (∀ x, s.place x ≠ .taken) → ∀ x, s'.place x ≠ .taken := fun hn x hx => hn x ((hplace x).mp hx)
  cases c with
  | readNext tail =>
    obtain ⟨l, hl, hmem⟩ := h
    exact ⟨l, hl.congr fun x hx => hnext x ((hmem x).mp hx), fun x => by rw [hmem, hplace]⟩
  | storeNext tail next => exact hrest h
  | storeHead tail next => exact hrest h
  | storeUsed tail next => exact hrest h
  | idle => exact hnone h
  | firstLoad => exact hnone h
  | loadInfo => exact hnone h
  | cas state head => exact hnone h

theorem FreePc.Linked.congr {m m' : Shm} {b : Nat} {pc : FreePc} (h : pc.Linked m b) (hw : m'.word b = m.word b) :
    pc.Linked m' b := by
  cases pc with
  | cas state head => exact hw.trans h
  | _ => exact h

/-- The clients that free stay where they are. -/
theorem ShareInv.freeing_frame (h : ShareInv i s) (s' : ShareSys) (hfree : s'.free = s.free)
    (hword : ∀ x u, s.place x = .freeing u → s'.shm.word x = s.shm.word x)
    (hplace : ∀ x u, s'.place x = .freeing u ↔ s.place x = .freeing u) :
    (∀ u b pc, s'.free u = some (b, pc) → s'.place b = .freeing u ∧ segmentIdx b = i ∧ b ≠ 0 ∧ pc.Linked s'.shm b) ∧
      ∀ u b, s'.place b = .freeing u → ∃ pc, s'.free u = some (b, pc) := by
  refine ⟨fun u b pc hf => ?_, fun u b hp => ?_⟩
  · rw [hfree] at hf
    obtain ⟨hp, hseg, hne, hlinked⟩ := h.freeing u b pc hf
    exact ⟨(hplace b u).mpr hp, hseg, hne, hlinked.congr (hword b u hp)⟩
  · rw [hfree]
    exact h.freer u b ((hplace b u).mp hp)

/-- What happens to blocks in use and on the owner's lists. -/
theorem ShareInv.frame (h : ShareInv i s) (hhead : (s'.shm.sas i).threadFree = (s.shm.sas i).threadFree)
    (hfree : s'.free = s.free) (hcollect : s'.collect = s.collect)
    (hblock : ∀ x, s'.place x = s.place x ∧ s'.shm.word x = s.shm.word x ∨
      (s.place x).elsewhere ∧ (s'.place x).elsewhere) : ShareInv i s' := by
  have hword : ∀ x, ¬ (s.place x).elsewhere → s'.shm.word x = s.shm.word x := fun x hx =>
    (hblock x).elim And.right fun he => absurd he.1 hx
  have hplace : ∀ x p, ¬ Place.elsewhere p → (s'.place x = p ↔ s.place x = p) := by
    intro x p hp
    rcases hblock x with ⟨he, -⟩ | ⟨he, he'⟩
    · rw [he]
    · constructor
      · rintro rfl
        exact absurd he' hp
      · rintro rfl
        exact absurd he hp
  obtain ⟨hfreeing, hfreer⟩ := h.freeing_frame s' hfree (fun x u hx => hword x (by rw [hx]; exact id))
    fun x u => hplace x (.freeing u) id
  refine ⟨h.stack_frame hhead (fun x hx => hword x (by rw [hx]; exact id)) fun x => hplace x .listed id, ?_, hfreeing, hfreer⟩
  rw [hcollect]
  exact h.walk.frame (fun x hx => hword x (by rw [hx]; exact id)) fun x => hplace x .taken id

/-- A client starts to free a block in use. -/
theorem ShareInv.free {u b : Nat} (h : ShareInv i s) (hidle : s.free u = none) (hused : s.place b = .used)
    (hseg : segmentIdx b = i) (hne : b ≠ 0) : ShareInv i (s.next i (.free u b)) := by
  have hplace : ∀ x p, p ≠ .used → p ≠ .freeing u →
      (Function.update s.place b (.freeing u) x = p ↔ s.place x = p) := by
    intro x p hp hpu
    by_cases hx : x = b
    · rw [hx, Function.update_self, hused]
      exact ⟨fun he => absurd he.symm hpu, fun he => absurd he.symm hp⟩
    · rw [Function.update_of_ne hx]
  refine ⟨h.stack_frame rfl (fun _ _ => rfl) fun x => hplace x .listed (by simp) (by simp),
    h.walk.frame (fun _ _ => rfl) fun x => hplace x .taken (by simp) (by simp), fun v c pc hf => ?_, fun v c hp => ?_⟩
  · by_cases hv : v = u
    · subst hv
      obtain ⟨rfl, rfl⟩ : b = c ∧ FreePc.firstLoad = pc := by
        simpa [ShareSys.next] using hf
      exact ⟨Function.update_self .., hseg, hne, trivial⟩
    · have hf : s.free v = some (c, pc) := by
        simpa [ShareSys.next, Function.update_of_ne hv] using hf
      obtain ⟨hp, hrest⟩ := h.freeing v c pc hf
      exact ⟨(hplace c (.freeing v) nofun (by simpa using hv)).mpr hp, hrest⟩
  · by_cases hc : c = b
    · subst hc
      obtain rfl : u = v := by simpa [ShareSys.next] using hp
      exact ⟨.firstLoad, Function.update_self ..⟩
    · have hp : s.place c = .freeing v := by simpa [ShareSys.next, Function.update_of_ne hc] using hp
      obtain ⟨pc, hf⟩ := h.freer v c hp
      have hv : v ≠ u := by
        rintro rfl
        rw [hidle] at hf
        cases hf
      exact ⟨pc, (Function.update_of_ne hv ..).trans hf⟩

/-- A client that frees reads, or links its block. -/
theorem ShareInv.access_on {u b : Nat} {pc pc' : FreePc} {m : Shm} (h : ShareInv i s) (hf : s.free u = some (b, pc))
    (hhead : (m.sas i).threadFree = (s.shm.sas i).threadFree) (hword : ∀ x, x ≠ b → m.word x = s.shm.word x)
    (hlinked : pc'.Linked m b) :
    ShareInv i { s with shm := m, free := Function.update s.free u (some (b, pc')) } := by
  obtain ⟨hpb, hseg, hne, -⟩ := h.freeing u b pc hf
  have hother : ∀ x p, s.place x = p → p ≠ .freeing u → m.word x = s.shm.word x := by
    rintro x p hx hp
    apply hword
    rintro rfl
    exact hp (hx.symm.trans hpb)
  refine ⟨h.stack_frame hhead (fun x hx => hother x _ hx (by simp)) fun _ => Iff.rfl,
    h.walk.frame (fun x hx => hother x _ hx (by simp)) fun _ => Iff.rfl, fun v c q hq => ?_, fun v c hp => ?_⟩
  · by_cases hv : v = u
    · subst hv
      obtain ⟨rfl, rfl⟩ : b = c ∧ pc' = q := by simpa using hq
      exact ⟨hpb, hseg, hne, hlinked⟩
    · have hq : s.free v = some (c, q) := by simpa [Function.update_of_ne hv] using hq
      obtain ⟨hpc, hseg', hne', hl⟩ := h.freeing v c q hq
      exact ⟨hpc, hseg', hne', hl.congr (hother c _ hpc (by simpa using hv))⟩
  · obtain ⟨q, hq⟩ := h.freer v c hp
    by_cases hv : v = u
    · subst hv
      obtain ⟨rfl, -⟩ : b = c ∧ pc = q := by simpa using hf.symm.trans hq
      exact ⟨pc', Function.update_self ..⟩
    · exact ⟨q, (Function.update_of_ne hv ..).trans hq⟩

/-- A client is done with its block: nobody has it in hand any more. -/
theorem ShareInv.freeing_done {u b : Nat} {pc : FreePc} {p : Place} {m : Shm} (h : ShareInv i s)
    (hf : s.free u = some (b, pc)) (hword : m.word = s.shm.word) (hp : ∀ v, p ≠ .freeing v) :
    (∀ v c q, Function.update s.free u none v = some (c, q) → Function.update s.place b p c = .freeing v ∧
      segmentIdx c = i ∧ c ≠ 0 ∧ q.Linked m c) ∧
    ∀ v c, Function.update s.place b p c = .freeing v → ∃ q, Function.update s.free u none v = some (c, q) := by
  obtain ⟨hpb, -⟩ := h.freeing u b pc hf
  refine ⟨fun v c q hq => ?_, fun v c hpc => ?_⟩
  · have hv : v ≠ u := by
      rintro rfl
      rw [Function.update_self] at hq
      cases hq
    rw [Function.update_of_ne hv] at hq
    obtain ⟨hpc, hseg, hne, hl⟩ := h.freeing v c q hq
    have hcb : c ≠ b := by
      rintro rfl
      rw [hpb] at hpc
      exact hv (Place.freeing.inj hpc).symm
    rw [Function.update_of_ne hcb]
    exact ⟨hpc, hseg, hne, hl.congr (congrFun hword c)⟩
  · have hcb : c ≠ b := by
      rintro rfl
      rw [Function.update_self] at hpc
      exact hp v hpc
    rw [Function.update_of_ne hcb] at hpc
    obtain ⟨q, hq⟩ := h.freer v c hpc
    have hv : v ≠ u := by
      rintro rfl
      rw [hf] at hq
      obtain ⟨rfl, -⟩ : b = c ∧ pc = q := by simpa using hq
      exact hcb rfl
    exact ⟨q, (Function.update_of_ne hv ..).trans hq⟩

/-- **The exchange puts the block on the list.** -/
theorem ShareInv.push {u b head : Nat} {state : SegmentState} (h : ShareInv i s)
    (hf : s.free u = some (b, .cas state head)) (hhead : (s.shm.sas i).threadFree = head) :
    ShareInv i { s with
      shm := { s.shm with sas := Function.update s.shm.sas i { s.shm.sas i with threadFree := b } }
      free := Function.update s.free u none
      place := Function.update s.place b .listed } := by
  obtain ⟨hpb, hseg, hne, hlinked⟩ := h.freeing u b _ hf
  have hlinked : s.shm.word b = head := hlinked
  obtain ⟨l, hl, hmem⟩ := h.stack
  have hnot : b ∉ l := by
    rw [hmem, hpb]
    simp
  have hlink : blockNext s.shm b = linkPtr (s.shm.sas i).threadFree := by rw [blockNext, hlinked, hhead]
  have hpush := hl.push hnot hlink
  obtain ⟨hfreeing, hfreer⟩ := h.freeing_done (p := .listed) (m := { s.shm with
    sas := Function.update s.shm.sas i { s.shm.sas i with threadFree := b } }) hf rfl (by simp)
  refine ⟨⟨b :: l, ?_, fun x => ?_⟩, h.walk.frame (fun _ _ => rfl) fun x => ?_, hfreeing, hfreer⟩
  · simp only [Function.update_self]
    rw [linkPtr_of_ne hne]
    exact hpush
  · by_cases hx : x = b
    · simp [hx]
    · simp [hx, hmem]
  · by_cases hx : x = b
    · simp [hx, hpb]
    · simp [hx]

/-- **The next access of a client that frees.** -/
theorem ShareInv.access {u : Nat} {spurious : Bool} (h : ShareInv i s) : ShareInv i (s.access u spurious) := by
  cases hf : s.free u with
  | none =>
    unfold ShareSys.access
    simp only [hf]
    exact h
  | some bp =>
    obtain ⟨b, pc⟩ := bp
    obtain ⟨hpb, hseg, hne, hlinked⟩ := h.freeing u b pc hf
    unfold ShareSys.access
    simp only [hf]
    cases pc with
    | firstLoad => exact h.access_on hf rfl (fun _ _ => rfl) trivial
    | loadInfo =>
      by_cases hleak : (s.shm.sas (segmentIdx b)).state = .potentialLeaking
      · -- the block is given up
        obtain ⟨hfreeing, hfreer⟩ := h.freeing_done (p := .leaked) (m := s.shm) hf rfl (by simp)
        simp only [freeStep, hleak, if_true]
        have hplace : ∀ x p, p ≠ .leaked → p ≠ .freeing u →
            (Function.update s.place b .leaked x = p ↔ s.place x = p) := by
          intro x p hp hpu
          by_cases hx : x = b
          · rw [hx, Function.update_self, hpb]
            exact ⟨fun he => absurd he.symm hp, fun he => absurd he.symm hpu⟩
          · rw [Function.update_of_ne hx]
        exact ⟨h.stack_frame rfl (fun _ _ => rfl) fun x => hplace x .listed (by simp) (by simp),
          h.walk.frame (fun _ _ => rfl) fun x => hplace x .taken (by simp) (by simp), hfreeing, hfreer⟩
      · simp only [freeStep, if_neg hleak]
        exact h.access_on hf rfl (fun _ _ => rfl) trivial
    | storeNext state head =>
      exact h.access_on hf rfl (fun x hx => Function.update_of_ne hx ..) (Function.update_self ..)
    | cas state head =>
      simp only [freeStep, hseg]
      by_cases hswap : (s.shm.sas i).state = state ∧ (s.shm.sas i).threadFree = head ∧ spurious = false
      · simp only [if_pos hswap, if_true]
        exact h.push hf hswap.2.1
      · simp only [if_neg hswap]
        exact h.access_on hf rfl (fun _ _ => rfl) trivial
    | owner => exact absurd hlinked id
    | localNext => exact absurd hlinked id
    | localHead => exact absurd hlinked id
    | localUsed => exact absurd hlinked id
    | done => exact absurd hlinked id

/-- The owner does not change what it has taken, nor who has it. -/
theorem ShareInv.setCollect {c : CollectPc} (h : ShareInv i s) (hc : c.Walks s) : ShareInv i { s with collect := c } :=
  ⟨h.stack, by cases c <;> exact hc, h.freeing, h.freer⟩

/-- **The exchange takes the whole list.** -/
theorem ShareInv.take {head : Nat} {state : SegmentState} (h : ShareInv i s) (hs : s.collect = .cas state head)
    (hhead : (s.shm.sas i).threadFree = head) :
    ShareInv i { s with
      shm := takeThreadFree i s.shm
      collect := if head = 0 then .idle else .readNext head
      place := fun x => if s.place x = .listed then .taken else s.place x } := by
  obtain ⟨l, hl, hmem⟩ := h.stack
  rw [hhead] at hl
  have hnone : ∀ x, s.place x ≠ .taken := by
    have hw := h.walk
    rw [hs] at hw
    exact hw
  have htaken : ∀ x, (if s.place x = .listed then Place.taken else s.place x) = .taken ↔ s.place x = .listed := by
    intro x
    split
    case isTrue hx => simp [hx]
    case isFalse hx => exact iff_of_false (hnone x) hx
  have hfreeing : ∀ x u, (if s.place x = .listed then Place.taken else s.place x) = .freeing u ↔ s.place x = .freeing u := by
    intro x u
    split
    case isTrue hx => simp [hx]
    case isFalse hx => exact Iff.rfl
  obtain ⟨hf, hfr⟩ := h.freeing_frame { s with
      shm := takeThreadFree i s.shm
      collect := if head = 0 then .idle else .readNext head
      place := fun x => if s.place x = .listed then .taken else s.place x } rfl (fun _ _ _ => rfl) hfreeing
  refine ⟨⟨[], ?_, fun x => ?_⟩, ?_, hf, hfr⟩
  · simp only [takeThreadFree, Function.update_self]
    exact Spells.empty _
  · refine iff_of_false List.not_mem_nil fun hx => ?_
    simp only at hx
    split at hx
    case isTrue => cases hx
    case isFalse hn => exact hn hx
  · by_cases h0 : head = 0
    · rw [h0, linkPtr_zero] at hl
      simp only [if_pos h0]
      intro x hx
      have hxl := (hmem x).mpr ((htaken x).mp hx)
      rw [hl.eq_nil] at hxl
      exact List.not_mem_nil hxl
    · rw [linkPtr_of_ne h0] at hl
      simp only [if_neg h0]
      exact ⟨l, hl, fun x => (hmem x).trans (htaken x).symm⟩

/-- The owner writes into the block it is at, and into page metadata. -/
theorem ShareInv.walkOn {tail next : Nat} {c : CollectPc} {m : Shm} (h : ShareInv i s)
    (hat : ∃ l, Spells (blockNext s.shm) (linkPtr next) l ∧ tail ∉ l ∧ ∀ x, x = tail ∨ x ∈ l ↔ s.place x = .taken)
    (hhead : (m.sas i).threadFree = (s.shm.sas i).threadFree) (hword : ∀ x, x ≠ tail → m.word x = s.shm.word x)
    (hc : (∃ l, Spells (blockNext m) (linkPtr next) l ∧ tail ∉ l ∧ ∀ x, x = tail ∨ x ∈ l ↔ s.place x = .taken) →
      c.Walks { s with shm := m, collect := c }) : ShareInv i { s with shm := m, collect := c } := by
  obtain ⟨l, hl, hnot, hmem⟩ := hat
  have htail : s.place tail = .taken := (hmem tail).mp (Or.inl rfl)
  have hother : ∀ x p, s.place x = p → p ≠ .taken → m.word x = s.shm.word x := by
    rintro x p hx hp
    apply hword
    rintro rfl
    exact hp (hx.symm.trans htail)
  obtain ⟨hf, hfr⟩ := h.freeing_frame { s with shm := m, collect := c } rfl
    (fun x u hx => hother x _ hx (by simp)) fun _ _ => Iff.rfl
  refine ⟨h.stack_frame hhead (fun x hx => hother x _ hx (by simp)) fun _ => Iff.rfl, hc ⟨l, ?_, hnot, hmem⟩, hf, hfr⟩
  refine hl.congr fun x hx => ?_
  rw [blockNext, blockNext, hword x fun he => hnot (he ▸ hx)]

/-- The block the owner is at goes to the owner's lists. -/
theorem ShareInv.putBack {tail next : Nat} {m : Shm} (h : ShareInv i s)
    (hat : ∃ l, Spells (blockNext s.shm) (linkPtr next) l ∧ tail ∉ l ∧ ∀ x, x = tail ∨ x ∈ l ↔ s.place x = .taken)
    (hsas : m.sas i = s.shm.sas i) (hword : m.word = s.shm.word) :
    ShareInv i { s with
      shm := m
      collect := if next = 0 then .idle else .readNext next
      place := Function.update s.place tail .owned } := by
  obtain ⟨l, hl, hnot, hmem⟩ := hat
  have htail : s.place tail = .taken := (hmem tail).mp (Or.inl rfl)
  have hplace : ∀ x p, p ≠ .owned → p ≠ .taken → (Function.update s.place tail .owned x = p ↔ s.place x = p) := by
    intro x p hp hpt
    by_cases hx : x = tail
    · rw [hx, Function.update_self, htail]
      exact ⟨fun he => absurd he.symm hp, fun he => absurd he.symm hpt⟩
    · rw [Function.update_of_ne hx]
  have hleft : ∀ x, x ∈ l ↔ Function.update s.place tail .owned x = .taken := by
    intro x
    by_cases hx : x = tail
    · rw [hx, Function.update_self]
      exact iff_of_false hnot nofun
    · rw [Function.update_of_ne hx, ← hmem, or_iff_right hx]
  have hl' : Spells (blockNext m) (linkPtr next) l := hl.congr fun x _ => by rw [blockNext, blockNext, hword]
  obtain ⟨hf, hfr⟩ := h.freeing_frame { s with
      shm := m
      collect := if next = 0 then .idle else .readNext next
      place := Function.update s.place tail .owned } rfl (fun x _ _ => congrFun hword x)
    fun x u => hplace x (.freeing u) (by simp) (by simp)
  refine ⟨h.stack_frame (by rw [hsas]) (fun x _ => congrFun hword x) fun x => hplace x .listed (by simp) (by simp), ?_, hf, hfr⟩
  by_cases h0 : next = 0
  · rw [h0, linkPtr_zero] at hl'
    simp only [if_pos h0]
    intro x hx
    have hxl := (hleft x).mpr hx
    rw [hl'.eq_nil] at hxl
    exact List.not_mem_nil hxl
  · rw [linkPtr_of_ne h0] at hl'
    simp only [if_neg h0]
    exact ⟨l, hl', hleft⟩

/-- **The next access of the owner.** -/
theorem ShareInv.collector {spurious : Bool} (h : ShareInv i s) : ShareInv i (s.collector i spurious) := by
  have hw := h.walk
  unfold ShareSys.collector
  cases hs : s.collect with
  | idle => exact h
  | firstLoad =>
    rw [hs] at hw
    refine h.setCollect ?_
    split <;> exact hw
  | loadInfo =>
    rw [hs] at hw
    exact h.setCollect hw
  | cas state head =>
    by_cases hswap : s.swaps i state head spurious
    · simp only [if_pos hswap]
      exact h.take hs hswap.2.1
    · simp only [if_neg hswap]
      rw [hs] at hw
      exact h.setCollect hw
  | readNext tail =>
    rw [hs] at hw
    obtain ⟨l, hl, hmem⟩ := hw
    obtain ⟨r, rfl, hnot, hr⟩ := hl.uncons
    exact h.setCollect ⟨r, hr, hnot, fun x => by rw [← hmem, List.mem_cons]⟩
  | storeNext tail next =>
    rw [hs] at hw
    exact h.walkOn hw rfl (fun x hx => Function.update_of_ne hx ..) id
  | storeHead tail next =>
    rw [hs] at hw
    exact h.walkOn hw rfl (fun _ _ => rfl) id
  | storeUsed tail next =>
    rw [hs] at hw
    exact h.putBack hw rfl rfl

/-- Recovery changes the state next to the head. -/
theorem ShareInv.flagger {k : Nat} {spurious : Bool} (h : ShareInv i s) : ShareInv i (s.flagger i k spurious) := by
  unfold ShareSys.flagger
  cases hs : s.flag k with
  | idle => exact h
  | loadInfo v => exact h.frame rfl rfl rfl fun _ => Or.inl ⟨rfl, rfl⟩
  | cas v state head =>
    by_cases hswap : s.swaps i state head spurious
    · simp only [if_pos hswap]
      refine h.frame ?_ rfl rfl fun _ => Or.inl ⟨rfl, rfl⟩
      simp only [Shm.setSegmentState, Function.update_self]
    · simp only [if_neg hswap]
      exact h.frame rfl rfl rfl fun _ => Or.inl ⟨rfl, rfl⟩

/-- **Every step keeps the invariant.** -/
theorem ShareInv.next {mv : ShareMove} (h : ShareInv i s) (hen : mv.enabled i s) : ShareInv i (s.next i mv) := by
  cases mv with
  | free u b =>
    obtain ⟨hidle, hused, hseg, hne⟩ := hen
    exact h.free hidle hused hseg hne
  | access u spurious => exact h.access
  | collect =>
    have hw := h.walk
    rw [show s.collect = .idle from hen] at hw
    exact h.setCollect (c := .firstLoad) hw
  | collector spurious => exact h.collector
  | flag k v => exact h.frame rfl rfl rfl fun _ => Or.inl ⟨rfl, rfl⟩
  | flagger k spurious => exact h.flagger
  | env m place =>
    refine h.frame ?_ rfl rfl hen.block
    rw [show ((s.next i (.env m place)).shm.sas i) = s.shm.sas i from hen.sas]

end Steps

/-! ## §4 — every run -/

section Runs

variable {i : Nat} {s : ShareSys}

theorem ShareInv.init (h : ShareInit i s) : ShareInv i s := by
  have hnot : ∀ x p, ¬ Place.elsewhere p → s.place x ≠ p := by
    rintro x p hp rfl
    exact hp (h.place x)
  refine ⟨⟨[], ?_, fun x => iff_of_false List.not_mem_nil (hnot x .listed id)⟩, ?_, fun u b pc hf => ?_,
    fun u b hp => absurd hp (hnot b (.freeing u) id)⟩
  · rw [h.head, linkPtr_zero]
    exact Spells.empty _
  · rw [h.collect]
    exact fun x => hnot x .taken id
  · rw [h.free u] at hf
    cases hf

theorem ShareReach.inv (h : ShareReach i s) : ShareInv i s := by
  refine @Reach.invariant _ _ _ _ (fun s => ShareInv i s) ?_ ?_ _ h
  · exact fun s hi _ => ShareInv.init hi
  · rintro s s' hinv - ⟨mv, hen, rfl⟩ -
    exact hinv.next hen

/-- **No block that is given back is lost, and none is given back twice**: at every access the `thread_free` list
spells exactly the blocks whose exchange has been done and that the owner has not taken; the owner is on its way
through exactly those it has taken; and the exchange of a client is the push of its block. -/
theorem threadFree_exact (h : ShareReach i s) :
    (∃ l, Spells (blockNext s.shm) (linkPtr (s.shm.sas i).threadFree) l ∧ ∀ x, x ∈ l ↔ s.place x = .listed) ∧
    s.collect.Walks s ∧
    ∀ u b state head spurious, s.free u = some (b, .cas state head) → (s.access u spurious).free u = none →
      (s.access u spurious).shm = s.shm.pushThreadFree i b := by
  have hinv := h.inv
  refine ⟨hinv.stack, hinv.walk, fun u b state head spurious hf hdone => ?_⟩
  obtain ⟨-, hseg, -, hlinked⟩ := hinv.freeing u b _ hf
  have hlinked : s.shm.word b = head := hlinked
  unfold ShareSys.access at hdone ⊢
  simp only [hf, freeStep, hseg] at hdone ⊢
  by_cases hswap : (s.shm.sas i).state = state ∧ (s.shm.sas i).threadFree = head ∧ spurious = false
  · -- the block has been linked to the head before
    have hsame : s.shm.store b (s.shm.sas i).threadFree = s.shm := by
      rw [hswap.2.1, ← hlinked]
      unfold Shm.store
      rw [Function.update_eq_self]
    simp only [if_pos hswap]
    unfold Shm.pushThreadFree
    rw [hsame]
  · simp only [if_neg hswap] at hdone
    simp at hdone

theorem ShareReach.move (h : ShareReach i s) (mv : ShareMove) (hen : mv.enabled i s) : ShareReach i (s.next i mv) :=
  Reach.step h ⟨mv, hen, rfl⟩ trivial

theorem ShareReach.access (h : ShareReach i s) {u : Nat} (hf : s.free u ≠ none) : ShareReach i (s.access u false) :=
  h.move (.access u false) hf

/-- All blocks are in use. -/
def shareStart : ShareSys := ⟨Shm.zero, fun _ => none, .idle, fun _ => .idle, fun _ => .used⟩

theorem shareStart_init : ShareInit 0 shareStart := ⟨rfl, fun _ => rfl, rfl, fun _ => rfl, fun _ => trivial⟩

/-- Client 2 gives back a block of segment 0. -/
theorem threadFree_exact_first : ∃ (s : ShareSys), s.place (segmentsAreaStart + 2 * pageSize) = .listed ∧
    (∃ l, Spells (blockNext s.shm) (linkPtr (s.shm.sas 0).threadFree) l ∧ ∀ x, x ∈ l ↔ s.place x = .listed) ∧
    s.collect.Walks s ∧
    ∀ u b state head spurious, s.free u = some (b, .cas state head) → (s.access u spurious).free u = none →
      (s.access u spurious).shm = s.shm.pushThreadFree 0 b := by
  have h₀ : ShareReach 0 shareStart := Reach.init shareStart_init trivial
  have h₁ := h₀.move (.free 2 (segmentsAreaStart + 2 * pageSize)) ⟨rfl, rfl, by decide, by decide⟩
  have h₂ := ((h₁.access (u := 2) (by decide)).access (u := 2) (by decide)).access (u := 2) (by decide)
  have h₃ := h₂.access (u := 2) (by decide)
  exact ⟨_, by decide, threadFree_exact h₃⟩

/-! ## §5 — when nobody is in a call -/

/-- Recovery does not give blocks up. -/
def ShareMove.calm : ShareMove → Prop
  | .flag _ v => v ≠ .potentialLeaking
  | _ => True

def CalmStep (i : Nat) (s s' : ShareSys) : Prop := ∃ mv : ShareMove, mv.enabled i s ∧ mv.calm ∧ s' = s.next i mv

/-- The runs in which the segment is not marked leaking. -/
def CalmReach (i : Nat) : ShareSys → Prop :=
  Reach (fun s => ShareInit i s ∧ (s.shm.sas i).state ≠ .potentialLeaking) (CalmStep i) fun _ => True

/-- What recovery is about to store. -/
def FlagPc.target : FlagPc → Option SegmentState
  | .idle => none
  | .loadInfo v => some v
  | .cas v _ _ => some v

structure CalmInv (i : Nat) (s : ShareSys) : Prop where
  state : (s.shm.sas i).state ≠ .potentialLeaking
  flag : ∀ k, (s.flag k).target ≠ some .potentialLeaking
  place : ∀ x, s.place x ≠ .leaked

theorem CalmReach.reach (h : CalmReach i s) : ShareReach i s := by
  induction h with
  | init hi hok => exact Reach.init hi.1 hok
  | step _ hs hok ih =>
    obtain ⟨mv, hen, -, rfl⟩ := hs
    exact Reach.step ih ⟨mv, hen, rfl⟩ hok

theorem CalmInv.access {u : Nat} {spurious : Bool} (h : CalmInv i s) (hinv : ShareInv i s) :
    CalmInv i (s.access u spurious) := by
  unfold ShareSys.access
  cases hf : s.free u with
  | none => exact h
  | some bp =>
    obtain ⟨b, pc⟩ := bp
    obtain ⟨-, hseg, -, hlinked⟩ := hinv.freeing u b pc hf
    refine ⟨?_, h.flag, fun x => ?_⟩
    · rw [freeStep_state]
      exact h.state
    · simp only
      split
      case isFalse => exact h.place x
      case isTrue hdone =>
        -- the load that gives up is the one that sees the mark
        have hpc : pc ≠ .loadInfo := by
          rintro rfl
          simp only [freeStep, hseg, if_neg h.state] at hdone
          cases hdone
        rw [if_neg hpc]
        by_cases hx : x = b
        · rw [hx, Function.update_self]
          simp
        · rw [Function.update_of_ne hx]
          exact h.place x

theorem CalmInv.collector {spurious : Bool} (h : CalmInv i s) : CalmInv i (s.collector i spurious) := by
  unfold ShareSys.collector
  cases hs : s.collect with
  | cas state head =>
    by_cases hswap : s.swaps i state head spurious
    · simp only [if_pos hswap]
      refine ⟨?_, h.flag, fun x => ?_⟩
      · simp only [takeThreadFree, Function.update_self]
        exact h.state
      · simp only
        split
        · simp
        · exact h.place x
    · simp only [if_neg hswap]
      exact ⟨h.state, h.flag, h.place⟩
  | storeUsed tail next =>
    refine ⟨h.state, h.flag, fun x => ?_⟩
    by_cases hx : x = tail
    · simp [hx]
    · simp only [Function.update_of_ne hx]
      exact h.place x
  | _ => exact ⟨h.state, h.flag, h.place⟩

theorem CalmInv.setFlag {k : Nat} {p : FlagPc} (h : CalmInv i s) (hp : p.target ≠ some .potentialLeaking) :
    CalmInv i { s with flag := Function.update s.flag k p } := by
  refine ⟨h.state, fun j => ?_, h.place⟩
  by_cases hj : j = k
  · simp only [hj, Function.update_self]
    exact hp
  · simp only [Function.update_of_ne hj]
    exact h.flag j

theorem CalmInv.flagger {k : Nat} {spurious : Bool} (h : CalmInv i s) : CalmInv i (s.flagger i k spurious) := by
  have hk := h.flag k
  unfold ShareSys.flagger
  cases hs : s.flag k with
  | idle => exact h
  | loadInfo v =>
    rw [hs] at hk
    exact h.setFlag hk
  | cas v state head =>
    rw [hs] at hk
    by_cases hswap : s.swaps i state head spurious
    · simp only [if_pos hswap]
      have hset : CalmInv i { s with flag := Function.update s.flag k .idle } := h.setFlag nofun
      refine ⟨?_, hset.flag, h.place⟩
      simp only [Shm.setSegmentState, Function.update_self]
      rintro rfl
      exact hk rfl
    · simp only [if_neg hswap]
      exact h.setFlag hk

theorem CalmReach.calm (h : CalmReach i s) : CalmInv i s := by
  induction h with
  | @init s hi _ =>
    refine ⟨hi.2, fun k => ?_, fun x hx => ?_⟩
    · rw [hi.1.flag k]
      exact nofun
    · have := hi.1.place x
      rw [hx] at this
      exact this
  | @step s s' hr hs _ ih =>
    have hinv := (CalmReach.reach hr).inv
    obtain ⟨mv, hen, hcalm, rfl⟩ := hs
    cases mv with
    | free u b =>
      refine ⟨ih.state, ih.flag, fun x => ?_⟩
      by_cases hx : x = b
      · simp [ShareSys.next, hx]
      · simp only [ShareSys.next, Function.update_of_ne hx]
        exact ih.place x
    | access u spurious => exact ih.access hinv
    | collect => exact ⟨ih.state, ih.flag, ih.place⟩
    | collector spurious => exact ih.collector
    | flag k v =>
      refine ih.setFlag ?_
      rintro he
      exact hcalm (Option.some.inj he)
    | flagger k spurious => exact ih.flagger
    | env m place =>
      refine ⟨?_, ih.flag, fun x hx => ?_⟩
      · rw [show ((s.next i (.env m place)).shm.sas i) = s.shm.sas i from hen.sas]
        exact ih.state
      · have hx : place x = .leaked := hx
        rcases hen.block x with ⟨hp, -⟩ | ⟨-, he⟩
        · exact ih.place x (hp.symm.trans hx)
        · rw [hx] at he
          exact he

/-- **Between calls nothing is missing**: when no client is in `cxl_free` and the owner is not collecting, each block
is in use, on the owner's lists, or on the `thread_free` list, which has it once. -/
theorem threadFree_quiescent (h : CalmReach i s) (hfree : ∀ u, s.free u = none) (hcollect : s.collect = .idle) :
    ∃ l, Spells (blockNext s.shm) (linkPtr (s.shm.sas i).threadFree) l ∧ ∀ x, x ∈ l ↔ ¬ (s.place x).elsewhere := by
  have hinv := h.reach.inv
  obtain ⟨l, hl, hmem⟩ := hinv.stack
  have hwalk := hinv.walk
  rw [hcollect] at hwalk
  refine ⟨l, hl, fun x => ?_⟩
  rw [hmem]
  cases hp : s.place x with
  | used => exact iff_of_false nofun (not_not.mpr trivial)
  | owned => exact iff_of_false nofun (not_not.mpr trivial)
  | listed => exact iff_of_true rfl id
  | taken => exact absurd hp (hwalk x)
  | leaked => exact absurd hp (h.calm.place x)
  | freeing u =>
    obtain ⟨pc, hf⟩ := hinv.freer u x hp
    rw [hfree u] at hf
    cases hf

/-- Client 2 has given a block of segment 0 back, and nobody is in a call. -/
theorem threadFree_quiescent_first : ∃ (s : ShareSys), s.place (segmentsAreaStart + 2 * pageSize) = .listed ∧
    ∃ l, Spells (blockNext s.shm) (linkPtr (s.shm.sas 0).threadFree) l ∧ ∀ x, x ∈ l ↔ ¬ (s.place x).elsewhere := by
  have hmove : ∀ {s : ShareSys} (mv : ShareMove), CalmReach 0 s → mv.enabled 0 s → mv.calm → CalmReach 0 (s.next 0 mv) :=
    fun mv h hen hcalm => Reach.step h ⟨mv, hen, hcalm, rfl⟩ trivial
  have haccess : ∀ {s : ShareSys}, CalmReach 0 s → s.free 2 ≠ none → CalmReach 0 (s.access 2 false) :=
    fun h hf => hmove (.access 2 false) h hf trivial
  have h₀ : CalmReach 0 shareStart := Reach.init ⟨shareStart_init, nofun⟩ trivial
  have h₁ := hmove (.free 2 (segmentsAreaStart + 2 * pageSize)) h₀ ⟨rfl, rfl, by decide, by decide⟩ trivial
  have h₂ := haccess (haccess (haccess h₁ (by decide)) (by decide)) (by decide)
  have h₃ := haccess h₂ (by decide)
  refine ⟨_, by decide, threadFree_quiescent h₃ (fun u => ?_) rfl⟩
  by_cases hu : u = 2
  · rw [hu]
    decide
  · have hother : ∀ s : ShareSys, (s.access 2 false).free u = s.free u := fun s => ShareSys.access_free_ne hu
    simp only [hother, ShareSys.next, Function.update_of_ne hu, shareStart]

end Runs

end CxlShm
