import CxlShm.Reuse

/-! # MapReduce — the intermediate buffers of the benchmark

`emit_intermediate` fills chunks of 512 bytes in shared memory and keeps their bare addresses. The handle that
`cxl_malloc` returns is a temporary, so a chunk is freed before the first record is copied into it.
-/

namespace CxlShm

open Transition Loop

/-! ## §1 — bytes -/

namespace Shm

/-- The byte at `p`. -/
def byteAt (m : Shm) (p : Nat) : Nat := m.word (p / 8 * 8) / 2 ^ (8 * (p % 8)) % 2 ^ 8

def storeByte (m : Shm) (p v : Nat) : Shm :=
  let w := m.word (p / 8 * 8)
  let low := 2 ^ (8 * (p % 8))
  m.store (p / 8 * 8) (w / (low * 2 ^ 8) * (low * 2 ^ 8) + v * low + w % low)

/-- A byte is read back. -/
theorem byteAt_storeByte_self (m : Shm) (p v : Nat) (hv : v < 2 ^ 8) : (m.storeByte p v).byteAt p = v := by
  have hlow : 0 < 2 ^ (8 * (p % 8)) := Nat.two_pow_pos _
  have hword : (m.storeByte p v).word (p / 8 * 8) =
      m.word (p / 8 * 8) / (2 ^ (8 * (p % 8)) * 2 ^ 8) * (2 ^ (8 * (p % 8)) * 2 ^ 8) + v * 2 ^ (8 * (p % 8)) +
        m.word (p / 8 * 8) % 2 ^ (8 * (p % 8)) := Function.update_self ..
  rw [byteAt, hword]
  generalize m.word (p / 8 * 8) = w
  generalize 2 ^ (8 * (p % 8)) = low at hlow
  have hsplit : w / (low * 2 ^ 8) * (low * 2 ^ 8) + v * low = (w / (low * 2 ^ 8) * 2 ^ 8 + v) * low := by
    ring
  rw [hsplit, Nat.add_comm, Nat.add_mul_div_right _ _ hlow, Nat.div_eq_of_lt (Nat.mod_lt w hlow), Nat.zero_add]
  omega

end Shm

/-- `memcpy(p, data, len)`. -/
def memcpy (p : Nat) (data : List Nat) (m : Shm) : Shm :=
  match data with
  | [] => m
  | v :: data => memcpy (p + 1) data (m.storeByte p v)

/-! ## §2 — `emit_intermediate` -/

def immDataSize : Nat := 512

/-- `imm_data`; the address is kept as an offset. -/
structure ImmData where
  data : Nat
  count : Nat
  deriving DecidableEq, Repr

/-- `inter->empty() || inter->back().count + len + 1 > imm_data_size`. -/
def NeedsChunk (inter : List ImmData) (len : Nat) : Prop :=
  match inter.getLast? with
  | none => True
  | some back => back.count + len + 1 > immDataSize

instance (inter : List ImmData) (len : Nat) : Decidable (NeedsChunk inter len) := by
  unfold NeedsChunk
  split <;> infer_instance

/-- `inter_en.data = shm->cxl_malloc(imm_data_size, 0).get_addr()`: the handle is destroyed at the end of the
statement. -/
def newChunk (fuel tid size : Nat) (m : Shm) : Option (ImmData × Shm) := do
  let (ref, m₁) ← cxlMalloc fuel tid size immDataSize 0 m
  let m₂ ← ref.destroy fuel tid m₁
  some (⟨ref.data, 0⟩, m₂)

/-- The first half of `emit_intermediate`: a chunk with room for the record is at the back. -/
def pushChunk (fuel tid size : Nat) (inter : List ImmData) (len : Nat) (m : Shm) :
    Option (List ImmData × Shm) :=
  if NeedsChunk inter len then (newChunk fuel tid size m).map fun (chunk, m') => (inter ++ [chunk], m')
  else some (inter, m)

/-- `emit_intermediate(shm, inter, data, len)`. -/
def emitIntermediate (fuel tid size : Nat) (inter : List ImmData) (data : List Nat) (m : Shm) :
    Option (List ImmData × Shm) := do
  let (inter₁, m₁) ← pushChunk fuel tid size inter data.length m
  let back ← inter₁.getLast?
  some (inter₁.dropLast ++ [{ back with count := back.count + data.length }],
    memcpy (back.data + back.count) data m₁)

/-- What `reduce_func` reads of a list. -/
def readList (inter : List ImmData) (m : Shm) : List Nat :=
  inter.flatMap fun chunk => (List.range chunk.count).map fun i => m.byteAt (chunk.data + i)

/-! ## §3 — the machine -/

/-- Mappers and reducers, and the client each mapper has. -/
structure Job where
  mapNum : Nat
  reduceNum : Nat
  size : Nat
  client : Nat → Nat
  client_inj : ∀ i < mapNum, ∀ j < mapNum, client i = client j → i = j
  client_lt : ∀ i < mapNum, client i < 2 ^ 16

/-- `get_vec_index(map_id, reduce_id)`. -/
def Job.getVecIndex (J : Job) (mapId reduceId : Nat) : Nat := mapId * J.reduceNum + reduceId

/-- The area, the lists of `vec`, and the records emitted to each of them. -/
structure JobState where
  area : Shm
  vec : Nat → List ImmData
  emitted : Nat → List (List Nat)

/-- Every mapper's client has run `thread_init`, the lists are empty, and eras are 32-bit words. -/
structure JobInit (J : Job) (s : JobState) : Prop where
  clients : ∀ i < J.mapNum, PageInit (J.client i) s.area
  era : EraBounded s.area
  vec : s.vec = fun _ => []
  emitted : s.emitted = fun _ => []

/-- One call of `emit_intermediate`. -/
inductive EmitStep (J : Job) : JobState → JobState → Prop
  | emit {s : JobState} (mapId reduceId fuel : Nat) (data : List Nat) (inter : List ImmData) (m : Shm)
      (hmap : mapId < J.mapNum) (hreduce : reduceId < J.reduceNum) (hlen : data.length ≤ immDataSize - 1)
      (hbyte : ∀ v ∈ data, v < 2 ^ 8)
      (hrun : emitIntermediate fuel (J.client mapId) J.size (s.vec (J.getVecIndex mapId reduceId)) data s.area =
        some (inter, m)) : EmitStep J s
          { area := m
            vec := Function.update s.vec (J.getVecIndex mapId reduceId) inter
            emitted := Function.update s.emitted (J.getVecIndex mapId reduceId)
              (s.emitted (J.getVecIndex mapId reduceId) ++ [data]) }

def JobReach (J : Job) : JobState → Prop := Reach (JobInit J) (EmitStep J) fun _ => True

/-- The lists read back as what has been emitted to them, and their chunks are allocated blocks that lie
apart. -/
structure BuffersIntact (J : Job) (s : JobState) : Prop where
  contents : ∀ k, readList (s.vec k) s.area = (s.emitted k).flatten
  allocated : ∀ k, ∀ chunk ∈ s.vec k, ∃ i < J.mapNum, ∃ b,
    HeldBlock (J.client i) s.area b (chunk.data - sizeofCxlObj)
  apart : ∀ (k p k' p' : Nat) (chunk chunk' : ImmData), (s.vec k)[p]? = some chunk → (s.vec k')[p']? = some chunk' →
    (k, p) ≠ (k', p') → chunk.data + immDataSize ≤ chunk'.data ∨ chunk'.data + immDataSize ≤ chunk.data

/-! ## §4 — no chunk is allocated -/

section Emit

variable {tid size fuel : Nat} {m m' : Shm}

/-- **A new chunk is freed at once.** -/
theorem Unused.newChunk (h : Unused tid m) (htid : tid < 2 ^ 16) {chunk : ImmData}
    (hrun : newChunk fuel tid size m = some (chunk, m')) : Unused tid m' ∧ KeepsOthers tid m m' := by
  simp only [CxlShm.newChunk, Option.bind_eq_bind, Option.bind_eq_some_iff] at hrun
  obtain ⟨⟨r, m₁⟩, hmalloc, m₂, hdestroy, hres⟩ := hrun
  simp only [Option.some.injEq, Prod.mk.injEq] at hres
  obtain ⟨-, rfl⟩ := hres
  have hfits : immDataSize + sizeofCxlObj < 2 ^ 64 := by decide
  obtain ⟨G, t, x, hmade⟩ := h.firstObject htid hfits hmalloc
  obtain ⟨hunused, hothers, -⟩ :=
    hmade.dropped (by decide) (by decide) (fun k hk => absurd hk (Nat.not_lt_zero k)) hdestroy
  exact ⟨hunused, (cxlMalloc_others h.pool hfits hmalloc).trans hothers⟩

/-- A copy touches words only. -/
theorem memcpy_same (p : Nat) (data : List Nat) (m : Shm) : (memcpy p data m).tls = m.tls ∧
    (memcpy p data m).sas = m.sas ∧ (memcpy p data m).segment = m.segment ∧
      (memcpy p data m).eraCell = m.eraCell := by
  induction data generalizing p m with
  | nil => exact ⟨rfl, rfl, rfl, rfl⟩
  | cons v data ih => exact ih (p + 1) (m.storeByte p v)

theorem Unused.memcpy (h : Unused tid m) (p : Nat) (data : List Nat) : Unused tid (memcpy p data m) := by
  obtain ⟨htls, hsas, hseg, hera⟩ := memcpy_same p data m
  refine ⟨h.pool.touch hseg htls hsas fun y hy => ?_, fun k => ?_⟩
  · obtain ⟨b, hb⟩ := h.pool.inv.listed_block hy
    exact absurd hb.1 List.not_mem_nil
  · rw [hera]
    exact h.era k

theorem KeepsOthers.memcpy (p : Nat) (data : List Nat) (m : Shm) : KeepsOthers tid m (memcpy p data m) := by
  obtain ⟨htls, hsas, hseg, -⟩ := memcpy_same p data m
  exact .of_same (fun _ _ => by rw [htls]) hsas hseg

/-- **One emission** leaves a list behind, and nothing allocated. -/
theorem Unused.emit (h : Unused tid m) (htid : tid < 2 ^ 16) {inter inter' : List ImmData} {data : List Nat}
    (hrun : emitIntermediate fuel tid size inter data m = some (inter', m')) :
    inter' ≠ [] ∧ Unused tid m' ∧ KeepsOthers tid m m' := by
  simp only [emitIntermediate, Option.bind_eq_bind, Option.bind_eq_some_iff] at hrun
  obtain ⟨⟨inter₁, m₁⟩, hchunk, back, -, hres⟩ := hrun
  simp only [Option.some.injEq, Prod.mk.injEq] at hres
  obtain ⟨rfl, rfl⟩ := hres
  have hstep : Unused tid m₁ ∧ KeepsOthers tid m m₁ := by
    unfold pushChunk at hchunk
    split at hchunk
    case isTrue =>
      obtain ⟨⟨chunk, m₂⟩, hnew, hres⟩ := Option.map_eq_some_iff.mp hchunk
      simp only [Prod.mk.injEq] at hres
      rw [← hres.2]
      exact h.newChunk htid hnew
    case isFalse =>
      simp only [Option.some.injEq, Prod.mk.injEq] at hchunk
      rw [← hchunk.2]
      exact ⟨h, .refl m⟩
  refine ⟨by simp, hstep.1.memcpy _ data, hstep.2.trans (.memcpy ..)⟩

/-- A chunk of a client without blocks is the first block of page 2, every time. -/
theorem Unused.newChunk_place (h : Unused tid m) (htid : tid < 2 ^ 16) (h0 : (m.sas 0).threadId = 0)
    (hsize : segmentsAreaStart + segmentSize ≤ size) :
    ∃ m', CxlShm.newChunk 2 tid size m = some (⟨pageStart (0, 2) + sizeofCxlObj, 0⟩, m') := by
  have hbound : objectBin immDataSize < cxlBinSize := by decide
  obtain ⟨t, m₁, hrun⟩ := h.cxlMalloc_place h0 hsize 0 hbound (by decide)
  obtain ⟨G, t', x, hmade⟩ := h.firstObject htid (by decide) hrun
  have hhandle := hmade.handle
  obtain ⟨m₂, hdestroy⟩ := hmade.pool.destroy_returns hmade.root hmade.object (by decide) (by decide) hmade.count
    (hmade.leaf fun k hk => absurd hk (Nat.not_lt_zero k)) (x + sizeofCxlObj)
  rw [← hhandle] at hdestroy
  refine ⟨m₂, ?_⟩
  simp only [CxlShm.newChunk, hrun, Option.bind_eq_bind, Option.bind_some, hdestroy]

/-- The first record of a list, when the client has no block. -/
theorem Unused.emit_first (h : Unused tid m) (htid : tid < 2 ^ 16) (h0 : (m.sas 0).threadId = 0)
    (hsize : segmentsAreaStart + segmentSize ≤ size) (data : List Nat) :
    ∃ m', emitIntermediate 2 tid size [] data m =
      some ([⟨pageStart (0, 2) + sizeofCxlObj, data.length⟩], CxlShm.memcpy (pageStart (0, 2) + sizeofCxlObj) data m') := by
  obtain ⟨m', hnew⟩ := h.newChunk_place htid h0 hsize
  have hneeds : NeedsChunk [] data.length := trivial
  have hchunk : pushChunk 2 tid size [] data.length m = some ([⟨pageStart (0, 2) + sizeofCxlObj, 0⟩], m') := by
    rw [pushChunk, if_pos hneeds, hnew]
    rfl
  refine ⟨m', ?_⟩
  simp only [emitIntermediate, hchunk, Option.bind_eq_bind, Option.bind_some, List.getLast?_singleton,
    List.dropLast_singleton, List.nil_append, Nat.zero_add, Nat.add_zero]

end Emit

/-! ## §5 — every run -/

/-- No mapper's client has anything, and a list is empty while nothing has been emitted to it. -/
structure JobInv (J : Job) (s : JobState) : Prop where
  unused : ∀ i < J.mapNum, Unused (J.client i) s.area
  emitted : ∀ k, s.vec k = [] ↔ s.emitted k = []

section Runs

variable {J : Job} {s s' : JobState}

theorem JobInit.inv (h : JobInit J s) : JobInv J s := by
  refine ⟨fun i hi => ⟨Pool.init (h.clients i hi), h.era⟩, fun k => ?_⟩
  rw [h.vec, h.emitted]
  exact ⟨fun _ => rfl, fun _ => rfl⟩

theorem JobInv.step (h : JobInv J s) (hs : EmitStep J s s') : JobInv J s' := by
  cases hs with
  | emit mapId reduceId fuel data inter m hmap hreduce hlen hbyte hrun =>
    obtain ⟨hne, hown, hkeeps⟩ := (h.unused mapId hmap).emit (J.client_lt mapId hmap) hrun
    refine ⟨fun i hi => ?_, fun k => ?_⟩
    · by_cases him : i = mapId
      · rw [him]
        exact hown
      · have hdiff : J.client i ≠ J.client mapId := fun he => him (J.client_inj i hi mapId hmap he)
        exact (h.unused i hi).others hdiff hown hkeeps
    · by_cases hk : k = J.getVecIndex mapId reduceId
      · simp [hk, hne]
      · simpa [hk] using h.emitted k

theorem JobReach.inv (h : JobReach J s) : JobInv J s := by
  refine @Reach.invariant _ _ _ _ (fun s => JobInv J s) ?_ ?_ _ h
  · exact fun s hi _ => hi.inv
  · exact fun s s' hinv _ hs _ => hinv.step hs

theorem JobInv.not_held (h : JobInv J s) {i : Nat} (hi : i < J.mapNum) (b x : Nat) :
    ¬ HeldBlock (J.client i) s.area b x := fun hx => not_held_empty ((h.unused i hi).pool.heldBlock_iff.mp hx)

/-- **The buffers are intact as long as nothing is in them.** -/
theorem buffers_intact_iff (h : JobReach J s) : BuffersIntact J s ↔ ∀ k, s.emitted k = [] := by
  have hinv := h.inv
  constructor
  · intro hintact k
    by_contra hne
    have hvec : s.vec k ≠ [] := fun he => hne ((hinv.emitted k).mp he)
    obtain ⟨chunk, hchunk⟩ := List.exists_mem_of_ne_nil _ hvec
    obtain ⟨i, hi, b, hheld⟩ := hintact.allocated k chunk hchunk
    exact hinv.not_held hi b _ hheld
  · intro hnone
    have hvec : ∀ k, s.vec k = [] := fun k => (hinv.emitted k).mpr (hnone k)
    refine ⟨fun k => ?_, fun k chunk hchunk => ?_, fun k p k' p' chunk chunk' hp => ?_⟩
    · rw [hvec, hnone]
      rfl
    · rw [hvec] at hchunk
      exact absurd hchunk List.not_mem_nil
    · rw [hvec] at hp
      simp at hp

end Runs

/-- One mapper, client 1, and two reducers, in an area with room for one segment. -/
def oneMapper : Job where
  mapNum := 1
  reduceNum := 2
  size := 2 ^ 27 + 2 ^ 26
  client := fun _ => 1
  client_inj := fun i hi j hj _ => by omega
  client_lt := fun _ _ => by decide

def jobStart : JobState := ⟨freshArea, fun _ => [], fun _ => []⟩

theorem jobStart_init : JobInit oneMapper jobStart :=
  ⟨fun _ _ => freshArea_init, fun _ => Nat.two_pow_pos 32, rfl, rfl⟩

theorem buffers_intact_iff_start : BuffersIntact oneMapper jobStart :=
  (buffers_intact_iff (Reach.init jobStart_init trivial)).mpr fun _ => rfl

/-- A record for reducer 0, then one for reducer 1: both lists have the same chunk, and reducer 0 reads the second
record. -/
theorem buffers_overwritten : ∃ s, JobReach oneMapper s ∧ s.emitted 0 = [[97]] ∧
    readList (s.vec 0) s.area = [98] ∧ ¬ BuffersIntact oneMapper s := by
  have hsize : segmentsAreaStart + segmentSize ≤ oneMapper.size := by decide
  have h₀ : JobReach oneMapper jobStart := Reach.init jobStart_init trivial
  have hunused := h₀.inv.unused 0 (by decide)
  obtain ⟨m₁, hfirst⟩ := hunused.emit_first (by decide) rfl hsize [97]
  have hstep₁ := hunused.emit (by decide) hfirst
  obtain ⟨m₂, hsecond⟩ :=
    hstep₁.2.1.emit_first (by decide) (hstep₁.2.1.segment_back rfl hstep₁.2.2) hsize [98]
  have h₁ := h₀.step (.emit 0 0 2 [97] _ _ (by decide) (by decide) (by decide) (by decide) hfirst) trivial
  have h₂ := h₁.step (.emit 0 1 2 [98] _ _ (by decide) (by decide) (by decide) (by decide) hsecond) trivial
  have hread : readList [⟨pageStart (0, 2) + sizeofCxlObj, 1⟩] (memcpy (pageStart (0, 2) + sizeofCxlObj) [98] m₂) = [98] := by
    have hbyte := m₂.byteAt_storeByte_self (pageStart (0, 2) + sizeofCxlObj) 98 (by decide)
    simp [readList, memcpy, hbyte]
  refine ⟨_, h₂, rfl, hread, fun hintact => ?_⟩
  have hcontents : readList _ _ = [97] := hintact.contents 0
  have hsame := hcontents.symm.trans hread
  simp at hsame

end CxlShm
